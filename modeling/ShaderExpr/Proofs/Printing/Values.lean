import ShaderExpr.Proofs.Grammar.Arguments
import ShaderExpr.Proofs.Printing.RoundTrip
import ShaderExpr.Proofs.Printing.Signs
import ShaderExpr.Proofs.Printing.Writable
import ShaderExpr.Proofs.Running.Construction
import ShaderExpr.Proofs.Value.Canonical

namespace ShaderExpr

variable {s : Scope} {v : Value} {x : Scalar}

/-- A text that is read in a scope as an expression, wherever an argument can stand, and adds
    nothing to the scope. The expression has a value at compile time. -/
structure Denotes (s : Scope) (text : String) (v : Value) (ks : Phrase.Kinds) (e : Expr) :
    Prop where
  renders : Renders text.toList ks EndsPhrase
  derived : Phrase.Assignment s ks e s
  closed : ∀ us, ¬Phrase.Opens s (ks ++ us)
  ty : e.ty = v.ty
  value : e.fold = .ok v

namespace Denotes

/-- A text of its own is a program whose expression has the value. -/
theorem parseIn {text : String} {ks : Phrase.Kinds} {e : Expr} (h : Denotes s text v ks e) :
    Program.parseIn text s = .ok ⟨s, e⟩ ∧ e.constant? = .ok (some v) := by
  have hspaced : Spaced text.toList ks := by
    have hrenders := h.renders [] [] (by simp [EndsPhrase]) .done
    rwa [List.append_nil, List.append_nil] at hrenders
  have hopens := h.closed []
  rw [List.append_nil] at hopens
  refine ⟨Program.parseIn_of_spaced hspaced h.derived hopens, ?_⟩
  rw [Expr.constant?, h.value]

/-- Arguments with the values `vs`. -/
theorem arguments {texts : List String} {vs : List Value}
    (h : List.Forall₂ (fun text v => ∃ ks e, Denotes s text v ks e) texts vs) :
    ∃ kss es, List.Forall₂ (fun text ks => Renders text.toList ks EndsPhrase) texts kss ∧
      List.Forall₂ (fun e ks => Phrase.Assignment s ks e s) es kss ∧
      es.map Expr.ty = vs.map (·.ty) ∧ Expr.foldAll es = .ok vs := by
  induction h with
  | nil => exact ⟨[], [], .nil, .nil, rfl, rfl⟩
  | @cons text v texts vs first _ ih =>
    obtain ⟨ks, e, hfirst⟩ := first
    obtain ⟨kss, es, hrenders, hderived, htypes, hvalues⟩ := ih
    refine ⟨ks :: kss, e :: es, .cons hfirst.renders hrenders, .cons hfirst.derived hderived, ?_, ?_⟩
    · rw [List.map_cons, List.map_cons, hfirst.ty, htypes]
    · rw [Expr.foldAll, hfirst.value, hvalues]
      rfl

/-- A constructor call with arguments that are read, once it is an expression of the grammar. `hty`
    says how the type is written in the scope. -/
theorem called {ty : Ty} {texts : List String} {kss : List Phrase.Kinds} {e : Expr}
    (hty : ty.Written s)
    (hrenders : List.Forall₂ (fun text ks => Renders text.toList ks EndsPhrase) texts kss)
    (hprimary : Phrase.Primary s (ty.kinds ++ Phrase.enclosed (Phrase.separated kss)) e s)
    (typed : e.ty = v.ty) (value : e.fold = .ok v) :
    Denotes s (ty.text ++ "(" ++ ", ".intercalate texts ++ ")") v
      (ty.kinds ++ Phrase.enclosed (Phrase.separated kss)) e := by
  refine ⟨?_, ?_, Expr.not_opens_type hty _, typed, value⟩
  · have htext : ty.text ++ "(" ++ ", ".intercalate texts ++ ")" =
        ty.text ++ Expr.parenthesized (", ".intercalate texts) := by
      simp [Expr.parenthesized, String.append_assoc]
    rw [htext]
    exact (Expr.renders_called hty.renders hrenders).mono fun _ _ => trivial
  · exact Phrase.Binds.loosen (p := 14) (q := 0) (.primary hprimary) (by omega) (by omega)

end Denotes

theorem Folding.negation_ofScalar {y : Scalar} (h : opposite y = .ok x) (hty : y.type = x.type) :
    negation (.ofScalar y) = .ok (.ofScalar x) := by
  have hbasic : (Value.ofScalar y).ty.isBasic := rfl
  rw [negation, if_pos hbasic, Value.components_ofScalar, List.mapM_cons, h]
  change Except.ok (Value.ofComponents (.scalar y.type) [x]) = _
  rw [hty]
  rfl

theorem Scalar.denotes (finite : x.IsFinite) (s : Scope) :
    ∃ ks e, Denotes s x.text (.ofScalar x) ks e := by
  obtain ⟨text, htext, hrenders, hstarts⟩ := exists_numeral finite
  cases hsign : x.isNegative with
  | false =>
    rw [hsign] at htext
    rw [magnitude_of_not hsign] at hrenders
    refine ⟨[.literal x], .constant (.ofScalar x), ?_, ?_, ?_, rfl, rfl⟩
    · rw [htext]
      exact hrenders
    · exact Phrase.Binds.loosen (p := 14) (q := 0) (.primary (.literal x)) (by omega) (by omega)
    · intro us
      simp [Phrase.Opens, Reader.opensDeclaration]
  | true =>
    rw [hsign] at htext
    refine ⟨[.control '-', .literal x.magnitude], .negate (.constant (.ofScalar x.magnitude)), ?_, ?_,
      fun us => Expr.not_opens_mark s '-' _, ?_, ?_⟩
    · rw [htext, if_pos rfl]
      exact renders_minus.append hrenders fun rest _ => (hstarts.append rest).head?
    · have hliteral : Phrase.Unary s [.literal x.magnitude] (.constant (.ofScalar x.magnitude)) s :=
        .postfixed (.primary (.literal _))
      have hnumber : x.magnitude.type ≠ .bool := by
        rw [type_magnitude]
        cases x <;> simp [isNegative, type] at hsign ⊢
      exact Phrase.Binds.loosen (p := 13) (q := 0)
        (.minus hliteral rfl fun hbool => hnumber (Option.some.inj hbool)) (by omega) (by omega)
    · change Ty.scalar x.magnitude.type = .scalar x.type
      rw [type_magnitude]
    · exact Folding.negation_ofScalar (opposite_magnitude hsign) (type_magnitude x)

theorem Value.exists_ofScalar {t : ScalarType} (hty : v.ty = .scalar t) (h : v.Canonical) :
    ∃ x, v = .ofScalar x := by
  have hbasic : v.ty.isBasic := by rw [hty]; rfl
  have hlength := length_components hbasic
  rw [hty] at hlength
  obtain ⟨x, hx⟩ := List.length_eq_one_iff.mp hlength
  have htype : x.type = t := components_type (by rw [hty]; rfl) x (by simp [hx])
  refine ⟨x, ?_⟩
  rw [← h.ofComponents_components hbasic, hx, hty, ofScalar, htype]

namespace Ty

theorem totalCount_scalars (cs : List Scalar) :
    totalCount (cs.map fun c => (Value.ofScalar c).ty) = cs.length := by
  induction cs with
  | nil => rfl
  | cons c cs ih =>
    rw [List.map_cons, totalCount, ih, List.length_cons, Nat.add_comm]
    rfl

/-- As many scalars as a type has components fill it. -/
theorem filledBy_scalars {ty : Ty} {cs : List Scalar} (count : cs.length = ty.componentCount)
    (any : cs ≠ []) : ty.FilledBy (cs.map fun c => (Value.ofScalar c).ty) := by
  refine .inr (.inr ⟨fun t ht => ?_, ?_, fun _ => ?_⟩)
  · obtain ⟨c, -, rfl⟩ := List.mem_map.mp ht
    exact ⟨rfl, fun hmatrix => Bool.false_ne_true hmatrix.1⟩
  · rw [totalCount_scalars]
    exact Nat.le_of_eq count.symm
  · rw [← List.map_dropLast, totalCount_scalars, List.length_dropLast]
    have hpos := List.length_pos_iff.mpr any
    omega

end Ty

/-- Several scalars are the components of what they are put together to. -/
theorem Folding.construct_scalars {ty : Ty} {cs : List Scalar} (several : 2 ≤ cs.length) :
    construct ty (cs.map Value.ofScalar) = .ok (.ofComponents ty cs) := by
  obtain ⟨a, b, rest, rfl⟩ := List.exists_of_two_le_length several
  have hcomponents : ((a :: b :: rest).map Value.ofScalar).flatMap (·.components) =
      a :: b :: rest := by
    rw [List.flatMap_map, List.flatMap_congr fun c _ => Value.components_ofScalar c]
    exact List.flatMap_singleton' _
  change Except.ok (Value.ofComponents ty (((a :: b :: rest).map Value.ofScalar).flatMap
    (·.components))) = _
  rw [hcomponents]

/-- Components are printed one by one. -/
theorem Value.componentTexts_eq {t : ScalarType} (ht : v.ty.component? = some t) :
    componentTexts t v.ty.componentCount v.data = v.components.map Scalar.text := by
  rw [componentTexts, components, List.map_filterMap]
  refine List.filterMap_congr fun i _ => ?_
  rw [get?, ht, Option.bind_some]

theorem Value.denotes_components (basic : v.ty.isBasic) (several : 2 ≤ v.ty.componentCount)
    (hty : v.ty.Written s) (canonical : v.Canonical)
    (hcells : ∀ x ∈ v.datum.cells, x.IsFinite) :
    ∃ ks e, Denotes s (v.ty.text ++ "(" ++ ", ".intercalate (v.components.map Scalar.text) ++ ")")
      v ks e := by
  have hlength := length_components basic
  rw [Machine.cells_datum basic, ← components_eq basic] at hcells
  have harguments : List.Forall₂ (fun text v => ∃ ks e, Denotes s text v ks e)
      (v.components.map Scalar.text) (v.components.map ofScalar) := by
    rw [List.forall₂_map_left_iff, List.forall₂_map_right_iff]
    exact List.forall₂_same.mpr fun x hx => x.denotes (hcells x hx) s
  obtain ⟨kss, es, hrenders, hderived, htypes, hvalues⟩ := Denotes.arguments harguments
  rw [List.map_map] at htypes
  have hfilled : v.ty.FilledBy (es.map Expr.ty) := by
    rw [htypes]
    exact Ty.filledBy_scalars hlength (List.ne_nil_of_length_pos (by omega))
  refine ⟨_, _, Denotes.called hty hrenders (.construct (Expr.constructor_of_written hty (.inl basic))
    (Ty.isStruct_of_isBasic basic) (Expr.arguments_separated hderived) hfilled) rfl ?_⟩
  rw [Expr.fold, hvalues]
  change Folding.construct v.ty (v.components.map ofScalar) = _
  rw [Folding.construct_scalars (by omega), canonical.ofComponents_components basic]

/-- The call of a struct's constructor with its members. The type is written by a name that the
    scope knows, or as a definition without a name. -/
theorem Value.denotes_members {name : Option String} {members : List (String × Ty)}
    {texts : List String} {vs : List Value} (hty : v.ty = .struct name members)
    (written : v.ty.Written s) (typed : List.Forall₂ (fun v m => v.ty = m.2) vs members)
    (present : ∀ v ∈ vs, v.ty.isVoid = false) (hdata : v.data = vs.flatMap (·.data))
    (harguments : List.Forall₂ (fun text v => ∃ ks e, Denotes s text v ks e) texts vs) :
    ∃ ks e, Denotes s (v.ty.text ++ "(" ++ ", ".intercalate texts ++ ")") v ks e := by
  have hstruct : v.ty.isStruct := by rw [hty]; rfl
  have hmembers : List.Forall₂ (fun w m => w.ty = m.2) vs v.ty.members := by rw [hty]; exact typed
  obtain ⟨w, hw, hwty, hwdata⟩ := Function.evaluate_constructor hstruct hmembers present
  obtain rfl : w = v := Value.eq_of_data hwty (hwdata.trans hdata.symm)
  obtain ⟨kss, es, hrenders, hderived, htypes, hvalues⟩ := Denotes.arguments harguments
  have hresolved : Candidates.resolve? [.constructor w.ty] (es.map Expr.ty) =
      some (.constructor w.ty) := by
    refine Candidates.resolve?_single ?_
    rw [htypes, List.forall₂_map_left_iff]
    exact Function.accepted_of_typed hmembers present
  refine ⟨_, _, Denotes.called written hrenders (.make (Expr.constructor_of_written written
    (.inr hstruct)) hstruct (Expr.arguments_separated hderived) hresolved) rfl ?_⟩
  rw [Expr.fold, hvalues]
  change Folding.orNotConstant ((Function.constructor w.ty).evaluate vs) = _
  rw [hw]
  rfl

mutual
/-- The text of a type's bytes is read as the value that has them: a literal, a sign in front of
    one, or a constructor of the texts of its components or members. -/
theorem Ty.denotes : ∀ {ty : Ty} {data : List UInt8} (size : data.length = ty.size),
    ty.isVoid = false → ty.Writable s → ty.Canonical data →
    (∀ x ∈ (ty.datum data).cells, x.IsFinite) →
    ∃ ks e, Denotes s (Value.textOf ty data) ⟨ty, data, size⟩ ks e
  | .scalar t, data, size, _, _, canonical, hcells => by
    obtain ⟨x, hx⟩ := Value.exists_ofScalar (v := ⟨.scalar t, data, size⟩) rfl canonical
    change ∀ y ∈ (Value.datum ⟨.scalar t, data, size⟩).cells, _ at hcells
    change ∃ ks e, Denotes s (Value.text ⟨.scalar t, data, size⟩) _ ks e
    rw [hx, Machine.cells_datum rfl, ← Value.components_eq rfl, Value.components_ofScalar] at hcells
    rw [hx, Value.text_ofScalar]
    exact x.denotes (hcells x (by simp)) s
  | .vector t n, data, size, _, written, canonical, hcells => by
    have htexts : Value.componentTexts t n.toNat data = _ :=
      Value.componentTexts_eq (v := ⟨.vector t n, data, size⟩) rfl
    rw [Value.textOf, htexts]
    exact Value.denotes_components (v := ⟨.vector t n, data, size⟩) rfl n.toNat_bounds.1 written
      canonical hcells
  | .matrix t columns rows, data, size, _, written, canonical, hcells => by
    have htexts : Value.componentTexts t (columns.toNat * rows.toNat) data = _ :=
      Value.componentTexts_eq (v := ⟨.matrix t columns rows, data, size⟩) rfl
    rw [Value.textOf, htexts]
    refine Value.denotes_components (v := ⟨.matrix t columns rows, data, size⟩) rfl ?_ written
      canonical hcells
    exact Nat.le_trans columns.toNat_bounds.1 (Nat.le_mul_of_pos_right _
      (Nat.lt_of_lt_of_le Nat.two_pos rows.toNat_bounds.1))
  | .struct name members, data, size, _, written, canonical, hcells => by
    obtain ⟨vs, htyped, hpresent, hdata, harguments⟩ :=
      Ty.membersDenote size written.2 canonical hcells
    exact Value.denotes_members (v := ⟨.struct name members, data, size⟩) rfl written.1 htyped
      hpresent hdata.symm harguments
theorem Ty.membersDenote : ∀ {members : List (String × Ty)} {data : List UInt8},
    data.length = Ty.membersSize members → Ty.MembersWritable s members →
    Ty.MembersCanonical members data →
    (∀ x ∈ Datum.cellsOf (Ty.memberData members data), x.IsFinite) →
    ∃ vs : List Value, List.Forall₂ (fun v m => v.ty = m.2) vs members ∧
      (∀ v ∈ vs, v.ty.isVoid = false) ∧ vs.flatMap (·.data) = data ∧
      List.Forall₂ (fun text v => ∃ ks e, Denotes s text v ks e) (Value.memberTexts members data) vs
  | [], data, size, _, _, _ => by
    obtain rfl : data = [] := List.length_eq_zero_iff.mp size
    exact ⟨[], .nil, by simp, rfl, .nil⟩
  | (name, ty) :: members, data, size, ⟨holds, hty, hrest⟩, canonical, hcells => by
    rw [Ty.membersSize] at size
    have hsize : (data.take ty.size).length = ty.size := by
      rw [List.length_take]
      omega
    have hbehind : (data.drop ty.size).length = Ty.membersSize members := by
      rw [List.length_drop]
      omega
    have hvoid : ty.isVoid = false := by
      cases ty <;> first | rfl | simp [Ty.isBasic, Ty.isStruct] at holds
    rw [Ty.memberData, Datum.cellsOf] at hcells
    obtain ⟨vs, htyped, hpresent, hdata, harguments⟩ := Ty.membersDenote hbehind hrest canonical.2
      fun x hx => hcells x (List.mem_append_right _ hx)
    refine ⟨⟨ty, data.take ty.size, hsize⟩ :: vs, .cons rfl htyped, ?_, ?_, .cons ?_ harguments⟩
    · simpa using ⟨hvoid, hpresent⟩
    · rw [List.flatMap_cons, hdata, List.take_append_drop]
    · exact Ty.denotes hsize hvoid hty canonical.1 fun x hx => hcells x (List.mem_append_left _ hx)
end

/-- Words name all types that values have, apart from structs. -/
theorem Ty.ofWord?_text {ty : Ty} (proper : ty.isProper) (basic : ty.isBasic) :
    ofWord? ty.text = some ty := by
  cases ty with
  | void | struct => simp [isBasic] at basic
  | scalar s => cases s <;> decide +kernel
  | vector s n => cases s <;> cases n <;> decide +kernel
  | matrix s columns rows =>
    cases s <;> simp only [isProper, ScalarType.isFloating, Bool.false_eq_true] at proper
    all_goals cases columns <;> cases rows <;> decide +kernel

/-- Whatever a value at compile time is, its type can be written down behind its program. -/
theorem Program.writable_of_proper {source : String} {p : Program} (h : parse source = .ok p)
    (proper : p.expression.ty.isProper) : p.expression.ty.Writable p.scope := by
  by_cases hstruct : p.expression.ty.isStruct = true
  · exact writable h hstruct
  · refine Ty.writable_of_ofWord? (Ty.ofWord?_text proper ?_) p.scope
    generalize p.expression.ty = ty at proper hstruct
    cases ty with
    | void => simp [Ty.isProper] at proper
    | struct => exact absurd rfl hstruct
    | scalar | vector | matrix => rfl

/-- Evaluated constants are valid source: the text of a value without infinities and other components
    that are no numbers is read without problems in the scope that its program left, adds nothing
    to it, and has the same value, of the same type and with the same bytes. Infinities would print
    as words that name no constant. -/
theorem Program.parse_constant {source : String} {p : Program} {v : Value}
    (h : parse source = .ok p) (constant : p.expression.constant? = .ok (some v))
    (finite : ∀ x ∈ v.datum.cells, x.IsFinite) :
    ∃ text q, v.text? = some text ∧ parseIn text p.scope = .ok q ∧ q.scope = p.scope ∧
      q.expression.constant? = .ok (some v) := by
  have hfold := Expr.fold_of_constant? constant
  obtain ⟨hvalid, hchecked⟩ := checked h
  have hty : v.ty = p.expression.ty := hchecked.fold_ty hvalid.declared hfold
  have hproper : v.ty.isProper := by
    rw [hty]
    exact hchecked.proper hvalid.declared
  have hwritable : v.ty.Writable p.scope := by
    rw [hty] at hproper ⊢
    exact writable_of_proper h hproper
  have hvoid : v.ty.isVoid = false := by
    generalize v.ty = ty at hproper
    cases ty <;> first | rfl | simp [Ty.isProper] at hproper
  obtain ⟨ks, e, hdenotes⟩ := Ty.denotes v.size_eq hvoid hwritable (canonical h hfold) finite
  obtain ⟨hparse, hvalue⟩ := hdenotes.parseIn
  refine ⟨v.text, ⟨p.scope, e⟩, ?_, hparse, rfl, hvalue⟩
  rw [Value.text?, if_pos (Ty.isComplete_of_isProper hproper)]

/-- The least integer, and a negative component of a vector. -/
theorem Program.parse_constant_lamp : ∃ p v,
    parse "struct Lamp \x7b int n; vec2 v; \x7d; Lamp(-2147483647 - 1, vec2(-1.5, 2.0))" = .ok p ∧
    p.expression.constant? = .ok (some v) ∧ (∀ x ∈ v.datum.cells, x.IsFinite) ∧
    ∃ text q, v.text? = some text ∧ parseIn text p.scope = .ok q ∧ q.scope = p.scope ∧
      q.expression.constant? = .ok (some v) := by
  let lamp : Ty := .struct (some "Lamp") [("n", .scalar .int), ("v", .vector .float .two)]
  let level : Expr := .binary .sub (.scalar .int)
    (.negate (.constant (.ofScalar (.int 2147483647)))) (.constant (.ofScalar (.int 1)))
  let position : Expr := .construct (.vector .float .two)
    [.negate (.constant (.ofScalar (.float ⟨0x3fc00000⟩))),
      .constant (.ofScalar (.float ⟨0x40000000⟩))]
  let p : Program := ⟨⟨[("Lamp", lamp)], [], 0⟩, .call (.constructor lamp) [level, position]⟩
  let v : Value := ⟨lamp, [0, 0, 0, 128, 0, 0, 192, 191, 0, 0, 0, 64], rfl⟩
  have hparse : parse
      "struct Lamp \x7b int n; vec2 v; \x7d; Lamp(-2147483647 - 1, vec2(-1.5, 2.0))" = .ok p := by
    rw [← Except.toOption_eq_some]
    decide +kernel
  have hconstant : p.expression.constant? = .ok (some v) := by
    have hfold : p.expression.fold = .ok v := by
      rw [← Except.toOption_eq_some]
      decide +kernel
    rw [Expr.constant?, hfold]
  have hcells : v.datum.cells = [.int (-2147483648), .float ⟨0xbfc00000⟩, .float ⟨0x40000000⟩] := by
    decide +kernel
  have hfinite : ∀ x ∈ v.datum.cells, x.IsFinite := by
    rw [hcells]
    simp only [List.mem_cons, List.not_mem_nil, or_false, forall_eq_or_imp, forall_eq]
    exact ⟨trivial, ⟨0xc00000, -23, by decide +kernel⟩, ⟨0x800000, -22, by decide +kernel⟩⟩
  exact ⟨p, v, hparse, hconstant, hfinite,
    parse_constant hparse hconstant hfinite⟩

end ShaderExpr
