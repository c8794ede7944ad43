import ShaderExpr.Proofs.Expr.Evaluation
import ShaderExpr.Proofs.Reading.Trees

namespace ShaderExpr

/-- A scope as declarations leave it, also behind problems. -/
structure Scope.WellFormed (s : Scope) : Prop where
  named : s.Named
  declared : ∀ x ∈ s.declared, x.WellFormed
  names : (s.declared.map (·.name)).Nodup
  ids : (s.declared.map (·.id)).Nodup
  fresh : ∀ x ∈ s.declared, x.id < s.nextId

namespace Scope

theorem WellFormed.empty : empty.WellFormed := by
  constructor <;> simp [Scope.empty, Named]

theorem WellFormed.extend {s s' : Scope} (h : s.WellFormed) (extends_ : s.Extends s') :
    s'.WellFormed := by
  refine ⟨extends_.named h.named, ?_, ?_, ?_, ?_⟩
  · rw [extends_.declared]
    exact h.declared
  · rw [extends_.declared]
    exact h.names
  · rw [extends_.declared]
    exact h.ids
  · rw [extends_.declared, extends_.nextId]
    exact h.fresh

theorem place_eq_append {x : Variable} {xs : List Variable} (free : ∀ y ∈ xs, y.name ≠ x.name) :
    place x xs = xs ++ [x] := by
  induction xs with
  | nil => rfl
  | cons y xs ih =>
    rw [place, if_neg (free y List.mem_cons_self),
      ih fun z hz => free z (List.mem_cons_of_mem y hz)]
    rfl

theorem nodup_map_concat {κ : Type} {f : Variable → κ} {xs : List Variable} {x : Variable}
    (h : (xs.map f).Nodup) (new : ∀ y ∈ xs, f y ≠ f x) : ((xs ++ [x]).map f).Nodup := by
  rw [List.map_append, List.map_singleton]
  refine List.nodup_append.mpr ⟨h, by simp, fun a ha b hb => ?_⟩
  obtain ⟨y, hy, rfl⟩ := List.mem_map.mp ha
  rw [List.mem_singleton.mp hb]
  exact new y hy

/-- A variable under a free name is declared behind the others. -/
theorem WellFormed.addVariable {s : Scope} (h : s.WellFormed) {name : String} {ty : Ty}
    {q : Qualifier} {initial : Option Value} (free : s.variableNamed name = none)
    (valid : (s.addVariable name ty q initial).1.WellFormed) :
    (s.addVariable name ty q initial).2.WellFormed := by
  have hfree : ∀ y ∈ s.declared, y.name ≠ name := by
    simpa [variableNamed] using free
  have hdeclared : (s.addVariable name ty q initial).2.declared =
      s.declared ++ [(s.addVariable name ty q initial).1] := place_eq_append hfree
  have hfresh : ∀ y ∈ s.declared, y.id < s.nextId := h.fresh
  refine ⟨h.named, fun x hx => ?_, ?_, ?_, fun x hx => ?_⟩
  · rw [hdeclared] at hx
    rcases List.mem_append.mp hx with hx | hx
    · exact h.declared x hx
    · rw [List.mem_singleton.mp hx]
      exact valid
  · rw [hdeclared]
    exact nodup_map_concat h.names hfree
  · rw [hdeclared]
    exact nodup_map_concat h.ids fun y hy => Nat.ne_of_lt (hfresh y hy)
  · rw [hdeclared] at hx
    rcases List.mem_append.mp hx with hx | hx
    · exact Nat.lt_succ_of_lt (hfresh x hx)
    · rw [List.mem_singleton.mp hx]
      exact Nat.lt_succ_self s.nextId

end Scope

namespace Evaluator

variable {α β : Type}

/-- Reading from `c` meets no fault and ends as `Q` says. -/
def Gives (r : Evaluator α) (c : Cursor) (Q : α → Cursor → Prop) : Prop :=
  ∃ a c', r c = .ok (a, c') ∧ Q a c'

namespace Gives

variable {r : Evaluator α} {f : α → Evaluator β} {c : Cursor} {P Q : α → Cursor → Prop}
  {R : β → Cursor → Prop}

theorem mono (h : r.Gives c P) (hPQ : ∀ a c', P a c' → Q a c') : r.Gives c Q := by
  obtain ⟨a, c', hr, hP⟩ := h
  exact ⟨a, c', hr, hPQ a c' hP⟩

theorem pure {a : α} (h : Q a c) : (pure a : Evaluator α).Gives c Q := ⟨a, c, rfl, h⟩

theorem lift {r : Reader α} (h : Q (r c).1 (r c).2) : (liftM r : Evaluator α).Gives c Q :=
  ⟨(r c).1, (r c).2, rfl, h⟩

theorem bind (h : r.Gives c P) (hf : ∀ a c', P a c' → (f a).Gives c' R) : (r >>= f).Gives c R := by
  obtain ⟨a, c', hr, hP⟩ := h
  obtain ⟨b, c'', hrun, hR⟩ := hf a c' hP
  refine ⟨b, c'', ?_, hR⟩
  change (r c >>= fun (a, c') => f a c') = _
  rw [hr]
  exact hrun

theorem lift_bind {r : Reader α} (h : (f (r c).1).Gives (r c).2 R) :
    ((liftM r : Evaluator α) >>= f).Gives c R :=
  h

/-- Reading goes on where a reader that changes nothing leaves it. -/
theorem look_bind {r : Reader α} {a : α} (hr : r c = (a, c)) (h : (f a).Gives c R) :
    ((liftM r : Evaluator α) >>= f).Gives c R := by
  refine lift_bind ?_
  rw [hr]
  exact h

theorem advance_bind {f : Unit → Evaluator β} (h : (f ()).Gives c.advance R) :
    ((liftM Reader.advance : Evaluator Unit) >>= f).Gives c R :=
  h

theorem except_bind {x : Except Fault α} {a : α} (hx : x = .ok a) (h : (f a).Gives c R) :
    ((liftM x : Evaluator α) >>= f).Gives c R := by
  subst hx
  exact h

theorem ite {b : Prop} [Decidable b] {yes no : Evaluator α} (hyes : b → yes.Gives c Q)
    (hno : ¬b → no.Gives c Q) : (if b then yes else no).Gives c Q := by
  split
  · exact hyes ‹_›
  · exact hno ‹_›

end Gives

end Evaluator

namespace Reader

open Evaluator

variable {xs : List Variable}

/-- No word says that a variable is one of the body function. -/
theorem qualifierWords_builds : ∀ (bound : Nat) (q : Qualifier), q.storage ≠ .body →
    Builds xs (qualifierWords bound q) fun q' => q'.storage ≠ .body := by
  intro bound
  induction bound with
  | zero => exact fun q h => .pure h
  | succ bound ih =>
    intro q h
    unfold qualifierWords
    refine .look_bind (fun _ => rfl) fun kind => ?_
    split
    · split
      · rename_i word _ said known
        have hqualify : Builds xs (qualify word said q) fun q' => q'.storage ≠ .body := by
          unfold qualify
          cases said with
          | storage s =>
            have hs : s ≠ .body := by
              rintro rfl
              exact storageClass_of_qualifierWord? known rfl
            exact .ite (fun _ => .quiet_bind (fun _ => rfl) fun _ => .pure hs) fun _ => .pure hs
          | modifier m =>
            exact .ite (fun _ => .quiet_bind (fun _ => rfl) fun _ => .pure h) fun _ => .pure h
          | inout => exact .quiet_bind (fun _ => rfl) fun _ => .pure h
        exact hqualify.bind fun q' h' => .advance_bind (ih q' h')
      · exact .pure h
    · exact .pure h

theorem qualifier_builds : Builds xs qualifier fun q => q.storage ≠ .body := by
  unfold qualifier
  refine .look_bind (fun _ => rfl) fun _ =>
    (qualifierWords_builds _ {} (by simp)).bind fun q hq => ?_
  exact .ite (fun _ => .quiet_bind (fun _ => rfl) fun _ => .pure hq) fun _ => .pure hq

/-- The value of an initializer that was read. Without a problem there is one, and it has the type
    of the variable by the conversion. -/
theorem initialValue_gives {c : Cursor} (hc : c.scope.WellFormed) {e : Expr}
    (tree : e.WellTyped c.scope.declared) (name : String) (ty : Ty) (q : Qualifier) (span : Span) :
    (initialValue name ty q span e).Gives c fun initial c' => c'.scope = c.scope ∧
      c.Passes c' (q.storage.canInitialize ∧ ∃ v, initial = some v ∧ v.ty = ty) := by
  unfold initialValue
  refine .ite (fun _ => .lift_bind (.pure ⟨rfl, c.passes_report ..⟩)) fun hplace => ?_
  refine .ite (fun _ => .lift_bind (.pure ⟨rfl, c.passes_report ..⟩)) fun hfits => ?_
  have hplace : q.storage.canInitialize = true := by simpa using hplace
  have hfits : e.ty.convertsTo ty = true := by simpa using hfits
  rcases (tree.settles hc.declared).constant? with ⟨v, hv, hty⟩ | hnone
  · obtain ⟨w, hw⟩ := Option.isSome_iff_exists.mp (Value.convert_isSome (hty ▸ hfits))
    exact .except_bind hv (.pure ⟨rfl, .of_diagnostics_eq rfl
      ⟨hplace, w, hw, Value.ty_of_convert_toOption hw⟩⟩)
  · exact .except_bind hnone (.lift_bind (.pure ⟨rfl, c.passes_report ..⟩))

/-- What a variable starts with. Without a problem it is a value of its type, or nothing where that
    is allowed. -/
structure Starts (ty : Ty) (q : Qualifier) (initial : Option Value) : Prop where
  typed : ∀ v, initial = some v → v.ty = ty ∧ q.storage.canInitialize
  constant : q.isConstant → initial.isSome

/-- Reading an expression meets no fault in itself. -/
theorem expression_gives {c : Cursor} (hc : c.scope.WellFormed) :
    (liftM expression : Evaluator Expr).Gives c fun e c' => c.scope.Extends c'.scope ∧
      e.WellTyped c'.scope.declared ∧ c.Passes c' True := by
  obtain ⟨hextends, htree⟩ := expression_builds c hc.named rfl
  refine .lift ⟨hextends, ?_, (expression_accepts c).mono fun _ _ _ => trivial⟩
  rw [hextends.declared]
  exact htree

theorem initializer_gives {c : Cursor} (hc : c.scope.WellFormed) (name : String)
    (nameSpan : Span) (ty : Ty) (q : Qualifier) :
    (initializer name nameSpan ty q).Gives c fun initial c' =>
      c.scope.Extends c'.scope ∧ c.Passes c' (Starts ty q initial) := by
  unfold initializer
  refine .look_bind rfl (.ite (fun _ => ?_) fun _ => ?_)
  · have hscope := c.advance_scope
    refine .advance_bind (.look_bind rfl (.look_bind rfl ?_))
    refine (expression_gives (hscope ▸ hc)).bind ?_
    rintro e c₁ ⟨hextends, htree, hle, -⟩
    rw [hscope] at hextends
    rw [c.advance_diagnostics] at hle
    refine .look_bind rfl (.ite (fun hproblems => ?_) fun _ => ?_)
    · refine .pure ⟨hextends, hle, fun hquiet => ?_⟩
      rw [c.advance_diagnostics] at hproblems
      omega
    · refine (initialValue_gives (hc.extend hextends) htree name ty q _).mono ?_
      rintro initial c₂ ⟨hscope', hle', hclean⟩
      refine ⟨hscope' ▸ hextends, Nat.le_trans hle hle', fun hquiet => ?_⟩
      obtain ⟨hplace, v, rfl, hty⟩ := hclean (by omega)
      exact ⟨fun w hw => Option.some.inj hw ▸ ⟨hty, hplace⟩, fun _ => rfl⟩
  · refine .ite (fun _ => .lift_bind (.pure ⟨.refl _, c.passes_report ..⟩)) fun hvaries => ?_
    exact .pure ⟨.refl _, .of_diagnostics_eq rfl ⟨by simp, fun h => absurd h hvaries⟩⟩

theorem quiet_checkVariable (name : String) (nameSpan : Span) (ty : Ty) :
    (checkVariable name nameSpan ty).Quiet := by
  unfold checkVariable
  have hname : Quiet (do
      if ((← scope).variableNamed name).isSome then
        reportAt nameSpan (.redefinedVariable name)) := by
    refine .bind (fun _ => rfl) fun s => ?_
    split <;> exact fun _ => rfl
  split
  · exact .bind (fun _ => rfl) fun _ => hname
  · exact hname

/-- A variable is declared only if nothing was wrong with it. -/
theorem variableDeclaration_gives {c : Cursor} (hc : c.scope.WellFormed) {q : Qualifier}
    (outside : q.storage ≠ .body) (ty : Ty) (name : String) :
    (variableDeclaration q ty name).Gives c fun _ c' => c'.scope.WellFormed := by
  unfold variableDeclaration
  refine .look_bind rfl (.advance_bind (.look_bind rfl ?_))
  have hcheck : (liftM (checkVariable name c.span ty) : Evaluator Unit).Gives c.advance fun _ c₁ =>
      c₁.scope = c.scope ∧
        c.advance.Passes c₁ (ty.isVoid = false ∧ c.scope.variableNamed name = none) := by
    refine .lift ⟨(quiet_checkVariable name c.span ty _).trans c.advance_scope, ?_⟩
    have hstays := checkVariable_stays name c.span ty c.advance
    rw [c.advance_scope] at hstays
    exact Yields.mono hstays fun _ _ h => h.2
  refine hcheck.bind ?_
  rintro _ c₁ ⟨hscope, hchecked⟩
  refine (initializer_gives (hscope ▸ hc) name c.span ty q).bind ?_
  rintro initial c₂ ⟨hextends, hstarts⟩
  rw [hscope] at hextends
  have hc₂ := hc.extend hextends
  refine .look_bind rfl (.bind (P := fun _ c₃ => c₃.scope = c₂.scope)
    (.lift (quiet_expectControl _ _ c₂)) fun _ c₃ hscope₃ => ?_)
  refine .ite (fun hvalid => ?_) fun _ => .pure (hscope₃ ▸ hc₂)
  obtain ⟨⟨hvoid, hfree⟩, htyped, hconstant⟩ :=
    (hchecked.trans hstarts fun h h' => And.intro h h').2 (by simpa using hvalid)
  refine ⟨(), _, rfl, ?_⟩
  change (c₃.scope.addVariable name ty q initial).2.WellFormed
  rw [hscope₃]
  have hglobal (h : q.isConstant) : q.storage = .global := by
    obtain ⟨v, hv⟩ := Option.isSome_iff_exists.mp (hconstant h)
    have hplace := (htyped v hv).2
    cases hstorage : q.storage <;> simp_all [Storage.canInitialize]
  refine hc₂.addVariable ?_ ⟨hvoid, htyped, fun h => ⟨hconstant h, hglobal h⟩⟩
  rw [← hfree, Scope.variableNamed, Scope.variableNamed, hextends.declared]

theorem declaration_gives {c : Cursor} (hc : c.scope.WellFormed) :
    declaration.Gives c fun _ c' => c'.scope.WellFormed := by
  unfold declaration
  obtain ⟨hextends, houtside⟩ := qualifier_builds c hc.named rfl
  refine .bind (P := fun q c₁ => c₁.scope.WellFormed ∧ q.storage ≠ .body)
    (.lift ⟨hc.extend hextends, houtside⟩) fun q c₁ ⟨hc₁, hq⟩ => ?_
  obtain ⟨hextends₁, -⟩ := type_builds c₁ hc₁.named rfl
  refine .bind (P := fun _ c₂ => c₂.scope.WellFormed) (.lift (hc₁.extend hextends₁))
    fun ty? c₂ hc₂ => ?_
  cases ty? with
  | none => exact .lift_bind (.lift hc₂)
  | some ty =>
    refine .look_bind rfl (.ite (fun _ => .lift ?_) fun _ => .look_bind rfl ?_)
    · change c₂.advance.scope.WellFormed
      rw [c₂.advance_scope]
      exact hc₂
    · split
      · exact variableDeclaration_gives hc₂ hq ty _
      · exact .lift_bind (.lift hc₂)

theorem declarations_gives : ∀ (bound : Nat) {c : Cursor}, c.scope.WellFormed →
    (declarations bound).Gives c fun _ c' => c'.scope.WellFormed := by
  intro bound
  induction bound with
  | zero => exact fun hc => .pure hc
  | succ bound ih =>
    intro c hc
    unfold declarations
    refine .look_bind (startsDeclaration_eq c) (.ite (fun _ => ?_) fun _ => .pure hc)
    exact (declaration_gives hc).bind fun _ _ => ih

/-- Reading a source meets no fault, and its tree is well typed over the variables declared. -/
theorem source_gives {c : Cursor} (hc : c.scope.WellFormed) :
    source.Gives c fun e c' => c'.scope.WellFormed ∧ e.WellTyped c'.scope.declared := by
  unfold source
  refine .look_bind rfl ((declarations_gives _ hc).bind fun _ c₁ hc₁ => ?_)
  refine (expression_gives hc₁).bind ?_
  rintro e c₂ ⟨hextends, htree, -⟩
  have hc₂ := hc₁.extend hextends
  have hend {c₃ : Cursor} (hscope : c₃.scope = c₂.scope) : Evaluator.Gives (do
      let found ← (liftM kind : Evaluator Token.Kind)
      if found ≠ .endOfInput then liftM (report (.expectedEnd found))
      return e) c₃ fun e c' => c'.scope.WellFormed ∧ e.WellTyped c'.scope.declared := by
    rw [← hscope] at hc₂ htree
    exact .look_bind rfl (.ite (fun _ => .lift_bind (.pure ⟨hc₂, htree⟩))
      fun _ => .pure ⟨hc₂, htree⟩)
  refine .look_bind rfl (.ite (fun _ => .advance_bind (hend c₂.advance_scope)) fun _ => hend rfl)

end Reader

/-- Every source is read without a fault. There is a tree as soon as there are tokens. -/
theorem Reading.ofSource_total (source : String) {scope : Scope} (hscope : scope.WellFormed) :
    ∃ reading, Reading.ofSource source scope = .ok reading ∧ reading.scope.WellFormed ∧
      reading.expression.isSome = (lex source).1.isSome ∧
      ∀ e, reading.expression = some e → e.WellTyped reading.scope.declared := by
  obtain ⟨⟨tokens?, errors⟩, hlex⟩ : ∃ r, lex source = r := ⟨_, rfl⟩
  rw [hlex]
  cases tokens? with
  | none =>
    refine ⟨⟨none, scope, errors⟩, ?_, hscope, rfl, by simp⟩
    rw [ofSource, hlex]
  | some tokens =>
    obtain ⟨e, c, hrun, hc, htree⟩ := Reader.source_gives
      (c := ⟨tokens.tokens, source.utf8ByteSize, ⟨0, 0⟩, scope, []⟩) hscope
    exact ⟨_, ofSource_eq_ok hlex hrun, hc, rfl, fun e' he => Option.some.inj he ▸ htree⟩

/-- Wherever a source has tokens, every part of its tree passed the check of its kind, with or
    without problems, and a value that a part has at compile time is of the type of that part.
    Without tokens there is no tree: that is when an error of lexing is followed by no token. -/
theorem Reading.fits {source : String} {tokens : TokenList} {errors : List Diagnostic}
    (hlex : lex source = (some tokens, errors)) :
    ∃ reading e, Reading.ofSource source .empty = .ok reading ∧ reading.expression = some e ∧
      ∀ s : Expr, s.Within e → s.Fits reading.scope.declared ∧
        ∀ v, s.constant? = .ok (some v) → v.ty = s.ty ∧ v.data.length = s.ty.size := by
  obtain ⟨reading, hreading, hscope, hsome, htree⟩ := ofSource_total source Scope.WellFormed.empty
  rw [hlex] at hsome
  obtain ⟨e, he⟩ := Option.isSome_iff_exists.mp hsome
  refine ⟨reading, e, hreading, he, fun s hs => ?_⟩
  have hs : s.WellTyped reading.scope.declared := (htree e he).within hs
  refine ⟨hs.holds, fun v hv => ?_⟩
  have hty : v.ty = s.ty := by
    rcases (hs.settles hscope.declared).constant? with ⟨w, hw, hty⟩ | hnone
    · obtain rfl : w = v := by simpa [hw] using hv
      exact hty
    · simp [hnone] at hv
  exact ⟨hty, by rw [v.size_eq, hty]⟩

/-- A selection of a constant beside an unknown name. -/
theorem Reading.fits_unknown : ∃ reading e,
    Reading.ofSource "const vec2 v = vec2(1, 2); v.yx * 2 + w" .empty = .ok reading ∧
      reading.expression = some e ∧
      ∀ s : Expr, s.Within e → s.Fits reading.scope.declared ∧
        ∀ v, s.constant? = .ok (some v) → v.ty = s.ty ∧ v.data.length = s.ty.size := by
  have htokens : (lex "const vec2 v = vec2(1, 2); v.yx * 2 + w").1.isSome := by decide +kernel
  obtain ⟨tokens, htokens⟩ := Option.isSome_iff_exists.mp htokens
  exact Reading.fits (Prod.ext htokens rfl)

/-- Whatever problems a source has, its variables have types and can be told apart, constants are
    global and have a value, and initial values have the type of their variable, of which there is
    none where the declaration cannot give one. A variable is declared only when nothing was wrong
    with it, so no hypothesis on the source is needed. -/
theorem Reading.declares (source : String) :
    ∃ reading, Reading.ofSource source .empty = .ok reading ∧
      (∀ x ∈ reading.scope.declared, x.ty.isVoid = false ∧
        (x.qualifier.isConstant → x.qualifier.storage = .global ∧ x.initial.isSome) ∧
        (x.qualifier.storage = .input ∨ x.qualifier.storage = .output ∨
          x.qualifier.storage = .uniform → x.initial = none) ∧
        ∀ v, x.initial = some v → v.ty = x.ty ∧ v.data.length = x.ty.size) ∧
      (reading.scope.declared.map (·.name)).Nodup ∧ (reading.scope.declared.map (·.id)).Nodup := by
  obtain ⟨reading, hreading, hscope, -, -⟩ := ofSource_total source Scope.WellFormed.empty
  refine ⟨reading, hreading, fun x hx => ?_, hscope.names, hscope.ids⟩
  have hx := hscope.declared x hx
  have htyped (v : Value) (hv : x.initial = some v) : v.ty = x.ty := (hx.initial v hv).1
  refine ⟨hx.present, fun h => (hx.constant h).symm, fun hstorage => ?_, fun v hv => ?_⟩
  · exact hx.initial_eq_none (by rcases hstorage with h | h | h <;> rw [h] <;> rfl)
  · exact ⟨htyped v hv, by rw [v.size_eq, htyped v hv]⟩

/-- A program is read without faults into a scope as declarations leave it, and every node of its
    tree passed its check. -/
theorem Program.wellFormed_of_parseIn {source : String} {scope : Scope} {p : Program}
    (hscope : scope.WellFormed) (h : parseIn source scope = .ok p) :
    p.scope.WellFormed ∧ p.expression.WellTyped p.scope.declared := by
  obtain ⟨reading, hreading, hwellFormed, -, htree⟩ := Reading.ofSource_total source hscope
  unfold parseIn at h
  rw [hreading] at h
  dsimp only at h
  split at h
  · rename_i expression hexpression _
    obtain rfl := Except.ok.inj h
    exact ⟨hwellFormed, htree expression hexpression⟩
  · exact nomatch h

/-- Reading can be run. -/
theorem Program.parse_eq_ok_of_isSome (source : String) (h : (parse source).toOption.isSome) :
    ∃ p, parse source = .ok p := by
  cases hp : parse source with
  | error => simp [hp, Except.toOption] at h
  | ok p => exact ⟨p, rfl⟩

end ShaderExpr
