import ShaderExpr.Proofs.Grammar.Overloads
import ShaderExpr.Proofs.Grammar.Scoping
import ShaderExpr.Proofs.Printing.Printable

namespace ShaderExpr

/-- A name that was free has the type that it is given. -/
theorem Scope.typeNamed_of_addType? {s s' : Scope} {name : String} {ty : Ty}
    (h : s.addType? name ty = some s') : s'.typeNamed name = some ty := by
  unfold addType? at h
  split at h
  · simp at h
  · rw [← Option.some.inj h]
    simp [typeNamed]

namespace Ty

variable {s s' : Scope}

mutual
/-- What can be written can still be written where more structs have names. -/
theorem Written.mono (h : s.Keeps s') : ∀ {ty : Ty}, ty.Written s → ty.Written s'
  | .struct (some _) _, ⟨hname, hty⟩ => ⟨hname, h _ _ hty⟩
  | .struct none _, ⟨hnodup, hmembers⟩ => ⟨hnodup, hmembers.mono h⟩
  | .void, hty | .scalar _, hty | .vector .., hty | .matrix .., hty => hty
theorem MembersWritten.mono (h : s.Keeps s') : ∀ {members : List (String × Ty)},
    MembersWritten s members → MembersWritten s' members
  | [], _ => trivial
  | _ :: _, ⟨hname, holds, hty, hrest⟩ => ⟨hname, holds, hty.mono h, hrest.mono h⟩
end

end Ty

namespace Expr

mutual
/-- An expression and all expressions inside of it. -/
def nodes : Expr → List Expr
  | constant value => [constant value]
  | reference x => [reference x]
  | binary op ty left right => binary op ty left right :: (left.nodes ++ right.nodes)
  | assign op ty target value => assign op ty target value :: (target.nodes ++ value.nodes)
  | negate operand => negate operand :: operand.nodes
  | construct ty arguments => construct ty arguments :: nodesAll arguments
  | call f arguments => call f arguments :: nodesAll arguments
  | member base index => member base index :: base.nodes
  | swizzle base letters indexes => swizzle base letters indexes :: base.nodes
def nodesAll : List Expr → List Expr
  | [] => []
  | e :: rest => e.nodes ++ nodesAll rest
end

/-- Every literal is non-negative and finite, and from no integer a component is selected. The point
    of such a selection would be read as a part of the number. -/
structure PlainLiterals (nodes : List Expr) : Prop where
  plain : ∀ x, constant (.ofScalar x) ∈ nodes → x.IsPlain
  whole : ∀ n letters indexes, swizzle (constant (.ofScalar (.int n))) letters indexes ∉ nodes

theorem PlainLiterals.mono {nodes nodes' : List Expr} (h : PlainLiterals nodes)
    (hsub : ∀ e ∈ nodes', e ∈ nodes) : PlainLiterals nodes' :=
  ⟨fun x hx => h.plain x (hsub _ hx), fun n letters indexes hx => h.whole n letters indexes (hsub _ hx)⟩

end Expr

namespace Phrase

/-- Every name among the tokens can be written. -/
def Identifiers (ks : Kinds) : Prop := ∀ name, .ident name ∈ ks → IsIdentifier name

theorem identifiers_append {ks us : Kinds} :
    Identifiers (ks ++ us) ↔ Identifiers ks ∧ Identifiers us := by
  simp only [Identifiers, List.mem_append]
  exact ⟨fun h => ⟨fun n hn => h n (.inl hn), fun n hn => h n (.inr hn)⟩,
    fun h n hn => hn.elim (h.1 n) (h.2 n)⟩

theorem identifiers_cons {k : Token.Kind} {ks : Kinds} :
    Identifiers (k :: ks) ↔ Identifiers [k] ∧ Identifiers ks :=
  @identifiers_append [k] ks

theorem identifiers_enclosed {ks : Kinds} (h : Identifiers (enclosed ks)) : Identifiers ks :=
  (identifiers_append.mp (identifiers_cons.mp h).2).1

theorem Identifiers.name {name : String} {ks : Kinds} (h : Identifiers (.ident name :: ks)) :
    IsIdentifier name := h name (by simp)

theorem MemberNames.identifiers {ks : Kinds} {names : List String} (h : MemberNames ks names)
    (hks : Identifiers ks) : ∀ name ∈ names, IsIdentifier name := by
  induction h with
  | one name => simpa using hks.name
  | more name _ ih =>
    have hrest := ih (identifiers_cons.mp (identifiers_cons.mp hks).2).2
    simpa using ⟨hks.name, hrest⟩

variable {s s' : Scope}

mutual
/-- A type that was written can be written again, in the scope behind it. -/
theorem Specifier.written : ∀ {s ks ty s'}, Specifier s ks ty s' → s.Named → Identifiers ks →
    ty.Written s'
  | _, _, _, s', .word known, _, _ => Ty.written_of_ofWord? known s'
  | _, _, _, _, .name known, hs, hks => by
    obtain ⟨members, rfl⟩ := hs.struct known
    exact ⟨hks.name, known⟩
  | _, _, _, _, .definition definition, hs, hks => definition.written hs hks
theorem Definition.written : ∀ {s ks ty s'}, Definition s ks ty s' → s.Named → Identifiers ks →
    ty.Written s'
  | _, _, _, _, .anonymous body, hs, hks => by
    have hinside := (identifiers_append.mp (identifiers_cons.mp (identifiers_cons.mp hks).2).2).1
    obtain ⟨hwritten, hnodup⟩ := body.written hs hinside trivial .nil
    exact ⟨hnodup, hwritten⟩
  | _, _, _, _, .named _ free, _, hks =>
    ⟨(identifiers_cons.mp hks).2.name, Scope.typeNamed_of_addType? free⟩
theorem Members.written : ∀ {s found ks all s'}, Members s found ks all s' → s.Named →
    Identifiers ks → Ty.MembersWritten s found → (found.map (·.1)).Nodup →
    Ty.MembersWritten s' all ∧ (all.map (·.1)).Nodup
  | _, _, _, _, _, .done, _, _, hfound, hnodup => ⟨hfound, hnodup⟩
  | _, found, _, _, _, @Members.more _ _ _ _ _ _ _ _ ty names type holds spelled distinct fresh rest,
      hs, hks, hfound, hnodup => by
    obtain ⟨htype, hbehind⟩ := identifiers_append.mp hks
    obtain ⟨hnames, hrest⟩ := identifiers_append.mp hbehind
    have hnew := Ty.membersWritten_map (spelled.identifiers hnames) holds (type.written hs htype)
    have hnodup' : ((found ++ names.map (·, ty)).map (·.1)).Nodup := by
      rw [List.map_append, List.map_map, List.nodup_append]
      refine ⟨hnodup, by simpa [Function.comp_def] using distinct, fun n hn m hm => ?_⟩
      rintro rfl
      exact fresh n (by simpa using hm) hn
    have hall := Ty.membersWritten_append.mpr ⟨hfound.mono type.scope.kept, hnew⟩
    exact rest.written (type.scope.named hs) (identifiers_cons.mp hrest).2 hall hnodup'
end

theorem Constructor.written {ks : Kinds} {ty : Ty} (h : Constructor s ks ty s') (hs : s.Named)
    (hks : Identifiers ks) : ty.Written s' := by
  cases h with
  | word known => exact Ty.written_of_ofWord? known s
  | name known => exact (Specifier.name known).written hs hks
  | definition definition => exact definition.written hs hks

open ShaderExpr.Expr (Printable AllPrintable PlainLiterals)

theorem Field.printable {base e : Expr} {name : String} (h : Field base name e)
    (hbase : PlainLiterals base.nodes → Printable s base) (hname : IsIdentifier name)
    (hplain : PlainLiterals e.nodes) : Printable s e := by
  cases h with
  | member found => exact .member (hbase (hplain.mono (by simp_all [Expr.nodes]))) hname found
  | @components letters indexes shape spelled some few inside =>
    have hwhole : ∀ n, base ≠ .constant (.ofScalar (.int n)) := by
      rintro n rfl
      exact hplain.whole n letters indexes (by simp [Expr.nodes])
    exact .swizzle (hbase (hplain.mono (by simp_all [Expr.nodes]))) hwhole hname shape spelled some
      few inside

mutual
/-- An expression that names no struct can be printed: its tree is one of the grammar over names of
    the scope. That it ends in the scope it started in is how it is known to name no struct. -/
theorem Assignment.printable : ∀ {s ks e s'}, Assignment s ks e s' → s' = s → s.Named →
    Identifiers ks → PlainLiterals e.nodes → Printable s e
  | _, _, _, _, .operation operation, h, hs, hks, he => operation.printable h hs hks he
  | s, _, _, _, @Assignment.assign _ s₁ _ _ _ _ _ _ target value left sign place writable right
      typed fits, h, hs, hks, he => by
    have hmid : s₁ = s := (left.scope.antisymm (h ▸ right.scope)).symm
    obtain ⟨hleft, hright⟩ := identifiers_append.mp hks
    have hvalue := right.printable (h.trans hmid.symm) (hmid ▸ hs) (identifiers_cons.mp hright).2
      (he.mono (by simp_all [Expr.nodes]))
    exact .assign (left.printable hmid hs hleft (he.mono (by simp_all [Expr.nodes])))
      (hmid ▸ hvalue) (eq_assignmentToken sign ▸ sign) place writable typed fits
theorem Operation.printable : ∀ {p s ks e s'}, Operation p s ks e s' → s' = s → s.Named →
    Identifiers ks → PlainLiterals e.nodes → Printable s e
  | _, _, _, _, _, .unary unary, h, hs, hks, he => unary.printable h hs hks he
  | _, _, _, _, _, .tighter _ tighter, h, hs, hks, he => tighter.printable h hs hks he
  | _, s, _, _, _, @Operation.binary _ _ s₁ _ _ _ _ _ _ _ _ before _ _ after typed, h, hs, hks,
      he => by
    have hmid : s₁ = s := (before.scope.antisymm (h ▸ after.scope)).symm
    obtain ⟨hleft, hright⟩ := identifiers_append.mp hks
    have hvalue := after.printable (h.trans hmid.symm) (hmid ▸ hs) (identifiers_cons.mp hright).2
      (he.mono (by simp_all [Expr.nodes]))
    exact .binary (before.printable hmid hs hleft (he.mono (by simp_all [Expr.nodes])))
      (hmid ▸ hvalue) typed
theorem Unary.printable : ∀ {s ks e s'}, Unary s ks e s' → s' = s → s.Named →
    Identifiers ks → PlainLiterals e.nodes → Printable s e
  | _, _, _, _, .plus operand, h, hs, hks, he =>
    operand.printable h hs (identifiers_cons.mp hks).2 he
  | _, _, _, _, .minus operand basic number, h, hs, hks, he =>
    .negate (operand.printable h hs (identifiers_cons.mp hks).2
      (he.mono (by simp_all [Expr.nodes]))) basic number
  | _, _, _, _, .postfixed operand, h, hs, hks, he => operand.printable h hs hks he
theorem Postfixed.printable : ∀ {s ks e s'}, Postfixed s ks e s' → s' = s → s.Named →
    Identifiers ks → PlainLiterals e.nodes → Printable s e
  | _, _, _, _, .primary primary, h, hs, hks, he => primary.printable h hs hks he
  | _, _, _, _, .field operand selects, h, hs, hks, he => by
    obtain ⟨hbase, hname⟩ := identifiers_append.mp hks
    exact selects.printable (operand.printable h hs hbase) (identifiers_cons.mp hname).2.name he
theorem Primary.printable : ∀ {s ks e s'}, Primary s ks e s' → s' = s → s.Named →
    Identifiers ks → PlainLiterals e.nodes → Printable s e
  | _, _, _, _, .literal value, _, _, _, he =>
    .constant (he.plain value (by simp [Expr.nodes]))
  | _, _, _, _, .reference noType noFunction found, _, _, hks, _ => by
    obtain rfl : _ = _ := by simpa using List.find?_some found
    exact .reference hks.name noType noFunction found
  | _, _, _, _, .parentheses inside, h, hs, hks, he =>
    inside.printable h hs (identifiers_enclosed hks) he
  | s, _, _, _, @Primary.construct _ s₁ _ _ _ ty es type basic inside filled, h, hs, hks, he => by
    have hmid : s₁ = s := (type.scope.antisymm (h ▸ inside.scope)).symm
    obtain ⟨htype, hinside⟩ := identifiers_append.mp hks
    have harguments := inside.printable (h.trans hmid.symm) (hmid ▸ hs)
      (identifiers_enclosed hinside) (he.mono (by simp_all [Expr.nodes]))
    have hbasic : ty.isBasic := by
      cases type with
      | word _ basic => exact basic
      | name known =>
        obtain ⟨members, rfl⟩ := hs.struct known
        exact absurd basic (by simp [Ty.isStruct])
      | definition definition =>
        cases definition <;> exact absurd basic (by simp [Ty.isStruct])
    exact .construct (hmid ▸ harguments) (hmid ▸ type.written hs htype) hbasic filled
  | s, _, _, _, @Primary.make _ s₁ _ _ _ ty es f type struct inside resolved, h, hs, hks, he => by
    have hmid : s₁ = s := (type.scope.antisymm (h ▸ inside.scope)).symm
    obtain ⟨htype, hinside⟩ := identifiers_append.mp hks
    have harguments := inside.printable (h.trans hmid.symm) (hmid ▸ hs)
      (identifiers_enclosed hinside) (he.mono (by simp_all [Expr.nodes]))
    obtain rfl : f = .constructor ty := by simpa using Candidates.mem_of_resolve? resolved
    exact .make (hmid ▸ harguments) (hmid ▸ type.written hs htype) struct resolved
  | _, _, _, _, .call noType isFunction inside resolved, h, hs, hks, he => by
    have harguments := inside.printable h hs (identifiers_enclosed (identifiers_cons.mp hks).2)
      (he.mono (by simp_all [Expr.nodes]))
    obtain ⟨g, rfl, rfl, -⟩ := Scope.builtin_of_mem_functions (Candidates.mem_of_resolve? resolved)
    exact .builtin harguments hks.name noType isFunction resolved
theorem Arguments.printable : ∀ {s ks es s'}, Arguments s ks es s' → s' = s → s.Named →
    Identifiers ks → PlainLiterals (Expr.nodesAll es) → AllPrintable s es
  | _, _, _, _, .none, _, _, _, _ => .nil
  | _, _, _, _, .some list, h, hs, hks, he => list.printable h hs hks he
theorem ArgumentList.printable : ∀ {s ks es s'}, ArgumentList s ks es s' → s' = s → s.Named →
    Identifiers ks → PlainLiterals (Expr.nodesAll es) → AllPrintable s es
  | _, _, _, _, .one argument, h, hs, hks, he =>
    .cons (argument.printable h hs hks (he.mono (by simp_all [Expr.nodesAll]))) .nil
  | s, _, _, _, @ArgumentList.more _ s₁ _ _ _ _ _ argument rest, h, hs, hks, he => by
    have hmid : s₁ = s := (argument.scope.antisymm (h ▸ rest.scope)).symm
    obtain ⟨hfirst, hrest⟩ := identifiers_append.mp hks
    have hall := rest.printable (h.trans hmid.symm) (hmid ▸ hs) (identifiers_cons.mp hrest).2
      (he.mono (by simp_all [Expr.nodesAll]))
    exact .cons (argument.printable hmid hs hfirst (he.mono (by simp_all [Expr.nodesAll])))
      (hmid ▸ hall)
end

end Phrase

end ShaderExpr
