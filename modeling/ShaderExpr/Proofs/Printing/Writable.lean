import ShaderExpr.Proofs.Expr.Typing
import ShaderExpr.Proofs.Printing.Derived
import ShaderExpr.Proofs.Printing.Identifiers

namespace ShaderExpr

namespace Ty

mutual
/-- A type that can be written down in a scope, as can all types inside of it. -/
def Writable (s : Scope) : Ty → Prop
  | .struct name members => (Ty.struct name members).Written s ∧ MembersWritable s members
  | ty => ty.Written s
def MembersWritable (s : Scope) : List (String × Ty) → Prop
  | [] => True
  | (_, ty) :: rest => (ty.isBasic || ty.isStruct) ∧ ty.Writable s ∧ MembersWritable s rest
end

variable {s s' : Scope}

mutual
theorem Writable.mono (h : s.Keeps s') : ∀ {ty : Ty}, ty.Writable s → ty.Writable s'
  | .struct _ _, ⟨hty, hmembers⟩ => ⟨hty.mono h, hmembers.mono h⟩
  | .void, hty | .scalar _, hty | .vector .., hty | .matrix .., hty => hty
theorem MembersWritable.mono (h : s.Keeps s') : ∀ {members : List (String × Ty)},
    MembersWritable s members → MembersWritable s' members
  | [], _ => trivial
  | _ :: _, ⟨holds, hty, hrest⟩ => ⟨holds, hty.mono h, hrest.mono h⟩
end

theorem membersWritable_append {ms ns : List (String × Ty)} :
    MembersWritable s (ms ++ ns) ↔ MembersWritable s ms ∧ MembersWritable s ns := by
  induction ms with
  | nil => simp [MembersWritable]
  | cons m ms ih => simp only [List.cons_append, MembersWritable, ih, and_assoc]

theorem membersWritable_map {ty : Ty} (holds : ty.isBasic || ty.isStruct) (hty : ty.Writable s)
    (names : List String) : MembersWritable s (names.map (·, ty)) := by
  induction names with
  | nil => trivial
  | cons _ _ ih => exact ⟨holds, hty, ih⟩

theorem MembersWritable.of_mem {members : List (String × Ty)} (h : MembersWritable s members) :
    ∀ m ∈ members, m.2.Writable s := by
  induction members with
  | nil => simp
  | cons m members ih =>
    intro n hn
    rcases List.mem_cons.mp hn with rfl | hn
    · exact h.2.1
    · exact ih h.2.2 n hn

theorem writable_of_ofWord? {word : String} {ty : Ty} (h : ofWord? word = some ty) (s : Scope) :
    ty.Writable s := by
  have hstruct : ∀ p ∈ builtins, p.2.isStruct = false := by decide +kernel
  have hwritten := written_of_ofWord? h s
  obtain ⟨p, hp, rfl⟩ := Option.map_eq_some_iff.mp h
  have hp := hstruct p (List.mem_of_find?_eq_some hp)
  generalize p.2 = ty at hp hwritten ⊢
  cases ty with
  | struct => simp [isStruct] at hp
  | void | scalar | vector | matrix => exact hwritten

theorem Writable.memberType {ty : Ty} {name : String} {index : Nat} (h : ty.Writable s)
    (found : ty.memberIndex? name = some index) : (ty.memberType index).Writable s := by
  obtain ⟨hindex, -⟩ := List.findIdx?_eq_some_iff_getElem.mp found
  rw [Ty.memberType, List.getElem?_eq_getElem hindex]
  cases ty with
  | struct => exact h.2.of_mem _ (List.getElem_mem hindex)
  | void | scalar | vector | matrix => simp [members] at hindex

end Ty

namespace Scope

/-- Whatever a scope names is a type that can be written down in it. -/
structure Writable (s : Scope) : Prop where
  named : s.Named
  types : ∀ p ∈ s.types, p.2.Writable s
  declared : ∀ x ∈ s.declared, x.ty.Writable s

theorem Writable.empty : empty.Writable := by
  constructor <;> simp [Scope.empty, Named]

theorem Writable.typeNamed {s : Scope} (h : s.Writable) {name : String} {ty : Ty}
    (hty : s.typeNamed name = some ty) : ty.Writable s := by
  obtain ⟨p, hp, rfl⟩ := Option.map_eq_some_iff.mp hty
  exact h.types p (List.mem_of_find?_eq_some hp)

theorem Writable.addType {s s' : Scope} {name : String} {members : List (String × Ty)}
    (h : s.Writable) (hname : IsIdentifier name) (hmembers : Ty.MembersWritable s members)
    (free : s.addType? name (.struct (some name) members) = some s') :
    (Ty.struct (some name) members).Writable s' ∧ s'.Writable := by
  have hextends := (Extends.addType free).1
  have hty : (Ty.struct (some name) members).Writable s' :=
    ⟨⟨hname, typeNamed_of_addType? free⟩, hmembers.mono hextends.kept⟩
  refine ⟨hty, hextends.named h.named, fun p hp => ?_, fun x hx => ?_⟩
  · unfold addType? at free
    split at free
    · simp at free
    · rw [← Option.some.inj free] at hp
      rcases List.mem_cons.mp hp with rfl | hp
      · exact hty
      · exact (h.types p hp).mono hextends.kept
  · rw [hextends.declared] at hx
    exact (h.declared x hx).mono hextends.kept

theorem Writable.addVariable {s : Scope} {name : String} {ty : Ty} {q : Qualifier}
    {initial : Option Value} (h : s.Writable) (hty : ty.Writable s) :
    (s.addVariable name ty q initial).2.Writable := by
  have hkept : s.Keeps (s.addVariable name ty q initial).2 := fun _ _ => id
  refine ⟨h.named, fun p hp => (h.types p hp).mono hkept, fun x hx => ?_⟩
  rcases mem_place hx with rfl | hx
  · exact hty.mono hkept
  · exact (h.declared x hx).mono hkept

end Scope

namespace Phrase

mutual
theorem Specifier.writable : ∀ {s ks ty s'}, Specifier s ks ty s' → s.Writable → Identifiers ks →
    ty.Writable s' ∧ s'.Writable
  | _, _, _, s', .word known, hs, _ => ⟨Ty.writable_of_ofWord? known s', hs⟩
  | _, _, _, _, .name known, hs, _ => ⟨hs.typeNamed known, hs⟩
  | _, _, _, _, .definition definition, hs, hks => definition.writable hs hks
theorem Definition.writable : ∀ {s ks ty s'}, Definition s ks ty s' → s.Writable →
    Identifiers ks → ty.Writable s' ∧ s'.Writable
  | _, _, _, _, .anonymous body, hs, hks => by
    have hinside := (identifiers_append.mp (identifiers_cons.mp (identifiers_cons.mp hks).2).2).1
    obtain ⟨hmembers, hs'⟩ := body.writable hs hinside trivial
    exact ⟨⟨(Definition.anonymous body).written hs.named hks, hmembers⟩, hs'⟩
  | _, _, _, _, .named body free, hs, hks => by
    have hbehind := (identifiers_cons.mp hks).2
    have hinside := (identifiers_append.mp (identifiers_cons.mp (identifiers_cons.mp hbehind).2).2).1
    obtain ⟨hmembers, hs'⟩ := body.writable hs hinside trivial
    exact hs'.addType hbehind.name hmembers free
theorem Members.writable : ∀ {s found ks all s'}, Members s found ks all s' → s.Writable →
    Identifiers ks → Ty.MembersWritable s found → Ty.MembersWritable s' all ∧ s'.Writable
  | _, _, _, _, _, .done, hs, _, hfound => ⟨hfound, hs⟩
  | _, _, _, _, _, @Members.more _ _ _ _ _ _ _ _ _ names type holds _ _ _ rest, hs, hks,
      hfound => by
    obtain ⟨htype, hbehind⟩ := identifiers_append.mp hks
    have hrest := (identifiers_cons.mp (identifiers_append.mp hbehind).2).2
    obtain ⟨hty, hs'⟩ := type.writable hs htype
    refine rest.writable hs' hrest (Ty.membersWritable_append.mpr ⟨?_, ?_⟩)
    · exact hfound.mono type.scope.kept
    · exact Ty.membersWritable_map holds hty names
end

theorem Constructor.writable {s s' : Scope} {ks : Kinds} {ty : Ty} (h : Constructor s ks ty s')
    (hs : s.Writable) (hks : Identifiers ks) : ty.Writable s' ∧ s'.Writable := by
  cases h with
  | word known => exact ⟨Ty.writable_of_ofWord? known s, hs⟩
  | name known => exact ⟨hs.typeNamed known, hs⟩
  | definition definition => exact definition.writable hs hks

/-- A member has a type that can be written, and components make no struct. -/
theorem Field.writable {s : Scope} {base e : Expr} {name : String} (h : Field base name e)
    (hbase : base.ty.isStruct → base.ty.Writable s) : e.ty.isStruct → e.ty.Writable s := by
  cases h with
  | member found =>
    intro _
    refine (hbase ?_).memberType found
    obtain ⟨hindex, -⟩ := List.findIdx?_eq_some_iff_getElem.mp found
    generalize base.ty = ty at hindex ⊢
    cases ty with
    | struct => rfl
    | void | scalar | vector | matrix => simp [Ty.members] at hindex
  | components shape _ some few _ =>
    intro hstruct
    obtain ⟨_, -, hty, -⟩ := Expr.swizzleType_eq shape (by simpa using some) few
    exact absurd hstruct (by simp [Expr.ty, Ty.isStruct_of_ofComponents? hty])

mutual
/-- A struct that an expression has as its type can be written down behind the expression. -/
theorem Assignment.writable : ∀ {s ks e s'}, Assignment s ks e s' → s.Writable → Identifiers ks →
    (e.ty.isStruct → e.ty.Writable s') ∧ s'.Writable
  | _, _, _, _, .operation operation, hs, hks => operation.writable hs hks
  | _, _, _, _, .assign left _ _ _ right _ _, hs, hks => by
    obtain ⟨hleft, hright⟩ := identifiers_append.mp hks
    obtain ⟨htarget, hs'⟩ := left.writable hs hleft
    obtain ⟨-, hs''⟩ := right.writable hs' (identifiers_cons.mp hright).2
    exact ⟨fun hstruct => (htarget hstruct).mono right.scope.kept, hs''⟩
theorem Operation.writable : ∀ {p s ks e s'}, Operation p s ks e s' → s.Writable →
    Identifiers ks → (e.ty.isStruct → e.ty.Writable s') ∧ s'.Writable
  | _, _, _, _, _, .unary unary, hs, hks => unary.writable hs hks
  | _, _, _, _, _, .tighter _ tighter, hs, hks => tighter.writable hs hks
  | _, _, _, _, _, @Operation.binary _ _ _ _ _ _ _ _ ty _ _ before _ _ after typed, hs, hks => by
    obtain ⟨hleft, hright⟩ := identifiers_append.mp hks
    obtain ⟨-, hs'⟩ := before.writable hs hleft
    obtain ⟨-, hs''⟩ := after.writable hs' (identifiers_cons.mp hright).2
    have hbasic : ty.isStruct = false :=
      Ty.isStruct_of_isBasic (Operator.resultType_typed typed).basic
    exact ⟨fun hstruct => absurd hstruct (by simp [Expr.ty, hbasic]), hs''⟩
theorem Unary.writable : ∀ {s ks e s'}, Unary s ks e s' → s.Writable → Identifiers ks →
    (e.ty.isStruct → e.ty.Writable s') ∧ s'.Writable
  | _, _, _, _, .plus operand, hs, hks => operand.writable hs (identifiers_cons.mp hks).2
  | _, _, _, _, .minus operand _ _, hs, hks => operand.writable hs (identifiers_cons.mp hks).2
  | _, _, _, _, .postfixed operand, hs, hks => operand.writable hs hks
theorem Postfixed.writable : ∀ {s ks e s'}, Postfixed s ks e s' → s.Writable → Identifiers ks →
    (e.ty.isStruct → e.ty.Writable s') ∧ s'.Writable
  | _, _, _, _, .primary primary, hs, hks => primary.writable hs hks
  | _, _, _, _, .field operand selects, hs, hks => by
    obtain ⟨hbase, hs'⟩ := operand.writable hs (identifiers_append.mp hks).1
    exact ⟨selects.writable hbase, hs'⟩
theorem Primary.writable : ∀ {s ks e s'}, Primary s ks e s' → s.Writable → Identifiers ks →
    (e.ty.isStruct → e.ty.Writable s') ∧ s'.Writable
  | _, _, _, _, .literal _, hs, _ => ⟨by simp [Expr.ty, Value.ofScalar, Ty.isStruct], hs⟩
  | _, _, _, _, .reference _ _ found, hs, _ =>
    ⟨fun _ => hs.declared _ (List.mem_of_find?_eq_some found), hs⟩
  | _, _, _, _, .parentheses inside, hs, hks => inside.writable hs (identifiers_enclosed hks)
  | _, _, _, _, .construct type basic inside _, hs, hks => by
    obtain ⟨htype, hinside⟩ := identifiers_append.mp hks
    obtain ⟨-, hs'⟩ := type.writable hs htype
    exact ⟨fun hstruct => absurd hstruct (by simp [Expr.ty, basic]),
      inside.writable hs' (identifiers_enclosed hinside)⟩
  | _, _, _, _, @Primary.make _ _ _ _ _ ty _ f type _ inside resolved, hs, hks => by
    obtain ⟨htype, hinside⟩ := identifiers_append.mp hks
    obtain ⟨hty, hs'⟩ := type.writable hs htype
    obtain rfl : f = .constructor ty := by simpa using Candidates.mem_of_resolve? resolved
    exact ⟨fun _ => hty.mono inside.scope.kept,
      inside.writable hs' (identifiers_enclosed hinside)⟩
  | _, _, _, _, .call _ _ inside resolved, hs, hks => by
    have hs' := inside.writable hs (identifiers_enclosed (identifiers_cons.mp hks).2)
    obtain ⟨g, rfl, -, hg⟩ := Scope.builtin_of_mem_functions (Candidates.mem_of_resolve? resolved)
    have hbasic := Ty.isStruct_of_isBasic (Builtin.result_basic hg)
    exact ⟨fun hstruct => absurd hstruct (by simp [Expr.ty, Function.result, hbasic]), hs'⟩
theorem Arguments.writable : ∀ {s ks es s'}, Arguments s ks es s' → s.Writable →
    Identifiers ks → s'.Writable
  | _, _, _, _, .none, hs, _ => hs
  | _, _, _, _, .some list, hs, hks => list.writable hs hks
theorem ArgumentList.writable : ∀ {s ks es s'}, ArgumentList s ks es s' → s.Writable →
    Identifiers ks → s'.Writable
  | _, _, _, _, .one argument, hs, hks => (argument.writable hs hks).2
  | _, _, _, _, .more argument rest, hs, hks => by
    obtain ⟨hfirst, hrest⟩ := identifiers_append.mp hks
    exact rest.writable (argument.writable hs hfirst).2 (identifiers_cons.mp hrest).2
end

theorem Initializer.writable {ty : Ty} {q : Qualifier} {s s' : Scope} {ks : Kinds}
    {initial : Option Value} (h : Initializer ty q s ks initial s') (hs : s.Writable)
    (hks : Identifiers ks) : s'.Writable := by
  cases h with
  | none => exact hs
  | some _ value => exact (value.writable hs (identifiers_cons.mp hks).2).2

theorem Declaration.writable {s s' : Scope} {ks : Kinds} (h : Declaration s ks s')
    (hs : s.Writable) (hks : Identifiers ks) : s'.Writable := by
  cases h with
  | type _ type =>
    have hbehind := (identifiers_append.mp hks).2
    exact (type.writable hs (identifiers_append.mp hbehind).1).2
  | object _ type _ _ starts =>
    obtain ⟨htype, hbehind⟩ := identifiers_append.mp (identifiers_append.mp hks).2
    have hstarts := (identifiers_append.mp (identifiers_cons.mp hbehind).2).1
    obtain ⟨hty, hs'⟩ := type.writable hs htype
    exact (starts.writable hs' hstarts).addVariable (hty.mono starts.scope.kept)

theorem Declarations.writable {s s' : Scope} {ks : Kinds} (h : Declarations s ks s')
    (hs : s.Writable) (hks : Identifiers ks) : s'.Writable := by
  induction h with
  | none => exact hs
  | more first _ ih =>
    obtain ⟨hfirst, hrest⟩ := identifiers_append.mp hks
    exact ih (first.writable hs hfirst) hrest

end Phrase

/-- A struct that a program's expression has as its type can be written down in its scope, all the
    way down. Nothing but the scope names structs, and no name is lost while reading. -/
theorem Program.writable {source : String} {p : Program} (h : parse source = .ok p) :
    p.expression.ty.isStruct → p.expression.ty.Writable p.scope := by
  obtain ⟨tokens, s, ds, es, hlex, -, hdeclarations, hexpression, htokens⟩ := derives h
  have hidentifiers : Phrase.Identifiers (ds ++ es) := fun name hname =>
    .of_lex hlex (htokens.subset hname)
  obtain ⟨hds, hes⟩ := Phrase.identifiers_append.mp hidentifiers
  exact (hexpression.writable (hdeclarations.writable .empty hds) hes).1

end ShaderExpr
