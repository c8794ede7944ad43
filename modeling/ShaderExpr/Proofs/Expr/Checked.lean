import ShaderExpr.Proofs.Grammar.Overloads
import ShaderExpr.Proofs.Grammar.Scoping

namespace ShaderExpr

namespace Ty

mutual
/-- Types that variables and expressions have. Matrices have floating components. -/
def isProper : Ty → Bool
  | .void => false
  | .scalar _ | .vector .. => true
  | .matrix s _ _ => s.isFloating
  | .struct _ members => membersProper members
def membersProper : List (String × Ty) → Bool
  | [] => true
  | (_, t) :: rest => t.isProper && membersProper rest
end

theorem membersProper_append {ms ns : List (String × Ty)} :
    membersProper (ms ++ ns) = (membersProper ms && membersProper ns) := by
  induction ms with
  | nil => rfl
  | cons m ms ih => simp [membersProper, ih, Bool.and_assoc]

theorem membersProper_map {names : List String} {t : Ty} (h : t.isProper) :
    membersProper (names.map (·, t)) := by
  induction names with
  | nil => rfl
  | cons name names ih => simp [membersProper, h, ih]

theorem isProper_of_mem {ms : List (String × Ty)} (h : membersProper ms) :
    ∀ m ∈ ms, m.2.isProper := by
  induction ms with
  | nil => simp
  | cons m ms ih =>
    obtain ⟨hm, hms⟩ := Bool.and_eq_true_iff.mp h
    intro n hn
    rcases List.mem_cons.mp hn with rfl | hn
    · exact hm
    · exact ih hms n hn

mutual
theorem isComplete_of_isProper : ∀ {ty : Ty}, ty.isProper → ty.isComplete
  | .void, h => h
  | .scalar _, _ | .vector _ _, _ | .matrix _ _ _, _ => rfl
  | .struct _ _, h => membersComplete_of_membersProper h
theorem membersComplete_of_membersProper : ∀ {ms : List (String × Ty)}, membersProper ms →
    membersComplete ms
  | [], _ => rfl
  | (_, _) :: _, h => by
    obtain ⟨ht, hms⟩ := Bool.and_eq_true_iff.mp h
    exact Bool.and_eq_true_iff.mpr
      ⟨isComplete_of_isProper ht, membersComplete_of_membersProper hms⟩
end

theorem isProper_of_ofWord? {word : String} {ty : Ty} (h : ofWord? word = some ty)
    (holds : ty.isVoid = false) : ty.isProper := by
  have hall : ∀ p ∈ builtins, p.2.isVoid || p.2.isProper := List.all_eq_true.mp (by decide)
  obtain ⟨p, hp, rfl⟩ := Option.map_eq_some_iff.mp h
  have hp := hall p (List.mem_of_find?_eq_some hp)
  simpa [holds] using hp

end Ty

/-- Functions that calls can mean: builtin functions and structs, whose types are proper. -/
def Function.IsKnown : Function → Prop
  | .builtin g => g ∈ g.builtin.overloads
  | .constructor ty => ty.isStruct ∧ ty.isProper

/-- Every node of a tree over some variables passed its check. This is what reading without problems
    establishes of the expression of a program. -/
inductive Expr.Checked (xs : List Variable) : Expr → Prop
  | constant (x : Scalar) : Checked xs (.constant (.ofScalar x))
  | reference {x : Variable} (declared : x ∈ xs) : Checked xs (.reference x)
  | binary {op : Operator} {ty : Ty} {left right : Expr} (left_checked : Checked xs left)
    (right_checked : Checked xs right) (typed : op.resultType left.ty right.ty = .ok ty) :
    Checked xs (.binary op ty left right)
  | assign {op : Option Operator} {ty : Ty} {target value : Expr}
    (target_checked : Checked xs target) (value_checked : Checked xs value)
    (place : target.isAssignable)
    (writable : ∀ x, target.assigned? = some x → x.qualifier.isReadOnly = false)
    (typed : Reader.assignedType op target.ty value.ty = .ok ty)
    (fits : ty.convertsTo target.ty) : Checked xs (.assign op ty target value)
  | negate {operand : Expr} (operand_checked : Checked xs operand) (basic : operand.ty.isBasic)
    (number : operand.ty.component? ≠ some .bool) : Checked xs (.negate operand)
  | construct {ty : Ty} {arguments : List Expr} (proper : ty.isProper) (basic : ty.isBasic)
    (arguments_checked : ∀ e ∈ arguments, Checked xs e)
    (filled : ty.FilledBy (arguments.map Expr.ty)) : Checked xs (.construct ty arguments)
  | call {f : Function} {arguments : List Expr} (known : f.IsKnown)
    (arguments_checked : ∀ e ∈ arguments, Checked xs e)
    (accepted : List.Forall₂ (fun t u => t.convertsTo u = true) (arguments.map Expr.ty)
      f.parameters) : Checked xs (.call f arguments)
  | member {base : Expr} {index : Nat} (base_checked : Checked xs base)
    (found : index < base.ty.members.length) : Checked xs (.member base index)
  | swizzle {base : Expr} {letters : Letters} {indexes : List Nat} (base_checked : Checked xs base)
    (shape : (∃ s, base.ty = .scalar s) ∨ ∃ s n, base.ty = .vector s n) (some : indexes ≠ [])
    (few : indexes.length ≤ 4) (inside : ∀ i ∈ indexes, i < max base.ty.length 1) :
    Checked xs (.swizzle base letters indexes)

/-- A variable as declarations make it. Those with a value start with it, and constants have one. -/
structure Variable.Valid (x : Variable) : Prop where
  proper : x.ty.isProper
  outside : x.qualifier.storage.storageClass ≠ .function
  initial : ∀ v, x.initial = some v → v.ty = x.ty ∧ x.qualifier.storage.canInitialize
  constant : x.qualifier.isConstant → x.initial.isSome ∧ x.qualifier.storage = .global

/-- A scope as declarations leave it. -/
structure Scope.Valid (s : Scope) : Prop where
  types : ∀ p ∈ s.types, p.2.isProper
  declared : ∀ x ∈ s.declared, x.Valid
  ids : (s.declared.map (·.id)).Nodup
  fresh : ∀ x ∈ s.declared, x.id < s.nextId

namespace Phrase

variable {s s' : Scope}

mutual
theorem Specifier.proper : ∀ {s ks ty s'}, Specifier s ks ty s' → (∀ p ∈ s.types, p.2.isProper) →
    (ty.isVoid = false → ty.isProper) ∧ ∀ p ∈ s'.types, p.2.isProper
  | _, _, _, _, .word known, hs => ⟨Ty.isProper_of_ofWord? known, hs⟩
  | _, _, _, _, .name known, hs => by
    obtain ⟨p, hp, rfl⟩ := Option.map_eq_some_iff.mp known
    exact ⟨fun _ => hs p (List.mem_of_find?_eq_some hp), hs⟩
  | _, _, _, _, .definition definition, hs => by
    obtain ⟨hty, hs'⟩ := definition.proper hs
    exact ⟨fun _ => hty, hs'⟩
theorem Definition.proper : ∀ {s ks ty s'}, Definition s ks ty s' →
    (∀ p ∈ s.types, p.2.isProper) → ty.isProper ∧ ∀ p ∈ s'.types, p.2.isProper
  | _, _, _, _, .anonymous body, hs => body.proper hs rfl
  | _, _, _, _, .named body free, hs => by
    obtain ⟨hmembers, hs'⟩ := body.proper hs rfl
    refine ⟨hmembers, ?_⟩
    unfold Scope.addType? at free
    split at free
    · simp at free
    · rw [← Option.some.inj free]
      intro p hp
      rcases List.mem_cons.mp hp with rfl | hp
      · exact hmembers
      · exact hs' p hp
theorem Members.proper : ∀ {s found ks all s'}, Members s found ks all s' →
    (∀ p ∈ s.types, p.2.isProper) → Ty.membersProper found →
    Ty.membersProper all ∧ ∀ p ∈ s'.types, p.2.isProper
  | _, _, _, _, _, .done, hs, hfound => ⟨hfound, hs⟩
  | _, _, _, _, _, @Members.more _ _ _ _ _ _ _ _ ty _ type holds _ _ _ rest, hs, hfound => by
    obtain ⟨hty, hs'⟩ := type.proper hs
    have hvoid : ty.isVoid = false := by
      cases ty <;> first | rfl | simp [Ty.isBasic, Ty.isStruct] at holds
    refine rest.proper hs' ?_
    rw [Ty.membersProper_append, hfound, Ty.membersProper_map (hty hvoid)]
    rfl
end

/-- The type of a constructor is one that values have. -/
theorem Constructor.proper {ks : Kinds} {ty : Ty} (h : Constructor s ks ty s')
    (hs : ∀ p ∈ s.types, p.2.isProper) : ty.isProper ∧ ∀ p ∈ s'.types, p.2.isProper := by
  cases h with
  | word known basic =>
    have hvoid : ty.isVoid = false := by
      cases ty <;> first | rfl | simp [Ty.isBasic] at basic
    exact ⟨Ty.isProper_of_ofWord? known hvoid, hs⟩
  | name known =>
    obtain ⟨p, hp, rfl⟩ := Option.map_eq_some_iff.mp known
    exact ⟨hs p (List.mem_of_find?_eq_some hp), hs⟩
  | definition definition => exact definition.proper hs

open ShaderExpr.Expr (Checked)

theorem Field.checked {xs : List Variable} {base e : Expr} {name : String}
    (h : Field base name e) (hbase : Checked xs base) : Checked xs e := by
  cases h with
  | member found =>
    obtain ⟨hindex, -⟩ := List.findIdx?_eq_some_iff_getElem.mp found
    exact .member hbase hindex
  | components shape spelled some few inside => exact .swizzle hbase shape some few inside

theorem Primary.checked_construct {s'' : Scope} {ks : Kinds} {ty : Ty} {es : List Expr}
    (type : Constructor s ks ty s') (basic : ty.isStruct = false)
    (filled : ty.FilledBy (es.map Expr.ty)) (hs : ∀ p ∈ s.types, p.2.isProper)
    (inside : (∀ p ∈ s'.types, p.2.isProper) → (∀ e ∈ es, Checked s'.declared e) ∧
      ∀ p ∈ s''.types, p.2.isProper) :
    Checked s.declared (.construct ty es) ∧ ∀ p ∈ s''.types, p.2.isProper := by
  obtain ⟨hproper, hs'⟩ := type.proper hs
  obtain ⟨hes, hs''⟩ := inside hs'
  have hbasic : ty.isBasic := by
    cases ty with
    | void => simp [Ty.isProper] at hproper
    | struct => simp [Ty.isStruct] at basic
    | scalar | vector | matrix => rfl
  exact ⟨.construct hproper hbasic (type.scope.declared ▸ hes) filled, hs''⟩

theorem Primary.checked_make {s'' : Scope} {ks : Kinds} {ty : Ty} {es : List Expr} {f : Function}
    (type : Constructor s ks ty s') (struct : ty.isStruct)
    (resolved : Candidates.resolve? [.constructor ty] (es.map Expr.ty) = some f)
    (hs : ∀ p ∈ s.types, p.2.isProper)
    (inside : (∀ p ∈ s'.types, p.2.isProper) → (∀ e ∈ es, Checked s'.declared e) ∧
      ∀ p ∈ s''.types, p.2.isProper) :
    Checked s.declared (.call f es) ∧ ∀ p ∈ s''.types, p.2.isProper := by
  obtain ⟨hproper, hs'⟩ := type.proper hs
  obtain ⟨hes, hs''⟩ := inside hs'
  obtain ⟨hmem, haccepts⟩ := Candidates.accepts_of_resolve? resolved
  obtain rfl : f = .constructor ty := by simpa using hmem
  exact ⟨.call ⟨struct, hproper⟩ (type.scope.declared ▸ hes) haccepts, hs''⟩

mutual
/-- Every rule of the grammar brings the check of its node. -/
theorem Assignment.checked : ∀ {s ks e s'}, Assignment s ks e s' →
    (∀ p ∈ s.types, p.2.isProper) → Checked s.declared e ∧ ∀ p ∈ s'.types, p.2.isProper
  | _, _, _, _, .operation operation, hs => operation.checked hs
  | _, _, _, _, .assign left _ place writable right typed fits, hs => by
    obtain ⟨htarget, hs'⟩ := left.checked hs
    obtain ⟨hvalue, hs''⟩ := right.checked hs'
    exact ⟨.assign htarget (left.scope.declared ▸ hvalue) place writable typed fits, hs''⟩
theorem Operation.checked : ∀ {n s ks e s'}, Operation n s ks e s' →
    (∀ p ∈ s.types, p.2.isProper) → Checked s.declared e ∧ ∀ p ∈ s'.types, p.2.isProper
  | _, _, _, _, _, .unary unary, hs => unary.checked hs
  | _, _, _, _, _, .tighter _ tighter, hs => tighter.checked hs
  | _, _, _, _, _, .binary before _ _ after typed, hs => by
    obtain ⟨hleft, hs'⟩ := before.checked hs
    obtain ⟨hright, hs''⟩ := after.checked hs'
    exact ⟨.binary hleft (before.scope.declared ▸ hright) typed, hs''⟩
theorem Unary.checked : ∀ {s ks e s'}, Unary s ks e s' → (∀ p ∈ s.types, p.2.isProper) →
    Checked s.declared e ∧ ∀ p ∈ s'.types, p.2.isProper
  | _, _, _, _, .plus operand, hs => operand.checked hs
  | _, _, _, _, .minus operand basic number, hs => by
    obtain ⟨hoperand, hs'⟩ := operand.checked hs
    exact ⟨.negate hoperand basic number, hs'⟩
  | _, _, _, _, .postfixed operand, hs => operand.checked hs
theorem Postfixed.checked : ∀ {s ks e s'}, Postfixed s ks e s' → (∀ p ∈ s.types, p.2.isProper) →
    Checked s.declared e ∧ ∀ p ∈ s'.types, p.2.isProper
  | _, _, _, _, .primary primary, hs => primary.checked hs
  | _, _, _, _, .field operand selects, hs => by
    obtain ⟨hbase, hs'⟩ := operand.checked hs
    exact ⟨selects.checked hbase, hs'⟩
theorem Primary.checked : ∀ {s ks e s'}, Primary s ks e s' → (∀ p ∈ s.types, p.2.isProper) →
    Checked s.declared e ∧ ∀ p ∈ s'.types, p.2.isProper
  | _, _, _, _, .literal value, hs => ⟨.constant value, hs⟩
  | _, _, _, _, .reference _ _ found, hs => ⟨.reference (List.mem_of_find?_eq_some found), hs⟩
  | _, _, _, _, .parentheses inside, hs => inside.checked hs
  | _, _, _, _, .construct type basic inside filled, hs =>
    Primary.checked_construct type basic filled hs inside.checked
  | _, _, _, _, .make type struct inside resolved, hs =>
    Primary.checked_make type struct resolved hs inside.checked
  | _, _, _, _, .call _ _ inside resolved, hs => by
    obtain ⟨hes, hs'⟩ := inside.checked hs
    obtain ⟨hmem, haccepts⟩ := Candidates.accepts_of_resolve? resolved
    obtain ⟨g, rfl, -, hg⟩ := Scope.builtin_of_mem_functions hmem
    exact ⟨.call hg hes haccepts, hs'⟩
theorem Arguments.checked : ∀ {s ks es s'}, Arguments s ks es s' →
    (∀ p ∈ s.types, p.2.isProper) →
    (∀ e ∈ es, Checked s.declared e) ∧ ∀ p ∈ s'.types, p.2.isProper
  | _, _, _, _, .none, hs => ⟨by simp, hs⟩
  | _, _, _, _, .some list, hs => list.checked hs
theorem ArgumentList.checked : ∀ {s ks es s'}, ArgumentList s ks es s' →
    (∀ p ∈ s.types, p.2.isProper) →
    (∀ e ∈ es, Checked s.declared e) ∧ ∀ p ∈ s'.types, p.2.isProper
  | _, _, _, _, .one argument, hs => by simpa using argument.checked hs
  | _, _, _, _, .more argument rest, hs => by
    obtain ⟨he, hs'⟩ := argument.checked hs
    obtain ⟨hes, hs''⟩ := rest.checked hs'
    rw [argument.scope.declared] at hes
    exact ⟨by simpa using ⟨he, hes⟩, hs''⟩
end

end Phrase

end ShaderExpr
