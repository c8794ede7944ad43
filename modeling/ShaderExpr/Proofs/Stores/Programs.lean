import ShaderExpr.Proofs.Ids.Assembly
import ShaderExpr.Proofs.Reading.Declared
import ShaderExpr.Proofs.Stores.Effects

namespace ShaderExpr

open Instruction

namespace Expr

/-- The variable that an assignment writes to. -/
def written? : Expr → Option Variable
  | assign _ _ target _ => target.assigned?
  | _ => none

/-- What can be assigned to is in a declared variable. -/
theorem assigned?_of_wellTyped {xs : List Variable} : ∀ {e : Expr}, e.WellTyped xs →
    e.isAssignable → ∃ x, e.assigned? = some x ∧ x ∈ xs
  | reference x, h, _ => ⟨x, rfl, h.holds⟩
  | member base index, h, hassign =>
    assigned?_of_wellTyped (e := base) (h.of_part base (by simp [parts])) hassign
  | swizzle base letters indexes, h, hassign =>
    assigned?_of_wellTyped (e := base) (h.of_part base (by simp [parts]))
      (Bool.and_eq_true_iff.mp hassign).2

/-- An assignment writes to a declared variable that is not read-only. -/
theorem written?_of_wellTyped {xs : List Variable} {e : Expr} (h : e.WellTyped xs)
    (hassign : e.isAssignment) :
    ∃ x, e.written? = some x ∧ x ∈ xs ∧ x.qualifier.isReadOnly = false := by
  cases e with
  | assign op ty target value =>
    obtain ⟨hplace, hwritable, -⟩ := h.holds
    obtain ⟨x, hx, hdeclared⟩ :=
      assigned?_of_wellTyped (h.of_part target (by simp [parts])) hplace
    exact ⟨x, hx, hdeclared, hwritable x hx⟩
  | _ => simp [isAssignment] at hassign

end Expr

/-- An id is the pointer to a variable of a module. -/
def Module.IsVariable (m : Module) (id : Id) : Prop :=
  ∃ i ∈ m.instructions, (i.op = .var ∨ i.op = .functionParameter) ∧ i.result? = some id

namespace Build

open Builder

variable {α β : Type} {pending : List Id} {b : Builder}

/-- A loop of steps without stores. -/
theorem Gives.forIn {l : List α} {f : α → Unit → Build (ForInStep Unit)} (hn : b.Numbered pending)
    (h : ∀ x ∈ l, ∀ b', b'.Numbered pending →
      (f x ()).Gives pending b' fun step _ => step = .yield ()) :
    (forIn l () f).Gives pending b fun _ _ => True := by
  induction l generalizing b with
  | nil => exact .pure hn trivial
  | cons x l ih =>
    rw [List.forIn_cons]
    refine (h x List.mem_cons_self b hn).bind fun step b₁ _ hn₁ hstep => ?_
    subst hstep
    exact ih hn₁ fun y hy => h y (List.mem_cons_of_mem x hy)

end Build

namespace Builder

theorem stores_eq_nil {is : List Instruction} (h : ∀ i ∈ is, i.op ≠ .store) : stores is = [] := by
  refine List.filter_eq_nil_iff.mpr fun i hi => ?_
  simpa using h i hi

theorem stores_of_given {is : List Instruction} (h : ∀ i ∈ is, i.result?.isSome) :
    stores is = [] := by
  refine stores_eq_nil fun i hi hop => ?_
  have hresult := h i hi
  rw [Instruction.result?, hop] at hresult
  simp [Opcode.resultPosition?] at hresult

theorem stores_of_ahead {is : List Instruction} (h : ∀ i ∈ is, i.op.refersAhead) :
    stores is = [] := by
  refine stores_eq_nil fun i hi hop => ?_
  have hahead := h i hi
  rw [hop] at hahead
  simp [Opcode.refersAhead] at hahead

theorem Numbered.stores_assembled {pending : List Id} {b : Builder} (hn : b.Numbered pending)
    (void type function label : Id) :
    stores (b.assembled void type function label).instructions = stores b.code := by
  have happend (is js : List Instruction) : stores (is ++ js) = stores is ++ stores js :=
    List.filter_append is js
  have hheading : stores (b.heading function) = [] := by
    rw [heading, happend, happend, happend, stores_of_given given_imports,
      stores_of_ahead ahead_entry, stores_eq_nil fun i hi => by simp [op_capabilities i hi]]
    rfl
  have hdebug : stores b.debug = [] := stores_of_ahead fun i hi => (hn.debug i hi).1
  have hdefine : stores b.define = [] :=
    stores_of_given fun i hi => hn.given i (List.mem_append_left _ hi)
  have hdeclare : stores b.declare = [] :=
    stores_of_given fun i hi => hn.given i (List.mem_append_right _ hi)
  have hopening : stores (b.opening void type function) = [] := stores_of_given given_opening
  have hlabel : stores [⟨.label, [label]⟩] = [] := rfl
  have hend : stores [⟨.ret, []⟩, ⟨.functionEnd, []⟩] = [] := rfl
  simp only [Builder.assembled, Module.ofInstructions, hn.bare.1, hn.bare.2, happend, hheading, hdebug,
    hdefine, hopening, hlabel, hdeclare, hend, List.nil_append, List.append_nil]

theorem code_subset_assembled {b : Builder} (void type function label : Id) :
    b.code ⊆ (b.assembled void type function label).instructions := by
  intro i hi
  simp only [assembled, Module.ofInstructions, List.mem_append]
  exact .inl (.inr hi)

theorem IsVariable.assembled {b : Builder} {id : Id} (h : b.IsVariable id)
    (void type function label : Id) : (b.assembled void type function label).IsVariable id := by
  simp only [Module.IsVariable, Builder.assembled, Module.ofInstructions, List.mem_append]
  rcases h with ⟨pointer, hp⟩ | ⟨i, hi, hop, hresult⟩
  · refine ⟨⟨.functionParameter, [pointer, id]⟩, ?_, .inr rfl, rfl⟩
    exact .inl (.inl (.inl (.inl (.inr (List.mem_cons_of_mem _ (List.mem_map.mpr ⟨_, hp, rfl⟩))))))
  · refine ⟨i, ?_, .inl hop, hresult⟩
    rcases List.mem_append.mp hi with hi | hi
    · exact .inl (.inl (.inl (.inl (.inl (.inr hi)))))
    · exact .inl (.inl (.inr hi))

theorem Numbered.new (options : Options) : (Builder.new options).Numbered [] where
  start := Nat.le_refl 1
  once id := by
    have hnone : ¬(1 ≤ id.toNat ∧ id.toNat < (Builder.new options).nextId.toNat) := by
      change ¬(1 ≤ id.toNat ∧ id.toNat < 1)
      omega
    rw [if_neg hnone]
    rfl
  front := trivial
  given := by simp [Builder.new]
  computed := by simp [Builder.new]
  parameters := by simp [Builder.new]
  declare := by simp [Builder.new]
  code := trivial
  types := by simp [Builder.new]
  pointers := by simp [Builder.new]
  values := by simp [Builder.new]
  declared := by simp [Builder.new]
  distinct := by simp [Builder.new]
  interface := by simp [Builder.new]
  debug := by simp [Builder.new]
  bare := ⟨rfl, rfl⟩

end Builder

namespace Program

open Builder

variable {p : Program} {options : Options} {m : Module} {b : Builder}

/-- A module is assembled from a state that the code of the expression left. All of its stores are
    stores of the expression, as assembly adds none. -/
theorem build_eq_ok (h : p.build (.new options) = .ok (m, b)) :
    ∃ (b' : Builder) (void type function label : Id), b'.Numbered [label, function] ∧
      void ∈ results b'.front ∧ type ∈ results b'.front ∧
      List.Forall₂ b'.Writes p.expression.executed (stores b'.code) ∧
      b.declared = b'.declared ∧ m = b'.assembled void type function label := by
  obtain ⟨_, b₁, hparameters, h⟩ := Build.bind_eq_ok.mp h
  obtain ⟨-, hn₁, hsilent, -⟩ := Build.Gives.forIn (Numbered.new options) (fun x _ b' hn' => by
    split
    · exact (Build.variableId_gives hn' x).bind fun _ b'' _ hn'' _ => .pure hn'' rfl
    · exact .pure hn' rfl) _ b₁ hparameters
  obtain ⟨id, b₂, hexpr, h⟩ := Build.bind_eq_ok.mp h
  obtain ⟨-, hn₂, ⟨new, hnew, hwrites⟩, -⟩ := Build.expr_performs p.expression hn₁ id b₂ hexpr
  obtain ⟨void, b₃, names, hvoid, hmax, hmax', hmax'', hnames, rfl, rfl⟩ := Build.finish_eq_ok h
  obtain ⟨hlater, hn₃, hsilent₃, hvoid, -⟩ := Build.typeId_gives hn₂ .void void b₃ hvoid
  have hstores : stores b₃.code = new := by
    have hnone : stores b₁.code = [] := hsilent
    rw [hsilent₃, hnew, hnone, List.nil_append]
  refine ⟨b₃.closed void names, void, _, _, _, hn₃.closed hvoid hmax hmax' hmax'' hnames, ?_, ?_, ?_,
    rfl, rfl⟩
  · exact (Later.withDefinition b₃ _).front hvoid
  · exact mem_front_of_define (List.mem_append_right _ (List.mem_singleton_self _)) rfl
  · change List.Forall₂ b₃.Writes _ (stores b₃.code)
    rw [hstores]
    exact hwrites.imp fun _ _ hwrite => hwrite.later hlater

theorem compile_eq_ok (h : p.compile options = .ok m) :
    ∃ b, p.build (.new options) = .ok (m, b) := by
  unfold compile at h
  generalize hbuild : p.build.run (.new options) = result at h
  cases result with
  | error => simp [Except.map] at h
  | ok result =>
    obtain rfl : result.1 = m := Except.ok.inj h
    exact ⟨result.2, hbuild⟩

/-- Reading on top of a scope and compiling can be run. -/
theorem compileIn_eq_ok_of_isSome (source : String) (scope : Scope) (options : Options)
    (h : ((parseIn source scope).toOption.bind fun p => (p.compile options).toOption).isSome) :
    ∃ p m, parseIn source scope = .ok p ∧ p.compile options = .ok m := by
  cases hp : parseIn source scope with
  | error => simp [hp, Except.toOption] at h
  | ok p =>
    cases hm : p.compile options with
    | error => simp [hp, hm, Except.toOption] at h
    | ok m => exact ⟨p, m, rfl, hm⟩

theorem compile_eq_ok_of_isSome (source : String) (options : Options)
    (h : ((parse source).toOption.bind fun p => (p.compile options).toOption).isSome) :
    ∃ p m, parse source = .ok p ∧ p.compile options = .ok m :=
  compileIn_eq_ok_of_isSome source .empty options h

/-- Compiling puts the ids of a module into static single assignment form. Nothing is asked of the
    program, so this holds for any scope, parameters among it, and for trees that no source is read
    as. -/
theorem compile_singleAssignment (h : p.compile options = .ok m) : m.SingleAssignment := by
  obtain ⟨b, hbuild⟩ := compile_eq_ok h
  obtain ⟨b', void, type, function, label, hn, hvoid, htype, -, -, rfl⟩ := build_eq_ok hbuild
  exact hn.assembled hvoid htype

theorem compile_singleAssignment_swizzle : ∃ p m,
    parse "struct S { vec2 a; float b; } s; out vec4 c; c.zx = s.a *= 2.0;" = .ok p ∧
      p.compile {} = .ok m ∧ m.SingleAssignment := by
  obtain ⟨p, m, hp, hm⟩ := compile_eq_ok_of_isSome
    "struct S { vec2 a; float b; } s; out vec4 c; c.zx = s.a *= 2.0;" {} (by decide +kernel)
  exact ⟨p, m, hp, hm, compile_singleAssignment hm⟩

/-- The program of a source has a tree all of whose parts passed their checks. -/
theorem wellTyped_of_parse {source : String} (h : parse source = .ok p) :
    p.expression.WellTyped p.scope.declared := (wellFormed_of_parseIn .empty h).2

/-- The module of a source stores exactly once for each assignment of its expression, in the order
    in which assignments are made, through a pointer to the variable assigned to or to a member of
    it. Different variables have different pointers, and no variable that is written to is constant,
    read-only, an input or uniform. The builder `b` is named for its table, which tells the pointer
    of each variable. -/
theorem compile_stores {source : String} (hparse : parse source = .ok p)
    (hcompile : p.compile options = .ok m) : ∃ b, p.build (.new options) = .ok (m, b) ∧
      List.Forall₂ (Typing.Writes m.instructions b.declared) p.expression.assignments
        (stores m.instructions) ∧
      (∀ k id, b.declared.lookup k = some id → m.IsVariable id ∧
        ∀ k', b.declared.lookup k' = some id → k' = k) ∧
      ∀ s ∈ p.expression.assignments, ∃ x, s.written? = some x ∧ x ∈ p.scope.declared ∧
        x.qualifier.isConstant = false ∧ x.qualifier.has .readOnly = false ∧
        x.qualifier.storage ≠ .input ∧ x.qualifier.storage ≠ .uniform := by
  have htree := wellTyped_of_parse hparse
  obtain ⟨b, hbuild⟩ := compile_eq_ok hcompile
  obtain ⟨b', void, type, function, label, hn, -, -, hwrites, hdeclared, rfl⟩ := build_eq_ok hbuild
  refine ⟨b, hbuild, ?_, fun k id hk => ?_, fun s hs => ?_⟩
  · rw [hn.stores_assembled, ← Expr.executed_eq htree, hdeclared]
    refine hwrites.imp fun node i hwrite => ?_
    cases hwrite with
    | store assigned known reached =>
      exact .store assigned known (reached.mono (code_subset_assembled void type function label))
  · rw [hdeclared] at hk ⊢
    exact ⟨(hn.declared k id hk).assembled void type function label,
      fun k' hk' => hn.distinct k' k id hk' hk⟩
  · obtain ⟨hwithin, hassign⟩ := Expr.mem_assignments.mp hs
    obtain ⟨x, hx, hdeclared, hwritable⟩ := Expr.written?_of_wellTyped (htree.within hwithin) hassign
    simp only [Qualifier.isReadOnly, Bool.or_eq_false_iff, decide_eq_false_iff_not] at hwritable
    exact ⟨x, hx, hdeclared, hwritable.1.1.1, hwritable.1.1.2, hwritable.1.2, hwritable.2⟩

theorem compile_stores_swizzle : ∃ p m,
    parse "struct S { vec2 a; float b; } s; out vec4 c; c.zx = s.a *= 2.0;" = .ok p ∧
      p.compile {} = .ok m ∧ ∃ b, p.build (.new {}) = .ok (m, b) ∧
        List.Forall₂ (Typing.Writes m.instructions b.declared) p.expression.assignments
          (stores m.instructions) ∧
        (∀ k id, b.declared.lookup k = some id → m.IsVariable id ∧
          ∀ k', b.declared.lookup k' = some id → k' = k) ∧
        ∀ s ∈ p.expression.assignments, ∃ x, s.written? = some x ∧ x ∈ p.scope.declared ∧
          x.qualifier.isConstant = false ∧ x.qualifier.has .readOnly = false ∧
          x.qualifier.storage ≠ .input ∧ x.qualifier.storage ≠ .uniform := by
  obtain ⟨p, m, hp, hm⟩ := compile_eq_ok_of_isSome
    "struct S { vec2 a; float b; } s; out vec4 c; c.zx = s.a *= 2.0;" {} (by decide +kernel)
  exact ⟨p, m, hp, hm, compile_stores hp hm⟩

end Program

end ShaderExpr
