import ShaderExpr.Proofs.Module.Rules

namespace ShaderExpr

/-- What stands behind a literal string, whose last word is the first one with a zero in its highest
    byte. -/
def LiteralString.behind : List UInt32 → List UInt32
  | [] => []
  | w :: rest => if w.toNat < 0x1000000 then rest else behind rest

/-- Instructions that may name ids which are given a meaning behind them. -/
def Opcode.refersAhead : Opcode → Bool
  | .entryPoint | .executionMode | .debugName | .debugMemberName => true
  | _ => false

namespace Instruction

/-- The ids that an instruction refers to, the type of its result among them. -/
def uses (i : Instruction) : List Id :=
  match i.op with
  | .nop | .capability | .memoryModel | .extInstImport | .typeVoid | .typeBool | .typeInt
  | .typeFloat | .functionEnd | .label | .ret => []
  | .debugName | .debugMemberName | .executionMode | .decorate => i.operands.take 1
  | .entryPoint => (i.operands.drop 1).take 1 ++ LiteralString.behind (i.operands.drop 2)
  | .store => i.operands
  | .typeVector | .typeMatrix => (i.operands.drop 1).take 1
  | .typeStruct | .typeFunction => i.operands.drop 1
  | .typePointer => i.operands.drop 2
  | .constantTrue | .constantFalse | .constant | .functionParameter => i.operands.take 1
  | .function | .var => i.operands.take 1 ++ i.operands.drop 3
  | .compositeExtract => i.operands.take 1 ++ (i.operands.drop 2).take 1
  | .vectorShuffle | .compositeInsert => i.operands.take 1 ++ (i.operands.drop 2).take 2
  | .extInst => i.operands.take 1 ++ (i.operands.drop 2).take 1 ++ i.operands.drop 4
  | _ => i.operands.take 1 ++ i.operands.drop 2

/-- The ids that instructions give a meaning to. -/
def results (is : List Instruction) : List Id := is.filterMap (·.result?)

/-- Each instruction refers to ids known before or given a meaning in front of it, unless it may
    refer ahead. Which operands are ids is a matter of the opcode; all others are numbers, names and
    bits of constants. -/
def Ordered (known : List Id) : List Instruction → Prop
  | [] => True
  | i :: rest => (i.op.refersAhead = false → ∀ id ∈ i.uses, id ∈ known) ∧
      Ordered (known ++ i.result?.toList) rest

@[simp] theorem results_nil : results [] = [] := rfl

@[simp] theorem results_append (is js : List Instruction) :
    results (is ++ js) = results is ++ results js :=
  List.filterMap_append

theorem results_singleton (i : Instruction) : results [i] = i.result?.toList := by
  cases h : i.result? <;> simp [results, h]

theorem mem_results {is : List Instruction} {id : Id} :
    id ∈ results is ↔ ∃ i ∈ is, i.result? = some id :=
  List.mem_filterMap

theorem ordered_append {known : List Id} {is js : List Instruction} :
    Ordered known (is ++ js) ↔ Ordered known is ∧ Ordered (known ++ results is) js := by
  induction is generalizing known with
  | nil => simp [Ordered]
  | cons i is ih =>
    have hresults : results (i :: is) = i.result?.toList ++ results is := by
      rw [← results_singleton, ← results_append]
      rfl
    simp only [List.cons_append, Ordered, ih, hresults, List.append_assoc, and_assoc]

theorem ordered_singleton {known : List Id} {i : Instruction} :
    Ordered known [i] ↔ (i.op.refersAhead = false → ∀ id ∈ i.uses, id ∈ known) := by
  simp [Ordered]

/-- Instructions that only refer to what is known stand in any order. -/
theorem ordered_of_known {known : List Id} {is : List Instruction}
    (h : ∀ i ∈ is, i.op.refersAhead = false → ∀ id ∈ i.uses, id ∈ known) : Ordered known is := by
  induction is generalizing known with
  | nil => trivial
  | cons i is ih =>
    refine ⟨h i List.mem_cons_self, ih fun j hj hahead id hid => ?_⟩
    exact List.mem_append_left _ (h j (List.mem_cons_of_mem i hj) hahead id hid)

theorem Ordered.mono {known known' : List Id} {is : List Instruction} (h : Ordered known is)
    (hsub : known ⊆ known') : Ordered known' is := by
  induction is generalizing known known' with
  | nil => trivial
  | cons i is ih =>
    refine ⟨fun hahead id hid => hsub (h.1 hahead id hid), ih h.2 ?_⟩
    exact List.append_subset.mpr
      ⟨fun id hid => List.mem_append_left _ (hsub hid), fun id hid => List.mem_append_right _ hid⟩

/-- Ordered instructions behind others that give a meaning to all that they know. -/
theorem Ordered.append {known : List Id} {is js : List Instruction} (h : Ordered [] is)
    (h' : Ordered known js) (hsub : known ⊆ results is) : Ordered [] (is ++ js) :=
  ordered_append.mpr ⟨h, h'.mono hsub⟩

/-- Instructions that may refer ahead give no meaning. -/
theorem result?_of_refersAhead {i : Instruction} (h : i.op.refersAhead) : i.result? = none := by
  have hop : i.op.resultPosition? = none := by
    unfold Opcode.refersAhead at h
    split at h <;> simp_all [Opcode.resultPosition?]
  rw [result?, hop, Option.bind_none]

/-- What one of ordered instructions refers to is known before, or given a meaning by those in
    front. -/
theorem Ordered.earlier {known : List Id} {is js : List Instruction} {i : Instruction}
    (h : Ordered known (is ++ i :: js)) (ahead : i.op.refersAhead = false) :
    ∀ id ∈ i.uses, id ∈ known ++ results is :=
  (ordered_append.mp h).2.1 ahead

end Instruction

/-- Ids are in static single assignment form: every id below the bound is given a meaning once, no
    other id occurs, and an id is referred to behind the instruction that gives it a meaning, except
    where an instruction may refer ahead. -/
structure Module.SingleAssignment (m : Module) : Prop where
  once : ∀ id : Id, 1 ≤ id.toNat → id.toNat < m.bound.toNat →
    (Instruction.results m.instructions).count id = 1
  inside : ∀ i ∈ m.instructions, ∀ id, id ∈ i.uses ∨ i.result? = some id →
    1 ≤ id.toNat ∧ id.toNat < m.bound.toNat
  earlier : ∀ front i behind, m.instructions = front ++ i :: behind → i.op.refersAhead = false →
    ∀ id ∈ i.uses, id ∈ Instruction.results front

end ShaderExpr
