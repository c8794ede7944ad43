import ShaderExpr.Proofs.Interning.Traces

namespace ShaderExpr

/-- What is left of instructions without the names among them. -/
def Instruction.withoutNames (is : List Instruction) : List Instruction := is.filter (!·.op.isName)

namespace Instruction

theorem withoutNames_append (is js : List Instruction) :
    withoutNames (is ++ js) = withoutNames is ++ withoutNames js := List.filter_append is js

theorem withoutNames_of_name {i : Instruction} (h : i.op.isName) : withoutNames [i] = [] :=
  List.filter_cons_of_neg (by simp [h])

theorem withoutNames_of_other {is : List Instruction}
    (h : ∀ i ∈ is, i.op.isName = false) : withoutNames is = is :=
  List.filter_eq_self.mpr fun i hi => by simp [h i hi]

end Instruction

theorem Opcode.isName_of_isComputed {op : Opcode} (h : op.isComputed) : op.isName = false := by
  cases op <;> first | rfl | exact absurd h (by decide)

namespace Builder

/-- The state that building without names is in. -/
def unnamed (b : Builder) : Builder :=
  { b with
    options := { b.options with debugNames := false }
    header := Instruction.withoutNames b.header
    debug := Instruction.withoutNames b.debug
    decorate := Instruction.withoutNames b.decorate
    define := Instruction.withoutNames b.define
    declare := Instruction.withoutNames b.declare
    code := Instruction.withoutNames b.code }

variable {i : Instruction}

theorem unnamed_append (b : Builder) (s : Section) (h : i.op.isName = false) :
    (b.append s i).unnamed = b.unnamed.append s i := by
  have hi : Instruction.withoutNames [i] = [i] := Instruction.withoutNames_of_other (by simpa using h)
  cases s <;> simp [append, unnamed, Instruction.withoutNames_append, hi]

theorem unnamed_append_name (b : Builder) (h : i.op.isName) :
    (b.append .debug i).unnamed = b.unnamed := by
  simp [append, unnamed, Instruction.withoutNames_append, Instruction.withoutNames_of_name h]

end Builder

namespace Build

open Builder

variable {α β : Type}

/-- Without names the same is done, and the result is the same up to `erase`: building goes through
    the same ids and the same tables, and what it appends differs in names only. Only a name that is
    too long can make a difference. -/
def Erases (erase : α → α) (r : Build α) : Prop :=
  ∀ b, r b ≠ .error .instructionTooLong → r b.unnamed = (r b).map (Prod.map erase unnamed)

/-- Names make no difference, not even for the result. -/
abbrev Blind (r : Build α) : Prop := r.Erases id

/-- Nothing is done besides naming. -/
def Names (r : Build Unit) : Prop :=
  ∀ b, r b ≠ .error .instructionTooLong → ∃ b', r b = .ok ((), b') ∧ b'.unnamed = b.unnamed

namespace Names

variable {r : Build Unit} {f : α → Build Unit}

theorem add {op : Opcode} (operands : List UInt32) (h : op.isName) :
    (add .debug op operands).Names := by
  intro b hb
  rw [add_run] at hb ⊢
  split at hb
  · rename_i hshort
    exact ⟨b.append .debug ⟨op, operands⟩, if_pos hshort, unnamed_append_name b h⟩
  · exact absurd rfl hb

theorem seq (h : r.Names) {r' : Build Unit} (h' : r'.Names) : (r >>= fun _ => r').Names := by
  intro b hb
  have hrun : (r >>= fun _ => r') b = r b >>= fun p => r' p.2 := rfl
  rw [hrun] at hb ⊢
  obtain ⟨b₁, hr, hb₁⟩ := h b fun herror => hb (by rw [herror]; rfl)
  rw [hr] at hb ⊢
  obtain ⟨b₂, hr', hb₂⟩ := h' b₁ hb
  exact ⟨b₂, hr', hb₂.trans hb₁⟩

theorem forM {l : List α} (h : ∀ x ∈ l, (f x).Names) : (l.forM f).Names := by
  induction l with
  | nil => exact fun b _ => ⟨b, rfl, rfl⟩
  | cons x l ih =>
    exact (h x List.mem_cons_self).seq (ih fun y hy => h y (List.mem_cons_of_mem x hy))

/-- Naming that is done on demand makes no difference. -/
theorem onDemand (h : r.Names) : Blind (do if (← get).options.debugNames then r) := by
  intro b hb
  change (if b.options.debugNames then r else pure ()) b ≠ _ at hb
  change Except.ok ((), b.unnamed) = ((if b.options.debugNames then r else pure ()) b).map _
  split at hb
  · rename_i hnames
    obtain ⟨b', hr, hb'⟩ := h b hb
    rw [if_pos hnames, hr]
    exact congrArg (fun b => Except.ok ((), b)) hb'.symm
  · rename_i hnames
    rw [if_neg hnames]
    rfl

end Names

namespace Erases

variable {r : Build α} {f : α → Build β} {erase : β → β}

theorem pure (a : α) : Blind (pure a : Build α) := fun _ _ => rfl

theorem throw {e : Fault} : Blind (throw e : Build α) := fun _ _ => rfl

theorem bind (h : Blind r) (hf : ∀ a, (f a).Erases erase) : (r >>= f).Erases erase := by
  intro b hb
  have hrun (b : Builder) : (r >>= f) b = r b >>= fun p => f p.1 p.2 := rfl
  rw [hrun] at hb ⊢
  rw [hrun]
  cases hr : r b with
  | error e =>
    have hunnamed := h b fun herror => hb (by rw [herror]; rfl)
    rw [hunnamed, hr]
    rfl
  | ok p =>
    rw [hr] at hb
    have hunnamed := h b (by rw [hr]; simp)
    rw [hunnamed, hr]
    exact hf p.1 p.2 hb

/-- What is read of a state to go on is not names. -/
theorem get_bind {f : Builder → Build β} (same : ∀ b, f b.unnamed = f b)
    (h : ∀ b, (f b).Erases erase) : ((get : Build Builder) >>= f).Erases erase := by
  intro b hb
  change f b.unnamed b.unnamed = (f b b).map _
  rw [same]
  exact h b b hb

theorem modify {f : Builder → Builder} (h : ∀ b, (f b).unnamed = f b.unnamed) :
    Blind (modify f : Build Unit) := by
  intro b _
  change Except.ok ((), f b.unnamed) = Except.ok ((), (f b).unnamed)
  rw [h]

theorem modify_bind {f : Builder → Builder} {r : Build β} (h : ∀ b, (f b).unnamed = f b.unnamed)
    (hr : r.Erases erase) : ((modifyThe Builder f : Build Unit) >>= fun _ => r).Erases erase :=
  (modify h).bind fun _ => hr

theorem ite {p : Prop} [Decidable p] {yes no : Build α} (hyes : Blind yes) (hno : Blind no) :
    Blind (if p then yes else no) := by
  split
  · exact hyes
  · exact hno

end Erases

theorem fresh_blind : Blind fresh := by
  intro b _
  rw [fresh_run, fresh_run]
  change ite (Limits.ids ∧ b.nextId = 0xffffffff) _ _ = _
  split
  · rfl
  · rfl

theorem add_blind (s : Section) {op : Opcode} (operands : List UInt32) (h : op.isName = false) :
    Blind (add s op operands) := by
  unfold add checked
  split
  · exact Erases.modify fun b => b.unnamed_append s h
  · exact .throw

theorem nameId_blind (id : Id) (name : String) : Blind (nameId id name) :=
  (Names.add _ rfl).onDemand

theorem nameMembers_blind (id : Id) (members : List (String × Ty)) :
    Blind (nameMembers id members) :=
  (Names.forM fun _ _ => .add _ rfl).onDemand

theorem internType_blind {ty : Ty} {definition : Build Id} (h : Blind definition) :
    Blind (internType ty definition) := by
  refine .get_bind (fun _ => rfl) fun b => ?_
  split
  · exact .pure _
  · exact h

theorem defineType_blind (ty : Ty) {op : Opcode} (operands : List UInt32)
    (h : op.isName = false) : Blind (defineType ty op operands) :=
  fresh_blind.bind fun _ => (add_blind _ _ h).bind fun _ => .modify_bind (fun _ => rfl) <| .pure _

theorem scalarTypeId_blind (s : ScalarType) : Blind (scalarTypeId s) := by
  refine internType_blind ?_
  cases s with
  | double => exact .modify_bind (fun _ => rfl) <| defineType_blind _ _ rfl
  | bool | float | int | uint => exact defineType_blind _ _ rfl

theorem vectorTypeId_blind (s : ScalarType) (n : Dim) : Blind (vectorTypeId s n) :=
  internType_blind ((scalarTypeId_blind s).bind fun _ => defineType_blind _ _ rfl)

theorem matrixTypeId_blind (s : ScalarType) (columns rows : Dim) :
    Blind (matrixTypeId s columns rows) :=
  internType_blind ((vectorTypeId_blind s rows).bind fun _ => defineType_blind _ _ rfl)

mutual
theorem typeId_blind : ∀ ty : Ty, Blind (typeId ty)
  | .void => internType_blind (defineType_blind _ _ rfl)
  | .scalar s => scalarTypeId_blind s
  | .vector s n => vectorTypeId_blind s n
  | .matrix s columns rows => matrixTypeId_blind s columns rows
  | .struct name members => by
    refine internType_blind ((memberTypeIds_blind members).bind fun ids =>
      (defineType_blind _ _ rfl).bind fun id => ?_)
    have hmembers : Blind (nameMembers id members >>= fun _ => pure id : Build Id) :=
      (nameMembers_blind id members).bind fun _ => .pure id
    cases name with
    | none => exact hmembers
    | some name => exact (nameId_blind id name).bind fun _ => hmembers
theorem memberTypeIds_blind : ∀ members : List (String × Ty), Blind (memberTypeIds members)
  | [] => .pure []
  | (_, t) :: rest =>
    (typeId_blind t).bind fun _ => (memberTypeIds_blind rest).bind fun _ => .pure _
end

theorem pointerTypeId_blind (ty : Ty) (storage : Storage) : Blind (pointerTypeId ty storage) := by
  refine .get_bind (fun _ => rfl) fun b => ?_
  split
  · exact .pure _
  · exact (typeId_blind ty).bind fun _ => fresh_blind.bind fun _ => (add_blind _ _ rfl).bind
      fun _ => .modify_bind (fun _ => rfl) <| .pure _

theorem addResult_blind (s : Section) {op : Opcode} (ty : Ty) (operands : List UInt32)
    (h : op.isName = false) : Blind (addResult s op ty operands) :=
  (typeId_blind ty).bind fun _ => fresh_blind.bind fun _ => (add_blind _ _ h).bind
    fun _ => .pure _

theorem extendedSetId_blind : Blind extendedSetId := by
  refine .get_bind (fun _ => rfl) fun b => ?_
  split
  · exact .pure _
  · exact fresh_blind.bind fun _ => .modify_bind (fun _ => rfl) <| .pure _

theorem emitExtended_blind (ty : Ty) (number : UInt32) (operands : List UInt32) :
    Blind (emitExtended ty number operands) :=
  extendedSetId_blind.bind fun _ => addResult_blind _ _ _ rfl

theorem internValue_blind {ty : Ty} {data : List UInt8} {definition : Build Id}
    (h : Blind definition) : Blind (internValue ty data definition) := by
  refine .get_bind (fun _ => rfl) fun b => ?_
  split
  · exact .pure _
  · exact h.bind fun _ => .modify_bind (fun _ => rfl) <| .pure _

theorem scalarId_blind (s : ScalarType) (data : List UInt8) : Blind (scalarId s data) := by
  refine internValue_blind ?_
  split
  · exact .throw
  all_goals exact addResult_blind _ _ _ rfl

theorem partIds_blind {part : List UInt8 → Build Id} (h : ∀ data, Blind (part data)) (size : Nat) :
    ∀ (count : Nat) (data : List UInt8), Blind (partIds part size count data)
  | 0, _ => .pure []
  | count + 1, _ => (h _).bind fun _ => (partIds_blind h size count _).bind fun _ => .pure _

theorem vectorId_blind (s : ScalarType) (n : Dim) (data : List UInt8) : Blind (vectorId s n data) :=
  internValue_blind ((partIds_blind (scalarId_blind s) _ _ _).bind fun _ =>
    addResult_blind _ _ _ rfl)

theorem matrixId_blind (s : ScalarType) (columns rows : Dim) (data : List UInt8) :
    Blind (matrixId s columns rows data) :=
  internValue_blind ((partIds_blind (vectorId_blind s rows) _ _ _).bind fun _ =>
    addResult_blind _ _ _ rfl)

mutual
theorem constantId_blind : ∀ (ty : Ty) (data : List UInt8), Blind (constantId ty data)
  | .void, _ => .throw
  | .scalar s, data => scalarId_blind s data
  | .vector s n, data => vectorId_blind s n data
  | .matrix s columns rows, data => matrixId_blind s columns rows data
  | .struct _ members, data =>
    internValue_blind ((memberIds_blind members data).bind fun _ => addResult_blind _ _ _ rfl)
theorem memberIds_blind : ∀ (members : List (String × Ty)) (data : List UInt8),
    Blind (memberIds members data)
  | [], _ => .pure []
  | (_, t) :: rest, _ =>
    (constantId_blind t _).bind fun _ => (memberIds_blind rest _).bind fun _ => .pure _
end

theorem nameVariable_blind (x : Variable) (id : Id) : Blind (nameVariable x id) :=
  (nameId_blind id x.name).bind fun _ => .modify_bind (fun _ => rfl) <| .pure id

theorem initialIds_blind (x : Variable) : Blind (initialIds x) := by
  unfold initialIds
  split
  · exact .ite ((constantId_blind _ _).bind fun _ => .pure _) (.pure _)
  · exact .pure _

theorem placeVariable_blind (x : Variable) (pointer id : Id) : Blind (placeVariable x pointer id) :=
  (initialIds_blind x).bind fun _ => (add_blind _ _ rfl).bind fun _ => by
    unfold registerVariable
    split
    · exact .modify_bind (fun _ => rfl) <| nameVariable_blind x id
    · exact nameVariable_blind x id

theorem variableId_blind (x : Variable) : Blind (variableId x) := by
  intro b hb
  cases hknown : b.declared.lookup x.id with
  | some id =>
    rw [variableId_of_known hknown, variableId_of_known (b := b.unnamed) hknown]
    rfl
  | none =>
    rw [variableId_of_new hknown] at hb ⊢
    rw [variableId_of_new (b := b.unnamed) hknown]
    refine (pointerTypeId_blind x.ty x.qualifier.storage).bind (fun pointer =>
      fresh_blind.bind fun id => ?_) b hb
    exact .ite (.modify_bind (fun _ => rfl) <| nameVariable_blind x id)
      (placeVariable_blind x pointer id)

/-- Code is blind to names. -/
def blind (xs : List Variable) : Trait xs where
  holds r := Blind r
  pure := .pure
  throw _ := .throw
  bind := Erases.bind
  folds h := .get_bind (fun _ => rfl) fun _ => h _
  emit ty operands hop := addResult_blind .code ty operands (Opcode.isName_of_isComputed hop)
  emitExtended := emitExtended_blind
  valueId _ := constantId_blind _ _
  variableId x _ := variableId_blind x
  access ty storage _ := (pointerTypeId_blind ty storage).bind fun _ => fresh_blind.bind fun _ =>
    (add_blind .code _ rfl).bind fun _ => .pure _
  store operands := add_blind .code operands rfl

end Build

end ShaderExpr
