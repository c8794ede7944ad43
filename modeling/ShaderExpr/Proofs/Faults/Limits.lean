import ShaderExpr.Module.Lowering
import ShaderExpr.Proofs.Build.Attains
import ShaderExpr.Proofs.Expr.Evaluation

namespace ShaderExpr

/-- A module that is kept to its limits cannot hold what was to be added to it. Where no limit is
    kept to, no fault is of this kind. -/
def Fault.IsLimit [Limits] : Fault → Prop
  | .instructionTooLong => Limits.words
  | .idsExhausted => Limits.ids
  | _ => False

namespace Build

variable [Limits] {α β : Type} {b b' : Builder}

/-- Building from `b` has a result, or a limit of modules is in its way: its instructions have at
    most 65535 words, and its ids are numbers of 32 bits. All other faults are demands that the code
    does not meet, so there must be none. -/
def Runs (r : Build α) (b : Builder) : Prop := ∀ cause, r b = .error cause → cause.IsLimit

namespace Runs

variable {r : Build α} {f : α → Build β}

theorem pure (a : α) : (pure a : Build α).Runs b := by
  intro cause h
  have hok : (Except.ok (a, b) : Except Fault (α × Builder)) = .error cause := h
  simp at hok

theorem modify (g : Builder → Builder) : (modify g : Build Unit).Runs b := by
  intro cause h
  have hok : (Except.ok ((), g b) : Except Fault (Unit × Builder)) = .error cause := h
  simp at hok

/-- A limit is reached by the first step, or by what follows from where it ended. -/
theorem bind (h : r.Runs b) (hf : ∀ a b', r b = .ok (a, b') → (f a).Runs b') :
    (r >>= f).Runs b := by
  intro cause hcause
  have hrun : (r b >>= fun p => f p.1 p.2) = .error cause := hcause
  cases hr : r b with
  | error cause' =>
    rw [hr] at hrun
    obtain rfl : cause' = cause := Except.error.inj hrun
    exact h cause' hr
  | ok p =>
    rw [hr] at hrun
    exact hf p.1 p.2 hr cause hrun

theorem get_bind {f : Builder → Build β} (h : (f b).Runs b) :
    ((MonadState.get : Build Builder) >>= f).Runs b := h

theorem map {g : α → β} (h : r.Runs b) : (g <$> r).Runs b := by
  rw [map_eq_pure_bind]
  exact h.bind fun a _ _ => .pure (g a)

theorem except {x : Except Fault α} (h : ∀ cause, x = .error cause → cause.IsLimit) :
    (liftM x : Build α).Runs b := by
  intro cause hcause
  cases x with
  | error cause' =>
    obtain rfl : cause' = cause := Except.error.inj hcause
    exact h cause' rfl
  | ok a => exact Runs.pure a cause hcause

/-- A computation without a state that is known to have a result. -/
theorem except_ok {x : Except Fault α} (h : ∃ a, x = .ok a) : (liftM x : Build α).Runs b := by
  obtain ⟨a, rfl⟩ := h
  exact except (by simp)

/-- What follows such a computation goes on from the same state. -/
theorem except_bind {x : Except Fault α} {a : α} (hx : x = .ok a) (h : (f a).Runs b) :
    ((liftM x : Build α) >>= f).Runs b := by
  rw [hx]
  exact h

theorem ite {p : Prop} [Decidable p] {yes no : Build α} (hyes : p → yes.Runs b)
    (hno : ¬p → no.Runs b) : (if p then yes else no).Runs b := by
  split
  · exact hyes ‹_›
  · exact hno ‹_›

theorem forM {l : List α} {f : α → Build Unit} (h : ∀ x b, (f x).Runs b) : (l.forM f).Runs b := by
  induction l generalizing b with
  | nil => exact .pure ()
  | cons x l ih => exact (h x b).bind fun _ _ _ => ih

theorem mapM {l : List α} {f : α → Build β} (h : ∀ x ∈ l, ∀ b, (f x).Runs b) : (l.mapM f).Runs b := by
  induction l generalizing b with
  | nil => exact .pure []
  | cons x l ih =>
    rw [List.mapM_cons]
    refine (h x List.mem_cons_self b).bind fun y b₁ _ => ?_
    exact (ih fun z hz => h z (List.mem_cons_of_mem x hz)).bind fun ys _ _ => .pure _

omit [Limits] in
/-- Where no limit is kept to, there is always a result. -/
theorem exists_ok {r : Build α} (h : @Runs .ignored _ r b) : ∃ a b', r b = .ok (a, b') := by
  cases hr : r b with
  | ok result => exact ⟨result.1, result.2, rfl⟩
  | error cause =>
    have hlimit := h cause hr
    cases cause <;> simp [Fault.IsLimit] at hlimit

end Runs

theorem fresh_runs : fresh.Runs b := by
  refine .get_bind (.ite (fun hmax cause h => ?_) fun _ => ?_)
  · obtain rfl : Fault.idsExhausted = cause := Except.error.inj h
    exact hmax.1
  · exact (Runs.modify fun _ => _).bind fun _ _ _ => .pure _

theorem add_runs (s : Section) (op : Opcode) (operands : List UInt32) :
    (add s op operands).Runs b := by
  refine (Runs.except fun cause h => ?_).bind fun i _ _ => .modify _
  unfold checked at h
  split at h
  · simp at h
  · rename_i hlong
    obtain rfl := Except.error.inj h
    exact (Classical.not_imp.mp hlong).1

theorem nameId_runs (id : Id) (name : String) : (nameId id name).Runs b :=
  .get_bind (.ite (fun _ => add_runs _ _ _) fun _ => .pure ())

theorem nameMembers_runs (id : Id) (members : List (String × Ty)) :
    (nameMembers id members).Runs b :=
  .get_bind (.ite (fun _ => .forM fun _ _ => add_runs _ _ _) fun _ => .pure ())

theorem internType_runs {ty : Ty} {definition : Build Id} (h : definition.Runs b) :
    (internType ty definition).Runs b := by
  refine .get_bind ?_
  split
  · exact .pure _
  · exact h

theorem defineType_runs (ty : Ty) (op : Opcode) (operands : List UInt32) :
    (defineType ty op operands).Runs b :=
  fresh_runs.bind fun _ _ _ => (add_runs _ _ _).bind fun _ _ _ => (Runs.modify _).bind
    fun _ _ _ => .pure _

theorem scalarTypeId_runs (s : ScalarType) : (scalarTypeId s).Runs b := by
  refine internType_runs ?_
  cases s with
  | double => exact (Runs.modify _).bind fun _ _ _ => defineType_runs _ _ _
  | bool | float | int | uint => exact defineType_runs _ _ _

theorem vectorTypeId_runs (s : ScalarType) (n : Dim) : (vectorTypeId s n).Runs b :=
  internType_runs ((scalarTypeId_runs s).bind fun _ _ _ => defineType_runs _ _ _)

theorem matrixTypeId_runs (s : ScalarType) (columns rows : Dim) :
    (matrixTypeId s columns rows).Runs b :=
  internType_runs ((vectorTypeId_runs s rows).bind fun _ _ _ => defineType_runs _ _ _)

mutual
theorem typeId_runs : ∀ (ty : Ty) {b : Builder}, (typeId ty).Runs b
  | .void, _ => internType_runs (defineType_runs _ _ _)
  | .scalar s, _ => scalarTypeId_runs s
  | .vector s n, _ => vectorTypeId_runs s n
  | .matrix s columns rows, _ => matrixTypeId_runs s columns rows
  | .struct name members, _ => by
    refine internType_runs ((memberTypeIds_runs members).bind fun ids _ _ =>
      (defineType_runs _ _ _).bind fun id _ _ => ?_)
    have hmembers {b : Builder} :
        (nameMembers id members >>= fun _ => pure id : Build Id).Runs b :=
      (nameMembers_runs id members).bind fun _ _ _ => .pure id
    cases name with
    | none => exact hmembers
    | some name => exact (nameId_runs id name).bind fun _ _ _ => hmembers
theorem memberTypeIds_runs : ∀ (members : List (String × Ty)) {b : Builder},
    (memberTypeIds members).Runs b
  | [], _ => .pure []
  | (_, t) :: rest, _ =>
    (typeId_runs t).bind fun _ _ _ => (memberTypeIds_runs rest).bind fun _ _ _ => .pure _
end

theorem pointerTypeId_runs (ty : Ty) (storage : Storage) : (pointerTypeId ty storage).Runs b := by
  refine .get_bind ?_
  split
  · exact .pure _
  · exact (typeId_runs ty).bind fun _ _ _ => fresh_runs.bind fun _ _ _ =>
      (add_runs _ _ _).bind fun _ _ _ => (Runs.modify _).bind fun _ _ _ => .pure _

theorem addResult_runs (s : Section) (op : Opcode) (ty : Ty) (operands : List UInt32) :
    (addResult s op ty operands).Runs b :=
  (typeId_runs ty).bind fun _ _ _ => fresh_runs.bind fun _ _ _ =>
    (add_runs _ _ _).bind fun _ _ _ => .pure _

theorem emit_runs (op : Opcode) (ty : Ty) (operands : List UInt32) : (emit op ty operands).Runs b :=
  addResult_runs _ _ _ _

theorem emitExtended_runs (ty : Ty) (number : UInt32) (operands : List UInt32) :
    (emitExtended ty number operands).Runs b := by
  refine Runs.bind (.get_bind ?_) fun _ _ _ => emit_runs _ _ _
  split
  · exact .pure _
  · exact fresh_runs.bind fun _ _ _ => (Runs.modify _).bind fun _ _ _ => .pure _

/-- A scalar is repeated, or kept as it is. -/
theorem splat_runs (id : Id) (ty : Ty) : (splat id ty).Runs b :=
  .ite (fun _ => .pure id) fun _ => emit_runs _ _ _

theorem internValue_runs {ty : Ty} {data : List UInt8} {definition : Build Id}
    (h : definition.Runs b) : (internValue ty data definition).Runs b := by
  refine .get_bind ?_
  split
  · exact .pure _
  · exact h.bind fun _ _ _ => (Runs.modify _).bind fun _ _ _ => .pure _

theorem scalarId_runs {s : ScalarType} {data : List UInt8} (size : data.length = s.size) :
    (scalarId s data).Runs b := by
  refine internValue_runs ?_
  obtain ⟨x, hx, -⟩ := Scalar.ofBytes?_total size
  rw [hx]
  split
  · simp_all
  · exact addResult_runs _ _ _ _
  · exact addResult_runs _ _ _ _
  · exact addResult_runs _ _ _ _

theorem partIds_runs {part : List UInt8 → Build Id} {size : Nat}
    (h : ∀ (data : List UInt8) (b : Builder), data.length = size → (part data).Runs b) :
    ∀ {count : Nat} {data : List UInt8} {b : Builder}, data.length = size * count →
      (partIds part size count data).Runs b
  | 0, _, _, _ => .pure []
  | count + 1, data, b, hlength => by
    have hrest : size * (count + 1) = size * count + size := Nat.mul_succ size count
    refine (h _ b (by rw [List.length_take]; omega)).bind fun _ _ _ => ?_
    exact (partIds_runs h (by rw [List.length_drop]; omega)).bind fun _ _ _ => .pure _

theorem vectorId_runs {s : ScalarType} {n : Dim} {data : List UInt8}
    (size : data.length = s.size * n.toNat) : (vectorId s n data).Runs b :=
  internValue_runs ((partIds_runs (fun _ _ h => scalarId_runs h) size).bind
    fun _ _ _ => addResult_runs _ _ _ _)

theorem matrixId_runs {s : ScalarType} {columns rows : Dim} {data : List UInt8}
    (size : data.length = s.size * (columns.toNat * rows.toNat)) :
    (matrixId s columns rows data).Runs b := by
  refine internValue_runs ((partIds_runs (fun _ _ h => vectorId_runs h) ?_).bind
    fun _ _ _ => addResult_runs _ _ _ _)
  rw [size, Nat.mul_comm columns.toNat, Nat.mul_assoc]

mutual
theorem constantId_runs : ∀ {ty : Ty} {data : List UInt8} {b : Builder}, ty.isComplete →
    data.length = ty.size → (constantId ty data).Runs b
  | .void, _, _, complete, _ => nomatch complete
  | .scalar _, _, _, _, size => scalarId_runs size
  | .vector _ _, _, _, _, size => vectorId_runs size
  | .matrix _ _ _, _, _, _, size => matrixId_runs size
  | .struct _ members, _, _, complete, size =>
    internValue_runs ((memberIds_runs (show Ty.membersComplete members from complete)
      (Nat.le_of_eq size.symm)).bind
      fun _ _ _ => addResult_runs _ _ _ _)
theorem memberIds_runs : ∀ {ms : List (String × Ty)} {data : List UInt8} {b : Builder},
    Ty.membersComplete ms → Ty.membersSize ms ≤ data.length → (memberIds ms data).Runs b
  | [], _, _, _, _ => .pure []
  | (name, t) :: ms, data, _, complete, size => by
    obtain ⟨ht, hms⟩ := Bool.and_eq_true_iff.mp complete
    have hsize : Ty.membersSize ((name, t) :: ms) = t.size + Ty.membersSize ms := rfl
    refine (constantId_runs ht (by rw [List.length_take]; omega)).bind fun _ _ _ => ?_
    exact (memberIds_runs hms (by rw [List.length_drop]; omega)).bind fun _ _ _ => .pure _
end

/-- Values without void parts are constants of modules. -/
theorem valueId_runs {v : Value} (complete : v.ty.isComplete) : (valueId v).Runs b :=
  constantId_runs complete v.size_eq

theorem zeroId_runs {ty : Ty} (complete : ty.isComplete) : (zeroId ty).Runs b :=
  valueId_runs complete

theorem oneId_runs {ty : Ty} {s : ScalarType} (component : ty.component? = some s) :
    (oneId ty).Runs b := by
  unfold oneId
  rw [component]
  refine valueId_runs ?_
  have hty : (Value.ofComponents ty (List.replicate ty.componentCount (.one s))).ty = ty :=
    Value.ofComponents_ty _ _
  rw [hty]
  cases ty with
  | void | struct => simp [Ty.component?] at component
  | scalar | vector | matrix => rfl

end Build

end ShaderExpr
