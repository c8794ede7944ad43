import ShaderExpr.Module.Lowering
import ShaderExpr.Proofs.Ids.Tables

namespace ShaderExpr

open Instruction

theorem Instruction.uses_result {op : Opcode} (typed : op.resultPosition? = some 1) {t id x : Id}
    {operands : List UInt32} (hx : x ∈ uses ⟨op, t :: id :: operands⟩) : x = t ∨ x ∈ operands := by
  have hcons {l : List Id} (hl : l ⊆ operands) (hx : x ∈ t :: l) : x = t ∨ x ∈ operands :=
    (List.mem_cons.mp hx).imp_right fun h => hl h
  have htake (n : Nat) : operands.take n ⊆ operands := List.take_subset n operands
  have hdrop (n : Nat) : operands.drop n ⊆ operands := List.drop_subset n operands
  cases op <;> first
    | exact absurd typed (by decide)
    | exact hcons (List.Subset.refl _) hx
    | exact hcons (List.nil_subset _) hx
    | exact hcons (htake 1) hx
    | exact hcons (htake 2) hx
    | exact hcons (hdrop 1) hx
    | exact hcons (List.append_subset.mpr ⟨htake 1, hdrop 2⟩) hx

theorem Opcode.ne_store {op : Opcode} (typed : op.resultPosition? = some 1) : op ≠ .store := by
  rintro rfl
  simp [resultPosition?] at typed

namespace Builder

/-- An id has a meaning. -/
def Knows (id : Id) (b : Builder) : Prop := id ∈ b.known

theorem Knows.later {id : Id} {b b' : Builder} (h : Knows id b) (later : b.Later b') : Knows id b' :=
  later.known h

theorem Defines.knows {id : Id} {b b' : Builder} (h : b.Defines id b') : Knows id b' :=
  mem_known_of_front h.given

end Builder

namespace Build

open Builder

variable {b b' : Builder}

/-- An instruction with a result in the code, behind the type of its result. `uses` is asked for
    every id, since the result is new and not known yet. -/
theorem addCode_gives (hn : b.Numbered []) {op : Opcode} {t : Id} {operands : List UInt32}
    (typed : op.resultPosition? = some 1)
    (uses : ∀ id, ∀ x ∈ Instruction.uses ⟨op, t :: id :: operands⟩, Knows x b) : (do
      let id ← fresh
      add .code op (t :: id :: operands)
      return id : Build Id).Gives [] b fun id b' =>
        Knows id b' ∧ ⟨op, t :: id :: operands⟩ ∈ b'.code := by
  refine .fresh_bind hn fun id b₁ hlater hn₁ _ _ _ _ _ => ?_
  have hresult : Instruction.result? ⟨op, t :: id :: operands⟩ = some id := by
    rw [Instruction.result?, typed]
    rfl
  refine .step_bind [] (P := fun _ b' => Knows id b' ∧ ⟨op, t :: id :: operands⟩ ∈ b'.code)
    (fun _ b' hadd => ?_) fun _ b' _ hn' h => .pure hn' h
  obtain ⟨rfl, -⟩ := add_eq_ok hadd
  have hmem : ⟨op, t :: id :: operands⟩ ∈ (b₁.withCode ⟨op, t :: id :: operands⟩).code :=
    List.mem_append_right _ (List.mem_singleton_self _)
  refine ⟨.withCode b₁ _,
    hn₁.settleCode hresult fun x hx => (uses id x hx).later hlater, ?_,
    List.mem_append_right _ (mem_results.mpr ⟨_, hmem, hresult⟩), hmem⟩
  change stores (b₁.code ++ [_]) = stores b₁.code
  rw [stores, List.filter_append, List.filter_cons_of_neg (by simpa using op.ne_store typed)]
  simp [stores]

/-- An instruction with a result in the code. Which operands are ids is said by its opcode, and
    those must be known already, other than the type. -/
theorem emit_gives_uses (hn : b.Numbered []) {op : Opcode} {ty : Ty} {operands : List UInt32}
    (typed : op.resultPosition? = some 1)
    (uses : ∀ t id, ∀ x ∈ Instruction.uses ⟨op, t :: id :: operands⟩, x = t ∨ Knows x b) :
    (emit op ty operands).Gives [] b Knows := by
  unfold emit addResult
  refine (typeId_gives hn ty).bind fun t b₁ hlater hn₁ ht => ?_
  refine (addCode_gives hn₁ typed fun id x hx => ?_).mono fun _ _ _ _ h => h.1
  rcases uses t id x hx with rfl | hx
  · exact ht.knows
  · exact hx.later hlater

/-- An instruction all of whose operands are ids. They must have a meaning already, and its result
    is a new id. -/
theorem emit_gives (hn : b.Numbered []) {op : Opcode} {ty : Ty} {operands : List UInt32}
    (typed : op.resultPosition? = some 1) (uses : ∀ x ∈ operands, Knows x b) :
    (emit op ty operands).Gives [] b Knows :=
  emit_gives_uses hn typed fun _ _ x hx => (uses_result typed hx).imp_right (uses x)

theorem emit_one (hn : b.Numbered []) {op : Opcode} {ty : Ty} {x : Id}
    (typed : op.resultPosition? = some 1) (hx : Knows x b) : (emit op ty [x]).Gives [] b Knows :=
  emit_gives hn typed (by simpa using hx)

theorem emit_two (hn : b.Numbered []) {op : Opcode} {ty : Ty} {x y : Id}
    (typed : op.resultPosition? = some 1) (hx : Knows x b) (hy : Knows y b) :
    (emit op ty [x, y]).Gives [] b Knows :=
  emit_gives hn typed (by simpa using ⟨hx, hy⟩)

/-- A part of a value, whose position is not an id. -/
theorem extract_gives (hn : b.Numbered []) {ty : Ty} {x : Id} {indexes : List UInt32}
    (hx : Knows x b) : (emit .compositeExtract ty (x :: indexes)).Gives [] b Knows := by
  refine emit_gives_uses hn rfl fun t id y hy => ?_
  have hy : y ∈ [t, x] := by simpa [Instruction.uses] using hy
  rcases List.mem_cons.mp hy with rfl | hy
  · exact .inl rfl
  · exact .inr (List.mem_singleton.mp hy ▸ hx)

/-- Components of two values, whose positions are not ids. -/
theorem pick_gives (hn : b.Numbered []) {op : Opcode} (hop : op = .vectorShuffle ∨ op = .compositeInsert)
    {ty : Ty} {x y : Id} {indexes : List UInt32} (hx : Knows x b) (hy : Knows y b) :
    (emit op ty (x :: y :: indexes)).Gives [] b Knows := by
  have typed : op.resultPosition? = some 1 := by rcases hop with rfl | rfl <;> rfl
  refine emit_gives_uses hn typed fun t id z hz => ?_
  have hz : z ∈ [t, x, y] := by
    rcases hop with rfl | rfl <;> simpa [Instruction.uses] using hz
  simp only [List.mem_cons, List.not_mem_nil, or_false] at hz
  rcases hz with rfl | rfl | rfl
  · exact .inl rfl
  · exact .inr hx
  · exact .inr hy

/-- A list of values built one after the other. -/
theorem mapM_gives {α : Type} {f : α → Build Id} {l : List α} (hn : b.Numbered [])
    (h : ∀ x ∈ l, ∀ b', b.Later b' → b'.Numbered [] → (f x).Gives [] b' Knows) :
    (l.mapM f).Gives [] b fun ids b' => ∀ id ∈ ids, Knows id b' :=
  .mapM (fun _ _ _ hlater hid => hid.later hlater) hn h

theorem splat_gives (hn : b.Numbered []) {id : Id} (ty : Ty) (hid : Knows id b) :
    (splat id ty).Gives [] b Knows := by
  unfold splat
  split
  · exact .pure hn hid
  · exact emit_gives hn rfl fun x hx => List.eq_of_mem_replicate hx ▸ hid

theorem zeroId_gives (hn : b.Numbered []) (ty : Ty) : (zeroId ty).Gives [] b Knows :=
  (valueId_gives hn _).mono fun _ _ _ _ h => h.knows

theorem oneId_gives (hn : b.Numbered []) (ty : Ty) : (oneId ty).Gives [] b Knows := by
  unfold oneId
  split
  · exact .throw
  · exact (valueId_gives hn _).mono fun _ _ _ _ h => h.knows

theorem convertComponents_gives (hn : b.Numbered []) {id : Id} (source target : Ty)
    (hid : Knows id b) : (convertComponents id source target).Gives [] b Knows := by
  have hzero {op : Opcode} (typed : op.resultPosition? = some 1) : (do
      let zero ← zeroId source
      emit op target [id, zero]).Gives [] b Knows :=
    (zeroId_gives hn source).bind fun zero b₁ hlater hn₁ hzero =>
      emit_two hn₁ typed (hid.later hlater) hzero
  unfold convertComponents
  split
  · refine (oneId_gives hn target).bind fun one b₁ hlater₁ hn₁ hone => ?_
    refine (zeroId_gives hn₁ target).bind fun zero b₂ hlater₂ hn₂ hzero => ?_
    refine emit_gives hn₂ rfl fun x hx => ?_
    simp only [List.mem_cons, List.not_mem_nil, or_false] at hx
    rcases hx with rfl | rfl | rfl
    · exact (hid.later hlater₁).later hlater₂
    · exact hone.later hlater₂
    · exact hzero
  all_goals first
    | exact emit_one hn rfl hid
    | exact hzero rfl
    | exact .throw

theorem convertPlain_gives (hn : b.Numbered []) {id : Id} (source target : Ty) (hid : Knows id b) :
    (convertPlain id source target).Gives [] b Knows := by
  unfold convertPlain
  split
  · exact .pure hn hid
  · exact convertComponents_gives hn source target hid

theorem convert_gives (hn : b.Numbered []) {id : Id} (source target : Ty) (hid : Knows id b) :
    (convert id source target).Gives [] b Knows := by
  unfold convert
  split
  · exact .pure hn hid
  · split
    · refine (mapM_gives hn fun i _ b₁ hlater hn₁ => ?_).bind fun ids b₁ _ hn₁ hids =>
        emit_gives hn₁ rfl hids
      exact (extract_gives hn₁ (hid.later hlater)).bind fun part b₂ _ hn₂ hpart =>
        convertPlain_gives hn₂ _ _ hpart
    · exact convertComponents_gives hn _ _ hid

theorem withComponent_gives (hn : b.Numbered []) {x : Operand} (s : ScalarType)
    (hx : Knows x.id b) : (withComponent x s).Gives [] b fun y b' => Knows y.id b' := by
  unfold withComponent
  split
  · exact .throw
  · exact (convert_gives hn _ _ hx).bind fun id b₁ _ hn₁ hid => .pure hn₁ hid

theorem broadcast_gives (hn : b.Numbered []) {x : Operand} (ty : Ty) (hx : Knows x.id b) :
    (broadcast x ty).Gives [] b Knows := by
  unfold broadcast
  split
  · exact splat_gives hn ty hx
  · exact .pure hn hx

theorem componentOf_bind {α : Type} {ty : Ty} {f : ScalarType → Build α} {Q : α → Builder → Prop}
    (h : ∀ s, (f s).Gives [] b Q) : (componentOf ty >>= f).Gives [] b Q := by
  unfold componentOf
  cases ty.component? with
  | none => exact .throw
  | some s => exact h s

theorem columnOf_bind {α : Type} {ty : Ty} {f : Ty → Build α} {Q : α → Builder → Prop}
    (h : ∀ column, (f column).Gives [] b Q) : (columnOf ty >>= f).Gives [] b Q := by
  unfold columnOf
  cases ty.element? with
  | none => exact .throw
  | some column => exact h column

theorem componentwise_gives (hn : b.Numbered []) {op : Opcode} {l r : Operand} (ty : Ty)
    (typed : op.resultPosition? = some 1) (hl : Knows l.id b) (hr : Knows r.id b) :
    (componentwise op ty l r).Gives [] b Knows := by
  refine (broadcast_gives hn ty hl).bind fun x b₁ hlater₁ hn₁ hx => ?_
  refine (broadcast_gives hn₁ ty (hr.later hlater₁)).bind fun y b₂ hlater₂ hn₂ hy => ?_
  exact emit_two hn₂ typed (hx.later hlater₂) hy

theorem product_gives (hn : b.Numbered []) (ty : Ty) {l r : Operand} (hl : Knows l.id b)
    (hr : Knows r.id b) : (product ty l r).Gives [] b Knows := by
  unfold product
  refine componentOf_bind fun s => ?_
  have hplain : (componentwise (if s.isFloating then .fMul else .iMul) ty l r).Gives [] b Knows :=
    componentwise_gives hn ty (by split <;> rfl) hl hr
  have hscalar {x y : Id} (hx : Knows x b) (hy : Knows y b) :
      (emit .vectorTimesScalar ty [x, y]).Gives [] b Knows := emit_two hn rfl hx hy
  split
  · exact emit_two hn rfl hl hr
  · exact emit_two hn rfl hl hr
  · exact emit_two hn rfl hl hr
  · exact emit_two hn rfl hl hr
  · exact emit_two hn rfl hl hr
  · exact emit_two hn rfl hr hl
  · exact emit_two hn rfl hr hl
  · exact .ite (hscalar hl hr) hplain
  · exact .ite (hscalar hl hr) hplain
  · exact .ite (hscalar hr hl) hplain
  · exact .ite (hscalar hr hl) hplain
  · exact hplain

theorem columnPart_gives (hn : b.Numbered []) {repeated : Option Id} (column : Ty) {x : Id} (i : Nat)
    (hx : Knows x b) (hrepeated : ∀ id, repeated = some id → Knows id b) :
    (columnPart repeated column x i).Gives [] b Knows := by
  unfold columnPart
  split
  · exact .pure hn (hrepeated _ rfl)
  · exact extract_gives hn hx

/-- A scalar operand repeated for the columns of a matrix. -/
theorem repeatedColumn_gives (hn : b.Numbered []) {x : Operand} (column : Ty) (hx : Knows x.id b) :
    (repeatedColumn column x).Gives [] b fun repeated b' =>
      ∀ id, repeated = some id → Knows id b' := by
  unfold repeatedColumn
  split
  · rw [map_eq_pure_bind]
    exact (splat_gives hn column hx).bind fun id b₁ _ hn₁ hid =>
      .pure hn₁ fun y hy => Option.some.inj hy ▸ hid
  · exact .pure hn (by simp)

theorem perColumn_gives (hn : b.Numbered []) {op : Opcode} (typed : op.resultPosition? = some 1)
    (ty : Ty) {l r : Operand} (hl : Knows l.id b) (hr : Knows r.id b) :
    (perColumn op ty l r).Gives [] b Knows := by
  unfold perColumn
  refine columnOf_bind fun column => ?_
  refine (repeatedColumn_gives hn column hl).bind fun left b₁ hlater₁ hn₁ hleft => ?_
  refine (repeatedColumn_gives hn₁ column (hr.later hlater₁)).bind fun right b₂ hlater₂ hn₂ hright => ?_
  refine (mapM_gives hn₂ fun i _ b₃ hlater₃ hn₃ => ?_).bind fun ids b₃ _ hn₃ hids =>
    emit_gives hn₃ rfl hids
  have hl₃ := (hl.later hlater₁).later (hlater₂.trans hlater₃)
  have hr₃ := (hr.later hlater₁).later (hlater₂.trans hlater₃)
  refine (columnPart_gives hn₃ column i hl₃ fun id hid =>
    (hleft id hid).later (hlater₂.trans hlater₃)).bind fun x b₄ hlater₄ hn₄ hx => ?_
  refine (columnPart_gives hn₄ column i (hr₃.later hlater₄) fun id hid =>
    (hright id hid).later (hlater₃.trans hlater₄)).bind fun y b₅ hlater₅ hn₅ hy => ?_
  exact emit_two hn₅ typed (hx.later hlater₅) hy

theorem reciprocal_gives (hn : b.Numbered []) {x : Operand} (hx : Knows x.id b) :
    (reciprocal x).Gives [] b Knows := by
  unfold reciprocal
  split
  · refine columnOf_bind fun column => ?_
    refine (oneId_gives hn column).bind fun ones b₁ hlater₁ hn₁ hones => ?_
    refine (mapM_gives hn₁ fun i _ b₂ hlater₂ hn₂ => ?_).bind fun ids b₂ _ hn₂ hids =>
      emit_gives hn₂ rfl hids
    refine (extract_gives hn₂ ((hx.later hlater₁).later hlater₂)).bind
      fun part b₃ hlater₃ hn₃ hpart => ?_
    exact emit_two hn₃ rfl ((hones.later hlater₂).later hlater₃) hpart
  · exact (oneId_gives hn x.ty).bind fun one b₁ hlater hn₁ hone =>
      emit_two hn₁ rfl hone (hx.later hlater)

theorem matrixDivision_gives (hn : b.Numbered []) (ty : Ty) {l r : Operand} (hl : Knows l.id b)
    (hr : Knows r.id b) : (matrixDivision ty l r).Gives [] b Knows := by
  unfold matrixDivision
  refine (reciprocal_gives hn hr).bind fun inverse b₁ hlater hn₁ hinverse => ?_
  have hl₁ := hl.later hlater
  split
  · exact emit_two hn₁ rfl hinverse hl₁
  · split
    · exact emit_two hn₁ rfl hl₁ hinverse
    · exact perColumn_gives hn₁ rfl ty (r := ⟨inverse, r.ty⟩) hl₁ hinverse

/-- An opcode that the family of an operator has gives results. -/
theorem opcodeOf_bind {α : Type} {op : Option Opcode} {s : ScalarType} {f : Opcode → Build α}
    {Q : α → Builder → Prop} (h : ∀ o, op = some o → (f o).Gives [] b Q) :
    (opcodeOf op s >>= f).Gives [] b Q := by
  unfold opcodeOf
  cases op with
  | none => exact .throw
  | some o => exact h o rfl

theorem typed_of_arithmeticOpcode? {op : Operator} {s : ScalarType} {o : Opcode}
    (h : arithmeticOpcode? op s = some o) : o.resultPosition? = some 1 := by
  unfold arithmeticOpcode? at h
  split at h <;> simp_all [Opcode.resultPosition?] <;> subst h <;> rfl

theorem typed_of_integerOpcode? {op : Operator} {s : ScalarType} {o : Opcode}
    (h : integerOpcode? op s = some o) : o.resultPosition? = some 1 := by
  unfold integerOpcode? at h
  split at h <;> simp_all [Opcode.resultPosition?] <;> subst h <;> rfl

theorem typed_of_relationOpcode? {op : Operator} {s : ScalarType} {o : Opcode}
    (h : relationOpcode? op s = some o) : o.resultPosition? = some 1 := by
  unfold relationOpcode? at h
  split at h <;> simp_all [Opcode.resultPosition?] <;> subst h <;> rfl

theorem typed_of_logicalOpcode? {op : Operator} {o : Opcode} (h : logicalOpcode? op = some o) :
    o.resultPosition? = some 1 := by
  unfold logicalOpcode? at h
  split at h <;> simp_all [Opcode.resultPosition?] <;> subst h <;> rfl

theorem typed_shiftOpcode (op : Operator) (s : Option ScalarType) :
    (shiftOpcode op s).resultPosition? = some 1 := by
  unfold shiftOpcode
  split
  · rfl
  · split <;> rfl

theorem typed_equalityOpcode (equal : Bool) (s : Option ScalarType) :
    (equalityOpcode equal s).resultPosition? = some 1 := by
  unfold equalityOpcode
  split <;> rfl

theorem arithmetic_gives (hn : b.Numbered []) (op : Operator) (ty : Ty) {l r : Operand}
    (hl : Knows l.id b) (hr : Knows r.id b) : (arithmetic op ty l r).Gives [] b Knows := by
  unfold arithmetic
  split
  · exact matrixDivision_gives hn ty hl hr
  · refine componentOf_bind fun s => opcodeOf_bind fun o ho => ?_
    have typed := typed_of_arithmeticOpcode? ho
    split
    · exact perColumn_gives hn typed ty hl hr
    · exact componentwise_gives hn ty typed hl hr

theorem vectorEquality_gives (hn : b.Numbered []) (equal : Bool) (ty : Ty) {l r : Id}
    (hl : Knows l b) (hr : Knows r b) : (vectorEquality equal ty l r).Gives [] b Knows := by
  have typed := typed_equalityOpcode equal ty.component?
  unfold vectorEquality
  split
  · refine (emit_two hn typed hl hr).bind fun components b₁ _ hn₁ hcomponents => ?_
    exact emit_one hn₁ (by split <;> rfl) hcomponents
  · exact emit_two hn typed hl hr

theorem columnsEquality_gives (equal : Bool) (column : Ty) {l r : Id} :
    ∀ (count i : Nat) {sofar : Id} {b : Builder}, b.Numbered [] → Knows l b → Knows r b →
      Knows sofar b → (columnsEquality equal column l r count i sofar).Gives [] b Knows := by
  intro count
  induction count with
  | zero => exact fun i sofar b hn _ _ hsofar => .pure hn hsofar
  | succ count ih =>
    intro i sofar b hn hl hr hsofar
    unfold columnsEquality
    refine (extract_gives hn hl).bind fun x b₁ hlater₁ hn₁ hx => ?_
    refine (extract_gives hn₁ (hr.later hlater₁)).bind fun y b₂ hlater₂ hn₂ hy => ?_
    refine (vectorEquality_gives hn₂ equal column (hx.later hlater₂) hy).bind
      fun same b₃ hlater₃ hn₃ hsame => ?_
    have hlater := (hlater₁.trans hlater₂).trans hlater₃
    refine (emit_two hn₃ (by split <;> rfl) (hsofar.later hlater) hsame).bind
      fun both b₄ hlater₄ hn₄ hboth => ?_
    exact ih (i + 1) hn₄ ((hl.later hlater).later hlater₄) ((hr.later hlater).later hlater₄) hboth

theorem equality_gives (hn : b.Numbered []) (equal : Bool) (ty : Ty) {l r : Id} (hl : Knows l b)
    (hr : Knows r b) : (equality equal ty l r).Gives [] b Knows := by
  unfold equality
  split
  · exact .throw
  · rename_i s columns rows
    refine (extract_gives hn hl).bind fun x b₁ hlater₁ hn₁ hx => ?_
    refine (extract_gives hn₁ (hr.later hlater₁)).bind fun y b₂ hlater₂ hn₂ hy => ?_
    refine (vectorEquality_gives hn₂ equal _ (hx.later hlater₂) hy).bind
      fun first b₃ hlater₃ hn₃ hfirst => ?_
    have hlater := (hlater₁.trans hlater₂).trans hlater₃
    exact columnsEquality_gives equal _ _ 1 hn₃ (hl.later hlater) (hr.later hlater) hfirst
  · exact vectorEquality_gives hn equal ty hl hr

theorem commonOf_bind {α : Type} {l r : Operand} {f : ScalarType → Build α}
    {Q : α → Builder → Prop} (h : ∀ s, (f s).Gives [] b Q) : (commonOf l r >>= f).Gives [] b Q := by
  unfold commonOf
  cases commonComponent l.ty r.ty with
  | error _ => exact .throw
  | ok s => exact h s

/-- Both operands in one component type. -/
theorem withComponents_bind {α : Type} {l r : Operand} {s : ScalarType}
    {f : Operand → Operand → Build α} {Q : α → Builder → Prop} (hn : b.Numbered [])
    (hl : Knows l.id b) (hr : Knows r.id b)
    (h : ∀ l r b', b'.Numbered [] → Knows l.id b' → Knows r.id b' → (f l r).Gives [] b' Q) :
    (do
      let l ← withComponent l s
      let r ← withComponent r s
      f l r).Gives [] b Q := by
  refine (withComponent_gives hn s hl).bind fun l' b₁ hlater₁ hn₁ hl' => ?_
  refine (withComponent_gives hn₁ s (hr.later hlater₁)).bind fun r' b₂ hlater₂ hn₂ hr' => ?_
  exact h l' r' b₂ hn₂ (hl'.later hlater₂) hr'

theorem shiftAmount_gives (hn : b.Numbered []) {l r : Operand} (hr : Knows r.id b) :
    (shiftAmount l r).Gives [] b Knows := by
  unfold shiftAmount
  split
  · split
    · exact splat_gives hn _ hr
    · exact .pure hn hr
  · exact .pure hn hr

theorem binary_gives (hn : b.Numbered []) (op : Operator) (ty : Ty) {l r : Operand}
    (hl : Knows l.id b) (hr : Knows r.id b) : (binary op ty l r).Gives [] b Knows := by
  have hinteger : (do
      let s ← componentOf ty
      let l ← withComponent l s
      let r ← withComponent r s
      integral op ty s l r).Gives [] b Knows :=
    componentOf_bind fun s => withComponents_bind hn hl hr fun l r b₁ hn₁ hl hr =>
      opcodeOf_bind fun o ho => componentwise_gives hn₁ ty (typed_of_integerOpcode? ho) hl hr
  unfold binary
  cases op.family with
  | multiplication =>
    exact componentOf_bind fun s => withComponents_bind hn hl hr fun l r b₁ hn₁ hl hr =>
      product_gives hn₁ ty hl hr
  | arithmetic =>
    exact componentOf_bind fun s => withComponents_bind hn hl hr fun l r b₁ hn₁ hl hr =>
      arithmetic_gives hn₁ op ty hl hr
  | modulo => exact hinteger
  | bitwise => exact hinteger
  | shift =>
    exact (shiftAmount_gives hn hr).bind fun amount b₁ hlater hn₁ hamount =>
      emit_two hn₁ (typed_shiftOpcode op _) (hl.later hlater) hamount
  | relational =>
    exact commonOf_bind fun s => withComponents_bind hn hl hr fun l r b₁ hn₁ hl hr =>
      opcodeOf_bind fun o ho => emit_two hn₁ (typed_of_relationOpcode? ho) hl hr
  | equality =>
    exact commonOf_bind fun s => withComponents_bind hn hl hr fun l r b₁ hn₁ hl hr =>
      equality_gives hn₁ (op = .eq) l.ty hl hr
  | logical =>
    exact opcodeOf_bind fun o ho => emit_two hn (typed_of_logicalOpcode? ho) hl hr

theorem negation_gives (hn : b.Numbered []) {x : Operand} (hx : Knows x.id b) :
    (negation x).Gives [] b Knows := by
  have typed : (if x.ty.component?.any (·.isFloating) then Opcode.fNegate
      else .sNegate).resultPosition? = some 1 := by split <;> rfl
  unfold negation
  dsimp only
  split
  · refine columnOf_bind fun column => ?_
    refine (mapM_gives hn fun i _ b₁ hlater₁ hn₁ => ?_).bind fun ids b₁ _ hn₁ hids =>
      emit_gives hn₁ rfl hids
    exact (extract_gives hn₁ (hx.later hlater₁)).bind fun part b₂ _ hn₂ hpart =>
      emit_one hn₂ typed hpart
  · exact emit_one hn typed hx

theorem componentIds_gives (hn : b.Numbered []) {x : Operand} (hx : Knows x.id b) :
    (componentIds x).Gives [] b fun ids b' => ∀ id ∈ ids, Knows id b' := by
  have hone : (pure [x.id] : Build (List Id)).Gives [] b fun ids b' => ∀ id ∈ ids, Knows id b' :=
    .pure hn (by simpa using hx)
  unfold componentIds
  split
  · exact hone
  · exact hone
  · exact mapM_gives hn fun i _ b₁ hlater hn₁ => extract_gives hn₁ (hx.later hlater)
  · exact mapM_gives hn fun i _ b₁ hlater hn₁ => extract_gives hn₁ (hx.later hlater)
  · exact .throw

theorem gather_gives (s : ScalarType) (count : Nat) : ∀ (xs : List Operand) (found : List Id)
    {b : Builder}, b.Numbered [] → (∀ x ∈ xs, Knows x.id b) → (∀ id ∈ found, Knows id b) →
      (gather s count xs found).Gives [] b fun ids b' => ∀ id ∈ ids, Knows id b' := by
  intro xs
  induction xs with
  | nil => exact fun found b hn _ hfound => .pure hn fun id hid => hfound id (List.mem_of_mem_take hid)
  | cons x xs ih =>
    intro found b hn hxs hfound
    unfold gather
    split
    · exact .pure hn fun id hid => hfound id (List.mem_of_mem_take hid)
    · refine (withComponent_gives hn s (hxs x List.mem_cons_self)).bind
        fun y b₁ hlater₁ hn₁ hy => ?_
      refine (componentIds_gives hn₁ hy).bind fun more b₂ hlater₂ hn₂ hmore => ?_
      have hlater := hlater₁.trans hlater₂
      refine ih _ hn₂ (fun z hz => (hxs z (List.mem_cons_of_mem x hz)).later hlater)
        fun id hid => ?_
      rcases List.mem_append.mp hid with hid | hid
      · exact (hfound id hid).later hlater
      · exact hmore id hid

theorem assemble_gives (hn : b.Numbered []) (ty : Ty) (s : ScalarType) (columns rows : Dim)
    {component : Nat → Nat → Build Id} (h : ∀ column row b', b.Later b' → b'.Numbered [] →
      (component column row).Gives [] b' Knows) :
    (assemble ty s columns rows component).Gives [] b Knows := by
  unfold assemble
  refine (mapM_gives hn fun column _ b₁ hlater₁ hn₁ => ?_).bind fun ids b₁ _ hn₁ hids =>
    emit_gives hn₁ rfl hids
  exact (mapM_gives hn₁ fun row _ b₂ hlater₂ hn₂ =>
    h column row b₂ (hlater₁.trans hlater₂) hn₂).bind fun ids b₂ _ hn₂ hids =>
      emit_gives hn₂ rfl hids

theorem constructInOrder_gives (hn : b.Numbered []) (ty : Ty) (s : ScalarType) {xs : List Operand}
    (hxs : ∀ x ∈ xs, Knows x.id b) : (constructInOrder ty s xs).Gives [] b Knows := by
  unfold constructInOrder
  refine (gather_gives s _ xs [] hn hxs (by simp)).bind fun ids b₁ hlater₁ hn₁ hids => ?_
  split
  · exact emit_gives hn₁ rfl hids
  · refine (mapM_gives hn₁ fun column _ b₂ hlater₂ hn₂ => ?_).bind fun ids b₂ _ hn₂ hids =>
      emit_gives hn₂ rfl hids
    exact emit_gives hn₂ rfl fun id hid =>
      (hids id (List.mem_of_mem_drop (List.mem_of_mem_take hid))).later hlater₂
  · split
    · exact .pure hn₁ (hids _ List.mem_cons_self)
    · exact .throw

theorem filled_gives (hn : b.Numbered []) (ty : Ty) {value : Id} (hvalue : Knows value b) :
    (filled ty value).Gives [] b Knows := by
  unfold filled
  split
  · refine (zeroId_gives hn _).bind fun zero b₁ hlater₁ hn₁ hzero => ?_
    refine assemble_gives hn₁ _ _ _ _ fun column row b₂ hlater₂ hn₂ => .pure hn₂ ?_
    split
    · exact (hvalue.later hlater₁).later hlater₂
    · exact hzero.later hlater₂
  · exact splat_gives hn _ hvalue

theorem resized_gives (hn : b.Numbered []) (s : ScalarType) (columns rows columns' rows' : Dim)
    {source : Id} (hsource : Knows source b) :
    (resized s columns rows columns' rows' source).Gives [] b Knows := by
  refine (zeroId_gives hn _).bind fun zero b₁ hlater₁ hn₁ hzero => ?_
  refine (oneId_gives hn₁ _).bind fun one b₂ hlater₂ hn₂ hone => ?_
  refine assemble_gives hn₂ _ _ _ _ fun column row b₃ hlater₃ hn₃ => ?_
  split
  · exact extract_gives hn₃ ((hsource.later hlater₁).later (hlater₂.trans hlater₃))
  · apply Gives.pure hn₃
    split
    · exact hone.later hlater₃
    · exact hzero.later (hlater₂.trans hlater₃)

theorem construct_gives (hn : b.Numbered []) (ty : Ty) {xs : List Operand}
    (hxs : ∀ x ∈ xs, Knows x.id b) : (construct ty xs).Gives [] b Knows := by
  unfold construct
  refine componentOf_bind fun s => ?_
  have hinOrder := constructInOrder_gives hn ty s hxs
  split
  · rename_i x
    have hx := hxs x List.mem_cons_self
    split
    · exact (withComponent_gives hn s hx).bind fun y b₁ _ hn₁ hy => filled_gives hn₁ ty hy
    · split
      · exact (withComponent_gives hn _ hx).bind fun source b₁ _ hn₁ hsource =>
          resized_gives hn₁ _ _ _ _ _ hsource
      · exact hinOrder
  · exact hinOrder

theorem extendedSetId_gives (hn : b.Numbered []) : extendedSetId.Gives [] b Knows := by
  refine .get_bind ?_
  cases hset : b.extendedSet with
  | some id =>
    refine .pure hn (mem_known_of_front ?_)
    rw [Builder.front, imports, hset]
    exact List.mem_cons_self
  | none =>
    refine .fresh_bind hn fun id b₁ _ hn₁ _ _ hset₁ _ _ => ?_
    have hnew : b₁.extendedSet = none := hset₁.trans hset
    have hfront : results (Builder.front { b₁ with extendedSet := some id }) =
        id :: results b₁.front := by
      have hfront : Builder.front { b₁ with extendedSet := some id } =
          ⟨.extInstImport, id :: Typing.extendedSetName⟩ :: b₁.front := by
        simp [Builder.front, imports, hnew]
      rw [hfront]
      rfl
    have hsub : results b₁.front ⊆ results (Builder.front { b₁ with extendedSet := some id }) := by
      rw [hfront]
      exact List.subset_cons_self _ _
    refine .modify_bind (.of_declared hsub (outer_subset hsub (fun _ h => h) fun _ h => h)
      (fun _ h => h) ⟨[], by simp⟩ rfl (Nat.le_refl _)) rfl
      (.pure (hn₁.settleImport hnew) (mem_known_of_front ?_))
    rw [hfront]
    exact List.mem_cons_self

theorem emitExtended_gives (hn : b.Numbered []) (ty : Ty) (number : UInt32) {operands : List Id}
    (hoperands : ∀ x ∈ operands, Knows x b) : (emitExtended ty number operands).Gives [] b Knows := by
  unfold emitExtended
  refine (extendedSetId_gives hn).bind fun set b₁ hlater hn₁ hset => ?_
  refine emit_gives_uses hn₁ rfl fun t id x hx => ?_
  have hx : x ∈ t :: set :: operands := by simpa [Instruction.uses] using hx
  simp only [List.mem_cons] at hx
  rcases hx with rfl | rfl | hx
  · exact .inl rfl
  · exact .inr hset
  · exact .inr ((hoperands x hx).later hlater)

theorem typed_plainOp (f : Builtin) (scalar : Bool) : (plainOp f scalar).resultPosition? = some 1 := by
  unfold plainOp
  split <;> first | rfl | split <;> rfl

theorem widen_gives (hn : b.Numbered []) (ty : Ty) {id : Id} (width : Option Dim)
    (hid : Knows id b) : (widen ty id width).Gives [] b Knows := by
  unfold widen
  split
  · exact splat_gives hn _ hid
  · exact .pure hn hid

theorem builtinCall_gives (hn : b.Numbered []) (f : Signature) {arguments : List Id}
    (harguments : ∀ x ∈ arguments, Knows x b) : (builtinCall f arguments).Gives [] b Knows := by
  unfold builtinCall
  dsimp only
  refine (mapM_gives hn fun x hx b₁ hlater hn₁ => ?_).bind fun ids b₁ _ hn₁ hids => ?_
  · exact widen_gives hn₁ _ _ ((harguments _ (List.of_mem_zip hx).1).later hlater)
  · split
    · exact emitExtended_gives hn₁ _ _ hids
    · exact emit_gives hn₁ (typed_plainOp _ _) hids

theorem functionCall_gives (hn : b.Numbered []) (f : Function) {arguments : List Id}
    (harguments : ∀ x ∈ arguments, Knows x b) : (functionCall f arguments).Gives [] b Knows := by
  unfold functionCall
  split
  · exact builtinCall_gives hn _ harguments
  · exact emit_gives hn rfl harguments

end Build

end ShaderExpr
