import ShaderExpr.Proofs.Running.Emission

namespace ShaderExpr

open Machine Builder

/-- What has elements has few of them. -/
theorem Ty.length_of_element? {ty element : Ty} (h : ty.element? = Option.some element) :
    ∃ n : Dim, ty.length = n.toNat := by
  cases ty with
  | vector _ n | matrix _ n _ => exact ⟨n, rfl⟩
  | void | scalar | struct => simp [element?] at h

namespace Build

variable {S : Setting} {b : Builder} {σ : State} {memory : Nat → Datum} {x y : Id} {d e : Datum}
  {l r : Operand}

theorem splat_yields (ty : Ty) (hx : σ.values x = some d) :
    (splat x ty).Yields S b σ memory (Machine.splat d ty) := by
  unfold splat Machine.splat
  split
  · exact .pure hx
  · exact emit_construct_yields ty (.replicate hx _)

/-- An operation on a single datum. -/
theorem emit_one_yields {op : Opcode} (plain : op.isPlain) (ty : Ty) (hx : σ.values x = some d) :
    (emit op ty [x]).Yields S b σ memory (S.machine.perform op ty [d] []) :=
  emit_yields plain ty (.cons hx .nil)

theorem emit_two_yields {op : Opcode} (plain : op.isPlain) (ty : Ty)
    (hx : σ.values x = some d) (hy : σ.values y = some e) :
    (emit op ty [x, y]).Yields S b σ memory (S.machine.perform op ty [d, e] []) :=
  emit_yields plain ty (.cons hx (.cons hy .nil))

theorem emit_part_yields (ty : Ty) {i : Nat} (small : i < 4294967296) (hx : σ.values x = some d) :
    (emit .compositeExtract ty [x, UInt32.ofNat i]).Yields S b σ memory (d.part i) :=
  emit_extract_yields ty [i] (by simpa using small) hx

/-- A column of a matrix, or another element of what has few. -/
theorem emit_element_yields (ty : Ty) {n : Dim} {i : Nat} (hi : i < n.toNat)
    (hx : σ.values x = some d) :
    (emit .compositeExtract ty [x, UInt32.ofNat i]).Yields S b σ memory (d.part i) := by
  have hfew := n.toNat_bounds
  exact emit_part_yields ty (by omega) hx

theorem convertComponents_yields (source target : Ty) (hx : σ.values x = some d) :
    (convertComponents x source target).Yields S b σ memory
      (S.machine.convertComponents d source target) := by
  have hzero (op : Opcode) (plain : op.isPlain) : (do
      let zero ← zeroId source
      emit op target [x, zero]).Yields S b σ memory
        (S.machine.perform op target [d, zeroDatum source] []) :=
    (zeroId_yields source).bind fun _ _ _ hlater hzero =>
      emit_two_yields plain target (hlater.value hx) hzero
  have hselect : (do
      let one ← oneId target
      let zero ← zeroId target
      emit .select target [x, one, zero]).Yields S b σ memory
        (S.machine.perform .select target [d, oneDatum target, zeroDatum target] []) := by
    refine (oneId_yields target).bind fun _ _ _ hlater hone => ?_
    refine (zeroId_yields target).bind fun _ _ _ hlater' hzero => ?_
    exact emit_yields rfl target (.cons (hlater'.value (hlater.value hx))
      (.cons (hlater'.value hone) (.cons hzero .nil)))
  unfold convertComponents Machine.convertComponents
  cases source.component? with
  | none => exact .throw
  | some s =>
    cases s with
    | bool => exact hselect
    | int | uint | float | double =>
      rcases target.component? with _ | _ | _ | _ | _ | _ <;> first
        | exact .throw
        | exact emit_one_yields rfl target hx
        | exact hzero _ rfl

theorem convertPlain_yields (source target : Ty) (hx : σ.values x = some d) :
    (convertPlain x source target).Yields S b σ memory
      (S.machine.convertPlain d source target) := by
  unfold convertPlain Machine.convertPlain
  split
  · exact .pure hx
  · exact convertComponents_yields source target hx

theorem convert_yields (source target : Ty) (hx : σ.values x = some d) :
    (convert x source target).Yields S b σ memory (S.machine.convert d source target) := by
  unfold convert Machine.convert
  split
  · exact .pure hx
  · cases source with
    | void | scalar | vector | struct => exact convertComponents_yields _ target hx
    | matrix s columns rows =>
      cases htarget : target.element? with
      | none => exact convertComponents_yields _ target hx
      | some column' =>
        refine Arrives.bind (.mapM fun i hi b₁ σ₁ hlater₁ => ?_) fun ids b₁ σ₁ _ hids =>
          emit_construct_yields target hids
        exact (emit_element_yields _ (List.mem_range.mp hi) (hlater₁.value hx)).bind
          fun part b₂ σ₂ _ hpart => convertPlain_yields _ _ hpart

theorem withComponent_arrives (s : ScalarType) (hl : σ.values l.id = some d) :
    (withComponent l s).Arrives S b σ memory memory fun y _ σ' =>
      y.ty = (S.machine.withComponent ⟨d, l.ty⟩ s).ty ∧
        σ'.values y.id = some (S.machine.withComponent ⟨d, l.ty⟩ s).datum := by
  unfold withComponent
  refine .ite (fun _ => .throw) fun _ => ?_
  exact (convert_yields _ _ hl).bind fun id b₁ σ₁ _ hid => .pure ⟨rfl, hid⟩

/-- Both operands in one component type. -/
theorem withComponents_yields {s : ScalarType} {f : Operand → Operand → Build Id}
    {g : Quantity → Quantity → Datum} (hl : σ.values l.id = some d) (hr : σ.values r.id = some e)
    (h : ∀ l' r' b' σ' d' e', σ'.values l'.id = some d' → σ'.values r'.id = some e' →
      (f l' r').Yields S b' σ' memory (g ⟨d', l'.ty⟩ ⟨e', r'.ty⟩)) : (do
        let l ← withComponent l s
        let r ← withComponent r s
        f l r).Yields S b σ memory
          (g (S.machine.withComponent ⟨d, l.ty⟩ s) (S.machine.withComponent ⟨e, r.ty⟩ s)) := by
  refine (withComponent_arrives s hl).bind fun l' b₁ σ₁ hlater₁ ⟨htype, hdatum⟩ => ?_
  refine (withComponent_arrives s (hlater₁.value hr)).bind
    fun r' b₂ σ₂ hlater₂ ⟨htype', hdatum'⟩ => ?_
  have hgives := h l' r' b₂ σ₂ _ _ (hlater₂.value hdatum) hdatum'
  rwa [htype, htype'] at hgives

theorem broadcast_yields (ty : Ty) (hl : σ.values l.id = some d) :
    (broadcast l ty).Yields S b σ memory (Machine.broadcast ⟨d, l.ty⟩ ty) := by
  unfold broadcast Machine.broadcast
  split
  · exact splat_yields ty hl
  · exact .pure hl

theorem componentwise_yields {op : Opcode} (plain : op.isPlain) (ty : Ty)
    (hl : σ.values l.id = some d) (hr : σ.values r.id = some e) :
    (componentwise op ty l r).Yields S b σ memory
      (S.machine.componentwise op ty ⟨d, l.ty⟩ ⟨e, r.ty⟩) :=
  (broadcast_yields ty hl).bind fun _ _ _ hlater hx =>
    (broadcast_yields ty (hlater.value hr)).bind fun _ _ _ hlater' hy =>
      emit_two_yields plain ty (hlater'.value hx) hy

/-- The component type of a type that has one. -/
theorem componentOf_bind_arrives {α : Type} {ty : Ty} {f : ScalarType → Build α}
    {memory' : Nat → Datum} {Q : α → Builder → State → Prop}
    (h : ∀ s, ty.component? = some s → (f s).Arrives S b σ memory memory' Q) :
    (componentOf ty >>= f).Arrives S b σ memory memory' Q := by
  unfold componentOf
  cases hs : ty.component? with
  | none => exact .throw
  | some s => exact h s hs

/-- The columns of a type that has some. -/
theorem columnOf_bind_arrives {α : Type} {ty : Ty} {f : Ty → Build α}
    {memory' : Nat → Datum} {Q : α → Builder → State → Prop}
    (h : ∀ column, ty.element? = some column → (f column).Arrives S b σ memory memory' Q) :
    (columnOf ty >>= f).Arrives S b σ memory memory' Q := by
  unfold columnOf
  cases hcolumn : ty.element? with
  | none => exact .throw
  | some column => exact h column hcolumn

/-- An opcode that a table lists. -/
theorem opcodeOf_bind_arrives {op : Option Opcode} {s : ScalarType} {f : Opcode → Build Id}
    {g : Opcode → Datum} (h : ∀ o, op = some o → (f o).Yields S b σ memory (g o)) :
    (opcodeOf op s >>= f).Yields S b σ memory (listed op g) := by
  unfold opcodeOf
  cases op with
  | none => exact .throw
  | some o => exact h o rfl

theorem product_yields (ty : Ty) (hl : σ.values l.id = some d) (hr : σ.values r.id = some e) :
    (product ty l r).Yields S b σ memory (S.machine.product ty ⟨d, l.ty⟩ ⟨e, r.ty⟩) := by
  unfold product Machine.product
  refine componentOf_bind_arrives fun s hs => ?_
  rw [hs]
  have hplain : (componentwise (if s.isFloating then .fMul else .iMul) ty l r).Yields S b σ memory
      (S.machine.componentwise (if s.isFloating then .fMul else .iMul) ty ⟨d, l.ty⟩ ⟨e, r.ty⟩) :=
    componentwise_yields (by split <;> rfl) ty hl hr
  obtain ⟨l, lt⟩ := l
  obtain ⟨r, rt⟩ := r
  cases lt with
  | matrix =>
    cases rt with
    | void | scalar | vector | matrix => exact emit_two_yields rfl ty hl hr
    | struct => exact hplain
  | vector =>
    cases rt with
    | matrix => exact emit_two_yields rfl ty hl hr
    | vector | struct => exact hplain
    -- there is an opcode for floating components only
    | void | scalar =>
      cases s with
      | bool | int | uint => exact hplain
      | float | double => exact emit_two_yields rfl ty hl hr
  | void | scalar =>
    cases rt with
    | matrix => exact emit_two_yields rfl ty hr hl
    | void | scalar | struct => exact hplain
    | vector =>
      cases s with
      | bool | int | uint => exact hplain
      | float | double => exact emit_two_yields rfl ty hr hl
  | struct => exact hplain

theorem columnPart_yields {repeated : Option Id} {repeated' : Option Datum} (column : Ty) {n : Dim}
    {i : Nat} (hi : i < n.toNat) (hx : σ.values x = some d)
    (hrepeated : Option.Rel (fun id d => σ.values id = some d) repeated repeated') :
    (columnPart repeated column x i).Yields S b σ memory (Machine.columnPart repeated' d i) := by
  cases hrepeated with
  | none => exact emit_element_yields column hi hx
  | some hid => exact .pure hid

theorem repeatedColumn_arrives (column : Ty) (hl : σ.values l.id = some d) :
    (repeatedColumn column l).Arrives S b σ memory memory fun repeated _ σ' =>
      Option.Rel (fun id d => σ'.values id = some d) repeated
        (Machine.repeatedColumn column ⟨d, l.ty⟩) := by
  unfold repeatedColumn Machine.repeatedColumn
  split
  · exact .map ((splat_yields column hl).mono fun _ _ _ _ _ hid => .some hid)
  · exact .pure .none

theorem relation_mono {σ' : State} {repeated : Option Id} {repeated' : Option Datum}
    (h : Option.Rel (fun id d => σ.values id = some d) repeated repeated') (hext : σ.Extends σ') :
    Option.Rel (fun id d => σ'.values id = some d) repeated repeated' := by
  cases h with
  | none => exact .none
  | some hid => exact .some (hext.values _ _ hid)

theorem perColumn_yields {op : Opcode} (plain : op.isPlain) (ty : Ty)
    (hl : σ.values l.id = some d) (hr : σ.values r.id = some e) :
    (perColumn op ty l r).Yields S b σ memory (S.machine.perColumn op ty ⟨d, l.ty⟩ ⟨e, r.ty⟩) := by
  unfold perColumn Machine.perColumn
  refine columnOf_bind_arrives fun column hcolumn => ?_
  rw [hcolumn]
  refine (repeatedColumn_arrives column hl).bind fun left b₁ σ₁ hlater₁ hleft => ?_
  refine (repeatedColumn_arrives column (hlater₁.value hr)).bind
    fun right b₂ σ₂ hlater₂ hright => ?_
  refine Arrives.bind (.mapM fun i hi b₃ σ₃ hlater₃ => ?_) fun ids b₃ σ₃ _ hids =>
    emit_construct_yields ty hids
  obtain ⟨n, hn⟩ := Ty.length_of_element? hcolumn
  have hi : i < n.toNat := hn ▸ List.mem_range.mp hi
  have hlater := hlater₂.trans hlater₃
  refine (columnPart_yields column hi (hlater.value (hlater₁.value hl))
    (relation_mono hleft hlater.extends_)).bind fun x b₄ σ₄ hlater₄ hx => ?_
  refine (columnPart_yields column hi ((hlater₁.trans (hlater.trans hlater₄)).value hr)
    (relation_mono hright (hlater₃.trans hlater₄).extends_)).bind fun y b₅ σ₅ hlater₅ hy => ?_
  exact emit_two_yields plain column (hlater₅.value hx) hy

theorem reciprocal_yields (hl : σ.values l.id = some d) :
    (reciprocal l).Yields S b σ memory (S.machine.reciprocal ⟨d, l.ty⟩) := by
  unfold reciprocal Machine.reciprocal
  split
  · refine columnOf_bind_arrives fun column hcolumn => ?_
    rw [hcolumn]
    refine (oneId_yields column).bind fun ones b₁ σ₁ hlater₁ hones => ?_
    refine Arrives.bind (.mapM fun i hi b₂ σ₂ hlater₂ => ?_) fun ids b₂ σ₂ _ hids =>
      emit_construct_yields l.ty hids
    obtain ⟨n, hn⟩ := Ty.length_of_element? hcolumn
    refine (emit_element_yields column (n := n) (hn ▸ List.mem_range.mp hi)
      ((hlater₁.trans hlater₂).value hl)).bind fun c b₃ σ₃ hlater₃ hc => ?_
    exact emit_two_yields rfl column ((hlater₂.trans hlater₃).value hones) hc
  · exact (oneId_yields l.ty).bind fun one b₁ σ₁ hlater₁ hone =>
      emit_two_yields rfl l.ty hone (hlater₁.value hl)

theorem matrixDivision_yields (ty : Ty) (hl : σ.values l.id = some d)
    (hr : σ.values r.id = some e) :
    (matrixDivision ty l r).Yields S b σ memory
      (S.machine.matrixDivision ty ⟨d, l.ty⟩ ⟨e, r.ty⟩) := by
  unfold matrixDivision Machine.matrixDivision
  refine (reciprocal_yields hr).bind fun inverse b₁ σ₁ hlater₁ hinverse => ?_
  have hl := hlater₁.value hl
  dsimp only
  split
  · exact emit_two_yields rfl ty hinverse hl
  · split
    · exact emit_two_yields rfl ty hl hinverse
    · exact perColumn_yields (r := ⟨inverse, r.ty⟩) rfl ty hl hinverse

theorem arithmeticOpcode?_isPlain {op : Operator} {s : ScalarType} {o : Opcode}
    (h : arithmeticOpcode? op s = some o) : o.isPlain := by
  cases op <;> cases s <;> simp only [arithmeticOpcode?, Option.some.injEq, reduceCtorEq] at h <;>
    subst h <;> rfl

theorem integerOpcode?_isPlain {op : Operator} {s : ScalarType} {o : Opcode}
    (h : integerOpcode? op s = some o) : o.isPlain := by
  cases op <;> cases s <;> simp only [integerOpcode?, Option.some.injEq, reduceCtorEq] at h <;>
    subst h <;> rfl

theorem relationOpcode?_isPlain {op : Operator} {s : ScalarType} {o : Opcode}
    (h : relationOpcode? op s = some o) : o.isPlain := by
  cases op <;> cases s <;> simp only [relationOpcode?, Option.some.injEq, reduceCtorEq] at h <;>
    subst h <;> rfl

theorem logicalOpcode?_isPlain {op : Operator} {o : Opcode}
    (h : logicalOpcode? op = some o) : o.isPlain := by
  cases op <;> simp only [logicalOpcode?, Option.some.injEq, reduceCtorEq] at h <;>
    subst h <;> rfl

theorem shiftOpcode_isPlain (op : Operator) (s : Option ScalarType) :
    (shiftOpcode op s).isPlain := by
  unfold shiftOpcode
  split
  · rfl
  · split <;> rfl

theorem equalityOpcode_isPlain (equal : Bool) (s : Option ScalarType) :
    (equalityOpcode equal s).isPlain := by
  unfold equalityOpcode
  split <;> rfl

theorem arithmetic_yields (op : Operator) (ty : Ty) (hl : σ.values l.id = some d)
    (hr : σ.values r.id = some e) :
    (arithmetic op ty l r).Yields S b σ memory
      (S.machine.arithmetic op ty ⟨d, l.ty⟩ ⟨e, r.ty⟩) := by
  unfold arithmetic Machine.arithmetic
  split
  · exact matrixDivision_yields ty hl hr
  · refine componentOf_bind_arrives fun s hs => ?_
    rw [hs]
    refine opcodeOf_bind_arrives fun o ho => ?_
    have plain := arithmeticOpcode?_isPlain ho
    split
    · exact perColumn_yields plain ty hl hr
    · exact componentwise_yields plain ty hl hr

theorem vectorEquality_yields (equal : Bool) (ty : Ty) (hx : σ.values x = some d)
    (hy : σ.values y = some e) :
    (vectorEquality equal ty x y).Yields S b σ memory (S.machine.vectorEquality equal ty d e) := by
  have plain := equalityOpcode_isPlain equal ty.component?
  unfold vectorEquality Machine.vectorEquality
  cases ty with
  | vector s n =>
    refine (emit_two_yields plain _ hx hy).bind fun z b₁ σ₁ _ hz => ?_
    cases equal <;> exact emit_one_yields rfl _ hz
  | void | scalar | matrix | struct => exact emit_two_yields plain _ hx hy

theorem columnsEquality_yields (equal : Bool) (column : Ty) {n : Dim} :
    ∀ {count i : Nat} {b : Builder} {σ : State} {sofar : Id} {f : Datum}, i + count ≤ n.toNat →
      σ.values x = some d → σ.values y = some e → σ.values sofar = some f →
      (columnsEquality equal column x y count i sofar).Yields S b σ memory
        (S.machine.columnsEquality equal column d e count i f)
  | 0, _, _, _, _, _, _, _, _, hsofar => .pure hsofar
  | count + 1, i, b, σ, sofar, f, hcount, hx, hy, hsofar => by
    have hi : i < n.toNat := by omega
    refine (emit_element_yields column hi hx).bind fun x' b₁ σ₁ hlater₁ hx' => ?_
    refine (emit_element_yields column hi (hlater₁.value hy)).bind fun y' b₂ σ₂ hlater₂ hy' => ?_
    refine (vectorEquality_yields equal column (hlater₂.value hx') hy').bind
      fun same b₃ σ₃ hlater₃ hsame => ?_
    have hlater := hlater₁.trans (hlater₂.trans hlater₃)
    have hboth : (emit (if equal then .logicalAnd else .logicalOr) (.scalar .bool)
        [sofar, same]).Yields S b₃ σ₃ memory (S.machine.perform
          (if equal then .logicalAnd else .logicalOr) (.scalar .bool) [f, _] []) :=
      emit_two_yields (by cases equal <;> rfl) _ (hlater.value hsofar) hsame
    refine hboth.bind fun both b₄ σ₄ hlater₄ hboth => ?_
    have hlater := hlater.trans hlater₄
    exact columnsEquality_yields equal column (n := n) (by omega) (hlater.value hx)
      (hlater.value hy) hboth

theorem equality_yields (equal : Bool) (ty : Ty) (hx : σ.values x = some d)
    (hy : σ.values y = some e) :
    (equality equal ty x y).Yields S b σ memory (S.machine.equality equal ty d e) := by
  unfold equality Machine.equality
  cases ty with
  | struct => exact .throw
  | void | scalar | vector => exact vectorEquality_yields equal _ hx hy
  | matrix s columns rows =>
    have hbounds := columns.toNat_bounds
    refine (emit_element_yields _ (n := columns) (i := 0) (by omega) hx).bind
      fun x' b₁ σ₁ hlater₁ hx' => ?_
    refine (emit_element_yields _ (n := columns) (i := 0) (by omega) (hlater₁.value hy)).bind
      fun y' b₂ σ₂ hlater₂ hy' => ?_
    refine (vectorEquality_yields equal _ (hlater₂.value hx') hy').bind
      fun first b₃ σ₃ hlater₃ hfirst => ?_
    have hlater := hlater₁.trans (hlater₂.trans hlater₃)
    exact columnsEquality_yields equal _ (n := columns) (by omega) (hlater.value hx)
      (hlater.value hy) hfirst

theorem commonOf_bind_arrives {f : ScalarType → Build Id} {g : ScalarType → Datum}
    (h : ∀ s, (commonComponent l.ty r.ty).toOption = some s → (f s).Yields S b σ memory (g s)) :
    (commonOf l r >>= f).Yields S b σ memory
      (((commonComponent l.ty r.ty).toOption.map g).getD .nothing) := by
  unfold commonOf
  cases hs : commonComponent l.ty r.ty with
  | error => exact .throw
  | ok s => exact h s (by rw [hs]; rfl)

theorem shiftAmount_yields (d : Datum) (hr : σ.values r.id = some e) :
    (shiftAmount l r).Yields S b σ memory (Machine.shiftAmount ⟨d, l.ty⟩ ⟨e, r.ty⟩) := by
  unfold shiftAmount Machine.shiftAmount
  dsimp only
  cases l.ty with
  | void | scalar | matrix | struct => exact .pure hr
  | vector s n =>
    cases r.ty.component? with
    | none => exact .pure hr
    | some s' =>
      dsimp only
      split
      · exact splat_yields _ hr
      · exact .pure hr

theorem integral_yields (op : Operator) (ty : Ty) (s : ScalarType) (hl : σ.values l.id = some d)
    (hr : σ.values r.id = some e) :
    (integral op ty s l r).Yields S b σ memory
      (listed (integerOpcode? op s) fun opcode =>
        S.machine.componentwise opcode ty ⟨d, l.ty⟩ ⟨e, r.ty⟩) := by
  refine opcodeOf_bind_arrives fun o ho => ?_
  exact componentwise_yields (integerOpcode?_isPlain ho) ty hl hr

theorem binary_yields (op : Operator) (ty : Ty) (hl : σ.values l.id = some d)
    (hr : σ.values r.id = some e) :
    (binary op ty l r).Yields S b σ memory (S.machine.binary op ty ⟨d, l.ty⟩ ⟨e, r.ty⟩) := by
  -- remainders and bitwise operators differ in their opcodes only
  have hinteger : (do
      let s ← componentOf ty
      let l ← withComponent l s
      let r ← withComponent r s
      integral op ty s l r).Yields S b σ memory
        (S.machine.inCommon ty.component? ⟨d, l.ty⟩ ⟨e, r.ty⟩ fun l r =>
          listed (ty.component?.bind (integerOpcode? op)) fun opcode =>
            S.machine.componentwise opcode ty l r) := by
    refine componentOf_bind_arrives fun s hs => ?_
    rw [inCommon, hs]
    exact withComponents_yields (g := fun l r => listed (integerOpcode? op s) fun opcode =>
      S.machine.componentwise opcode ty l r)
      hl hr fun _ _ _ _ _ _ hl' hr' => integral_yields op ty s hl' hr'
  unfold binary Machine.binary
  cases op.family with
  | multiplication =>
    refine componentOf_bind_arrives fun s hs => ?_
    rw [inCommon, hs]
    exact withComponents_yields hl hr fun _ _ _ _ _ _ hl' hr' => product_yields ty hl' hr'
  | arithmetic =>
    refine componentOf_bind_arrives fun s hs => ?_
    rw [inCommon, hs]
    exact withComponents_yields hl hr fun _ _ _ _ _ _ hl' hr' => arithmetic_yields op ty hl' hr'
  | modulo => exact hinteger
  | bitwise => exact hinteger
  | shift =>
    have plain := shiftOpcode_isPlain op l.ty.component?
    exact (shiftAmount_yields d hr).bind fun amount _ _ hlater hamount =>
      emit_two_yields plain ty (hlater.value hl) hamount
  | relational =>
    refine commonOf_bind_arrives fun s hs => ?_
    refine withComponents_yields (g := fun l r => listed _ fun opcode =>
      S.machine.perform opcode (.scalar .bool) [l.datum, r.datum] []) hl hr
      fun _ _ _ _ _ _ hl' hr' => ?_
    rw [hs]
    refine opcodeOf_bind_arrives fun o ho => ?_
    exact emit_two_yields (relationOpcode?_isPlain ho) _ hl' hr'
  | equality =>
    refine commonOf_bind_arrives fun s hs => ?_
    exact withComponents_yields (g := fun l r => S.machine.equality (op = .eq) l.ty l.datum r.datum)
      hl hr fun _ _ _ _ _ _ hl' hr' => equality_yields _ _ hl' hr'
  | logical =>
    refine opcodeOf_bind_arrives fun o ho => ?_
    exact emit_two_yields (logicalOpcode?_isPlain ho) _ hl hr

theorem negation_yields (hl : σ.values l.id = some d) :
    (negation l).Yields S b σ memory (S.machine.negation ⟨d, l.ty⟩) := by
  unfold negation Machine.negation
  dsimp only
  generalize hop : (if l.ty.component?.any (·.isFloating) then Opcode.fNegate else .sNegate) = op
  have plain : op.isPlain := by
    rw [← hop]
    split <;> rfl
  split
  · refine columnOf_bind_arrives fun column hcolumn => ?_
    rw [hcolumn]
    refine Arrives.bind (.mapM fun i hi b₁ σ₁ hlater₁ => ?_) fun ids b₁ σ₁ _ hids =>
      emit_construct_yields l.ty hids
    obtain ⟨n, hn⟩ := Ty.length_of_element? hcolumn
    exact (emit_element_yields column (n := n) (hn ▸ List.mem_range.mp hi)
      (hlater₁.value hl)).bind fun c b₂ σ₂ _ hc => emit_one_yields plain column hc
  · exact emit_one_yields plain l.ty hl

theorem componentIds_arrives (hl : σ.values l.id = some d) :
    (componentIds l).Arrives S b σ memory memory fun ids _ σ' =>
      σ'.Have ids (componentData ⟨d, l.ty⟩) := by
  unfold componentIds componentData
  dsimp only
  cases l.ty with
  | void | scalar => exact .pure (.cons hl .nil)
  | struct => exact .throw
  | vector s n =>
    exact .mapM fun i hi b₁ σ₁ hlater₁ =>
      emit_element_yields _ (List.mem_range.mp hi) (hlater₁.value hl)
  | matrix s columns rows =>
    refine Arrives.mapM (g := fun p : Nat × Nat => d.follow [p.1, p.2]) fun p hp b₁ σ₁ hlater₁ => ?_
    obtain ⟨column, hcolumn, hp⟩ := List.mem_flatMap.mp hp
    obtain ⟨row, hrow, rfl⟩ := List.mem_map.mp hp
    have hcolumns := columns.toNat_bounds
    have hrows := rows.toNat_bounds
    have hcolumn := List.mem_range.mp hcolumn
    have hrow := List.mem_range.mp hrow
    exact emit_extract_yields _ [column, row] (by simp; omega) (hlater₁.value hl)

/-- Operands have data and types. -/
def Agree (σ : State) (operands : List Operand) (quantities : List Quantity) : Prop :=
  List.Forall₂ (fun x q => q.ty = x.ty ∧ σ.values x.id = some q.datum) operands quantities

theorem Agree.mono {σ' : State} {operands : List Operand} {quantities : List Quantity}
    (h : Agree σ operands quantities) (hext : σ.Extends σ') : Agree σ' operands quantities :=
  List.Forall₂.imp (fun _ _ hx => ⟨hx.1, hext.values _ _ hx.2⟩) h

theorem gather_arrives (s : ScalarType) (count : Nat) : ∀ {operands : List Operand}
    {quantities : List Quantity} {found : List Id} {data : List Datum} {b : Builder} {σ : State},
    Agree σ operands quantities → σ.Have found data →
    (gather s count operands found).Arrives S b σ memory memory fun ids _ σ' =>
      σ'.Have ids (S.machine.gather s count quantities data)
  | [], quantities, found, data, b, σ, hagree, hfound => by
    cases hagree
    exact .pure (List.forall₂_take count hfound)
  | x :: operands, quantities, found, data, b, σ, hagree, hfound => by
    obtain _ | @⟨_, q, _, quantities, ⟨htype, hx⟩, hrest⟩ := hagree
    unfold gather Machine.gather
    rw [hfound.length_eq]
    refine .ite (fun hfull => ?_) fun hfull => ?_
    · rw [if_pos hfull]
      exact .pure (List.forall₂_take count hfound)
    · rw [if_neg hfull]
      refine (withComponent_arrives s hx).bind fun y b₁ σ₁ hlater₁ ⟨hty, hy⟩ => ?_
      refine (componentIds_arrives hy).bind fun more b₂ σ₂ hlater₂ hmore => ?_
      have hlater := hlater₁.trans hlater₂
      rw [hty, ← htype] at hmore
      exact gather_arrives s count (Agree.mono hrest hlater.extends_)
        ((hfound.mono hlater.extends_).append hmore)

theorem assemble_yields (ty : Ty) (s : ScalarType) (columns rows : Dim)
    {component : Nat → Nat → Build Id} {g : Nat → Nat → Datum}
    (h : ∀ column row b' σ', column < columns.toNat → row < rows.toNat → Advances b σ b' σ' →
      (component column row).Yields S b' σ' memory (g column row)) :
    (assemble ty s columns rows component).Yields S b σ memory
      (Machine.assemble ty s columns rows g) := by
  refine Arrives.bind (.mapM fun column hcolumn b₁ σ₁ hlater₁ => ?_) fun ids b₁ σ₁ _ hids =>
    emit_construct_yields ty hids
  refine Arrives.bind (.mapM fun row hrow b₂ σ₂ hlater₂ => ?_) fun ids b₂ σ₂ _ hids =>
    emit_construct_yields _ hids
  exact h column row b₂ σ₂ (List.mem_range.mp hcolumn) (List.mem_range.mp hrow)
    (hlater₁.trans hlater₂)

theorem constructInOrder_yields (ty : Ty) (s : ScalarType) {operands : List Operand}
    {quantities : List Quantity} (hagree : Agree σ operands quantities) :
    (constructInOrder ty s operands).Yields S b σ memory
      (S.machine.constructInOrder ty s quantities) := by
  unfold constructInOrder Machine.constructInOrder
  refine (gather_arrives s ty.componentCount hagree .nil).bind fun ids b₁ σ₁ _ hids => ?_
  cases ty with
  | vector s' n => exact emit_construct_yields _ hids
  | matrix s' columns rows =>
    refine Arrives.bind (.mapM fun column _ b₂ σ₂ hlater₂ => ?_) fun ids b₂ σ₂ _ hids =>
      emit_construct_yields _ hids
    refine emit_construct_yields _ ?_
    exact List.forall₂_take _ (List.forall₂_drop _ (hids.mono hlater₂.extends_))
  | void | scalar | struct =>
    dsimp only
    generalize S.machine.gather s _ quantities [] = data at hids ⊢
    cases hids with
    | nil => exact .throw
    | cons hid _ => exact .pure hid

theorem filled_yields (ty : Ty) (hx : σ.values x = some d) :
    (filled ty x).Yields S b σ memory (Machine.filled ty d) := by
  unfold filled Machine.filled
  cases ty with
  | void | scalar | vector | struct => exact splat_yields _ hx
  | matrix s columns rows =>
    refine (zeroId_yields _).bind fun zero b₁ σ₁ hlater₁ hzero => ?_
    refine assemble_yields _ s columns rows fun column row b₂ σ₂ _ _ hlater₂ => .pure ?_
    split
    · exact (hlater₁.trans hlater₂).value hx
    · exact hlater₂.value hzero

theorem resized_yields (s : ScalarType) (columns rows columns' rows' : Dim)
    (hx : σ.values x = some d) :
    (resized s columns rows columns' rows' x).Yields S b σ memory
      (Machine.resized s columns rows columns' rows' d) := by
  unfold resized Machine.resized
  refine (zeroId_yields _).bind fun zero b₁ σ₁ hlater₁ hzero => ?_
  refine (oneId_yields _).bind fun one b₂ σ₂ hlater₂ hone => ?_
  refine assemble_yields _ s columns rows fun column row b₃ σ₃ hcolumn hrow hlater₃ => ?_
  have hcolumns := columns.toNat_bounds
  have hrows := rows.toNat_bounds
  split
  · exact emit_extract_yields _ [column, row] (by simp; omega)
      ((hlater₁.trans (hlater₂.trans hlater₃)).value hx)
  · refine .pure ?_
    split
    · exact hlater₃.value hone
    · exact (hlater₂.trans hlater₃).value hzero

theorem construct_yields (ty : Ty) {operands : List Operand} {quantities : List Quantity}
    (hagree : Agree σ operands quantities) :
    (construct ty operands).Yields S b σ memory (S.machine.construct ty quantities) := by
  unfold construct Machine.construct
  refine componentOf_bind_arrives fun s hs => ?_
  rw [hs]
  have hinOrder : (constructInOrder ty s operands).Yields S b σ memory
      (S.machine.constructInOrder ty s quantities) := constructInOrder_yields ty s hagree
  change (Yields S _ b σ memory (S.machine.constructOf ty s quantities))
  unfold constructOf
  cases hagree with
  | nil => exact hinOrder
  | @cons x q _ _ hx hrest =>
    obtain ⟨htype, hx⟩ := hx
    cases hrest with
    | cons => exact hinOrder
    | nil =>
      have hq : (⟨q.datum, x.ty⟩ : Quantity) = q := by rw [← htype]
      dsimp only
      rw [htype]
      split
      · refine (withComponent_arrives s hx).bind fun y b₁ σ₁ _ ⟨_, hy⟩ => ?_
        rw [hq] at hy
        exact filled_yields ty hy
      · cases ty with
        | void | scalar | vector | struct => exact hinOrder
        | matrix s' columns rows =>
          have hsource (columns' rows' : Dim) : (do
              let source ← withComponent x s'
              resized s' columns rows columns' rows' source.id).Yields S b σ memory
                (Machine.resized s' columns rows columns' rows'
                  (S.machine.withComponent q s').datum) := by
            refine (withComponent_arrives s' hx).bind fun y b₁ σ₁ _ ⟨_, hy⟩ => ?_
            rw [hq] at hy
            exact resized_yields s' columns rows columns' rows' hy
          cases x.ty with
          | void | scalar | vector | struct => exact hinOrder
          | matrix _ columns' rows' => exact hsource columns' rows'

theorem selectComponents_yields (whole ty : Ty) {indexes : List Nat}
    (small : ∀ i ∈ indexes, i < 4294967296) (hx : σ.values x = some d) :
    (selectComponents x whole ty indexes).Yields S b σ memory
      (S.machine.selectComponents d whole ty indexes) := by
  have hrepeated : σ.Have (List.replicate indexes.length x) (List.replicate indexes.length d) :=
    .replicate hx _
  have hshuffled : (emit .vectorShuffle ty (x :: x :: indexes.map UInt32.ofNat)).Yields S b σ memory
      (S.machine.perform .vectorShuffle ty [d, d] (indexes.map UInt32.ofNat)) :=
    emit_counted rfl ty [x, x] _ (.cons hx (.cons hx .nil)) rfl
  unfold selectComponents Machine.selectComponents
  cases whole.isScalar with
  | true =>
    rcases indexes with _ | ⟨i, _ | ⟨j, rest⟩⟩
    · exact emit_construct_yields ty hrepeated
    · exact .pure hx
    · exact emit_construct_yields ty hrepeated
  | false =>
    rcases indexes with _ | ⟨i, _ | ⟨j, rest⟩⟩
    · exact hshuffled
    · exact emit_part_yields ty (small i List.mem_cons_self) hx
    · exact hshuffled

theorem replaceComponents_yields (whole : Ty) (indexes : List Nat) (hx : σ.values x = some d)
    (hy : σ.values y = some e) :
    (replaceComponents whole indexes x y).Yields S b σ memory
      (S.machine.replaceComponents whole indexes d e) := by
  have hshuffled : (emit .vectorShuffle whole
      (x :: y :: (mergeIndexes whole.length indexes).map UInt32.ofNat)).Yields S b σ memory
      (S.machine.perform .vectorShuffle whole [d, e]
        ((mergeIndexes whole.length indexes).map UInt32.ofNat)) :=
    emit_counted rfl whole [x, y] _ (.cons hx (.cons hy .nil)) rfl
  unfold replaceComponents Machine.replaceComponents
  rcases indexes with _ | ⟨i, _ | ⟨j, rest⟩⟩
  · exact hshuffled
  · exact emit_counted rfl whole [y, x] [UInt32.ofNat i] (.cons hy (.cons hx .nil)) rfl
  · exact hshuffled

end Build

end ShaderExpr
