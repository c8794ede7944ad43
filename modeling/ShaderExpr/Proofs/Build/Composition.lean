import ShaderExpr.Module.Lowering
import ShaderExpr.Proofs.Expr.WellTyped
import ShaderExpr.Proofs.Module.Rules

namespace ShaderExpr

/-- Opcodes that compute a result, extended instructions apart. -/
def Opcode.isComputed : Opcode → Bool
  | .extInst | .constantTrue | .constantFalse | .constant | .constantComposite | .function
  | .functionParameter | .var => false
  | op => op.resultPosition? = some 1

namespace Build

variable {α β : Type} {xs : List Variable}

/-- A property of building that all parts of code have, over the variables of a list: requests for
    types, constants and variables, and single instructions that compute a result, follow a path or
    store. Since it passes on to what is done one after the other, the code of every expression has
    it. It is one of building under any limits, so that it can compare what is built under some with
    what is built under others. -/
structure Trait (xs : List Variable) where
  holds : ∀ {α : Type}, ([Limits] → Build α) → Prop
  pure : ∀ {α : Type} (a : α), holds (pure a)
  throw : ∀ {α : Type} (e : Fault), holds fun [Limits] => (throw e : Build α)
  bind : ∀ {α β : Type} {r : [Limits] → Build α} {f : [Limits] → α → Build β}, holds r →
    (∀ a, holds (f a)) → holds (r >>= fun a => f a)
  /-- What is done may depend on whether constants are folded. -/
  folds : ∀ {α : Type} {f : [Limits] → Bool → Build α}, (∀ fold, holds (f fold)) →
    holds (do f (← get).options.foldConstants)
  emit : ∀ {op : Opcode} (ty : Ty) (operands : List UInt32), op.isComputed →
    holds (emit op ty operands)
  emitExtended : ∀ (ty : Ty) (number : UInt32) (operands : List UInt32),
    holds (emitExtended ty number operands)
  valueId : ∀ v : Value, holds (valueId v)
  variableId : ∀ x ∈ xs, holds (variableId x)
  /-- A path into a variable. -/
  access : ∀ (ty : Ty) (storage : Storage) (operands : List UInt32), holds do
    let type ← pointerTypeId ty storage
    let id ← fresh
    add .code .accessChain (type :: id :: operands)
    return id
  store : ∀ operands : List UInt32, holds (add .code .store operands)

def Has (r : [Limits] → Build α) (T : Trait xs) : Prop := T.holds r

namespace Has

variable {T : Trait xs} {r : [Limits] → Build α} {f : [Limits] → α → Build β}

theorem pure (a : α) : Has (fun [Limits] => (pure a : Build α)) T := T.pure a

theorem throw {e : Fault} : Has (fun [Limits] => (throw e : Build α)) T := T.throw e

theorem bind (h : Has r T) (hf : ∀ a, Has (f a) T) : Has (r >>= fun a => f a) T := T.bind h hf

theorem except (x : Except Fault α) : Has (fun [Limits] => (liftM x : Build α)) T := by
  cases x with
  | error e => exact T.throw e
  | ok a => exact T.pure a

theorem map {g : α → β} (h : Has r T) : Has (g <$> r) T := by
  simp only [map_eq_pure_bind]
  exact h.bind fun a => .pure (g a)

theorem ite {p : Prop} [Decidable p] {yes no : [Limits] → Build α} (hyes : Has yes T) (hno : Has no T) :
    Has (if p then yes else no) T := by
  split
  · exact hyes
  · exact hno

theorem mapM {l : List α} (h : ∀ x ∈ l, Has (f x) T) : Has (l.mapM fun x => f x) T := by
  induction l with
  | nil => exact .pure []
  | cons x l ih =>
    simp only [List.mapM_cons]
    exact (h x List.mem_cons_self).bind fun y =>
      (ih fun z hz => h z (List.mem_cons_of_mem x hz)).bind fun ys => .pure (y :: ys)

end Has

variable {T : Trait xs}

theorem emit_has {op : Opcode} (ty : Ty) (operands : List UInt32) (hop : op.isComputed) :
    Has (emit op ty operands) T := T.emit ty operands hop

theorem emitExtended_has (ty : Ty) (number : UInt32) (operands : List UInt32) :
    Has (emitExtended ty number operands) T := T.emitExtended ty number operands

theorem valueId_has (v : Value) : Has (valueId v) T := T.valueId v

theorem zeroId_has (ty : Ty) : Has (zeroId ty) T := valueId_has _

theorem oneId_has (ty : Ty) : Has (oneId ty) T := by
  unfold oneId
  split
  · exact .throw
  · exact valueId_has _

theorem splat_has (id : Id) (ty : Ty) : Has (splat id ty) T :=
  .ite (.pure id) (emit_has _ _ rfl)

theorem convertComponents_has (id : Id) (source target : Ty) :
    Has (convertComponents id source target) T := by
  unfold convertComponents
  split
  · exact (oneId_has target).bind fun _ => (zeroId_has target).bind fun _ => emit_has _ _ rfl
  all_goals first
    | exact emit_has _ _ rfl
    | exact (zeroId_has source).bind fun _ => emit_has _ _ rfl
    | exact .throw

theorem convertPlain_has (id : Id) (source target : Ty) : Has (convertPlain id source target) T :=
  .ite (.pure id) (convertComponents_has id source target)

theorem convert_has (id : Id) (source target : Ty) : Has (convert id source target) T := by
  refine .ite (.pure id) ?_
  split
  · refine Has.bind (.mapM fun i _ => ?_) fun _ => emit_has _ _ rfl
    exact (emit_has _ _ rfl).bind fun part => convertPlain_has part _ _
  · exact convertComponents_has id _ target

theorem withComponent_has (x : Operand) (s : ScalarType) : Has (withComponent x s) T :=
  .ite .throw ((convert_has _ _ _).bind fun _ => .pure _)

theorem broadcast_has (x : Operand) (ty : Ty) : Has (broadcast x ty) T :=
  .ite (splat_has _ _) (.pure _)

theorem componentOf_has (ty : Ty) : Has (componentOf ty) T := by
  unfold componentOf
  split
  · exact .pure _
  · exact .throw

theorem columnOf_has (ty : Ty) : Has (columnOf ty) T := by
  unfold columnOf
  split
  · exact .pure _
  · exact .throw

theorem componentwise_has {op : Opcode} (ty : Ty) (l r : Operand) (hop : op.isComputed) :
    Has (componentwise op ty l r) T :=
  (broadcast_has _ _).bind fun _ => (broadcast_has _ _).bind fun _ =>
    emit_has _ _ hop

theorem product_has (ty : Ty) (l r : Operand) : Has (product ty l r) T := by
  unfold product
  refine (componentOf_has ty).bind fun s => ?_
  have hplain : Has (componentwise (if s.isFloating then .fMul else .iMul) ty l r) T :=
    componentwise_has ty l r (by split <;> rfl)
  split
  all_goals first
    | exact emit_has _ _ rfl
    | exact .ite (emit_has _ _ rfl) hplain
    | exact hplain

theorem columnPart_has (repeated : Option Id) (column : Ty) (x : Id) (i : Nat) :
    Has (columnPart repeated column x i) T := by
  unfold columnPart
  split
  · exact .pure _
  · exact emit_has _ _ rfl

theorem repeatedColumn_has (column : Ty) (x : Operand) :
    Has (repeatedColumn column x) T :=
  .ite (splat_has _ _).map (.pure _)

theorem perColumn_has {op : Opcode} (ty : Ty) (l r : Operand) (hop : op.isComputed) :
    Has (perColumn op ty l r) T :=
  (columnOf_has ty).bind fun column => (repeatedColumn_has column l).bind fun left =>
    (repeatedColumn_has column r).bind fun right => Has.bind
      (.mapM fun i _ => (columnPart_has left column l.id i).bind fun _ =>
        (columnPart_has right column r.id i).bind fun _ => emit_has _ _ hop)
      fun _ => emit_has _ _ rfl

theorem reciprocal_has (x : Operand) : Has (reciprocal x) T := by
  refine .ite ?_ ((oneId_has _).bind fun _ => emit_has _ _ rfl)
  refine (columnOf_has _).bind fun column => (oneId_has column).bind fun ones => ?_
  refine Has.bind (.mapM fun i _ => ?_) fun _ => emit_has _ _ rfl
  exact (emit_has _ _ rfl).bind fun _ => emit_has _ _ rfl

theorem matrixDivision_has (ty : Ty) (l r : Operand) : Has (matrixDivision ty l r) T :=
  (reciprocal_has r).bind fun _ => .ite (emit_has _ _ rfl)
    (.ite (emit_has _ _ rfl) (perColumn_has ty l _ rfl))

/-- An opcode that the family of an operator has. -/
theorem opcodeOf_bind_has {op : Option Opcode} {s : ScalarType} {f : [Limits] → Opcode → Build α}
    (computed : op.all (·.isComputed)) (h : ∀ o, o.isComputed → Has (f o) T) :
    Has (opcodeOf op s >>= fun o => f o) T := by
  unfold opcodeOf
  cases op with
  | none => exact .throw
  | some o => exact h o computed

theorem arithmeticOpcode?_isComputed (op : Operator) (s : ScalarType) :
    (arithmeticOpcode? op s).all (·.isComputed) := by
  cases op <;> cases s <;> rfl

theorem integerOpcode?_isComputed (op : Operator) (s : ScalarType) :
    (integerOpcode? op s).all (·.isComputed) := by
  cases op <;> cases s <;> rfl

theorem relationOpcode?_isComputed (op : Operator) (s : ScalarType) :
    (relationOpcode? op s).all (·.isComputed) := by
  cases op <;> cases s <;> rfl

theorem logicalOpcode?_isComputed (op : Operator) : (logicalOpcode? op).all (·.isComputed) := by
  cases op <;> rfl

theorem shiftOpcode_isComputed (op : Operator) (s : Option ScalarType) :
    (shiftOpcode op s).isComputed := by
  unfold shiftOpcode
  split
  · rfl
  · split <;> rfl

theorem equalityOpcode_isComputed (equal : Bool) (s : Option ScalarType) :
    (equalityOpcode equal s).isComputed := by
  unfold equalityOpcode
  split <;> rfl

theorem arithmetic_has (op : Operator) (ty : Ty) (l r : Operand) :
    Has (arithmetic op ty l r) T :=
  .ite (matrixDivision_has ty l r) <| (componentOf_has ty).bind fun s =>
    opcodeOf_bind_has (arithmeticOpcode?_isComputed op s) fun _ ho =>
      .ite (perColumn_has ty l r ho) (componentwise_has ty l r ho)

theorem vectorEquality_has (equal : Bool) (ty : Ty) (l r : Id) :
    Has (vectorEquality equal ty l r) T := by
  have hop := equalityOpcode_isComputed equal ty.component?
  unfold vectorEquality
  split
  · exact (emit_has _ _ hop).bind fun _ => emit_has _ _ (by split <;> rfl)
  · exact emit_has _ _ hop

theorem columnsEquality_has (equal : Bool) (column : Ty) (l r : Id) (count i : Nat)
    (sofar : Id) :
    Has (columnsEquality equal column l r count i sofar) T := by
  induction count generalizing i sofar with
  | zero => exact .pure sofar
  | succ count ih =>
    exact (emit_has _ _ rfl).bind fun x => (emit_has _ _ rfl).bind fun y =>
      (vectorEquality_has equal column x y).bind fun _ =>
        (emit_has _ _ (by split <;> rfl)).bind fun both => ih (i + 1) both

theorem equality_has (equal : Bool) (ty : Ty) (l r : Id) :
    Has (equality equal ty l r) T := by
  unfold equality
  split
  · exact .throw
  · exact (emit_has _ _ rfl).bind fun x => (emit_has _ _ rfl).bind fun y =>
      (vectorEquality_has equal _ x y).bind fun first =>
        columnsEquality_has equal _ l r _ 1 first
  · exact vectorEquality_has equal ty l r

theorem commonOf_has (l r : Operand) : Has (commonOf l r) T := by
  unfold commonOf
  split
  · exact .pure _
  · exact .throw

/-- Both operands in one component type. -/
theorem withComponents_has {l r : Operand} {s : ScalarType} {f : [Limits] → Operand → Operand → Build α}
    (h : ∀ l r, Has (f l r) T) : Has (do
      let l ← withComponent l s
      let r ← withComponent r s
      f l r) T :=
  (withComponent_has l s).bind fun l => (withComponent_has r s).bind fun r => h l r

theorem shiftAmount_has (l r : Operand) : Has (shiftAmount l r) T := by
  unfold shiftAmount
  split
  · exact .ite (splat_has _ _) (.pure _)
  · exact .pure _

theorem integral_has (op : Operator) (ty : Ty) (s : ScalarType) (l r : Operand) :
    Has (integral op ty s l r) T :=
  opcodeOf_bind_has (integerOpcode?_isComputed op s) fun _ ho =>
    componentwise_has ty l r ho

theorem binary_has (op : Operator) (ty : Ty) (l r : Operand) :
    Has (binary op ty l r) T := by
  have hinteger : Has (do
      let s ← componentOf ty
      let l ← withComponent l s
      let r ← withComponent r s
      integral op ty s l r) T :=
    (componentOf_has ty).bind fun s =>
      withComponents_has fun l r => integral_has op ty s l r
  unfold binary
  cases op.family with
  | multiplication =>
    exact (componentOf_has ty).bind fun _ =>
      withComponents_has fun l r => product_has ty l r
  | arithmetic =>
    exact (componentOf_has ty).bind fun _ =>
      withComponents_has fun l r => arithmetic_has op ty l r
  | modulo => exact hinteger
  | bitwise => exact hinteger
  | shift =>
    exact (shiftAmount_has l r).bind fun _ => emit_has _ _ (shiftOpcode_isComputed op _)
  | relational =>
    exact (commonOf_has l r).bind fun s => withComponents_has fun l r =>
      opcodeOf_bind_has (relationOpcode?_isComputed op s) fun _ ho => emit_has _ _ ho
  | equality =>
    exact (commonOf_has l r).bind fun _ => withComponents_has fun l r =>
      equality_has _ l.ty l.id r.id
  | logical =>
    exact opcodeOf_bind_has (logicalOpcode?_isComputed op) fun _ ho => emit_has _ _ ho

theorem negation_has (x : Operand) : Has (negation x) T := by
  have hop : (if x.ty.component?.any (·.isFloating) then Opcode.fNegate
      else .sNegate).isComputed := by split <;> rfl
  refine .ite ((columnOf_has _).bind fun column => Has.bind (.mapM fun i _ => ?_) fun _ =>
    emit_has _ _ rfl) (emit_has _ _ hop)
  exact (emit_has _ _ rfl).bind fun _ => emit_has _ _ hop

theorem componentIds_has (x : Operand) : Has (componentIds x) T := by
  unfold componentIds
  split
  · exact .pure _
  · exact .pure _
  · exact .mapM fun i _ => emit_has _ _ rfl
  · exact .mapM fun i _ => emit_has _ _ rfl
  · exact .throw

theorem gather_has (s : ScalarType) (count : Nat) (operands : List Operand) (found : List Id) :
    Has (gather s count operands found) T := by
  induction operands generalizing found with
  | nil => exact .pure _
  | cons x operands ih =>
    exact .ite (.pure _) <| (withComponent_has x s).bind fun y =>
      (componentIds_has y).bind fun more => ih (found ++ more)

theorem assemble_has (ty : Ty) (s : ScalarType) (columns rows : Dim)
    {component : [Limits] → Nat → Nat → Build Id} (h : ∀ column row, Has (component column row) T) :
    Has (assemble ty s columns rows fun column row => component column row) T :=
  Has.bind (.mapM fun column _ => Has.bind (.mapM fun row _ => h column row) fun _ =>
    emit_has _ _ rfl) fun _ => emit_has _ _ rfl

theorem constructInOrder_has (ty : Ty) (s : ScalarType) (operands : List Operand) :
    Has (constructInOrder ty s operands) T := by
  refine (gather_has s _ operands []).bind fun components => ?_
  split
  · exact emit_has _ _ rfl
  · exact Has.bind (.mapM fun column _ => emit_has _ _ rfl) fun _ => emit_has _ _ rfl
  · split
    · exact .pure _
    · exact .throw

theorem filled_has (ty : Ty) (value : Id) : Has (filled ty value) T := by
  unfold filled
  split
  · exact (zeroId_has _).bind fun _ => assemble_has _ _ _ _ fun _ _ => .pure _
  · exact splat_has _ _

theorem resized_has (s : ScalarType) (columns rows columns' rows' : Dim) (source : Id) :
    Has (resized s columns rows columns' rows' source) T :=
  (zeroId_has _).bind fun _ => (oneId_has _).bind fun _ =>
    assemble_has _ _ _ _ fun _ _ => .ite (emit_has _ _ rfl) (.pure _)

theorem construct_has (ty : Ty) (operands : List Operand) :
    Has (construct ty operands) T := by
  refine (componentOf_has ty).bind fun s => ?_
  split
  · refine .ite ((withComponent_has _ s).bind fun value => filled_has ty _) ?_
    split
    · exact (withComponent_has _ _).bind fun _ => resized_has _ _ _ _ _ _
    · exact constructInOrder_has _ s _
  · exact constructInOrder_has ty s _

theorem widen_has (ty : Ty) (id : Id) (width : Option Dim) :
    Has (widen ty id width) T := by
  unfold widen
  split
  · exact splat_has _ _
  · exact .pure _

theorem plainOp_isComputed (f : Builtin) (scalar : Bool) : (plainOp f scalar).isComputed := by
  cases f <;> cases scalar <;> rfl

theorem builtinCall_has (f : Signature) (arguments : List Id) :
    Has (builtinCall f arguments) T := by
  refine Has.bind (.mapM fun _ _ => widen_has _ _ _) fun arguments => ?_
  dsimp only
  split
  · exact emitExtended_has _ _ _
  · exact emit_has _ _ (plainOp_isComputed _ _)

theorem functionCall_has (f : Function) (arguments : List Id) :
    Has (functionCall f arguments) T := by
  cases f with
  | builtin s => exact builtinCall_has s arguments
  | constructor ty => exact emit_has _ _ rfl

theorem placeOf_has {x : Variable} (hx : x ∈ xs) : Has (placeOf x) T :=
  Has.bind (T.variableId x hx) fun _ => .pure _

theorem memberPlace_has (p : Place) (index : Nat) (ty : Ty) :
    Has (memberPlace p index ty) T :=
  .ite .throw ((valueId_has _).bind fun _ => .pure _)

theorem pointer_has (p : Place) : Has (pointer p) T := .ite (.pure _) (T.access _ _ _)

theorem selectComponents_has (id : Id) (whole ty : Ty) (indexes : List Nat) :
    Has (selectComponents id whole ty indexes) T := by
  unfold selectComponents
  split
  all_goals first
    | exact .pure _
    | exact emit_has _ _ rfl

theorem load_has (p : Place) : Has (load p) T := by
  refine (pointer_has p).bind fun _ => (emit_has _ _ rfl).bind fun loaded => ?_
  split
  · exact .pure _
  · exact (Has.except _).bind fun _ => selectComponents_has _ _ _ _

theorem storedWhole_has (p : Place) (pointer value : Id) :
    Has (storedWhole p pointer value) T := by
  unfold storedWhole
  split
  · exact .pure _
  · refine .ite (.pure _) ((emit_has _ _ rfl).bind fun current => ?_)
    unfold replaceComponents
    split
    all_goals exact emit_has _ _ rfl

theorem store_has (p : Place) (value : Id) : Has (store p value) T :=
  (pointer_has p).bind fun _ => (storedWhole_has p _ _).bind fun _ => T.store _

theorem assignedValue_has (op : Option Operator) (ty target : Ty) (p : Place)
    (value : Operand) :
    Has (assignedValue op ty target p value) T := by
  unfold assignedValue
  split
  · exact (load_has p).bind fun _ => (binary_has _ _ _ _).bind fun _ =>
      convert_has _ _ _
  · exact convert_has _ _ _

theorem assign_has (op : Option Operator) (ty : Ty) (p : Place) (value : Operand) :
    Has (assign op ty p value) T :=
  (Has.except _).bind fun target => (assignedValue_has op ty target p value).bind
    fun stored => (store_has p stored).bind fun _ => .pure stored

/-- Places are those of variables that the expression mentions. -/
theorem place?_has : ∀ {e : Expr}, e.WellTyped xs → Has (place? e) T
  | .reference x, he => (placeOf_has he.holds).map
  | .member base index, he => by
    simp only [place?]
    refine (place?_has (he.of_part base (by simp [Expr.parts]))).bind fun p? => ?_
    split
    · exact (memberPlace_has _ _ _).map
    · exact .pure _
  | .swizzle base letters indexes, he => by
    simp only [place?]
    refine (place?_has (he.of_part base (by simp [Expr.parts]))).bind fun p? => ?_
    split
    · exact (Has.except _).map
    · exact .pure _
  | .constant _, _ | .binary .., _ | .assign .., _ | .negate _, _ | .construct .., _
  | .call .., _ => .pure none

theorem valueOf_has {e : Expr} {code : [Limits] → Build Id} (he : e.WellTyped xs) (h : Has code T) :
    Has (valueOf e code) T := by
  have hfolded : Has (folded? e) T :=
    T.folds (f := fun fold => if fold then e.constant? else return none)
      fun _ => Has.ite (.except _) (.pure _)
  refine hfolded.bind fun v? => ?_
  split
  · exact valueId_has _
  · refine (place?_has he).bind fun p? => ?_
    split
    · exact load_has _
    · exact h

mutual
/-- All code for an expression is that of a body. -/
theorem expr_has : ∀ {e : Expr}, e.WellTyped xs → Has (expr e) T
  | .constant v, he => valueOf_has he (valueId_has v)
  | .reference x, he => valueOf_has he .throw
  | .binary op ty left right, he =>
    valueOf_has he <| (expr_has (he.of_part left (by simp [Expr.parts]))).bind fun _ =>
      (expr_has (he.of_part right (by simp [Expr.parts]))).bind fun _ =>
        binary_has _ _ _ _
  | .assign op ty target value, he => by
    refine valueOf_has he ?_
    refine (place?_has (he.of_part target (by simp [Expr.parts]))).bind fun p? => ?_
    split
    · exact .throw
    · exact (expr_has (he.of_part value (by simp [Expr.parts]))).bind fun _ =>
        assign_has _ _ _ _
  | .negate operand, he =>
    valueOf_has he <| (expr_has (he.of_part operand (by simp [Expr.parts]))).bind fun _ =>
      negation_has _
  | .construct ty arguments, he =>
    valueOf_has he <| (operands_has arguments he.of_part).bind fun _ =>
      construct_has _ _
  | .call f arguments, he =>
    valueOf_has he <| (converted_has arguments f.parameters he.of_part).bind
      fun _ => functionCall_has _ _
  | .member base index, he =>
    valueOf_has he <| (expr_has (he.of_part base (by simp [Expr.parts]))).bind fun _ =>
      emit_has _ _ rfl
  | .swizzle base letters indexes, he =>
    valueOf_has he <| (expr_has (he.of_part base (by simp [Expr.parts]))).bind fun _ =>
      selectComponents_has _ _ _ _
theorem operands_has : ∀ es : List Expr, (∀ e ∈ es, e.WellTyped xs) →
    Has (operands es) T
  | [], _ => .pure []
  | e :: es, h =>
    (expr_has (h e List.mem_cons_self)).bind fun _ =>
      (operands_has es fun e he => h e (List.mem_cons_of_mem _ he)).bind fun _ => .pure _
theorem converted_has : ∀ (es : List Expr) (ts : List Ty), (∀ e ∈ es, e.WellTyped xs) →
    Has (converted es ts) T
  | [], _, _ => .pure []
  | _ :: _, [], _ => .pure []
  | e :: es, t :: ts, h => by
    simp only [converted]
    refine (expr_has (h e List.mem_cons_self)).bind fun x => (convert_has _ _ _).bind
      fun id => (converted_has es ts fun e he => h e (List.mem_cons_of_mem _ he)).bind fun _ =>
        .pure _
end

end Build

end ShaderExpr
