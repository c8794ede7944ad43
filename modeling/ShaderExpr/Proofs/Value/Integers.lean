import Mathlib.Data.Int.ModEq
import ShaderExpr.Proofs.Grammar.Completeness
import ShaderExpr.Proofs.Printing.Values

namespace ShaderExpr

theorem toNat_ofInt (m : Int) : ((UInt32.ofInt m).toNat : Int) = m % 2 ^ 32 := by
  rw [UInt32.ofInt, UInt32.toNat_ofNat']
  omega

theorem ofInt_toNat (n : UInt32) : UInt32.ofInt n.toNat = n := by
  have hvalue := toNat_ofInt n.toNat
  have hlt := n.toNat_lt
  apply UInt32.toNat_inj.mp
  omega

/-- Signed integers have the pattern of their value. -/
theorem ofInt_toInt (n : Int32) : UInt32.ofInt n.toInt = n.toUInt32 := by
  have hvalue := toNat_ofInt n.toInt
  have hsign : n.toInt = (n.toUInt32.toNat : Int).bmod (2 ^ 32) :=
    BitVec.toInt_eq_toNat_bmod n.toBitVec
  have hsame : n.toInt % 2 ^ 32 = n.toUInt32.toNat % 2 ^ 32 := hsign ▸ Int.bmod_emod
  have hlt := n.toUInt32.toNat_lt
  apply UInt32.toNat_inj.mp
  omega

/-- Operators that wrapping around commutes with. -/
inductive RingOperator
  | add | sub | mul

namespace RingOperator

def operator : RingOperator → Operator
  | add => .add
  | sub => .sub
  | mul => .mul

theorem isEvaluated (op : RingOperator) : Folding.IsEvaluated op.operator := by
  cases op with
  | add | sub => exact .inr rfl
  | mul => exact .inl rfl

/-- Arithmetic without bounds. -/
def onInt : RingOperator → Int → Int → Int
  | add, m, n => m + n
  | sub, m, n => m - n
  | mul, m, n => m * n

/-- Arithmetic on patterns. -/
def onPattern : RingOperator → UInt32 → UInt32 → UInt32
  | add, v, w => v + w
  | sub, v, w => v - w
  | mul, v, w => v * w

theorem ofInt_onInt (op : RingOperator) (m n : Int) :
    UInt32.ofInt (op.onInt m n) = op.onPattern (.ofInt m) (.ofInt n) := by
  cases op with
  | add => exact UInt32.ofInt_add m n
  | sub => rw [onInt, onPattern, Int.sub_eq_add_neg, UInt32.ofInt_add, UInt32.ofInt_neg,
      UInt32.sub_eq_add_neg]
  | mul => exact UInt32.ofInt_mul m n

end RingOperator

/-- A tree of integer literals, as it is written, without types. -/
inductive IntegerTree
  | int (n : Int32)
  | uint (n : UInt32)
  | negation (operand : IntegerTree)
  | operation (op : RingOperator) (left right : IntegerTree)

namespace IntegerTree

/-- Are all literals signed? -/
def isSigned : IntegerTree → Bool
  | int _ => true
  | uint _ => false
  | negation operand => operand.isSigned
  | operation _ left right => left.isSigned && right.isSigned

def component (t : IntegerTree) : ScalarType := if t.isSigned then .int else .uint

/-- Value of a tree without bounds. -/
def value : IntegerTree → Int
  | int n => n.toInt
  | uint n => n.toNat
  | negation operand => -operand.value
  | operation op left right => op.onInt left.value right.value

/-- Tokens of a tree, with parentheses around everything but literals. -/
def kinds : IntegerTree → Phrase.Kinds
  | int n => [.literal (.int n)]
  | uint n => [.literal (.uint n)]
  | negation operand => Phrase.enclosed (.control '-' :: operand.kinds)
  | operation op left right => Phrase.enclosed (left.kinds ++ op.operator.token :: right.kinds)

/-- Typed tree. -/
def expr : IntegerTree → Expr
  | int n => .constant (.ofScalar (.int n))
  | uint n => .constant (.ofScalar (.uint n))
  | negation operand => .negate operand.expr
  | operation op left right =>
    .binary op.operator (.scalar (operation op left right).component) left.expr right.expr

theorem ty_expr (t : IntegerTree) : t.expr.ty = .scalar t.component := by
  induction t with
  | int | uint | operation => rfl
  | negation operand ih => exact ih

theorem isInteger_component (t : IntegerTree) : t.component.isInteger := by
  unfold component
  split <;> rfl

theorem resultType_operation (op : RingOperator) (left right : IntegerTree) :
    op.operator.resultType left.expr.ty right.expr.ty =
      .ok (.scalar (operation op left right).component) := by
  rw [ty_expr, ty_expr, component, component, component, isSigned]
  cases op <;> cases left.isSigned <;> cases right.isSigned <;> rfl

/-- A tree is spelled as something that can stand in any place. -/
theorem primary (s : Scope) (t : IntegerTree) : Phrase.Primary s t.kinds t.expr s := by
  induction t with
  | int n => exact .literal (.int n)
  | uint n => exact .literal (.uint n)
  | negation operand ih =>
    have hminus : Phrase.Unary s (.control '-' :: operand.kinds) (.negate operand.expr) s := by
      have hinteger := operand.isInteger_component
      refine .minus (.postfixed (.primary ih)) ?_ fun hbool => ?_
      · rw [ty_expr]
        rfl
      · rw [ty_expr] at hbool
        simp [Option.some.inj hbool, ScalarType.isInteger] at hinteger
    exact .parentheses (Phrase.Binds.loosen (p := 13) (q := 0) hminus (by omega) (by omega))
  | operation op left right ihl ihr =>
    obtain ⟨hlow, hhigh⟩ : 2 ≤ op.operator.precedence ∧ op.operator.precedence ≤ 12 := by
      cases op <;> decide
    have hplace {t : IntegerTree} (ht : Phrase.Primary s t.kinds t.expr s) {p : Nat} (hp : 2 ≤ p)
        (hp' : p ≤ 13) : Phrase.Operation p s t.kinds t.expr s :=
      (Phrase.Binds.loosen (p := 14) (q := p) (.primary ht) (Nat.le_refl 14) (by omega)).operation
        hp hp'
    have hbinary : Phrase.Operation op.operator.precedence s
        (left.kinds ++ op.operator.token :: right.kinds) (operation op left right).expr s :=
      .binary (hplace ihl hlow (by omega)) op.operator.operator?_token rfl
        (hplace ihr (by omega) (by omega)) (resultType_operation op left right)
    rw [← Phrase.binds_operation hlow hhigh] at hbinary
    exact .parentheses (Phrase.Binds.loosen (q := 0) hbinary (by omega) (by omega))

/-- The tokens of a tree are read as its typed tree, in any scope. -/
theorem reads (t : IntegerTree) {c : Cursor} (h : c.kinds = t.kinds) :
    (Reader.expression c).1 = t.expr ∧ (Reader.expression c).2.rest = [] ∧
      (Reader.expression c).2.diagnostics = c.diagnostics := by
  have hphrase : Phrase.Assignment c.scope t.kinds t.expr c.scope :=
    Phrase.Binds.loosen (p := 14) (q := 0) (.primary (t.primary c.scope)) (by omega) (by omega)
  obtain ⟨hclean, he, hrest, -⟩ := Reader.expression_reads hphrase []
    Phrase.endsAssignment_endOfInput c (by rw [h, List.append_nil]) rfl
  exact ⟨he, Cursor.rest_eq_nil hrest, hclean⟩

end IntegerTree

/-- Conversions between integers keep the pattern. -/
theorem Scalar.toUInt32_convert {x : Scalar} {s : ScalarType} (hx : x.type.isInteger)
    (hs : s.isInteger) : (x.convert s).toUInt32 = x.toUInt32 := by
  cases x with
  | float | double | bool => simp [type, ScalarType.isInteger] at hx
  | int | uint =>
    cases s with
    | int | uint => rfl
    | float | double | bool => simp [ScalarType.isInteger] at hs

theorem Scalar.convert_convert (x : Scalar) (s : ScalarType) :
    (x.convert s).convert s = x.convert s := by
  have hsame := (x.convert s).convert_type
  rwa [type_convert] at hsame

namespace Folding

variable {op : Operator} {s : ScalarType} {x y z : Scalar}

theorem component_ofScalar (x : Scalar) : component (.ofScalar x) 0 = .ok x := by
  have hget : (Value.ofScalar x).get? 0 = some (x.convert x.type) :=
    Value.get?_ofComponents rfl Nat.zero_lt_one rfl
  rw [component, hget, Scalar.convert_type]

theorem operand_ofScalar (s : ScalarType) (x : Scalar) :
    operand s (.ofScalar x) = .ok (.ofScalar (x.convert s)) := by
  have hconvert : (Value.ofScalar x).convert (.scalar s) = .ok (.ofScalar (x.convert s)) := by
    unfold Value.convert
    split
    · rename_i hty
      obtain rfl : x.type = s := Ty.scalar.inj hty
      rw [Scalar.convert_type]
    · have hsame : Value.ofComponents (.scalar s) [x] = .ofScalar (x.convert s) := by
        rw [Value.ofScalar, Scalar.type_convert]
        refine Value.eq_of_data rfl ?_
        rw [Value.data_ofComponents rfl, Value.data_ofComponents rfl]
        simp [Ty.componentCount, Scalar.convert_convert]
      rw [Value.components_ofScalar, hsame]
      rfl
  unfold operand
  rw [show (Value.ofScalar x).ty.withComponent s = .scalar s from rfl, hconvert]
  rfl

/-- Operators on scalars combine the converted operands. -/
theorem binary_ofScalar (h : combine op (x.convert s) (y.convert s) = .ok z) :
    binary op (.scalar s) (.ofScalar x) (.ofScalar y) = .ok (.ofScalar z) := by
  have htype : z.type = s := (type_of_combine h).trans (x.type_convert s)
  have hcomponents : componentwise op (.scalar s) (.ofScalar (x.convert s))
      (.ofScalar (y.convert s)) = .ok (.ofScalar z) := by
    have hone : (Ty.scalar s).componentCount = 1 := rfl
    have hcount (w : Scalar) : (Value.ofScalar w).ty.componentCount = 1 := rfl
    simp only [componentwise, hone, hcount, if_true, component_ofScalar, List.range_one,
      List.mapM_cons, List.mapM_nil, bind, Except.bind, h]
    exact congrArg (fun t => Except.ok (Value.ofComponents (.scalar t) [z])) htype.symm
  rw [binary]
  simp only [Ty.component?, operand_ofScalar, bind, Except.bind]
  rw [if_neg (by simp [isLinear, Value.ofScalar, Ty.isMatrix, Ty.isVector]),
    if_neg (by simp [Value.ofScalar, Ty.isMatrix])]
  exact hcomponents

/-- Patterns are combined as integers are. -/
theorem combine_pattern (op : RingOperator) (hs : s.isInteger) (hx : x.type = s)
    (hy : y.type = s) : ∃ z, combine op.operator x y = .ok z ∧ z.type = s ∧
      z.toUInt32 = op.onPattern x.toUInt32 y.toUInt32 := by
  subst hx
  cases x with
  | float | double | bool => simp [Scalar.type, ScalarType.isInteger] at hs
  | int m =>
    cases y <;> simp only [Scalar.type, reduceCtorEq] at hy
    rename_i n
    cases op with
    | add => exact ⟨_, rfl, rfl, Int32.toUInt32_add m n⟩
    | sub => exact ⟨_, rfl, rfl, Int32.toUInt32_sub m n⟩
    | mul => exact ⟨_, rfl, rfl, Int32.toUInt32_mul m n⟩
  | uint m =>
    cases y <;> simp only [Scalar.type, reduceCtorEq] at hy
    cases op <;> exact ⟨_, rfl, rfl, rfl⟩

theorem opposite_pattern (hx : x.type.isInteger) :
    ∃ y, opposite x = .ok y ∧ y.type = x.type ∧ y.toUInt32 = -x.toUInt32 := by
  cases x with
  | float | double | bool => simp [Scalar.type, ScalarType.isInteger] at hx
  | int n => exact ⟨.int (-n), rfl, rfl, Int32.toUInt32_neg n⟩
  | uint n => exact ⟨.uint (-n), rfl, rfl, rfl⟩

end Folding

namespace IntegerTree

/-- The value of a tree is of its type, with the pattern of its value without bounds. -/
theorem fold_expr (t : IntegerTree) : ∃ x : Scalar, t.expr.fold = .ok (.ofScalar x) ∧
    x.type = t.component ∧ x.toUInt32 = UInt32.ofInt t.value := by
  induction t with
  | int n => exact ⟨.int n, rfl, rfl, (ofInt_toInt n).symm⟩
  | uint n => exact ⟨.uint n, rfl, rfl, (ofInt_toNat n).symm⟩
  | negation operand ih =>
    obtain ⟨x, hx, hxs, hpattern⟩ := ih
    obtain ⟨y, hy, hys, hopposite⟩ := Folding.opposite_pattern (hxs ▸ operand.isInteger_component)
    refine ⟨y, ?_, hys.trans hxs, ?_⟩
    · rw [expr, Expr.fold, hx]
      exact Folding.negation_ofScalar hy hys.symm
    · rw [hopposite, hpattern, value, UInt32.ofInt_neg]
  | operation op left right ihl ihr =>
    obtain ⟨x, hx, hxs, hxpattern⟩ := ihl
    obtain ⟨y, hy, hys, hypattern⟩ := ihr
    have hinteger := isInteger_component (operation op left right)
    obtain ⟨z, hz, hzs, hpattern⟩ :=
      Folding.combine_pattern op hinteger (x.type_convert _) (y.type_convert _)
    refine ⟨z, ?_, hzs, ?_⟩
    · rw [expr, Expr.fold_binary op.isEvaluated, hx, hy]
      exact Folding.binary_ofScalar hz
    · rw [hpattern, Scalar.toUInt32_convert (hxs ▸ left.isInteger_component) hinteger,
        Scalar.toUInt32_convert (hys ▸ right.isInteger_component) hinteger, hxpattern, hypattern,
        value, RingOperator.ofInt_onInt]

/-- Integer arithmetic at compile time wraps around. The tokens of any tree of integer literals are
    read, without a problem, as the tree with its types. It has a value at compile time, which is
    signed if all of the literals are, and congruent to the value without bounds. Signed operands
    next to unsigned ones are converted, which keeps the residue. -/
theorem wraps (t : IntegerTree) :
    (∀ c : Cursor, c.kinds = t.kinds → (Reader.expression c).1 = t.expr ∧
      (Reader.expression c).2.rest = [] ∧ (Reader.expression c).2.diagnostics = c.diagnostics) ∧
    ∃ x : Scalar, t.expr.constant? = .ok (some (.ofScalar x)) ∧
      x.type = (if t.isSigned then .int else .uint) ∧
      (x.toUInt32.toNat : Int) ≡ t.value [ZMOD 2 ^ 32] := by
  obtain ⟨x, hx, hxs, hpattern⟩ := t.fold_expr
  refine ⟨fun c hc => t.reads hc, x, ?_, hxs, ?_⟩
  · rw [Expr.constant?, hx]
  · rw [hpattern, toNat_ofInt]
    exact Int.mod_modEq _ _

/-- A difference below zero that becomes unsigned. -/
theorem wraps_difference :
    let t := operation .mul (operation .sub (int 1) (uint 2)) (int 3)
    ∃ c : Cursor, c.kinds = t.kinds ∧ (Reader.expression c).1 = t.expr ∧
      ∃ x : Scalar, t.expr.constant? = .ok (some (.ofScalar x)) ∧ x.type = .uint ∧
        (x.toUInt32.toNat : Int) ≡ -3 [ZMOD 2 ^ 32] := by
  intro t
  let c : Cursor := ⟨(lexStrict? "((1 - 2u) * 3)").getD [], 14, ⟨0, 0⟩, .empty, []⟩
  have hkinds : c.kinds = t.kinds := by decide +kernel
  obtain ⟨hreads, x, hx, hxs, hmod⟩ := wraps t
  exact ⟨c, hkinds, (hreads c hkinds).1, x, hx, hxs, hmod⟩

end IntegerTree

end ShaderExpr
