import Mathlib.Algebra.Ring.Nat
import ShaderExpr.Expr.Folding
import ShaderExpr.Proofs.Printing.Rendering

namespace ShaderExpr

namespace BinaryFormat

variable (f : BinaryFormat)

theorem signBit_eq : f.signBit = 2 ^ f.fractionBits * 2 ^ f.exponentBits := by
  rw [signBit, Nat.add_comm, Nat.pow_eq, Nat.pow_add]

/-- The sign of a pattern says nothing of its magnitude. -/
theorem magnitude_mod (bits : Nat) : f.magnitude (bits % f.signBit) = f.magnitude bits := by
  unfold magnitude
  simp only [signBit_eq, Nat.pow_eq, Nat.mod_mul_right_div_self, Nat.mod_mod, Nat.mod_mul_right_mod]

theorem isNegative_mod (bits : Nat) : f.isNegative (bits % f.signBit) = false := by
  have hpos : 0 < f.signBit := Nat.two_pow_pos _
  rw [isNegative, Nat.div_eq_of_lt (Nat.mod_lt _ hpos)]
  rfl

/-- A negative number is printed as the number without its sign, behind one. -/
theorem text_of_isNegative (style : NumeralStyle) {bits : Nat} (h : f.isNegative bits)
    (hfinite : ∃ significand exponent, f.magnitude bits = .finite significand exponent) :
    f.text style bits = "-" ++ f.text style (bits % f.signBit) := by
  obtain ⟨significand, exponent, hmagnitude⟩ := hfinite
  unfold text
  rw [magnitude_mod, isNegative_mod, hmagnitude, h]
  dsimp only
  by_cases hzero : significand = 0
  · simp [hzero]
  · simp [hzero]

end BinaryFormat

/-- Changing the highest bit of a word that has it leaves the word without it. -/
theorem xor_two_pow_of_le {a n : Nat} (hle : 2 ^ n ≤ a) (hlt : a < 2 ^ (n + 1)) :
    a ^^^ 2 ^ n = a % 2 ^ n := by
  have hdiv : (a ^^^ 2 ^ n) / 2 ^ n = 0 := by
    have hone : a / 2 ^ n = 1 := by
      rw [Nat.pow_succ] at hlt
      exact Nat.div_eq_of_lt_le (by omega) (by omega)
    rw [Nat.xor_div_two_pow, hone, Nat.div_self (Nat.two_pow_pos n)]
    rfl
  have hmod : (a ^^^ 2 ^ n) % 2 ^ n = a % 2 ^ n := by
    rw [Nat.xor_mod_two_pow, Nat.mod_self, Nat.xor_zero]
  rw [← hmod, Nat.mod_eq_of_lt ((Nat.div_eq_zero_iff_lt (Nat.two_pow_pos n)).mp hdiv)]

/-- The digits of a negative integer are read as the integer without its sign, and those of the
    least one still fit a word. -/
theorem ofNat_neg_toInt {n : Int32} (h : n < 0) :
    (-n.toInt).toNat < 0x100000000 ∧ (UInt32.ofNat (-n.toInt).toNat).toInt32 = -n := by
  have hneg : n.toInt < 0 := Int32.lt_iff_toInt_lt.mp h
  have hlow := n.le_toInt
  have hbound : (-n.toInt).toNat < 0x100000000 := by omega
  have hnat : (((-n.toInt).toNat : Nat) : Int) = -n.toInt := by omega
  refine ⟨hbound, Int32.toInt.inj ?_⟩
  rw [Int32.toInt_neg, ← hnat]
  change (UInt32.ofNat (-n.toInt).toNat).toBitVec.toInt = _
  rw [BitVec.toInt_eq_toNat_bmod]
  change Int.bmod ((UInt32.ofNat (-n.toInt).toNat).toNat : Nat) (2 ^ 32) = _
  rw [UInt32.toNat_ofNat_of_lt' hbound]

theorem Binary32.toNat_neg {x : Binary32} (h : BinaryFormat.single.isNegative x.bits.toNat) :
    x.neg.bits.toNat = x.bits.toNat % BinaryFormat.single.signBit := by
  have hlt := x.bits.toNat_lt
  have hodd : x.bits.toNat / 2 ^ 31 % 2 = 1 := beq_iff_eq.mp h
  have hxor : x.bits.toNat ^^^ 2 ^ 31 = x.bits.toNat % 2 ^ 31 :=
    xor_two_pow_of_le (by omega) (by omega)
  exact (UInt32.toNat_xor _ _).trans hxor

theorem Binary64.toNat_neg {x : Binary64} (h : BinaryFormat.double.isNegative x.bits.toNat) :
    x.neg.bits.toNat = x.bits.toNat % BinaryFormat.double.signBit := by
  have hlt := x.bits.toNat_lt
  have hodd : x.bits.toNat / 2 ^ 63 % 2 = 1 := beq_iff_eq.mp h
  have hxor : x.bits.toNat ^^^ 2 ^ 63 = x.bits.toNat % 2 ^ 63 :=
    xor_two_pow_of_le (by omega) (by omega)
  exact (UInt64.toNat_xor _ _).trans hxor

namespace Scalar

/-- Is the component printed with a minus sign in front? -/
def isNegative : Scalar → Bool
  | .float x => BinaryFormat.single.isNegative x.bits.toNat
  | .double x => BinaryFormat.double.isNegative x.bits.toNat
  | .int n => n < 0
  | _ => false

/-- The literal behind the sign. For the least integer it is that integer again. -/
def magnitude : Scalar → Scalar
  | .float x => .float (if (float x).isNegative then x.neg else x)
  | .double x => .double (if (double x).isNegative then x.neg else x)
  | .int n => .int (if (int n).isNegative then -n else n)
  | x => x

/-- Neither infinite nor something that is no number. -/
def IsFinite : Scalar → Prop
  | .float x => ∃ significand exponent,
    BinaryFormat.single.magnitude x.bits.toNat = .finite significand exponent
  | .double x => ∃ significand exponent,
    BinaryFormat.double.magnitude x.bits.toNat = .finite significand exponent
  | _ => True

variable {x : Scalar}

theorem type_magnitude (x : Scalar) : x.magnitude.type = x.type := by
  cases x <;> rfl

theorem magnitude_of_not (h : x.isNegative = false) : x.magnitude = x := by
  cases x <;> simp [magnitude, h]

/-- Changing the sign of the literal gives the component. -/
theorem opposite_magnitude (h : x.isNegative) : Folding.opposite x.magnitude = .ok x := by
  cases x with
  | float x =>
    rw [magnitude, if_pos h]
    simp only [Folding.opposite, Binary32.neg, UInt32.xor_assoc, UInt32.xor_self, UInt32.xor_zero]
  | double x =>
    rw [magnitude, if_pos h]
    simp only [Folding.opposite, Binary64.neg, UInt64.xor_assoc, UInt64.xor_self, UInt64.xor_zero]
  | int n =>
    rw [magnitude, if_pos h]
    simp [Folding.opposite]
  | uint | bool => simp [isNegative] at h

/-- The text of a component behind its sign, if it has one: a literal that evaluation takes to the
    component when the sign is put in front. The literal of the least integer is this integer
    itself. -/
def IsNumeral (x : Scalar) (text : List Char) : Prop :=
  x.text.toList = (if x.isNegative then '-' :: text else text) ∧
    Renders text [.literal x.magnitude] EndsPhrase ∧ StartsOperand text

theorem isNumeral_of_plain (htext : x.text = (if x.isNegative then "-" else "") ++ x.magnitude.text)
    (plain : x.magnitude.IsPlain) : x.IsNumeral x.magnitude.text.toList := by
  refine ⟨?_, (renders plain (readsBack plain)).mono fun rest hrest => ?_, text_starts plain⟩
  · rw [htext]
    split <;> simp
  · exact ⟨hrest.literal.1, fun _ _ => hrest.literal.2⟩

/-- The digits behind the sign of an integer are its literal. -/
theorem exists_numeral_int {n : Int32} (h : n < 0) : ∃ text, (int n).IsNumeral text := by
  have hsign : (int n).isNegative := by simpa [isNegative] using h
  obtain ⟨hbound, hword⟩ := ofNat_neg_toInt h
  have hrenders := digits_render hbound
  rw [hword] at hrenders
  obtain ⟨c, cs, hcs⟩ := List.exists_cons_of_ne_nil
    (Nat.toDigits_ne_nil (n := (-n.toInt).toNat) (b := 10))
  have hdigit := isDecimalDigit_of_mem_toDigits c (by rw [hcs]; exact List.mem_cons_self)
  refine ⟨_, ?_, ?_, c, cs, hcs, ne_sign_of_isDecimalDigit hdigit⟩
  · have hbelow : ¬0 ≤ n.toInt := Int.not_le.mpr (Int32.lt_iff_toInt_lt.mp h)
    rw [hsign, if_pos rfl, text, Int.toString_eq_repr, Int.repr_eq_if, if_neg hbelow,
      String.toList_append, Nat.toList_repr]
    rfl
  · rw [magnitude, if_pos hsign]
    exact hrenders.mono fun _ => EndsPhrase.literal

theorem isPlain_of_not (hsign : x.isNegative = false) (finite : x.IsFinite) : x.IsPlain := by
  cases x with
  | float | double => exact ⟨hsign, finite⟩
  | int n =>
    have hsign : ¬n < 0 := by simpa [isNegative] using hsign
    exact Int32.le_iff_toInt_le.mp (Int32.not_lt.mp hsign)
  | uint | bool => trivial

/-- Behind the sign of a finite component stands a literal that is read back. -/
theorem exists_numeral (finite : x.IsFinite) : ∃ text, x.IsNumeral text := by
  cases hsign : x.isNegative with
  | false =>
    have hsame := magnitude_of_not hsign
    refine ⟨_, isNumeral_of_plain (by simp [hsign, hsame]) ?_⟩
    rw [hsame]
    exact isPlain_of_not hsign finite
  | true =>
    cases x with
    | float x =>
      have hbits := Binary32.toNat_neg hsign
      refine ⟨_, isNumeral_of_plain ?_ ?_⟩
      · rw [hsign, magnitude, if_pos hsign, if_pos rfl, text, text, hbits]
        exact BinaryFormat.text_of_isNegative _ _ hsign finite
      · rw [magnitude, if_pos hsign]
        refine ⟨?_, ?_⟩
        · rw [hbits, BinaryFormat.isNegative_mod]
        · rw [hbits, BinaryFormat.magnitude_mod]
          exact finite
    | double x =>
      have hbits := Binary64.toNat_neg hsign
      refine ⟨_, isNumeral_of_plain ?_ ?_⟩
      · rw [hsign, magnitude, if_pos hsign, if_pos rfl, text, text, hbits]
        rw [BinaryFormat.text_of_isNegative _ _ hsign finite, String.append_assoc]
      · rw [magnitude, if_pos hsign]
        refine ⟨?_, ?_⟩
        · rw [hbits, BinaryFormat.isNegative_mod]
        · rw [hbits, BinaryFormat.magnitude_mod]
          exact finite
    | int n => exact exists_numeral_int (by simpa [isNegative] using hsign)
    | uint | bool => simp [isNegative] at hsign

end Scalar

end ShaderExpr
