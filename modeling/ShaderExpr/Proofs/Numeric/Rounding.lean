import Mathlib.Algebra.Order.Field.Power
import Mathlib.Tactic.FieldSimp
import Mathlib.Tactic.Linarith
import Mathlib.Tactic.Ring
import ShaderExpr.Numeric.Shortest

namespace ShaderExpr

/-- A power with a negative or a positive exponent, as numerators and denominators hold it. -/
theorem natPow_div_natPow {b : ℕ} (hb : b ≠ 0) (e : ℤ) :
    ((Nat.pow b e.toNat : ℕ) : ℚ) / (Nat.pow b (-e).toNat : ℕ) = (b : ℚ) ^ e := by
  have hne : (b : ℚ) ≠ 0 := Nat.cast_ne_zero.mpr hb
  rw [Nat.pow_eq, Nat.pow_eq, Nat.cast_pow, Nat.cast_pow, ← zpow_natCast, ← zpow_natCast,
    ← zpow_sub₀ hne]
  congr 1
  omega

/-- Scaling a fraction by a power with an integer exponent. -/
theorem scaled_div {b : ℕ} (hb : b ≠ 0) (n d : ℕ) (e : ℤ) :
    ((n * Nat.pow b e.toNat : ℕ) : ℚ) / (d * Nat.pow b (-e).toNat : ℕ) = n / d * (b : ℚ) ^ e := by
  rw [Nat.cast_mul, Nat.cast_mul, mul_div_mul_comm, natPow_div_natPow hb]

section

variable {n d : ℕ} (hn : n ≠ 0) (hd : d ≠ 0)
include hn hd

/-- The logarithms of the two parts leave two candidates. -/
theorem log2_bounds : (2 : ℚ) ^ ((n.log2 : ℤ) - d.log2 - 1) < n / d ∧
    (n : ℚ) / d < 2 ^ ((n.log2 : ℤ) - d.log2 + 1) := by
  have hpos : (0 : ℚ) < d := Nat.cast_pos.mpr (Nat.pos_of_ne_zero hd)
  have htwo : (2 : ℚ) ≠ 0 := two_ne_zero
  have hnlow : (2 : ℚ) ^ (n.log2 : ℤ) ≤ n := by exact_mod_cast Nat.log2_self_le hn
  have hnhigh : (n : ℚ) < 2 ^ ((n.log2 : ℤ) + 1) := by exact_mod_cast Nat.lt_log2_self (n := n)
  have hdlow : (2 : ℚ) ^ (d.log2 : ℤ) ≤ d := by exact_mod_cast Nat.log2_self_le hd
  have hdhigh : (d : ℚ) < 2 ^ ((d.log2 : ℤ) + 1) := by exact_mod_cast Nat.lt_log2_self (n := d)
  constructor
  · rw [lt_div_iff₀ hpos]
    calc (2 : ℚ) ^ ((n.log2 : ℤ) - d.log2 - 1) * d
        < 2 ^ ((n.log2 : ℤ) - d.log2 - 1) * 2 ^ ((d.log2 : ℤ) + 1) := by gcongr
      _ = 2 ^ (n.log2 : ℤ) := by rw [← zpow_add₀ htwo]; congr 1; ring
      _ ≤ n := hnlow
  · rw [div_lt_iff₀ hpos]
    calc (n : ℚ) < 2 ^ ((n.log2 : ℤ) + 1) := hnhigh
      _ = 2 ^ ((n.log2 : ℤ) - d.log2 + 1) * 2 ^ (d.log2 : ℤ) := by
        rw [← zpow_add₀ htwo]; congr 1; ring
      _ ≤ 2 ^ ((n.log2 : ℤ) - d.log2 + 1) * d := by gcongr

theorem floorLog2_spec : (2 : ℚ) ^ floorLog2 n d ≤ n / d ∧
    (n : ℚ) / d < 2 ^ (floorLog2 n d + 1) := by
  obtain ⟨hlow, hhigh⟩ := log2_bounds hn hd
  have hpos : (0 : ℚ) < d := Nat.cast_pos.mpr (Nat.pos_of_ne_zero hd)
  unfold floorLog2
  generalize (n.log2 : ℤ) - d.log2 = guess at hlow hhigh
  have hreached : d * Nat.pow 2 guess.toNat ≤ n * Nat.pow 2 (-guess).toNat ↔
      (2 : ℚ) ^ guess ≤ n / d := by
    have hscale : (0 : ℚ) < (Nat.pow 2 (-guess).toNat : ℕ) := Nat.cast_pos.mpr (Nat.two_pow_pos _)
    have hpower := natPow_div_natPow two_ne_zero guess
    rw [Nat.cast_two] at hpower
    rw [← hpower, div_le_div_iff₀ hscale hpos, ← Nat.cast_mul, ← Nat.cast_mul, Nat.cast_le,
      Nat.mul_comm d]
  simp only [hreached]
  split
  · exact ⟨‹_›, hhigh⟩
  · rw [sub_add_cancel]
    exact ⟨hlow.le, not_le.mp ‹_›⟩

/-- The logarithm reaches as far as the powers do. -/
theorem le_floorLog2_iff (k : ℤ) : k ≤ floorLog2 n d ↔ (2 : ℚ) ^ k ≤ n / d := by
  obtain ⟨hlow, hhigh⟩ := floorLog2_spec hn hd
  constructor
  · exact fun h => le_trans (zpow_le_zpow_right₀ one_le_two h) hlow
  · intro h
    have hlt := (zpow_lt_zpow_iff_right₀ one_lt_two).mp (lt_of_le_of_lt h hhigh)
    omega

end

/-- A quotient that is rounded is the nearest number or the one below it. -/
theorem eq_div_or_succ {n d m : ℕ} (hd : 0 < d) (low : 2 * (d * m) ≤ 2 * n + d)
    (high : 2 * n ≤ 2 * (d * m) + d) : m = n / d ∨ m = n / d + 1 := by
  have hsplit := Nat.div_add_mod n d
  have hrest := Nat.mod_lt n hd
  generalize n / d = quotient at hsplit ⊢
  generalize n % d = rest at hsplit hrest
  have hle : m ≤ quotient + 1 := by
    by_contra h
    have hscaled := Nat.mul_le_mul_left d (show quotient + 2 ≤ m by omega)
    rw [Nat.mul_add] at hscaled
    omega
  have hge : quotient ≤ m := by
    by_contra h
    have hscaled := Nat.mul_le_mul_left d (show m + 1 ≤ quotient by omega)
    rw [Nat.mul_add] at hscaled
    omega
  omega

theorem roundHalfEven_eq_of_le {n d m : ℕ} (hd : 0 < d) (low : 2 * (d * m) ≤ 2 * n + d)
    (high : 2 * n ≤ 2 * (d * m) + d)
    (odd : m % 2 = 1 → 2 * (d * m) < 2 * n + d ∧ 2 * n < 2 * (d * m) + d) :
    roundHalfEven n d = m := by
  have hcases := eq_div_or_succ hd low high
  have hsplit := Nat.div_add_mod n d
  have hrest := Nat.mod_lt n hd
  have hodd := mt odd
  unfold roundHalfEven
  generalize n / d = quotient at hsplit hcases ⊢
  generalize n % d = rest at hsplit hrest ⊢
  dsimp only
  rcases hcases with rfl | rfl
  · split
    · rfl
    · split <;> omega
  · rw [Nat.mul_add, Nat.mul_one] at low high hodd
    split
    · omega
    · split <;> omega

/-- Rounding to a natural number from at most a half away, where a tie goes to the even one. So an
    odd result is less than a half away on both sides. -/
theorem roundHalfEven_eq {n d m : ℕ} (hd : d ≠ 0) (low : (m : ℚ) - 1 / 2 ≤ n / d)
    (high : (n : ℚ) / d ≤ m + 1 / 2)
    (odd : m % 2 = 1 → (m : ℚ) - 1 / 2 < n / d ∧ (n : ℚ) / d < m + 1 / 2) :
    roundHalfEven n d = m := by
  have hpos : (0 : ℚ) < d := Nat.cast_pos.mpr (Nat.pos_of_ne_zero hd)
  refine roundHalfEven_eq_of_le (Nat.pos_of_ne_zero hd) ?_ ?_ fun hm => ?_
  · rw [le_div_iff₀ hpos] at low
    have h : (2 * (d * m) : ℚ) ≤ 2 * n + d := by linarith
    exact_mod_cast h
  · rw [div_le_iff₀ hpos] at high
    have h : (2 * n : ℚ) ≤ 2 * (d * m) + d := by linarith
    exact_mod_cast h
  · obtain ⟨hlow, hhigh⟩ := odd hm
    rw [lt_div_iff₀ hpos] at hlow
    rw [div_lt_iff₀ hpos] at hhigh
    have hbelow : (2 * (d * m) : ℚ) < 2 * n + d := by linarith
    have habove : (2 * n : ℚ) < 2 * (d * m) + d := by linarith
    exact ⟨by exact_mod_cast hbelow, by exact_mod_cast habove⟩

namespace BinaryFormat

/-- A pattern below infinity, and the significand and the exponent it stands for. Only at the bottom
    of the range the significand may be short of the hidden bit. -/
structure IsDatum (f : BinaryFormat) (bits significand : ℕ) (exponent : ℤ) : Prop where
  few : significand < 2 ^ (f.fractionBits + 1)
  least : f.leastExponent ≤ exponent
  normal : exponent = f.leastExponent ∨ 2 ^ f.fractionBits ≤ significand
  pattern : (exponent - f.leastExponent).toNat * 2 ^ f.fractionBits + significand = bits
  finite : bits < f.infinity

theorem nearest_le (f : BinaryFormat) (n d : ℕ) : f.nearest n d ≤ f.infinity := by
  unfold nearest
  split
  · exact Nat.zero_le _
  · exact Nat.min_le_right _ _

/-- A pattern is below infinity when its exponent is not the greatest. -/
theorem lt_infinity_iff {f : BinaryFormat} {bits : ℕ} :
    bits < f.infinity ↔ bits / 2 ^ f.fractionBits < 2 ^ f.exponentBits - 1 :=
  (Nat.div_lt_iff_lt_mul (Nat.two_pow_pos _)).symm

/-- Patterns below infinity are those of finite magnitudes. -/
theorem exists_finite {f : BinaryFormat} {bits : ℕ} (h : bits < f.infinity) :
    ∃ significand exponent, f.magnitude bits = .finite significand exponent := by
  have hfield := lt_infinity_iff.mp h
  unfold magnitude
  simp only [Nat.pow_eq]
  generalize bits / 2 ^ f.fractionBits = field at hfield
  rw [Nat.mod_eq_of_lt (by omega), if_neg (by omega)]
  split
  · exact ⟨_, _, rfl⟩
  · exact ⟨_, _, rfl⟩

/-- A finite pattern without a sign is that of a datum. -/
theorem isDatum_of_magnitude {f : BinaryFormat} {bits significand : ℕ} {exponent : ℤ}
    (unsigned : bits < f.signBit)
    (h : f.magnitude bits = .finite significand exponent) :
    f.IsDatum bits significand exponent := by
  have hfraction : bits % 2 ^ f.fractionBits < 2 ^ f.fractionBits :=
    Nat.mod_lt _ (Nat.two_pow_pos _)
  have hfield : bits / 2 ^ f.fractionBits < 2 ^ f.exponentBits := by
    rw [signBit, Nat.pow_eq, Nat.pow_add] at unsigned
    exact Nat.div_lt_of_lt_mul (Nat.mul_comm _ _ ▸ unsigned)
  have hsplit := Nat.div_add_mod bits (2 ^ f.fractionBits)
  have hdouble : 2 ^ (f.fractionBits + 1) = 2 * 2 ^ f.fractionBits := by rw [Nat.pow_succ]; omega
  unfold magnitude at h
  simp only [Nat.pow_eq, Nat.mod_eq_of_lt hfield] at h
  have hfinite : bits / 2 ^ f.fractionBits ≠ 2 ^ f.exponentBits - 1 → bits < f.infinity :=
    fun hne => lt_infinity_iff.mpr (by omega)
  generalize bits / 2 ^ f.fractionBits = field at h hsplit hfield hfinite
  generalize bits % 2 ^ f.fractionBits = fraction at h hsplit hfraction
  split at h
  · split at h <;> simp at h
  · rename_i hne
    split at h
    · rename_i hzero
      obtain ⟨rfl, rfl⟩ := Magnitude.finite.inj h
      subst hzero
      exact ⟨by omega, le_refl _, .inl rfl, by simpa using hsplit, hfinite hne⟩
    · rename_i hzero
      obtain ⟨rfl, rfl⟩ := Magnitude.finite.inj h
      refine ⟨by omega, by omega, .inr (Nat.le_add_right _ _), ?_, hfinite hne⟩
      have hfield : (f.leastExponent + ((field - 1 : ℕ) : ℤ) - f.leastExponent).toNat = field - 1 := by
        omega
      have hcarry : (field - 1) * 2 ^ f.fractionBits + 2 ^ f.fractionBits =
          2 ^ f.fractionBits * field := by
        rw [← Nat.succ_mul, Nat.mul_comm]
        congr 1
        omega
      rw [hfield]
      omega

end BinaryFormat

namespace RoundingInterval

/-- Is the number between the middles, or one of them when they round to the datum? The middles do
    when the significand is even. -/
structure Contains (i : RoundingInterval) (x : ℚ) : Prop where
  low : (i.low : ℚ) / i.denominator ≤ x
  high : x ≤ i.high / i.denominator
  inside : i.closed = false → (i.low : ℚ) / i.denominator < x ∧ x < i.high / i.denominator

/-- How far down the numbers reach that round to a datum, in units of its spacing. -/
def reachBelow (f : BinaryFormat) (significand : ℕ) (exponent : ℤ) : ℚ :=
  if significand = 2 ^ f.fractionBits ∧ f.leastExponent < exponent then 1 / 4 else 1 / 2

theorem reachBelow_le (f : BinaryFormat) (significand : ℕ) (exponent : ℤ) :
    reachBelow f significand exponent ≤ 1 / 2 := by
  unfold reachBelow
  split <;> norm_num

section

variable (f : BinaryFormat) {significand : ℕ} (exponent : ℤ)

/-- A count of quarters of the spacing over the common denominator. -/
theorem quarters_div (n : ℕ) (exponent : ℤ) :
    ((n * Nat.pow 2 (exponent - 2).toNat : ℕ) : ℚ) / (Nat.pow 2 (2 - exponent).toNat : ℕ) =
      n / 4 * 2 ^ exponent := by
  have hscaled := scaled_div two_ne_zero n 1 (exponent - 2)
  rw [Nat.one_mul, neg_sub, Nat.cast_one, div_one, Nat.cast_two, zpow_sub₀ two_ne_zero] at hscaled
  rw [hscaled]
  norm_num
  ring

theorem value_ofMagnitude : ((ofMagnitude f significand exponent).value : ℚ) /
    (ofMagnitude f significand exponent).denominator = significand * 2 ^ exponent := by
  refine (quarters_div (4 * significand) exponent).trans ?_
  push_cast
  ring

theorem high_ofMagnitude : ((ofMagnitude f significand exponent).high : ℚ) /
    (ofMagnitude f significand exponent).denominator = (significand + 1 / 2) * 2 ^ exponent := by
  refine (quarters_div (4 * significand + 2) exponent).trans ?_
  push_cast
  ring

theorem low_ofMagnitude (hs : significand ≠ 0) : ((ofMagnitude f significand exponent).low : ℚ) /
    (ofMagnitude f significand exponent).denominator =
      (significand - reachBelow f significand exponent) * 2 ^ exponent := by
  refine (quarters_div _ exponent).trans ?_
  unfold reachBelow
  rw [Nat.pow_eq]
  split
  · rw [Nat.cast_sub (by omega)]
    push_cast
    ring
  · rw [Nat.cast_sub (by omega)]
    push_cast
    ring

theorem closed_ofMagnitude : (ofMagnitude f significand exponent).closed = false ↔
    significand % 2 = 1 := by
  simp [ofMagnitude]

end

end RoundingInterval

namespace BinaryFormat

variable {f : BinaryFormat} {bits significand n d : ℕ} {exponent : ℤ}

/-- The spacing that a number is rounded in, from the spacings of the ranges it reaches. -/
theorem spacing_eq_of_reaches (hn : n ≠ 0) (hd : d ≠ 0) (least : f.leastExponent ≤ exponent)
    (reaches : exponent = f.leastExponent ∨ (2 : ℚ) ^ (exponent + f.fractionBits) ≤ n / d)
    (below : (n : ℚ) / d < 2 ^ (exponent + f.fractionBits + 1)) :
    max (floorLog2 n d - f.fractionBits) f.leastExponent = exponent := by
  have hupper : ¬exponent + f.fractionBits + 1 ≤ floorLog2 n d := by
    rw [le_floorLog2_iff hn hd]
    exact not_le.mpr below
  rcases reaches with rfl | hreaches
  · omega
  · have hlower := (le_floorLog2_iff hn hd _).mpr hreaches
    omega

/-- A number in units of the spacing of a datum, and the fraction that is rounded for it. -/
theorem exists_units (n d : ℕ) (exponent : ℤ) : ∃ y : ℚ, (n : ℚ) / d = y * 2 ^ exponent ∧
    ∀ e, ((n * Nat.pow 2 (-e).toNat : ℕ) : ℚ) / (d * Nat.pow 2 e.toNat : ℕ) =
      y * 2 ^ (exponent - e) := by
  have hy : (n : ℚ) / d = n / d * 2 ^ (-exponent) * 2 ^ exponent := by
    rw [mul_assoc, ← zpow_add₀ two_ne_zero, neg_add_cancel, zpow_zero, mul_one]
  refine ⟨n / d * 2 ^ (-exponent), hy, fun e => ?_⟩
  have h := scaled_div two_ne_zero n d (-e)
  rw [neg_neg, Nat.cast_two] at h
  rw [h, mul_assoc, ← zpow_add₀ two_ne_zero]
  congr 2
  ring

/-- Rounding in units of a spacing gives the pattern that the spacing and the result make up. A
    carry out of the fraction needs no case of its own, since it goes into the exponent. -/
theorem nearest_eq {spacing : ℤ} (hn : n ≠ 0) (finite : bits < f.infinity)
    (hspacing : max (floorLog2 n d - f.fractionBits) f.leastExponent = spacing)
    (hround : roundHalfEven (n * Nat.pow 2 (-spacing).toNat) (d * Nat.pow 2 spacing.toNat) =
      significand)
    (pattern : (spacing - f.leastExponent).toNat * 2 ^ f.fractionBits + significand = bits) :
    f.nearest n d = bits := by
  unfold nearest
  rw [if_neg hn]
  dsimp only
  rw [hspacing, hround, Nat.pow_eq, pattern]
  exact Nat.min_eq_left finite.le

theorem scale_ne_zero (hd : d ≠ 0) (e : ℤ) : d * Nat.pow 2 e.toNat ≠ 0 :=
  Nat.mul_ne_zero hd (Nat.two_pow_pos _).ne'

/-- A number in the range of the datum is rounded in units of its spacing. -/
theorem nearest_of_reaches (h : f.IsDatum bits significand exponent) (hn : n ≠ 0) (hd : d ≠ 0)
    {y : ℚ} (hy : (n : ℚ) / d = y * 2 ^ exponent)
    (hscaled : ∀ e, ((n * Nat.pow 2 (-e).toNat : ℕ) : ℚ) / (d * Nat.pow 2 e.toNat : ℕ) =
      y * 2 ^ (exponent - e))
    (reaches : exponent = f.leastExponent ∨ (2 : ℚ) ^ f.fractionBits ≤ y)
    (low : (significand : ℚ) - 1 / 2 ≤ y) (high : y ≤ significand + 1 / 2)
    (odd : significand % 2 = 1 → (significand : ℚ) - 1 / 2 < y ∧ y < significand + 1 / 2) :
    f.nearest n d = bits := by
  have hfew : (significand : ℚ) + 1 ≤ 2 ^ f.fractionBits * 2 := by
    rw [← pow_succ]
    exact_mod_cast h.few
  refine nearest_eq hn h.finite (spacing_eq_of_reaches hn hd h.least ?_ ?_)
    (roundHalfEven_eq (scale_ne_zero hd exponent) ?_ ?_ fun hodd => ?_) h.pattern
  · refine reaches.imp_right fun hle => ?_
    rw [hy, zpow_add₀ two_ne_zero, zpow_natCast, mul_comm y]
    gcongr
  · rw [hy, zpow_add₀ two_ne_zero, zpow_add₀ two_ne_zero, zpow_natCast, zpow_one, mul_comm y,
      mul_assoc]
    gcongr
    linarith
  all_goals rw [hscaled, sub_self, zpow_zero, mul_one]
  · exact low
  · exact high
  · exact odd hodd

/-- Just below a power of two the spacing is half as wide, and the significand is carried. This is
    why the middle in front of a power of two is nearer than the one behind it. -/
theorem nearest_of_carry (h : f.IsDatum bits (2 ^ f.fractionBits) exponent) (hn : n ≠ 0)
    (hd : d ≠ 0) {y : ℚ} (hy : (n : ℚ) / d = y * 2 ^ exponent)
    (hscaled : ∀ e, ((n * Nat.pow 2 (-e).toNat : ℕ) : ℚ) / (d * Nat.pow 2 e.toNat : ℕ) =
      y * 2 ^ (exponent - e))
    (above : f.leastExponent < exponent) (low : (2 : ℚ) ^ f.fractionBits - 1 / 4 ≤ y)
    (short : y < 2 ^ f.fractionBits) : f.nearest n d = bits := by
  have hone : (1 : ℚ) ≤ 2 ^ f.fractionBits := one_le_pow₀ one_le_two
  have hspacing : max (floorLog2 n d - f.fractionBits) f.leastExponent = exponent - 1 := by
    refine spacing_eq_of_reaches hn hd (by omega) (.inr ?_) ?_
    · rw [hy, show exponent - 1 + f.fractionBits = exponent + (f.fractionBits - 1) by ring,
        zpow_add₀ two_ne_zero, mul_comm y, zpow_sub₀ two_ne_zero, zpow_natCast, zpow_one]
      gcongr
      linarith
    · rw [hy, show exponent - 1 + f.fractionBits + 1 = exponent + f.fractionBits by ring,
        zpow_add₀ two_ne_zero, zpow_natCast, mul_comm y]
      gcongr
  have hcarry : (exponent - 1 - f.leastExponent).toNat * 2 ^ f.fractionBits +
      2 * 2 ^ f.fractionBits = bits := by
    rw [← h.pattern, show (exponent - f.leastExponent).toNat =
      (exponent - 1 - f.leastExponent).toNat + 1 by omega]
    ring
  refine nearest_eq hn h.finite hspacing
    (roundHalfEven_eq (scale_ne_zero hd (exponent - 1)) ?_ ?_ fun hodd => by omega) hcarry
  all_goals
    rw [hscaled, sub_sub_cancel, zpow_one]
    push_cast
    linarith

/-- What lies between the middles around a datum rounds to it. -/
theorem nearest_of_contains (h : f.IsDatum bits significand exponent) (some : significand ≠ 0)
    (hd : d ≠ 0)
    (inside : (RoundingInterval.ofMagnitude f significand exponent).Contains (n / d)) :
    f.nearest n d = bits := by
  obtain ⟨hlow, hhigh, hinside⟩ := inside
  rw [RoundingInterval.closed_ofMagnitude] at hinside
  rw [RoundingInterval.low_ofMagnitude f exponent some] at hlow hinside
  rw [RoundingInterval.high_ofMagnitude] at hhigh hinside
  have hunit : (0 : ℚ) < 2 ^ exponent := zpow_pos two_pos _
  have hsome : (1 : ℚ) ≤ significand := Nat.one_le_cast.mpr (Nat.pos_of_ne_zero some)
  have hreach := RoundingInterval.reachBelow_le f significand exponent
  have hn : n ≠ 0 := by
    rintro rfl
    rw [Nat.cast_zero, zero_div] at hlow
    exact absurd (mul_pos (by linarith) hunit) (not_lt.mpr hlow)
  obtain ⟨y, hy, hscaled⟩ := exists_units n d exponent
  rw [hy] at hlow hhigh hinside
  simp only [mul_le_mul_iff_left₀ hunit, mul_lt_mul_iff_left₀ hunit] at hlow hhigh hinside
  by_cases hreaches : exponent = f.leastExponent ∨ (2 : ℚ) ^ f.fractionBits ≤ y
  · refine nearest_of_reaches h hn hd hy hscaled hreaches (by linarith) hhigh fun hodd => ?_
    obtain ⟨hlow, hhigh⟩ := hinside hodd
    exact ⟨by linarith, hhigh⟩
  · -- The significand is the least normal one: half a unit below any other the range goes on.
    obtain ⟨hleast, hshort⟩ := not_or.mp hreaches
    rw [not_le] at hshort
    have habove : f.leastExponent < exponent := lt_of_le_of_ne h.least (Ne.symm hleast)
    obtain rfl : significand = 2 ^ f.fractionBits := by
      by_contra hne
      have hhidden := h.normal.resolve_left hleast
      have hle : (2 : ℚ) ^ f.fractionBits + 1 ≤ significand := by
        exact_mod_cast (show 2 ^ f.fractionBits + 1 ≤ significand by omega)
      linarith
    have hquarter : RoundingInterval.reachBelow f (2 ^ f.fractionBits) exponent = 1 / 4 :=
      if_pos ⟨rfl, habove⟩
    rw [hquarter, Nat.cast_pow, Nat.cast_two] at hlow
    exact nearest_of_carry h hn hd hy hscaled habove hlow hshort

end BinaryFormat

end ShaderExpr
