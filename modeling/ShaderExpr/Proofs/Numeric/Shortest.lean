import Mathlib.Data.Nat.Cast.Order.Field
import ShaderExpr.Proofs.Numeric.Rounding

namespace ShaderExpr

/-- The number that a decimal stands for. -/
def Decimal.toRat (d : Decimal) : ℚ := d.digits * 10 ^ d.exponent

theorem lt_pow_digitCount (n : ℕ) : n < 10 ^ digitCount n := by
  unfold digitCount
  split
  · omega
  · exact (Nat.length_toDigits_le_iff (by decide)
      (List.length_pos_iff.mpr Nat.toDigits_ne_nil)).mp (Nat.le_refl _)

theorem pow_digitCount_le {n : ℕ} (h : n ≠ 0) : 10 ^ (digitCount n - 1) ≤ n := by
  by_contra hlt
  rw [not_le] at hlt
  by_cases hone : digitCount n - 1 = 0
  · rw [hone] at hlt
    omega
  · have hlength := (Nat.length_toDigits_le_iff (by decide) (Nat.pos_of_ne_zero hone)).mpr hlt
    rw [digitCount, if_neg h] at hone hlength
    omega

namespace RoundingInterval

/-- The datum lies strictly between the middles, and these are positive. -/
structure Proper (i : RoundingInterval) : Prop where
  denominator : 0 < i.denominator
  low : 0 < i.low
  below : i.low < i.value
  above : i.value < i.high

variable {i : RoundingInterval} {e : ℤ} {d : Decimal}

theorem proper_ofMagnitude (f : BinaryFormat) {significand : ℕ} (exponent : ℤ)
    (some : significand ≠ 0) : (ofMagnitude f significand exponent).Proper := by
  have hquarter : 0 < Nat.pow 2 (exponent - 2).toNat := Nat.two_pow_pos _
  refine ⟨Nat.two_pow_pos _, Nat.mul_pos ?_ hquarter, Nat.mul_lt_mul_of_pos_right ?_ hquarter,
    Nat.mul_lt_mul_of_pos_right (by omega) hquarter⟩
  all_goals split <;> omega

/-- The number at the first digit of the datum is not beyond the datum. -/
theorem pow_leadingExponent_le (h : i.Proper) :
    (10 : ℚ) ^ i.leadingExponent ≤ i.value / i.denominator := by
  have hvalue : 0 < i.value := Nat.lt_trans h.low h.below
  have hvalueQ : (0 : ℚ) < i.value := Nat.cast_pos.mpr hvalue
  have hdenominatorQ : (0 : ℚ) < i.denominator := Nat.cast_pos.mpr h.denominator
  unfold leadingExponent
  split
  · rename_i hle
    have hwhole : i.value / i.denominator ≠ 0 := (Nat.div_pos hle h.denominator).ne'
    have hcount : digitCount (i.value / i.denominator) ≠ 0 := by
      rw [digitCount, if_neg hwhole]
      exact List.length_pos_iff.mpr Nat.toDigits_ne_nil |>.ne'
    rw [show ((digitCount (i.value / i.denominator) : ℕ) : ℤ) - 1 =
      ((digitCount (i.value / i.denominator) - 1 : ℕ) : ℤ) by omega, zpow_natCast]
    calc (10 : ℚ) ^ (digitCount (i.value / i.denominator) - 1)
        ≤ (i.value / i.denominator : ℕ) := by exact_mod_cast pow_digitCount_le hwhole
      _ ≤ i.value / i.denominator := Nat.cast_div_le
  · have hceil : i.denominator ≤
        i.value * 10 ^ digitCount ((i.denominator + i.value - 1) / i.value - 1) := by
      have hup : i.denominator ≤ i.value * ((i.denominator + i.value - 1) / i.value) := by
        have hsplit := Nat.div_add_mod (i.denominator + i.value - 1) i.value
        have hrest := Nat.mod_lt (i.denominator + i.value - 1) hvalue
        omega
      refine Nat.le_trans hup (Nat.mul_le_mul_left _ ?_)
      have := lt_pow_digitCount ((i.denominator + i.value - 1) / i.value - 1)
      omega
    rw [zpow_neg, zpow_natCast, le_div_iff₀ hdenominatorQ, inv_mul_le_iff₀ (by positivity),
      mul_comm]
    exact_mod_cast hceil

section

variable {a b : ℕ} {x y scale : ℚ}

/-- Comparison with a middle, for numbers over a common scale. -/
theorem within_iff (hscale : 0 < scale) (ha : (a : ℚ) = x * scale) (hb : (b : ℚ) = y * scale) :
    i.within a b ↔ x ≤ y ∧ (i.closed = false → x < y) := by
  have hle : a ≤ b ↔ x ≤ y := by
    rw [← Nat.cast_le (α := ℚ), ha, hb]
    exact mul_le_mul_iff_left₀ hscale
  have hlt : a < b ↔ x < y := by
    rw [← Nat.cast_lt (α := ℚ), ha, hb]
    exact mul_lt_mul_iff_left₀ hscale
  unfold within
  cases i.closed
  · simpa [hlt] using le_of_lt
  · simp [hle]

theorem le_of_not_within (hscale : 0 < scale) (ha : (a : ℚ) = x * scale)
    (hb : (b : ℚ) = y * scale) (h : ¬i.within a b) : y ≤ x := by
  by_contra hlt
  exact h ((within_iff hscale ha hb).mpr ⟨(not_le.mp hlt).le, fun _ => not_le.mp hlt⟩)

end

/-- The common scale of the points of a grid and the parts of the interval. -/
theorem exists_scale (h : i.Proper) (e : ℤ) : ∃ scale : ℚ, 0 < scale ∧
    (∀ a : ℕ, ((a * Nat.pow 10 (-e).toNat : ℕ) : ℚ) = a / i.denominator * scale) ∧
    ∀ k : ℕ, ((k * (i.denominator * Nat.pow 10 e.toNat) : ℕ) : ℚ) = k * 10 ^ e * scale := by
  have hten : (10 : ℕ) ≠ 0 := by decide
  have hdenominator : (i.denominator : ℚ) ≠ 0 := Nat.cast_ne_zero.mpr h.denominator.ne'
  have hup : ((Nat.pow 10 (-e).toNat : ℕ) : ℚ) ≠ 0 :=
    Nat.cast_ne_zero.mpr (Nat.pow_pos (by decide)).ne'
  have hpower := natPow_div_natPow hten e
  rw [Nat.cast_ofNat, div_eq_iff hup] at hpower
  refine ⟨i.denominator * (Nat.pow 10 (-e).toNat : ℕ), ?_, fun a => ?_, fun k => ?_⟩
  · positivity
  · rw [Nat.cast_mul]
    field_simp
  · rw [Nat.cast_mul, Nat.cast_mul, hpower]
    ring

/-- The datum lies between the point that the search starts at and the next one. -/
theorem floor_bounds (h : i.Proper) (e : ℤ) {k : ℕ}
    (hk : i.value * Nat.pow 10 (-e).toNat / (i.denominator * Nat.pow 10 e.toNat) = k) :
    (k : ℚ) * 10 ^ e ≤ i.value / i.denominator ∧
      (i.value : ℚ) / i.denominator < (k + 1 : ℕ) * 10 ^ e := by
  obtain ⟨scale, hscale, hpart, hpoint⟩ := exists_scale h e
  have hunit : 0 < i.denominator * Nat.pow 10 e.toNat :=
    Nat.mul_pos h.denominator (Nat.pow_pos (by decide))
  have hfloor := Nat.div_mul_le_self (i.value * Nat.pow 10 (-e).toNat)
    (i.denominator * Nat.pow 10 e.toNat)
  have hnext := Nat.lt_mul_div_succ (i.value * Nat.pow 10 (-e).toNat) hunit
  rw [hk] at hfloor hnext
  rw [Nat.mul_comm (i.denominator * _)] at hnext
  rw [← Nat.cast_le (α := ℚ), hpoint, hpart] at hfloor
  rw [← Nat.cast_lt (α := ℚ), hpoint, hpart] at hnext
  exact ⟨(mul_le_mul_iff_left₀ hscale).mp hfloor, (mul_lt_mul_iff_left₀ hscale).mp hnext⟩

/-- A point that a grid offers rounds to the datum. -/
theorem contains_of_onGrid? (h : i.Proper) (hd : i.onGrid? e = some d) : i.Contains d.toRat := by
  obtain ⟨scale, hscale, hpart, hpoint⟩ := exists_scale h e
  have hdenominator : (0 : ℚ) < i.denominator := Nat.cast_pos.mpr h.denominator
  have hbelow : (i.low : ℚ) / i.denominator < i.value / i.denominator := by
    gcongr
    exact h.below
  have habove : (i.value : ℚ) / i.denominator < i.high / i.denominator := by
    gcongr
    exact h.above
  unfold onGrid? at hd
  dsimp only at hd
  generalize hk : i.value * Nat.pow 10 (-e).toNat / (i.denominator * Nat.pow 10 e.toNat) = k at hd
  obtain ⟨hfloor, hnext⟩ := floor_bounds h e hk
  split at hd
  · rename_i htakes
    obtain rfl := Option.some.inj hd
    obtain ⟨hlow, hstrict⟩ :=
      (within_iff hscale (hpart _) (hpoint _)).mp (Bool.and_eq_true_iff.mp htakes).1
    have hhigh := lt_of_le_of_lt hfloor habove
    exact ⟨hlow, hhigh.le, fun hopen => ⟨hstrict hopen, hhigh⟩⟩
  · split at hd
    · rename_i htakes
      obtain rfl := Option.some.inj hd
      obtain ⟨hhigh, hstrict⟩ := (within_iff hscale (hpoint _) (hpart _)).mp htakes
      have hlow := hbelow.trans hnext
      exact ⟨hlow.le, hhigh, fun hopen => ⟨hlow, hstrict hopen⟩⟩
    · simp at hd

/-- A grid that is finer than the middles are apart has a point between them. -/
theorem onGrid?_isSome (h : i.Proper)
    (fine : (10 : ℚ) ^ e < i.high / i.denominator - i.low / i.denominator) :
    (i.onGrid? e).isSome := by
  obtain ⟨scale, hscale, hpart, hpoint⟩ := exists_scale h e
  unfold onGrid?
  dsimp only
  generalize hk : i.value * Nat.pow 10 (-e).toNat / (i.denominator * Nat.pow 10 e.toNat) = k
  split
  · rfl
  · rename_i hbelow
    split
    · rfl
    · rename_i habove
      have hhigh := le_of_not_within hscale (hpoint _) (hpart _) habove
      have hlow := le_of_not_within hscale (hpart i.low) (hpoint k) fun hin =>
        hbelow (by rw [hin, Bool.eq_false_of_not_eq_true habove]; rfl)
      push_cast at hhigh
      linarith

end RoundingInterval

namespace BinaryFormat.IsDatum

open RoundingInterval

variable {f : BinaryFormat} {bits significand : ℕ} {exponent : ℤ}

/-- Seventeen digits tell the data of a format apart. The interval of what rounds to a datum is
    wider than the spacing of decimals with so many digits, so one of them lies in it. -/
theorem finest_grid (h : f.IsDatum bits significand exponent) (some : significand ≠ 0)
    (fractions : f.fractionBits ≤ 52) :
    (10 : ℚ) ^ ((ofMagnitude f significand exponent).leadingExponent - 16) <
      (ofMagnitude f significand exponent).high / (ofMagnitude f significand exponent).denominator -
      (ofMagnitude f significand exponent).low / (ofMagnitude f significand exponent).denominator := by
  have hlead := pow_leadingExponent_le (proper_ofMagnitude f exponent some)
  have hunit : (0 : ℚ) < 2 ^ exponent := zpow_pos two_pos _
  rw [value_ofMagnitude] at hlead
  rw [high_ofMagnitude, low_ofMagnitude f exponent some, ← sub_mul, zpow_sub₀ (by norm_num),
    div_lt_iff₀ (by positivity)]
  refine lt_of_le_of_lt hlead ?_
  rw [mul_right_comm]
  gcongr
  have hhidden : (2 : ℚ) ^ f.fractionBits ≤ 2 ^ 52 := pow_le_pow_right₀ one_le_two fractions
  have hfew : (significand : ℚ) < 2 ^ f.fractionBits * 2 := by
    rw [← pow_succ]
    exact_mod_cast h.few
  unfold reachBelow
  norm_num at hhidden ⊢
  split
  · rename_i hpower
    rw [hpower.1]
    push_cast
    linarith
  · linarith

/-- The digits that are found for a datum round to it. One of seventeen grids always has a point
    between the middles around the datum, as the finest is finer than they are apart. -/
theorem contains_shortest (h : f.IsDatum bits significand exponent) (some : significand ≠ 0)
    (fractions : f.fractionBits ≤ 52) :
    (ofMagnitude f significand exponent).Contains
      (ofMagnitude f significand exponent).shortest.toRat := by
  have hproper := proper_ofMagnitude f exponent some
  have hfine := onGrid?_isSome hproper (h.finest_grid some fractions)
  generalize ofMagnitude f significand exponent = i at hproper hfine
  obtain ⟨d, hd⟩ : ∃ d, ((List.range 17).map fun (n : Nat) => i.leadingExponent - n).findSome?
      i.onGrid? = Option.some d := by
    rw [← Option.isSome_iff_exists, List.findSome?_isSome_iff]
    exact ⟨_, List.mem_map.mpr ⟨16, by decide, rfl⟩, hfine⟩
  obtain ⟨e, -, hgrid⟩ := List.exists_of_findSome?_eq_some hd
  rw [shortest, hd, Option.getD_some]
  exact contains_of_onGrid? hproper hgrid

end BinaryFormat.IsDatum

end ShaderExpr
