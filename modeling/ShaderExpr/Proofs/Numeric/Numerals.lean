import ShaderExpr.Proofs.Lexing.Forms
import ShaderExpr.Proofs.Numeric.Shortest
import ShaderExpr.Proofs.Printing.Literals

namespace ShaderExpr

theorem decimalValue_append (digits more : List Char) :
    decimalValue (digits ++ more) = decimalValue digits * 10 ^ more.length + decimalValue more := by
  have hfrom (n : ℕ) : more.foldl (fun n c => 10 * n + (c.toNat - '0'.toNat)) n =
      n * 10 ^ more.length + decimalValue more := by
    unfold decimalValue
    induction more generalizing n with
    | nil => simp
    | cons c more ih =>
      rw [List.foldl_cons, List.foldl_cons, ih, ih (10 * 0 + _), List.length_cons, pow_succ]
      ring
  rw [decimalValue, List.foldl_append]
  exact hfrom _

theorem decimalValue_zeros (n : ℕ) : decimalValue (List.replicate n '0') = 0 := by
  induction n with
  | zero => rfl
  | succ n ih =>
    rw [List.replicate_succ', decimalValue_append, ih]
    rfl

theorem decimalValue_toDigits (n : ℕ) : decimalValue (Nat.toDigits 10 n) = n :=
  Nat.ofDigitChars_ten_toDigits

/-- An integer in its digits, as an exponent is written. -/
theorem exponent_toString (n : ℤ) : Literal.Exponent ('e' :: (toString n).toList) n := by
  have hmark : Literal.isExponentMark 'e' := by decide
  rw [Int.toString_eq_repr, Int.repr_eq_if]
  by_cases h : 0 ≤ n
  · have hexponent := Literal.Exponent.positive hmark (.inl rfl) (Nat.toDigits_ne_nil (n := n.toNat))
      isDecimalDigit_of_mem_toDigits
    rw [decimalValue_toDigits, Int.toNat_of_nonneg h] at hexponent
    rw [if_pos h, Nat.toList_repr]
    exact hexponent
  · have hexponent := Literal.Exponent.negative hmark (Nat.toDigits_ne_nil (n := (-n).toNat))
      isDecimalDigit_of_mem_toDigits
    rw [decimalValue_toDigits, Int.toNat_of_nonneg (by omega), neg_neg] at hexponent
    rw [if_neg h, String.toList_append, Nat.toList_repr]
    exact hexponent

namespace Decimal

variable {d : Decimal}

/-- A point among digits splits off a fraction. -/
theorem toRat_fraction (whole fraction : List Char) :
    toRat ⟨decimalValue (whole ++ fraction), -fraction.length⟩ =
      decimalValue whole + decimalValue fraction / 10 ^ fraction.length := by
  rw [toRat, decimalValue_append, zpow_neg, zpow_natCast]
  push_cast
  field_simp

/-- The significant digits, and where the point is among them. -/
theorem significant_spec (h : d.digits ≠ 0) : d.significant.1 ≠ [] ∧
    (decimalValue d.significant.1 : ℚ) * 10 ^ (d.significant.2 - d.significant.1.length) =
      d.toRat := by
  have hzeros : (Nat.toDigits 10 d.digits).reverse.takeWhile (· = '0') =
      List.replicate ((Nat.toDigits 10 d.digits).reverse.takeWhile (· = '0')).length '0' := by
    refine List.eq_replicate_of_mem fun c hc => ?_
    simpa using List.all_eq_true.mp List.all_takeWhile c hc
  have hsplit : Nat.toDigits 10 d.digits = d.significant.1 ++
      List.replicate ((Nat.toDigits 10 d.digits).reverse.takeWhile (· = '0')).length '0' := by
    have hparts := congrArg List.reverse
      (List.takeWhile_append_dropWhile (p := (· = '0')) (l := (Nat.toDigits 10 d.digits).reverse))
    rw [List.reverse_append, List.reverse_reverse, hzeros, List.reverse_replicate] at hparts
    exact hparts.symm
  have hpoint : d.significant.2 = (Nat.toDigits 10 d.digits).length + d.exponent := rfl
  generalize ((Nat.toDigits 10 d.digits).reverse.takeWhile (· = '0')).length = zeros at hsplit
  have hvalue : d.digits = decimalValue d.significant.1 * 10 ^ zeros := by
    have hdigits := decimalValue_toDigits d.digits
    rw [hsplit, decimalValue_append, decimalValue_zeros, List.length_replicate] at hdigits
    exact hdigits.symm
  constructor
  · intro hnone
    rw [hnone, show decimalValue [] = 0 from rfl, Nat.zero_mul] at hvalue
    exact h hvalue
  · rw [hpoint, hsplit, List.length_append, List.length_replicate, toRat, hvalue]
    push_cast
    rw [mul_assoc, ← zpow_natCast, ← zpow_add₀ (by norm_num)]
    congr 2
    ring

/-- A zero that stands for missing digits on one side of the point. -/
def orZero (cs : List Char) : List Char := if cs.isEmpty then ['0'] else cs

theorem orZero_spec (cs : List Char) (h : ∀ c ∈ cs, isDecimalDigit c) :
    orZero cs ≠ [] ∧ (∀ c ∈ orZero cs, isDecimalDigit c) ∧
      decimalValue (orZero cs) = decimalValue cs ∧
      (decimalValue (orZero cs) : ℚ) / 10 ^ (orZero cs).length =
        decimalValue cs / 10 ^ cs.length := by
  cases cs with
  | nil => exact ⟨by simp [orZero], List.all_eq_true.mp (by decide), rfl, by simp [orZero, decimalValue]⟩
  | cons c cs => exact ⟨by simp [orZero], h, rfl, rfl⟩

/-- Digits around the point, with zeros where there are none. -/
theorem positional_value (digits : List Char) (point : ℤ) :
    (decimalValue (digits.take point.toNat ++
        List.replicate (point.toNat - digits.length) '0') : ℚ) +
      decimalValue (List.replicate (-point).toNat '0' ++ digits.drop point.toNat) /
        10 ^ (List.replicate (-point).toNat '0' ++ digits.drop point.toNat).length =
      decimalValue digits * 10 ^ (point - digits.length) := by
  rw [decimalValue_append, decimalValue_append, decimalValue_zeros, decimalValue_zeros,
    List.length_append, List.length_replicate, List.length_replicate, List.length_drop,
    Nat.zero_mul, Nat.zero_add, Nat.add_zero]
  have hten : (10 : ℚ) ≠ 0 := by norm_num
  by_cases hlow : point ≤ 0
  · rw [Int.toNat_of_nonpos hlow, List.take_zero, List.drop_zero,
      show point - digits.length = -(((-point).toNat + (digits.length - 0) : ℕ) : ℤ) by omega,
      zpow_neg, zpow_natCast]
    simp [decimalValue, div_eq_mul_inv]
  · by_cases hhigh : point.toNat ≤ digits.length
    · have hsplit : decimalValue digits = decimalValue (digits.take point.toNat) *
          10 ^ (digits.length - point.toNat) + decimalValue (digits.drop point.toNat) := by
        rw [← List.length_drop, ← decimalValue_append, List.take_append_drop]
      rw [show point - digits.length = -((digits.length - point.toNat : ℕ) : ℤ) by omega,
        zpow_neg, zpow_natCast, hsplit, show (-point).toNat = 0 by omega,
        Nat.sub_eq_zero_of_le hhigh]
      push_cast
      field_simp
      ring
    · rw [List.take_of_length_le (by omega), List.drop_of_length_le (by omega),
        show point - digits.length = ((point.toNat - digits.length : ℕ) : ℤ) by omega, zpow_natCast]
      simp [decimalValue]

/-- Digits around the point are a numeral. -/
theorem positional_floatBody {digits : List Char} (all : ∀ c ∈ digits, isDecimalDigit c)
    (point : ℤ) : ∃ value,
      Literal.FloatBody (orZero (digits.take point.toNat ++
          List.replicate (point.toNat - digits.length) '0') ++
        '.' :: orZero (List.replicate (-point).toNat '0' ++ digits.drop point.toNat)) value ∧
      value.toRat = decimalValue digits * 10 ^ (point - digits.length) := by
  have hzeros (n : ℕ) : ∀ c ∈ List.replicate n '0', isDecimalDigit c := by
    intro c hc
    rw [List.eq_of_mem_replicate hc]
    decide
  obtain ⟨hany, hwhole, hwholeValue, -⟩ := orZero_spec
    (digits.take point.toNat ++ List.replicate (point.toNat - digits.length) '0') fun c hc =>
      (List.mem_append.mp hc).elim (fun hc => all c (List.mem_of_mem_take hc)) (hzeros _ c)
  obtain ⟨-, hfraction, -, hfractionValue⟩ := orZero_spec
    (List.replicate (-point).toNat '0' ++ digits.drop point.toNat) fun c hc =>
      (List.mem_append.mp hc).elim (hzeros _ c) fun hc => all c (List.mem_of_mem_drop hc)
  refine ⟨_, .fraction hwhole hfraction (.inl hany), ?_⟩
  rw [toRat_fraction, hwholeValue, hfractionValue, positional_value]

/-- Digits with a point behind the first of them, if there are more, and an exponent are a
    numeral. -/
theorem scientific_floatBody {c : Char} {rest : List Char}
    (all : ∀ d ∈ c :: rest, isDecimalDigit d) (lead : ℤ) : ∃ value,
      Literal.FloatBody (([c] ++ if rest.isEmpty then [] else '.' :: rest) ++
        'e' :: (toString lead).toList) value ∧
      value.toRat = decimalValue (c :: rest) * 10 ^ (lead - rest.length) := by
  have hexponent := exponent_toString lead
  have hfirst : ∀ d ∈ [c], isDecimalDigit d := by simpa using all c List.mem_cons_self
  have hrest : ∀ d ∈ rest, isDecimalDigit d := fun d hd => all d (List.mem_cons_of_mem _ hd)
  cases rest with
  | nil =>
    refine ⟨_, .whole hfirst (by simp) hexponent, ?_⟩
    rw [toRat]
    simp
  | cons d rest => exact ⟨_, .scaled hfirst hrest (.inl (by simp)) hexponent, rfl⟩

/-- The text of a decimal other than zero is a numeral of the same number. -/
theorem text_floatBody (style : NumeralStyle) (h : d.digits ≠ 0) :
    ∃ value, Literal.FloatBody (d.text style).toList value ∧ value.toRat = d.toRat := by
  obtain ⟨hsome, hvalue⟩ := significant_spec h
  have hdigits := isDecimalDigit_of_mem_significant (d := d)
  unfold text
  dsimp only
  generalize d.significant = parts at hsome hvalue hdigits ⊢
  obtain ⟨digits, point⟩ := parts
  dsimp only at hsome hvalue hdigits ⊢
  rw [← hvalue]
  split
  · rw [String.toList_ofList]
    exact positional_floatBody hdigits point
  · obtain ⟨c, rest, rfl⟩ := List.exists_cons_of_ne_nil hsome
    have htext : (String.ofList ((c :: rest).take 1 ++
        if (List.drop 1 (c :: rest)).isEmpty then [] else '.' :: List.drop 1 (c :: rest)) ++ "e" ++
        toString (point - 1)).toList =
        ([c] ++ if rest.isEmpty then [] else '.' :: rest) ++
          'e' :: (toString (point - 1)).toList := by
      simp [String.toList_append]
    have hlead : point - ((c :: rest).length : ℤ) = point - 1 - rest.length := by
      rw [List.length_cons]
      omega
    rw [htext, hlead]
    exact scientific_floatBody hdigits (point - 1)

theorem toBits_le (f : BinaryFormat) (d : Decimal) : d.toBits f ≤ f.infinity := by
  unfold toBits
  dsimp only
  split
  · exact Nat.zero_le _
  · split
    · exact Nat.le_refl _
    · split
      · exact Nat.zero_le _
      · exact f.nearest_le _ _

theorem digits_ne_zero (h : 0 < d.toRat) : d.digits ≠ 0 := by
  intro hzero
  rw [toRat, hzero, Nat.cast_zero, zero_mul] at h
  exact lt_irrefl _ h

/-- A decimal that is not too large has no exponent that is. -/
theorem exponent_le (some : d.digits ≠ 0) (high : d.toRat < 10 ^ 400) : ¬400 < d.exponent := by
  intro hlarge
  have hsome : (1 : ℚ) ≤ d.digits := Nat.one_le_cast.mpr (Nat.pos_of_ne_zero some)
  have hpower : (10 : ℚ) ^ 400 ≤ 10 ^ d.exponent := by
    rw [← zpow_natCast]
    exact zpow_le_zpow_right₀ (by norm_num) (by omega)
  have hscaled := mul_le_mul hsome hpower (by positivity) (by positivity)
  rw [one_mul] at hscaled
  exact absurd high (not_lt.mpr hscaled)

/-- A decimal that is not too small has digits enough for its exponent. -/
theorem log2_digits_ge (low : (2 : ℚ) ^ (-1100 : ℤ) < d.toRat) :
    ¬d.digits.log2 + 1200 < 3 * (-d.exponent).toNat := by
  intro hsmall
  have hnegative : d.exponent = -((-d.exponent).toNat : ℤ) := by omega
  have hbits : (d.digits : ℚ) < 2 ^ (d.digits.log2 + 1) := by
    exact_mod_cast Nat.lt_log2_self (n := d.digits)
  have hpower : (2 : ℚ) ^ (3 * (-d.exponent).toNat) ≤ 10 ^ (-d.exponent).toNat := by
    rw [pow_mul]
    exact pow_le_pow_left₀ (by norm_num) (by norm_num) _
  have hwide : (2 : ℚ) ^ (d.digits.log2 + 1 + 1100) ≤ 2 ^ (3 * (-d.exponent).toNat) :=
    pow_le_pow_right₀ one_le_two (by omega)
  have hscale : (0 : ℚ) < 10 ^ (-d.exponent).toNat := by positivity
  rw [toRat, hnegative, zpow_neg, zpow_ofNat, zpow_neg, zpow_natCast, ← div_eq_mul_inv,
    lt_div_iff₀ hscale, inv_mul_lt_iff₀ (by positivity)] at low
  have hbeyond : (2 : ℚ) ^ (d.digits.log2 + 1 + 1100) ≤ 2 ^ 1100 * d.digits :=
    hwide.trans (hpower.trans (by exact_mod_cast low.le))
  rw [pow_add, mul_comm] at hbeyond
  exact absurd ((mul_le_mul_iff_right₀ (by positivity)).mp hbeyond) (not_le.mpr hbits)

/-- A decimal between the middles around a datum rounds to it. The widths of the format keep it off
    the very small and the very large decimals, which are not rounded. -/
theorem toBits_eq (f : BinaryFormat) (low : (2 : ℚ) ^ (-1100 : ℤ) < d.toRat)
    (high : d.toRat < 10 ^ 400) : ∃ n m : ℕ, m ≠ 0 ∧ (n : ℚ) / m = d.toRat ∧
      d.toBits f = f.nearest n m := by
  have hdigits := digits_ne_zero (lt_trans (zpow_pos two_pos _) low)
  have hratio := scaled_div (show (10 : ℕ) ≠ 0 by decide) d.digits 1 d.exponent
  rw [Nat.one_mul, Nat.cast_one, div_one, Nat.cast_ofNat] at hratio
  refine ⟨_, _, (Nat.pow_pos (by decide)).ne', hratio, ?_⟩
  unfold toBits
  dsimp only
  rw [if_neg hdigits, if_neg (exponent_le hdigits high), if_neg (log2_digits_ge low)]
  rfl

end Decimal

namespace BinaryFormat.IsDatum

variable {f : BinaryFormat} {bits significand : ℕ} {exponent : ℤ} {d : Decimal}

/-- A format that is no wider than the double one has no exponents beyond its. -/
theorem exponent_bounds (h : f.IsDatum bits significand exponent) (fractions : f.fractionBits ≤ 52)
    (exponents : f.exponentBits ≤ 11) :
    -1074 ≤ exponent ∧ exponent ≤ 1024 - (f.fractionBits : ℤ) := by
  have hwidth : 2 ^ f.exponentBits ≤ 2 * 2 ^ (f.exponentBits - 1) := by
    rw [← Nat.pow_succ']
    exact Nat.pow_le_pow_right (by decide) (by omega)
  have hhalf : 2 ^ (f.exponentBits - 1) ≤ 2 ^ 10 := Nat.pow_le_pow_right (by decide) (by omega)
  have hleast : f.leastExponent = 2 - ((2 ^ (f.exponentBits - 1) : ℕ) : ℤ) - f.fractionBits := rfl
  have hgreatest : (exponent - f.leastExponent).toNat < 2 ^ f.exponentBits - 1 := by
    have hpattern : (exponent - f.leastExponent).toNat * 2 ^ f.fractionBits <
        (2 ^ f.exponentBits - 1) * 2 ^ f.fractionBits :=
      lt_of_le_of_lt (Nat.le_add_right _ significand) (h.pattern.symm ▸ h.finite)
    exact Nat.lt_of_mul_lt_mul_right hpattern
  have hexponent := h.least
  generalize 2 ^ (f.exponentBits - 1) = half at hwidth hhalf hleast
  generalize 2 ^ f.exponentBits = full at hwidth hgreatest
  omega

/-- What rounds to a datum is far from what is answered without rounding. The exponents of both
    formats stay well inside of this range. -/
theorem bounds (h : f.IsDatum bits significand exponent) (some : significand ≠ 0)
    (fractions : f.fractionBits ≤ 52) (exponents : f.exponentBits ≤ 11) {x : ℚ}
    (inside : (RoundingInterval.ofMagnitude f significand exponent).Contains x) :
    (2 : ℚ) ^ (-1100 : ℤ) < x ∧ x < 10 ^ 400 := by
  obtain ⟨hleast, hgreatest⟩ := h.exponent_bounds fractions exponents
  have hlow := inside.low
  have hhigh := inside.high
  rw [RoundingInterval.low_ofMagnitude f exponent some] at hlow
  rw [RoundingInterval.high_ofMagnitude] at hhigh
  constructor
  · have hunit : (2 : ℚ) ^ (-1074 : ℤ) ≤ 2 ^ exponent := zpow_le_zpow_right₀ one_le_two hleast
    have hsome : (1 : ℚ) ≤ significand := Nat.one_le_cast.mpr (Nat.pos_of_ne_zero some)
    have hreach := RoundingInterval.reachBelow_le f significand exponent
    have hbelow : (2 : ℚ) ^ (-1100 : ℤ) < 1 / 2 * 2 ^ (-1074 : ℤ) := by
      rw [one_div, ← zpow_neg_one, ← zpow_add₀ two_ne_zero]
      exact zpow_lt_zpow_right₀ one_lt_two (by norm_num)
    calc (2 : ℚ) ^ (-1100 : ℤ) < 1 / 2 * 2 ^ (-1074 : ℤ) := hbelow
      _ ≤ (significand - RoundingInterval.reachBelow f significand exponent) * 2 ^ exponent :=
        mul_le_mul (by linarith) hunit (by positivity) (by linarith)
      _ ≤ x := hlow
  · have hunit : (2 : ℚ) ^ exponent ≤ 2 ^ (1024 - f.fractionBits : ℤ) :=
      zpow_le_zpow_right₀ one_le_two hgreatest
    have hfew : (significand : ℚ) + 1 ≤ 2 ^ (f.fractionBits + 1) := by exact_mod_cast h.few
    have habove : (2 : ℚ) ^ (1025 : ℤ) < 10 ^ 400 := by
      have height : (2 : ℚ) ^ (3 * 400) < 10 ^ 400 := by
        rw [pow_mul]
        exact pow_lt_pow_left₀ (by norm_num) (by norm_num) (by decide)
      rw [zpow_ofNat]
      exact (pow_lt_pow_right₀ one_lt_two (by decide)).trans height
    calc x ≤ (significand + 1 / 2) * 2 ^ exponent := hhigh
      _ ≤ 2 ^ (f.fractionBits + 1) * 2 ^ (1024 - f.fractionBits : ℤ) :=
        mul_le_mul (by linarith) hunit (by positivity) (by positivity)
      _ = 2 ^ (1025 : ℤ) := by
        rw [← zpow_natCast, ← zpow_add₀ two_ne_zero,
          show ((f.fractionBits + 1 : ℕ) : ℤ) + (1024 - f.fractionBits) = 1025 by omega]
      _ < 10 ^ 400 := habove

/-- A decimal between the middles around a datum rounds to it. -/
theorem toBits_eq (h : f.IsDatum bits significand exponent) (some : significand ≠ 0)
    (fractions : f.fractionBits ≤ 52) (exponents : f.exponentBits ≤ 11)
    (inside : (RoundingInterval.ofMagnitude f significand exponent).Contains d.toRat) :
    d.toBits f = bits := by
  obtain ⟨hlow, hhigh⟩ := h.bounds some fractions exponents inside
  obtain ⟨n, m, hm, hratio, hbits⟩ := Decimal.toBits_eq f hlow hhigh
  rw [hbits]
  exact nearest_of_contains h some hm (hratio ▸ inside)

end BinaryFormat.IsDatum

/-- The text of a finite number without a sign is read as a decimal that rounds back to it.
    Seventeen digits suffice for a format no larger than binary64, which is why its widths are
    bounded. -/
theorem BinaryFormat.read_text {f : BinaryFormat} (style : NumeralStyle) {bits significand : ℕ}
    {exponent : ℤ} (fractions : f.fractionBits ≤ 52) (exponents : f.exponentBits ≤ 11)
    (unsigned : bits < f.signBit) (finite : f.magnitude bits = .finite significand exponent) :
    (Decimal.read? (f.text style bits).toList).map (Decimal.toBits f) = some bits := by
  have hdatum := isDatum_of_magnitude unsigned finite
  have hsign : f.isNegative bits = false := by
    rw [isNegative, Nat.div_eq_of_lt unsigned]
    rfl
  rw [text, hsign, finite]
  dsimp only
  by_cases hzero : significand = 0
  · subst hzero
    have hbits : bits = 0 := by
      have hpattern := hdatum.pattern
      rcases hdatum.normal with hleast | hnormal
      · rw [hleast] at hpattern
        simpa using hpattern.symm
      · exact absurd (Nat.two_pow_pos f.fractionBits) (by omega)
    have hread : Decimal.read? "0.0".toList = some ⟨0, -1⟩ := by decide
    rw [if_pos rfl, if_neg Bool.false_ne_true, String.empty_append, hread, hbits]
    rfl
  · rw [if_neg hzero]
    have hcontains := hdatum.contains_shortest hzero fractions
    have hdigits := Decimal.digits_ne_zero
      (lt_trans (zpow_pos two_pos _) (hdatum.bounds hzero fractions exponents hcontains).1)
    obtain ⟨value, hbody, hvalue⟩ := Decimal.text_floatBody style hdigits
    rw [if_neg Bool.false_ne_true, String.empty_append, hbody.read, Option.map_some,
      hdatum.toBits_eq hzero fractions exponents (hvalue ▸ hcontains)]

theorem BinaryFormat.lt_signBit {f : BinaryFormat} {bits : ℕ} (h : f.isNegative bits = false)
    (bound : bits < 2 * f.signBit) : bits < f.signBit := by
  have hpos : 0 < f.signBit := Nat.two_pow_pos _
  have hquotient : bits / f.signBit % 2 ≠ 1 := beq_eq_false_iff_ne.mp h
  have hsmall : bits / f.signBit < 2 := Nat.div_lt_of_lt_mul (Nat.mul_comm _ _ ▸ bound)
  rw [← Nat.div_eq_zero_iff_lt hpos]
  generalize bits / f.signBit = quotient at hquotient hsmall
  omega

/-- Every number that can be a literal is read back from its text: the shortest decimal of a finite
    number without a sign rounds back to it. -/
theorem Scalar.readsBack {x : Scalar} (plain : x.IsPlain) : x.ReadsBack := by
  cases x with
  | float x =>
    obtain ⟨hsign, significand, exponent, hfinite⟩ := plain
    exact BinaryFormat.read_text _ (by decide) (by decide)
      (BinaryFormat.lt_signBit hsign x.bits.toNat_lt) hfinite
  | double x =>
    obtain ⟨hsign, significand, exponent, hfinite⟩ := plain
    exact BinaryFormat.read_text _ (by decide) (by decide)
      (BinaryFormat.lt_signBit hsign x.bits.toNat_lt) hfinite
  | int | uint | bool => trivial

end ShaderExpr
