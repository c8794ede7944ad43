import ShaderExpr.Proofs.Lexing.Forms
import ShaderExpr.Proofs.Printing.Splitting

namespace ShaderExpr

theorem isDecimalDigit_of_isDigit {c : Char} (h : c.isDigit) : isDecimalDigit c := by
  simp only [Char.isDigit, Bool.and_eq_true, decide_eq_true_eq] at h
  simp only [isDecimalDigit, Bool.and_eq_true, decide_eq_true_eq, Char.le_def]
  exact h

theorem isDecimalDigit_of_mem_toDigits {n : Nat} : ∀ c ∈ Nat.toDigits 10 n, isDecimalDigit c :=
  fun _ hc => isDecimalDigit_of_isDigit (Nat.isDigit_of_mem_toDigits (by decide) (by decide) hc)

/-- Only zero itself starts with a zero. -/
theorem head?_toDigits {n : Nat} (h : (Nat.toDigits 10 n).head? = some '0') :
    Nat.toDigits 10 n = ['0'] := by
  induction n using Nat.base_induction 10 (by decide) with
  | single m hm =>
    rw [Nat.toDigits_of_lt_base hm] at h ⊢
    simpa using h
  | digit m k hk hm ih =>
    rw [← Nat.toDigits_append_toDigits (by decide) hm hk, List.head?_append] at h
    cases hd : (Nat.toDigits 10 m).head? with
    | none => exact absurd (List.head?_eq_none_iff.mp hd) Nat.toDigits_ne_nil
    | some c =>
      rw [hd] at h
      have hzero := ih (hd.trans h)
      have hvalue := Nat.ofDigitChars_ten_toDigits (n := m)
      rw [hzero] at hvalue
      simp [Nat.ofDigitChars] at hvalue
      omega

theorem isWhiteSpace_of_isDecimalDigit {c : Char} (h : isDecimalDigit c) :
    isWhiteSpace c = false := by
  simp only [isDecimalDigit, Bool.and_eq_true, decide_eq_true_eq, Char.le_def] at h
  obtain ⟨hlow, hhigh⟩ := h
  have hlow : 48 ≤ c.toNat := hlow
  have hhigh : c.toNat ≤ 57 := hhigh
  simp [isWhiteSpace, whiteSpace, CodeRange.contains]
  omega

/-- The text goes on with something that can stand behind an expression. -/
def EndsExpression (rest : List Char) : Prop :=
  ∀ c ∈ rest.head?, c = ' ' ∨ c = ')' ∨ c = ',' ∨ c = '.'

theorem EndsExpression.endsWord {rest : List Char} (h : EndsExpression rest) : EndsWord rest := by
  intro c hc
  rcases h c hc with rfl | rfl | rfl | rfl <;> decide

namespace Literal

theorem takeWhile_digits {digits rest : List Char} (hdigits : ∀ d ∈ digits, isDecimalDigit d)
    (hrest : ∀ c ∈ rest.head?, isDecimalDigit c = false) :
    (digits ++ rest).takeWhile isDecimalDigit = digits := by
  rw [List.takeWhile_append_of_pos hdigits]
  cases rest with
  | nil => simp
  | cons c rest => simp [hrest c (by simp)]

theorem endsBefore_of_endsExpression {rest : List Char} (h : EndsExpression rest) :
    endsBefore rest := by
  cases rest with
  | nil => rfl
  | cons c rest => rcases h c (by simp) with rfl | rfl | rfl | rfl <;> rfl

/-- Digits that no point and no exponent follows are no floating-point number. -/
theorem float?_digits {digits rest : List Char} (hdigits : ∀ d ∈ digits, isDecimalDigit d)
    (hrest : ∀ c ∈ rest.head?, isDecimalDigit c = false ∧ c ≠ '.' ∧ isExponentMark c = false) :
    float? (digits ++ rest) = none := by
  have hsize : floatSize (digits ++ rest) = 0 := by
    have hexponent : exponentSize rest = 0 := by
      cases rest with
      | nil => rfl
      | cons c rest => simp [exponentSize, (hrest c (by simp)).2.2]
    rw [floatSize_whole hdigits (digitRun_eq_zero fun c hc => (hrest c hc).1)
      fun hpoint => (hrest '.' hpoint).2.1 rfl, if_pos (.inr hexponent)]
  simp [float?, hsize]

/-- Digits without a leading zero are a decimal number up to the first other character. With one
    they would be octal. -/
theorem integerBody_digits {digits rest : List Char} (hdigits : ∀ d ∈ digits, isDecimalDigit d)
    (hzero : digits.head? = some '0' → digits = ['0'])
    (hrest : ∀ c ∈ rest.head?, isDecimalDigit c = false ∧ c ≠ 'x' ∧ c ≠ 'X') :
    integerBody (digits ++ rest) = (.decimal, digits, 0) := by
  have htake := takeWhile_digits hdigits fun c hc => (hrest c hc).1
  have hplain : ∀ d more, digits ≠ '0' :: d :: more := by
    rintro d more rfl
    simpa using hzero rfl
  have hhex : ∀ x more, digits ++ rest = '0' :: x :: more → x ≠ 'x' ∧ x ≠ 'X' := by
    intro x more heq
    cases digits with
    | nil =>
      obtain ⟨hno, -⟩ := hrest '0' (by simp [show rest = '0' :: x :: more from heq])
      exact absurd hno (by decide)
    | cons d digits =>
      obtain ⟨rfl, htail⟩ := List.cons.inj heq
      obtain rfl : digits = [] := by simpa using hzero rfl
      exact (hrest x (by simp [show rest = x :: more from htail])).2
  unfold integerBody
  rw [htake]
  split
  · rename_i x more heq
    obtain ⟨hx, hX⟩ := hhex x more heq
    simp [hx, hX]
  · simp

theorem digitsValue_decimal {digits : List Char} (hdigits : ∀ d ∈ digits, isDecimalDigit d) :
    digitsValue .decimal digits = Nat.ofDigitChars 10 digits 0 := by
  have hfold (n : Nat) : digits.foldl (fun n c => Radix.decimal.base * n + digitValue c) n =
      Nat.ofDigitChars 10 digits n := by
    induction digits generalizing n with
    | nil => rfl
    | cons d digits ih =>
      rw [List.foldl_cons, Nat.ofDigitChars_cons, ih fun e he => hdigits e (by simp [he])]
      simp [digitValue, hdigits d (by simp), Radix.base]
  exact hfold 0

/-- A number in its decimal digits is read as itself. What follows must not go on with the number:
    no digit, and no mark of a hexadecimal number behind a zero. -/
theorem integer?_toDigits {n : Nat} (hn : n < 0x100000000) {rest : List Char} {suffix : Nat}
    (hrest : ∀ c ∈ rest.head?, isDecimalDigit c = false ∧ c ≠ 'x' ∧ c ≠ 'X')
    (hsuffix : unsignedSuffix rest = suffix) (hends : endsBefore (rest.drop suffix)) :
    integer? (Nat.toDigits 10 n ++ rest) =
      some (if 0 < suffix then .uint (UInt32.ofNat n) else .int (UInt32.ofNat n).toInt32, none,
        (Nat.toDigits 10 n).length + suffix) := by
  have hdigits := isDecimalDigit_of_mem_toDigits (n := n)
  have hbody := integerBody_digits hdigits head?_toDigits hrest
  have hsize : integerSize (Nat.toDigits 10 n ++ rest) = (Nat.toDigits 10 n).length + suffix := by
    unfold integerSize
    rw [hbody]
    simp [hsuffix]
  have hword : integerWord .decimal (Nat.toDigits 10 n) = (UInt32.ofNat n, none) := by
    unfold integerWord
    rw [digitsValue_decimal hdigits, Nat.ofDigitChars_ten_toDigits]
    simp [hn]
  unfold integer?
  rw [hbody, hsize]
  simp only [hword, Nat.zero_add]
  rw [if_neg]
  · simp
  · rw [← List.drop_drop, List.drop_left, hends]
    simp [Nat.toDigits_ne_nil]

/-- Digits, then a fraction or an exponent or both: what the text of a finite float looks like. -/
structure IsNumeral (text : List Char) : Prop where
  parts : ∃ whole fraction exponent, text = whole ++ fraction ++ exponent ∧
    whole ≠ [] ∧ (∀ d ∈ whole, isDecimalDigit d) ∧
    (fraction = [] ∨ ∃ digits, fraction = '.' :: digits ∧ ∀ d ∈ digits, isDecimalDigit d) ∧
    (exponent = [] ∨ ∃ sign digits, exponent = 'e' :: (sign ++ digits) ∧ (sign = [] ∨ sign = ['-']) ∧
      digits ≠ [] ∧ ∀ d ∈ digits, isDecimalDigit d) ∧
    (fraction = [] → exponent ≠ [])

/-- The text goes on with something that is no part of a numeral: neither a digit nor the mark of an
    exponent. -/
def EndsNumeral (rest : List Char) : Prop :=
  ∀ c ∈ rest.head?, isDecimalDigit c = false ∧ isExponentMark c = false

theorem IsNumeral.floatBody {text : List Char} (h : IsNumeral text) :
    ∃ value, FloatBody text value := by
  obtain ⟨whole, fraction, exponent, rfl, hsome, hwhole, hfraction, hexponent, hlong⟩ := h.parts
  have hscale : exponent ≠ [] → ∃ e, Exponent exponent e := by
    intro hany
    obtain ⟨sign, digits, rfl, hsign, hdigits, hall⟩ := hexponent.resolve_left hany
    have hmark : isExponentMark 'e' := by decide
    rcases hsign with rfl | rfl
    · exact ⟨_, .positive hmark (.inl rfl) hdigits hall⟩
    · exact ⟨_, .negative hmark hdigits hall⟩
  by_cases hnone : exponent = []
  · subst hnone
    obtain ⟨digits, rfl, hdigits⟩ := hfraction.resolve_left fun h => hlong h rfl
    rw [List.append_nil]
    exact ⟨_, .fraction hwhole hdigits (.inl hsome)⟩
  · obtain ⟨e, hscale⟩ := hscale hnone
    rcases hfraction with rfl | ⟨digits, rfl, hdigits⟩
    · rw [List.append_nil]
      exact ⟨_, .whole hwhole hsome hscale⟩
    · rw [List.append_assoc, List.cons_append]
      exact ⟨_, .scaled hwhole hdigits (.inl hsome) hscale⟩

/-- What is left of a numeral's reading once its size is known. -/
theorem float?_append {text rest : List Char} {d : Decimal} (h : IsNumeral text)
    (hrest : EndsNumeral rest) (hread : Decimal.read? text = some d) :
    float? (text ++ rest) = some (if (floatSuffix rest).2 then
        .double ⟨UInt64.ofNat (d.toBits .double)⟩ else .float ⟨UInt32.ofNat (d.toBits .single)⟩,
      text.length + (floatSuffix rest).1) := by
  obtain ⟨value, hbody⟩ := h.floatBody
  have hsize : floatSize (text ++ rest) = text.length := by
    obtain ⟨more, hsize, hmore⟩ := floatSize_append hbody rest
    rw [hsize, hmore hrest, Nat.add_zero]
  have hsome : text.length ≠ 0 := by
    obtain ⟨whole, _, _, rfl, hsome, -⟩ := h.parts
    have hwhole : whole.length ≠ 0 := by simpa using hsome
    simp only [List.length_append]
    omega
  unfold float?
  simp only [hsize, hsome, if_false, List.take_left, List.drop_left, hread, Option.map_some]

end Literal

end ShaderExpr
