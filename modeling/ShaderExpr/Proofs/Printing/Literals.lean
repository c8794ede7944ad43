import ShaderExpr.Proofs.Printing.Numeral
import ShaderExpr.Value

namespace ShaderExpr

namespace Decimal

theorem isDecimalDigit_of_mem_significant {d : Decimal} :
    ∀ c ∈ d.significant.1, isDecimalDigit c := by
  intro c hc
  have hmem : c ∈ Nat.toDigits 10 d.digits := by
    have hc := List.mem_reverse.mp hc
    exact List.mem_reverse.mp ((List.dropWhile_sublist _).mem hc)
  exact isDecimalDigit_of_mem_toDigits c hmem

/-- Text of an integer: its digits behind a sign or none. -/
theorem toList_toString_int (n : Int) : ∃ sign digits, (toString n).toList = sign ++ digits ∧
    (sign = [] ∨ sign = ['-']) ∧ digits ≠ [] ∧ ∀ d ∈ digits, isDecimalDigit d := by
  rw [Int.toString_eq_repr, Int.repr_eq_if]
  by_cases h : 0 ≤ n
  · rw [if_pos h, Nat.toList_repr]
    exact ⟨[], _, rfl, .inl rfl, Nat.toDigits_ne_nil, isDecimalDigit_of_mem_toDigits⟩
  · rw [if_neg h, String.toList_append, Nat.toList_repr]
    exact ⟨['-'], _, rfl, .inr rfl, Nat.toDigits_ne_nil, isDecimalDigit_of_mem_toDigits⟩

/-- A text that is read as a decimal at all has digits in front. -/
theorem text_isNumeral {style : NumeralStyle} {d : Decimal}
    (h : (read? (d.text style).toList).isSome) : Literal.IsNumeral (d.text style).toList := by
  have hdigits := isDecimalDigit_of_mem_significant (d := d)
  unfold text at h ⊢
  generalize d.significant = parts at h hdigits ⊢
  obtain ⟨digits, point⟩ := parts
  dsimp only at h hdigits ⊢
  split
  · have horZero : ∀ cs : List Char, (∀ c ∈ cs, isDecimalDigit c) →
        (if cs.isEmpty then ['0'] else cs) ≠ [] ∧
        ∀ c ∈ if cs.isEmpty then ['0'] else cs, isDecimalDigit c := by
      intro cs hcs
      cases cs with
      | nil => exact ⟨by simp, List.all_eq_true.mp (by decide)⟩
      | cons c cs => exact ⟨by simp, by simpa using hcs⟩
    have hzeros : ∀ n, ∀ c ∈ List.replicate n '0', isDecimalDigit c := by
      intro n c hc
      rw [List.eq_of_mem_replicate hc]
      decide
    obtain ⟨hsome, hwhole⟩ := horZero
      (digits.take point.toNat ++ List.replicate (point.toNat - digits.length) '0') (by
        intro c hc
        rcases List.mem_append.mp hc with hc | hc
        · exact hdigits c (List.mem_of_mem_take hc)
        · exact hzeros _ c hc)
    obtain ⟨-, hfraction⟩ := horZero
      (List.replicate (-point).toNat '0' ++ digits.drop point.toNat) (by
        intro c hc
        rcases List.mem_append.mp hc with hc | hc
        · exact hzeros _ c hc
        · exact hdigits c (List.mem_of_mem_drop hc))
    rw [String.toList_ofList]
    exact ⟨_, _, [], by rw [List.append_nil], hsome, hwhole, .inr ⟨_, rfl, hfraction⟩, .inl rfl,
      by simp⟩
  · rename_i hlead
    rw [if_neg hlead] at h
    obtain ⟨sign, exponent, hexponent, hsign, hsome, hdigits'⟩ := toList_toString_int (point - 1)
    rw [String.toList_append, String.toList_append, String.toList_ofList, hexponent] at h ⊢
    cases digits with
    | nil => simp [read?, isDecimalDigit] at h
    | cons c digits =>
      refine ⟨[c], if digits.isEmpty then [] else '.' :: digits, 'e' :: (sign ++ exponent), ?_,
        by simp, by simpa using hdigits c (by simp), ?_, .inr ⟨sign, exponent, rfl, hsign, hsome,
          hdigits'⟩, by simp⟩
      · cases digits <;> simp
      · cases digits with
        | nil => exact .inl rfl
        | cons d digits => exact .inr ⟨_, rfl, fun e he => hdigits e (List.mem_cons_of_mem _ he)⟩

end Decimal

namespace Scalar

/-- A number that source text can write as a literal: neither negative nor beyond all numbers. -/
def IsPlain : Scalar → Prop
  | .float x => BinaryFormat.single.isNegative x.bits.toNat = false ∧
    ∃ significand exponent, BinaryFormat.single.magnitude x.bits.toNat = .finite significand exponent
  | .double x => BinaryFormat.double.isNegative x.bits.toNat = false ∧
    ∃ significand exponent, BinaryFormat.double.magnitude x.bits.toNat = .finite significand exponent
  | .int n => 0 ≤ n.toInt
  | _ => True

/-- The shortest text of a floating-point number rounds back to it. -/
def ReadsBack : Scalar → Prop
  | .float x => (Decimal.read? (BinaryFormat.single.text numeralStyle x.bits.toNat).toList).map
    (Decimal.toBits .single) = some x.bits.toNat
  | .double x => (Decimal.read? (BinaryFormat.double.text numeralStyle x.bits.toNat).toList).map
    (Decimal.toBits .double) = some x.bits.toNat
  | _ => True

end Scalar

/-- The text of a plain number is a numeral, if it can be read at all. Infinities and the absence of
    a number have texts that are words. -/
theorem BinaryFormat.text_isNumeral {f : BinaryFormat} (style : NumeralStyle) {bits : Nat}
    (hsign : f.isNegative bits = false)
    (hfinite : ∃ significand exponent, f.magnitude bits = .finite significand exponent)
    (hread : (Decimal.read? (f.text style bits).toList).isSome) :
    Literal.IsNumeral (f.text style bits).toList := by
  obtain ⟨significand, exponent, hmagnitude⟩ := hfinite
  unfold text at hread ⊢
  rw [hmagnitude, hsign] at hread ⊢
  dsimp only at hread ⊢
  by_cases hzero : significand = 0
  · rw [if_pos hzero]
    have hzero : ∀ d ∈ ['0'], isDecimalDigit d := List.all_eq_true.mp (by decide)
    exact ⟨['0'], ['.', '0'], [], rfl, by simp, hzero, .inr ⟨['0'], rfl, hzero⟩, .inl rfl, by simp⟩
  · rw [if_neg hzero] at hread ⊢
    simp only [Bool.false_eq_true, if_false, String.empty_append] at hread ⊢
    exact Decimal.text_isNumeral hread

theorem renders_literal {text : List Char} {x : Scalar} {F : List Char → Prop}
    (hdigit : ∃ c cs, text = c :: cs ∧ isDecimalDigit c)
    (h : ∀ rest, F rest → Lexeme.literal? (text ++ rest) = some ⟨.literal x, none, text.length⟩) :
    Renders text [.literal x] F := by
  obtain ⟨c, cs, rfl, hc⟩ := hdigit
  refine .token (fun rest hrest => ?_) (isWhiteSpace_of_isDecimalDigit hc) rfl
  have hliteral := h rest hrest
  rw [List.cons_append] at hliteral ⊢
  unfold Lexeme.first?
  rw [Lexeme.comment?_eq_none (by rintro rfl; exact absurd hc (by decide)), hliteral]
  rfl

theorem Literal.IsNumeral.starts {text : List Char} (h : IsNumeral text) :
    ∃ c cs, text = c :: cs ∧ isDecimalDigit c := by
  obtain ⟨whole, fraction, exponent, rfl, hsome, hwhole, -⟩ := h.parts
  obtain ⟨c, cs, rfl⟩ := List.exists_cons_of_ne_nil hsome
  exact ⟨c, _, rfl, hwhole c (by simp)⟩

theorem EndsExpression.endsNumeral {rest : List Char} (h : EndsExpression rest) :
    Literal.EndsNumeral rest := by
  intro c hc
  rcases h c hc with rfl | rfl | rfl | rfl <;> decide

theorem EndsExpression.floatSuffix {rest : List Char} (h : EndsExpression rest) :
    Literal.floatSuffix rest = (0, false) := by
  cases rest with
  | nil => rfl
  | cons c rest => rcases h c (by simp) with rfl | rfl | rfl | rfl <;> rfl

theorem EndsExpression.unsignedSuffix {rest : List Char} (h : EndsExpression rest) :
    Literal.unsignedSuffix rest = 0 := by
  cases rest with
  | nil => rfl
  | cons c rest => rcases h c (by simp) with rfl | rfl | rfl | rfl <;> rfl

theorem EndsExpression.no_digit_no_mark {rest : List Char} (h : EndsExpression rest) :
    ∀ c ∈ rest.head?, isDecimalDigit c = false ∧ c ≠ 'x' ∧ c ≠ 'X' := by
  intro c hc
  rcases h c hc with rfl | rfl | rfl | rfl <;> decide

namespace Scalar

theorem float_renders {x : Binary32} (plain : (float x).IsPlain) (reads : (float x).ReadsBack) :
    Renders (float x).text.toList [.literal (.float x)] EndsExpression := by
  obtain ⟨d, hread, hbits⟩ := Option.map_eq_some_iff.mp reads
  have hnumeral := BinaryFormat.text_isNumeral numeralStyle plain.1 plain.2
    (by rw [hread]; rfl)
  refine renders_literal hnumeral.starts fun rest hrest => ?_
  unfold Lexeme.literal?
  rw [text, Literal.float?_append hnumeral hrest.endsNumeral hread, hrest.floatSuffix]
  simp [hbits]

theorem double_renders {x : Binary64} (plain : (double x).IsPlain) (reads : (double x).ReadsBack) :
    Renders (double x).text.toList [.literal (.double x)] EndsExpression := by
  obtain ⟨d, hread, hbits⟩ := Option.map_eq_some_iff.mp reads
  have hnumeral := BinaryFormat.text_isNumeral numeralStyle plain.1 plain.2
    (by rw [hread]; rfl)
  have hlist : (double x).text.toList =
      (BinaryFormat.double.text numeralStyle x.bits.toNat).toList ++ ['l', 'f'] := by
    rw [text, String.toList_append]
    rfl
  rw [hlist]
  obtain ⟨c, cs, hstart, hdigit⟩ := hnumeral.starts
  refine renders_literal ⟨c, cs ++ ['l', 'f'], by rw [hstart]; rfl, hdigit⟩ fun rest hrest => ?_
  have hends : Literal.EndsNumeral ('l' :: 'f' :: rest) := by
    intro c hc
    obtain rfl : 'l' = c := by simpa using hc
    decide
  have hsuffix : Literal.floatSuffix ('l' :: 'f' :: rest) = (2, true) := rfl
  unfold Lexeme.literal?
  rw [List.append_assoc, List.cons_append, List.singleton_append,
    Literal.float?_append hnumeral hends hread, hsuffix]
  simp [hbits]

/-- The digits of a number that fits a word. From half the range on, the integer is negative. -/
theorem digits_render {n : Nat} (hn : n < 0x100000000) :
    Renders (Nat.toDigits 10 n) [.literal (.int (UInt32.ofNat n).toInt32)] fun rest =>
      EndsExpression rest ∧ ∀ c ∈ rest.head?, c ≠ '.' := by
  have hdigits := isDecimalDigit_of_mem_toDigits (n := n)
  have hstart : ∃ c cs, Nat.toDigits 10 n = c :: cs ∧ isDecimalDigit c := by
    obtain ⟨c, cs, hcs⟩ := List.exists_cons_of_ne_nil (Nat.toDigits_ne_nil (n := n))
    exact ⟨c, cs, hcs, hdigits c (by simp [hcs])⟩
  refine renders_literal hstart fun rest ⟨hrest, hpoint⟩ => ?_
  have hfloat := Literal.float?_digits hdigits fun c hc =>
    ⟨(hrest.no_digit_no_mark c hc).1, hpoint c hc, (hrest.endsNumeral c hc).2⟩
  have hinteger := Literal.integer?_toDigits hn hrest.no_digit_no_mark hrest.unsignedSuffix
    (Literal.endsBefore_of_endsExpression hrest)
  unfold Lexeme.literal?
  rw [hfloat, hinteger]
  simp

theorem int_renders {n : Int32} (plain : 0 ≤ n.toInt) :
    Renders (int n).text.toList [.literal (.int n)] fun rest =>
      EndsExpression rest ∧ ∀ c ∈ rest.head?, c ≠ '.' := by
  have hnat := n.toNatClampNeg_lt
  have hlist : (int n).text.toList = Nat.toDigits 10 n.toNatClampNeg := by
    rw [text, Int.toString_eq_repr, Int.repr_eq_if, if_pos plain, Nat.toList_repr]
    rfl
  have hword : (UInt32.ofNat n.toNatClampNeg).toInt32 = n :=
    n.ofNat_toNatClampNeg (Int32.le_iff_toInt_le.mpr plain)
  have hdigits := digits_render (n := n.toNatClampNeg) (by omega)
  rwa [hword, ← hlist] at hdigits

theorem uint_renders (n : UInt32) :
    Renders (uint n).text.toList [.literal (.uint n)] EndsExpression := by
  have hbound := n.toNat_lt
  have hlist : (uint n).text.toList = Nat.toDigits 10 n.toNat ++ ['u'] := by
    rw [text, String.toList_append, Nat.toString_eq_repr, Nat.toList_repr]
    rfl
  have hdigits := isDecimalDigit_of_mem_toDigits (n := n.toNat)
  rw [hlist]
  have hstart : ∃ c cs, Nat.toDigits 10 n.toNat ++ ['u'] = c :: cs ∧ isDecimalDigit c := by
    obtain ⟨c, cs, hcs⟩ := List.exists_cons_of_ne_nil (Nat.toDigits_ne_nil (n := n.toNat))
    exact ⟨c, cs ++ ['u'], by rw [hcs]; rfl, hdigits c (by simp [hcs])⟩
  refine renders_literal hstart fun rest hrest => ?_
  have hmark : ∀ c ∈ ('u' :: rest).head?, c = 'u' := by simp
  have hfloat : Literal.float? (Nat.toDigits 10 n.toNat ++ 'u' :: rest) = none := by
    refine Literal.float?_digits hdigits fun c hc => ?_
    obtain rfl := hmark c hc
    decide
  have hnext : ∀ c ∈ ('u' :: rest).head?, isDecimalDigit c = false ∧ c ≠ 'x' ∧ c ≠ 'X' := by
    intro c hc
    obtain rfl := hmark c hc
    decide
  have hsuffix : Literal.unsignedSuffix ('u' :: rest) = 1 := rfl
  have hinteger := Literal.integer?_toDigits (n := n.toNat) (by omega) hnext hsuffix
    (Literal.endsBefore_of_endsExpression hrest)
  unfold Lexeme.literal?
  rw [List.append_assoc, List.singleton_append, hfloat, hinteger]
  simp

theorem bool_renders (b : Bool) :
    Renders (bool b).text.toList [.literal (.bool b)] EndsExpression := by
  have hliteral : ∀ rest, EndsExpression rest →
      Literal.bool? ((bool b).text.toList ++ rest) = some (.bool b, (bool b).text.toList.length) := by
    intro rest hrest
    have hends := Literal.endsBefore_of_endsExpression hrest
    cases b with
    | true =>
      change (if true && Literal.endsBefore rest then _ else _) = _
      rw [hends]
      rfl
    | false =>
      change (if false && _ then _ else if true && Literal.endsBefore rest then _ else _) = _
      rw [hends]
      rfl
  have hstart : ∃ c cs, (bool b).text.toList = c :: cs ∧ Lexeme.isIdentStart c := by
    cases b with
    | true => exact ⟨'t', ['r', 'u', 'e'], rfl, by decide⟩
    | false => exact ⟨'f', ['a', 'l', 's', 'e'], rfl, by decide⟩
  obtain ⟨c, cs, hcs, hc⟩ := hstart
  rw [hcs] at hliteral ⊢
  refine .token (fun rest hrest => ?_) (Lexeme.isWhiteSpace_of_isIdentStart hc) rfl
  have hbool := hliteral rest hrest
  rw [List.cons_append] at hbool ⊢
  unfold Lexeme.first? Lexeme.literal?
  have hdigit := Lexeme.isDecimalDigit_of_isIdentStart hc
  rw [Lexeme.comment?_eq_none (Lexeme.ne_of_isIdentStart hc (by decide)),
    Lexeme.float?_eq_none hdigit (Lexeme.ne_of_isIdentStart hc (by decide)),
    Lexeme.integer?_eq_none hdigit, hbool]
  rfl

/-- Only behind an integer a point would be taken for a part of the literal. -/
theorem renders {x : Scalar} (plain : x.IsPlain) (reads : x.ReadsBack) :
    Renders x.text.toList [.literal x] fun rest =>
      EndsExpression rest ∧ ∀ n, x = .int n → ∀ c ∈ rest.head?, c ≠ '.' := by
  cases x with
  | float x => exact (float_renders plain reads).mono fun _ h => h.1
  | double x => exact (double_renders plain reads).mono fun _ h => h.1
  | int n => exact (int_renders plain).mono fun _ h => ⟨h.1, h.2 n rfl⟩
  | uint n => exact (uint_renders n).mono fun _ h => h.1
  | bool b => exact (bool_renders b).mono fun _ h => h.1

end Scalar

end ShaderExpr
