import ShaderExpr.Proofs.Collections
import ShaderExpr.Proofs.Lexing.Forms

namespace ShaderExpr

namespace Literal

theorem digitRun_lt_floatSize {text : List Char} (h : floatSize text ≠ 0) :
    digitRun text < floatSize text := by
  unfold floatSize at h ⊢
  dsimp only at h ⊢
  split
  · rename_i rest hpoint
    simp only [hpoint] at h
    split at h
    · exact absurd rfl h
    · rename_i hsome
      rw [if_neg hsome]
      omega
  · rename_i rest hpoint
    split
    · rename_i hnone
      simp only [hnone, if_true] at h
      exact absurd rfl h
    · omega

theorem FloatBody.head {body : List Char} {value : Decimal} (h : FloatBody body value) :
    ∃ c cs, body = c :: cs ∧ (isDecimalDigit c ∨ c = '.') := by
  have hfront {whole : List Char} (before : ∀ d ∈ whole, isDecimalDigit d) {behind : List Char}
      (hbehind : whole ≠ [] ∨ ∃ cs, behind = '.' :: cs) :
      ∃ c cs, whole ++ behind = c :: cs ∧ (isDecimalDigit c ∨ c = '.') := by
    cases whole with
    | nil =>
      obtain ⟨cs, rfl⟩ := hbehind.resolve_left (· rfl)
      exact ⟨'.', cs, rfl, .inr rfl⟩
    | cons c whole => exact ⟨c, whole ++ behind, rfl, .inl (before c List.mem_cons_self)⟩
  cases h with
  | fraction before => exact hfront before (.inr ⟨_, rfl⟩)
  | scaled before => exact hfront before (.inr ⟨_, rfl⟩)
  | whole before any => exact hfront before (.inl any)

theorem FloatSuffix.head {suffix : List Char} {isDouble : Bool} (h : FloatSuffix suffix isDouble) :
    ∀ c ∈ suffix.head?, isDecimalDigit c = false ∧ isExponentMark c = false := by
  cases h <;> simp <;> decide

theorem floatSuffix_append {suffix : List Char} {isDouble : Bool} (h : FloatSuffix suffix isDouble)
    (any : suffix ≠ []) (rest : List Char) : (floatSuffix (suffix ++ rest)).1 = suffix.length := by
  cases h with
  | none => exact absurd rfl any
  | lower | upper | lowerDouble | upperDouble => rfl

/-- A floating-point number is taken with its suffix, and more of the text where it goes on. -/
theorem float?_covers {body suffix : List Char} {value : Decimal} {isDouble : Bool}
    (number : FloatBody body value) (ending : FloatSuffix suffix isDouble) (rest : List Char) :
    ∃ v n, float? (body ++ suffix ++ rest) = some (v, n) ∧ (body ++ suffix).length ≤ n := by
  obtain ⟨more, hsize, hmore⟩ := floatSize_append number (suffix ++ rest)
  rw [← List.append_assoc] at hsize
  have hsome : floatSize (body ++ suffix ++ rest) ≠ 0 := by
    obtain ⟨c, cs, rfl, -⟩ := number.head
    rw [hsize, List.length_cons]
    omega
  obtain ⟨taken, left, d, htext, hlength, hbody⟩ := floatBody_of_floatSize hsome
  unfold float?
  dsimp only
  rw [if_neg hsome, ← hlength]
  rw [← hlength] at hsize
  by_cases hsuffix : suffix = []
  · subst hsuffix
    rw [htext, List.take_left, hbody.read]
    exact ⟨_, _, rfl, by simp only [List.append_nil]; omega⟩
  · have hnone : more = 0 := by
      apply hmore
      cases suffix with
      | nil => exact absurd rfl hsuffix
      | cons c suffix => exact ending.head
    have hdrop : (body ++ suffix ++ rest).drop taken.length = suffix ++ rest := by
      rw [hsize, hnone, Nat.add_zero, List.append_assoc, List.drop_left]
    rw [hdrop, htext, List.take_left, hbody.read]
    refine ⟨_, _, rfl, ?_⟩
    rw [floatSuffix_append ending hsuffix, List.length_append]
    omega

theorem integerSize_eq {text digits : List Char} {radix : Radix} {n : Nat}
    (h : integerBody text = (radix, digits, n)) :
    integerSize text = n + digits.length + unsignedSuffix (text.drop (n + digits.length)) := by
  rw [integerSize, h]

/-- Digits that are not hexadecimal count, whether a leading zero marks them or not. -/
theorem integerSize_plain {text : List Char} (hhex : ¬StartsHexadecimal text) :
    integerSize text = digitRun text + unsignedSuffix (text.drop (digitRun text)) := by
  obtain ⟨digits, rest, rfl, all, hrest, hrun⟩ := exists_digits text
  rcases integerBody_cases all hrest hhex with ⟨d, more, rfl, hbody⟩ | ⟨-, hbody⟩
  · have hlength : 1 + (d :: more).length = ('0' :: d :: more).length := Nat.add_comm _ _
    rw [integerSize_eq hbody, hrun, hlength]
  · rw [integerSize_eq hbody, hrun, Nat.zero_add]

theorem integerSize_hexadecimal {mark : Char} {behind : List Char}
    (marked : mark = 'x' ∨ mark = 'X') (any : behind.takeWhile isHexDigit ≠ []) :
    integerSize ('0' :: mark :: behind) = 2 + (behind.takeWhile isHexDigit).length +
      unsignedSuffix (behind.drop (behind.takeWhile isHexDigit).length) := by
  rw [integerSize_eq (integerBody_hexadecimal marked any), ← List.drop_drop]
  rfl

/-- Digits with the suffix of unsigned integers are taken together. -/
theorem length_le_run {p : Char → Bool} {digits suffix : List Char} {unsigned : Bool}
    (stops : p 'u' = false ∧ p 'U' = false) (all : ∀ d ∈ digits, p d)
    (ending : IntegerSuffix suffix unsigned) (rest : List Char) :
    digits.length + suffix.length ≤ ((digits ++ suffix ++ rest).takeWhile p).length +
      unsignedSuffix ((digits ++ suffix ++ rest).drop
        ((digits ++ suffix ++ rest).takeWhile p).length) := by
  have hmarked {c : Char} (hc : p c = false) (hsuffix : unsignedSuffix (c :: rest) = 1) :
      digits.length + 1 ≤ ((digits ++ [c] ++ rest).takeWhile p).length +
        unsignedSuffix ((digits ++ [c] ++ rest).drop
          ((digits ++ [c] ++ rest).takeWhile p).length) := by
    have htake : (digits ++ [c] ++ rest).takeWhile p = digits := by
      rw [List.append_assoc, List.takeWhile_append_of_pos all]
      simp [hc]
    rw [htake, List.append_assoc, List.drop_left]
    exact Nat.le_of_eq (congrArg _ hsuffix.symm)
  cases ending with
  | none =>
    rw [List.append_nil]
    exact Nat.le_add_right_of_le (List.length_le_takeWhile all)
  | lower => exact hmarked stops.1 rfl
  | upper => exact hmarked stops.2 rfl

/-- An integer is taken with its suffix, and more of the text where it goes on. -/
theorem length_le_integerSize {radix : Radix} {mark digits suffix : List Char} {unsigned : Bool}
    (number : IntegerBody radix mark digits) (ending : IntegerSuffix suffix unsigned)
    (rest : List Char) :
    (mark ++ digits ++ suffix).length ≤ integerSize (mark ++ digits ++ suffix ++ rest) := by
  have hsuffix : suffix.length ≤ 1 := by cases ending <;> decide
  -- Where hexadecimal digits follow, a plain zero is the only other number.
  have hplain {run : List Char} (all : ∀ d ∈ run, isDecimalDigit d) :
      (run ++ suffix).length ≤ integerSize (run ++ suffix ++ rest) := by
    by_cases hhex : StartsHexadecimal (run ++ suffix ++ rest)
    · obtain ⟨x, behind, htext, marked, hany⟩ := hhex
      have hrun : run.length ≤ 1 := by
        rcases run with - | ⟨c, - | ⟨d, run⟩⟩
        · exact Nat.zero_le 1
        · exact Nat.le_refl 1
        · obtain rfl : d = x := (List.cons.inj (List.cons.inj htext).2).1
          have hd := all d (by simp)
          rcases marked with rfl | rfl <;> exact absurd hd (by decide)
      rw [htext, integerSize_hexadecimal marked hany, List.length_append]
      omega
    · rw [integerSize_plain hhex, List.length_append]
      exact length_le_run (by decide) all ending rest
  cases number with
  | @hexadecimal mark digits marked any all =>
    have hany : (digits ++ suffix ++ rest).takeWhile isHexDigit ≠ [] := by
      rw [List.append_assoc, List.takeWhile_append_of_pos all]
      simp [any]
    have hle := length_le_run (by decide) all ending rest
    have htext : ['0', mark] ++ digits ++ suffix ++ rest =
      '0' :: mark :: (digits ++ suffix ++ rest) := rfl
    rw [htext, integerSize_hexadecimal marked hany]
    simp only [List.length_append, List.length_cons, List.length_nil]
    omega
  | octal any all =>
    have hall : ∀ d ∈ '0' :: digits, isDecimalDigit d := by
      intro d hd
      rcases List.mem_cons.mp hd with rfl | hd
      · decide
      · exact all d hd
    exact hplain hall
  | decimal any all => exact hplain all

/-- Where an integer goes on as a floating-point number, that takes all of it. -/
theorem length_le_floatSize {radix : Radix} {mark digits suffix : List Char} {unsigned : Bool}
    (number : IntegerBody radix mark digits) (ending : IntegerSuffix suffix unsigned)
    (rest : List Char) (h : floatSize (mark ++ digits ++ suffix ++ rest) ≠ 0) :
    (mark ++ digits ++ suffix).length ≤ floatSize (mark ++ digits ++ suffix ++ rest) := by
  have hsuffix : suffix.length ≤ 1 := by cases ending <;> decide
  have hplain {run : List Char} (all : ∀ d ∈ run, isDecimalDigit d)
      (h : floatSize (run ++ suffix ++ rest) ≠ 0) :
      (run ++ suffix).length ≤ floatSize (run ++ suffix ++ rest) := by
    have hlt := digitRun_lt_floatSize h
    rw [List.append_assoc, digitRun_append all] at hlt
    rw [List.append_assoc, List.length_append]
    omega
  cases number with
  | @hexadecimal mark digits marked any all =>
    have hzero : ∀ d ∈ ['0'], isDecimalDigit d := List.all_eq_true.mp (by decide)
    have hmark : isDecimalDigit mark = false ∧ isExponentMark mark = false ∧ mark ≠ '.' := by
      rcases marked with rfl | rfl <;> decide
    have hnone : floatSize (['0'] ++ mark :: (digits ++ suffix ++ rest)) = 0 := by
      rw [floatSize_whole hzero (digitRun_eq_zero (by simpa using hmark.1)) (by simpa using hmark.2.2),
        if_pos (.inr (by simp [exponentSize, hmark.2.1]))]
    exact absurd hnone h
  | octal any all =>
    have hall : ∀ d ∈ '0' :: digits, isDecimalDigit d := by
      intro d hd
      rcases List.mem_cons.mp hd with rfl | hd
      · decide
      · exact all d hd
    exact hplain hall h
  | decimal any all => exact hplain all h

theorem floatSize_le {text : List Char} {v : Scalar} {n : Nat} (h : float? text = some (v, n)) :
    floatSize text ≠ 0 ∧ floatSize text ≤ n := by
  unfold float? at h
  dsimp only at h
  split at h
  · simp at h
  · rename_i hsome
    obtain ⟨d, -, heq⟩ := Option.map_eq_some_iff.mp h
    rw [← (Prod.mk.inj heq).2]
    exact ⟨hsome, Nat.le_add_right _ _⟩

theorem integerSize_of_integer? {text : List Char} {v : Scalar} {flaw : Option LiteralFlaw} {n : Nat}
    (h : integer? text = some (v, flaw, n)) : integerSize text = n := by
  unfold integer? at h
  dsimp only at h
  split at h
  · simp at h
  · exact (Prod.mk.inj (Prod.mk.inj (Option.some.inj h)).2).2

theorem IntegerBody.head {radix : Radix} {mark digits : List Char}
    (h : IntegerBody radix mark digits) : ∃ c cs, mark ++ digits = c :: cs ∧ isDecimalDigit c := by
  cases h with
  | hexadecimal | octal => exact ⟨'0', _, rfl, by decide⟩
  | decimal any all =>
    obtain ⟨d, digits, rfl⟩ := List.exists_cons_of_ne_nil any
    exact ⟨d, digits, rfl, all d List.mem_cons_self⟩

/-- A truth value is taken up to its end. -/
theorem bool?_size {text : List Char} {value : Scalar} {n : Nat} (h : bool? text = some (value, n)) :
    n = 4 ∧ "true".toList <+: text ∧ endsBefore (text.drop 4) ∨
      n = 5 ∧ "false".toList <+: text ∧ endsBefore (text.drop 5) := by
  unfold bool? at h
  split at h
  · rename_i htrue
    obtain ⟨rfl, rfl⟩ := Prod.mk.inj (Option.some.inj h)
    simp only [Bool.and_eq_true, List.isPrefixOf_iff_prefix] at htrue
    exact .inl ⟨rfl, htrue⟩
  · split at h
    · rename_i hfalse
      obtain ⟨rfl, rfl⟩ := Prod.mk.inj (Option.some.inj h)
      simp only [Bool.and_eq_true, List.isPrefixOf_iff_prefix] at hfalse
      exact .inr ⟨rfl, hfalse⟩
    · simp at h

theorem bool?_eq_none {c : Char} (htrue : c ≠ 't') (hfalse : c ≠ 'f') (text : List Char) :
    bool? (c :: text) = none := by
  cases hbool : bool? (c :: text) with
  | none => rfl
  | some found =>
    rcases bool?_size hbool with ⟨-, ⟨more, hfront⟩, -⟩ | ⟨-, ⟨more, hfront⟩, -⟩
    · exact absurd (List.cons.inj hfront).1.symm htrue
    · exact absurd (List.cons.inj hfront).1.symm hfalse

end Literal

namespace Token

open Literal

/-- Every token takes some of the text. -/
theorem Forms.ne_nil {front : List Char} {kind : Kind} {flaw : Option LiteralFlaw}
    (h : Forms front kind flaw) : front ≠ [] := by
  cases h with
  | line | block | control => exact List.cons_ne_nil _ _
  | float number =>
    obtain ⟨c, cs, rfl, -⟩ := number.head
    exact List.cons_ne_nil _ _
  | integer number =>
    obtain ⟨c, cs, hfront, -⟩ := number.head
    rw [hfront]
    exact List.cons_ne_nil _ _
  | bool b => cases b <;> decide
  | symbol s => cases s <;> decide
  | keyword known =>
    have hall : ∀ word ∈ keywords, word.toList ≠ [] := by decide
    exact hall _ known
  | ident free =>
    obtain ⟨c, cs, hname, -⟩ := free.word
    rw [hname]
    exact List.cons_ne_nil _ _

end Token

namespace Lexeme

open Literal Token

/-- Kinds of tokens are tried one after the other. -/
theorem first?_eq_some_iff {text : List Char} {lexeme : Lexeme} :
    first? text = some lexeme ↔ comment? text = some lexeme ∨ comment? text = none ∧
      (literal? text = some lexeme ∨ literal? text = none ∧ (symbol? text = some lexeme ∨
        symbol? text = none ∧ (word? text = some lexeme ∨ word? text = none ∧
          control? text = some lexeme))) := by
  simp only [first?, Option.orElse_eq_orElse, Option.orElse_eq_or, Option.or_eq_some_iff]

theorem literal?_cases {text : List Char} {lexeme : Lexeme} (h : literal? text = some lexeme) :
    (∃ v, float? text = some (v, lexeme.size)) ∨
      (∃ v f, integer? text = some (v, f, lexeme.size)) ∨
        ∃ v, bool? text = some (v, lexeme.size) := by
  unfold literal? at h
  split at h
  · rename_i v n hfloat
    obtain rfl := Option.some.inj h
    exact .inl ⟨v, hfloat⟩
  · split at h
    · rename_i v f n hinteger
      obtain rfl := Option.some.inj h
      exact .inr (.inl ⟨v, f, hinteger⟩)
    · obtain ⟨⟨v, n⟩, hbool, rfl⟩ := Option.map_eq_some_iff.mp h
      exact .inr (.inr ⟨v, hbool⟩)

theorem literal?_eq_none {c : Char} (hdigit : isDecimalDigit c = false)
    (hc : c ≠ '.' ∧ c ≠ 't' ∧ c ≠ 'f') (text : List Char) : literal? (c :: text) = none := by
  unfold literal?
  rw [float?_eq_none hdigit hc.1, integer?_eq_none hdigit, bool?_eq_none hc.2.1 hc.2.2]
  rfl

theorem two_le_comment? {text : List Char} {lexeme : Lexeme} (h : comment? text = some lexeme) :
    2 ≤ lexeme.size := by
  unfold comment? at h
  split at h
  · obtain rfl := Option.some.inj h
    exact Nat.le_add_left _ _
  · obtain ⟨body, -, rfl⟩ := Option.map_eq_some_iff.mp h
    exact Nat.le_add_left _ _
  · simp at h

/-- A block ends at the first end of one. -/
theorem blockText?_append {body : List Char} (inside : ¬['*', '/'] <:+: body) (rest : List Char) :
    blockText? (body ++ ['*', '/'] ++ rest) = some body := by
  induction body with
  | nil => rfl
  | cons c body ih =>
    have hbody := ih fun h => inside (h.trans (List.suffix_cons c body).isInfix)
    rw [List.cons_append, List.cons_append, blockText?, hbody]
    · rfl
    · rintro more rfl hmore
      cases body with
      | nil => simp at hmore
      | cons d body =>
        obtain rfl := (List.cons.inj hmore).1
        exact inside ⟨[], body, rfl⟩

/-- The text of a symbol starts with none of the characters that start words and numbers. -/
theorem symbol_head (s : Symbol) : ∃ c cs, s.text.toList = c :: cs ∧ isDecimalDigit c = false ∧
    (c ≠ '.' ∧ c ≠ 't' ∧ c ≠ 'f') ∧ isIdentStart c = false ∧ (c = '/' → cs.length = 1) := by
  cases s <;> exact ⟨_, _, rfl, by decide, by decide, by decide, by decide⟩

theorem symbol?_eq_none_of_digit {c : Char} (h : isDecimalDigit c ∨ isIdentStart c)
    (text : List Char) : symbol? (c :: text) = none := by
  apply symbol?_eq_none
  intro s hs
  obtain ⟨d, ds, htext, hdigit, -, hstart, -⟩ := symbol_head s
  obtain rfl : d = c := by
    rw [htext] at hs
    exact Option.some.inj hs
  rcases h with h | h
  · rw [hdigit] at h
    exact absurd h (by decide)
  · rw [hstart] at h
    exact absurd h (by decide)

section

variable {text rest : List Char} {lexeme : Lexeme}

/-- A word at the front of a text is taken to its end, as a truth value too. -/
theorem length_le_of_word {c : Char} {cs : List Char} (hstart : isIdentStart c)
    (parts : ∀ d ∈ cs, isIdentPart d) (h : first? (c :: cs ++ rest) = some lexeme) :
    (c :: cs).length ≤ lexeme.size := by
  have hdigit := isDecimalDigit_of_isIdentStart hstart
  have hpoint := ne_of_isIdentStart hstart (show isIdentStart '.' = false by decide)
  have hslash := ne_of_isIdentStart hstart (show isIdentStart '/' = false by decide)
  have hends {n : Nat} (hfree : endsBefore ((c :: cs ++ rest).drop n)) : (c :: cs).length ≤ n := by
    by_contra hlt
    have hall : ∀ d ∈ c :: cs, isIdentPart d := by
      intro d hd
      rcases List.mem_cons.mp hd with rfl | hd
      · exact isIdentPart_of_isIdentStart hstart
      · exact parts d hd
    have hpart := hall _ (List.getElem_mem (Nat.lt_of_not_le hlt))
    rw [List.drop_append_of_le_length (Nat.le_of_not_le hlt),
      List.drop_eq_getElem_cons (Nat.lt_of_not_le hlt), List.cons_append,
      endsBefore_of_isIdentPart hpart] at hfree
    exact absurd hfree (by decide)
  rw [List.cons_append] at h hends
  rcases first?_eq_some_iff.mp h with h | ⟨-, h | ⟨-, h | ⟨-, h | ⟨h, -⟩⟩⟩⟩
  · rw [comment?_eq_none hslash] at h
    simp at h
  · rcases literal?_cases h with ⟨v, h⟩ | ⟨v, f, h⟩ | ⟨v, h⟩
    · rw [float?_eq_none hdigit hpoint] at h
      simp at h
    · rw [integer?_eq_none hdigit] at h
      simp at h
    · rcases bool?_size h with ⟨hsize, -, hfree⟩ | ⟨hsize, -, hfree⟩
      · exact hsize ▸ hends hfree
      · exact hsize ▸ hends hfree
  · rw [symbol?_eq_none_of_digit (.inr hstart)] at h
    simp at h
  · simp only [word?, hstart, if_true] at h
    obtain rfl := Option.some.inj h
    rw [List.length_cons, Nat.add_comm]
    exact Nat.add_le_add_left (List.length_le_takeWhile parts) 1
  · simp [word?, hstart] at h

/-- A number at the front of a text is taken to its end. -/
theorem length_le_of_integer {radix : Radix} {mark digits suffix : List Char} {unsigned : Bool}
    (number : IntegerBody radix mark digits) (ending : IntegerSuffix suffix unsigned)
    (h : first? (mark ++ digits ++ suffix ++ rest) = some lexeme) :
    (mark ++ digits ++ suffix).length ≤ lexeme.size := by
  have hinteger := length_le_integerSize number ending rest
  have hfloat := length_le_floatSize number ending rest
  obtain ⟨c, cs, hfront, hdigit⟩ := number.head
  rw [hfront] at h hinteger hfloat ⊢
  rcases first?_eq_some_iff.mp h with h | ⟨-, h | ⟨-, h | ⟨-, h | ⟨-, h⟩⟩⟩⟩
  · have hslash : c ≠ '/' := by
      rintro rfl
      exact absurd hdigit (by decide)
    rw [List.cons_append, List.cons_append, comment?_eq_none hslash] at h
    simp at h
  · rcases literal?_cases h with ⟨v, h⟩ | ⟨v, f, h⟩ | ⟨v, h⟩
    · obtain ⟨hsome, hle⟩ := floatSize_le h
      exact Nat.le_trans (hfloat hsome) hle
    · exact Nat.le_trans hinteger (Nat.le_of_eq (integerSize_of_integer? h))
    · rw [List.cons_append, List.cons_append, bool?_eq_none] at h
      · simp at h
      · rintro rfl
        exact absurd hdigit (by decide)
      · rintro rfl
        exact absurd hdigit (by decide)
  · rw [List.cons_append, List.cons_append, symbol?_eq_none_of_digit (.inl hdigit)] at h
    simp at h
  · have hstart : isIdentStart c = false := by
      by_contra hstart
      rw [isDecimalDigit_of_isIdentStart (by simpa using hstart)] at hdigit
      exact absurd hdigit (by decide)
    simp [word?, hstart] at h
  · have hall : controls.all (!isDecimalDigit ·) := by decide
    have hcontrol : controls.contains c = false := by
      by_contra hknown
      have hno := List.all_eq_true.mp hall c (by simpa using hknown)
      rw [hdigit] at hno
      exact absurd hno (by decide)
    simp only [List.cons_append, control?, hcontrol, Bool.false_eq_true, if_false] at h
    simp at h

theorem length_le_of_float {body suffix : List Char} {value : Decimal} {isDouble : Bool}
    (number : FloatBody body value) (ending : FloatSuffix suffix isDouble)
    (h : first? (body ++ suffix ++ rest) = some lexeme) :
    (body ++ suffix).length ≤ lexeme.size := by
  obtain ⟨v, n, hfloat, hle⟩ := float?_covers number ending rest
  have hcomment : comment? (body ++ suffix ++ rest) = none := by
    obtain ⟨c, cs, rfl, hc⟩ := number.head
    apply comment?_eq_none
    rintro rfl
    rcases hc with hc | hc
    · exact absurd hc (by decide)
    · exact absurd hc (by decide)
  have hliteral : literal? (body ++ suffix ++ rest) = some ⟨.literal v, none, n⟩ := by
    rw [literal?, hfloat]
  rcases first?_eq_some_iff.mp h with h | ⟨-, h | ⟨h, -⟩⟩
  · rw [hcomment] at h
    simp at h
  · rw [hliteral] at h
    obtain rfl := Option.some.inj h
    exact hle
  · rw [hliteral] at h
    simp at h

/-- No symbol is taken where a longer one stands, since symbols are tried before those that they
    start with. -/
theorem length_le_of_symbol {s : Symbol} (h : first? (s.text.toList ++ rest) = some lexeme) :
    s.text.toList.length ≤ lexeme.size := by
  obtain ⟨c, cs, htext, hdigit, hc, -, hslash⟩ := symbol_head s
  have hall : ∀ s, s ∈ Symbol.all := by
    intro s
    cases s <;> decide
  have hfront : s.text.toList.isPrefixOf (s.text.toList ++ rest) :=
    List.isPrefixOf_iff_prefix.mpr (List.prefix_append _ _)
  rcases first?_eq_some_iff.mp h with h | ⟨-, h | ⟨-, h | ⟨h, -⟩⟩⟩
  · rw [htext, List.cons_append] at h
    have hc : c = '/' := by
      by_contra hne
      rw [comment?_eq_none hne] at h
      simp at h
    rw [htext, List.length_cons, hslash hc]
    exact two_le_comment? h
  · rw [htext, List.cons_append, literal?_eq_none hdigit hc] at h
    simp at h
  · obtain ⟨t, ht, rfl⟩ := Option.map_eq_some_iff.mp h
    obtain ⟨htfront, before, behind, hsplit, hbefore⟩ := List.find?_eq_some_iff_append.mp ht
    -- The symbol that is taken stands in front of all others that the text starts with.
    have horder : Symbol.all.Pairwise fun a b => ¬a.text.toList <+: b.text.toList := by decide
    have hmem := hall s
    rw [hsplit] at horder hmem
    rcases List.mem_append.mp hmem with hmem | hmem
    · simpa [hfront] using hbefore s hmem
    · rcases List.mem_cons.mp hmem with rfl | hmem
      · exact Nat.le_of_eq String.length_toList
      · have hshorter := (List.pairwise_cons.mp (List.pairwise_append.mp horder).2.1).1 s hmem
        rcases List.prefix_or_prefix_of_prefix (List.isPrefixOf_iff_prefix.mp htfront)
          (List.prefix_append _ rest) with hle | hle
        · exact absurd hle hshorter
        · exact Nat.le_trans hle.length_le (Nat.le_of_eq String.length_toList)
  · obtain h := Option.map_eq_none_iff.mp h
    exact absurd hfront (List.find?_eq_none.mp h s (hall s))

theorem size_pos (h : first? text = some lexeme) : 0 < lexeme.size := by
  have hheads (hl : lexeme.Heads text) : 0 < lexeme.size := by
    obtain ⟨front, rest, -, hsize, hforms, -⟩ := hl
    rw [← hsize]
    exact List.length_pos_iff.mpr hforms.ne_nil
  rcases first?_eq_some_iff.mp h with h | ⟨-, h | ⟨-, h | ⟨-, h | ⟨-, h⟩⟩⟩⟩
  · exact hheads (comment?_heads h)
  · exact hheads (literal?_heads h)
  · exact hheads (symbol?_heads h)
  · cases text with
    | nil => simp [word?] at h
    | cons c text =>
      unfold word? at h
      dsimp only at h
      split at h
      · obtain rfl := Option.some.inj h
        exact Nat.succ_le_of_lt (Nat.lt_add_right _ Nat.one_pos)
      · simp at h
  · exact hheads (control?_heads h)

/-- What is found at the front of a text is at least as long as every token there, whatever the
    order in which kinds of tokens are tried. No longer part of the text is a token, not even where
    it could not end. -/
theorem first?_longest (h : first? text = some lexeme) {front : List Char} {kind : Kind}
    {flaw : Option LiteralFlaw} (hfront : front <+: text) (forms : Forms front kind flaw) :
    front.length ≤ lexeme.size := by
  obtain ⟨rest, rfl⟩ := hfront
  cases forms with
  | @line body inside =>
    have hbody : ∀ c ∈ body, (c != '\n') = true := by
      intro c hc
      simp only [bne_iff_ne, ne_eq]
      rintro rfl
      exact inside hc
    rw [List.cons_append, List.cons_append, first?_eq_some_iff] at h
    simp only [comment?] at h
    obtain rfl := Option.some.inj (h.resolve_right fun h => by simp at h)
    exact Nat.add_le_add_right (List.length_le_takeWhile hbody) 2
  | @block body inside =>
    have hbody := blockText?_append inside rest
    rw [List.cons_append, List.cons_append, first?_eq_some_iff] at h
    simp only [comment?, hbody, Option.map_some] at h
    obtain rfl := Option.some.inj (h.resolve_right fun h => by simp at h)
    simp
  | float number ending => exact length_le_of_float number ending h
  | integer number ending => exact length_le_of_integer number ending h
  | bool b =>
    cases b with
    | true => exact length_le_of_word (c := 't') (by decide) (List.all_eq_true.mp (by decide)) h
    | false => exact length_le_of_word (c := 'f') (by decide) (List.all_eq_true.mp (by decide)) h
  | symbol s => exact length_le_of_symbol h
  | @keyword word known =>
    obtain ⟨⟨c, cs, hword, hstart, hparts⟩, -⟩ := keyword_parts known
    rw [hword] at h ⊢
    exact length_le_of_word hstart hparts h
  | ident free =>
    obtain ⟨c, cs, hname, hstart, hparts⟩ := free.word
    rw [hname] at h ⊢
    exact length_le_of_word hstart hparts h
  | control known => exact size_pos h

end

end Lexeme

end ShaderExpr
