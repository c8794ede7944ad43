import Mathlib.Data.Nat.Digits.Defs
import ShaderExpr.Proofs.Lexing.Tiling
import ShaderExpr.Proofs.Printing.Numeral

namespace ShaderExpr

namespace Literal

variable {radix : Radix} {mark digits suffix rest behind : List Char} {unsigned : Bool} {c : Char}

/-- A digit says its place among the digits, in either case. -/
def digitNumber (c : Char) : Nat := "0123456789abcdef".toList.idxOf c.toLower

/-- The number that digits write by their positions, of which the last counts ones. -/
def numberOf (radix : Radix) (digits : List Char) : Nat :=
  Nat.ofDigits radix.base (digits.reverse.map digitNumber)

theorem toNat_lt_of_isHexDigit (h : isHexDigit c) : c.toNat < 128 := by
  simp only [isHexDigit, isDecimalDigit, Bool.or_eq_true, Bool.and_eq_true, decide_eq_true_eq] at h
  rcases h with (⟨-, h⟩ | ⟨-, h⟩) | ⟨-, h⟩
  · exact Nat.lt_of_le_of_lt (Char.le_def.mp h) (by decide)
  · exact Nat.lt_of_le_of_lt (Char.le_def.mp h) (by decide)
  · exact Nat.lt_of_le_of_lt (Char.le_def.mp h) (by decide)

/-- What holds of all small characters that are digits holds of each digit. -/
theorem of_isHexDigit {P : Char → Prop}
    (all : ∀ n < 128, isHexDigit (Char.ofNat n) → P (Char.ofNat n)) (h : isHexDigit c) : P c := by
  have hc := all c.toNat (toNat_lt_of_isHexDigit h)
  rw [Char.ofNat_toNat] at hc
  exact hc h

theorem digitValue_eq (h : isHexDigit c) : digitValue c = digitNumber c :=
  of_isHexDigit (P := fun c => digitValue c = digitNumber c) (by decide +kernel) h

theorem digitNumber_lt (h : isHexDigit c) : digitNumber c < 16 :=
  of_isHexDigit (P := fun c => digitNumber c < 16) (by decide +kernel) h

theorem isIdentPart_of_isHexDigit (h : isHexDigit c) : Lexeme.isIdentPart c :=
  of_isHexDigit (P := fun c => Lexeme.isIdentPart c) (by decide +kernel) h

theorem isHexDigit_of_isDecimalDigit (h : isDecimalDigit c) : isHexDigit c := by
  simp [isHexDigit, h]

/-- Of the decimal digits, only 8 and 9 are no octal digits. -/
theorem digitNumber_decimal (h : isDecimalDigit c) :
    digitNumber c < 10 ∧ (digitNumber c < 8 ↔ ¬(c = '8' ∨ c = '9')) :=
  of_isHexDigit (P := fun c => isDecimalDigit c →
      digitNumber c < 10 ∧ (digitNumber c < 8 ↔ ¬(c = '8' ∨ c = '9')))
    (by decide +kernel) (isHexDigit_of_isDecimalDigit h) h

theorem digitsValue_eq (all : ∀ d ∈ digits, isHexDigit d) :
    digitsValue radix digits = numberOf radix digits := by
  rw [numberOf, Nat.ofDigits_eq_foldr, List.foldr_map, List.foldr_reverse, digitsValue]
  refine List.foldl_ext _ _ _ fun n d hd => ?_
  rw [digitValue_eq (all d hd), Nat.cast_id, Nat.add_comm]

theorem IntegerBody.all_isHexDigit (number : IntegerBody radix mark digits) :
    ∀ d ∈ digits, isHexDigit d := by
  cases number with
  | hexadecimal _ _ all => exact all
  | octal _ all | decimal _ all => exact fun d hd => isHexDigit_of_isDecimalDigit (all d hd)

/-- Digits that are none of the radix are those of octal numbers that are too great. -/
theorem IntegerBody.digitNumber_lt_iff (number : IntegerBody radix mark digits) :
    (∀ d ∈ digits, digitNumber d < radix.base) ↔
      ¬(radix = .octal ∧ ('8' ∈ digits ∨ '9' ∈ digits)) := by
  cases number with
  | hexadecimal _ _ all => exact iff_of_true (fun d hd => digitNumber_lt (all d hd)) (by simp)
  | decimal _ all => exact iff_of_true (fun d hd => (digitNumber_decimal (all d hd)).1) (by simp)
  | octal _ all =>
    constructor
    · rintro h ⟨-, height | hnine⟩
      · exact absurd (h _ height) (by decide)
      · exact absurd (h _ hnine) (by decide)
    · intro h d hd
      refine (digitNumber_decimal (all d hd)).2.mpr ?_
      rintro (rfl | rfl)
      · exact h ⟨rfl, .inl hd⟩
      · exact h ⟨rfl, .inr hd⟩

theorem any_eight_or_nine :
    (digits.any fun c => c = '8' || c = '9') ↔ '8' ∈ digits ∨ '9' ∈ digits := by
  simp [and_or_left, exists_or]

/-- What is wrong with an integer that is no word. -/
def flawOf (radix : Radix) (digits : List Char) : LiteralFlaw :=
  if radix = .octal ∧ ('8' ∈ digits ∨ '9' ∈ digits) then .octalDigit
  else if radix = .octal then .octalOverflow
  else .overflow

/-- The digits belong to the radix, and the number fits a word. -/
def Fits (radix : Radix) (digits : List Char) : Prop :=
  (∀ d ∈ digits, digitNumber d < radix.base) ∧ numberOf radix digits ≤ 2 ^ 32 - 1

theorem integerWord_of_fits (number : IntegerBody radix mark digits) (fits : Fits radix digits) :
    integerWord radix digits = (UInt32.ofNat (numberOf radix digits), none) := by
  have hdigits := number.digitNumber_lt_iff.mp fits.1
  have hrange : digitsValue radix digits < 0x100000000 := by
    rw [digitsValue_eq number.all_isHexDigit]
    exact Nat.lt_succ_of_le fits.2
  unfold integerWord
  dsimp only
  rw [if_neg (by rwa [any_eight_or_nine]), if_pos hrange, digitsValue_eq number.all_isHexDigit]

theorem integerWord_of_not_fits (number : IntegerBody radix mark digits)
    (misfits : ¬Fits radix digits) :
    (integerWord radix digits).2 = some (flawOf radix digits) := by
  rw [Fits, number.digitNumber_lt_iff, ← digitsValue_eq number.all_isHexDigit] at misfits
  unfold integerWord flawOf
  dsimp only
  by_cases hdigits : radix = .octal ∧ ('8' ∈ digits ∨ '9' ∈ digits)
  · rw [if_pos (by rwa [any_eight_or_nine]), if_pos hdigits]
  · have hrange : ¬digitsValue radix digits < 0x100000000 :=
      fun hfits => misfits ⟨hdigits, Nat.le_of_lt_succ hfits⟩
    rw [if_neg (by rwa [any_eight_or_nine]), if_neg hdigits, if_neg hrange]
    split <;> rfl

theorem integerWord_flaw_iff (number : IntegerBody radix mark digits) :
    (integerWord radix digits).2 = none ↔ Fits radix digits := by
  by_cases hfits : Fits radix digits
  · exact iff_of_true (by rw [integerWord_of_fits number hfits]) hfits
  · exact iff_of_false (by simp [integerWord_of_not_fits number hfits]) hfits

theorem toNat_integerWord (number : IntegerBody radix mark digits) (fits : Fits radix digits) :
    (integerWord radix digits).1.toNat = numberOf radix digits ∧
      (integerWord radix digits).1.toInt32.toInt =
        (numberOf radix digits : Int).bmod (2 ^ 32) := by
  rw [integerWord_of_fits number fits, UInt32.toInt32_ofNat']
  exact ⟨UInt32.toNat_ofNat_of_lt' (Nat.lt_succ_of_le fits.2), Int32.toInt_ofNat⟩

theorem message_flawOf (radix : Radix) (digits : List Char) : (flawOf radix digits).message =
    if radix = .octal ∧ ('8' ∈ digits ∨ '9' ∈ digits) then "Invalid digit in octal constant."
    else if radix = .octal then "Overflow in octal constant."
    else "Overflow in integer constant." := by
  rw [flawOf, apply_ite LiteralFlaw.message, apply_ite LiteralFlaw.message]
  rfl

/-- Nothing that digits could go on with, as part of a number. -/
def Stops (behind : List Char) : Prop :=
  ∀ c ∈ behind.head?, isHexDigit c = false ∧ isExponentMark c = false ∧ c ≠ '.' ∧ c ≠ 'x' ∧ c ≠ 'X'

/-- What an identifier could not go on with, and no point. -/
theorem stops_of_endsBefore (ends : endsBefore rest) (point : rest.head? ≠ some '.') :
    Stops rest ∧ unsignedSuffix rest = 0 := by
  cases rest with
  | nil => exact ⟨by simp [Stops], rfl⟩
  | cons c rest =>
    have hpart : ¬Lexeme.isIdentPart c := fun h => by
      rw [Lexeme.endsBefore_of_isIdentPart h] at ends
      exact absurd ends (by simp)
    have hne (d : Char) (hd : Lexeme.isIdentPart d) : c ≠ d := fun h => hpart (h ▸ hd)
    refine ⟨fun d hd => ?_, ?_⟩
    · obtain rfl : c = d := by simpa using hd
      refine ⟨by simpa using mt isIdentPart_of_isHexDigit hpart, ?_, by simpa using point,
        hne 'x' (by decide), hne 'X' (by decide)⟩
      simp [isExponentMark, hne 'e' (by decide), hne 'E' (by decide)]
    · unfold unsignedSuffix
      split
      · rename_i heq
        exact absurd (List.cons.inj heq).1 (hne 'u' (by decide))
      · rename_i heq
        exact absurd (List.cons.inj heq).1 (hne 'U' (by decide))
      · rfl

theorem stops_suffix (ending : IntegerSuffix suffix unsigned) (ends : endsBefore rest)
    (point : rest.head? ≠ some '.') :
    Stops (suffix ++ rest) ∧ unsignedSuffix (suffix ++ rest) = suffix.length := by
  cases ending with
  | none => exact stops_of_endsBefore ends point
  | lower | upper => exact ⟨by simp [Stops]; decide, rfl⟩

theorem Stops.digitRun (stops : Stops behind) : digitRun behind = 0 :=
  digitRun_eq_zero fun c hc => by
    by_contra hdigit
    have hhex := isHexDigit_of_isDecimalDigit (by simpa using hdigit)
    rw [(stops c hc).1] at hhex
    simp at hhex

theorem Stops.exponentSize (stops : Stops behind) : exponentSize behind = 0 := by
  cases behind with
  | nil => rfl
  | cons c behind => simp [Literal.exponentSize, (stops c (by simp)).2.1]

/-- Digits that are not hexadecimal, with the zero that marks them if they are octal. -/
theorem IntegerBody.run (number : IntegerBody radix mark digits) (plain : radix ≠ .hexadecimal) :
    (∀ d ∈ mark ++ digits, isDecimalDigit d) ∧ mark ++ digits ≠ [] ∧
      plainBody (mark ++ digits) = (radix, digits, mark.length) := by
  cases number with
  | hexadecimal => exact absurd rfl plain
  | octal any all =>
    obtain ⟨d, digits, rfl⟩ := List.exists_cons_of_ne_nil any
    exact ⟨List.forall_mem_cons.mpr ⟨by decide, all⟩, List.cons_ne_nil _ _, rfl⟩
  | decimal any all zero =>
    refine ⟨all, any, ?_⟩
    rw [List.nil_append]
    unfold plainBody
    split
    · exact absurd (zero rfl) (by simp)
    · rfl

theorem not_startsHexadecimal {run : List Char} (all : ∀ d ∈ run, isDecimalDigit d) (any : run ≠ [])
    (stops : Stops behind) : ¬StartsHexadecimal (run ++ behind) := by
  rintro ⟨x, more, htext, marked, -⟩
  rcases run with - | ⟨c, - | ⟨d, run⟩⟩
  · exact any rfl
  · obtain rfl := (List.cons.inj htext).2
    obtain ⟨-, -, -, hx, hX⟩ := stops x (by simp)
    exact marked.elim hx hX
  · obtain rfl : d = x := (List.cons.inj (List.cons.inj htext).2).1
    have hd := all d (by simp)
    rcases marked with rfl | rfl <;> exact absurd hd (by decide)

/-- The digits of an integer are told from what follows. -/
theorem IntegerBody.integerBody_append (number : IntegerBody radix mark digits)
    (stops : Stops behind) :
    integerBody (mark ++ digits ++ behind) = (radix, digits, mark.length) := by
  by_cases hhex : radix = .hexadecimal
  · subst hhex
    cases number with
    | @hexadecimal x _ marked any all =>
      have hbehind : behind.takeWhile isHexDigit = [] := by
        cases behind with
        | nil => rfl
        | cons c behind => simp [(stops c (by simp)).1]
      have htake : (digits ++ behind).takeWhile isHexDigit = digits := by
        rw [List.takeWhile_append_of_pos all, hbehind, List.append_nil]
      have hsome : (digits ++ behind).takeWhile isHexDigit ≠ [] := by rwa [htake]
      have hbody := integerBody_hexadecimal marked hsome
      rw [htake] at hbody
      exact hbody
  · obtain ⟨all, any, hplain⟩ := number.run hhex
    obtain ⟨htake, -⟩ := takeWhile_dropWhile_digits all stops.digitRun
    rw [integerBody_plain (not_startsHexadecimal all any stops), htake, hplain]

/-- An integer does not go on as a floating-point number. -/
theorem IntegerBody.floatSize_append (number : IntegerBody radix mark digits)
    (stops : Stops behind) : floatSize (mark ++ digits ++ behind) = 0 := by
  by_cases hhex : radix = .hexadecimal
  · subst hhex
    cases number with
    | @hexadecimal x _ marked any all =>
      have hmark : isDecimalDigit x = false ∧ isExponentMark x = false ∧ x ≠ '.' := by
        rcases marked with rfl | rfl <;> decide
      have hzero : ∀ d ∈ ['0'], isDecimalDigit d := List.all_eq_true.mp (by decide)
      have hrun : Literal.digitRun (x :: (digits ++ behind)) = 0 :=
        digitRun_eq_zero (by simpa using hmark.1)
      have hexponent : Literal.exponentSize (x :: (digits ++ behind)) = 0 := by
        simp [Literal.exponentSize, hmark.2.1]
      have hsize := floatSize_whole hzero hrun (by simpa using hmark.2.2)
      rwa [if_pos (.inr hexponent)] at hsize
  · obtain ⟨all, any, -⟩ := number.run hhex
    have hpoint : behind.head? ≠ some '.' := fun h => (stops '.' h).2.2.1 rfl
    rw [floatSize_whole all stops.digitRun hpoint, if_pos (.inr stops.exponentSize)]

/-- An integer is taken as a whole. -/
theorem integer?_append (number : IntegerBody radix mark digits)
    (ending : IntegerSuffix suffix unsigned) (ends : endsBefore rest)
    (point : rest.head? ≠ some '.') :
    integer? (mark ++ digits ++ (suffix ++ rest)) =
      some (if unsigned then .uint (integerWord radix digits).1
        else .int (integerWord radix digits).1.toInt32, (integerWord radix digits).2,
        (mark ++ digits ++ suffix).length) := by
  obtain ⟨stops, hsuffix⟩ := stops_suffix ending ends point
  have hbody := number.integerBody_append stops
  have hany : digits ≠ [] := by cases number <;> assumption
  have hsize : integerSize (mark ++ digits ++ (suffix ++ rest)) =
      mark.length + digits.length + suffix.length := by
    rw [integerSize_eq hbody, ← List.length_append, List.drop_left, hsuffix]
  have hunsigned : (mark.length + digits.length < mark.length + digits.length + suffix.length) ↔
      unsigned = true := by cases ending <;> simp
  have hends : endsBefore ((mark ++ digits ++ (suffix ++ rest)).drop
      (mark.length + digits.length + suffix.length)) = true := by
    rw [← List.drop_drop, ← List.length_append, List.drop_left, List.drop_left]
    exact ends
  unfold integer?
  rw [hbody, hsize]
  dsimp only
  rw [hends, if_neg (by simpa using hany)]
  simp only [hunsigned, List.length_append]

end Literal

namespace Lexeme

open Literal

variable {radix : Radix} {mark digits suffix rest : List Char} {unsigned : Bool}

/-- The token that an integer is. -/
def ofInteger (radix : Radix) (digits : List Char) (unsigned : Bool) (size : Nat) : Lexeme where
  kind := .literal (if unsigned then .uint (integerWord radix digits).1
    else .int (integerWord radix digits).1.toInt32)
  flaw := (integerWord radix digits).2
  size := size

theorem first?_integer (number : IntegerBody radix mark digits)
    (ending : IntegerSuffix suffix unsigned) (ends : endsBefore rest)
    (point : rest.head? ≠ some '.') : first? (mark ++ digits ++ suffix ++ rest) =
      some (ofInteger radix digits unsigned (mark ++ digits ++ suffix).length) := by
  obtain ⟨stops, -⟩ := stops_suffix ending ends point
  have hfloat : float? (mark ++ digits ++ (suffix ++ rest)) = none := by
    rw [float?, number.floatSize_append stops]
    rfl
  have hcomment : comment? (mark ++ digits ++ (suffix ++ rest)) = none := by
    obtain ⟨c, cs, hfront, hdigit⟩ := number.head
    rw [hfront]
    refine comment?_eq_none ?_ _
    rintro rfl
    exact absurd hdigit (by decide)
  rw [List.append_assoc, first?_eq_some_iff]
  refine .inr ⟨hcomment, .inl ?_⟩
  rw [literal?, hfloat, integer?_append number ending ends point]
  rfl

end Lexeme

namespace Scan

variable {position position' : Nat} {text text' : List Char}

/-- Splitting a text comes to where the rest `text'` of it starts at byte `position'`. -/
inductive Comes (position' : Nat) (text' : List Char) : Nat → List Char → Prop
  | here : Comes position' text' position' text'
  | blank {position : Nat} {c : Char} {rest : List Char} (blank : isWhiteSpace c)
    (following : Comes position' text' (position + c.utf8Size) rest) :
    Comes position' text' position (c :: rest)
  | token {position : Nat} {c : Char} {rest : List Char} {lexeme : Lexeme}
    (solid : isWhiteSpace c = false) (first : Lexeme.first? (c :: rest) = some lexeme)
    (following : Comes position' text' (position + byteLength ((c :: rest).take lexeme.size))
      (rest.drop (lexeme.size - 1))) :
    Comes position' text' position (c :: rest)
  | stray {position skipped : Nat} {c : Char} {rest : List Char} {lexeme : Lexeme}
    (solid : isWhiteSpace c = false) (none : Lexeme.first? (c :: rest) = none)
    (next : Lexeme.next? rest = some (skipped, lexeme))
    (following : Comes position' text'
      (position + c.utf8Size + byteLength (rest.take (skipped + lexeme.size)))
      (rest.drop (skipped + lexeme.size))) :
    Comes position' text' position (c :: rest)

theorem ofText_nil (position : Nat) : ofText position [] = ⟨[], [], true⟩ := by
  rw [ofText.eq_def]

theorem ofText_blank {c : Char} {rest : List Char} (blank : isWhiteSpace c) :
    ofText position (c :: rest) = ofText (position + c.utf8Size) rest := by
  rw [ofText, if_pos blank]

theorem ofText_token {c : Char} {rest : List Char} {lexeme : Lexeme}
    (solid : isWhiteSpace c = false) (first : Lexeme.first? (c :: rest) = some lexeme) :
    ofText position (c :: rest) =
      (ofText (position + byteLength ((c :: rest).take lexeme.size))
        (rest.drop (lexeme.size - 1))).addToken lexeme position
          (position + byteLength ((c :: rest).take lexeme.size)) := by
  rw [ofText, if_neg (by simp [solid]), first]

/-- The token behind a stray character covers all in front of it. -/
theorem ofText_stray {c : Char} {rest : List Char} {lexeme : Lexeme} {skipped : Nat}
    (solid : isWhiteSpace c = false) (none : Lexeme.first? (c :: rest) = none)
    (next : Lexeme.next? rest = some (skipped, lexeme)) :
    let following := ofText (position + c.utf8Size + byteLength (rest.take (skipped + lexeme.size)))
      (rest.drop (skipped + lexeme.size))
    ∃ token, (ofText position (c :: rest)).tokens = token :: following.tokens ∧
      (ofText position (c :: rest)).complete = following.complete := by
  rw [ofText, if_neg (by simp [solid]), none, next]
  exact ⟨_, rfl, rfl⟩

/-- What comes before does not change how the rest is split. -/
theorem Comes.ofText_eq (h : Comes position' text' position text) : ∃ earlier,
    (ofText position text).tokens = earlier ++ (ofText position' text').tokens ∧
      (ofText position text).complete = (ofText position' text').complete := by
  induction h with
  | here => exact ⟨[], rfl, rfl⟩
  | blank blank _ ih =>
    rw [ofText_blank blank]
    exact ih
  | token solid first _ ih =>
    obtain ⟨earlier, htokens, hcomplete⟩ := ih
    rw [ofText_token solid first]
    exact ⟨_ :: earlier, congrArg _ htokens, hcomplete⟩
  | stray solid none next _ ih =>
    obtain ⟨earlier, htokens, hcomplete⟩ := ih
    obtain ⟨token, htoken, hsame⟩ := ofText_stray solid none next
    refine ⟨token :: earlier, ?_, hsame.trans hcomplete⟩
    rw [htoken, htokens, List.cons_append]

/-- Positions count the bytes that are left behind. -/
theorem Comes.exists_before (h : Comes position' text' position text) :
    ∃ before, text = before ++ text' ∧ position' = position + byteLength before := by
  have hsplit {text rest : List Char} {n start : Nat} (hdrop : text.drop n = rest)
      (ih : ∃ before, rest = before ++ text' ∧
        position' = start + byteLength (text.take n) + byteLength before) :
      ∃ before, text = before ++ text' ∧ position' = start + byteLength before := by
    obtain ⟨before, hrest, hposition⟩ := ih
    refine ⟨text.take n ++ before, ?_, ?_⟩
    · rw [List.append_assoc, ← hrest, ← hdrop, List.take_append_drop]
    · rw [byteLength_append, hposition, Nat.add_assoc]
  induction h with
  | here => exact ⟨[], rfl, rfl⟩
  | blank _ _ ih => exact hsplit (n := 1) rfl ih
  | @token _ c rest lexeme _ first _ ih =>
    refine hsplit (n := lexeme.size) ?_ ih
    obtain ⟨n, hn⟩ := Nat.exists_eq_add_one.mpr (Lexeme.size_pos first)
    rw [hn, List.drop_succ_cons, Nat.add_sub_cancel]
  | @stray _ skipped c rest lexeme _ _ _ _ ih =>
    refine hsplit (n := skipped + lexeme.size + 1) rfl ?_
    obtain ⟨before, hrest, hposition⟩ := ih
    refine ⟨before, hrest, ?_⟩
    rw [hposition, List.take_succ_cons]
    change _ = _ + (c.utf8Size + byteLength _) + _
    rw [Nat.add_assoc _ c.utf8Size]

/-- Splitting a source comes to where the rest `text` of it starts at byte `position`. -/
def ComesTo (source : String) (position : Nat) (text : List Char) : Prop :=
  match source.toList with
  | '\ufeff' :: rest => Comes position text 3 rest
  | whole => Comes position text 0 whole

theorem ComesTo.exists_comes {source : String} (h : ComesTo source position text) :
    ∃ mark rest, source.toList = mark ++ rest ∧ ofSource source = ofText (byteLength mark) rest ∧
      Comes position text (byteLength mark) rest := by
  unfold ComesTo at h
  unfold ofSource
  split
  · rename_i rest hsource
    rw [hsource] at h
    exact ⟨['\ufeff'], rest, hsource, rfl, h⟩
  · rename_i hplain
    split at h
    · rename_i rest hsource
      exact absurd hsource (hplain rest)
    · exact ⟨[], source.toList, rfl, rfl, h⟩

/-- What a scan finds at the place that it comes to stands in the source there. -/
theorem ComesTo.tokens {source : String} (h : ComesTo source position text) :
    ∃ before earlier, source.toList = before ++ text ∧ position = byteLength before ∧
      (ofSource source).tokens = earlier ++ (ofText position text).tokens := by
  obtain ⟨mark, rest, hsource, hscan, hcomes⟩ := h.exists_comes
  obtain ⟨before, hrest, hposition⟩ := hcomes.exists_before
  obtain ⟨earlier, htokens, -⟩ := hcomes.ofText_eq
  refine ⟨mark ++ before, earlier, ?_, ?_, hscan ▸ htokens⟩
  · rw [hsource, hrest, List.append_assoc]
  · rw [byteLength_append, hposition]

/-- What is reported about the literals of a source. -/
def reports (tokens : List (Token × Option LiteralFlaw)) : List Diagnostic :=
  tokens.filterMap fun (token, flaw) => flaw.map fun f => ⟨.literal f, token.span⟩

end Scan

theorem Scan.reports_append (tokens tokens' : List (Token × Option LiteralFlaw)) :
    reports (tokens ++ tokens') = reports tokens ++ reports tokens' :=
  List.filterMap_append

theorem Scan.reports_cons (token : Token) (flaw : Option LiteralFlaw)
    (tokens : List (Token × Option LiteralFlaw)) : reports ((token, flaw) :: tokens) =
      (flaw.map fun f => ⟨.literal f, token.span⟩).toList ++ reports tokens := by
  cases flaw with
  | none | some => rfl

/-- A source that is split up to its end has the tokens of the scan, and what is wrong with one of
    them is reported between what is wrong with the others. -/
theorem lex_of_complete {source : String} {token : Token} {flaw : Option LiteralFlaw}
    {earlier later : List (Token × Option LiteralFlaw)}
    (complete : (Scan.ofSource source).complete) (solid : token.kind.isComment = false)
    (htokens : (Scan.ofSource source).tokens = earlier ++ (token, flaw) :: later) :
    ∃ found, token ∈ found.tokens ∧ lex source =
      (some found, (Scan.ofSource source).errors ++ Scan.reports earlier ++
        (flaw.map fun f => ⟨.literal f, token.span⟩).toList ++ Scan.reports later) := by
  have hreports : Scan.reports (Scan.ofSource source).tokens = Scan.reports earlier ++
      ((flaw.map fun f => ⟨.literal f, token.span⟩).toList ++ Scan.reports later) := by
    rw [htokens, Scan.reports_append, Scan.reports_cons]
  have hmem : token ∈ (Scan.ofSource source).tokens.map (·.1) :=
    List.mem_map_of_mem (htokens ▸ List.mem_append_right _ List.mem_cons_self)
  rw [lex, if_pos complete, List.append_assoc, List.append_assoc, ← hreports]
  exact ⟨_, List.mem_filter.mpr ⟨hmem, by rw [solid]; rfl⟩, rfl⟩

open Literal

variable {radix : Radix} {mark digits suffix rest : List Char} {unsigned : Bool}

/-- A scan that comes to an integer takes it as one token. -/
theorem Scan.ofText_integer (number : IntegerBody radix mark digits)
    (ending : IntegerSuffix suffix unsigned) (ends : endsBefore rest)
    (point : rest.head? ≠ some '.') {position stop : Nat}
    (hstop : stop = position + byteLength (mark ++ digits ++ suffix)) :
    ofText position (mark ++ digits ++ suffix ++ rest) = (ofText stop rest).addToken
      (.ofInteger radix digits unsigned (mark ++ digits ++ suffix).length) position stop := by
  have hfirst := Lexeme.first?_integer number ending ends point
  obtain ⟨c, cs, hfront, hdigit⟩ := number.head
  have hsolid := isWhiteSpace_of_isDecimalDigit hdigit
  have htext : mark ++ digits ++ suffix = c :: (cs ++ suffix) := by rw [hfront, List.cons_append]
  rw [htext] at hstop hfirst ⊢
  rw [List.cons_append] at hfirst ⊢
  have htake : (c :: (cs ++ suffix ++ rest)).take (c :: (cs ++ suffix)).length =
      c :: (cs ++ suffix) := List.take_left
  have hdrop : (cs ++ suffix ++ rest).drop ((c :: (cs ++ suffix)).length - 1) = rest :=
    List.drop_left
  rw [ofText_token hsolid hfirst, Lexeme.ofInteger, htake, hdrop, ← hstop]

/-- An integer that is all of a source is all that is found in it. -/
theorem lex_of_integer (number : IntegerBody radix mark digits)
    (ending : IntegerSuffix suffix unsigned) {source : String}
    (hsource : source.toList = mark ++ digits ++ suffix) :
    let span : Span := ⟨0, byteLength (mark ++ digits ++ suffix)⟩
    let lexeme := Lexeme.ofInteger radix digits unsigned (mark ++ digits ++ suffix).length
    lex source = (some ⟨[⟨lexeme.kind, span⟩], []⟩,
      (lexeme.flaw.map fun f => ⟨.literal f, span⟩).toList) := by
  have hplain : source.toList.head? ≠ some '\ufeff' := by
    obtain ⟨c, cs, hfront, hdigit⟩ := number.head
    rw [hsource, hfront, List.cons_append, List.head?_cons]
    intro hmark
    obtain rfl := Option.some.inj hmark
    exact absurd hdigit (by decide)
  have hpoint : ([] : List Char).head? ≠ some '.' := by simp
  have hscan := Scan.ofText_integer number ending (show endsBefore [] from rfl) hpoint
    (Nat.zero_add _).symm
  rw [List.append_nil, Scan.ofText_nil, ← hsource, ← Scan.ofSource_eq_ofText hplain] at hscan
  dsimp only [Lexeme.ofInteger]
  rw [lex, hscan, hsource, Scan.addToken, Lexeme.ofInteger]
  cases (integerWord radix digits).2 with
  | none | some => rfl

/-- Integer literals are read exactly. The literal has no flaw just if all of its digits belong to
    the radix and the number that they write fits a word. Then the word is that number, and an `int`
    is its reading in two's complement. Otherwise the flaw is a digit that is none of the radix, if
    there is one, or that the number is too great. Wherever a scan comes to the literal, all of it is
    one token, and the flaw is all that is reported for it; a source that is nothing but the literal
    has this token alone. -/
theorem lex_integer (number : IntegerBody radix mark digits)
    (ending : IntegerSuffix suffix unsigned) : ∃ (word : UInt32) (flaw : Option LiteralFlaw),
    (flaw = none ↔ (∀ d ∈ digits, digitNumber d < radix.base) ∧
      numberOf radix digits ≤ 2 ^ 32 - 1) ∧
    (flaw = none → word.toNat = numberOf radix digits ∧
      word.toInt32.toInt = (numberOf radix digits : Int).bmod (2 ^ 32)) ∧
    (∀ f, flaw = some f → f.message =
      if radix = .octal ∧ ('8' ∈ digits ∨ '9' ∈ digits) then "Invalid digit in octal constant."
      else if radix = .octal then "Overflow in octal constant."
      else "Overflow in integer constant.") ∧
    let literal := mark ++ digits ++ suffix
    let kind := Token.Kind.literal (if unsigned then .uint word else .int word.toInt32)
    (∀ {source position rest}, endsBefore rest → rest.head? ≠ some '.' →
      Scan.ComesTo source position (literal ++ rest) →
        let token : Token := ⟨kind, ⟨position, position + byteLength literal⟩⟩
        let scan := Scan.ofSource source
        ∃ before earlier later, source.toList = before ++ (literal ++ rest) ∧
          position = byteLength before ∧ scan.tokens = earlier ++ (token, flaw) :: later ∧
          (scan.complete → ∃ found, token ∈ found.tokens ∧ lex source =
            (some found, scan.errors ++ Scan.reports earlier ++
              (flaw.map fun f => ⟨.literal f, token.span⟩).toList ++ Scan.reports later))) ∧
    ∀ {source : String}, source.toList = literal → lex source =
      (some ⟨[⟨kind, ⟨0, byteLength literal⟩⟩], []⟩,
        (flaw.map fun f => ⟨.literal f, ⟨0, byteLength literal⟩⟩).toList) := by
  refine ⟨(integerWord radix digits).1, (integerWord radix digits).2,
    integerWord_flaw_iff number, fun hflaw => ?_, fun f hf => ?_, ?_, ?_⟩
  · exact toNat_integerWord number ((integerWord_flaw_iff number).mp hflaw)
  · have hmisfits : ¬Fits radix digits := fun hfits => by
      simp [integerWord_of_fits number hfits] at hf
    rw [integerWord_of_not_fits number hmisfits] at hf
    rw [← Option.some.inj hf, message_flawOf]
  · intro source position rest ends point comes token scan
    obtain ⟨before, earlier, hsource, hposition, htokens⟩ := comes.tokens
    rw [Scan.ofText_integer number ending ends point rfl] at htokens
    generalize Scan.ofText (position + _) rest = later at htokens
    have hscan : scan.tokens = earlier ++ (token, (integerWord radix digits).2) :: later.tokens :=
      htokens
    exact ⟨before, earlier, later.tokens, hsource, hposition, hscan,
      fun hcomplete => lex_of_complete hcomplete rfl hscan⟩
  · exact lex_of_integer number ending

/-- An octal literal with a digit that is none, behind other tokens, and a word of ones. -/
theorem lex_integer_octal :
    (∃ f found before behind, f.message = "Invalid digit in octal constant." ∧
      lex "1 + 09;" = (some found, before ++ [⟨.literal f, ⟨4, 6⟩⟩] ++ behind)) ∧
    ∃ word : UInt32, word.toNat = 4294967295 ∧ word.toInt32.toInt = -1 ∧
      lex "0XFFffFFff" = (some ⟨[⟨.literal (.int word.toInt32), ⟨0, 10⟩⟩], []⟩, []) := by
  have hoctal : IntegerBody .octal ['0'] ['9'] := .octal (by simp) (by simp; decide)
  have hhex : IntegerBody .hexadecimal ['0', 'X'] ['F', 'F', 'f', 'f', 'F', 'F', 'f', 'f'] :=
    .hexadecimal (.inr rfl) (by decide) (List.all_eq_true.mp (by decide))
  constructor
  · obtain ⟨word, flaw, hflaw, -, hmessage, hcomes, -⟩ := lex_integer hoctal .none
    have hone : Lexeme.first? ['1', ' ', '+', ' ', '0', '9', ';'] =
        some ⟨.literal (.int 1), none, 1⟩ := by decide +kernel
    have hplus : Lexeme.first? ['+', ' ', '0', '9', ';'] = some ⟨.control '+', none, 1⟩ := by
      decide +kernel
    have comes : Scan.ComesTo "1 + 09;" 4 (['0'] ++ ['9'] ++ [] ++ [';']) := by
      have htext : "1 + 09;".toList = ['1', ' ', '+', ' ', '0', '9', ';'] := by decide
      rw [Scan.ComesTo, htext]
      exact .token rfl hone (.blank rfl (.token rfl hplus (.blank rfl .here)))
    obtain ⟨-, earlier, later, -, -, -, hlex⟩ := hcomes rfl (by simp) comes
    obtain ⟨found, -, hlex⟩ := hlex (by decide +kernel)
    cases flaw with
    | none => exact absurd ((hflaw.mp rfl).1 '9' (by simp)) (by decide)
    | some f => exact ⟨f, found, _, _, hmessage f rfl, hlex⟩
  · obtain ⟨word, flaw, hflaw, hword, -, -, hlex⟩ := lex_integer hhex .none
    have hnumber : numberOf .hexadecimal ['F', 'F', 'f', 'f', 'F', 'F', 'f', 'f'] = 4294967295 := by
      decide +kernel
    rw [hnumber] at hflaw hword
    obtain rfl : flaw = none := hflaw.mpr ⟨fun d hd => digitNumber_lt (hhex.all_isHexDigit d hd), by
      decide⟩
    obtain ⟨hnat, hint⟩ := hword rfl
    have hcomplement : ((4294967295 : Nat) : Int).bmod (2 ^ 32) = -1 := by decide
    have htext : "0XFFffFFff".toList =
        ['0', 'X'] ++ ['F', 'F', 'f', 'f', 'F', 'F', 'f', 'f'] ++ [] := by decide
    exact ⟨word, hnat, hint.trans hcomplement, hlex htext⟩

end ShaderExpr
