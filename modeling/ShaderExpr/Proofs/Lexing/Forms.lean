import ShaderExpr.Proofs.Collections
import ShaderExpr.Proofs.Printing.Word

namespace ShaderExpr

namespace Literal

/-- An exponent, and what it says. -/
inductive Exponent : List Char → Int → Prop
  | positive {mark : Char} {sign digits : List Char} (marked : isExponentMark mark)
    (signed : sign = [] ∨ sign = ['+']) (any : digits ≠ [])
    (decimal : ∀ d ∈ digits, isDecimalDigit d) :
    Exponent (mark :: (sign ++ digits)) (decimalValue digits)
  | negative {mark : Char} {digits : List Char} (marked : isExponentMark mark) (any : digits ≠ [])
    (decimal : ∀ d ∈ digits, isDecimalDigit d) :
    Exponent (mark :: '-' :: digits) (-decimalValue digits)

/-- A number with a point or an exponent, without its suffix, and what it says. Digits may be missing
    on one side of the point. -/
inductive FloatBody : List Char → Decimal → Prop
  | fraction {whole fraction : List Char} (before : ∀ d ∈ whole, isDecimalDigit d)
    (behind : ∀ d ∈ fraction, isDecimalDigit d) (any : whole ≠ [] ∨ fraction ≠ []) :
    FloatBody (whole ++ '.' :: fraction) ⟨decimalValue (whole ++ fraction), -fraction.length⟩
  | scaled {whole fraction exponent : List Char} {e : Int} (before : ∀ d ∈ whole, isDecimalDigit d)
    (behind : ∀ d ∈ fraction, isDecimalDigit d) (any : whole ≠ [] ∨ fraction ≠ [])
    (scale : Exponent exponent e) :
    FloatBody (whole ++ '.' :: (fraction ++ exponent))
      ⟨decimalValue (whole ++ fraction), e - fraction.length⟩
  | whole {whole exponent : List Char} {e : Int} (before : ∀ d ∈ whole, isDecimalDigit d)
    (any : whole ≠ []) (scale : Exponent exponent e) :
    FloatBody (whole ++ exponent) ⟨decimalValue whole, e⟩

/-- What may stand behind a number with a point or an exponent, and whether it makes a double of
    it. -/
inductive FloatSuffix : List Char → Bool → Prop
  | none : FloatSuffix [] false
  | lower : FloatSuffix ['f'] false
  | upper : FloatSuffix ['F'] false
  | lowerDouble : FloatSuffix ['l', 'f'] true
  | upperDouble : FloatSuffix ['L', 'F'] true

/-- The digits of an integer behind the mark of their radix. -/
inductive IntegerBody : Radix → List Char → List Char → Prop
  | hexadecimal {mark : Char} {digits : List Char} (marked : mark = 'x' ∨ mark = 'X')
    (any : digits ≠ []) (all : ∀ d ∈ digits, isHexDigit d) :
    IntegerBody .hexadecimal ['0', mark] digits
  | octal {digits : List Char} (any : digits ≠ []) (all : ∀ d ∈ digits, isDecimalDigit d) :
    IntegerBody .octal ['0'] digits
  | decimal {digits : List Char} (any : digits ≠ []) (all : ∀ d ∈ digits, isDecimalDigit d)
    (plain : digits.head? = some '0' → digits = ['0']) : IntegerBody .decimal [] digits

/-- What may stand behind an integer, and whether it makes it unsigned. -/
inductive IntegerSuffix : List Char → Bool → Prop
  | none : IntegerSuffix [] false
  | lower : IntegerSuffix ['u'] true
  | upper : IntegerSuffix ['U'] true

end Literal

namespace Token

open Literal

/-- A text is a token, possibly a flawed one. This says which texts are tokens without regard to how
    one is found. -/
inductive Forms : List Char → Kind → Option LiteralFlaw → Prop
  | line {body : List Char} (inside : '\n' ∉ body) :
    Forms ('/' :: '/' :: body) (.comment (String.ofList (trimmed body))) none
  | block {body : List Char} (inside : ¬['*', '/'] <:+: body) :
    Forms ('/' :: '*' :: (body ++ ['*', '/'])) (.comment (String.ofList (trimmed body))) none
  | float {body suffix : List Char} {value : Decimal} {double : Bool} (number : FloatBody body value)
    (ending : FloatSuffix suffix double) :
    Forms (body ++ suffix) (.literal (if double then
      .double ⟨UInt64.ofNat (value.toBits .double)⟩
        else .float ⟨UInt32.ofNat (value.toBits .single)⟩)) none
  | integer {radix : Radix} {mark digits suffix : List Char} {unsigned : Bool}
    (number : IntegerBody radix mark digits) (ending : IntegerSuffix suffix unsigned) :
    Forms (mark ++ digits ++ suffix) (.literal (if unsigned then .uint (integerWord radix digits).1
      else .int (integerWord radix digits).1.toInt32)) (integerWord radix digits).2
  | bool (b : Bool) : Forms (if b then "true" else "false").toList (.literal (.bool b)) none
  | symbol (s : Symbol) : Forms s.text.toList (.symbol s) none
  | keyword {word : String} (known : word ∈ keywords) : Forms word.toList (.keyword word) none
  | ident {name : String} (free : IsIdentifier name) : Forms name.toList (.ident name) none
  | control {c : Char} (known : c ∈ controls) : Forms [c] (.control c) none

/-- What may follow a token: behind integers and truth values, nothing that could go on with a
    word. -/
def Kind.Ends (rest : List Char) : Kind → Prop
  | .literal (.int _) | .literal (.uint _) | .literal (.bool _) => endsBefore rest
  | _ => True

end Token

namespace Literal

theorem signSize_cases (text : List Char) :
    (signSize text = 0 ∧ ∀ c ∈ text.head?, c ≠ '+' ∧ c ≠ '-') ∨ ∃ rest,
      (text = '+' :: rest ∨ text = '-' :: rest) ∧ signSize text = 1 := by
  unfold signSize
  split
  · exact .inr ⟨_, .inl rfl, rfl⟩
  · exact .inr ⟨_, .inr rfl, rfl⟩
  · rename_i hplus hminus
    refine .inl ⟨rfl, fun c hc => ?_⟩
    cases text with
    | nil => simp at hc
    | cons d text =>
      obtain rfl : d = c := by simpa using hc
      exact ⟨fun h => hplus text (h ▸ rfl), fun h => hminus text (h ▸ rfl)⟩

theorem digitRun_append {digits rest : List Char} (all : ∀ d ∈ digits, isDecimalDigit d) :
    digitRun (digits ++ rest) = digits.length + digitRun rest := by
  rw [digitRun, digitRun, List.takeWhile_append_of_pos all, List.length_append]

theorem digitRun_eq_zero {text : List Char} (h : ∀ c ∈ text.head?, isDecimalDigit c = false) :
    digitRun text = 0 := by
  cases text with
  | nil => rfl
  | cons c text => simp [digitRun, h c (by simp)]

/-- A text starts with as many digits as there are. -/
theorem exists_digits (text : List Char) : ∃ digits rest, text = digits ++ rest ∧
    (∀ d ∈ digits, isDecimalDigit d) ∧ digitRun rest = 0 ∧ digitRun text = digits.length := by
  have hsplit := List.takeWhile_append_dropWhile (p := isDecimalDigit) (l := text)
  have hrest : digitRun (text.dropWhile isDecimalDigit) = 0 := by
    apply digitRun_eq_zero
    intro c hc
    have hhead := List.head?_dropWhile_not (p := isDecimalDigit) (l := text)
    rw [hc] at hhead
    exact hhead
  exact ⟨_, _, hsplit.symm, List.all_eq_true.mp List.all_takeWhile, hrest, rfl⟩

/-- Digits behind an exponent belong to it. -/
theorem exponentSize_append {exponent rest : List Char} {e : Int} (h : Exponent exponent e) :
    exponentSize (exponent ++ rest) = exponent.length + digitRun rest := by
  have hsize {mark : Char} {behind sign digits : List Char} (marked : isExponentMark mark)
      (hbehind : behind = sign ++ digits ++ rest) (hsign : signSize behind = sign.length)
      (any : digits ≠ []) (decimal : ∀ d ∈ digits, isDecimalDigit d) :
      exponentSize (mark :: behind) = 1 + sign.length + digits.length + digitRun rest := by
    have hrun : digitRun (behind.drop sign.length) = digits.length + digitRun rest := by
      rw [hbehind, List.append_assoc, List.drop_left, digitRun_append decimal]
    have hlength : digits.length ≠ 0 := by simpa using any
    have htaken : (isExponentMark mark && digits.length + digitRun rest != 0) = true := by
      simp [marked, hlength]
    simp only [exponentSize, hsign, hrun]
    rw [if_pos htaken]
    omega
  cases h with
  | @positive mark sign digits marked signed any decimal =>
    have hsign : signSize (sign ++ digits ++ rest) = sign.length := by
      rcases signed with rfl | rfl
      · obtain ⟨d, digits, rfl⟩ := List.exists_cons_of_ne_nil any
        have hd := decimal d List.mem_cons_self
        rcases signSize_cases ([] ++ d :: digits ++ rest) with ⟨hsign, -⟩ | ⟨_, htext, -⟩
        · exact hsign
        · rcases htext with htext | htext
          · obtain rfl := (List.cons.inj htext).1
            exact absurd hd (by decide)
          · obtain rfl := (List.cons.inj htext).1
            exact absurd hd (by decide)
      · rfl
    rw [List.cons_append, hsize marked rfl hsign any decimal]
    simp only [List.length_cons, List.length_append]
    omega
  | @negative mark digits marked any decimal =>
    have hminus : '-' :: digits ++ rest = ['-'] ++ digits ++ rest := rfl
    rw [List.cons_append, hminus, hsize marked rfl rfl any decimal]
    simp only [List.length_cons, List.length_nil]
    omega

/-- An exponent that is taken from a text is one. -/
theorem exponent_of_exponentSize {text : List Char} (h : exponentSize text ≠ 0) :
    ∃ exponent rest e, text = exponent ++ rest ∧ exponent.length = exponentSize text ∧
      Exponent exponent e := by
  cases text with
  | nil => simp [exponentSize] at h
  | cons mark text =>
    have htaken : isExponentMark mark ∧ digitRun (text.drop (signSize text)) ≠ 0 := by
      unfold exponentSize at h
      dsimp only at h
      split at h
      · rename_i htaken
        simpa using htaken
      · simp at h
    obtain ⟨hmark, hsome⟩ := htaken
    obtain ⟨digits, rest, hdigits, hall, hrest, hrun⟩ := exists_digits (text.drop (signSize text))
    have hany : digits ≠ [] := by
      rintro rfl
      exact hsome hrun
    -- The exponent is taken whole, since no digit is behind it.
    have htake {exponent : List Char} {e : Int} (htext : mark :: text = exponent ++ rest)
        (hexponent : Exponent exponent e) : ∃ exponent rest e, mark :: text = exponent ++ rest ∧
          exponent.length = exponentSize (mark :: text) ∧ Exponent exponent e := by
      refine ⟨exponent, rest, e, htext, ?_, hexponent⟩
      rw [htext, exponentSize_append hexponent, hrest, Nat.add_zero]
    rcases signSize_cases text with ⟨hsign, -⟩ | ⟨behind, htext, hsign⟩
    · rw [hsign, List.drop_zero] at hdigits
      subst hdigits
      have hexponent : Exponent (mark :: ([] ++ digits)) _ := .positive hmark (.inl rfl) hany hall
      exact htake rfl hexponent
    · rw [hsign] at hdigits
      obtain rfl | rfl : text = '+' :: (digits ++ rest) ∨ text = '-' :: (digits ++ rest) := by
        rcases htext with rfl | rfl
        · exact .inl (congrArg _ hdigits)
        · exact .inr (congrArg _ hdigits)
      · have hexponent : Exponent (mark :: (['+'] ++ digits)) _ :=
          .positive hmark (.inr rfl) hany hall
        exact htake rfl hexponent
      · exact htake rfl (.negative hmark hany hall)

theorem floatSize_point {whole behind : List Char} (before : ∀ d ∈ whole, isDecimalDigit d) :
    floatSize (whole ++ '.' :: behind) =
      if whole.length = 0 ∧ digitRun behind = 0 then 0
      else whole.length + 1 + digitRun behind + exponentSize (behind.drop (digitRun behind)) := by
  have hrun : digitRun (whole ++ '.' :: behind) = whole.length := by
    rw [digitRun_append before, digitRun_eq_zero (by simp; decide), Nat.add_zero]
  unfold floatSize
  simp only [hrun, List.drop_left]

theorem floatSize_whole {whole rest : List Char} (before : ∀ d ∈ whole, isDecimalDigit d)
    (hrest : digitRun rest = 0) (hpoint : rest.head? ≠ some '.') :
    floatSize (whole ++ rest) =
      if whole.length = 0 ∨ exponentSize rest = 0 then 0 else whole.length + exponentSize rest := by
  have hrun : digitRun (whole ++ rest) = whole.length := by
    rw [digitRun_append before, hrest, Nat.add_zero]
  unfold floatSize
  simp only [hrun, List.drop_left]
  split
  · exact absurd rfl hpoint
  · rfl

theorem Exponent.head {exponent : List Char} {e : Int} (h : Exponent exponent e)
    (rest : List Char) :
    digitRun (exponent ++ rest) = 0 ∧ (exponent ++ rest).head? ≠ some '.' ∧ exponent ≠ [] := by
  have hmark {mark : Char} (marked : isExponentMark mark) (text : List Char) :
      digitRun (mark :: text) = 0 ∧ (mark :: text).head? ≠ some '.' := by
    simp only [isExponentMark, Bool.or_eq_true, decide_eq_true_eq] at marked
    refine ⟨digitRun_eq_zero fun c hc => ?_, fun hc => ?_⟩
    · obtain rfl : mark = c := by simpa using hc
      rcases marked with rfl | rfl <;> decide
    · obtain rfl : mark = '.' := by simpa using hc
      simp at marked
  cases h with
  | positive marked => exact ⟨(hmark marked _).1, (hmark marked _).2, List.cons_ne_nil _ _⟩
  | negative marked => exact ⟨(hmark marked _).1, (hmark marked _).2, List.cons_ne_nil _ _⟩

/-- A number is taken as a whole, and more of the text where it goes on. -/
theorem floatSize_append {body : List Char} {value : Decimal} (h : FloatBody body value)
    (rest : List Char) :
    ∃ more, floatSize (body ++ rest) = body.length + more ∧
      ((∀ c ∈ rest.head?, isDecimalDigit c = false ∧ isExponentMark c = false) → more = 0) := by
  have hends (hrest : ∀ c ∈ rest.head?, isDecimalDigit c = false ∧ isExponentMark c = false) :
      digitRun rest = 0 ∧ exponentSize rest = 0 := by
    refine ⟨digitRun_eq_zero fun c hc => (hrest c hc).1, ?_⟩
    cases rest with
    | nil => rfl
    | cons c rest => simp [exponentSize, (hrest c (by simp)).2]
  have hnone {whole fraction behind : List Char} (any : whole ≠ [] ∨ fraction ≠ [])
      (hrun : digitRun behind ≥ fraction.length) :
      ¬(whole.length = 0 ∧ digitRun behind = 0) := by
    rintro ⟨hwhole, hzero⟩
    rcases any with h | h
    · exact h (List.length_eq_zero_iff.mp hwhole)
    · exact h (List.length_eq_zero_iff.mp (by omega))
  have hdrop {fraction rest : List Char} (n : Nat) :
      (fraction ++ rest).drop (fraction.length + n) = rest.drop n := by
    rw [← List.drop_drop, List.drop_left]
  cases h with
  | @fraction whole fraction before behind any =>
    refine ⟨digitRun rest + exponentSize (rest.drop (digitRun rest)), ?_, fun hrest => ?_⟩
    · have hrun : digitRun (fraction ++ rest) = fraction.length + digitRun rest :=
        digitRun_append behind
      rw [List.append_assoc, List.cons_append, floatSize_point before,
        if_neg (hnone any (by omega)), hrun, hdrop]
      simp only [List.length_append, List.length_cons]
      omega
    · obtain ⟨hrun, hexponent⟩ := hends hrest
      rw [hrun, List.drop_zero, hexponent]
  | @scaled whole fraction exponent e before behind any scale =>
    refine ⟨digitRun rest, ?_, fun hrest => (hends hrest).1⟩
    have hrun : digitRun (fraction ++ (exponent ++ rest)) = fraction.length + 0 := by
      rw [digitRun_append behind, (scale.head rest).1]
    rw [List.append_assoc, List.cons_append, List.append_assoc, floatSize_point before,
      if_neg (hnone any (by omega)), hrun, hdrop, List.drop_zero, exponentSize_append scale]
    simp only [List.length_append, List.length_cons]
    omega
  | @whole whole exponent e before any scale =>
    refine ⟨digitRun rest, ?_, fun hrest => (hends hrest).1⟩
    obtain ⟨hrun, hpoint, hsome⟩ := scale.head rest
    have hwhole : whole.length ≠ 0 := by simpa using any
    have hexponent : exponent.length ≠ 0 := by simpa using hsome
    rw [List.append_assoc, floatSize_whole before hrun hpoint, exponentSize_append scale,
      if_neg (by omega), List.length_append]
    omega

/-- A number with a point or an exponent that is taken from a text is one. -/
theorem floatBody_of_floatSize {text : List Char} (h : floatSize text ≠ 0) :
    ∃ body rest value, text = body ++ rest ∧ body.length = floatSize text ∧
      FloatBody body value := by
  obtain ⟨whole, behind, rfl, before, hbehind, -⟩ := exists_digits text
  by_cases hpoint : behind.head? = some '.'
  · obtain ⟨behind, rfl⟩ : ∃ rest, behind = '.' :: rest := by
      cases behind with
      | nil => simp at hpoint
      | cons c rest => exact ⟨rest, by rw [Option.some.inj hpoint]⟩
    rw [floatSize_point before] at h ⊢
    split at h
    · exact absurd rfl h
    · rename_i hsome
      rw [if_neg hsome]
      obtain ⟨fraction, rest, rfl, hfraction, hrest, hrun⟩ := exists_digits behind
      rw [hrun, not_and_or, List.length_eq_zero_iff, List.length_eq_zero_iff] at hsome
      rw [hrun, List.drop_left]
      by_cases hexponent : exponentSize rest = 0
      · refine ⟨whole ++ '.' :: fraction, rest, _, by simp, ?_, .fraction before hfraction hsome⟩
        simp [hexponent]
        omega
      · obtain ⟨exponent, rest, e, rfl, hlength, scale⟩ := exponent_of_exponentSize hexponent
        refine ⟨whole ++ '.' :: (fraction ++ exponent), rest, _, by simp, ?_,
          .scaled before hfraction hsome scale⟩
        rw [← hlength]
        simp
        omega
  · rw [floatSize_whole before hbehind hpoint] at h ⊢
    split at h
    · exact absurd rfl h
    · rename_i hsome
      rw [if_neg hsome]
      obtain ⟨hwhole, hexponent⟩ := not_or.mp hsome
      obtain ⟨exponent, rest, e, rfl, hlength, scale⟩ := exponent_of_exponentSize hexponent
      refine ⟨whole ++ exponent, rest, _, by simp, ?_, .whole before (by simpa using hwhole) scale⟩
      rw [← hlength, List.length_append]

theorem takeWhile_dropWhile_digits {digits rest : List Char}
    (all : ∀ d ∈ digits, isDecimalDigit d) (hrest : digitRun rest = 0) :
    (digits ++ rest).takeWhile isDecimalDigit = digits ∧
      (digits ++ rest).dropWhile isDecimalDigit = rest := by
  have htake : rest.takeWhile isDecimalDigit = [] := List.length_eq_zero_iff.mp hrest
  have hdrop : rest.dropWhile isDecimalDigit = rest := by
    have hsplit := List.takeWhile_append_dropWhile (p := isDecimalDigit) (l := rest)
    rwa [htake, List.nil_append] at hsplit
  rw [List.takeWhile_append_of_pos all, List.dropWhile_append_of_pos all, htake, hdrop,
    List.append_nil]
  exact ⟨rfl, rfl⟩

theorem Exponent.read {exponent : List Char} {e : Int} (h : Exponent exponent e) :
    ∃ mark text, exponent = mark :: text ∧ (mark = 'e' ∨ mark = 'E') ∧
      readInteger? text = some e := by
  have hread {text digits : List Char} {negative : Bool}
      (hsign : readSign text = (negative, digits)) (any : digits ≠ [])
      (decimal : ∀ d ∈ digits, isDecimalDigit d) :
      readInteger? text = some (if negative then -(decimalValue digits : Int)
        else decimalValue digits) := by
    unfold readInteger?
    rw [hsign]
    have hall : digits.all isDecimalDigit = true := List.all_eq_true.mpr decimal
    simp [any, hall]
  cases h with
  | @positive mark sign digits marked signed any decimal =>
    refine ⟨mark, sign ++ digits, rfl, by simpa [isExponentMark] using marked, ?_⟩
    have hsign : readSign (sign ++ digits) = (false, digits) := by
      rcases signed with rfl | rfl
      · obtain ⟨d, digits, rfl⟩ := List.exists_cons_of_ne_nil any
        have hd := decimal d List.mem_cons_self
        unfold readSign
        rw [List.nil_append]
        split
        · rename_i heq
          obtain rfl := (List.cons.inj heq).1
          exact absurd hd (by decide)
        · rename_i heq
          obtain rfl := (List.cons.inj heq).1
          exact absurd hd (by decide)
        · rfl
      · rfl
    exact hread hsign any decimal
  | @negative mark digits marked any decimal =>
    exact ⟨mark, '-' :: digits, rfl, by simpa [isExponentMark] using marked,
      hread rfl any decimal⟩

/-- A number is read as what it says. -/
theorem FloatBody.read {body : List Char} {value : Decimal} (h : FloatBody body value) :
    Decimal.read? body = some value := by
  have hpoint (behind : List Char) : digitRun ('.' :: behind) = 0 :=
    digitRun_eq_zero (by simp; decide)
  cases h with
  | @fraction whole fraction before behind any =>
    obtain ⟨htake, hdrop⟩ := takeWhile_dropWhile_digits before (hpoint fraction)
    obtain ⟨htake', hdrop'⟩ := takeWhile_dropWhile_digits behind (show digitRun [] = 0 from rfl)
    rw [List.append_nil] at htake' hdrop'
    have hany : ¬(whole = [] ∧ fraction = []) := not_and_or.mpr any
    unfold Decimal.read?
    simp only [htake, hdrop, htake', hdrop']
    simp [hany]
  | @scaled whole fraction exponent e before behind any scale =>
    obtain ⟨mark, text, rfl, hmark, hread⟩ := scale.read
    obtain ⟨htake, hdrop⟩ := takeWhile_dropWhile_digits before (hpoint (fraction ++ mark :: text))
    obtain ⟨htake', hdrop'⟩ := takeWhile_dropWhile_digits behind
      (show digitRun (mark :: text) = 0 by simpa using (scale.head []).1)
    have hany : ¬(whole = [] ∧ fraction = []) := not_and_or.mpr any
    unfold Decimal.read?
    simp only [htake, hdrop, htake', hdrop', hread]
    rcases hmark with rfl | rfl <;> simp [hany]
  | @whole whole exponent e before any scale =>
    obtain ⟨mark, text, rfl, hmark, hread⟩ := scale.read
    obtain ⟨htake, hdrop⟩ := takeWhile_dropWhile_digits before
      (show digitRun (mark :: text) = 0 by simpa using (scale.head []).1)
    unfold Decimal.read?
    simp only [htake, hdrop]
    rcases hmark with rfl | rfl <;> simp [any, hread]

/-- The text goes on with the mark of hexadecimal digits and some of them. -/
def StartsHexadecimal (text : List Char) : Prop :=
  ∃ mark behind, text = '0' :: mark :: behind ∧ (mark = 'x' ∨ mark = 'X') ∧
    behind.takeWhile isHexDigit ≠ []

/-- Digits behind the mark of hexadecimal digits. -/
def hexadecimalDigits : List Char → List Char
  | '0' :: x :: rest => if x = 'x' || x = 'X' then rest.takeWhile isHexDigit else []
  | _ => []

/-- What digits are that are not hexadecimal: a leading zero marks octal digits. -/
def plainBody (digits : List Char) : Radix × List Char × Nat :=
  match digits with
  | '0' :: d :: more => (.octal, d :: more, 1)
  | _ => (.decimal, digits, 0)

theorem integerBody_eq (text : List Char) : integerBody text =
    if !(hexadecimalDigits text).isEmpty then (.hexadecimal, hexadecimalDigits text, 2)
    else plainBody (text.takeWhile isDecimalDigit) := by
  unfold integerBody hexadecimalDigits plainBody
  rfl

theorem integerBody_hexadecimal {mark : Char} {behind : List Char}
    (marked : mark = 'x' ∨ mark = 'X') (any : behind.takeWhile isHexDigit ≠ []) :
    integerBody ('0' :: mark :: behind) = (.hexadecimal, behind.takeWhile isHexDigit, 2) := by
  have hdigits : hexadecimalDigits ('0' :: mark :: behind) = behind.takeWhile isHexDigit := by
    rcases marked with rfl | rfl <;> rfl
  rw [integerBody_eq, hdigits]
  simp [any]

theorem integerBody_plain {text : List Char} (hhex : ¬StartsHexadecimal text) :
    integerBody text = plainBody (text.takeWhile isDecimalDigit) := by
  have hdigits : hexadecimalDigits text = [] := by
    unfold hexadecimalDigits
    split
    · rename_i x behind
      split
      · rename_i hmark
        by_contra hany
        exact hhex ⟨x, behind, rfl, by simpa using hmark, hany⟩
      · rfl
    · rfl
  rw [integerBody_eq, hdigits]
  rfl

/-- A text that starts no hexadecimal number is read in the radix that its digits tell. -/
theorem integerBody_cases {digits rest : List Char} (all : ∀ d ∈ digits, isDecimalDigit d)
    (hrest : digitRun rest = 0) (hhex : ¬StartsHexadecimal (digits ++ rest)) :
    (∃ d more, digits = '0' :: d :: more ∧
      integerBody (digits ++ rest) = (.octal, d :: more, 1)) ∨
    ((digits.head? = some '0' → digits = ['0']) ∧
      integerBody (digits ++ rest) = (.decimal, digits, 0)) := by
  obtain ⟨htake, -⟩ := takeWhile_dropWhile_digits all hrest
  rw [integerBody_plain hhex, htake]
  unfold plainBody
  split
  · exact .inl ⟨_, _, rfl, rfl⟩
  · rename_i hplain
    refine .inr ⟨fun hzero => ?_, rfl⟩
    cases digits with
    | nil => simp at hzero
    | cons c digits =>
      obtain rfl : c = '0' := by simpa using hzero
      cases digits with
      | nil => rfl
      | cons d more => exact absurd rfl (hplain d more)

/-- Digits that are taken as an integer are one. -/
theorem integerBody_sound {text digits : List Char} {radix : Radix} {n : Nat}
    (h : integerBody text = (radix, digits, n)) (any : digits ≠ []) :
    ∃ mark rest, text = mark ++ digits ++ rest ∧ mark.length = n ∧
      IntegerBody radix mark digits := by
  by_cases hhex : StartsHexadecimal text
  · obtain ⟨mark, behind, rfl, marked, hany⟩ := hhex
    rw [integerBody_hexadecimal marked hany] at h
    obtain ⟨rfl, rfl, rfl⟩ := h
    have hsplit := List.split_takeWhile isHexDigit behind
    exact ⟨['0', mark], _, congrArg (['0', mark] ++ ·) hsplit, rfl,
      .hexadecimal marked any List.of_mem_takeWhile⟩
  · obtain ⟨run, rest, rfl, all, hrest, -⟩ := exists_digits text
    rcases integerBody_cases all hrest hhex with ⟨d, more, rfl, hbody⟩ | ⟨plain, hbody⟩
    · rw [hbody] at h
      obtain ⟨rfl, rfl, rfl⟩ := h
      exact ⟨['0'], rest, rfl, rfl, .octal any fun c hc => all c (List.mem_cons_of_mem _ hc)⟩
    · rw [hbody] at h
      obtain ⟨rfl, rfl, rfl⟩ := h
      exact ⟨[], rest, rfl, rfl, .decimal any all plain⟩

theorem floatSuffix_sound (text : List Char) : ∃ suffix rest, text = suffix ++ rest ∧
    suffix.length = (floatSuffix text).1 ∧ FloatSuffix suffix (floatSuffix text).2 := by
  unfold floatSuffix
  split
  · exact ⟨_, _, rfl, rfl, .lowerDouble⟩
  · exact ⟨_, _, rfl, rfl, .upperDouble⟩
  · exact ⟨_, _, rfl, rfl, .lower⟩
  · exact ⟨_, _, rfl, rfl, .upper⟩
  · exact ⟨[], text, rfl, rfl, .none⟩

theorem unsignedSuffix_sound (text : List Char) : ∃ suffix rest, text = suffix ++ rest ∧
    suffix.length = unsignedSuffix text ∧ IntegerSuffix suffix (decide (0 < unsignedSuffix text)) := by
  unfold unsignedSuffix
  split
  · exact ⟨_, _, rfl, rfl, .lower⟩
  · exact ⟨_, _, rfl, rfl, .upper⟩
  · exact ⟨[], text, rfl, rfl, .none⟩

end Literal

namespace Lexeme

open Literal Token

/-- A lexeme is a token of its own in front of a text. -/
def Heads (lexeme : Lexeme) (text : List Char) : Prop :=
  ∃ front rest, text = front ++ rest ∧ front.length = lexeme.size ∧
    Forms front lexeme.kind lexeme.flaw ∧ lexeme.kind.Ends rest

/-- The text of a block goes up to the first end of one. -/
theorem blockText?_sound {text body : List Char} (h : blockText? text = some body) :
    (∃ rest, text = body ++ ['*', '/'] ++ rest) ∧ ¬['*', '/'] <:+: body := by
  fun_induction blockText? text generalizing body with
  | case1 => simp at h
  | case2 rest =>
    obtain rfl := Option.some.inj h
    exact ⟨⟨rest, rfl⟩, by simp⟩
  | case3 c rest hopen ih =>
    obtain ⟨body, hbody, rfl⟩ := Option.map_eq_some_iff.mp h
    obtain ⟨⟨behind, rfl⟩, hinside⟩ := ih hbody
    refine ⟨⟨behind, rfl⟩, fun hinfix => ?_⟩
    rcases List.infix_cons_iff.mp hinfix with hprefix | hinfix
    · obtain ⟨more, hmore⟩ := hprefix
      obtain ⟨rfl, htail⟩ := List.cons.inj hmore
      exact hopen (more ++ ['*', '/'] ++ behind) rfl (by rw [← htail]; rfl)
    · exact hinside hinfix

theorem comment?_heads {text : List Char} {lexeme : Lexeme} (h : comment? text = some lexeme) :
    lexeme.Heads text := by
  unfold comment? at h
  split at h
  · rename_i behind
    obtain rfl := Option.some.inj h
    have hsplit := List.split_takeWhile (· != '\n') behind
    refine ⟨'/' :: '/' :: behind.takeWhile (· != '\n'), _, congrArg (['/', '/'] ++ ·) hsplit, rfl,
      .line fun hmem => ?_, trivial⟩
    simpa using List.of_mem_takeWhile _ hmem
  · rename_i behind
    obtain ⟨body, hbody, rfl⟩ := Option.map_eq_some_iff.mp h
    obtain ⟨⟨rest, rfl⟩, hinside⟩ := blockText?_sound hbody
    exact ⟨'/' :: '*' :: (body ++ ['*', '/']), rest, rfl, by simp, .block hinside, trivial⟩
  · simp at h

theorem float?_heads {text : List Char} {value : Scalar} {size : Nat}
    (h : float? text = some (value, size)) : Heads ⟨.literal value, none, size⟩ text := by
  unfold float? at h
  dsimp only at h
  split at h
  · simp at h
  · rename_i hsize
    obtain ⟨body, rest, number, rfl, hlength, hbody⟩ := floatBody_of_floatSize hsize
    rw [← hlength, List.take_left, List.drop_left, hbody.read, Option.map_some] at h
    obtain ⟨suffix, behind, rfl, hsuffix, hending⟩ := floatSuffix_sound rest
    obtain ⟨rfl, rfl⟩ := Prod.mk.inj (Option.some.inj h)
    refine ⟨body ++ suffix, behind, (List.append_assoc _ _ _).symm, ?_, .float hbody hending, ?_⟩
    · rw [List.length_append, hsuffix]
    · split <;> trivial

theorem integer?_heads {text : List Char} {value : Scalar} {flaw : Option LiteralFlaw} {size : Nat}
    (h : integer? text = some (value, flaw, size)) : Heads ⟨.literal value, flaw, size⟩ text := by
  unfold integer? integerSize at h
  generalize hbody : integerBody text = body at h
  obtain ⟨radix, digits, n⟩ := body
  dsimp only at h
  split at h
  · simp at h
  · rename_i hfree
    obtain ⟨hany, hends⟩ : digits ≠ [] ∧ endsBefore (text.drop (n + digits.length +
        unsignedSuffix (text.drop (n + digits.length)))) = true := by
      simpa using hfree
    obtain ⟨mark, rest, rfl, rfl, hnumber⟩ := integerBody_sound hbody hany
    rw [← List.length_append, ← List.drop_drop, List.drop_left] at hends
    rw [← List.length_append, List.drop_left] at h
    obtain ⟨suffix, behind, rfl, hsuffix, hending⟩ := unsignedSuffix_sound rest
    rw [← hsuffix, List.drop_left] at hends
    rw [← hsuffix] at h hending
    obtain ⟨hvalue, hflaw⟩ := Prod.mk.inj (Option.some.inj h)
    obtain ⟨rfl, rfl⟩ := Prod.mk.inj hflaw
    have hforms := Forms.integer hnumber hending
    have hunsigned : (mark ++ digits).length < (mark ++ digits).length + suffix.length ↔
        0 < suffix.length := by omega
    refine ⟨mark ++ digits ++ suffix, behind, by simp, List.length_append, ?_, ?_⟩
    · rw [← hvalue]
      simpa only [hunsigned, decide_eq_true_eq] using hforms
    · rw [← hvalue]
      split <;> exact hends

theorem bool?_heads {text : List Char} {value : Scalar} {size : Nat}
    (h : bool? text = some (value, size)) : Heads ⟨.literal value, none, size⟩ text := by
  have htruth {b : Bool} {n : Nat} (hn : n = (if b then "true" else "false").toList.length)
      (hfront : ((if b then "true" else "false").toList.isPrefixOf text &&
        endsBefore (text.drop n)) = true) : Heads ⟨.literal (.bool b), none, n⟩ text := by
    obtain ⟨hfront, hends⟩ := Bool.and_eq_true_iff.mp hfront
    obtain ⟨rest, rfl⟩ := List.isPrefixOf_iff_prefix.mp hfront
    rw [hn, List.drop_left] at hends
    exact ⟨_, rest, rfl, hn.symm, .bool b, hends⟩
  unfold bool? at h
  split at h
  · obtain ⟨rfl, rfl⟩ := Prod.mk.inj (Option.some.inj h)
    exact htruth (b := true) rfl ‹_›
  · split at h
    · obtain ⟨rfl, rfl⟩ := Prod.mk.inj (Option.some.inj h)
      exact htruth (b := false) rfl ‹_›
    · simp at h

theorem literal?_heads {text : List Char} {lexeme : Lexeme} (h : literal? text = some lexeme) :
    lexeme.Heads text := by
  unfold literal? at h
  split at h
  · rename_i value size hfloat
    obtain rfl := Option.some.inj h
    exact float?_heads hfloat
  · split at h
    · rename_i value flaw size hinteger
      obtain rfl := Option.some.inj h
      exact integer?_heads hinteger
    · obtain ⟨⟨value, size⟩, hbool, rfl⟩ := Option.map_eq_some_iff.mp h
      exact bool?_heads hbool

theorem symbol?_heads {text : List Char} {lexeme : Lexeme} (h : symbol? text = some lexeme) :
    lexeme.Heads text := by
  obtain ⟨s, hs, rfl⟩ := Option.map_eq_some_iff.mp h
  have hfront : s.text.toList.isPrefixOf text := by simpa using List.find?_some hs
  obtain ⟨rest, rfl⟩ := List.isPrefixOf_iff_prefix.mp hfront
  exact ⟨_, rest, rfl, String.length_toList, .symbol s, trivial⟩

theorem control?_heads {text : List Char} {lexeme : Lexeme} (h : control? text = some lexeme) :
    lexeme.Heads text := by
  cases text with
  | nil => simp [control?] at h
  | cons c rest =>
    unfold control? at h
    dsimp only at h
    split at h
    · rename_i hknown
      obtain rfl := Option.some.inj h
      exact ⟨[c], rest, rfl, rfl, .control (List.contains_iff_mem.mp hknown), trivial⟩
    · simp at h

/-- A word that is a truth value is no identifier, although it is found as one where it goes on with
    a letter that identifiers do not have. -/
theorem word?_heads {text : List Char} {lexeme : Lexeme} (h : word? text = some lexeme)
    (truth : lexeme.kind ≠ .ident "true" ∧ lexeme.kind ≠ .ident "false") :
    lexeme.Heads text := by
  cases text with
  | nil => simp [word?] at h
  | cons c rest =>
    unfold word? at h
    dsimp only at h
    split at h
    · rename_i hstart
      obtain rfl := Option.some.inj h
      have hsplit := List.split_takeWhile isIdentPart rest
      have hparts : ∀ c ∈ rest.takeWhile isIdentPart, isIdentPart c := List.of_mem_takeWhile
      generalize rest.takeWhile isIdentPart = parts at hsplit hparts truth ⊢
      refine ⟨c :: parts, _, congrArg (c :: ·) hsplit, by simp [Nat.add_comm], ?_, ?_⟩
      · have hword : (String.ofList (c :: parts)).toList = c :: parts := String.toList_ofList
        split
        · rename_i hkeyword
          have hforms := Forms.keyword (List.contains_iff_mem.mp hkeyword)
          rwa [hword] at hforms
        · rename_i hkeyword
          rw [if_neg hkeyword] at truth
          have hname : IsIdentifier (String.ofList (c :: parts)) :=
            ⟨⟨c, parts, hword, hstart, hparts⟩, by simpa using hkeyword, by simpa using truth⟩
          have hforms := Forms.ident hname
          rwa [hword] at hforms
      · split <;> trivial
    · simp at h

/-- What is found at the front of a text is a token, unless it is a truth value that is found as an
    identifier. -/
theorem first?_heads {text : List Char} {lexeme : Lexeme} (h : first? text = some lexeme)
    (truth : lexeme.kind ≠ .ident "true" ∧ lexeme.kind ≠ .ident "false") :
    lexeme.Heads text := by
  simp only [first?, Option.orElse_eq_orElse, Option.orElse_eq_or, Option.or_eq_some_iff] at h
  rcases h with h | ⟨-, h | ⟨-, h | ⟨-, h | ⟨-, h⟩⟩⟩⟩
  · exact comment?_heads h
  · exact literal?_heads h
  · exact symbol?_heads h
  · exact word?_heads h truth
  · exact control?_heads h

end Lexeme

end ShaderExpr
