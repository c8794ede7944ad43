import Mathlib.Tactic.Common
import ShaderExpr.Token.Lexer

namespace ShaderExpr

/-- The text goes on with something that is no part of a word. -/
def EndsWord (rest : List Char) : Prop := ∀ c ∈ rest.head?, Lexeme.isIdentPart c = false

/-- A name that is written as it is read: a word that is neither a keyword nor a truth value. -/
structure IsIdentifier (name : String) : Prop where
  word : ∃ c cs, name.toList = c :: cs ∧ Lexeme.isIdentStart c ∧ ∀ d ∈ cs, Lexeme.isIdentPart d
  keyword : Token.keywords.contains name = false
  truth : name ≠ "true" ∧ name ≠ "false"

namespace Lexeme

/-- A letter or an underscore starts a word, but no number and no symbol. -/
theorem isIdentStart_iff {c : Char} :
    isIdentStart c ↔ ('a' ≤ c ∧ c ≤ 'z') ∨ ('A' ≤ c ∧ c ≤ 'Z') ∨ c = '_' := by
  simp [isIdentStart, isAsciiLetter, or_assoc]

theorem isIdentPart_of_isIdentStart {c : Char} (h : isIdentStart c) : isIdentPart c := by
  simp only [isIdentStart, Bool.or_eq_true] at h
  simp only [isIdentPart, isAsciiAlphanumeric, Bool.or_eq_true]
  rcases h with h | h
  · exact .inl (.inl h)
  · exact .inr h

theorem isDecimalDigit_of_isIdentStart {c : Char} (h : isIdentStart c) :
    isDecimalDigit c = false := by
  by_contra hdigit
  simp only [isDecimalDigit, Bool.and_eq_true, decide_eq_true_eq, Bool.not_eq_false] at hdigit
  obtain ⟨hlow, hhigh⟩ := hdigit
  rcases isIdentStart_iff.mp h with ⟨h, -⟩ | ⟨h, -⟩ | rfl
  · exact absurd (Char.le_trans h hhigh) (by decide)
  · exact absurd (Char.le_trans h hhigh) (by decide)
  · exact absurd hhigh (by decide)

/-- Keywords are words, and none is a truth value. -/
theorem keyword_parts {word : String} (h : word ∈ Token.keywords) :
    (∃ c cs, word.toList = c :: cs ∧ isIdentStart c ∧ ∀ d ∈ cs, isIdentPart d) ∧
      word ≠ "true" ∧ word ≠ "false" := by
  have hall : ∀ word ∈ Token.keywords, (word ≠ "true" ∧ word ≠ "false") ∧ word.toList ≠ [] ∧
      isIdentStart (word.toList.headD ' ') ∧ word.toList.tail.all isIdentPart := by
    decide +kernel
  obtain ⟨htruth, hne, hstart, hparts⟩ := hall word h
  obtain ⟨c, cs, hword⟩ := List.exists_cons_of_ne_nil hne
  rw [hword] at hstart hparts
  exact ⟨⟨c, cs, hword, hstart, List.all_eq_true.mp hparts⟩, htruth⟩

/-- Behind part of a word no literal ends. -/
theorem endsBefore_of_isIdentPart {c : Char} (h : isIdentPart c) (rest : List Char) :
    Literal.endsBefore (c :: rest) = false := by
  simp only [isIdentPart, Bool.or_eq_true, decide_eq_true_eq] at h
  simp only [Literal.endsBefore, Bool.not_eq_false', Bool.or_eq_true, decide_eq_true_eq]
  rcases h with h | h
  · left
    have hsmall : c.toNat < 128 := by
      simp only [isAsciiAlphanumeric, isAsciiLetter, Bool.or_eq_true, Bool.and_eq_true,
        decide_eq_true_eq] at h
      rcases h with (⟨-, h⟩ | ⟨-, h⟩) | ⟨-, h⟩
      · exact Nat.lt_of_le_of_lt (Char.le_def.mp h) (by decide)
      · exact Nat.lt_of_le_of_lt (Char.le_def.mp h) (by decide)
      · exact Nat.lt_of_le_of_lt (Char.le_def.mp h) (by decide)
    rw [isAlphanumeric, if_pos hsmall]
    exact h
  · exact .inr h

theorem takeWhile_append_of_endsWord {cs rest : List Char} (h : ∀ d ∈ cs, isIdentPart d)
    (hrest : EndsWord rest) : (cs ++ rest).takeWhile isIdentPart = cs := by
  rw [List.takeWhile_append_of_pos h]
  cases rest with
  | nil => simp
  | cons c rest => simp [hrest c (by simp)]

/-- Where a word starts, no truth value does unless it is that word. A longer word goes on with a
    character of words, and behind a shorter one no such character follows. -/
theorem endsBefore_drop_of_isPrefixOf (truth : List Char) {word rest : List Char}
    (htruth : ∀ d ∈ truth, isIdentPart d) (hword : ∀ d ∈ word, isIdentPart d)
    (hrest : EndsWord rest) (hne : word ≠ truth) :
    (truth.isPrefixOf (word ++ rest) && Literal.endsBefore ((word ++ rest).drop truth.length)) =
      false := by
  by_contra h
  simp only [Bool.not_eq_false, Bool.and_eq_true, List.isPrefixOf_iff_prefix] at h
  obtain ⟨hfront, hends⟩ := h
  rcases List.prefix_or_prefix_of_prefix hfront (List.prefix_append word rest) with h | h
  · obtain ⟨more, rfl⟩ := h
    cases more with
    | nil => exact hne (List.append_nil _)
    | cons c more =>
      rw [List.append_assoc, List.drop_left, List.cons_append,
        endsBefore_of_isIdentPart (hword c (by simp))] at hends
      simp at hends
  · obtain ⟨more, rfl⟩ := h
    cases more with
    | nil => exact hne (List.append_nil _).symm
    | cons c more =>
      obtain ⟨tail, htail⟩ := hfront
      rw [List.append_assoc, List.append_cancel_left_eq] at htail
      have hpart := hrest c (by simp [← htail])
      rw [htruth c (by simp)] at hpart
      simp at hpart

/-- A slash starts every comment. -/
theorem comment?_eq_none {c : Char} (h : c ≠ '/') (text : List Char) :
    comment? (c :: text) = none := by
  unfold comment?
  split
  · rename_i heq
    exact absurd (List.cons.inj heq).1 h
  · rename_i heq
    exact absurd (List.cons.inj heq).1 h
  · rfl

/-- A digit or a point starts every floating-point number. -/
theorem float?_eq_none {c : Char} (hdigit : isDecimalDigit c = false) (hpoint : c ≠ '.')
    (text : List Char) : Literal.float? (c :: text) = none := by
  have hsize : Literal.floatSize (c :: text) = 0 := by
    have hrun : Literal.digitRun (c :: text) = 0 := by
      simp [Literal.digitRun, hdigit]
    unfold Literal.floatSize
    simp only [hrun, List.drop_zero, true_or, if_true]
    split
    · rename_i heq
      exact absurd (List.cons.inj heq).1 hpoint
    · rfl
  simp [Literal.float?, hsize]

/-- A digit starts every integer. -/
theorem integer?_eq_none {c : Char} (hdigit : isDecimalDigit c = false) (text : List Char) :
    Literal.integer? (c :: text) = none := by
  have hbody : Literal.integerBody (c :: text) = (.decimal, [], 0) := by
    unfold Literal.integerBody
    simp only [List.takeWhile_cons, hdigit, Bool.false_eq_true, if_false]
    split
    · rename_i heq
      obtain rfl := (List.cons.inj heq).1
      exact absurd hdigit (by decide)
    · rfl
  simp [Literal.integer?, hbody]

theorem symbol?_eq_none {c : Char} (h : ∀ s : Symbol, s.text.toList.head? ≠ some c)
    (text : List Char) : symbol? (c :: text) = none := by
  have hnone : (Symbol.all.find? fun s => s.text.toList.isPrefixOf (c :: text)) = none := by
    rw [List.find?_eq_none]
    intro s _ hfront
    rw [List.isPrefixOf_iff_prefix] at hfront
    obtain ⟨tail, htail⟩ := hfront
    cases hs : s.text.toList with
    | nil => cases s <;> simp [Symbol.text] at hs
    | cons d ds =>
      rw [hs] at htail
      exact h s (by rw [hs, List.head?_cons, (List.cons.inj htail).1])
  simp [symbol?, hnone]

theorem ne_of_isIdentStart {c d : Char} (h : isIdentStart c) (hd : isIdentStart d = false) :
    c ≠ d := by
  rintro rfl
  rw [hd] at h
  exact absurd h (by decide)

section

variable {c : Char} {cs rest : List Char} (hstart : isIdentStart c)
include hstart

/-- A word is one token, whatever follows behind its end: no other kind of token starts like a word,
    unless the word is a truth value. -/
theorem first?_word (hcs : ∀ d ∈ cs, isIdentPart d) (hrest : EndsWord rest)
    (htrue : String.ofList (c :: cs) ≠ "true") (hfalse : String.ofList (c :: cs) ≠ "false") :
    first? (c :: cs ++ rest) =
      some ⟨if Token.keywords.contains (String.ofList (c :: cs)) then
          .keyword (String.ofList (c :: cs)) else .ident (String.ofList (c :: cs)),
        none, cs.length + 1⟩ := by
  have hword : ∀ d ∈ c :: cs, isIdentPart d := by
    intro d hd
    rcases List.mem_cons.mp hd with rfl | hd
    · exact isIdentPart_of_isIdentStart hstart
    · exact hcs d hd
  have hbool : Literal.bool? (c :: cs ++ rest) = none := by
    have htrue := endsBefore_drop_of_isPrefixOf "true".toList (List.all_eq_true.mp (by decide))
      hword hrest (by rintro h; exact htrue (by rw [h]; rfl))
    have hfalse := endsBefore_drop_of_isPrefixOf "false".toList (List.all_eq_true.mp (by decide))
      hword hrest
      (by rintro h; exact hfalse (by rw [h]; rfl))
    unfold Literal.bool?
    rw [if_neg (by simpa using htrue), if_neg (by simpa using hfalse)]
  rw [List.cons_append] at hbool ⊢
  unfold first? literal?
  have hdigit := isDecimalDigit_of_isIdentStart hstart
  have hsymbol : ∀ s : Symbol, s.text.toList.head? ≠ some c := by
    intro s hs
    have hno : isIdentStart (s.text.toList.headD 'a') = false := by
      cases s <;> decide
    rw [List.headD_eq_head?_getD, hs, Option.getD_some, hstart] at hno
    exact absurd hno (by decide)
  rw [comment?_eq_none (ne_of_isIdentStart hstart (by decide)),
    float?_eq_none hdigit (ne_of_isIdentStart hstart (by decide)), integer?_eq_none hdigit, hbool,
    symbol?_eq_none hsymbol]
  simp only [word?, hstart, if_true, takeWhile_append_of_endsWord hcs hrest]
  rw [Nat.add_comm]
  rfl

end

end Lexeme

end ShaderExpr
