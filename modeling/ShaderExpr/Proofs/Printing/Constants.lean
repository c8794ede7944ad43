import ShaderExpr.Proofs.Grammar.Checks
import ShaderExpr.Proofs.Lexing.Literals

namespace ShaderExpr

/-- The source splits into tokens of these kinds, without an error and without comments. -/
def LexesTo (source : String) (ks : Phrase.Kinds) : Prop :=
  ∃ tokens : List Token, tokens.map (·.kind) = ks ∧ lex source = (some ⟨tokens, []⟩, [])

theorem LexesTo.unique {source : String} {ks us : Phrase.Kinds} (h : LexesTo source ks)
    (h' : LexesTo source us) : ks = us := by
  obtain ⟨tokens, rfl, hlex⟩ := h
  obtain ⟨tokens', rfl, hlex'⟩ := h'
  rw [hlex] at hlex'
  obtain rfl : tokens = tokens' := by simpa using hlex'
  rfl

/-- A byte order mark starts no token. -/
theorem Spaced.lexesTo {source : String} {ks : Phrase.Kinds} (h : Spaced source.toList ks) :
    LexesTo source ks := by
  refine h.lex fun hmark => ?_
  generalize source.toList = text at h hmark
  cases h with
  | done => simp at hmark
  | space => simp at hmark
  | @token c text rest k ks first =>
    obtain rfl : c = '\ufeff' := by simpa using hmark
    rw [List.cons_append, Lexeme.first?_eq_none (by decide)] at first
    simp at first

theorem Renders.lexesTo {source : String} {ks : Phrase.Kinds} {F : List Char → Prop}
    (h : Renders source.toList ks F) (hF : F []) : LexesTo source ks := by
  have hspaced := h [] [] hF .done
  rw [List.append_nil, List.append_nil] at hspaced
  exact hspaced.lexesTo

namespace Letters

variable {letters : Letters} {name : String} {indexes : List Nat}

theorem mem_of_index? {c : Char} {i : Nat} (h : letters.index? c = some i) :
    c ∈ letters.text.toList := by
  obtain ⟨hlt, hc, -⟩ := List.findIdx?_eq_some_iff_getElem.mp h
  rw [← of_decide_eq_true hc]
  exact List.getElem_mem hlt

theorem mem_text (spelled : name.toList.mapM letters.index? = some indexes) :
    ∀ c ∈ name.toList, c ∈ letters.text.toList := by
  generalize name.toList = cs at spelled
  induction cs generalizing indexes with
  | nil => simp
  | cons c cs ih =>
    rw [List.mapM_cons, Option.bind_eq_bind, Option.bind_eq_some_iff] at spelled
    obtain ⟨i, hi, spelled⟩ := spelled
    simp only [Option.bind_eq_bind, Option.bind_eq_some_iff] at spelled
    obtain ⟨rest, hrest, -⟩ := spelled
    exact List.forall_mem_cons.mpr ⟨mem_of_index? hi, ih hrest⟩

/-- What selects components is a word, and neither a keyword nor a truth value. -/
theorem isIdentifier (spelled : name.toList.mapM letters.index? = some indexes)
    (some : indexes ≠ []) : IsIdentifier name := by
  have hletters := mem_text spelled
  have hstart : ∀ c ∈ letters.text.toList, Lexeme.isIdentStart c := by
    cases letters <;> exact List.all_eq_true.mp (by decide)
  have hother : ∀ word ∈ "true" :: "false" :: Token.keywords,
      ¬word.toList.all (letters.text.toList.contains ·) := by
    cases letters <;> decide +kernel
  have hword : ∀ word ∈ "true" :: "false" :: Token.keywords, name ≠ word := by
    rintro word hmem rfl
    exact hother name hmem (by simpa using hletters)
  cases hname : name.toList with
  | nil =>
    rw [hname, List.mapM_nil] at spelled
    exact absurd (Option.some.inj spelled).symm some
  | cons c cs =>
    rw [hname] at hletters
    refine ⟨⟨c, cs, hname, hstart c (hletters c List.mem_cons_self), fun d hd => ?_⟩, ?_, ?_⟩
    · exact Lexeme.isIdentPart_of_isIdentStart (hstart d (hletters d (List.mem_cons_of_mem _ hd)))
    · simpa using fun hmem => hword name (by simp [hmem]) rfl
    · exact ⟨hword "true" (by simp), hword "false" (by simp)⟩

end Letters

namespace Scalar

variable {x : Scalar} {name : String}

/-- How a component is written: as its literal, or with a minus sign in front of a literal of its
    type that has it for its opposite. Such a sign is put where `placed` says. -/
inductive Spelled (placed : Phrase.Kinds → Phrase.Kinds) (x : Scalar) : Phrase.Kinds → Prop
  | literal : Spelled placed x [.literal x]
  | opposite {y : Scalar} (type : y.type = x.type) (value : Folding.opposite y = .ok x) :
    Spelled placed x (placed [.control '-', .literal y])

/-- The printed constant is read as itself. -/
def ReadAlone (x : Scalar) : Prop :=
  ∃ ks, x.Spelled id ks ∧ LexesTo (Expr.constant (.ofScalar x)).print ks

/-- The printed selection is read as the constant, a point and the name of the components. -/
def ReadSelected (x : Scalar) (name : String) (e : Expr) : Prop :=
  ∃ ks, x.Spelled Phrase.enclosed ks ∧ LexesTo e.print (ks ++ [.control '.', .ident name])

/-- The text of a finite component is its literal, or that of its magnitude behind a sign. -/
theorem exists_spelling (finite : x.IsFinite) : ∃ ks, x.Spelled id ks ∧
    Renders x.text.toList ks EndsPhrase ∧
    (x.isNegative → ks = [.control '-', .literal x.magnitude] ∧ x.text.toList.head? = some '-') := by
  obtain ⟨text, htext, hrenders, hstarts⟩ := exists_numeral finite
  cases hsign : x.isNegative with
  | false =>
    rw [hsign] at htext
    rw [magnitude_of_not hsign] at hrenders
    exact ⟨_, .literal, by rw [htext]; exact hrenders, by simp⟩
  | true =>
    rw [hsign, if_pos rfl] at htext
    refine ⟨_, .opposite (type_magnitude x) (opposite_magnitude hsign), ?_, fun _ => ⟨rfl, ?_⟩⟩
    · rw [htext]
      exact renders_minus.append hrenders fun rest _ => (hstarts.append rest).head?
    · rw [htext, List.head?_cons]

theorem readAlone_of_finite (finite : x.IsFinite) : x.ReadAlone := by
  obtain ⟨ks, hspelled, hrenders, -⟩ := exists_spelling finite
  refine ⟨ks, hspelled, ?_⟩
  rw [Expr.print, Value.text_ofScalar]
  exact hrenders.lexesTo (by simp [EndsPhrase])

/-- What is accepted behind a component is a name of components, printed behind a point. -/
theorem print_field {e : Expr} (h : Phrase.Field (.constant (.ofScalar x)) name e) :
    IsIdentifier name ∧ (∃ letters : Letters, ∀ c ∈ name.toList, c ∈ letters.text.toList) ∧
      e.print = (Expr.constant (.ofScalar x)).placed x.text Expr.postfixBinding ++ "." ++ name := by
  cases h with
  | member found => exact absurd rfl (Expr.ne_constant_of_memberIndex? found x)
  | @components letters indexes _ spelled some =>
    refine ⟨Letters.isIdentifier spelled some, ⟨letters, Letters.mem_text spelled⟩, ?_⟩
    rw [Expr.print, Letters.map_letter spelled, String.ofList_toList, Expr.print,
      Value.text_ofScalar]

/-- Only a sign is put between parentheses. -/
theorem placed_of_head? (h : x.text.toList.head? ≠ some '-') :
    (Expr.constant (.ofScalar x)).placed x.text Expr.postfixBinding = x.text := by
  rw [Expr.placed, Expr.binding, Value.text_ofScalar, if_neg h, if_neg (Nat.lt_irrefl _)]

theorem readSelected_of_finite {e : Expr} (h : Phrase.Field (.constant (.ofScalar x)) name e)
    (finite : x.IsFinite) (noInt : ∀ n, x = .int n → n < 0) : x.ReadSelected name e := by
  obtain ⟨identifier, -, hprint⟩ := print_field h
  unfold ReadSelected
  rw [hprint]
  cases hsign : x.isNegative with
  | false =>
    have hplain := isPlain_of_not hsign finite
    obtain ⟨c, cs, hcs, hminus, -⟩ := text_starts hplain
    rw [placed_of_head? (by rw [hcs]; simpa using hminus)]
    refine ⟨_, .literal, Renders.lexesTo (F := EndsExpression) ?_ (by simp [EndsExpression])⟩
    refine Expr.renders_selected (renders hplain (readsBack hplain)) (fun rest => ?_) identifier
    refine ⟨Expr.endsExpression_point rest, fun n hn => ?_⟩
    subst hn
    have hnegative : n < 0 := noInt n rfl
    simp [isNegative, hnegative] at hsign
  | true =>
    obtain ⟨ks, -, hrenders, hnegative⟩ := exists_spelling finite
    obtain ⟨rfl, hhead⟩ := hnegative hsign
    have hplaced : (Expr.constant (.ofScalar x)).placed x.text Expr.postfixBinding =
        Expr.parenthesized x.text := by
      rw [Expr.placed, Expr.binding, Value.text_ofScalar, if_pos hhead, if_pos (by decide)]
    have henclosed := hrenders.parenthesized fun rest => endsPhrase_closing rest
    have htext : (Expr.parenthesized x.text).toList = '(' :: (x.text.toList ++ [')']) := by
      simp [Expr.parenthesized]
    rw [← htext] at henclosed
    rw [hplaced]
    refine ⟨_, .opposite (type_magnitude x) (opposite_magnitude hsign), ?_⟩
    exact (Expr.renders_selected henclosed (fun _ => trivial) identifier).lexesTo
      (by simp [EndsExpression])

/-- In front of the name of a component, digits and the point behind them are one number. -/
theorem digits_point_render (n : Nat) (letters : Letters) : ∃ y,
    Renders (Nat.toDigits 10 n ++ ['.']) [.literal y] fun rest =>
      ∃ c more, rest = c :: more ∧ c ∈ letters.text.toList := by
  have hnumeral : Literal.IsNumeral (Nat.toDigits 10 n ++ ['.']) :=
    ⟨_, ['.'], [], by rw [List.append_nil], Nat.toDigits_ne_nil, isDecimalDigit_of_mem_toDigits,
      .inr ⟨[], rfl, by simp⟩, .inl rfl, by simp⟩
  obtain ⟨value, hbody⟩ := hnumeral.floatBody
  refine ⟨.float ⟨UInt32.ofNat (value.toBits .single)⟩, renders_literal hnumeral.starts ?_⟩
  rintro _ ⟨c, more, rfl, hc⟩
  have hletter : letters.text.toList.all fun c => !isDecimalDigit c && !Literal.isExponentMark c &&
      c ∉ ['l', 'L', 'f', 'F'] := by
    cases letters <;> decide
  obtain ⟨⟨hdigit, hmark⟩, hl, hL, hf, hF⟩ : (isDecimalDigit c = false ∧
      Literal.isExponentMark c = false) ∧ c ≠ 'l' ∧ c ≠ 'L' ∧ c ≠ 'f' ∧ c ≠ 'F' := by
    simpa using List.all_eq_true.mp hletter c hc
  have hends : Literal.EndsNumeral (c :: more) := by
    intro d hd
    obtain rfl : c = d := by simpa using hd
    exact ⟨hdigit, hmark⟩
  have hsuffix : Literal.floatSuffix (c :: more) = (0, false) := by
    unfold Literal.floatSuffix
    split <;> simp_all
  unfold Lexeme.literal?
  rw [Literal.float?_append hnumeral hends hbody.read, hsuffix]
  rfl

/-- The point behind an integer is taken for a part of it. -/
theorem lexesTo_fused {n : Int32} {letters : Letters} (h : 0 ≤ n.toInt)
    (identifier : IsIdentifier name) (inside : ∀ c ∈ name.toList, c ∈ letters.text.toList) :
    ∃ y, LexesTo ((int n).text ++ "." ++ name) [.literal y, .ident name] := by
  have hlist : (int n).text.toList = Nat.toDigits 10 n.toNatClampNeg := by
    rw [text, Int.toString_eq_repr, Int.repr_eq_if, if_pos h, Nat.toList_repr]
    rfl
  have htext : ((int n).text ++ "." ++ name).toList =
      Nat.toDigits 10 n.toNatClampNeg ++ ['.'] ++ name.toList := by
    simp [hlist]
  obtain ⟨y, hnumber⟩ := digits_point_render n.toNatClampNeg letters
  obtain ⟨c, cs, hname, -⟩ := identifier.word
  have hall := hnumber.append identifier.renders fun rest _ =>
    ⟨c, cs ++ rest, by rw [hname]; rfl, inside c (by rw [hname]; exact List.mem_cons_self)⟩
  rw [← htext] at hall
  exact ⟨y, hall.lexesTo (by simp [EndsWord])⟩

theorem not_readSelected_int {n : Int32} {e : Expr}
    (h : Phrase.Field (.constant (.ofScalar (int n))) name e) (nonneg : 0 ≤ n) :
    ¬(int n).ReadSelected name e := by
  rintro ⟨ks, hspelled, hlex⟩
  obtain ⟨identifier, ⟨letters, hinside⟩, hprint⟩ := print_field h
  have hplain : 0 ≤ n.toInt := Int32.le_iff_toInt_le.mp nonneg
  obtain ⟨c, cs, hcs, hminus, -⟩ := text_starts (x := int n) hplain
  rw [hprint, placed_of_head? (by rw [hcs]; simpa using hminus)] at hlex
  obtain ⟨y, hfused⟩ := lexesTo_fused hplain identifier hinside
  have hlength := congrArg List.length (hlex.unique hfused)
  cases hspelled <;> simp [Phrase.enclosed] at hlength

/-- A word is no number. -/
theorem not_read_of_word (word : IsIdentifier x.text) : ¬x.ReadAlone ∧
    ∀ name e, Phrase.Field (.constant (.ofScalar x)) name e → ¬x.ReadSelected name e := by
  constructor
  · rintro ⟨ks, hspelled, hlex⟩
    rw [Expr.print, Value.text_ofScalar] at hlex
    obtain rfl := hlex.unique (word.renders.lexesTo (by simp [EndsWord]))
    rcases hspelled with _ | _
  · rintro name e hfield ⟨ks, hspelled, hlex⟩
    obtain ⟨identifier, -, hprint⟩ := print_field hfield
    obtain ⟨c, cs, hcs, hc, -⟩ := word.word
    have hhead : x.text.toList.head? ≠ some '-' := by
      rw [hcs, List.head?_cons]
      simpa using Lexeme.ne_of_isIdentStart hc (by decide)
    rw [hprint, placed_of_head? hhead] at hlex
    have hrenders := Expr.renders_selected word.renders
      (fun rest => (Expr.endsExpression_point rest).endsWord) identifier
    have hsame := hlex.unique (hrenders.lexesTo (by simp [EndsExpression]))
    rcases hspelled with _ | _ <;> simp [Phrase.enclosed] at hsame

end Scalar

/-- Printed literals read back, with two exceptions: a floating-point number beyond the range is
    printed as a word, and an integer without a sign loses the point behind it to its own text. For
    every literal of a source, the text of the constant and of every selection of its components
    that is accepted splits without errors into a literal of the same type and value, with a minus
    sign if it needs one, in parentheses under a selection, and the point and the name behind it. -/
theorem literal_reads_back_iff {source : String} {found : TokenList} {errors : List Diagnostic}
    {t : Token} {x : Scalar} (lexed : lex source = (some found, errors)) (taken : t ∈ found.tokens)
    (literal : t.kind = .literal x) :
    (x.IsFinite ∨ x = .float ⟨0x7f800000⟩ ∨ x = .double ⟨0x7ff0000000000000⟩) ∧
    (x.ReadAlone ↔ x.IsFinite) ∧
    ∀ name span c e, Reader.fieldOf (.constant (.ofScalar x)) name span c = (e, c) →
      (x.ReadSelected name e ↔ x.IsFinite ∧ ∀ n, x = .int n → n < 0) := by
  obtain ⟨front, flaw, hforms⟩ := exists_forms_of_lex lexed taken literal
  have hcases := hforms.finite
  have hfield {name : String} {span : Span} {c : Cursor} {e : Expr}
      (h : Reader.fieldOf (.constant (.ofScalar x)) name span c = (e, c)) :
      Phrase.Field (.constant (.ofScalar x)) name e := by
    have hyields := (Reader.fieldOf_decides (.constant (.ofScalar x)) name span c).1
    unfold Reader.Yields at hyields
    rw [h] at hyields
    exact (hyields.2 rfl).2
  have hword : ¬x.IsFinite → IsIdentifier x.text := by
    intro hinfinite
    rcases hcases with hfinite | rfl | rfl
    · exact absurd hfinite hinfinite
    · exact ⟨⟨'i', ['n', 'f'], by decide +kernel, by decide, List.all_eq_true.mp (by decide)⟩,
        by decide +kernel, by decide +kernel⟩
    · exact ⟨⟨'i', ['n', 'f', 'l', 'f'], by decide +kernel, by decide,
        List.all_eq_true.mp (by decide)⟩, by decide +kernel, by decide +kernel⟩
  refine ⟨hcases, ⟨fun h => ?_, Scalar.readAlone_of_finite⟩, fun name span c e h => ⟨fun hread => ?_,
    fun ⟨hfinite, hint⟩ => Scalar.readSelected_of_finite (hfield h) hfinite hint⟩⟩
  · by_contra hinfinite
    exact (Scalar.not_read_of_word (hword hinfinite)).1 h
  · refine ⟨?_, ?_⟩
    · by_contra hinfinite
      exact (Scalar.not_read_of_word (hword hinfinite)).2 name e (hfield h) hread
    · rintro n rfl
      by_contra hsign
      exact Scalar.not_readSelected_int (hfield h) (Int32.not_lt.mp hsign) hread

/-- The greatest word is an integer with a sign, and a float beyond the range is an infinity. -/
theorem literal_reads_back_iff_words : ∃ found t u,
    lex "0xffffffff 1e39" = (some found, []) ∧ t ∈ found.tokens ∧ u ∈ found.tokens ∧
    t.kind = .literal (.int (-1)) ∧ u.kind = .literal (.float ⟨0x7f800000⟩) ∧
    (Scalar.int (-1)).ReadAlone ∧ ¬(Scalar.float ⟨0x7f800000⟩).ReadAlone ∧
    ∀ name span c e, Reader.fieldOf (.constant (.ofScalar (.int (-1)))) name span c = (e, c) →
      (Scalar.int (-1)).ReadSelected name e := by
  let t : Token := ⟨.literal (.int (-1)), 0, 10⟩
  let u : Token := ⟨.literal (.float ⟨0x7f800000⟩), 11, 15⟩
  have hlex : lex "0xffffffff 1e39" = (some ⟨[t, u], []⟩, []) := by decide +kernel
  have hword := literal_reads_back_iff (t := t) hlex (by simp) rfl
  have hinfinity := literal_reads_back_iff (t := u) hlex (by simp) rfl
  refine ⟨⟨[t, u], []⟩, t, u, hlex, by simp, by simp, rfl, rfl, hword.2.1.mpr trivial, ?_, ?_⟩
  · rw [hinfinity.2.1]
    rintro ⟨significand, exponent, hfinite⟩
    have hinfinite : BinaryFormat.single.magnitude 0x7f800000 = .infinite := by decide +kernel
    exact absurd (hinfinite.symm.trans hfinite) (by simp)
  · exact fun name span c e h => (hword.2.2 name span c e h).mpr ⟨trivial, by
      rintro n hn
      rw [← Scalar.int.inj hn]
      decide⟩

end ShaderExpr
