import ShaderExpr.Proofs.Printing.Word

namespace ShaderExpr

theorem isWhiteSpace_of_isAlphanumeric {c : Char} (h : isAlphanumeric c) :
    isWhiteSpace c = false := by
  have hapart : ∀ r ∈ whiteSpace, (r.2 < 48 ∨ ∀ r' ∈ alphanumericRanges, r.2 < r'.1 ∨ r'.2 < r.1) ∧
      (127 < r.1 ∨ r.2 < 48) := by
    decide +kernel
  by_contra hspace
  rw [Bool.not_eq_false, isWhiteSpace, List.any_eq_true] at hspace
  obtain ⟨r, hr, hin⟩ := hspace
  obtain ⟨hbeyond, hascii⟩ := hapart r hr
  simp only [CodeRange.contains, Bool.and_eq_true, decide_eq_true_eq] at hin
  unfold isAlphanumeric at h
  split at h
  · have hlow : 48 ≤ c.toNat := by
      simp only [isAsciiAlphanumeric, isAsciiLetter, Bool.or_eq_true, Bool.and_eq_true,
        decide_eq_true_eq] at h
      rcases h with (⟨h, -⟩ | ⟨h, -⟩) | ⟨h, -⟩
      · exact Nat.le_trans (by decide) (Char.le_def.mp h)
      · exact Nat.le_trans (by decide) (Char.le_def.mp h)
      · exact Char.le_def.mp h
    omega
  · obtain ⟨r', hr', hin'⟩ := List.any_eq_true.mp h
    simp only [CodeRange.contains, Bool.and_eq_true, decide_eq_true_eq] at hin'
    rcases hbeyond with hlow | hbeyond
    · omega
    · rcases hbeyond r' hr' with h | h <;> omega

namespace Lexeme

/-- No token starts with a character beyond ASCII. -/
theorem first?_eq_none {c : Char} (hc : 128 ≤ c.toNat) (rest : List Char) :
    first? (c :: rest) = none := by
  have hne : ∀ d : Char, d.toNat < 128 → c ≠ d := by
    rintro d hd rfl
    omega
  have hrange {d e : Char} (he : e.toNat < 128) : (decide (d ≤ c) && decide (c ≤ e)) = false := by
    rw [Bool.and_eq_false_iff, decide_eq_false_iff_not, decide_eq_false_iff_not]
    refine .inr fun hle => ?_
    have := Char.le_def.mp hle
    have : c.toNat ≤ e.toNat := this
    omega
  have hdigit : isDecimalDigit c = false := hrange (by decide)
  have hbool : Literal.bool? (c :: rest) = none := by
    have ht := hne 't' (by decide)
    have hf := hne 'f' (by decide)
    simp [Literal.bool?, ht.symm, hf.symm]
  have hsymbol : ∀ s : Symbol, s.text.toList.head? ≠ some c := by
    intro s hs
    have hall : s.text.toList.head?.all (·.toNat < 128) = true := by
      cases s <;> decide
    rw [hs, Option.all_some, decide_eq_true_eq] at hall
    exact hne c hall rfl
  have hword : word? (c :: rest) = none := by
    have hstart : isIdentStart c = false := by
      simp only [isIdentStart, isAsciiLetter, hrange (show 'z'.toNat < 128 by decide),
        hrange (show 'Z'.toNat < 128 by decide), hne '_' (by decide)]
      rfl
    simp [word?, hstart]
  have hcontrol : control? (c :: rest) = none := by
    have hno : c ∉ Token.controls := by
      have hall : Token.controls.all (·.toNat < 128) = true := by decide
      exact fun h => hne c (of_decide_eq_true (List.all_eq_true.mp hall c h)) rfl
    simp [control?, hno]
  simp [first?, literal?, comment?_eq_none (hne '/' (by decide)),
    float?_eq_none hdigit (hne '.' (by decide)), integer?_eq_none hdigit, hbool,
    symbol?_eq_none hsymbol, hword, hcontrol]

/-- Where an identifier comes from: a word in front, which is no truth value. A truth value is an
    identifier only in front of a letter or a digit beyond ASCII, which is an error. -/
theorem first?_ident {c : Char} {rest : List Char} {lexeme : Lexeme} {name : String}
    (h : first? (c :: rest) = some lexeme) (hname : lexeme.kind = .ident name) :
    isIdentStart c ∧ name = String.ofList (c :: rest.takeWhile isIdentPart) ∧
      Token.keywords.contains name = false ∧
      lexeme.size = (rest.takeWhile isIdentPart).length + 1 ∧ Literal.bool? (c :: rest) = none := by
  have hcomment : ∀ text l, comment? text = some l → l.kind ≠ .ident name := by
    intro text l hl
    unfold comment? at hl
    split at hl
    · obtain rfl := Option.some.inj hl
      simp
    · obtain ⟨body, -, rfl⟩ := Option.map_eq_some_iff.mp hl
      simp
    · simp at hl
  have hliteral : ∀ text l, literal? text = some l → l.kind ≠ .ident name := by
    intro text l hl
    unfold literal? at hl
    split at hl
    · obtain rfl := Option.some.inj hl
      simp
    · split at hl
      · obtain rfl := Option.some.inj hl
        simp
      · obtain ⟨value, -, rfl⟩ := Option.map_eq_some_iff.mp hl
        simp
  simp only [first?, Option.orElse_eq_orElse, Option.orElse_eq_or, Option.or_eq_some_iff] at h
  rcases h with h | ⟨-, h | ⟨hnone, h | ⟨-, h | ⟨-, h⟩⟩⟩⟩
  · exact absurd hname (hcomment _ _ h)
  · exact absurd hname (hliteral _ _ h)
  · obtain ⟨symbol, -, rfl⟩ := Option.map_eq_some_iff.mp h
    simp at hname
  · have hbool : Literal.bool? (c :: rest) = none := by
      unfold literal? at hnone
      split at hnone
      · simp at hnone
      · split at hnone
        · simp at hnone
        · exact Option.map_eq_none_iff.mp hnone
    unfold word? at h
    dsimp only at h
    split at h
    · rename_i hstart
      obtain rfl := Option.some.inj h
      dsimp only at hname
      split at hname
      · simp at hname
      · rename_i hkeyword
        obtain rfl := Token.Kind.ident.inj hname
        exact ⟨hstart, rfl, by simpa using hkeyword, Nat.add_comm 1 _, hbool⟩
    · simp at h
  · unfold control? at h
    dsimp only at h
    split at h
    · obtain rfl := Option.some.inj h
      simp at hname
    · simp at h

end Lexeme

namespace Scan

/-- A truth value that is no literal goes on with a letter or a digit that no identifier has. -/
theorem beyond_of_bool? {word rest : List Char} (hword : word = "true".toList ∨ word = "false".toList)
    (hbool : Literal.bool? (word ++ rest) = none) : Literal.endsBefore rest = false := by
  by_contra hends
  rw [Bool.not_eq_false] at hends
  have htrue : "true".toList.isPrefixOf ("true".toList ++ rest) = true := by simp
  have hfalse : "false".toList.isPrefixOf ("false".toList ++ rest) = true := by simp
  rcases hword with rfl | rfl
  · have hdrop : ("true".toList ++ rest).drop 4 = rest := rfl
    rw [Literal.bool?, htrue, hdrop, hends] at hbool
    simp at hbool
  · have hdrop : ("false".toList ++ rest).drop 5 = rest := rfl
    rw [Literal.bool?, hfalse, hdrop, hends] at hbool
    split at hbool <;> simp at hbool

/-- A letter or a digit that no identifier has is an error. -/
theorem errors_of_beyond {d : Char} {more : List Char} {position : Nat}
    (hends : Literal.endsBefore (d :: more) = false) (hpart : Lexeme.isIdentPart d = false) :
    (ofText position (d :: more)).errors ≠ [] := by
  obtain ⟨hletter, hunderscore⟩ : isAsciiAlphanumeric d = false ∧ d ≠ '_' := by
    simpa [Lexeme.isIdentPart] using hpart
  have halphanumeric : isAlphanumeric d := by
    simpa [Literal.endsBefore, hunderscore] using hends
  have hbeyond : 128 ≤ d.toNat := by
    by_contra hascii
    rw [isAlphanumeric, if_pos (by omega), hletter] at halphanumeric
    exact absurd halphanumeric (by decide)
  have hsolid := isWhiteSpace_of_isAlphanumeric halphanumeric
  rw [ofText, if_neg (by simp [hsolid]), Lexeme.first?_eq_none hbeyond]
  dsimp only
  split <;> simp

theorem ofText_ident (position : Nat) (text : List Char) :
    (ofText position text).errors = [] → ∀ t ∈ (ofText position text).tokens, ∀ name,
      t.1.kind = .ident name → IsIdentifier name := by
  fun_induction ofText position text with
  | case1 position => simp
  | case2 position c rest hspace ih => exact ih
  | case3 position c rest hsolid lexeme hfirst stop ih =>
    intro herrors t ht name hname
    rcases List.mem_cons.mp ht with rfl | ht
    · obtain ⟨hstart, rfl, hkeyword, hsize, hbool⟩ := Lexeme.first?_ident hfirst hname
      refine ⟨⟨c, rest.takeWhile Lexeme.isIdentPart, by simp, hstart, fun d hd => ?_⟩, hkeyword, ?_⟩
      · exact List.all_eq_true.mp List.all_takeWhile d hd
      have hsplit := List.takeWhile_append_dropWhile (p := Lexeme.isIdentPart) (l := rest)
      have hrest : rest.drop (lexeme.size - 1) = rest.dropWhile Lexeme.isIdentPart := by
        have hdrop := congrArg (List.drop (rest.takeWhile Lexeme.isIdentPart).length) hsplit
        rw [List.drop_left] at hdrop
        rw [hsize, Nat.add_sub_cancel, hdrop]
      have hword : c :: rest = (c :: rest.takeWhile Lexeme.isIdentPart) ++
          rest.dropWhile Lexeme.isIdentPart := by simp
      have hno : c :: rest.takeWhile Lexeme.isIdentPart ≠ "true".toList ∧
          c :: rest.takeWhile Lexeme.isIdentPart ≠ "false".toList := by
        rw [← not_or]
        intro htruth
        rw [hword] at hbool
        have hends := beyond_of_bool? htruth hbool
        rw [hrest] at herrors
        cases hbehind : rest.dropWhile Lexeme.isIdentPart with
        | nil =>
          rw [hbehind] at hends
          exact absurd hends (by decide)
        | cons d more =>
          rw [hbehind] at hends herrors
          have hpart : Lexeme.isIdentPart d = false := by
            have hhead := List.head?_dropWhile_not (p := Lexeme.isIdentPart) (l := rest)
            rw [hbehind] at hhead
            simpa using hhead
          exact errors_of_beyond hends hpart herrors
      exact ⟨fun h => hno.1 (by rw [← h]; simp), fun h => hno.2 (by rw [← h]; simp)⟩
    · exact ih herrors t ht name hname
  | case4 => 
    intro herrors
    exact absurd herrors (by simp)
  | case5 => 
    intro herrors
    exact absurd herrors (by simp)

end Scan

theorem IsIdentifier.of_lex {source : String} {tokens : TokenList}
    (h : lex source = (some tokens, [])) {name : String}
    (hname : .ident name ∈ tokens.tokens.map (·.kind)) : IsIdentifier name := by
  have hscan : (Scan.ofSource source).errors = [] → ∀ t ∈ (Scan.ofSource source).tokens,
      t.1.kind = .ident name → IsIdentifier name := by
    unfold Scan.ofSource
    split <;> exact fun herrors t ht => Scan.ofText_ident _ _ herrors t ht name
  unfold lex at h
  generalize Scan.ofSource source = scan at h hscan
  dsimp only at h
  split at h
  · obtain ⟨htokens, herrors⟩ := Prod.mk.inj h
    obtain ⟨herrors, -⟩ := List.append_eq_nil_iff.mp herrors
    obtain rfl := Option.some.inj htokens
    obtain ⟨t, ht, hkind⟩ := List.mem_map.mp hname
    obtain ⟨pair, hpair, rfl⟩ := List.mem_map.mp (List.mem_filter.mp ht).1
    exact hscan herrors pair hpair hkind
  · simp at h

end ShaderExpr
