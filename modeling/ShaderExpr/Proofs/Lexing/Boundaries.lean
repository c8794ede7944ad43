import ShaderExpr.Proofs.Lexing.Tiling

namespace ShaderExpr

/-- A byte offset where a character of a text starts, or where the text ends. -/
def IsBoundary (text : List Char) (offset : Nat) : Prop :=
  ∃ before behind, text = before ++ behind ∧ byteLength before = offset

namespace IsBoundary

variable {text : List Char}

theorem mk (before behind : List Char) : IsBoundary (before ++ behind) (byteLength before) :=
  ⟨before, behind, rfl, rfl⟩

theorem zero (text : List Char) : IsBoundary text 0 := ⟨[], text, rfl, rfl⟩

theorem byteLength (text : List Char) : IsBoundary text (byteLength text) :=
  ⟨text, [], (List.append_nil text).symm, rfl⟩

end IsBoundary

/-- The bytes of a text that a span covers are whole characters. The spans of tokens and of lexical
    errors are of this kind, whatever is skipped behind an error. -/
structure Span.Inside (text : List Char) (s : Span) : Prop where
  start : IsBoundary text s.start
  stop : IsBoundary text s.stop
  ordered : s.start ≤ s.stop

namespace Span.Inside

variable {text : List Char} {s s' : Span}

/-- Nothing between two characters. -/
theorem empty {offset : Nat} (h : IsBoundary text offset) : Inside text ⟨offset, offset⟩ :=
  ⟨h, h, Nat.le_refl _⟩

/-- The characters between some of a text and more of it. -/
theorem of_append {before inside behind : List Char} (h : text = before ++ (inside ++ behind))
    {start stop : Nat} (hstart : start = byteLength before)
    (hstop : stop = start + byteLength inside) : Inside text ⟨start, stop⟩ := by
  subst hstart hstop h
  refine ⟨.mk before _, ?_, Nat.le_add_right _ _⟩
  rw [← List.append_assoc, ← byteLength_append]
  exact .mk (before ++ inside) behind

theorem merge (h : Inside text s) (h' : Inside text s') : Inside text (s.merge s') := by
  refine ⟨?_, ?_, ?_⟩
  · change IsBoundary text (min s.start s'.start)
    rcases Nat.le_total s.start s'.start with hle | hle
    · rw [Nat.min_eq_left hle]
      exact h.start
    · rw [Nat.min_eq_right hle]
      exact h'.start
  · change IsBoundary text (max s.stop s'.stop)
    rcases Nat.le_total s.stop s'.stop with hle | hle
    · rw [Nat.max_eq_right hle]
      exact h'.stop
    · rw [Nat.max_eq_left hle]
      exact h.stop
  · exact Nat.le_trans (Nat.min_le_left _ _) (Nat.le_trans h.ordered (Nat.le_max_left _ _))

/-- A span divides its text into three parts. -/
theorem exists_parts (h : Inside text s) : ∃ before inside behind,
    text = before ++ inside ++ behind ∧ s = ⟨byteLength before, byteLength (before ++ inside)⟩ := by
  obtain ⟨⟨before, behind, hbefore, hstart⟩, ⟨upTo, beyond, hupTo, hstop⟩, hordered⟩ := h
  obtain ⟨start, stop⟩ := s
  obtain rfl : byteLength before = start := hstart
  obtain rfl : byteLength upTo = stop := hstop
  have hprefix : before <+: upTo := by
    refine (List.prefix_or_prefix_of_prefix ⟨behind, hbefore.symm⟩ ⟨beyond, hupTo.symm⟩).elim id ?_
    rintro ⟨more, rfl⟩
    cases more with
    | nil => exact ⟨[], by simp⟩
    | cons c more =>
      have hpos := byteLength_pos (List.cons_ne_nil c more)
      have hordered : byteLength (upTo ++ c :: more) ≤ byteLength upTo := hordered
      rw [byteLength_append] at hordered
      omega
  obtain ⟨inside, rfl⟩ := hprefix
  exact ⟨before, inside, beyond, hupTo, rfl⟩

end Span.Inside

namespace Scan

/-- What a lexical error points at: a character of the text, or its end. -/
theorem stray_inside (before text : List Char) :
    (stray (byteLength before) text).span.Inside (before ++ text) := by
  have htext {rest : List Char} (h : text.drop (Literal.reach text) = rest) :
      before ++ text = (before ++ text.take (Literal.reach text)) ++ rest := by
    rw [List.append_assoc, ← h, List.take_append_drop]
  unfold stray
  dsimp only
  split
  · rename_i hrest
    exact .empty ⟨_, _, htext hrest, byteLength_append _ _⟩
  · rename_i c rest hrest
    have hsplit : before ++ text = (before ++ text.take (Literal.reach text)) ++ ([c] ++ rest) :=
      htext hrest
    exact .of_append hsplit (byteLength_append _ _).symm rfl

/-- Splitting part of a text gives spans inside of the text. -/
theorem ofText_inside (position : Nat) (text : List Char) : ∀ before : List Char,
    byteLength before = position →
      (∀ t ∈ (ofText position text).tokens, t.1.span.Inside (before ++ text)) ∧
        ∀ d ∈ (ofText position text).errors, d.span.Inside (before ++ text) := by
  fun_induction ofText position text with
  | case1 => simp
  | case2 position c rest hspace ih =>
    rintro before rfl
    have hbefore := ih (before ++ [c]) (byteLength_append before [c])
    rwa [List.append_assoc, List.singleton_append] at hbefore
  | case3 position c rest hsolid lexeme hfirst stop ih =>
    rintro before rfl
    have hsplit : (c :: rest).take lexeme.size ++ rest.drop (lexeme.size - 1) = c :: rest := by
      have hdrop : (c :: rest).drop lexeme.size = rest.drop (lexeme.size - 1) := by
        rw [← Nat.sub_add_cancel (Lexeme.size_pos hfirst), List.drop_succ_cons, Nat.add_sub_cancel]
      rw [← hdrop, List.take_append_drop]
    obtain ⟨htokens, herrors⟩ := ih (before ++ (c :: rest).take lexeme.size) (byteLength_append _ _)
    rw [List.append_assoc, hsplit] at htokens herrors
    exact ⟨List.forall_mem_cons.mpr ⟨.of_append (by rw [hsplit]) rfl rfl, htokens⟩, herrors⟩
  | case4 position c rest hsolid hnone error hnext =>
    rintro before rfl
    exact ⟨by simp, by simpa using stray_inside before (c :: rest)⟩
  | case5 position c rest hsolid hnone error skipped lexeme hnext size stop following ih =>
    rintro before rfl
    have hsplit : before ++ c :: rest =
        before ++ ((c :: rest.take size) ++ rest.drop size) := by
      rw [List.cons_append, List.take_append_drop]
    have hlength : byteLength (before ++ c :: rest.take size) = stop := by
      rw [byteLength_append]
      exact (Nat.add_assoc _ _ _).symm
    obtain ⟨htokens, herrors⟩ := ih _ hlength
    rw [List.append_assoc, ← hsplit] at htokens herrors
    refine ⟨List.forall_mem_cons.mpr ⟨.of_append hsplit rfl ?_, htokens⟩,
      List.forall_mem_cons.mpr ⟨stray_inside before _, herrors⟩⟩
    exact Nat.add_assoc _ _ _

theorem ofSource_inside (source : String) :
    (∀ t ∈ (ofSource source).tokens, t.1.span.Inside source.toList) ∧
      ∀ d ∈ (ofSource source).errors, d.span.Inside source.toList := by
  obtain ⟨mark, text, hsource, -, hscan⟩ := ofSource_eq source
  rw [hscan, hsource]
  exact ofText_inside _ text mark rfl

end Scan

/-- Tokens and lexical errors of a source cover characters of it. -/
theorem lex_inside {source : String} {tokens? : Option TokenList} {errors : List Diagnostic}
    (h : lex source = (tokens?, errors)) :
    (∀ found, tokens? = some found → ∀ t ∈ found.tokens, t.span.Inside source.toList) ∧
      ∀ d ∈ errors, d.span.Inside source.toList := by
  obtain ⟨htokens, herrors⟩ := Scan.ofSource_inside source
  unfold lex at h
  generalize Scan.ofSource source = scan at h htokens herrors
  dsimp only at h
  split at h
  · obtain ⟨rfl, rfl⟩ := Prod.mk.inj h
    refine ⟨?_, fun d hd => ?_⟩
    · rintro found hfound t ht
      obtain rfl := Option.some.inj hfound
      obtain ⟨pair, hpair, rfl⟩ := List.mem_map.mp (List.mem_filter.mp ht).1
      exact htokens pair hpair
    · rcases List.mem_append.mp hd with hd | hd
      · exact herrors d hd
      · obtain ⟨pair, hpair, hflaw⟩ := List.mem_filterMap.mp hd
        obtain ⟨flaw, -, rfl⟩ := Option.map_eq_some_iff.mp hflaw
        exact htokens pair hpair
  · obtain ⟨rfl, rfl⟩ := Prod.mk.inj h
    exact ⟨by simp, herrors⟩

end ShaderExpr
