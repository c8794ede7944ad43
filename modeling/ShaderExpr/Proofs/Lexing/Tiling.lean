import Mathlib.Data.List.Nodup
import ShaderExpr.Proofs.Lexing.Longest
import ShaderExpr.Proofs.Printing.Identifiers

namespace ShaderExpr

open Token

/-- The tokens and comments of a text that starts at byte `position`, and white space around them:
    together they are the text. No longer part of the text starts as one of them does, whatever is
    behind it. -/
inductive Tiles : Nat → List Char → List Token → Prop
  | blank {position : Nat} {gap : List Char} (blank : ∀ c ∈ gap, isWhiteSpace c) :
    Tiles position gap []
  | token {position start stop : Nat} {gap lexeme rest : List Char} {kind : Kind}
    {tokens : List Token} (blank : ∀ c ∈ gap, isWhiteSpace c)
    (starts : start = position + byteLength gap) (stops : stop = start + byteLength lexeme)
    (forms : Forms lexeme kind none) (ends : kind.Ends rest)
    (longest : ∀ front other flaw, front <+: lexeme ++ rest → Forms front other flaw →
      front.length ≤ lexeme.length)
    (following : Tiles stop rest tokens) :
    Tiles position (gap ++ lexeme ++ rest) (⟨kind, ⟨start, stop⟩⟩ :: tokens)

theorem byteLength_append (text more : List Char) :
    byteLength (text ++ more) = byteLength text + byteLength more := by
  induction text with
  | nil => exact (Nat.zero_add _).symm
  | cons c text ih =>
    change c.utf8Size + byteLength (text ++ more) = c.utf8Size + byteLength text + byteLength more
    rw [ih, Nat.add_assoc]

theorem byteLength_pos {text : List Char} (h : text ≠ []) : 0 < byteLength text := by
  obtain ⟨c, text, rfl⟩ := List.exists_cons_of_ne_nil h
  exact Nat.lt_add_right _ c.utf8Size_pos

namespace Tiles

variable {position : Nat} {text : List Char} {tokens : List Token}

theorem cons {c : Char} (hspace : isWhiteSpace c) (h : Tiles (position + c.utf8Size) text tokens) :
    Tiles position (c :: text) tokens := by
  have hblank {gap : List Char} (blank : ∀ d ∈ gap, isWhiteSpace d) :
      ∀ d ∈ c :: gap, isWhiteSpace d := by
    intro d hd
    rcases List.mem_cons.mp hd with rfl | hd
    · exact hspace
    · exact blank d hd
  cases h with
  | blank blank => exact .blank (hblank blank)
  | token blank starts stops forms ends longest following =>
    exact .token (hblank blank) (starts.trans (Nat.add_assoc _ _ _)) stops forms ends longest following

/-- Spans follow each other, and none is empty. -/
theorem spans (h : Tiles position text tokens) :
    (∀ t ∈ tokens, position ≤ t.span.start ∧ t.span.start < t.span.stop) ∧
      tokens.Pairwise fun t u => t.span.stop ≤ u.span.start := by
  induction h with
  | blank => simp
  | @token position start stop gap lexeme rest kind tokens blank starts stops forms _ _ _ ih =>
    obtain ⟨hinside, hpairwise⟩ := ih
    have hlexeme := byteLength_pos forms.ne_nil
    refine ⟨?_, List.pairwise_cons.mpr ⟨fun t ht => (hinside t ht).1, hpairwise⟩⟩
    intro t ht
    rcases List.mem_cons.mp ht with rfl | ht
    · exact ⟨by dsimp only; omega, by dsimp only; omega⟩
    · have ht := hinside t ht
      exact ⟨by omega, ht.2⟩

/-- A token is what the text of its span forms. -/
theorem covers (h : Tiles position text tokens) : ∀ t ∈ tokens, ∃ before lexeme behind,
    text = before ++ lexeme ++ behind ∧ t.span.start = position + byteLength before ∧
      t.span.stop = t.span.start + byteLength lexeme ∧ Forms lexeme t.kind none := by
  induction h with
  | blank => simp
  | @token position start stop gap lexeme rest kind tokens blank starts stops forms _ _ _ ih =>
    intro t ht
    rcases List.mem_cons.mp ht with rfl | ht
    · exact ⟨gap, lexeme, rest, rfl, starts, stops, forms⟩
    · obtain ⟨before, other, behind, rfl, hstart, hstop, hforms⟩ := ih t ht
      refine ⟨gap ++ lexeme ++ before, other, behind, by simp, ?_, hstop, hforms⟩
      rw [byteLength_append, byteLength_append]
      omega

end Tiles

namespace Scan

theorem complete_of_errors (position : Nat) (text : List Char) :
    (ofText position text).errors = [] → (ofText position text).complete := by
  fun_induction ofText position text with
  | case1 => exact fun _ => rfl
  | case2 _ _ _ _ ih => exact ih
  | case3 _ _ _ _ _ _ _ ih => exact ih
  | case4 => exact fun herrors => absurd herrors (by simp)
  | case5 => exact fun herrors => absurd herrors (by simp)

/-- A text that is split without errors is tiled by its tokens. -/
theorem ofText_tiles (position : Nat) (text : List Char) :
    (ofText position text).errors = [] → (∀ t ∈ (ofText position text).tokens, t.2 = none) →
      (∀ t ∈ (ofText position text).tokens, t.1.kind ≠ .ident "true" ∧ t.1.kind ≠ .ident "false") →
        Tiles position text ((ofText position text).tokens.map (·.1)) := by
  fun_induction ofText position text with
  | case1 position => exact fun _ _ _ => .blank (by simp)
  | case2 position c rest hspace ih =>
    intro herrors hflaws htruth
    exact (ih herrors hflaws htruth).cons hspace
  | case3 position c rest hsolid lexeme hfirst stop ih =>
    intro herrors hflaws htruth
    have htiles := ih herrors
      (fun t ht => hflaws t (List.mem_cons_of_mem _ ht))
      fun t ht => htruth t (List.mem_cons_of_mem _ ht)
    have hflaw : lexeme.flaw = none := hflaws _ List.mem_cons_self
    obtain ⟨front, behind, htext, hsize, hforms, hends⟩ :=
      Lexeme.first?_heads hfirst (htruth _ List.mem_cons_self)
    rw [hflaw] at hforms
    have htake : (c :: rest).take lexeme.size = front := by
      rw [htext, ← hsize, List.take_left]
    have hdrop : rest.drop (lexeme.size - 1) = behind := by
      have hpos := Lexeme.size_pos hfirst
      have hbehind : (c :: rest).drop lexeme.size = behind := by
        rw [htext, ← hsize, List.drop_left]
      rw [← hbehind, ← Nat.sub_add_cancel hpos, List.drop_succ_cons, Nat.add_sub_cancel]
    rw [← hdrop] at htext hends
    have hblank : ∀ c ∈ ([] : List Char), isWhiteSpace c := by simp
    have hstop : stop = position + byteLength front := congrArg (position + byteLength ·) htake
    have hlongest : ∀ other kind flaw,
        other <+: front ++ rest.drop (lexeme.size - 1) → Forms other kind flaw →
        other.length ≤ front.length := by
      intro other kind flaw hother hother'
      rw [← htext] at hother
      rw [hsize]
      exact Lexeme.first?_longest hfirst hother hother'
    rw [htext]
    exact .token hblank rfl hstop hforms hends hlongest htiles
  | case4 => exact fun herrors => absurd herrors (by simp)
  | case5 => exact fun herrors => absurd herrors (by simp)

/-- A byte order mark is no part of the text that is split. -/
theorem ofSource_eq (source : String) : ∃ mark text, source.toList = mark ++ text ∧
    (mark = [] ∨ mark = ['\ufeff']) ∧ ofSource source = ofText (byteLength mark) text := by
  unfold ofSource
  split
  · rename_i text hsource
    exact ⟨['\ufeff'], text, hsource, .inr rfl, rfl⟩
  · exact ⟨[], source.toList, rfl, .inl rfl, rfl⟩

end Scan

namespace TokenList

/-- Tokens and comments of a source by where they start. -/
def merged (found : TokenList) : List Token :=
  found.tokens.merge found.comments fun t u => t.span.start ≤ u.span.start

/-- Comments that were set apart are put back where they stood. -/
theorem merged_filter {tokens : List Token}
    (ordered : tokens.Pairwise fun t u => t.span.start < u.span.start) :
    merged ⟨tokens.filter (!·.kind.isComment), tokens.filter (·.kind.isComment)⟩ = tokens := by
  have hsorted (p : Token → Bool) :
      (tokens.filter p).Pairwise fun t u => decide (t.span.start ≤ u.span.start) = true :=
    (ordered.imp fun h => decide_eq_true (Nat.le_of_lt h)).sublist List.filter_sublist
  have hperm : (merged ⟨tokens.filter (!·.kind.isComment),
      tokens.filter (·.kind.isComment)⟩).Perm tokens :=
    (List.merge_perm_append _).trans
      (List.perm_append_comm.trans (List.filter_append_perm (·.kind.isComment) tokens))
  have hmerged : (merged ⟨tokens.filter (!·.kind.isComment),
      tokens.filter (·.kind.isComment)⟩).Pairwise fun t u =>
        decide (t.span.start ≤ u.span.start) = true :=
    List.pairwise_merge (by simpa using fun _ _ _ => Nat.le_trans)
      (by simpa using fun _ _ => Nat.le_total _ _) _ _ (hsorted _) (hsorted _)
  refine hperm.eq_of_pairwise (fun t u ht hu htu hut => ?_) hmerged
    (ordered.imp fun h => decide_eq_true (Nat.le_of_lt h))
  -- Tokens that start at one place are one token.
  have hnodup : (tokens.map (·.span.start)).Nodup :=
    List.pairwise_map.mpr (ordered.imp Nat.ne_of_lt)
  exact List.inj_on_of_nodup_map hnodup (hperm.mem_iff.mp ht) hu
    (Nat.le_antisymm (of_decide_eq_true htu) (of_decide_eq_true hut))

end TokenList

/-- Without errors, the tokens and the comments of a source by where they start tile it. -/
theorem lex_tiles {source : String} (h : (lex source).2 = []) :
    ∃ found mark text, (lex source).1 = some found ∧ source.toList = mark ++ text ∧
      (mark = [] ∨ mark = ['\ufeff']) ∧ Tiles (byteLength mark) text found.merged := by
  obtain ⟨mark, text, hsource, hmark, hscan⟩ := Scan.ofSource_eq source
  have hcomplete := Scan.complete_of_errors (byteLength mark) text
  have htiles := Scan.ofText_tiles (byteLength mark) text
  have hident := Scan.ofText_ident (byteLength mark) text
  unfold lex at h ⊢
  rw [hscan] at h ⊢
  generalize Scan.ofText (byteLength mark) text = scan at h hcomplete htiles hident ⊢
  by_cases hscan : scan.complete
  · simp only [hscan, if_true, List.append_eq_nil_iff, List.filterMap_eq_nil_iff] at h ⊢
    obtain ⟨herrors, hflaws⟩ := h
    have htiles := htiles herrors (fun t ht => Option.map_eq_none_iff.mp (hflaws t ht))
      fun t ht => ⟨fun hkind => (hident herrors t ht _ hkind).truth.1 rfl,
        fun hkind => (hident herrors t ht _ hkind).truth.2 rfl⟩
    refine ⟨_, mark, text, rfl, hsource, hmark, ?_⟩
    obtain ⟨hinside, hpairwise⟩ := htiles.spans
    rw [TokenList.merged_filter]
    · exact htiles
    · exact hpairwise.imp_of_mem fun ht _ hle => Nat.lt_of_lt_of_le (hinside _ ht).2 hle
  · simp only [hscan, Bool.false_eq_true, if_false] at h
    exact absurd (hcomplete h) hscan

/-- Splitting a source loses nothing and cuts nothing short: without errors its tokens and comments
    have spans that follow each other, each between two characters of the source, and are with the
    white space around them all of it behind the byte order mark. An error is recovered from by a
    token that covers what was skipped, so the spans of tokens tile a source only if there is none.
    -/
theorem lex_lossless {source : String} (h : (lex source).2 = []) :
    ∃ found mark text, (lex source).1 = some found ∧ source.toList = mark ++ text ∧
      (mark = [] ∨ mark = ['\ufeff']) ∧ Tiles (byteLength mark) text found.merged ∧
        found.merged.Pairwise (fun t u => t.span.stop ≤ u.span.start) ∧
          ∀ t ∈ found.merged, ∃ before lexeme behind, source.toList = before ++ lexeme ++ behind ∧
            lexeme ≠ [] ∧ t.span = ⟨byteLength before, byteLength (before ++ lexeme)⟩ ∧
              Forms lexeme t.kind none := by
  obtain ⟨found, mark, text, hfound, hsource, hmark, htiles⟩ := lex_tiles h
  refine ⟨found, mark, text, hfound, hsource, hmark, htiles, htiles.spans.2, fun t ht => ?_⟩
  obtain ⟨before, lexeme, behind, rfl, hstart, hstop, hforms⟩ := htiles.covers t ht
  refine ⟨mark ++ before, lexeme, behind, by simp [hsource], hforms.ne_nil, ?_, hforms⟩
  rw [byteLength_append (mark ++ before), byteLength_append mark, ← hstart, ← hstop]

theorem lex_lossless_comments : (lex "\ufeffx/* é */= 1.5e3lf; // y").2 = [] ∧
    ∃ found, (lex "\ufeffx/* é */= 1.5e3lf; // y").1 = some found ∧
      found.merged.Pairwise fun t u => t.span.stop ≤ u.span.start := by
  have h : (lex "\ufeffx/* é */= 1.5e3lf; // y").2 = [] := by decide +kernel
  obtain ⟨found, _, _, hfound, -, -, -, hpairwise, -⟩ := lex_lossless h
  exact ⟨h, found, hfound, hpairwise⟩

end ShaderExpr
