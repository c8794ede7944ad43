import ShaderExpr.Proofs.Grammar.Phrase
import ShaderExpr.Proofs.Printing.Word

namespace ShaderExpr

/-- A source without a byte order mark is split as it is. -/
theorem Scan.ofSource_eq_ofText {source : String} (plain : source.toList.head? ≠ some '\ufeff') :
    ofSource source = ofText 0 source.toList := by
  unfold ofSource
  split
  · rename_i hmark
    exact absurd (by rw [hmark]; rfl) plain
  · rfl

/-- A text that splits into tokens of these kinds, none of them flawed and none a comment, with
    spaces between some of them. -/
inductive Spaced : List Char → Phrase.Kinds → Prop
  | done : Spaced [] []
  | space {text : List Char} {ks : Phrase.Kinds} (following : Spaced text ks) :
    Spaced (' ' :: text) ks
  | token {c : Char} {text rest : List Char} {k : Token.Kind} {ks : Phrase.Kinds}
    (first : Lexeme.first? (c :: text ++ rest) = some ⟨k, none, text.length + 1⟩)
    (solid : isWhiteSpace c = false) (kept : k.isComment = false) (following : Spaced rest ks) :
    Spaced (c :: text ++ rest) (k :: ks)

namespace Spaced

/-- Such a text is split into these tokens, and all of it is. -/
theorem ofText {text : List Char} {ks : Phrase.Kinds} (h : Spaced text ks) :
    ∀ position, ∃ tokens : List Token, tokens.map (·.kind) = ks ∧
      Scan.ofText position text = ⟨tokens.map (·, none), [], true⟩ := by
  induction h with
  | done => exact fun position => ⟨[], rfl, by simp [Scan.ofText]⟩
  | space following ih =>
    intro position
    obtain ⟨tokens, htokens, hscan⟩ := ih (position + ' '.utf8Size)
    have hspace : isWhiteSpace ' ' = true := by decide
    exact ⟨tokens, htokens, by rw [Scan.ofText, if_pos hspace, hscan]⟩
  | @token c text rest k ks first solid kept following ih =>
    intro position
    let stop := position + byteLength ((c :: (text ++ rest)).take (text.length + 1))
    obtain ⟨tokens, htokens, hscan⟩ := ih stop
    refine ⟨⟨k, position, stop⟩ :: tokens, by rw [List.map_cons, htokens], ?_⟩
    rw [List.cons_append] at first ⊢
    rw [Scan.ofText, if_neg (by simp [solid]), first]
    simp only [Nat.add_sub_cancel, List.drop_left]
    rw [hscan]
    rfl

theorem isComment_eq_false {text : List Char} {ks : Phrase.Kinds} (h : Spaced text ks) :
    ∀ k ∈ ks, k.isComment = false := by
  induction h with
  | done => simp
  | space _ ih => exact ih
  | token _ _ kept _ ih =>
    intro k hk
    rcases List.mem_cons.mp hk with rfl | hk
    · exact kept
    · exact ih k hk

/-- Splitting a whole source meets no error, and finds no comment. A byte order mark in front would
    be dropped, and a text that is printed has none. -/
theorem lex {source : String} {ks : Phrase.Kinds} (h : Spaced source.toList ks)
    (hmark : source.toList.head? ≠ some '\ufeff') :
    ∃ tokens : List Token, tokens.map (·.kind) = ks ∧
      ShaderExpr.lex source = (some ⟨tokens, []⟩, []) := by
  obtain ⟨tokens, htokens, hscan⟩ := h.ofText 0
  have hsource : Scan.ofSource source = ⟨tokens.map (·, none), [], true⟩ :=
    (Scan.ofSource_eq_ofText hmark).trans hscan
  have hcomments : ∀ t ∈ tokens, t.kind.isComment = false := fun t ht =>
    h.isComment_eq_false _ (htokens ▸ List.mem_map_of_mem ht)
  refine ⟨tokens, htokens, ?_⟩
  unfold ShaderExpr.lex
  rw [hsource]
  simp only [if_true, List.map_map, Function.comp_def, List.map_id', List.filterMap_map,
    Option.map_none, List.filterMap_eq_nil_iff.mpr fun _ _ => rfl, List.append_nil]
  rw [List.filter_eq_self.mpr (by simpa using hcomments),
    List.filter_eq_nil_iff.mpr (by simpa using hcomments)]

end Spaced

/-- A piece of text that splits into tokens of these kinds in front of any text that satisfies `F`,
    whatever that splits into. So pieces are put together without looking at their tokens again. -/
def Renders (text : List Char) (ks : Phrase.Kinds) (F : List Char → Prop) : Prop :=
  ∀ rest us, F rest → Spaced rest us → Spaced (text ++ rest) (ks ++ us)

namespace Renders

variable {text text' : List Char} {ks ks' : Phrase.Kinds} {F G : List Char → Prop}

theorem mono (h : Renders text ks F) (hF : ∀ rest, G rest → F rest) : Renders text ks G :=
  fun rest us hG => h rest us (hF rest hG)

theorem append (h : Renders text ks F) (h' : Renders text' ks' G)
    (hF : ∀ rest, G rest → F (text' ++ rest)) : Renders (text ++ text') (ks ++ ks') G := by
  intro rest us hG hrest
  rw [List.append_assoc, List.append_assoc]
  exact h _ _ (hF rest hG) (h' rest us hG hrest)

theorem space : Renders [' '] [] fun _ => True := fun _ _ _ => .space

theorem token {c : Char} {k : Token.Kind}
    (h : ∀ rest, F rest → Lexeme.first? (c :: text ++ rest) = some ⟨k, none, text.length + 1⟩)
    (solid : isWhiteSpace c = false) (kept : k.isComment = false) :
    Renders (c :: text) [k] F :=
  fun rest _ hF hrest => .token (h rest hF) solid kept hrest

end Renders

namespace Lexeme

theorem isWhiteSpace_of_isIdentStart {c : Char} (h : isIdentStart c) : isWhiteSpace c = false := by
  have hrange : 65 ≤ c.toNat ∧ c.toNat ≤ 122 := by
    rcases isIdentStart_iff.mp h with ⟨hlow, hhigh⟩ | ⟨hlow, hhigh⟩ | rfl
    · exact ⟨Nat.le_trans (by decide) (Char.le_def.mp hlow), Char.le_def.mp hhigh⟩
    · exact ⟨Char.le_def.mp hlow, Nat.le_trans (Char.le_def.mp hhigh) (by decide)⟩
    · decide
  simp [isWhiteSpace, whiteSpace, CodeRange.contains]
  omega

end Lexeme

theorem IsIdentifier.renders {name : String} (h : IsIdentifier name) :
    Renders name.toList [.ident name] EndsWord := by
  obtain ⟨⟨c, cs, hname, hc, hcs⟩, hkeyword, htrue, hfalse⟩ := h
  obtain rfl : name = String.ofList (c :: cs) := by rw [← hname, String.ofList_toList]
  rw [hname]
  refine .token (fun rest hrest => ?_) (Lexeme.isWhiteSpace_of_isIdentStart hc) rfl
  rw [Lexeme.first?_word hc hcs hrest htrue hfalse, hkeyword]
  rfl

/-- Keywords are words. -/
theorem renders_keyword {word : String} (h : word ∈ Token.keywords) :
    Renders word.toList [.keyword word] EndsWord := by
  obtain ⟨⟨c, cs, hlist, hc, hcs⟩, htrue, hfalse⟩ := Lexeme.keyword_parts h
  obtain rfl : word = String.ofList (c :: cs) := by rw [← hlist, String.ofList_toList]
  rw [hlist]
  refine .token (fun rest hrest => ?_) (Lexeme.isWhiteSpace_of_isIdentStart hc) rfl
  rw [Lexeme.first?_word hc hcs hrest htrue hfalse, List.contains_iff_mem.mpr h]
  rfl

end ShaderExpr
