import ShaderExpr.Proofs.Collections
import ShaderExpr.Proofs.Lexing.Boundaries
import ShaderExpr.Proofs.Reading.Spacing
import ShaderExpr.Source.Report

namespace ShaderExpr

theorem flatten_splitLines (text : List Char) : (splitLines text).flatten = text := by
  induction text with
  | nil => rfl
  | cons c rest ih =>
    unfold splitLines
    split
    · rw [List.flatten_cons, ih]
      rfl
    · split
      · rename_i hnone
        rw [hnone] at ih
        rw [← ih]
        rfl
      · rename_i line lines hlines
        rw [hlines] at ih
        rw [List.flatten_cons, List.cons_append, ← List.flatten_cons, ih]

namespace Line

/-- The line that is found for an offset holds it, or is the last one. Offsets behind the last line
    are still said to be on it. -/
theorem findFrom_eq_some_iff {lines : List (List Char)} {index start offset : Nat} {l : Line}
    (h : start ≤ offset) : findFrom index start offset lines = some l ↔
      ∃ before line behind, lines = before ++ line :: behind ∧
        l = ⟨index + before.length, start + before.flatten.length, line⟩ ∧ l.start ≤ offset ∧
        (offset < l.start + line.length ∨ behind = []) := by
  fun_induction findFrom index start offset lines with
  | case1 => simp
  | case2 index start text =>
    rw [List.exists_split_cons]
    constructor
    · rintro ⟨⟩
      exact .inl ⟨rfl, h, .inr rfl⟩
    · rintro (⟨rfl, -⟩ | ⟨before, line, behind, hnone, -⟩)
      · rfl
      · simp at hnone
  | case3 index start text rest hrest hin =>
    rw [List.exists_split_cons]
    constructor
    · rintro ⟨⟩
      exact .inl ⟨rfl, h, .inl hin⟩
    · rintro (⟨rfl, -⟩ | ⟨before, line, behind, -, rfl, hstart, -⟩)
      · rfl
      · -- A line behind the first one starts where the first one ends.
        simp only [List.flatten_cons, List.length_append] at hstart
        omega
  | case4 index start text rest hrest hout ih =>
    have hfirst : ¬(l = ⟨index + 0, start + 0, text⟩ ∧ l.start ≤ offset ∧
        (offset < l.start + text.length ∨ rest = [])) := by
      rintro ⟨rfl, -, hin | hlast⟩
      · exact hout hin
      · exact hrest hlast
    rw [ih (Nat.not_lt.mp hout), List.exists_split_cons]
    simp only [List.length_nil, List.flatten_nil, hfirst, false_or, List.length_cons,
      List.flatten_cons, List.length_append, Nat.add_assoc, Nat.add_comm 1]

theorem findFrom_isSome {lines : List (List Char)} (h : lines ≠ []) (index start offset : Nat) :
    (findFrom index start offset lines).isSome := by
  fun_induction findFrom index start offset lines with
  | case1 => exact absurd rfl h
  | case2 | case3 => rfl
  | case4 index start text rest hrest hout ih => exact ih hrest

end Line

namespace Position

/-- The character at an offset stands in this line and column. The end of a text stands behind its
    last line. -/
def IsAt (text : List Char) (offset : Nat) (p : Position) : Prop :=
  ∃ before line behind, splitLines text = before ++ line :: behind ∧ p.line = before.length ∧
    before.flatten.length + p.column = offset ∧
    (p.column < line.length ∨ behind = [] ∧ p.column = line.length)

variable {text : List Char} {offset : Nat} {p : Position}

theorem length_of_lines {before behind : List (List Char)} {line : List Char}
    (h : splitLines text = before ++ line :: behind) :
    text.length = before.flatten.length + line.length + behind.flatten.length := by
  rw [← flatten_splitLines text, h, List.flatten_append, List.flatten_cons, List.length_append,
    List.length_append, Nat.add_assoc]

/-- The position of an offset is the line and the column that its character stands in. -/
theorem of?_eq_some_iff : of? text offset = some p ↔ p.IsAt text offset := by
  unfold of? Line.containing?
  constructor
  · intro h
    obtain ⟨l, hl, rfl⟩ := Option.map_eq_some_iff.mp h
    split at hl
    · rename_i hle
      obtain ⟨before, line, behind, hlines, rfl, hstart, hbehind⟩ :=
        (Line.findFrom_eq_some_iff (Nat.zero_le offset)).mp hl
      have hlength := length_of_lines hlines
      simp only [Nat.zero_add] at hstart hbehind ⊢
      refine ⟨before, line, behind, hlines, rfl, by simp only; omega, ?_⟩
      by_cases hin : offset < before.flatten.length + line.length
      · exact .inl (by simp only; omega)
      · obtain rfl := hbehind.resolve_left hin
        rw [List.flatten_nil, List.length_nil] at hlength
        exact .inr ⟨rfl, by simp only; omega⟩
    · simp at hl
  · rintro ⟨before, line, behind, hlines, hline, rfl, hcolumn⟩
    have hlength := length_of_lines hlines
    have hfound : Line.findFrom 0 0 (before.flatten.length + p.column) (splitLines text) =
        some ⟨0 + before.length, 0 + before.flatten.length, line⟩ :=
      (Line.findFrom_eq_some_iff (Nat.zero_le _)).mpr ⟨before, line, behind, hlines, rfl,
        by simp only; omega, hcolumn.imp (fun h => by simp only; omega) And.left⟩
    rw [if_pos (by omega), hfound, Option.map_some, Nat.zero_add, Nat.zero_add,
      Nat.add_sub_cancel_left, ← hline]

theorem exists_isAt (some : text ≠ []) (h : offset ≤ text.length) :
    ∃ p : Position, p.IsAt text offset := by
  have hlines : splitLines text ≠ [] := by
    intro hnone
    have hflatten := flatten_splitLines text
    rw [hnone] at hflatten
    exact some hflatten.symm
  obtain ⟨l, hl⟩ := Option.isSome_iff_exists.mp (Line.findFrom_isSome hlines 0 0 offset)
  refine ⟨⟨l.index, offset - l.start⟩, of?_eq_some_iff.mp ?_⟩
  rw [of?, Line.containing?, if_pos h, hl]
  rfl

/-- No two offsets have the same position. -/
theorem IsAt.unique {offset' : Nat} (h : p.IsAt text offset) (h' : p.IsAt text offset') :
    offset = offset' := by
  obtain ⟨before, line, behind, hlines, hline, rfl, -⟩ := h
  obtain ⟨before', line', behind', hlines', hline', rfl, -⟩ := h'
  obtain ⟨rfl, -⟩ := List.append_inj (hlines.symm.trans hlines') (hline.symm.trans hline')
  rfl

end Position

theorem length_le_byteLength (text : List Char) : text.length ≤ byteLength text := by
  induction text with
  | nil => exact Nat.le_refl 0
  | cons c text ih =>
    have hpos := c.utf8Size_pos
    change text.length + 1 ≤ c.utf8Size + byteLength text
    omega

/-- A text has as many bytes as characters when each is a single byte. -/
theorem byteLength_eq_length_iff {text : List Char} :
    byteLength text = text.length ↔ ∀ c ∈ text, c.utf8Size = 1 := by
  induction text with
  | nil => simp [byteLength]
  | cons c text ih =>
    have hpos := c.utf8Size_pos
    have hle := length_le_byteLength text
    rw [List.forall_mem_cons, ← ih, List.length_cons]
    change c.utf8Size + byteLength text = text.length + 1 ↔ _
    omega

theorem utf8ByteSize_eq (source : String) : source.utf8ByteSize = byteLength source.toList := by
  have hlist (text : List Char) : (String.ofList text).utf8ByteSize = byteLength text := by
    induction text with
    | nil => rfl
    | cons c text ih =>
      rw [String.ofList_cons, String.utf8ByteSize_append, String.utf8ByteSize_singleton, ih]
      rfl
  rw [← hlist, String.ofList_toList]

/-- Every problem of a source is at whole characters of it. -/
theorem Reading.span_inside {source : String} {scope : Scope} {r : Reading}
    (h : ofSource source scope = .ok r) : ∀ d ∈ r.diagnostics, d.span.Inside source.toList := by
  obtain ⟨⟨tokens?, errors⟩, hlex⟩ : ∃ found, lex source = found := ⟨_, rfl⟩
  obtain ⟨htokens, herrors⟩ := lex_inside hlex
  cases tokens? with
  | none =>
    unfold ofSource at h
    rw [hlex] at h
    obtain rfl := Except.ok.inj h
    exact herrors
  | some tokens =>
    obtain ⟨e, c, hrun, rfl⟩ := exists_run hlex h
    -- The reading next to itself, with only the spans inside related to themselves.
    let S : SpanRelation := ⟨fun s s' => s.Inside source.toList ∧ s = s',
      fun ⟨hs, heq⟩ ⟨ht, heq'⟩ => ⟨hs.merge ht, by rw [heq, heq']⟩⟩
    have hstart : Cursor.Alike S ⟨tokens.tokens, source.utf8ByteSize, ⟨0, 0⟩, scope, []⟩
        ⟨tokens.tokens, source.utf8ByteSize, ⟨0, 0⟩, scope, []⟩ := by
      refine ⟨List.forall₂_same.mpr fun t ht => ⟨rfl, htokens tokens rfl t ht, rfl⟩,
        ⟨?_, rfl⟩, ⟨.empty (.zero _), rfl⟩, rfl, .nil⟩
      rw [utf8ByteSize_eq]
      exact .empty (.byteLength _)
    obtain ⟨c', hrun', halike⟩ := Reader.alike_source _ _ hstart e c hrun
    obtain rfl : c = c' := (Prod.mk.inj (Except.ok.inj (hrun.symm.trans hrun'))).2
    intro d hd
    rcases List.mem_append.mp hd with hd | hd
    · exact herrors d hd
    · exact (List.forall₂_same.mp halike.diagnostics d hd).2.1

/-- Problems are located where they are, as long as everything in front of the end of their span is
    ASCII. Every problem of a source that is not empty is at some characters of the source, and
    their place is the one that is reported just if each character up to the last of them is a
    single byte: the bytes in front are taken for as many characters. An empty source has no line to
    point at. -/
theorem Reading.location?_eq_iff {source : String} {scope : Scope} {r : Reading} {d : Diagnostic}
    (some : source ≠ "") (h : ofSource source scope = .ok r) (hd : d ∈ r.diagnostics) :
    ∃ before inside behind, source.toList = before ++ inside ++ behind ∧
      d.span = ⟨byteLength before, byteLength (before ++ inside)⟩ ∧
      ∃ start stop : Position, start.IsAt source.toList before.length ∧
        stop.IsAt source.toList (before ++ inside).length ∧
        (d.location? source.toList = .some (start, stop) ↔
          ∀ c ∈ before ++ inside, c.utf8Size = 1) := by
  obtain ⟨before, inside, behind, hsource, hspan⟩ := (span_inside h d hd).exists_parts
  have hlength := congrArg List.length hsource
  rw [List.length_append] at hlength
  have hbefore : before.length ≤ (before ++ inside).length := by
    rw [List.length_append]
    exact Nat.le_add_right _ _
  have hsome : source.toList ≠ [] := by simpa using some
  have hplace {offset : Nat} (h : offset ≤ source.toList.length) :
      ∃ p : Position, p.IsAt source.toList offset := Position.exists_isAt hsome h
  obtain ⟨start, hstart⟩ := hplace (Nat.le_trans hbefore (by omega))
  obtain ⟨stop, hstop⟩ : ∃ p : Position, p.IsAt source.toList (before ++ inside).length :=
    hplace (by omega)
  refine ⟨before, inside, behind, hsource, hspan, start, stop, hstart, hstop, ?_⟩
  have hlocation : d.location? source.toList = .some (start, stop) ↔
      Position.of? source.toList (byteLength before) = .some start ∧
        Position.of? source.toList (byteLength (before ++ inside)) = .some stop := by
    rw [Diagnostic.location?, hspan]
    simp [Option.bind_eq_some_iff]
  rw [hlocation, Position.of?_eq_some_iff, Position.of?_eq_some_iff, ← byteLength_eq_length_iff]
  constructor
  · rintro ⟨-, hreported⟩
    exact hreported.unique hstop
  · intro hbytes
    have hfront : byteLength before = before.length :=
      byteLength_eq_length_iff.mpr fun c hc =>
        byteLength_eq_length_iff.mp hbytes c (List.mem_append_left _ hc)
    rw [hfront, hbytes]
    exact ⟨hstart, hstop⟩

/-- A problem behind a comment with an accent has no place, though it has a line and a column. -/
theorem Reading.location?_eq_iff_accent : "/*é*/a" ≠ "" ∧
    ∃ r d, ofSource "/*é*/a" .empty = .ok r ∧ d ∈ r.diagnostics ∧
      d.location? "/*é*/a".toList = none ∧
      ∃ before inside behind, "/*é*/a".toList = before ++ inside ++ behind ∧
        d.span = ⟨byteLength before, byteLength (before ++ inside)⟩ ∧
        ∃ start stop : Position, start.IsAt "/*é*/a".toList before.length ∧
          stop.IsAt "/*é*/a".toList (before ++ inside).length ∧
          (d.location? "/*é*/a".toList = .some (start, stop) ↔
            ∀ c ∈ before ++ inside, c.utf8Size = 1) := by
  have hread : (ofSource "/*é*/a" .empty).toOption.map (·.diagnostics) =
      some [⟨.unknownVariable "a", ⟨6, 7⟩⟩] := by decide +kernel
  cases h : ofSource "/*é*/a" .empty with
  | error cause => simp [h, Except.toOption] at hread
  | ok r =>
    rw [h] at hread
    have hdiagnostics : r.diagnostics = [⟨.unknownVariable "a", ⟨6, 7⟩⟩] := Option.some.inj hread
    have hd : ⟨.unknownVariable "a", ⟨6, 7⟩⟩ ∈ r.diagnostics := by simp [hdiagnostics]
    exact ⟨by decide, r, _, rfl, hd, by decide +kernel, location?_eq_iff (by decide) h hd⟩

end ShaderExpr
