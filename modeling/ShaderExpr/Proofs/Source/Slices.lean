import ShaderExpr.Proofs.Source.Locations

namespace ShaderExpr

/-- A span of a source whose text can be cut out of it. -/
structure Span.Slices (source : String) (s : Span) : Prop where
  ordered : s.start ≤ s.stop
  inside : s.stop ≤ source.utf8ByteSize
  start : String.Pos.Raw.IsValid source ⟨s.start⟩
  stop : String.Pos.Raw.IsValid source ⟨s.stop⟩

/-- Behind whole characters a source can be divided. -/
theorem isValid_of_split {source : String} {before behind : List Char}
    (h : source.toList = before ++ behind) :
    String.Pos.Raw.IsValid source ⟨byteLength before⟩ := by
  refine String.Pos.Raw.isValid_iff_exists_append.mpr
    ⟨String.ofList before, String.ofList behind, ?_, ?_⟩
  · rw [← String.ofList_append, ← h, String.ofList_toList]
  · rw [← String.toList_ofList (l := before), ← utf8ByteSize_eq, String.toList_ofList]
    rfl

theorem Span.Inside.slices {source : String} {s : Span} (h : s.Inside source.toList) :
    s.Slices source := by
  obtain ⟨before, inside, behind, hsource, rfl⟩ := h.exists_parts
  refine ⟨h.ordered, ?_, isValid_of_split (hsource.trans (List.append_assoc _ _ _)),
    isValid_of_split hsource⟩
  rw [utf8ByteSize_eq, hsource, byteLength_append _ behind]
  exact Nat.le_add_right _ _

/-- Every problem that lexing or reading of a source reports has a text that can be cut out of the
    source, in whatever scope it is read: whatever is skipped behind an error and however spans are
    merged, a span is in order, ends within the source, and divides no character. -/
theorem Reading.span_slices (source : String) :
    (∀ d ∈ (lex source).2, d.span.Slices source) ∧
      ∀ (scope : Scope) (r : Reading), ofSource source scope = .ok r →
        ∀ d ∈ r.diagnostics, d.span.Slices source :=
  ⟨fun d hd => ((lex_inside rfl).2 d hd).slices,
    fun _ _ hread d hd => (span_inside hread d hd).slices⟩

/-- A character that is no token, a call without its end, and a constructor that lacks components
    from its parenthesis up to there. -/
theorem Reading.span_slices_unclosed : ∃ r, ofSource "vec3(1, é2" .empty = .ok r ∧
    r.diagnostics.map (·.span) = [⟨8, 10⟩, ⟨11, 11⟩, ⟨4, 11⟩] ∧
    ∀ d ∈ r.diagnostics, d.span.Slices "vec3(1, é2" := by
  have hread : (ofSource "vec3(1, é2" .empty).toOption.map (·.diagnostics.map (·.span)) =
      some [⟨8, 10⟩, ⟨11, 11⟩, ⟨4, 11⟩] := by decide +kernel
  obtain ⟨r, hr, hspans⟩ := Option.map_eq_some_iff.mp hread
  have hr := Except.toOption_eq_some.mp hr
  exact ⟨r, hr, hspans, (span_slices _).2 _ r hr⟩

end ShaderExpr
