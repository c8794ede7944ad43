import ShaderExpr.Proofs.Grammar.Following
import ShaderExpr.Proofs.Grammar.TypeSoundness

namespace ShaderExpr

namespace Phrase

/-- A type starts with a word or a name. -/
theorem Definition.starts {s s' : Scope} {ks : Kinds} {ty : Ty} (h : Definition s ks ty s') :
    ∃ us, ks = .keyword "struct" :: us := by
  cases h with
  | anonymous => exact ⟨_, rfl⟩
  | named => exact ⟨_, rfl⟩

theorem Specifier.starts {s s' : Scope} {ks : Kinds} {ty : Ty} (h : Specifier s ks ty s') :
    ∃ k us, ks = k :: us ∧ k ≠ .control '}' ∧ k ≠ .endOfInput := by
  cases h with
  | word => exact ⟨_, _, rfl, by simp, by simp⟩
  | name => exact ⟨_, _, rfl, by simp, by simp⟩
  | definition h =>
    obtain ⟨us, rfl⟩ := h.starts
    exact ⟨_, _, rfl, by simp, by simp⟩

end Phrase

namespace Reader

/-- Struct definitions of less than `n` tokens are read, as what they mean and without a problem. -/
def ReadsDefinitions (definition : Reader (Option Ty)) (n : Nat) : Prop :=
  ∀ {s s' : Scope} {ks : Phrase.Kinds} {ty : Ty}, Phrase.Definition s ks ty s' → ks.length ≤ n →
    ∀ us, definition.Reads s ks us (some ty) s'

theorem memberNames_reads {ty : Ty} {s : Scope} {ks : Phrase.Kinds} {names : List String}
    (h : Phrase.MemberNames ks names) :
    ∀ (bound : Nat) (found : List (String × Ty)) (us : Phrase.Kinds), ks.length ≤ bound →
      names.Nodup → (∀ n ∈ names, n ∉ found.map (·.1)) → us.headD .endOfInput ≠ .control ',' →
      (memberNames ty bound found).Reads s ks us (found ++ names.map (·, ty)) s := by
  induction h with
  | one name =>
    intro bound found us hbound _ hfresh hend c hc hs
    obtain ⟨bound, rfl⟩ : ∃ b, bound = b + 1 := ⟨bound - 1, by simp at hbound; omega⟩
    have hnew : ¬found.any (·.1 = name) := by
      simpa using hfresh name (by simp)
    have hrest := Cursor.kinds_advance hc
    unfold memberNames
    refine .kind_bind ?_
    rw [Cursor.kind_of_kinds hc]
    simp only [hnew, Bool.false_eq_true, if_false]
    refine .advance_bind (.isControl_bind ?_)
    rw [if_neg]
    · exact .pure ⟨rfl, hrest, by simpa using hs⟩
    · rw [Cursor.kind_eq_headD, hrest]
      simpa using hend
  | more name rest ih =>
    rename_i ks names
    intro bound found us hbound hnodup hfresh hend c hc hs
    obtain ⟨bound, rfl⟩ : ∃ b, bound = b + 1 := ⟨bound - 1, by simp at hbound; omega⟩
    have hnew : ¬found.any (·.1 = name) := by
      simpa using hfresh name (by simp)
    have hcomma := Cursor.kinds_advance hc
    unfold memberNames
    refine .kind_bind ?_
    rw [Cursor.kind_of_kinds hc]
    simp only [hnew, Bool.false_eq_true, if_false]
    refine .advance_bind (.isControl_bind ?_)
    rw [if_pos (by simpa using Cursor.kind_of_kinds hcomma)]
    obtain ⟨hname, hnodup⟩ := List.nodup_cons.mp hnodup
    refine .advance_bind ?_
    have hread := ih bound (found ++ [(name, ty)]) us ?_ hnodup ?_ hend c.advance.advance
      (Cursor.kinds_advance hcomma) (by simpa using hs)
    · simpa using hread
    · simp only [List.length_cons] at hbound
      omega
    · intro n hn hin
      rw [List.map_append, List.mem_append] at hin
      rcases hin with hin | hin
      · exact hfresh n (List.mem_cons_of_mem _ hn) hin
      · obtain rfl : n = name := by simpa using hin
        exact hname hn

theorem typeWith_reads {definition : Reader (Option Ty)} {n : Nat}
    (hdef : ReadsDefinitions definition n) {s s' : Scope} {ks : Phrase.Kinds} {ty : Ty}
    (h : Phrase.Specifier s ks ty s') (hn : ks.length ≤ n) (us : Phrase.Kinds) :
    (typeWith definition).Reads s ks us (some ty) s' := by
  intro c hc hs
  unfold typeWith
  refine .kind_bind ?_
  cases h with
  | word known =>
    rename_i word
    have hword : word ≠ "struct" := by
      rintro rfl
      rw [Ty.ofWord?_struct] at known
      simp at known
    rw [Cursor.kind_of_kinds hc, if_neg (by simpa using hword)]
    refine .scope_bind ?_
    simp only [namedType?, known, Option.isSome_some, if_true]
    exact .advance_bind (.pure ⟨rfl, Cursor.kinds_advance hc, by simpa using hs⟩)
  | name known =>
    rw [Cursor.kind_of_kinds hc, if_neg (by simp)]
    refine .scope_bind ?_
    simp only [namedType?, hs, known, Option.isSome_some, if_true]
    exact .advance_bind (.pure ⟨rfl, Cursor.kinds_advance hc, by simpa using hs⟩)
  | definition h =>
    obtain ⟨vs, hvs⟩ := h.starts
    rw [if_pos (Cursor.kind_of_kinds (hvs ▸ hc))]
    exact hdef h hn us c hc hs

theorem members_done_reads (definition : Reader (Option Ty)) (s : Scope) (found : List (String × Ty))
    (bound : Nat) (us : Phrase.Kinds) :
    (members definition bound found).Reads s [] (.control '}' :: us) found s := by
  intro c hc hs
  cases bound with
  | zero => exact .pure ⟨rfl, hc, hs⟩
  | succ bound =>
    unfold members
    refine .isControl_bind (.kind_bind ?_)
    rw [if_pos (by simp [Cursor.kind_of_kinds hc])]
    exact .pure ⟨rfl, hc, hs⟩

/-- A member declaration in front of others that can be read. Its names are distinct and `fresh`, so
    none of them is reported as a repeated member. -/
theorem members_more_reads {definition : Reader (Option Ty)} {n : Nat}
    (hdef : ReadsDefinitions definition n) {s s' s'' : Scope} {found ms : List (String × Ty)}
    {ks ns vs : Phrase.Kinds} {ty : Ty} {names : List String}
    (type : Phrase.Specifier s ks ty s') (holds : ty.isBasic || ty.isStruct)
    (spelled : Phrase.MemberNames ns names) (distinct : names.Nodup)
    (fresh : ∀ name ∈ names, name ∉ found.map (·.1))
    (hn : (ks ++ (ns ++ .control ';' :: vs)).length ≤ n)
    (rest : ∀ (bound : Nat) (us : Phrase.Kinds), vs.length ≤ bound →
      (members definition bound (found ++ names.map (·, ty))).Reads s' vs (.control '}' :: us) ms s'')
    (bound : Nat) (us : Phrase.Kinds) (hbound : (ks ++ (ns ++ .control ';' :: vs)).length ≤ bound) :
    (members definition bound found).Reads s (ks ++ (ns ++ .control ';' :: vs))
      (.control '}' :: us) ms s'' := by
  intro c hc hs
  simp only [List.length_append, List.length_cons] at hn hbound
  obtain ⟨bound, rfl⟩ : ∃ b, bound = b + 1 := ⟨bound - 1, by omega⟩
  obtain ⟨k, ks', rfl, hbrace, hend⟩ := type.starts
  have hkind := Cursor.kind_of_kinds hc
  simp only [List.append_assoc, List.cons_append] at hc
  unfold members
  refine .isControl_bind (.kind_bind ?_)
  rw [if_neg (by simp [hkind, hbrace, hend])]
  refine (typeWith_reads hdef type (by omega) _).bind hc hs fun c₁ _ hc₁ hs₁ => ?_
  simp only [holds, Bool.not_true, Bool.false_eq_true, if_false]
  refine .remaining_bind ?_
  have hnames : ns.length ≤ c₁.kinds.length + 1 := by
    rw [hc₁, List.length_append]
    omega
  refine (memberNames_reads spelled _ found _ hnames distinct fresh (by simp)).bind hc₁ hs₁
    fun c₂ _ hc₂ hs₂ => .expectControl_bind hc₂ ?_
  exact rest bound us (by omega) _ (Cursor.kinds_advance hc₂) (by simpa using hs₂)

theorem length_rest_le {ks ns vs : Phrase.Kinds} {k : Token.Kind} {n : Nat}
    (h : (ks ++ (ns ++ k :: vs)).length ≤ n) : vs.length ≤ n := by
  simp only [List.length_append, List.length_cons] at h
  omega

/-- Member declarations in front of the closing brace. -/
theorem members_reads {definition : Reader (Option Ty)} {n : Nat}
    (hdef : ReadsDefinitions definition n) : ∀ {s s' : Scope} {found ms : List (String × Ty)}
      {ks : Phrase.Kinds}, Phrase.Members s found ks ms s' → ks.length ≤ n →
      ∀ (bound : Nat) (us : Phrase.Kinds), ks.length ≤ bound →
        (members definition bound found).Reads s ks (.control '}' :: us) ms s'
  | s, _, found, _, _, .done, _, bound, us, _ => members_done_reads definition s found bound us
  | _, _, _, _, _, .more type holds spelled distinct fresh rest, hn, bound, us, hbound =>
    members_more_reads hdef type holds spelled distinct fresh hn
      (members_reads hdef rest (length_rest_le hn)) bound us hbound

theorem defineStruct_reads {s s' : Scope} {name : String} {ty : Ty}
    (free : s.addType? name ty = some s') (span : Span) (us : Phrase.Kinds) :
    (defineStruct name span ty).Reads s [] us () s' := by
  intro c hc hs
  unfold defineStruct
  refine .scope_bind ?_
  rw [hs, free]
  exact ⟨rfl, rfl, hc, rfl⟩

theorem structDefinition_reads : ∀ depth : Nat, ReadsDefinitions (structDefinition depth) depth := by
  intro depth
  induction depth with
  | zero =>
    intro s s' ks ty h hn
    obtain ⟨vs, rfl⟩ := h.starts
    simp at hn
  | succ depth ih =>
    intro s s' ks ty h hn us c hc hs
    unfold structDefinition
    refine .advance_bind (.span_bind (.kind_bind ?_))
    have hmembers {s s' : Scope} {vs : Phrase.Kinds} {ms : List (String × Ty)}
        (body : Phrase.Members s [] vs ms s') (hvs : vs.length ≤ depth) (us : Phrase.Kinds)
        (c : Cursor) (hc : c.kinds = vs ++ .control '}' :: us) :
        (members (structDefinition depth) c.kinds.length []).Reads s vs (.control '}' :: us) ms s' := by
      refine members_reads ih body hvs _ us ?_
      rw [hc, List.length_append]
      omega
    cases h with
    | anonymous body =>
      simp only [List.length_cons, List.length_append, List.length_nil] at hn
      simp only [List.cons_append, List.append_assoc, List.nil_append] at hc
      have hopen := Cursor.kinds_advance hc
      have hinside := Cursor.kinds_advance hopen
      rw [Cursor.kind_of_kinds hopen]
      simp only [pure_bind]
      refine .isControl_bind ?_
      rw [if_pos (by simpa using Cursor.kind_of_kinds hopen)]
      refine .advance_bind (.remaining_bind ?_)
      refine (hmembers body (by omega) us _ hinside).bind hinside (by simpa using hs)
        fun c₁ _ hc₁ hs₁ => .expectControl_bind hc₁ (.pure ⟨rfl, Cursor.kinds_advance hc₁, ?_⟩)
      simpa using hs₁
    | named body free =>
      simp only [List.length_cons, List.length_append, List.length_nil] at hn
      simp only [List.cons_append, List.append_assoc, List.nil_append] at hc
      have hname := Cursor.kinds_advance hc
      have hopen := Cursor.kinds_advance hname
      have hinside := Cursor.kinds_advance hopen
      rw [Cursor.kind_of_kinds hname]
      refine .advance_bind ?_
      simp only [pure_bind]
      refine .isControl_bind ?_
      rw [if_pos (by simpa using Cursor.kind_of_kinds hopen)]
      refine .advance_bind (.remaining_bind ?_)
      refine (hmembers body (by omega) us _ hinside).bind hinside (by simpa using hs)
        fun c₁ _ hc₁ hs₁ => .expectControl_bind hc₁ ?_
      refine (defineStruct_reads free _ us).bind (Cursor.kinds_advance hc₁) (by simpa using hs₁)
        fun c₂ _ hc₂ hs₂ => .pure ⟨rfl, hc₂, hs₂⟩

theorem definition_reads {s s' : Scope} {ks : Phrase.Kinds} {ty : Ty}
    (h : Phrase.Definition s ks ty s') (us : Phrase.Kinds) :
    definition.Reads s ks us (some ty) s' := by
  intro c hc hs
  unfold definition
  refine .remaining_bind (structDefinition_reads _ h ?_ us c hc hs)
  rw [hc, List.length_append]
  omega

end Reader

end ShaderExpr
