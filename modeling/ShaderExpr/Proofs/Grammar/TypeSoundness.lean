import ShaderExpr.Proofs.Grammar.Clean

namespace ShaderExpr

theorem Ty.ofWord?_struct : Ty.ofWord? "struct" = none := by decide +kernel

namespace Reader

/-- A type name alone. -/
theorem namedType_specifies {s : Scope} {k : Token.Kind} {ty : Ty}
    (h : namedType? s k = some ty) : Phrase.Specifier s [k] ty s := by
  cases k with
  | keyword word => exact .word h
  | ident name => exact .name h
  | _ => simp [namedType?] at h

/-- Names of new members, all of one type, behind those found before. -/
def NewMembers (ty : Ty) (found all : List (String × Ty)) (s : Scope) (ks : Phrase.Kinds)
    (s' : Scope) : Prop :=
  ∃ names, Phrase.MemberNames ks names ∧ names.Nodup ∧ (∀ n ∈ names, n ∉ found.map (·.1)) ∧
    all = found ++ names.map (·, ty) ∧ s' = s

theorem NewMembers.one {ty : Ty} {found : List (String × Ty)} {name : String} {s : Scope}
    (h : name ∉ found.map (·.1)) :
    NewMembers ty found (found ++ [(name, ty)]) s [.ident name] s :=
  ⟨[name], .one name, by simp, by simpa using h, rfl, rfl⟩

theorem NewMembers.more {ty : Ty} {found all : List (String × Ty)} {name : String} {s s' : Scope}
    {ks : Phrase.Kinds} (h : name ∉ found.map (·.1))
    (rest : NewMembers ty (found ++ [(name, ty)]) all s ks s') :
    NewMembers ty found all s (.ident name :: .control ',' :: ks) s' := by
  obtain ⟨names, hnames, hnodup, hfresh, hall, hs⟩ := rest
  refine ⟨name :: names, .more name hnames, ?_, ?_, by simp [hall], hs⟩
  · refine List.nodup_cons.mpr ⟨fun hin => ?_, hnodup⟩
    exact hfresh name hin (by simp)
  · intro n hn
    rcases List.mem_cons.mp hn with rfl | hn
    · exact h
    · intro hin
      refine hfresh n hn ?_
      rw [List.map_append]
      exact List.mem_append_left _ hin

/-- Names of members are read up to the last one behind a comma. The bound is no limit when it
    exceeds the number of tokens. -/
theorem memberNames_accepts (ty : Ty) :
    ∀ (bound : Nat) (found : List (String × Ty)) (c : Cursor),
      (memberNames ty bound found).Yields c fun all c' =>
        c.rest.length < bound → c.Spells c' (NewMembers ty found all) := by
  intro bound
  induction bound with
  | zero => exact fun found c => .pure fun h => absurd h (Nat.not_lt_zero _)
  | succ bound ih =>
    intro found c
    unfold memberNames
    refine .kind_bind ?_
    cases hk : c.kind with
    | ident name =>
      have hname := Cursor.spells_token hk (by simp)
      by_cases hmem : found.any (·.1 = name)
      · simp only [hmem, if_true]
        refine yields_report_bind fun c' => .advance_bind (.isControl_bind ?_)
        split
        · exact .advance_bind ((ih found _).mono fun _ _ _ => trivial)
        · exact .pure trivial
      · have hnew : name ∉ found.map (·.1) := by
          intro hin
          obtain ⟨m, hm, rfl⟩ := List.mem_map.mp hin
          exact hmem (List.any_eq_true.mpr ⟨m, hm, by simp⟩)
        simp only [hmem, Bool.false_eq_true, if_false]
        refine .advance_bind (.isControl_bind ?_)
        by_cases hcomma : c.advance.kind = .control ','
        · rw [if_pos (by simpa using hcomma)]
          refine .advance_bind ((ih _ _).mono fun all c' hall hbound => ?_)
          obtain ⟨t, hrest, -⟩ := Cursor.rest_of_kind hk (by simp)
          obtain ⟨u, hrest', -⟩ := Cursor.rest_of_kind hcomma (by simp)
          rw [hrest, hrest', List.length_cons, List.length_cons] at hbound
          refine hname.trans ((Cursor.spells_token hcomma (by simp)).trans (hall (by omega))
            (T := fun s ks s' => ∃ us, ks = .control ',' :: us ∧
              NewMembers ty (found ++ [(name, ty)]) all s us s') ?_) ?_
          · rintro ks us ⟨rfl, hs⟩ h
            exact ⟨us, rfl, hs ▸ h⟩
          · rintro ks us ⟨rfl, hs⟩ ⟨vs, rfl, h⟩
            exact .more hnew (hs ▸ h)
        · rw [if_neg (by simpa using hcomma)]
          refine .pure fun _ => hname.mono ?_
          rintro ks ⟨rfl, hs⟩
          rw [hs]
          exact .one hnew
    | _ => exact yields_report_bind fun c' => .pure trivial

/-- What a reader of struct definitions takes without a problem, standing at their keyword: a
    definition of the grammar. -/
def AcceptsDefinitions (definition : Reader (Option Ty)) : Prop :=
  ∀ c : Cursor, c.kind = .keyword "struct" → definition.Yields c fun ty? c' =>
    ∀ ty, ty? = some ty → c.Spells c' fun s ks s' => Phrase.Definition s ks ty s'

theorem typeWith_accepts {definition : Reader (Option Ty)} (hdef : AcceptsDefinitions definition)
    (c : Cursor) : (typeWith definition).Yields c fun ty? c' =>
      ∀ ty, ty? = some ty → c.Spells c' fun s ks s' => Phrase.Specifier s ks ty s' := by
  unfold typeWith
  refine .kind_bind ?_
  split
  · rename_i hk
    refine (hdef c hk).mono fun ty? c' h ty hty => ?_
    exact (h ty hty).mono fun ks => .definition
  · refine .scope_bind ?_
    cases hty : namedType? c.scope c.kind with
    | none => exact .pure fun ty h => by simp at h
    | some ty =>
      have hend : c.kind ≠ .endOfInput := by
        intro hend
        rw [hend] at hty
        simp [namedType?] at hty
      refine .advance_bind (.pure fun ty' h => ?_)
      obtain rfl : ty = ty' := by simpa using h
      refine (Cursor.spells_token rfl hend).mono ?_
      rintro ks ⟨rfl, hs⟩
      rw [hs]
      exact namedType_specifies hty

/-- Member declarations are read as long as there are some. -/
theorem members_accepts {definition : Reader (Option Ty)} (hdef : AcceptsDefinitions definition) :
    ∀ (bound : Nat) (found : List (String × Ty)) (c : Cursor),
      (members definition bound found).Yields c fun all c' =>
        c.Spells c' fun s ks s' => Phrase.Members s found ks all s' := by
  intro bound
  induction bound with
  | zero => exact fun found c => .pure (.refl .done)
  | succ bound ih =>
    intro found c
    unfold members
    refine .isControl_bind (.kind_bind ?_)
    split
    · exact .pure (.refl .done)
    · refine (typeWith_accepts hdef c).bind fun ty? c' => ?_
      cases ty? with
      | none =>
        refine yields_report_bind fun c'' => .skipPast_bind ?_
        exact (ih found _).mono fun _ _ _ => trivial
      | some ty =>
        by_cases hty : ty.isBasic || ty.isStruct
        · simp only [hty, Bool.not_true, Bool.false_eq_true, if_false]
          refine .remaining_bind ((memberNames_accepts ty _ found c').bind fun all c'' => ?_)
          refine (expectControl_accepts ';' _ c'').bind fun _ c''' => ?_
          refine (ih all c''').mono fun members c'''' hmore hend hnames htype => ?_
          refine (htype ty rfl).trans ((hnames (by omega)).trans (hend.trans hmore
            (T := fun s ks s' => ∃ us, ks = .control ';' :: us ∧
              Phrase.Members s all us members s') ?_)
            (T := fun s ks s' => ∃ ns us, ks = ns ++ .control ';' :: us ∧
              NewMembers ty found all s ns s ∧ Phrase.Members s all us members s') ?_) ?_
          · rintro ks us ⟨rfl, hs⟩ h
            exact ⟨us, rfl, hs ▸ h⟩
          · rintro ns ks ⟨names, hn, hnodup, hfresh, hall, hs⟩ ⟨us, rfl, h⟩
            exact ⟨ns, us, rfl, ⟨names, hn, hnodup, hfresh, hall, rfl⟩, hs ▸ h⟩
          · rintro ks vs hs ⟨ns, us, rfl, ⟨names, hn, hnodup, hfresh, rfl, -⟩, h⟩
            exact .more hs hty hn hnodup hfresh h
        · simp only [hty, Bool.not_false, if_true]
          refine yields_report_bind fun c'' => .remaining_bind ?_
          refine (memberNames_accepts ty _ found c'').bind fun all c3 => ?_
          refine (expectControl_accepts ';' _ c3).bind fun _ c4 => ?_
          exact (ih all c4).mono fun _ _ _ _ _ => trivial

theorem defineStruct_accepts (name : String) (span : Span) (ty : Ty) (c : Cursor) :
    (defineStruct name span ty).Yields c fun _ c' =>
      c'.rest = c.rest ∧ c.scope.addType? name ty = some c'.scope := by
  unfold defineStruct
  refine .scope_bind ?_
  cases h : c.scope.addType? name ty with
  | none => exact .reportAt
  | some s => exact .of_diagnostics_eq rfl ⟨rfl, rfl⟩

/-- Member declarations between braces, and what follows them. What is done with the members is left
    open, since only a named struct is defined in the scope. -/
theorem braces_yield {β : Type} {definition : Reader (Option Ty)}
    (hdef : AcceptsDefinitions definition) {c : Cursor} (hopen : c.kind = .control '{')
    {p : Problem} {f : List (String × Ty) → Reader β} {R : β → Cursor → Prop}
    (hf : ∀ found c', (f found).Yields c' fun b c'' =>
      (c.Spells c' fun s ks s' =>
        ∃ us, ks = .control '{' :: (us ++ [.control '}']) ∧ Phrase.Members s [] us found s') →
      R b c'') :
    (do
      advance
      let found ← members definition (← remaining) []
      expectControl '}' p
      f found : Reader β).Yields c R := by
  refine .advance_bind (.remaining_bind ?_)
  refine (members_accepts hdef _ [] c.advance).bind fun found c₁ => ?_
  refine (expectControl_accepts '}' p c₁).bind fun _ c₂ => ?_
  refine (hf found c₂).mono fun b c₃ hR hclose hmembers => hR ?_
  refine (Cursor.spells_token hopen (by simp)).trans (hmembers.trans hclose
    (T := fun s ks s' => ∃ us, ks = us ++ [.control '}'] ∧ Phrase.Members s [] us found s') ?_) ?_
  · rintro us ks h ⟨rfl, hs⟩
    exact ⟨us, rfl, hs ▸ h⟩
  · rintro ks vs ⟨rfl, hs⟩ ⟨us, rfl, h⟩
    exact ⟨us, rfl, hs ▸ h⟩

/-- A struct definition is read from its keyword on, and is missing only where its nesting was
    bounded by nothing at all. -/
theorem structDefinition_accepts :
    ∀ (depth : Nat) (c : Cursor), c.kind = .keyword "struct" →
      (structDefinition depth).Yields c fun ty? c' =>
        (ty? = none → depth = 0) ∧
        ∀ ty, ty? = some ty → c.Spells c' fun s ks s' => Phrase.Definition s ks ty s' := by
  intro depth
  induction depth with
  | zero => exact fun c _ => .pure ⟨fun _ => rfl, fun ty h => by simp at h⟩
  | succ depth ih =>
    intro c hc
    have hdef : AcceptsDefinitions (structDefinition depth) :=
      fun c hc => (ih c hc).mono fun _ _ h => h.2
    obtain ⟨t, ht, htk⟩ := Cursor.rest_of_kind hc (by simp)
    unfold structDefinition
    refine .advance_bind (.span_bind (.kind_bind ?_))
    split
    · rename_i name hname
      obtain ⟨u, hu, huk⟩ := Cursor.rest_of_kind hname (by simp)
      refine .advance_bind ?_
      simp only [pure_bind]
      refine .isControl_bind ?_
      by_cases hopen : c.advance.advance.kind = .control '{'
      · rw [if_pos (by simpa using hopen)]
        refine braces_yield hdef hopen fun found c₁ => ?_
        refine (defineStruct_accepts name _ _ c₁).bind fun _ c₂ => ?_
        refine .pure fun ⟨hrest, hfree⟩ ⟨ts, hts, ks, hks, hbody⟩ => ⟨by simp, fun ty hty => ?_⟩
        obtain rfl : Ty.struct (some name) found = ty := by simpa using hty
        refine ⟨t :: u :: ts, by rw [ht, hu, hts, hrest]; rfl, ?_⟩
        rw [List.map_cons, List.map_cons, htk, huk, hks]
        simp only [Cursor.advance_scope] at hbody
        exact .named hbody hfree
      · rw [if_neg (by simpa using hopen)]
        exact yields_report_bind fun c' => .pure trivial
    · simp only [pure_bind]
      refine .isControl_bind ?_
      by_cases hopen : c.advance.kind = .control '{'
      · rw [if_pos (by simpa using hopen)]
        refine braces_yield hdef hopen fun found c₁ => ?_
        refine .pure fun ⟨ts, hts, ks, hks, hbody⟩ => ⟨by simp, fun ty hty => ?_⟩
        obtain rfl : Ty.struct none found = ty := by simpa using hty
        refine ⟨t :: ts, by rw [ht, hts]; rfl, ?_⟩
        rw [List.map_cons, htk, hks]
        simp only [Cursor.advance_scope] at hbody
        exact .anonymous hbody
      · rw [if_neg (by simpa using hopen)]
        exact yields_report_bind fun c' => .pure trivial

theorem definition_accepts (c : Cursor) (hc : c.kind = .keyword "struct") :
    definition.Yields c fun ty? c' =>
      ∃ ty, ty? = some ty ∧ c.Spells c' fun s ks s' => Phrase.Definition s ks ty s' := by
  unfold definition
  refine .remaining_bind ((structDefinition_accepts _ c hc).mono fun ty? c' h => ?_)
  obtain ⟨t, ht, -⟩ := Cursor.rest_of_kind hc (by simp)
  cases ty? with
  | none =>
    have hzero := h.1 rfl
    rw [ht] at hzero
    simp at hzero
  | some ty => exact ⟨ty, rfl, h.2 ty rfl⟩

theorem type_accepts (c : Cursor) : type.Yields c fun ty? c' =>
    ∀ ty, ty? = some ty → c.Spells c' fun s ks s' => Phrase.Specifier s ks ty s' := by
  refine typeWith_accepts (fun c hc => (definition_accepts c hc).mono ?_) c
  rintro ty? c' ⟨ty, rfl, h⟩ ty' hty
  obtain rfl : ty = ty' := by simpa using hty
  exact h

end Reader

end ShaderExpr
