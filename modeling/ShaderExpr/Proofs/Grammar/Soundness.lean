import ShaderExpr.Proofs.Grammar.Arguments
import ShaderExpr.Proofs.Grammar.TypeSoundness

namespace ShaderExpr.Reader

/-- A reader takes assignments. Each level of the grammar is shown to take the phrases of its rule,
    given that the nested reader takes these. -/
abbrev AcceptsAssignments (nested : Reader Expr) : Prop :=
  nested.Accepts fun e s ks s' => Phrase.Assignment s ks e s'

namespace Decides

variable {α β : Type} {r : Reader α} {P : α → Prop} {f : α → Reader β} {c : Cursor}
  {R : β → Cursor → Prop}

/-- Behind a check the state is the one before it, as far as there is no problem. -/
theorem yields_bind (h : r.Decides P) (hf : ∀ a c', (f a).Yields c' fun b c'' =>
    c' = c → P a → R b c'') : (r >>= f).Yields c R :=
  (h c).1.bind fun a c' => (hf a c').mono fun _ _ hR ha => hR ha.1 ha.2

end Decides

variable {nested : Reader Expr}

/-- A field behind a point. -/
theorem field_accepts (base : Expr) :
    (field base).Accepts fun e s ks s' =>
      ∃ name, ks = [.ident name] ∧ s' = s ∧ Phrase.Field base name e := by
  intro c
  unfold field
  refine .kind_bind ?_
  split
  · rename_i name hname
    refine .span_bind (.advance_bind ?_)
    have hfield : (fieldOf base name c.span).Yields c.advance fun e c' =>
        c.Spells c' fun s ks s' => ∃ name, ks = [.ident name] ∧ s' = s ∧
          Phrase.Field base name e := by
      refine ((fieldOf_decides base name c.span c.advance).1).mono ?_
      rintro e c' ⟨rfl, he⟩
      refine (Cursor.spells_token hname (by simp)).mono ?_
      rintro ks ⟨rfl, hs⟩
      exact ⟨name, rfl, hs, he⟩
    by_cases hlength : name = "length"
    · simp only [hlength, decide_true] at hfield ⊢
      refine .isControl_bind ?_
      by_cases hcall : c.advance.kind = .control '('
      · simp only [hcall, decide_true, Bool.and_self, if_true]
        exact yields_reportAt_bind fun c' => .skipPast_bind (.pure trivial)
      · simpa only [hcall, decide_false, Bool.and_false, Bool.false_eq_true, if_false] using hfield
    · refine .isControl_bind ?_
      simpa only [hlength, decide_false, Bool.false_and, Bool.false_eq_true, if_false] using hfield
  · exact yields_report_bind fun c' => .pure trivial

/-- Arguments of a constructor are read up to the last one behind a comma. The bound is no limit
    when it exceeds the number of tokens. -/
theorem componentArguments_accepts (hn : AcceptsAssignments nested) (ty : Ty) :
    ∀ (bound : Nat) (missing : Int) (arguments : List Expr) (c : Cursor),
      (componentArguments nested ty bound missing arguments).Yields c fun result c' =>
        c.rest.length < bound → ty.Filling (arguments.map Expr.ty) missing →
        ∃ es, result.2 = arguments ++ es ∧ ty.Filling (result.2.map Expr.ty) result.1 ∧
          c.Spells c' fun s ks s' => Phrase.ArgumentList s ks es s' := by
  intro bound
  induction bound with
  | zero => exact fun missing arguments c => .pure fun h => absurd h (Nat.not_lt_zero _)
  | succ bound ih =>
    intro missing arguments c
    unfold componentArguments
    refine .span_bind ((hn c).bind fun argument c₁ => ?_)
    refine (takeComponents_decides ty _ argument missing arguments).yields_bind ?_
    rintro ⟨missing', arguments'⟩ c₂
    refine .isControl_bind ?_
    by_cases hcomma : c₂.kind = .control ','
    · simp only [hcomma, decide_true, if_true]
      refine .advance_bind ((ih missing' arguments' c₂.advance).mono fun result c₃ hmore => ?_)
      rintro rfl ⟨htakes, rfl⟩ hargument hbound hfilling
      obtain ⟨t, ht, -⟩ := Cursor.rest_of_kind hcomma (by simp)
      have hlength : c₂.rest.length ≤ c.rest.length := by
        obtain ⟨ts, hts, -⟩ := hargument
        rw [hts, List.length_append]
        omega
      rw [ht, List.length_cons] at hlength
      have hfilling' : ty.Filling ((arguments ++ [argument]).map Expr.ty) missing' := by
        rw [List.map_append]
        exact (Ty.filling_append_singleton hfilling).mpr htakes
      obtain ⟨es, hes, hall, hspells⟩ := hmore (by omega) hfilling'
      refine ⟨argument :: es, by simp [hes], hall, ?_⟩
      refine hargument.trans ((Cursor.spells_token hcomma (by simp)).trans hspells
        (T := fun s ks s' => ∃ us, ks = .control ',' :: us ∧
          Phrase.ArgumentList s us es s') ?_) ?_
      · rintro ks us ⟨rfl, hs⟩ h
        exact ⟨us, rfl, hs ▸ h⟩
      · rintro ks vs h ⟨us, rfl, h'⟩
        exact .more h h'
    · simp only [hcomma, decide_false, Bool.false_eq_true, if_false]
      refine .pure ?_
      rintro rfl ⟨htakes, rfl⟩ hargument hbound hfilling
      refine ⟨[argument], rfl, ?_, hargument.mono fun ks => .one⟩
      rw [List.map_append]
      exact (Ty.filling_append_singleton hfilling).mpr htakes

/-- What stands between parentheses, and the parentheses around it. -/
theorem Spells.enclosed {c c₁ c₂ : Cursor} {R : Scope → Phrase.Kinds → Scope → Prop}
    (hopen : c.kind = .control '(') (inside : c.advance.Spells c₁ R)
    (hclose : c₁.Spells c₂ fun s ks s' => ks = [.control ')'] ∧ s' = s) :
    c.Spells c₂ fun s ks s' => ∃ us, ks = Phrase.enclosed us ∧ R s us s' := by
  refine (Cursor.spells_token hopen (by simp)).trans (inside.trans hclose
    (T := fun s ks s' => ∃ us, ks = us ++ [.control ')'] ∧ R s us s') ?_) ?_
  · rintro us ks h ⟨rfl, hs⟩
    exact ⟨us, rfl, hs ▸ h⟩
  · rintro ks vs ⟨rfl, hs⟩ ⟨us, rfl, h⟩
    exact ⟨us, rfl, hs ▸ h⟩

/-- A reading without problems leaves as many as there were. -/
theorem Yields.quiet {α : Type} {r : Reader α} {c : Cursor} {Q : α → Cursor → Prop}
    (h : r.Yields c Q) :
    r.Yields c fun a c' => Q a c' ∧ c'.diagnostics.length = c.diagnostics.length :=
  ⟨h.1, fun hclean => ⟨h.2 hclean, hclean⟩⟩

/-- Arguments between parentheses, which may be none. -/
theorem yields_listed {α β : Type} {none : Bool} {a : α} {some : Nat → Reader α} {f : α → Reader β}
    {c : Cursor} {P : α → Cursor → Prop} {R : β → Cursor → Prop}
    (hnone : none = true → P a c) (hsome : none = false → (some c.rest.length).Yields c P)
    (hf : ∀ a c', (f a).Yields c' fun b c'' => P a c' → R b c'') :
    (if none = true then pure a >>= f else remaining >>= fun n => some n >>= f).Yields c R := by
  cases none with
  | true => exact Yields.bind (.pure (hnone rfl)) hf
  | false => exact Yields.remaining_bind (Yields.bind (hsome rfl) hf)

theorem construction_accepts (hn : AcceptsAssignments nested) (ty : Ty) :
    (construction nested ty).Accepts fun e s ks s' => ∃ us es, ks = Phrase.enclosed us ∧
      Phrase.Arguments s us es s' ∧ ty.FilledBy (es.map Expr.ty) ∧ e = .construct ty es := by
  intro c
  unfold construction
  refine .isControl_bind ?_
  by_cases hopen : c.kind = .control '('
  · simp only [hopen, decide_true, if_true]
    refine .span_bind (.advance_bind (.problemCount_bind (.isControl_bind ?_)))
    refine yields_listed (P := fun result c₁ => ty.Filling (result.2.map Expr.ty) result.1 ∧
      (c.advance.Spells c₁ fun s ks s' => Phrase.Arguments s ks result.2 s') ∧
      c₁.diagnostics.length = c.diagnostics.length) ?_ ?_ ?_
    · exact fun _ => ⟨ty.filling_nil, .refl .none, by simp⟩
    · intro _
      refine (componentArguments_accepts hn ty _ _ [] c.advance).quiet.mono fun result c₁ h => ?_
      obtain ⟨hall, hclean⟩ := h
      obtain ⟨es, hes, hfilling, hspells⟩ := hall (by omega) ty.filling_nil
      obtain rfl : result.2 = es := by simpa using hes
      exact ⟨hfilling, hspells.mono fun ks => .some, by simpa using hclean⟩
    · rintro ⟨missing, arguments⟩ c₁
      refine (expectControl_accepts ')' _ c₁).quiet.bind fun _ c₂ => ?_
      refine .ite (fun _ => ?_) fun hmissing => ?_
      · refine .get_bind (yields_reportAt_bind fun c₃ => .problemCount_bind ?_)
        split <;> exact .pure trivial
      · rw [Bool.and_eq_false_iff, decide_eq_false_iff_not, Bool.not_eq_false'] at hmissing
        refine .problemCount_bind ?_
        split
        · rename_i hproblem
          refine .pure fun ⟨_, hclean⟩ ⟨_, _, hclean'⟩ => ?_
          rw [Cursor.advance_diagnostics] at hproblem
          omega
        · refine .pure fun ⟨hclose, _⟩ ⟨hfilling, hinside, _⟩ => ?_
          refine (Spells.enclosed hopen hinside hclose).mono ?_
          rintro ks ⟨us, rfl, hinside⟩
          refine ⟨us, arguments, rfl, hinside, Ty.filledBy_iff.mpr ⟨missing, hfilling, ?_⟩, rfl⟩
          exact fun hlt => singleScalar_iff.mp (hmissing.resolve_left (not_not_intro hlt))
  · simp only [hopen, decide_false, Bool.false_eq_true, if_false]
    exact yields_report_bind fun c' => .pure trivial

/-- Arguments of a call narrow the candidates down, whether or not the last one is excluded. The
    bound on rounds only has to exceed the number of tokens left. -/
theorem callArguments_accepts (hn : AcceptsAssignments nested) :
    ∀ (bound : Nat) (candidates : Candidates) (arguments : List Expr) (c : Cursor),
      (callArguments nested bound candidates arguments).Yields c fun result c' =>
        c.rest.length < bound → ∃ es, result.2 = arguments ++ es ∧
          result.1 = candidates.narrow arguments.length (es.map Expr.ty) ∧
          c.Spells c' fun s ks s' => Phrase.ArgumentList s ks es s' := by
  intro bound
  induction bound with
  | zero => exact fun candidates arguments c => .pure fun h => absurd h (Nat.not_lt_zero _)
  | succ bound ih =>
    intro candidates arguments c
    unfold callArguments
    refine .span_bind ((hn c).bind fun argument c₁ => ?_)
    refine .ite (fun _ => ?_) fun _ => ?_
    · refine yields_reportAt_bind fun c₂ => .isControl_bind (.ite (fun _ => ?_) fun _ => ?_)
      · exact .advance_bind ((ih _ _ _).mono fun _ _ _ => trivial)
      · exact .pure trivial
    · refine .isControl_bind (.ite (fun hcomma => ?_) fun _ => ?_)
      · have hcomma := of_decide_eq_true hcomma
        refine .advance_bind ((ih _ _ c₁.advance).mono ?_)
        rintro result c₂ hmore hargument hbound
        obtain ⟨t, ht, -⟩ := Cursor.rest_of_kind hcomma (by simp)
        have hlength : c₁.rest.length ≤ c.rest.length := by
          obtain ⟨ts, hts, -⟩ := hargument
          rw [hts, List.length_append]
          omega
        rw [ht, List.length_cons] at hlength
        obtain ⟨es, hes, hcandidates, hspells⟩ := hmore (by omega)
        refine ⟨argument :: es, by simp [hes], ?_, ?_⟩
        · rw [hcandidates, List.length_append]
          rfl
        refine hargument.trans ((Cursor.spells_token hcomma (by simp)).trans hspells
          (T := fun s ks s' => ∃ us, ks = .control ',' :: us ∧
            Phrase.ArgumentList s us es s') ?_) ?_
        · rintro ks us ⟨rfl, hs⟩ h
          exact ⟨us, rfl, hs ▸ h⟩
        · rintro ks vs h ⟨us, rfl, h'⟩
          exact .more h h'
      · exact .pure fun hargument _ =>
          ⟨[argument], rfl, rfl, hargument.mono fun ks => .one⟩

theorem call_accepts (hn : AcceptsAssignments nested) (candidates : Candidates) (span : Span) :
    (call nested candidates span).Accepts fun e s ks s' => ∃ us es f,
      ks = Phrase.enclosed us ∧ Phrase.Arguments s us es s' ∧
      ((candidates.narrow 0 (es.map Expr.ty)).takeCount es.length).choice? = some f ∧
      e = .call f es := by
  intro c
  unfold call
  refine .isControl_bind (.ite (fun hopen => ?_) fun _ => ?_)
  · have hopen := of_decide_eq_true hopen
    refine .advance_bind (.problemCount_bind (.isControl_bind ?_))
    refine yields_listed (P := fun result c₁ =>
      result.1 = candidates.narrow 0 (result.2.map Expr.ty) ∧
      (c.advance.Spells c₁ fun s ks s' => Phrase.Arguments s ks result.2 s') ∧
      c₁.diagnostics.length = c.diagnostics.length) ?_ ?_ ?_
    · exact fun _ => ⟨rfl, .refl .none, by simp⟩
    · intro _
      refine (callArguments_accepts hn _ candidates [] c.advance).quiet.mono fun result c₁ h => ?_
      obtain ⟨hall, hclean⟩ := h
      obtain ⟨es, hes, hcandidates, hspells⟩ := hall (by omega)
      obtain rfl : result.2 = es := by simpa using hes
      exact ⟨hcandidates, hspells.mono fun ks => .some, by simpa using hclean⟩
    · rintro ⟨narrowed, arguments⟩ c₁
      refine (expectControl_accepts ')' _ c₁).quiet.bind fun _ c₂ => .problemCount_bind ?_
      split
      · rename_i hproblem
        refine .pure fun ⟨_, hclean⟩ ⟨_, _, hclean'⟩ => ?_
        rw [Cursor.advance_diagnostics] at hproblem
        omega
      · refine .ite (fun _ => yields_reportAt_bind fun c₃ => .pure trivial) fun _ => ?_
        cases hchoice : (narrowed.takeCount arguments.length).choice? with
        | none => exact yields_reportAt_bind fun c₃ => .pure trivial
        | some f =>
          refine .pure fun ⟨hclose, _⟩ ⟨hnarrowed, hinside, _⟩ => ?_
          refine (Spells.enclosed hopen hinside hclose).mono ?_
          rintro ks ⟨us, rfl, hinside⟩
          exact ⟨us, arguments, f, rfl, hinside, hnarrowed ▸ hchoice, rfl⟩
  · exact yields_report_bind fun c' => .pure trivial

/-- Call of a constructor, whose type was read before it. -/
theorem constructorCall_accepts (hn : AcceptsAssignments nested) (ty : Ty) (span : Span)
    (c c' : Cursor) :
    (constructorCall nested ty span).Yields c' fun e c'' =>
      (c.Spells c' fun s ks s' => Phrase.Constructor s ks ty s') →
      c.Spells c'' fun s ks s' => Phrase.Primary s ks e s' := by
  unfold constructorCall
  by_cases hstruct : ty.isStruct
  · rw [if_pos hstruct]
    refine (call_accepts hn _ span c').mono fun e c'' hcall htype => ?_
    refine htype.trans hcall ?_
    rintro ks vs htype ⟨us, es, f, rfl, hinside, hchoice, rfl⟩
    refine .make htype hstruct hinside ?_
    rw [Candidates.resolve?_eq, List.length_map]
    exact hchoice
  · rw [if_neg hstruct]
    refine (construction_accepts hn ty c').mono fun e c'' hcall htype => ?_
    refine htype.trans hcall ?_
    rintro ks vs htype ⟨us, es, rfl, hinside, hfilled, rfl⟩
    exact .construct htype (by simpa using hstruct) hinside hfilled

theorem named_accepts (hn : AcceptsAssignments nested) (name : String) (span : Span) {c : Cursor}
    (hname : c.kind = .ident name) :
    (named nested name span).Yields c.advance fun e c' =>
      c.Spells c' fun s ks s' => Phrase.Primary s ks e s' := by
  unfold named
  refine .scope_bind ?_
  rw [Cursor.advance_scope]
  have hident := Cursor.spells_token hname (by simp)
  cases htype : c.scope.typeNamed name with
  | some ty =>
    refine (constructorCall_accepts hn ty span c _).mono fun e c' hcall => hcall ?_
    obtain ⟨ts, hts, hks, hs⟩ := hident
    exact ⟨ts, hts, by rw [hks, hs]; exact .name htype⟩
  | none =>
    refine .ite (fun hfunction => ?_) fun hfunction => ?_
    · refine (call_accepts hn _ span _).mono fun e c' hcall => ?_
      refine (hident.mono (S := fun s ks s' => ks = [.ident name] ∧ s' = s ∧ s = c.scope)
        fun ks h => ⟨h.1, h.2, rfl⟩).trans hcall ?_
      rintro ks vs ⟨rfl, hs, -⟩ ⟨us, es, f, rfl, hinside, hchoice, rfl⟩
      rw [hs] at hinside
      refine .call htype hfunction hinside ?_
      rw [Candidates.resolve?_eq, List.length_map]
      exact hchoice
    · cases hfound : c.scope.variableNamed name with
      | some x =>
        refine .pure (hident.mono ?_)
        rintro ks ⟨rfl, hs⟩
        rw [hs]
        exact .reference htype hfunction hfound
      | none =>
        refine .isControl_bind (.ite (fun _ => ?_) fun _ => ?_)
        · exact yields_reportAt_bind fun c' => .skipPast_bind (.pure trivial)
        · exact yields_reportAt_bind fun c' => .pure trivial

theorem primary_accepts (hn : AcceptsAssignments nested) :
    (primary nested).Accepts fun e s ks s' => Phrase.Primary s ks e s' := by
  intro c
  unfold primary
  refine .span_bind (.kind_bind ?_)
  split
  · rename_i name hname
    exact .advance_bind (named_accepts hn name _ hname)
  · rename_i value hvalue
    refine .advance_bind (.pure ((Cursor.spells_token hvalue (by simp)).mono ?_))
    rintro ks ⟨rfl, hs⟩
    rw [hs]
    exact .literal value
  · rename_i hopen
    refine .advance_bind ((hn c.advance).bind fun e c₁ => ?_)
    refine (expectControl_accepts ')' _ c₁).bind fun _ c₂ => .pure fun hclose hinside => ?_
    refine (Spells.enclosed hopen hinside hclose).mono ?_
    rintro ks ⟨us, rfl, hinside⟩
    exact .parentheses hinside
  · rename_i word hword
    by_cases hstruct : word = "struct"
    · rw [if_pos hstruct]
      refine (definition_accepts c (hstruct ▸ hword)).bind fun ty? c₁ => ?_
      cases ty? with
      | none => exact .pure fun ⟨ty, h, _⟩ => by simp at h
      | some ty =>
        refine (constructorCall_accepts hn ty _ c c₁).mono fun e c₂ hcall htype => hcall ?_
        obtain ⟨ty', hty, hdefinition⟩ := htype
        obtain rfl : ty = ty' := by simpa using hty
        exact hdefinition.mono fun ks => .definition
    · rw [if_neg hstruct]
      split
      · rename_i ty hty
        rw [Option.filter_eq_some_iff] at hty
        refine .advance_bind ((constructorCall_accepts hn ty _ c _).mono fun e c' hcall => hcall ?_)
        refine (Cursor.spells_token hword (by simp)).mono ?_
        rintro ks ⟨rfl, hs⟩
        rw [hs]
        exact .word hty.1 hty.2
      · exact yields_report_bind fun c' => .advance_bind (.pure trivial)
  · exact yields_report_bind fun c' => .advance_bind (.pure trivial)

/-- Fields behind an expression, wherever that starts. As with a chain of operators, each round
    makes the expression in front larger. -/
theorem postfixes_accepts :
    ∀ (bound : Nat) (e : Expr) (c : Cursor),
      (postfixes bound e).Yields c fun e' c' => ∀ c₀ : Cursor,
        (c₀.Spells c fun s ks s' => Phrase.Postfixed s ks e s') →
        c₀.Spells c' fun s ks s' => Phrase.Postfixed s ks e' s' := by
  intro bound
  induction bound with
  | zero => exact fun e c => .pure fun c₀ => id
  | succ bound ih =>
    intro e c
    unfold postfixes
    refine .kind_bind ?_
    split
    · rename_i hpoint
      refine .advance_bind ((field_accepts e c.advance).bind fun e' c₁ => ?_)
      refine (ih e' c₁).mono fun e'' c₂ hmore hfield c₀ hbase => hmore c₀ ?_
      refine hbase.trans ((Cursor.spells_token hpoint (by simp)).trans hfield
        (T := fun s ks s' => ∃ name, ks = [.control '.', .ident name] ∧ s' = s ∧
          Phrase.Field e name e') ?_) ?_
      · rintro ks us ⟨rfl, hs⟩ ⟨name, rfl, hs', hfield⟩
        exact ⟨name, rfl, hs'.trans hs, hfield⟩
      · rintro ks us hbase ⟨name, rfl, hs, hfield⟩
        rw [hs]
        exact .field hbase hfield
    · exact yields_report_bind fun c₁ => .skipPast_bind ((ih _ _).mono fun _ _ _ => trivial)
    all_goals first
      | exact .kind_bind (yields_report_bind fun c₁ => .advance_bind
          ((ih _ _).mono fun _ _ _ => trivial))
      | exact .pure fun c₀ => id

theorem postfixed_accepts (hn : AcceptsAssignments nested) :
    (postfixed nested).Accepts fun e s ks s' => Phrase.Postfixed s ks e s' := by
  intro c
  unfold postfixed
  refine (primary_accepts hn c).bind fun e c₁ => .remaining_bind ?_
  refine (postfixes_accepts _ e c₁).mono fun e' c₂ hmore hprimary => hmore c ?_
  exact hprimary.mono fun ks => .primary

theorem signed_accepts (hn : AcceptsAssignments nested) :
    ∀ bound, (signed nested bound).Accepts fun e s ks s' => Phrase.Unary s ks e s' := by
  intro bound
  induction bound with
  | zero => exact fun c => (postfixed_accepts hn c).mono fun e c' h => h.mono fun ks => .postfixed
  | succ bound ih =>
    intro c
    unfold signed
    refine .kind_bind ?_
    split
    · rename_i hplus
      refine .advance_bind ((ih c.advance).mono fun e c' h => ?_)
      refine (Cursor.spells_token hplus (by simp)).trans h ?_
      rintro ks us ⟨rfl, hs⟩ h
      rw [hs] at h
      exact .plus h
    · rename_i hminus
      refine .span_bind (.advance_bind ((ih c.advance).bind fun e c' => ?_))
      refine (negated_decides e _ c').1.mono ?_
      rintro e' c'' ⟨rfl, hbasic, hnumber, rfl⟩ h
      refine (Cursor.spells_token hminus (by simp)).trans h ?_
      rintro ks us ⟨rfl, hs⟩ h
      rw [hs] at h
      exact .minus h hbasic hnumber
    all_goals first
      | exact .kind_bind (yields_report_bind fun c₁ => .advance_bind
          ((ih _).mono fun _ _ _ => trivial))
      | exact (postfixed_accepts hn c).mono fun e c' h => h.mono fun ks => .postfixed

theorem unary_accepts (hn : AcceptsAssignments nested) :
    (unary nested).Accepts fun e s ks s' => Phrase.Unary s ks e s' := by
  intro c
  unfold unary
  exact .remaining_bind (signed_accepts hn _ c)

/-- Operators of one precedence behind a left operand, wherever that starts. The induction goes over
    the rounds, with `left` general, since each round makes it larger. -/
theorem chain_accepts {operand : Reader Expr} {p : Nat}
    (ho : operand.Accepts fun e s ks s' => Phrase.Operation (p + 1) s ks e s') :
    ∀ (bound : Nat) (left : Expr) (c : Cursor),
      (chain operand p bound left).Yields c fun e c' => ∀ c₀ : Cursor,
        (c₀.Spells c fun s ks s' => Phrase.Operation p s ks left s') →
        c₀.Spells c' fun s ks s' => Phrase.Operation p s ks e s' := by
  intro bound
  induction bound with
  | zero => exact fun left c => .pure fun c₀ => id
  | succ bound ih =>
    intro left c
    unfold chain
    refine .kind_bind ?_
    split
    · rename_i op hop
      rw [Option.filter_eq_some_iff] at hop
      obtain ⟨hsign, hstrength⟩ := hop
      have hend : c.kind ≠ .endOfInput := by
        intro hend
        rw [hend] at hsign
        simp [Token.Kind.operator?] at hsign
      refine .span_bind (.advance_bind ((ho c.advance).bind fun right c₁ => ?_))
      refine (combined_decides op _ left right).yields_bind fun e c₂ => ?_
      refine (ih e c₂).mono ?_
      rintro e' c₃ hmore rfl ⟨ty, hty, rfl⟩ hright c₀ hleft
      refine hmore c₀ (hleft.trans ((Cursor.spells_token rfl hend).trans hright
        (T := fun s ks s' => ∃ us, ks = c.kind :: us ∧
          Phrase.Operation (p + 1) s us right s') ?_) ?_)
      · rintro ks us ⟨rfl, hs⟩ h
        exact ⟨us, rfl, hs ▸ h⟩
      · rintro ks vs hleft ⟨us, rfl, hright⟩
        exact .binary hleft hsign (by simpa using hstrength) hright hty
    · exact .pure fun c₀ => id

theorem binaryLevels_accepts (hn : AcceptsAssignments nested) :
    ∀ level ≤ 11, (binaryLevels (unary nested) level).Accepts fun e s ks s' =>
      Phrase.Operation (13 - level) s ks e s' := by
  intro level
  induction level with
  | zero => exact fun _ c => (unary_accepts hn c).mono fun e c' h => h.mono fun ks => .unary
  | succ level ih =>
    intro hlevel c
    obtain ⟨hlower, hstep⟩ : 13 - (level + 1) = 12 - level ∧ 13 - level = 12 - level + 1 := by omega
    have ho := ih (by omega)
    rw [hstep] at ho
    rw [hlower]
    unfold binaryLevels
    refine (ho c).bind fun left c₁ => .remaining_bind ?_
    refine (chain_accepts ho _ left c₁).mono fun e c₂ hmore hleft => hmore c ?_
    exact hleft.mono fun ks => .tighter (by omega)

theorem operation_accepts (hn : AcceptsAssignments nested) :
    (operation nested).Accepts fun e s ks s' => Phrase.Operation 2 s ks e s' :=
  binaryLevels_accepts hn 11 (Nat.le_refl 11)

theorem assignment_accepts (hn : AcceptsAssignments nested) :
    AcceptsAssignments (assignment nested) := by
  intro c
  unfold assignment
  refine (operation_accepts hn c).bind fun target c₁ => .kind_bind ?_
  split
  · exact .pure fun h => h.mono fun ks => .operation
  · rename_i op hsign
    have hend : c₁.kind ≠ .endOfInput := by
      intro hend
      rw [hend] at hsign
      simp [Token.Kind.assignment?] at hsign
    refine .ite (fun _ => ?_) fun hplace => ?_
    · exact yields_report_bind fun c₂ => .advance_bind ((hn _).mono fun _ _ _ => trivial)
    · split
      · refine yields_report_bind fun c₂ => .advance_bind ((hn _).bind fun e c₃ => ?_)
        exact .pure fun _ => trivial
      · rename_i hwritable
        refine .span_bind (.advance_bind ((hn c₁.advance).bind fun value c₂ => ?_))
        refine (assigned_decides op _ target value c₂).1.mono ?_
        rintro e c₃ ⟨rfl, ty, hty, hfits, rfl⟩ hvalue htarget
        refine htarget.trans ((Cursor.spells_token rfl hend).trans hvalue
          (T := fun s ks s' => ∃ us, ks = c₁.kind :: us ∧ Phrase.Assignment s us value s') ?_) ?_
        · rintro ks us ⟨rfl, hs⟩ h
          exact ⟨us, rfl, hs ▸ h⟩
        · rintro ks vs htarget ⟨us, rfl, hvalue⟩
          refine .assign htarget hsign (by simpa using hplace) (fun x hx => ?_) hvalue hty hfits
          simpa [Option.filter_eq_none_iff, hx] using hwritable

theorem expressionWithin_accepts : ∀ depth, AcceptsAssignments (expressionWithin depth)
  | 0 => fun _ => yields_report_bind fun _ => .pure trivial
  | depth + 1 => assignment_accepts (expressionWithin_accepts depth)

/-- What is read as an expression without a problem is one of the grammar. -/
theorem expression_accepts : AcceptsAssignments expression := by
  intro c
  unfold expression
  exact .remaining_bind (expressionWithin_accepts _ c)

end ShaderExpr.Reader
