import ShaderExpr.Proofs.Grammar.Completeness
import ShaderExpr.Proofs.Grammar.Soundness
import ShaderExpr.Proofs.Printing.Printable

namespace ShaderExpr

namespace Phrase

variable {s s' : Scope} {ks : Kinds} {e : Expr}

/-- What is taken by a tight operator can be taken by a looser one. -/
theorem Operation.loosen {p n : Nat} (h : Operation (p + n) s ks e s') (tight : p + n ≤ 13) :
    Operation p s ks e s' := by
  induction n with
  | zero => exact h
  | succ n ih => exact ih (.tighter (by omega) h) (by omega)

theorem Primary.assignment (h : Primary s ks e s') : Assignment s ks e s' :=
  .operation (Operation.loosen (p := 2) (n := 11) (.unary (.postfixed (.primary h)))
    (Nat.le_refl 13))

end Phrase

namespace Reader

variable {nested : Reader Expr} {n : Nat} {P : Prop} {c : Cursor}

/-- What follows a reading of which the end is known. -/
theorem Gives.yields_bind {α β : Type} {r : Reader α} {f : α → Reader β}
    {Q : α → Cursor → Prop} {R : β → Cursor → Prop} (h : r.Gives c Q)
    (hf : ∀ a c', Q a c' → (f a).Yields c' R) : (r >>= f).Yields c R := by
  obtain ⟨hclean, hQ⟩ := h
  exact Cursor.Passes.trans (.of_diagnostics_eq hclean trivial) (hf _ _ hQ) fun _ hR => hR

/-- What follows a check, where it finds a problem and where it finds none. -/
theorem Decides.yields_bind_of {α β : Type} {r : Reader α} {f : α → Reader β} {Q : α → Prop}
    {R : β → Cursor → Prop} (h : r.Decides Q) (hall : ∀ a c', (f a).Yields c' fun _ _ => True)
    (hf : ∀ a, Q a → (f a).Yields c R) : (r >>= f).Yields c R := by
  refine (h c).1.bind fun a c' => ?_
  by_cases hend : c' = c ∧ Q a
  · obtain ⟨rfl, hQ⟩ := hend
    exact (hf a hQ).mono fun _ _ hR _ => hR
  · exact (hall a c').mono fun _ _ _ h => absurd h hend

/-- Whatever a check left, the arguments behind it only add problems. -/
theorem further_yields (accepts : AcceptsAssignments nested) (ty : Ty) (bound : Nat)
    (result : Int × List Expr) (c : Cursor) :
    (do if ← isControl ',' then
          advance
          componentArguments nested ty bound result.1 result.2
        else return (result.1, result.2)).Yields c fun _ _ => True :=
  .isControl_bind (.ite (fun _ => .advance_bind
    ((componentArguments_accepts accepts ty _ _ _ _).mono fun _ _ _ => trivial))
    fun _ => .pure trivial)

/-- Behind arguments that can stand in a constructor, further ones are only taken without a problem
    if all of them can stand there. -/
theorem componentArguments_yields (hn : ReadsAssignments nested n)
    (accepts : AcceptsAssignments nested) {ty : Ty} {s s' : Scope} {ks : Phrase.Kinds}
    {es : List Expr} (h : Phrase.ArgumentList s ks es s') (hks : ks.length < n) {bound : Nat}
    (hbound : ks.length ≤ bound) {missing : Int} {arguments : List Expr}
    (hfilling : ty.Filling (arguments.map Expr.ty) missing) {us : Phrase.Kinds}
    (hc : c.kinds = ks ++ .control ')' :: us) (hs : c.scope = s) :
    (componentArguments nested ty bound missing arguments).Yields c fun result _ =>
      result.2 = arguments ++ es ∧ ty.Filling ((arguments ++ es).map Expr.ty) result.1 := by
  induction bound generalizing s ks es missing arguments c with
  | zero =>
    obtain ⟨k, _, rfl, -⟩ := h.starts
    simp at hbound
  | succ bound ih =>
    have htaken {e : Expr} {missing₁ : Int} (htakes : ty.Takes (arguments.map Expr.ty) missing e.ty
        missing₁) : ty.Filling ((arguments ++ [e]).map Expr.ty) missing₁ := by
      rw [List.map_append]
      exact (Ty.filling_append_singleton hfilling).mpr htakes
    unfold componentArguments
    cases h with
    | one argument =>
      refine .span_bind ((hn argument hks (.control ')' :: us) Phrase.endsAssignment_closing c hc
        hs).yields_bind ?_)
      rintro e c₁ ⟨rfl, hc₁, hs₁⟩
      refine (takeComponents_decides ty _ e missing arguments).yields_bind_of
        (further_yields accepts ty bound) ?_
      rintro ⟨missing₁, _⟩ ⟨htakes, rfl⟩
      refine .isControl_bind ?_
      rw [if_neg (by simp [Cursor.kind_of_kinds hc₁])]
      exact .pure ⟨rfl, htaken htakes⟩
    | @more _ _ _ ks vs e es argument rest =>
      simp only [List.length_append, List.length_cons] at hks hbound
      simp only [List.append_assoc, List.cons_append] at hc
      refine .span_bind ((hn argument (by omega) (.control ',' :: _) Phrase.endsAssignment_comma c
        hc hs).yields_bind ?_)
      rintro e c₁ ⟨rfl, hc₁, hs₁⟩
      refine (takeComponents_decides ty _ e missing arguments).yields_bind_of
        (further_yields accepts ty bound) ?_
      rintro ⟨missing₁, _⟩ ⟨htakes, rfl⟩
      refine .isControl_bind ?_
      rw [if_pos (by simp [Cursor.kind_of_kinds hc₁])]
      rw [List.append_cons arguments e es]
      exact .advance_bind (ih rest (by omega) (by omega) (htaken htakes) (Cursor.kinds_advance hc₁)
        (by simpa using hs₁))

/-- A constructor with these arguments reports nothing only if they fill its type. The nested reader
    reads each argument as the grammar does, so the count of missing components is that of their
    types. -/
theorem construction_yields (hn : ReadsAssignments nested n) (accepts : AcceptsAssignments nested)
    {ty : Ty} {s s' : Scope} {ks us : Phrase.Kinds} {es : List Expr}
    (h : Phrase.Arguments s ks es s') (hks : ks.length < n)
    (hc : c.kinds = Phrase.enclosed ks ++ us) (hs : c.scope = s) :
    (construction nested ty).Yields c fun _ _ => ty.FilledBy (es.map Expr.ty) := by
  simp only [Phrase.enclosed, List.cons_append, List.append_assoc, List.nil_append] at hc
  have hinside := Cursor.kinds_advance hc
  unfold construction
  refine .isControl_bind ?_
  rw [if_pos (by simp [Cursor.kind_of_kinds hc])]
  refine .span_bind (.advance_bind (.problemCount_bind (.isControl_bind ?_)))
  refine yields_listed (P := fun result _ =>
    result.2 = es ∧ ty.Filling (es.map Expr.ty) result.1) ?_ ?_ ?_
  · intro hnone
    cases h with
    | none => exact ⟨rfl, ty.filling_nil⟩
    | some list =>
      obtain ⟨k, vs, rfl, hk⟩ := list.starts
      exact absurd (by simpa [Cursor.kind_of_kinds hinside] using hnone) hk.ne_closing
  · intro hsome
    cases h with
    | none => simp [Cursor.kind_of_kinds hinside] at hsome
    | some list =>
      refine componentArguments_yields hn accepts list hks ?_ ty.filling_nil hinside
        (by simpa using hs)
      rw [Cursor.length_rest, hinside, List.length_append]
      omega
  · rintro ⟨missing, arguments⟩ c₁
    refine (expectControl_accepts ')' _ c₁).bind fun _ c₂ => ?_
    refine .ite (fun _ => ?_) fun hmissing => ?_
    · refine .get_bind (yields_reportAt_bind fun c₃ => .problemCount_bind ?_)
      split <;> exact .pure trivial
    · rw [Bool.and_eq_false_iff, decide_eq_false_iff_not, Bool.not_eq_false'] at hmissing
      have hfilled (hlist : arguments = es ∧ ty.Filling (es.map Expr.ty) missing) :
          ty.FilledBy (es.map Expr.ty) := by
        obtain ⟨rfl, hfilling⟩ := hlist
        exact Ty.filledBy_iff.mpr ⟨missing, hfilling, fun hlt =>
          singleScalar_iff.mp (hmissing.resolve_left (not_not_intro hlt))⟩
      refine .problemCount_bind ?_
      split <;> exact .pure fun _ => hfilled

/-- What a name of the language is followed by as a constructor. Such a word starts nothing else. -/
theorem primary_yields_of_word {word : String} {ty : Ty} {us : Phrase.Kinds}
    (known : Ty.ofWord? word = some ty) (basic : ty.isBasic) (hc : c.kinds = .keyword word :: us)
    (h : (construction nested ty).Yields c.advance fun _ _ => P) :
    (primary nested).Yields c fun _ _ => P := by
  have hword : word ≠ "struct" := by
    rintro rfl
    rw [Ty.ofWord?_struct] at known
    simp at known
  have hstruct : ty.isStruct = false := by
    cases ty with
    | struct => simp [Ty.isBasic] at basic
    | void | scalar | vector | matrix => rfl
  unfold primary
  refine .span_bind (.kind_bind ?_)
  rw [Cursor.kind_of_kinds hc]
  simp only [hword, if_false, known, Option.filter_some, basic, if_true]
  refine .advance_bind ?_
  unfold constructorCall
  rwa [if_neg (by simp [hstruct])]

theorem unary_yields_of_primary {word : String} (hc : c.kind = .keyword word)
    (h : (primary nested).Yields c fun _ _ => P) : (unary nested).Yields c fun _ _ => P := by
  have hpostfixed : (postfixed nested).Yields c fun _ _ => P := by
    unfold postfixed
    exact h.bind fun e c₁ => .remaining_bind ((postfixes_accepts _ e c₁).mono fun _ _ _ hP => hP)
  unfold unary
  refine .remaining_bind ?_
  unfold signed
  refine .kind_bind ?_
  rw [hc]
  exact hpostfixed

theorem binaryLevels_yields_of_primary (accepts : AcceptsAssignments nested) {word : String}
    (hc : c.kind = .keyword word) (h : (primary nested).Yields c fun _ _ => P) :
    ∀ level ≤ 11, (binaryLevels (unary nested) level).Yields c fun _ _ => P := by
  intro level
  induction level with
  | zero => exact fun _ => unary_yields_of_primary hc h
  | succ level ih =>
    intro hlevel
    have ho := binaryLevels_accepts accepts level (by omega)
    rw [show 13 - level = 12 - level + 1 by omega] at ho
    unfold binaryLevels
    exact (ih (by omega)).bind fun left c₁ => .remaining_bind
      ((chain_accepts ho _ left c₁).mono fun _ _ _ hP => hP)

theorem assignment_yields_of_primary (accepts : AcceptsAssignments nested) {word : String}
    (hc : c.kind = .keyword word) (h : (primary nested).Yields c fun _ _ => P) :
    (assignment nested).Yields c fun _ _ => P := by
  unfold assignment
  refine (binaryLevels_yields_of_primary accepts hc h 11 (Nat.le_refl 11)).bind fun target c₁ =>
    .kind_bind ?_
  split
  · exact .pure id
  · rename_i op _
    refine .ite (fun _ => ?_) fun _ => ?_
    · exact yields_report_bind fun c₂ => .advance_bind ((accepts _).mono fun _ _ _ => trivial)
    · split
      · exact yields_report_bind fun c₂ => .advance_bind ((accepts _).bind fun _ _ =>
          .pure fun _ => trivial)
      · exact .span_bind (.advance_bind ((accepts _).bind fun value c₂ =>
          (assigned_decides op _ target value c₂).1.mono fun _ _ _ _ hP => hP))

/-- Some tokens alone are an expression, and no problem is reported of it. -/
def ReadsWhole (s : Scope) (ks : Phrase.Kinds) (e : Expr) (s' : Scope) : Prop :=
  ∃ c : Cursor, c.kinds = ks ∧ c.scope = s ∧
    expression.Gives c fun e' c' => e' = e ∧ c'.kinds = [] ∧ c'.scope = s'

/-- Expressions one after the other, each in the scope that those in front of it leave. -/
inductive ReadInTurn : Scope → List Phrase.Kinds → List Expr → Scope → Prop
  | nil {s : Scope} : ReadInTurn s [] [] s
  | cons {s s' s'' : Scope} {ks : Phrase.Kinds} {kss : List Phrase.Kinds} {e : Expr}
    {es : List Expr} (first : ReadsWhole s ks e s') (rest : ReadInTurn s' kss es s'') :
    ReadInTurn s (ks :: kss) (e :: es) s''

theorem ReadsWhole.assignment {s s' : Scope} {ks : Phrase.Kinds} {e : Expr}
    (h : ReadsWhole s ks e s') : Phrase.Assignment s ks e s' := by
  obtain ⟨c, rfl, rfl, hclean, rfl, hrest, rfl⟩ := h
  obtain ⟨ts, hts, hphrase⟩ := (expression_accepts c).2 (congrArg List.length hclean)
  rw [Cursor.rest_eq_nil hrest, List.append_nil] at hts
  rwa [Cursor.kinds, hts]

theorem ReadInTurn.argumentList {s s' : Scope} {ks : Phrase.Kinds} {kss : List Phrase.Kinds}
    {e : Expr} {es : List Expr} (h : ReadInTurn s (ks :: kss) (e :: es) s') :
    Phrase.ArgumentList s (Phrase.separated (ks :: kss)) (e :: es) s' := by
  induction kss generalizing s ks e es with
  | nil =>
    obtain _ | ⟨first, rest⟩ := h
    cases rest
    exact .one first.assignment
  | cons us kss ih =>
    obtain _ | ⟨first, rest⟩ := h
    cases rest with
    | cons second more => exact .more first.assignment (ih (.cons second more))

theorem ReadInTurn.arguments {s s' : Scope} {kss : List Phrase.Kinds} {es : List Expr}
    (h : ReadInTurn s kss es s') : Phrase.Arguments s (Phrase.separated kss) es s' := by
  cases h with
  | nil => exact .none
  | cons first rest => exact .some (ReadInTurn.cons first rest).argumentList

/-- A constructor is read without a problem if and only if its arguments fill the type. Then it is
    read as itself, up to its closing parenthesis. The arguments are known to be read without
    problems of their own, so what decides is the running count of missing components. -/
theorem expression_construct {word : String} {ty : Ty} (known : Ty.ofWord? word = some ty)
    (basic : ty.isBasic) {s s' : Scope} {kss : List Phrase.Kinds} {es : List Expr}
    (arguments : ReadInTurn s kss es s') {us : Phrase.Kinds}
    (hend : Phrase.EndsAssignment (us.headD .endOfInput))
    (hc : c.kinds = .keyword word :: (Phrase.enclosed (Phrase.separated kss) ++ us))
    (hs : c.scope = s) :
    ((expression c).2.diagnostics = c.diagnostics ↔ ty.FilledBy (es.map Expr.ty)) ∧
      (ty.FilledBy (es.map Expr.ty) → (expression c).1 = .construct ty es ∧
        (expression c).2.kinds = us ∧ (expression c).2.scope = s') := by
  have hlist := arguments.arguments
  have hreads (filled : ty.FilledBy (es.map Expr.ty)) :
      expression.Gives c fun e c' => e = .construct ty es ∧ c'.kinds = us ∧ c'.scope = s' := by
    have hstruct : ty.isStruct = false := by
      cases ty with
      | struct => simp [Ty.isBasic] at basic
      | void | scalar | vector | matrix => rfl
    have hprimary : Phrase.Primary s
        (.keyword word :: Phrase.enclosed (Phrase.separated kss)) (.construct ty es) s' :=
      .construct (.word known basic) hstruct hlist filled
    exact expression_reads hprimary.assignment us hend c hc hs
  refine ⟨⟨fun hclean => ?_, fun filled => (hreads filled).1⟩, fun filled => (hreads filled).2⟩
  have hyields : expression.Yields c fun _ _ => ty.FilledBy (es.map Expr.ty) := by
    unfold expression
    refine .remaining_bind (assignment_yields_of_primary (expressionWithin_accepts _)
      (Cursor.kind_of_kinds hc) (primary_yields_of_word known basic hc ?_))
    refine construction_yields (expressionWithin_reads _) (expressionWithin_accepts _) hlist ?_
      (Cursor.kinds_advance hc) (by simpa using hs)
    rw [Cursor.length_rest, hc]
    simp only [Phrase.enclosed, List.length_cons, List.length_append]
    omega
  exact hyields.2 (congrArg List.length hclean)

end Reader

end ShaderExpr
