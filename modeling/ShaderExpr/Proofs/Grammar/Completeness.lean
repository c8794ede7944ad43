import ShaderExpr.Proofs.Grammar.TypeCompleteness

namespace ShaderExpr

namespace Phrase

/-- Tokens that a primary expression starts with. -/
def StartsPrimary : Token.Kind → Prop
  | .ident _ | .keyword _ | .literal _ | .control '(' => True
  | _ => False

/-- Tokens that any expression starts with. -/
def StartsExpression (k : Token.Kind) : Prop :=
  StartsPrimary k ∨ k = .control '+' ∨ k = .control '-'

theorem Constructor.starts {s s' : Scope} {ks : Kinds} {ty : Ty} (h : Constructor s ks ty s') :
    ∃ k us, ks = k :: us ∧ StartsPrimary k := by
  cases h with
  | word => exact ⟨_, _, rfl, trivial⟩
  | name => exact ⟨_, _, rfl, trivial⟩
  | definition h =>
    obtain ⟨us, rfl⟩ := h.starts
    exact ⟨_, _, rfl, trivial⟩

theorem Primary.starts {s s' : Scope} {ks : Kinds} {e : Expr} (h : Primary s ks e s') :
    ∃ k us, ks = k :: us ∧ StartsPrimary k := by
  cases h with
  | literal => exact ⟨_, _, rfl, trivial⟩
  | reference => exact ⟨_, _, rfl, trivial⟩
  | parentheses => exact ⟨_, _, rfl, trivial⟩
  | construct type | make type =>
    obtain ⟨k, us, rfl, hk⟩ := type.starts
    exact ⟨k, _, rfl, hk⟩
  | call => exact ⟨_, _, rfl, trivial⟩

theorem Postfixed.starts : ∀ {s s' : Scope} {ks : Kinds} {e : Expr}, Postfixed s ks e s' →
    ∃ k us, ks = k :: us ∧ StartsPrimary k
  | _, _, _, _, .primary h => h.starts
  | _, _, _, _, .field operand _ => by
    obtain ⟨k, us, rfl, hk⟩ := operand.starts
    exact ⟨k, _, rfl, hk⟩

theorem Unary.starts {s s' : Scope} {ks : Kinds} {e : Expr} (h : Unary s ks e s') :
    ∃ k us, ks = k :: us ∧ StartsExpression k := by
  cases h with
  | plus => exact ⟨_, _, rfl, .inr (.inl rfl)⟩
  | minus => exact ⟨_, _, rfl, .inr (.inr rfl)⟩
  | postfixed h =>
    obtain ⟨k, us, rfl, hk⟩ := h.starts
    exact ⟨k, us, rfl, .inl hk⟩

theorem Operation.starts : ∀ {p : Nat} {s s' : Scope} {ks : Kinds} {e : Expr},
    Operation p s ks e s' → ∃ k us, ks = k :: us ∧ StartsExpression k
  | _, _, _, _, _, .unary h => h.starts
  | _, _, _, _, _, .tighter _ h => h.starts
  | _, _, _, _, _, .binary before .. => by
    obtain ⟨k, us, rfl, hk⟩ := before.starts
    exact ⟨k, _, rfl, hk⟩

theorem Assignment.starts {s s' : Scope} {ks : Kinds} {e : Expr} (h : Assignment s ks e s') :
    ∃ k us, ks = k :: us ∧ StartsExpression k := by
  cases h with
  | operation h => exact h.starts
  | assign left =>
    obtain ⟨k, us, rfl, hk⟩ := left.starts
    exact ⟨k, _, rfl, hk⟩

theorem ArgumentList.starts {s s' : Scope} {ks : Kinds} {es : List Expr}
    (h : ArgumentList s ks es s') : ∃ k us, ks = k :: us ∧ StartsExpression k := by
  cases h with
  | one argument => exact argument.starts
  | more argument =>
    obtain ⟨k, us, rfl, hk⟩ := argument.starts
    exact ⟨k, _, rfl, hk⟩

theorem StartsExpression.ne_closing {k : Token.Kind} (h : StartsExpression k) :
    k ≠ .control ')' := by
  rintro rfl
  rcases h with h | h | h
  · exact h
  · simp at h
  · simp at h

end Phrase

theorem Operator.precedence_lt (op : Operator) : op.precedence < 13 := by
  cases op <;> decide

namespace Reader

/-- Expressions of less than `n` tokens are read where what follows does not belong to them. This is
    what an induction on the number of tokens assumes of the nested reader. -/
def ReadsAssignments (nested : Reader Expr) (n : Nat) : Prop :=
  ∀ {s s' : Scope} {ks : Phrase.Kinds} {e : Expr}, Phrase.Assignment s ks e s' → ks.length < n →
    ∀ us, Phrase.EndsAssignment (us.headD .endOfInput) → nested.Reads s ks us e s'

variable {nested : Reader Expr} {n : Nat}

/-- Arguments behind others that can stand in a constructor. Both counts of missing components are
    told by the types, in front of these arguments and behind them. -/
theorem componentArguments_reads (hn : ReadsAssignments nested n) {ty : Ty} :
    ∀ {s s' : Scope} {ks : Phrase.Kinds} {es : List Expr}, Phrase.ArgumentList s ks es s' →
      ks.length < n → ∀ (bound : Nat) (missing : Int) (arguments : List Expr) (us : Phrase.Kinds),
      ks.length ≤ bound → ty.Filling (arguments.map Expr.ty) missing → ∀ missing',
      ty.Filling ((arguments ++ es).map Expr.ty) missing' →
      (componentArguments nested ty bound missing arguments).Reads s ks (.control ')' :: us)
        (missing', arguments ++ es) s'
  | s, s', ks, _, .one (e := e) argument => by
    intro hks bound missing arguments us hbound hfilling missing' hall c hc hs
    obtain ⟨k, _, rfl, -⟩ := argument.starts
    obtain ⟨bound, rfl⟩ : ∃ b, bound = b + 1 := ⟨bound - 1, by simp at hbound; omega⟩
    rw [List.map_append] at hall
    unfold componentArguments
    refine .span_bind ((hn argument hks (.control ')' :: us) Phrase.endsAssignment_closing).bind hc hs
      fun c₁ _ hc₁ hs₁ => ?_)
    refine (takeComponents_decides ty _ e missing arguments).gives_bind
      (a := (missing', arguments ++ [e])) ⟨(Ty.filling_append_singleton hfilling).mp hall, rfl⟩ ?_
    refine .isControl_bind ?_
    rw [if_neg (by simp [Cursor.kind_of_kinds hc₁])]
    exact .pure ⟨rfl, hc₁, hs₁⟩
  | s, s', _, _, @Phrase.ArgumentList.more _ _ _ ks vs e es argument rest => by
    intro hks bound missing arguments us hbound hfilling missing' hall c hc hs
    simp only [List.length_append, List.length_cons] at hks hbound
    simp only [List.append_assoc, List.cons_append] at hc
    obtain ⟨bound, rfl⟩ : ∃ b, bound = b + 1 := ⟨bound - 1, by omega⟩
    rw [List.append_cons, List.map_append] at hall
    obtain ⟨missing₁, hfilling₁⟩ := hall.of_append
    have htakes := hfilling₁
    rw [List.map_append] at htakes
    unfold componentArguments
    refine .span_bind ((hn argument (by omega) (.control ',' :: _) Phrase.endsAssignment_comma).bind hc hs
      fun c₁ _ hc₁ hs₁ => ?_)
    refine (takeComponents_decides ty _ e missing arguments).gives_bind
      (a := (missing₁, arguments ++ [e])) ⟨(Ty.filling_append_singleton hfilling).mp htakes, rfl⟩ ?_
    refine .isControl_bind ?_
    rw [if_pos (by simp [Cursor.kind_of_kinds hc₁])]
    refine .advance_bind ?_
    rw [← List.map_append] at hall
    rw [List.append_cons arguments e es]
    exact componentArguments_reads hn rest (by omega) bound missing₁ _ us (by omega) hfilling₁
      missing' hall _ (Cursor.kinds_advance hc₁) (by simpa using hs₁)

/-- Arguments up to the closing parenthesis, read as `b`. Without any of them that is the next
    token, and only then. -/
theorem gives_listed {α β : Type} {a b : α} {some : Nat → Reader α} {f : α → Reader β} {c : Cursor}
    {R : β → Cursor → Prop} {s s' : Scope} {ks us : Phrase.Kinds} {es : List Expr}
    (h : Phrase.Arguments s ks es s') (hc : c.kinds = ks ++ .control ')' :: us) (hs : c.scope = s)
    (hnone : es = [] → a = b)
    (hsome : Phrase.ArgumentList s ks es s' → ∀ m, ks.length ≤ m →
      (some m).Reads s ks (.control ')' :: us) b s')
    (hf : ∀ c', c'.diagnostics = c.diagnostics → c'.kinds = .control ')' :: us → c'.scope = s' →
      (f b).Gives c' R) :
    (if decide (c.kind = .control ')') = true then pure a >>= f
      else remaining >>= fun m => some m >>= f).Gives c R := by
  cases h with
  | none =>
    rw [if_pos (by simp [Cursor.kind_of_kinds hc]), pure_bind, hnone rfl]
    exact hf c rfl hc hs
  | some list =>
    obtain ⟨k, vs, rfl, hk⟩ := list.starts
    rw [if_neg (by simpa [Cursor.kind_of_kinds hc] using hk.ne_closing)]
    refine .remaining_bind ((hsome list _ ?_).bind hc hs hf)
    rw [hc, List.length_append]
    omega

theorem construction_reads (hn : ReadsAssignments nested n) {ty : Ty} {s s' : Scope}
    {ks : Phrase.Kinds} {es : List Expr} (h : Phrase.Arguments s ks es s') (hks : ks.length < n)
    (hfilled : ty.FilledBy (es.map Expr.ty)) (us : Phrase.Kinds) :
    (construction nested ty).Reads s (Phrase.enclosed ks) us (.construct ty es) s' := by
  intro c hc hs
  simp only [Phrase.enclosed, List.cons_append, List.append_assoc, List.nil_append] at hc
  have hinside := Cursor.kinds_advance hc
  obtain ⟨missing, hfilling, hsingle⟩ := Ty.filledBy_iff.mp hfilled
  unfold construction
  refine .isControl_bind ?_
  rw [if_pos (by simp [Cursor.kind_of_kinds hc])]
  refine .span_bind (.advance_bind (.problemCount_bind (.isControl_bind ?_)))
  refine gives_listed h hinside (by simpa using hs) (b := (missing, es)) ?_ ?_ ?_
  · rintro rfl
    rcases hfilling with ⟨t, ht, -⟩ | ⟨-, hmissing, -⟩
    · simp at ht
    · simpa [Ty.totalCount] using hmissing.symm
  · exact fun hlist m hm =>
      componentArguments_reads hn hlist hks _ _ [] us (by omega) ty.filling_nil missing hfilling
  · intro c₁ hclean hc₁ hs₁
    refine .expectControl_bind hc₁ ?_
    rw [if_neg]
    · refine .problemCount_bind ?_
      rw [if_neg (by simp [hclean])]
      exact .pure ⟨rfl, Cursor.kinds_advance hc₁, by simpa using hs₁⟩
    · rw [Bool.and_eq_true, decide_eq_true_eq, Bool.not_eq_true']
      rintro ⟨hlt, hno⟩
      exact Bool.eq_false_iff.mp hno (singleScalar_iff.mpr (hsingle hlt))

/-- Arguments behind others that leave a candidate. While one is left, no argument is excluded, and
    nothing is reported before the closing parenthesis. -/
theorem callArguments_reads (hn : ReadsAssignments nested n) :
    ∀ {s s' : Scope} {ks : Phrase.Kinds} {es : List Expr}, Phrase.ArgumentList s ks es s' →
      ks.length < n → ∀ (bound : Nat) (candidates : Candidates) (arguments : List Expr)
      (us : Phrase.Kinds), ks.length ≤ bound →
      ¬(candidates.narrow arguments.length (es.map Expr.ty)).isEmpty →
      (callArguments nested bound candidates arguments).Reads s ks (.control ')' :: us)
        (candidates.narrow arguments.length (es.map Expr.ty), arguments ++ es) s'
  | s, s', ks, _, .one (e := e) argument => by
    intro hks bound candidates arguments us hbound hleft c hc hs
    obtain ⟨k, _, rfl, -⟩ := argument.starts
    obtain ⟨bound, rfl⟩ : ∃ b, bound = b + 1 := ⟨bound - 1, by simp at hbound; omega⟩
    unfold callArguments
    refine .span_bind ((hn argument hks (.control ')' :: us) Phrase.endsAssignment_closing).bind
      hc hs fun c₁ _ hc₁ hs₁ => ?_)
    rw [List.map_singleton, Candidates.narrow_cons, Candidates.narrow_nil] at hleft
    rw [if_neg (by simp [hleft])]
    refine .isControl_bind ?_
    rw [if_neg (by simp [Cursor.kind_of_kinds hc₁])]
    exact .pure ⟨rfl, hc₁, hs₁⟩
  | s, s', _, _, @Phrase.ArgumentList.more _ _ _ ks vs e es argument rest => by
    intro hks bound candidates arguments us hbound hleft c hc hs
    simp only [List.length_append, List.length_cons] at hks hbound
    simp only [List.append_assoc, List.cons_append] at hc
    obtain ⟨bound, rfl⟩ : ∃ b, bound = b + 1 := ⟨bound - 1, by omega⟩
    rw [List.map_cons, Candidates.narrow_cons] at hleft ⊢
    have hsome : ¬(candidates.takeArgument arguments.length e.ty).isEmpty :=
      fun hempty => hleft (Candidates.isEmpty_narrow hempty)
    unfold callArguments
    refine .span_bind ((hn argument (by omega) (.control ',' :: _) Phrase.endsAssignment_comma).bind
      hc hs fun c₁ _ hc₁ hs₁ => ?_)
    rw [if_neg (by simp [hsome])]
    refine .isControl_bind ?_
    rw [if_pos (by simp [Cursor.kind_of_kinds hc₁])]
    refine .advance_bind ?_
    have hread := callArguments_reads hn rest (by omega) bound
      (candidates.takeArgument arguments.length e.ty) (arguments ++ [e]) us (by omega)
      (by simpa using hleft) _ (Cursor.kinds_advance hc₁) (by simpa using hs₁)
    simpa using hread

theorem call_reads (hn : ReadsAssignments nested n) {s s' : Scope} {ks : Phrase.Kinds}
    {es : List Expr} {functions : List Function} {f : Function} (h : Phrase.Arguments s ks es s')
    (hks : ks.length < n) (hf : Candidates.resolve? functions (es.map Expr.ty) = some f)
    (span : Span) (us : Phrase.Kinds) :
    (call nested (.ofFunctions functions) span).Reads s (Phrase.enclosed ks) us (.call f es) s' := by
  intro c hc hs
  simp only [Phrase.enclosed, List.cons_append, List.append_assoc, List.nil_append] at hc
  have hinside := Cursor.kinds_advance hc
  rw [Candidates.resolve?_eq, List.length_map] at hf
  have hleft : ¬((Candidates.ofFunctions functions).narrow 0 (es.map Expr.ty)).isEmpty := by
    intro hempty
    rw [Candidates.choice?_takeCount_of_isEmpty hempty] at hf
    simp at hf
  unfold call
  refine .isControl_bind ?_
  rw [if_pos (by simp [Cursor.kind_of_kinds hc])]
  refine .advance_bind (.problemCount_bind (.isControl_bind ?_))
  refine gives_listed h hinside (by simpa using hs)
    (b := ((Candidates.ofFunctions functions).narrow 0 (es.map Expr.ty), es)) ?_ ?_ ?_
  · rintro rfl
    rfl
  · exact fun hlist m hm => callArguments_reads hn hlist hks _ _ [] us (by omega) hleft
  · intro c₁ hclean hc₁ hs₁
    refine .expectControl_bind hc₁ (.problemCount_bind ?_)
    rw [if_neg (by simp [hclean]), if_neg]
    · simp only [hf]
      exact .pure ⟨rfl, Cursor.kinds_advance hc₁, by simpa using hs₁⟩
    · intro hempty
      simp only [Candidates.isEmpty, List.isEmpty_iff] at hempty
      simp [Candidates.choice?, hempty] at hf

/-- A type that a constructor's arguments follow. -/
theorem primary_constructor {s s' : Scope} {ks vs : Phrase.Kinds} {ty : Ty} {e : Expr}
    {s'' : Scope} {us : Phrase.Kinds} (h : Phrase.Constructor s ks ty s')
    (hcall : ∀ span, (constructorCall nested ty span).Reads s' vs us e s'') :
    (primary nested).Reads s (ks ++ vs) us e s'' := by
  intro c hc hs
  rw [List.append_assoc] at hc
  unfold primary
  refine .span_bind (.kind_bind ?_)
  cases h with
  | word known basic =>
    rename_i word
    have hword : word ≠ "struct" := by
      rintro rfl
      rw [Ty.ofWord?_struct] at known
      simp at known
    rw [Cursor.kind_of_kinds hc]
    simp only [hword, if_false, known, Option.filter_some, basic, if_true]
    exact .advance_bind (hcall _ _ (Cursor.kinds_advance hc) (by simpa using hs))
  | name known =>
    rw [Cursor.kind_of_kinds hc]
    refine .advance_bind ?_
    unfold named
    refine .scope_bind ?_
    rw [Cursor.advance_scope, hs, known]
    exact hcall _ _ (Cursor.kinds_advance hc) (by simpa using hs)
  | definition h =>
    obtain ⟨ks', rfl⟩ := h.starts
    rw [Cursor.kind_of_kinds hc]
    simp only [if_true]
    exact (definition_reads h _).bind hc hs fun c₁ _ hc₁ hs₁ => hcall _ c₁ hc₁ hs₁

theorem primary_reads (hn : ReadsAssignments nested n) {s s' : Scope} {ks : Phrase.Kinds} {e : Expr}
    (h : Phrase.Primary s ks e s') (hks : ks.length ≤ n) (us : Phrase.Kinds) :
    (primary nested).Reads s ks us e s' := by
  cases h with
  | literal value =>
    intro c hc hs
    unfold primary
    refine .span_bind (.kind_bind ?_)
    rw [Cursor.kind_of_kinds hc]
    exact .advance_bind (.pure ⟨rfl, Cursor.kinds_advance hc, by simpa using hs⟩)
  | reference noType noFunction found =>
    intro c hc hs
    unfold primary
    refine .span_bind (.kind_bind ?_)
    rw [Cursor.kind_of_kinds hc]
    refine .advance_bind ?_
    unfold named
    refine .scope_bind ?_
    rw [Cursor.advance_scope, hs, noType]
    simp only [noFunction, Bool.false_eq_true, if_false, found]
    exact .pure ⟨rfl, Cursor.kinds_advance hc, by simpa using hs⟩
  | parentheses inside =>
    intro c hc hs
    simp only [Phrase.enclosed, List.length_cons, List.length_append, List.length_nil] at hks
    simp only [Phrase.enclosed, List.cons_append, List.append_assoc, List.nil_append] at hc
    unfold primary
    refine .span_bind (.kind_bind ?_)
    rw [Cursor.kind_of_kinds hc]
    refine .advance_bind ?_
    refine (hn inside (by omega) (.control ')' :: us) Phrase.endsAssignment_closing).bind
      (Cursor.kinds_advance hc) (by simpa using hs) fun c₁ _ hc₁ hs₁ => ?_
    exact .expectControl_bind hc₁ (.pure ⟨rfl, Cursor.kinds_advance hc₁, by simpa using hs₁⟩)
  | construct type basic inside filled =>
    simp only [Phrase.enclosed, List.length_cons, List.length_append, List.length_nil] at hks
    refine primary_constructor type fun span => ?_
    unfold constructorCall
    rw [if_neg (by simp [basic])]
    exact construction_reads hn inside (by omega) filled us
  | make type struct inside resolved =>
    simp only [Phrase.enclosed, List.length_cons, List.length_append, List.length_nil] at hks
    refine primary_constructor type fun span => ?_
    unfold constructorCall
    rw [if_pos struct]
    exact call_reads hn inside (by omega) resolved span us
  | call noType isFunction inside resolved =>
    intro c hc hs
    simp only [Phrase.enclosed, List.length_cons, List.length_append, List.length_nil] at hks
    unfold primary
    refine .span_bind (.kind_bind ?_)
    rw [Cursor.kind_of_kinds hc]
    refine .advance_bind ?_
    unfold named
    refine .scope_bind ?_
    rw [Cursor.advance_scope, hs, noType]
    simp only [isFunction, if_true]
    exact call_reads hn inside (by omega) resolved _ us _ (Cursor.kinds_advance hc)
      (by simpa using hs)

/-- A field is no call of a method, so no parenthesis may follow it. -/
theorem field_reads {base e : Expr} {name : String} (h : Phrase.Field base name e)
    {us : Phrase.Kinds} (hcall : us.headD .endOfInput ≠ .control '(') (s : Scope) :
    (field base).Reads s [.ident name] us e s := by
  intro c hc hs
  have hrest := Cursor.kinds_advance hc
  have hnext : c.advance.kind ≠ .control '(' := by
    rw [Cursor.kind_eq_headD, hrest]
    exact hcall
  unfold field
  refine .kind_bind ?_
  rw [Cursor.kind_of_kinds hc]
  refine .span_bind (.advance_bind (.isControl_bind ?_))
  rw [if_neg (by simp [hnext])]
  exact (fieldOf_decides base name _).gives h ⟨rfl, hrest, by simpa using hs⟩

/-- Behind a primary expression and some of its fields, what matters is what the loop over fields
    does with the tokens that follow. Rules that start with a phrase of their own kind are shown
    from what the loop for them does behind the phrase. -/
theorem postfixed_gives (hn : ReadsAssignments nested n) :
    ∀ {s s' : Scope} {ks : Phrase.Kinds} {e : Expr}, Phrase.Postfixed s ks e s' → ks.length ≤ n →
      ∀ (us : Phrase.Kinds) (c : Cursor) {Q : Expr → Cursor → Prop},
      us.headD .endOfInput ≠ .control '(' → c.kinds = ks ++ us → c.scope = s →
      (∀ c' m, c'.diagnostics = c.diagnostics → c'.kinds = us → c'.scope = s' → us.length ≤ m →
        (postfixes m e).Gives c' Q) → (postfixed nested).Gives c Q
  | s, s', ks, e, .primary h => by
    intro hks us c Q _ hc hs hloop
    unfold postfixed
    refine (primary_reads hn h hks us).bind hc hs fun c₁ hclean hc₁ hs₁ => .remaining_bind ?_
    exact hloop c₁ _ hclean hc₁ hs₁ (Nat.le_of_eq (by rw [hc₁]))
  | s, s', _, e, @Phrase.Postfixed.field _ _ ks base _ name operand selects => by
    intro hks us c Q hcall hc hs hloop
    rw [List.length_append] at hks
    rw [List.append_assoc] at hc
    refine postfixed_gives hn operand (by omega) (.control '.' :: .ident name :: us) c (by simp)
      hc hs fun c₁ m hclean hc₁ hs₁ hm => ?_
    obtain ⟨m, rfl⟩ : ∃ b, m = b + 1 := ⟨m - 1, by simp at hm; omega⟩
    have hname := Cursor.kinds_advance hc₁
    simp only [List.length_cons] at hm
    unfold postfixes
    refine .kind_bind ?_
    rw [Cursor.kind_of_kinds hc₁]
    refine .advance_bind ((field_reads selects hcall s').bind hname (by simpa using hs₁)
      fun c₂ hclean₂ hc₂ hs₂ => ?_)
    refine hloop c₂ m ?_ hc₂ hs₂ (by omega)
    rw [hclean₂, Cursor.advance_diagnostics, hclean]

theorem postfixed_reads (hn : ReadsAssignments nested n) {s s' : Scope} {ks : Phrase.Kinds}
    {e : Expr} (h : Phrase.Postfixed s ks e s') (hks : ks.length ≤ n) {us : Phrase.Kinds}
    (hend : Phrase.EndsFields (us.headD .endOfInput)) : (postfixed nested).Reads s ks us e s' := by
  intro c hc hs
  obtain ⟨hpoint, hindex, hcall, hincrement, hdecrement⟩ := hend
  refine postfixed_gives hn h hks us c hcall hc hs fun c' m hclean hc' hs' _ => ?_
  rw [← hc', ← Cursor.kind_eq_headD] at hpoint hindex hincrement hdecrement
  cases m with
  | zero => exact .pure ⟨rfl, hc', hs'⟩
  | succ m =>
    unfold postfixes
    refine .kind_bind ?_
    split
    · exact absurd (by assumption) hpoint
    · exact absurd (by assumption) hindex
    · exact absurd (by assumption) hincrement
    · exact absurd (by assumption) hdecrement
    · exact .pure ⟨rfl, hc', hs'⟩

theorem signed_reads (hn : ReadsAssignments nested n) :
    ∀ {s s' : Scope} {ks : Phrase.Kinds} {e : Expr}, Phrase.Unary s ks e s' → ks.length ≤ n →
      ∀ {us : Phrase.Kinds}, Phrase.EndsFields (us.headD .endOfInput) → ∀ bound, ks.length ≤ bound →
      (signed nested bound).Reads s ks us e s'
  | s, s', _, e, @Phrase.Unary.plus _ _ ks _ operand => by
    intro hks us hend bound hbound c hc hs
    simp only [List.length_cons] at hks hbound
    obtain ⟨bound, rfl⟩ : ∃ b, bound = b + 1 := ⟨bound - 1, by omega⟩
    unfold signed
    refine .kind_bind ?_
    rw [Cursor.kind_of_kinds hc]
    exact .advance_bind (signed_reads hn operand (by omega) hend bound (by omega) _
      (Cursor.kinds_advance hc) (by simpa using hs))
  | s, s', _, _, @Phrase.Unary.minus _ _ ks e operand basic number => by
    intro hks us hend bound hbound c hc hs
    simp only [List.length_cons] at hks hbound
    obtain ⟨bound, rfl⟩ : ∃ b, bound = b + 1 := ⟨bound - 1, by omega⟩
    unfold signed
    refine .kind_bind ?_
    rw [Cursor.kind_of_kinds hc]
    refine .span_bind (.advance_bind ?_)
    refine (signed_reads hn operand (by omega) hend bound (by omega)).bind (Cursor.kinds_advance hc)
      (by simpa using hs) fun c₁ _ hc₁ hs₁ => ?_
    exact (negated_decides e _).gives ⟨basic, number, rfl⟩ ⟨rfl, hc₁, hs₁⟩
  | s, s', ks, e, .postfixed operand => by
    intro hks us hend bound hbound c hc hs
    have hread := postfixed_reads hn operand hks hend c hc hs
    cases bound with
    | zero => exact hread
    | succ bound =>
      obtain ⟨k, vs, rfl, hk⟩ := operand.starts
      unfold signed
      refine .kind_bind ?_
      rw [Cursor.kind_of_kinds hc]
      split <;> first | exact hk.elim | exact hread

theorem unary_reads (hn : ReadsAssignments nested n) {s s' : Scope} {ks : Phrase.Kinds} {e : Expr}
    (h : Phrase.Unary s ks e s') (hks : ks.length ≤ n) {us : Phrase.Kinds}
    (hend : Phrase.EndsFields (us.headD .endOfInput)) : (unary nested).Reads s ks us e s' := by
  intro c hc hs
  unfold unary
  refine .remaining_bind (signed_reads hn h hks hend _ ?_ c hc hs)
  rw [hc, List.length_append]
  omega

/-- The loop over operators of a precedence ends where none follows. -/
theorem chain_ends (operand : Reader Expr) {p : Nat} {c : Cursor}
    (hend : ∀ op, c.kind.operator? = some op → op.precedence ≠ p) (m : Nat) (left : Expr) :
    (chain operand p m left).Gives c fun e c' => e = left ∧ c' = c := by
  cases m with
  | zero => exact .pure ⟨rfl, rfl⟩
  | succ m =>
    have hnone : c.kind.operator?.filter (·.precedence = p) = none := by
      rw [Option.filter_eq_none_iff]
      intro op hop
      simpa using hend op hop
    unfold chain
    refine .kind_bind ?_
    rw [hnone]
    exact .pure ⟨rfl, rfl⟩

/-- Operands of a precedence are read up to the loop over its operators, which goes on with the
    tokens that follow. -/
def ReadsOperands (nested : Reader Expr) (p : Nat) (s : Scope) (ks us : Phrase.Kinds) (e : Expr)
    (s' : Scope) : Prop :=
  ∀ (c : Cursor) {Q : Expr → Cursor → Prop}, c.kinds = ks ++ us → c.scope = s →
    (∀ c' m, c'.diagnostics = c.diagnostics → c'.kinds = us → c'.scope = s' → us.length ≤ m →
      (chain (binaryLevels (unary nested) (12 - p)) p m e).Gives c' Q) →
    (binaryLevels (unary nested) (13 - p)).Gives c Q

theorem ReadsOperands.reads {p : Nat} {s s' : Scope} {ks us : Phrase.Kinds} {e : Expr}
    (h : ReadsOperands nested p s ks us e s')
    (hend : Phrase.EndsOperation p (us.headD .endOfInput)) :
    (binaryLevels (unary nested) (13 - p)).Reads s ks us e s' := by
  intro c hc hs
  refine h c hc hs fun c' m hclean hc' hs' _ => ?_
  rw [← hc', ← Cursor.kind_eq_headD] at hend
  refine (chain_ends _ (fun op hop => Nat.ne_of_lt (hend.2 op hop)) m e).mono ?_
  rintro e' c'' ⟨rfl, rfl⟩
  exact ⟨rfl, hc', hs'⟩

theorem operation_operands (hn : ReadsAssignments nested n) :
    ∀ {p : Nat} {s s' : Scope} {ks : Phrase.Kinds} {e : Expr}, Phrase.Operation p s ks e s' →
      p ≤ 13 → ks.length ≤ n → ∀ us : Phrase.Kinds,
      Phrase.EndsOperation (p + 1) (us.headD .endOfInput) → ReadsOperands nested p s ks us e s'
  | _, s, s', ks, e, .unary h => by
    intro _ hks us hend c Q hc hs hloop
    obtain ⟨hclean, he, hrest, hscope⟩ := unary_reads hn h hks hend.1 c hc hs
    have hloop := hloop (unary nested c).2 us.length hclean hrest hscope (Nat.le_refl _)
    obtain ⟨-, hsame, hstate⟩ := chain_ends (binaryLevels (unary nested) (12 - 13))
      (c := (unary nested c).2) (p := 13) (fun op _ => Nat.ne_of_lt op.precedence_lt) us.length e
    refine ⟨hclean, ?_⟩
    have hQ := hloop.2
    rw [hsame, hstate, ← he] at hQ
    exact hQ
  | p, s, s', ks, e, .tighter loose h => by
    intro _ hks us hend c Q hc hs hloop
    have htighter := (operation_operands hn h (by omega) hks us (hend.mono (by omega))).reads hend
    obtain ⟨hlevel, hlower⟩ : 13 - p = 12 - p + 1 ∧ 13 - (p + 1) = 12 - p := by omega
    rw [hlower] at htighter
    rw [hlevel]
    unfold binaryLevels
    refine htighter.bind hc hs fun c₁ hclean hc₁ hs₁ => .remaining_bind ?_
    have hstrength : 12 - (12 - p) = p := by omega
    rw [hstrength]
    exact hloop c₁ _ hclean hc₁ hs₁ (Nat.le_of_eq (by rw [hc₁]))
  | p, s, s', _, _, @Phrase.Operation.binary _ _ _ _ ks vs k op _ left right before sign strength
      after typed => by
    intro _ hks us hend c Q hc hs hloop
    have hp : p < 13 := strength ▸ op.precedence_lt
    simp only [List.length_append, List.length_cons] at hks
    simp only [List.append_assoc, List.cons_append] at hc
    have hsign := Phrase.endsOperation_of_operator (p := p + 1) sign (by omega)
    refine operation_operands hn before (by omega) (by omega) (k :: (vs ++ us)) hsign c hc hs
      fun c₁ m hclean hc₁ hs₁ hm => ?_
    simp only [List.length_cons, List.length_append] at hm
    obtain ⟨m, rfl⟩ : ∃ b, m = b + 1 := ⟨m - 1, by omega⟩
    have hright := (operation_operands hn after (by omega) (by omega) us (hend.mono (by omega))).reads
      hend
    have hlower : 13 - (p + 1) = 12 - p := by omega
    rw [hlower] at hright
    unfold chain
    refine .kind_bind ?_
    rw [Cursor.kind_of_kinds hc₁, sign]
    simp only [Option.filter_some, strength, decide_true, if_true]
    refine .span_bind (.advance_bind ?_)
    refine hright.bind (Cursor.kinds_advance hc₁) (by simpa using hs₁) fun c₂ hclean₂ hc₂ hs₂ => ?_
    refine (combined_decides op _ left right).gives_bind ⟨_, typed, rfl⟩ ?_
    refine hloop c₂ m ?_ hc₂ hs₂ (by omega)
    rw [hclean₂, Cursor.advance_diagnostics, hclean]

theorem operation_reads (hn : ReadsAssignments nested n) {s s' : Scope} {ks : Phrase.Kinds}
    {e : Expr} (h : Phrase.Operation 2 s ks e s') (hks : ks.length ≤ n) (us : Phrase.Kinds)
    (hend : Phrase.EndsOperation 2 (us.headD .endOfInput)) :
    (operation nested).Reads s ks us e s' :=
  (operation_operands hn h (by omega) hks us (hend.mono (by omega))).reads hend

theorem assignment_reads (hn : ReadsAssignments nested n) :
    ReadsAssignments (assignment nested) (n + 1) := by
  intro s s' ks e h hks us hend c hc hs
  unfold assignment
  cases h with
  | operation h =>
    refine (operation_reads hn h (by omega) us hend.1).bind hc hs fun c₁ _ hc₁ hs₁ => .kind_bind ?_
    rw [Cursor.kind_eq_headD, hc₁, hend.2]
    exact .pure ⟨rfl, hc₁, hs₁⟩
  | assign left sign place writable right typed fits =>
    rename_i vs k op ty target value
    simp only [List.length_append, List.length_cons] at hks
    simp only [List.append_assoc, List.cons_append] at hc
    have hsign := Phrase.endsOperation_of_assignment sign 2
    refine (operation_reads hn left (by omega) (k :: (vs ++ us)) hsign).bind hc hs
      fun c₁ _ hc₁ hs₁ => .kind_bind ?_
    have hwritable : target.assigned?.filter (·.qualifier.isReadOnly) = none := by
      rw [Option.filter_eq_none_iff]
      intro x hx
      simpa using writable x hx
    rw [Cursor.kind_of_kinds hc₁, sign]
    simp only [place, Bool.not_true, Bool.false_eq_true, if_false, hwritable]
    refine .span_bind (.advance_bind ?_)
    refine (hn right (by omega) us hend).bind (Cursor.kinds_advance hc₁) (by simpa using hs₁)
      fun c₂ _ hc₂ hs₂ => ?_
    exact (assigned_decides op _ target value).gives ⟨ty, typed, fits, rfl⟩ ⟨rfl, hc₂, hs₂⟩

theorem expressionWithin_reads : ∀ depth, ReadsAssignments (expressionWithin depth) depth
  | 0 => fun _ hks => absurd hks (Nat.not_lt_zero _)
  | depth + 1 => assignment_reads (expressionWithin_reads depth)

/-- An expression of the grammar is read as the tree that it has there, without a problem and
    without taking a token behind it. -/
theorem expression_reads {s s' : Scope} {ks : Phrase.Kinds} {e : Expr}
    (h : Phrase.Assignment s ks e s') (us : Phrase.Kinds)
    (hend : Phrase.EndsAssignment (us.headD .endOfInput)) : expression.Reads s ks us e s' := by
  intro c hc hs
  unfold expression
  refine .remaining_bind (expressionWithin_reads _ h ?_ us hend c hc hs)
  rw [hc, List.length_append]
  omega

end Reader

end ShaderExpr
