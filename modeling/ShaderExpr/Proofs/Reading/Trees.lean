import ShaderExpr.Proofs.Reading.Building

namespace ShaderExpr

namespace Expr

variable {xs : List Variable}

theorem wellTyped_placeholder : placeholder.WellTyped xs := .node rfl (by simp [parts, placeholder])

theorem WellTyped.swizzle {base : Expr} (h : base.WellTyped xs)
    (shape : (∃ s, base.ty = .scalar s) ∨ ∃ s n, base.ty = .vector s n) (letters : Letters)
    {indexes : List Nat} (some : indexes ≠ []) (inside : ∀ i ∈ indexes, i < max base.ty.length 1) :
    (swizzle base letters (indexes.take 4)).WellTyped xs := by
  refine .node ⟨shape, ?_, ?_, fun i hi => inside i (List.mem_of_mem_take hi)⟩
    (by simpa [parts] using h)
  · have hlength := List.length_pos_iff.mpr some
    rw [List.length_take]
    omega
  · rw [List.length_take]
    omega

end Expr

open ShaderExpr.Expr (WellTyped wellTyped_placeholder)

namespace Reader

variable {xs : List Variable}

/-- Reading gives well-typed trees. A level of the grammar keeps this of its operands, given that
    nested expressions are read so, and puts the placeholder where a check failed. -/
abbrev BuildsTree (xs : List Variable) (r : Reader Expr) : Prop := Builds xs r (WellTyped xs)

/-- A problem, and the placeholder for what could not be read. -/
theorem reportAt_placeholder (span : Span) (p : Problem) :
    BuildsTree xs (do reportAt span p; return .placeholder) :=
  .quiet_bind (fun _ => rfl) fun _ => .pure wellTyped_placeholder

theorem report_placeholder (p : Problem) : BuildsTree xs (do report p; return .placeholder) :=
  .quiet_bind (fun _ => rfl) fun _ => .pure wellTyped_placeholder

variable {base : Expr}

theorem swizzle_builds (hbase : base.WellTyped xs)
    (shape : (∃ s, base.ty = .scalar s) ∨ ∃ s n, base.ty = .vector s n) (name : String)
    (span : Span) : BuildsTree xs (swizzle base name span) := by
  unfold swizzle
  cases hselection : selection base.ty name with
  | error problem => exact reportAt_placeholder span problem
  | ok selected =>
    obtain ⟨letters, indexes⟩ := selected
    obtain ⟨-, hsome, hinside⟩ := selection_eq_ok_iff.mp hselection
    have htree := hbase.swizzle shape letters hsome hinside
    exact .ite (fun _ => .quiet_bind (fun _ => rfl) fun _ => .pure htree) fun _ => .pure htree

theorem fieldOf_builds (hbase : base.WellTyped xs) (name : String) (span : Span) :
    BuildsTree xs (fieldOf base name span) := by
  unfold fieldOf
  split
  · rename_i s hty
    exact swizzle_builds hbase (.inl ⟨s, hty⟩) name span
  · rename_i s n hty
    exact swizzle_builds hbase (.inr ⟨s, n, hty⟩) name span
  · split
    · rename_i index hindex
      obtain ⟨hlt, -⟩ := List.findIdx?_eq_some_iff_getElem.mp hindex
      exact .pure (.node hlt (by simpa [Expr.parts] using hbase))
    · exact reportAt_placeholder span _
  · exact reportAt_placeholder span _

theorem field_builds (hbase : base.WellTyped xs) : BuildsTree xs (field base) := by
  unfold field
  refine .look_bind (fun _ => rfl) fun kind => ?_
  split
  · refine .look_bind (fun _ => rfl) fun span => .advance_bind ?_
    refine .look_bind (fun _ => rfl) fun opening => .ite (fun _ => ?_)
      fun _ => fieldOf_builds hbase _ span
    exact .quiet_bind (fun _ => rfl) fun _ => .quiet_bind (fun _ => rfl) fun _ =>
      .pure wellTyped_placeholder
  · exact .quiet_bind (fun _ => rfl) fun _ => .pure hbase

theorem postfixes_builds : ∀ (bound : Nat) {e : Expr}, e.WellTyped xs →
    BuildsTree xs (postfixes bound e) := by
  intro bound
  induction bound with
  | zero => exact fun h => .pure h
  | succ bound ih =>
    intro e h
    unfold postfixes
    refine .look_bind (fun _ => rfl) fun kind => ?_
    split
    · exact .advance_bind ((field_builds h).bind fun _ => ih)
    · exact .quiet_bind (fun _ => rfl) fun _ => .quiet_bind (fun _ => rfl) fun _ => ih h
    · exact .look_bind (fun _ => rfl) fun _ => .quiet_bind (fun _ => rfl) fun _ =>
        .advance_bind (ih h)
    · exact .look_bind (fun _ => rfl) fun _ => .quiet_bind (fun _ => rfl) fun _ =>
        .advance_bind (ih h)
    · exact .pure h

variable {nested : Reader Expr}

/-- Arguments that a constructor of a basic type takes. -/
def Components (xs : List Variable) (arguments : List Expr) : Prop :=
  ∀ e ∈ arguments, e.WellTyped xs ∧ e.ty.isBasic

theorem Components.append {arguments : List Expr} (h : Components xs arguments) {argument : Expr}
    (tree : argument.WellTyped xs) (basic : argument.ty.isBasic) :
    Components xs (arguments ++ [argument]) := by
  intro e he
  rcases List.mem_append.mp he with he | he
  · exact h e he
  · obtain rfl := List.mem_singleton.mp he
    exact ⟨tree, basic⟩

theorem takeComponents_builds (ty : Ty) (span : Span) {argument : Expr}
    (tree : argument.WellTyped xs) (missing : Int) {arguments : List Expr}
    (h : Components xs arguments) :
    Builds xs (takeComponents ty span argument missing arguments) fun taken =>
      Components xs taken.2 := by
  unfold takeComponents
  refine .ite (fun _ => .quiet_bind (fun _ => rfl) fun _ => .pure h) fun _ => ?_
  refine .ite (fun _ => .quiet_bind (fun _ => rfl) fun _ => .pure h) fun hbasic => ?_
  have hbasic : argument.ty.isBasic := by simpa using hbasic
  have happend := h.append tree hbasic
  refine .ite (fun _ => .ite (fun _ => .pure ?_) fun _ => ?_) fun _ => .pure happend
  · simpa [Components] using ⟨tree, hbasic⟩
  · exact .quiet_bind (fun _ => rfl) fun _ => .pure happend

theorem componentArguments_builds (hn : BuildsTree xs nested) (ty : Ty) :
    ∀ (bound : Nat) (missing : Int) {arguments : List Expr}, Components xs arguments →
      Builds xs (componentArguments nested ty bound missing arguments) fun taken =>
        Components xs taken.2 := by
  intro bound
  induction bound with
  | zero => exact fun missing _ h => .pure h
  | succ bound ih =>
    intro missing arguments h
    unfold componentArguments
    refine .look_bind (fun _ => rfl) fun span => hn.bind fun argument tree => ?_
    refine (takeComponents_builds ty span tree missing h).bind fun taken htaken => ?_
    obtain ⟨missing, arguments⟩ := taken
    refine .look_bind (fun _ => rfl) fun comma => .ite (fun _ => ?_) fun _ => .pure htaken
    exact .advance_bind (ih missing htaken)

theorem constructionEnd_builds {ty : Ty} (basic : ty.isBasic) (opening : Span) (problems : Nat)
    {taken : Int × List Expr} (htaken : Components xs taken.2) :
    BuildsTree xs (constructionEnd ty opening problems taken) := by
  have hend : BuildsTree xs (do
      if problems < (← problemCount) then return .placeholder
      else return .construct ty taken.2) := by
    refine .look_bind (fun _ => rfl) fun _ => .ite (fun _ => .pure wellTyped_placeholder)
      fun _ => .pure (.node ⟨basic, fun e he => (htaken e he).2⟩ fun e he => (htaken e he).1)
  unfold constructionEnd
  refine .quiet_bind (quiet_expectControl _ _) fun _ => .ite (fun _ => ?_) fun _ => hend
  exact .look_bind (fun _ => rfl) fun _ => .quiet_bind (fun _ => rfl) fun _ => hend

theorem construction_builds (hn : BuildsTree xs nested) {ty : Ty} (basic : ty.isBasic) :
    BuildsTree xs (construction nested ty) := by
  rw [construction_eq]
  refine .look_bind (fun _ => rfl) fun _ => .ite (fun _ => ?_) fun _ => report_placeholder _
  refine .look_bind (fun _ => rfl) fun opening => .advance_bind ?_
  refine .look_bind (fun _ => rfl) fun problems => .look_bind (fun _ => rfl) fun _ => ?_
  refine .ite (fun _ => ?_) fun _ => .look_bind (fun _ => rfl) fun _ => ?_
  · exact constructionEnd_builds basic opening problems (by simp [Components])
  · exact (componentArguments_builds hn ty _ _ (by simp [Components])).bind
      fun taken htaken => constructionEnd_builds basic opening problems htaken

/-- Arguments read so far, and candidates that accept them. -/
def Narrowed (xs : List Variable) (functions : List Function)
    (taken : Candidates × List Expr) : Prop :=
  taken.1.Accepting functions (taken.2.map Expr.ty) ∧ ∀ e ∈ taken.2, e.WellTyped xs

theorem Narrowed.take {functions : List Function} {candidates : Candidates}
    {arguments : List Expr} (h : Narrowed xs functions (candidates, arguments)) {argument : Expr}
    (tree : argument.WellTyped xs) :
    Narrowed xs functions
      (candidates.takeArgument arguments.length argument.ty, arguments ++ [argument]) := by
  obtain ⟨haccepting, htrees⟩ := h
  constructor
  · have hnext := haccepting.takeArgument argument.ty
    rw [List.length_map] at hnext
    rw [List.map_append]
    exact hnext
  · intro e he
    rcases List.mem_append.mp he with he | he
    · exact htrees e he
    · rw [List.mem_singleton.mp he]
      exact tree

theorem callArguments_builds (hn : BuildsTree xs nested) {functions : List Function} :
    ∀ (bound : Nat) {candidates : Candidates} {arguments : List Expr},
      Narrowed xs functions (candidates, arguments) →
      Builds xs (callArguments nested bound candidates arguments) (Narrowed xs functions) := by
  intro bound
  induction bound with
  | zero => exact fun h => .pure h
  | succ bound ih =>
    intro candidates arguments h
    unfold callArguments
    refine .look_bind (fun _ => rfl) fun span => hn.bind fun argument tree => ?_
    have htaken := h.take tree
    have hrest : Builds xs (do
        if ← isControl ',' then
          advance
          callArguments nested bound
            (candidates.takeArgument arguments.length argument.ty) (arguments ++ [argument])
        else return (candidates.takeArgument arguments.length argument.ty,
          arguments ++ [argument])) (Narrowed xs functions) :=
      .look_bind (fun _ => rfl) fun comma => .ite (fun _ => .advance_bind (ih htaken))
        fun _ => .pure htaken
    exact .ite (fun _ => .quiet_bind (fun _ => rfl) fun _ => hrest) fun _ => hrest

theorem callEnd_builds {functions : List Function} (callable : ∀ f ∈ functions, f.IsCallable)
    (nameSpan : Span) (problems : Nat) {taken : Candidates × List Expr}
    (htaken : Narrowed xs functions taken) : BuildsTree xs (callEnd nameSpan problems taken) := by
  obtain ⟨haccepting, htrees⟩ := htaken
  unfold callEnd
  refine .quiet_bind (quiet_expectControl _ _) fun _ => .look_bind (fun _ => rfl) fun _ => ?_
  refine .ite (fun _ => .pure wellTyped_placeholder) fun _ => ?_
  refine .ite (fun _ => reportAt_placeholder _ _) fun _ => ?_
  cases hchoice : (taken.1.takeCount taken.2.length).choice? with
  | none => exact reportAt_placeholder _ _
  | some f =>
    obtain ⟨hmem, haccepts⟩ := haccepting.of_choice? (by rw [List.length_map]; exact hchoice)
    exact .pure (.node ⟨callable f hmem, haccepts⟩ htrees)

theorem call_builds (hn : BuildsTree xs nested) {functions : List Function}
    (callable : ∀ f ∈ functions, f.IsCallable) (nameSpan : Span) :
    BuildsTree xs (call nested (.ofFunctions functions) nameSpan) := by
  have hnone : Narrowed xs functions (.ofFunctions functions, []) :=
    ⟨.ofFunctions functions, by simp⟩
  rw [call_eq]
  refine .look_bind (fun _ => rfl) fun _ => .ite (fun _ => .advance_bind ?_)
    fun _ => report_placeholder _
  refine .look_bind (fun _ => rfl) fun problems => .look_bind (fun _ => rfl) fun _ => ?_
  refine .ite (fun _ => ?_) fun _ => .look_bind (fun _ => rfl) fun _ => ?_
  · exact callEnd_builds callable nameSpan problems hnone
  · exact (callArguments_builds hn _ hnone).bind
      fun taken htaken => callEnd_builds callable nameSpan problems htaken

/-- Types of constructors that can stand in an expression. -/
theorem constructorCall_builds (hn : BuildsTree xs nested) {ty : Ty}
    (makes : ty.isBasic ∨ ty.isStruct) (nameSpan : Span) :
    BuildsTree xs (constructorCall nested ty nameSpan) := by
  unfold constructorCall
  refine .ite (fun hstruct => ?_) fun hstruct => ?_
  · exact call_builds hn (by simpa [Function.IsCallable] using hstruct) nameSpan
  · exact construction_builds hn (makes.resolve_right hstruct)

theorem named_builds (hn : BuildsTree xs nested) (name : String) (nameSpan : Span) :
    BuildsTree xs (named nested name nameSpan) := by
  unfold named
  refine .scope_bind fun s hnamed hxs => ?_
  split
  · rename_i ty hty
    obtain ⟨members, rfl⟩ := hnamed.struct hty
    exact constructorCall_builds hn (.inr rfl) nameSpan
  · refine .ite (fun _ => call_builds hn (fun f hf => ?_) nameSpan) fun _ => ?_
    · obtain ⟨g, rfl, -, hg⟩ := Scope.builtin_of_mem_functions hf
      exact hg
    · split
      · rename_i x hx
        have hdeclared : x ∈ xs := hxs ▸ List.mem_of_find?_eq_some hx
        exact .pure (.node hdeclared (by simp [Expr.parts]))
      · refine .look_bind (fun _ => rfl) fun _ => .ite (fun _ => ?_) fun _ => ?_
        · exact .quiet_bind (fun _ => rfl) fun _ => .quiet_bind (fun _ => rfl) fun _ =>
            .pure wellTyped_placeholder
        · exact reportAt_placeholder nameSpan _

theorem primary_builds (hn : BuildsTree xs nested) : BuildsTree xs (primary nested) := by
  unfold primary
  refine .look_bind (fun _ => rfl) fun span => .look_bind (fun _ => rfl) fun kind => ?_
  split
  · exact .advance_bind (named_builds hn _ span)
  · exact .advance_bind (.pure (.node rfl (by simp [Expr.parts])))
  · refine .advance_bind (hn.bind fun e he => ?_)
    exact .quiet_bind (quiet_expectControl _ _) fun _ => .pure he
  · refine .ite (fun _ => definition_builds.bind fun ty? hty => ?_) fun _ => ?_
    · cases ty? with
      | none => exact .pure wellTyped_placeholder
      | some ty => exact constructorCall_builds hn (.inr (hty ty rfl)) span
    · split
      · rename_i ty hty
        exact .advance_bind
          (constructorCall_builds hn (.inl (Option.mem_filter_iff.mp hty).2) span)
      · exact .quiet_bind (fun _ => rfl) fun _ => .advance_bind (.pure wellTyped_placeholder)
  · exact .quiet_bind (fun _ => rfl) fun _ => .advance_bind (.pure wellTyped_placeholder)

theorem negated_builds {e : Expr} (h : e.WellTyped xs) (signSpan : Span) :
    BuildsTree xs (negated e signSpan) := by
  unfold negated
  refine .ite (fun _ => reportAt_placeholder _ _) fun hbasic => ?_
  refine .ite (fun _ => reportAt_placeholder _ _) fun hnumber => ?_
  exact .pure (.node ⟨by simpa using hbasic, by simpa using hnumber⟩ (by simpa [Expr.parts] using h))

theorem postfixed_builds (hn : BuildsTree xs nested) : BuildsTree xs (postfixed nested) :=
  (primary_builds hn).bind fun _ he => .look_bind (fun _ => rfl) fun _ => postfixes_builds _ he

theorem signed_builds (hn : BuildsTree xs nested) : ∀ bound : Nat,
    BuildsTree xs (signed nested bound) := by
  intro bound
  induction bound with
  | zero => exact postfixed_builds hn
  | succ bound ih =>
    unfold signed
    refine .look_bind (fun _ => rfl) fun kind => ?_
    split
    · exact .advance_bind ih
    · exact .look_bind (fun _ => rfl) fun span => .advance_bind (ih.bind fun e he =>
        negated_builds he span)
    all_goals first
      | exact .look_bind (fun _ => rfl) fun _ => .quiet_bind (fun _ => rfl) fun _ =>
          .advance_bind ih
      | exact postfixed_builds hn

theorem unary_builds (hn : BuildsTree xs nested) : BuildsTree xs (unary nested) :=
  .look_bind (fun _ => rfl) fun _ => signed_builds hn _

theorem combined_builds (op : Operator) (span : Span) {left right : Expr}
    (hleft : left.WellTyped xs) (hright : right.WellTyped xs) :
    BuildsTree xs (combined op span left right) := by
  unfold combined
  cases htyped : op.resultType left.ty right.ty with
  | ok ty => exact .pure (.node htyped (by simp [Expr.parts, hleft, hright]))
  | error e => exact .quiet_bind (fun _ => rfl) fun _ => .pure hleft

theorem chain_builds {operand : Reader Expr} (ho : BuildsTree xs operand) (precedence : Nat) :
    ∀ (bound : Nat) {left : Expr}, left.WellTyped xs →
      BuildsTree xs (chain operand precedence bound left) := by
  intro bound
  induction bound with
  | zero => exact fun h => .pure h
  | succ bound ih =>
    intro left hleft
    unfold chain
    refine .look_bind (fun _ => rfl) fun kind => ?_
    split
    · refine .look_bind (fun _ => rfl) fun span => .advance_bind (ho.bind fun right hright => ?_)
      exact (combined_builds _ span hleft hright).bind fun _ => ih
    · exact .pure hleft

theorem binaryLevels_builds {operand : Reader Expr} (ho : BuildsTree xs operand) :
    ∀ levels : Nat, BuildsTree xs (binaryLevels operand levels) := by
  intro levels
  induction levels with
  | zero => exact ho
  | succ level ih =>
    exact ih.bind fun _ hleft => .look_bind (fun _ => rfl) fun _ => chain_builds ih _ _ hleft

theorem operation_builds (hn : BuildsTree xs nested) : BuildsTree xs (operation nested) :=
  binaryLevels_builds (unary_builds hn) 11

theorem assigned_builds (op : Option Operator) (span : Span) {target value : Expr}
    (htarget : target.WellTyped xs) (hvalue : value.WellTyped xs) (place : target.isAssignable)
    (writable : ∀ x, target.assigned? = some x → x.qualifier.isReadOnly = false) :
    BuildsTree xs (assigned op span target value) := by
  unfold assigned
  cases htyped : assignedType op target.ty value.ty with
  | error e => exact .quiet_bind (fun _ => rfl) fun _ => .pure htarget
  | ok ty =>
    refine .ite (fun hfits => .pure ?_) fun _ => .quiet_bind (fun _ => rfl) fun _ => .pure htarget
    exact .node ⟨place, writable, htyped, hfits⟩ (by simp [Expr.parts, htarget, hvalue])

theorem assignment_builds (hn : BuildsTree xs nested) : BuildsTree xs (assignment nested) := by
  unfold assignment
  refine (operation_builds hn).bind fun target htarget => .look_bind (fun _ => rfl) fun kind => ?_
  split
  · exact .pure htarget
  · refine .ite (fun _ => .quiet_bind (fun _ => rfl) fun _ => .advance_bind hn) fun hplace => ?_
    split
    · exact .quiet_bind (fun _ => rfl) fun _ => .advance_bind (hn.bind fun _ _ => .pure htarget)
    · rename_i hwritable
      refine .look_bind (fun _ => rfl) fun span => .advance_bind (hn.bind fun value hvalue => ?_)
      refine assigned_builds _ span htarget hvalue (by simpa using hplace) fun x hx => ?_
      simpa [hx] using hwritable

theorem expressionWithin_builds : ∀ depth : Nat, BuildsTree xs (expressionWithin depth) := by
  intro depth
  induction depth with
  | zero => exact report_placeholder _
  | succ depth ih => exact assignment_builds ih

/-- Every expression that is read is well typed over the variables of the scope. -/
theorem expression_builds : BuildsTree xs expression :=
  .look_bind (fun _ => rfl) fun _ => expressionWithin_builds _

end Reader

end ShaderExpr
