import ShaderExpr.Proofs.Grammar.Clean
import ShaderExpr.Proofs.Reading.Endings

namespace ShaderExpr

namespace Cursor

theorem advance_rest (c : Cursor) : c.advance.rest <:+ c.rest := by
  unfold advance
  split
  · exact List.suffix_rfl
  · rename_i t rest hrest
    rw [hrest]
    exact List.suffix_cons t rest

/-- Advancing takes a token as long as there is one. -/
theorem advance_lt {c : Cursor} (h : c.kind ≠ .endOfInput) :
    c.advance.rest.length < c.rest.length := by
  obtain ⟨t, hrest, -⟩ := rest_of_kind rfl h
  have hlength := congrArg List.length hrest
  rw [List.length_cons] at hlength
  omega

theorem skipPast_go_suffix (mark : Char) : ∀ (last : Span) (ts : List Token),
    (skipPast.go mark last ts).2 <:+ ts
  | _, [] => List.suffix_rfl
  | last, t :: ts => by
    unfold skipPast.go
    split
    · exact List.suffix_cons t ts
    · exact (skipPast_go_suffix mark t.span ts).trans (List.suffix_cons t ts)

theorem skipPast_rest (c : Cursor) (mark : Char) : (c.skipPast mark).rest <:+ c.rest :=
  skipPast_go_suffix mark c.last c.rest

/-- Skipping takes a token as long as there is one. -/
theorem skipPast_lt {c : Cursor} (mark : Char) (h : c.rest ≠ []) :
    (c.skipPast mark).rest.length < c.rest.length := by
  obtain ⟨t, ts, hrest⟩ := List.exists_cons_of_ne_nil h
  have hle : (c.skipPast mark).rest.length ≤ ts.length := by
    change (skipPast.go mark c.last c.rest).2.length ≤ ts.length
    rw [hrest, skipPast.go]
    split
    · exact Nat.le_refl _
    · exact (skipPast_go_suffix mark t.span ts).length_le
  rw [hrest, List.length_cons]
  omega

theorem kind_of_rest_nil {c : Cursor} (h : c.rest = []) : c.kind = .endOfInput := by
  rw [kind, h]

end Cursor

namespace Reader

variable {α β : Type}

/-- A reader goes forward in the tokens and stays within them: what is left behind a reading is a
    rest of what was left in front of it. -/
def Forward (r : Reader α) : Prop := ∀ c : Cursor, (r c).2.rest <:+ c.rest

/-- A reader takes no token. -/
def Still (r : Reader α) : Prop := ∀ c : Cursor, (r c).2.rest = c.rest

namespace Still

variable {r : Reader α} {f : α → Reader β}

theorem bind (h : r.Still) (hf : ∀ a, (f a).Still) : (r >>= f).Still :=
  fun c => (hf _ _).trans (h c)

theorem ite {b : Prop} [Decidable b] {yes no : Reader α} (hyes : yes.Still) (hno : no.Still) :
    (if b then yes else no).Still := by
  split
  · exact hyes
  · exact hno

end Still

namespace Forward

variable {r : Reader α} {f : α → Reader β}

theorem length_le (h : r.Forward) (c : Cursor) : (r c).2.rest.length ≤ c.rest.length :=
  (h c).length_le

theorem still (h : r.Still) : r.Forward :=
  fun c => h c ▸ List.suffix_rfl

theorem pure (a : α) : (pure a : Reader α).Forward := still fun _ => rfl

theorem bind (h : r.Forward) (hf : ∀ a, (f a).Forward) : (r >>= f).Forward :=
  fun c => (hf _ _).trans (h c)

theorem look_bind (h : r.Still) (hf : ∀ a, (f a).Forward) :
    (r >>= f).Forward :=
  bind (still h) hf

theorem ite {b : Prop} [Decidable b] {yes no : Reader α} (hyes : yes.Forward)
    (hno : no.Forward) : (if b then yes else no).Forward := by
  split
  · exact hyes
  · exact hno

end Forward

theorem forward_advance : advance.Forward := fun c => c.advance_rest

theorem forward_skipPast (mark : Char) : (skipPast mark).Forward := fun c => c.skipPast_rest mark

theorem forward_expectControl (m : Char) (p : Problem) : (expectControl m p).Forward :=
  .look_bind (fun _ => rfl) fun _ => .ite forward_advance
    (.look_bind (fun _ => rfl) fun _ => forward_skipPast m)

theorem forward_memberNames (ty : Ty) : ∀ (bound : Nat) (found : List (String × Ty)),
    (memberNames ty bound found).Forward := by
  intro bound
  induction bound with
  | zero => exact fun found => .pure found
  | succ bound ih =>
    intro found
    unfold memberNames
    refine .look_bind (fun _ => rfl) fun kind => ?_
    split
    · rename_i name
      have hrest (members : List (String × Ty)) : Forward (do
          advance
          if ← isControl ',' then
            advance
            memberNames ty bound members
          else return members) :=
        .bind forward_advance fun _ => .look_bind (fun _ => rfl) fun _ =>
          .ite (.bind forward_advance fun _ => ih members) (.pure members)
      exact .ite (.look_bind (fun _ => rfl) fun _ => hrest _) (hrest _)
    · exact .look_bind (fun _ => rfl) fun _ => .pure found

theorem forward_typeWith {definition : Reader (Option Ty)} (hdef : definition.Forward) :
    (typeWith definition).Forward :=
  .look_bind (fun _ => rfl) fun _ => .ite hdef (.look_bind (fun _ => rfl) fun _ =>
    .ite (.bind forward_advance fun _ => .pure _) (.pure _))

theorem forward_members {definition : Reader (Option Ty)} (hdef : definition.Forward) :
    ∀ (bound : Nat) (found : List (String × Ty)), (members definition bound found).Forward := by
  intro bound
  induction bound with
  | zero => exact fun found => .pure found
  | succ bound ih =>
    intro found
    unfold members
    refine .look_bind (fun _ => rfl) fun _ => .look_bind (fun _ => rfl) fun _ => .ite (.pure found)
      (.bind (forward_typeWith hdef) fun ty? => ?_)
    cases ty? with
    | none => exact .look_bind (fun _ => rfl) fun _ => .bind (forward_skipPast _) fun _ => ih found
    | some ty =>
      have hrest : Forward (do
          let found ← memberNames ty ((← remaining) + 1) found
          expectControl ';' .expectedMemberEnd
          members definition bound found) :=
        .look_bind (fun _ => rfl) fun _ => .bind (forward_memberNames ty _ found) fun found =>
          .bind (forward_expectControl _ _) fun _ => ih found
      exact .ite (.look_bind (fun _ => rfl) fun _ => hrest) hrest

theorem still_defineStruct (name : String) (span : Span) (ty : Ty) :
    (defineStruct name span ty).Still := by
  intro c
  cases hadd : c.scope.addType? name ty with
  | none =>
    rw [defineStruct_of_taken hadd]
    rfl
  | some s => rw [defineStruct_of_free hadd]

/-- What is behind the keyword and the name of a struct. -/
theorem forward_braces {definition : Reader (Option Ty)} (hdef : definition.Forward)
    (name : Option String) (define : List (String × Ty) → Reader Unit)
    (hdefine : ∀ found, (define found).Forward) : Forward (do
      if ← isControl '{' then
        advance
        let found ← members definition (← remaining) []
        expectControl '}' .expectedStructEnd
        define found
        return some (Ty.struct name found)
      else
        report .expectedStructBody
        return none) := by
  refine .look_bind (fun _ => rfl) fun _ => .ite (.bind forward_advance fun _ => ?_)
    (.look_bind (fun _ => rfl) fun _ => .pure none)
  refine .look_bind (fun _ => rfl) fun _ => .bind (forward_members hdef _ []) fun found => ?_
  exact .bind (forward_expectControl _ _) fun _ => .bind (hdefine found) fun _ => .pure _

/-- What is behind the keyword of a struct, with `definition` for the structs among its members. -/
def structBody (definition : Reader (Option Ty)) : Reader (Option Ty) := do
  let nameSpan ← span
  let name ← match ← kind with
    | .ident name => do
      advance
      pure (some name)
    | _ => pure none
  if ← isControl '{' then
    advance
    let found ← members definition (← remaining) []
    expectControl '}' .expectedStructEnd
    let ty := Ty.struct name found
    if let some name := name then defineStruct name nameSpan ty
    return some ty
  else
    report .expectedStructBody
    return none

theorem structDefinition_succ (depth : Nat) : structDefinition (depth + 1) =
    advance >>= fun _ => structBody (structDefinition depth) := rfl

theorem forward_structBody {definition : Reader (Option Ty)} (hdef : definition.Forward) :
    (structBody definition).Forward := by
  unfold structBody
  refine .look_bind (fun _ => rfl) fun span => .look_bind (fun _ => rfl) fun kind => ?_
  cases kind with
  | ident name =>
    have hdefine (found : List (String × Ty)) :
        (defineStruct name span (.struct (some name) found)).Forward :=
      .still (still_defineStruct name span _)
    exact .bind forward_advance fun _ => forward_braces hdef (some name) _ hdefine
  | _ => exact forward_braces hdef none (fun _ => pure ()) fun _ => .pure ()

theorem forward_structDefinition : ∀ depth : Nat, (structDefinition depth).Forward := by
  intro depth
  induction depth with
  | zero => exact .pure none
  | succ depth ih =>
    rw [structDefinition_succ]
    exact .bind forward_advance fun _ => forward_structBody ih

theorem forward_definition : definition.Forward :=
  .look_bind (fun _ => rfl) fun _ => forward_structDefinition _

theorem forward_type : type.Forward := forward_typeWith forward_definition

theorem still_reported {p : Problem} {span : Span} {e : Expr} :
    (do reportAt span p; return e : Reader Expr).Forward :=
  .look_bind (fun _ => rfl) fun _ => .pure e

theorem forward_fieldOf (base : Expr) (name : String) (span : Span) :
    (fieldOf base name span).Forward := by
  have hswizzle : (swizzle base name span).Forward := by
    unfold swizzle
    split
    · exact still_reported
    · exact .ite (.look_bind (fun _ => rfl) fun _ => .pure _) (.pure _)
  unfold fieldOf
  split
  · exact hswizzle
  · exact hswizzle
  · split
    · exact .pure _
    · exact still_reported
  · exact still_reported

theorem forward_field (base : Expr) : (field base).Forward := by
  unfold field
  refine .look_bind (fun _ => rfl) fun kind => ?_
  split
  · refine .look_bind (fun _ => rfl) fun span => .bind forward_advance fun _ =>
      .look_bind (fun _ => rfl) fun _ => .ite ?_ (forward_fieldOf base _ span)
    exact .look_bind (fun _ => rfl) fun _ => .bind (forward_skipPast _) fun _ => .pure _
  · exact .look_bind (fun _ => rfl) fun _ => .pure base

theorem forward_postfixes : ∀ (bound : Nat) (e : Expr), (postfixes bound e).Forward := by
  intro bound
  induction bound with
  | zero => exact fun e => .pure e
  | succ bound ih =>
    intro e
    unfold postfixes
    refine .look_bind (fun _ => rfl) fun kind => ?_
    split
    · exact .bind forward_advance fun _ => .bind (forward_field e) fun e => ih e
    · exact .look_bind (fun _ => rfl) fun _ => .bind (forward_skipPast _) fun _ => ih e
    · exact .look_bind (fun _ => rfl) fun _ => .look_bind (fun _ => rfl) fun _ =>
        .bind forward_advance fun _ => ih e
    · exact .look_bind (fun _ => rfl) fun _ => .look_bind (fun _ => rfl) fun _ =>
        .bind forward_advance fun _ => ih e
    · exact .pure e

variable {nested : Reader Expr}

theorem still_takeComponents (ty : Ty) (span : Span) (argument : Expr) (missing : Int)
    (arguments : List Expr) : (takeComponents ty span argument missing arguments).Forward := by
  unfold takeComponents
  refine .ite (.look_bind (fun _ => rfl) fun _ => .pure _) ?_
  refine .ite (.look_bind (fun _ => rfl) fun _ => .pure _) ?_
  exact .ite (.ite (.pure _) (.look_bind (fun _ => rfl) fun _ => .pure _)) (.pure _)

theorem forward_componentArguments (hn : nested.Forward) (ty : Ty) :
    ∀ (bound : Nat) (missing : Int) (arguments : List Expr),
      (componentArguments nested ty bound missing arguments).Forward := by
  intro bound
  induction bound with
  | zero => exact fun missing arguments => .pure _
  | succ bound ih =>
    intro missing arguments
    unfold componentArguments
    refine .look_bind (fun _ => rfl) fun span => .bind hn fun argument =>
      .bind (still_takeComponents ty span argument missing arguments) fun taken => ?_
    exact .look_bind (fun _ => rfl) fun _ => .ite (.bind forward_advance fun _ => ih _ _) (.pure _)

theorem forward_constructionEnd (ty : Ty) (opening : Span) (problems : Nat)
    (taken : Int × List Expr) : (constructionEnd ty opening problems taken).Forward := by
  have hend : Forward (do
      if problems < (← problemCount) then return .placeholder
      else return .construct ty taken.2 : Reader Expr) :=
    .look_bind (fun _ => rfl) fun _ => .ite (.pure _) (.pure _)
  unfold constructionEnd
  refine .bind (forward_expectControl _ _) fun _ => .ite ?_ hend
  exact .look_bind (fun _ => rfl) fun _ => .look_bind (fun _ => rfl) fun _ => hend

theorem forward_construction (hn : nested.Forward) (ty : Ty) : (construction nested ty).Forward := by
  rw [construction_eq]
  refine .look_bind (fun _ => rfl) fun _ => .ite ?_ (.look_bind (fun _ => rfl) fun _ => .pure _)
  refine .look_bind (fun _ => rfl) fun opening => .bind forward_advance fun _ =>
    .look_bind (fun _ => rfl) fun problems => .look_bind (fun _ => rfl) fun _ => ?_
  refine .ite (forward_constructionEnd _ _ _ _) (.look_bind (fun _ => rfl) fun _ => ?_)
  exact .bind (forward_componentArguments hn ty _ _ _) fun taken => forward_constructionEnd _ _ _ _

theorem forward_callArguments (hn : nested.Forward) :
    ∀ (bound : Nat) (candidates : Candidates) (arguments : List Expr),
      (callArguments nested bound candidates arguments).Forward := by
  intro bound
  induction bound with
  | zero => exact fun candidates arguments => .pure _
  | succ bound ih =>
    intro candidates arguments
    unfold callArguments
    refine .look_bind (fun _ => rfl) fun span => .bind hn fun argument => ?_
    have hrest (narrowed : Candidates) (arguments : List Expr) : Forward (do
        if ← isControl ',' then
          advance
          callArguments nested bound narrowed arguments
        else return (narrowed, arguments)) :=
      .look_bind (fun _ => rfl) fun _ => .ite (.bind forward_advance fun _ => ih _ _) (.pure _)
    exact .ite (.look_bind (fun _ => rfl) fun _ => hrest _ _) (hrest _ _)

theorem forward_callEnd (nameSpan : Span) (problems : Nat) (taken : Candidates × List Expr) :
    (callEnd nameSpan problems taken).Forward := by
  unfold callEnd
  refine .bind (forward_expectControl _ _) fun _ => .look_bind (fun _ => rfl) fun _ => ?_
  refine .ite (.pure _) (.ite still_reported ?_)
  split
  · exact .pure _
  · exact still_reported

theorem forward_call (hn : nested.Forward) (candidates : Candidates) (nameSpan : Span) :
    (call nested candidates nameSpan).Forward := by
  rw [call_eq]
  refine .look_bind (fun _ => rfl) fun _ => .ite (.bind forward_advance fun _ => ?_)
    (.look_bind (fun _ => rfl) fun _ => .pure _)
  refine .look_bind (fun _ => rfl) fun problems => .look_bind (fun _ => rfl) fun _ => ?_
  refine .ite (forward_callEnd _ _ _) (.look_bind (fun _ => rfl) fun _ => ?_)
  exact .bind (forward_callArguments hn _ _ _) fun taken => forward_callEnd _ _ _

theorem forward_constructorCall (hn : nested.Forward) (ty : Ty) (nameSpan : Span) :
    (constructorCall nested ty nameSpan).Forward :=
  .ite (forward_call hn _ _) (forward_construction hn ty)

theorem forward_named (hn : nested.Forward) (name : String) (nameSpan : Span) :
    (named nested name nameSpan).Forward := by
  unfold named
  refine .look_bind (fun _ => rfl) fun s => ?_
  split
  · exact forward_constructorCall hn _ nameSpan
  · refine .ite (forward_call hn _ nameSpan) ?_
    split
    · exact .pure _
    · refine .look_bind (fun _ => rfl) fun _ => .ite ?_ still_reported
      exact .look_bind (fun _ => rfl) fun _ => .bind (forward_skipPast _) fun _ => .pure _

theorem forward_primary (hn : nested.Forward) : (primary nested).Forward := by
  unfold primary
  refine .look_bind (fun _ => rfl) fun span => .look_bind (fun _ => rfl) fun kind => ?_
  split
  · exact .bind forward_advance fun _ => forward_named hn _ span
  · exact .bind forward_advance fun _ => .pure _
  · exact .bind forward_advance fun _ => .bind hn fun e =>
      .bind (forward_expectControl _ _) fun _ => .pure e
  · refine .ite (.bind forward_definition fun ty? => ?_) ?_
    · cases ty? with
      | none => exact .pure _
      | some ty => exact forward_constructorCall hn ty span
    · split
      · exact .bind forward_advance fun _ => forward_constructorCall hn _ span
      · exact .look_bind (fun _ => rfl) fun _ => .bind forward_advance fun _ => .pure _
  · exact .look_bind (fun _ => rfl) fun _ => .bind forward_advance fun _ => .pure _

theorem forward_postfixed (hn : nested.Forward) : (postfixed nested).Forward :=
  .bind (forward_primary hn) fun e => .look_bind (fun _ => rfl) fun _ => forward_postfixes _ e

theorem forward_negated (e : Expr) (signSpan : Span) : (negated e signSpan).Forward :=
  .ite still_reported (.ite still_reported (.pure _))

theorem forward_signed (hn : nested.Forward) : ∀ bound : Nat, (signed nested bound).Forward := by
  intro bound
  induction bound with
  | zero => exact forward_postfixed hn
  | succ bound ih =>
    unfold signed
    refine .look_bind (fun _ => rfl) fun kind => ?_
    split
    · exact .bind forward_advance fun _ => ih
    · exact .look_bind (fun _ => rfl) fun span => .bind forward_advance fun _ =>
        .bind ih fun e => forward_negated e span
    all_goals first
      | exact .look_bind (fun _ => rfl) fun _ => .look_bind (fun _ => rfl) fun _ =>
          .bind forward_advance fun _ => ih
      | exact forward_postfixed hn

theorem forward_unary (hn : nested.Forward) : (unary nested).Forward :=
  .look_bind (fun _ => rfl) fun _ => forward_signed hn _

theorem still_combined (op : Operator) (span : Span) (left right : Expr) :
    (combined op span left right).Forward := by
  unfold combined
  split
  · exact .pure _
  · exact still_reported

theorem forward_chain {operand : Reader Expr} (ho : operand.Forward) (precedence : Nat) :
    ∀ (bound : Nat) (left : Expr), (chain operand precedence bound left).Forward := by
  intro bound
  induction bound with
  | zero => exact fun left => .pure left
  | succ bound ih =>
    intro left
    unfold chain
    refine .look_bind (fun _ => rfl) fun kind => ?_
    split
    · exact .look_bind (fun _ => rfl) fun span => .bind forward_advance fun _ =>
        .bind ho fun right => .bind (still_combined _ span left right) fun left => ih left
    · exact .pure left

theorem forward_binaryLevels {operand : Reader Expr} (ho : operand.Forward) :
    ∀ levels : Nat, (binaryLevels operand levels).Forward := by
  intro levels
  induction levels with
  | zero => exact ho
  | succ level ih =>
    exact .bind ih fun left => .look_bind (fun _ => rfl) fun _ => forward_chain ih _ _ left

theorem forward_operation (hn : nested.Forward) : (operation nested).Forward :=
  forward_binaryLevels (forward_unary hn) 11

theorem still_assigned (op : Option Operator) (span : Span) (target value : Expr) :
    (assigned op span target value).Forward := by
  unfold assigned
  split
  · exact still_reported
  · exact .ite (.pure _) still_reported

theorem forward_assignment (hn : nested.Forward) : (assignment nested).Forward := by
  unfold assignment
  refine .bind (forward_operation hn) fun target => .look_bind (fun _ => rfl) fun kind => ?_
  split
  · exact .pure target
  · refine .ite (.look_bind (fun _ => rfl) fun _ => .bind forward_advance fun _ => hn) ?_
    split
    · exact .look_bind (fun _ => rfl) fun _ => .bind forward_advance fun _ =>
        .bind hn fun _ => .pure target
    · exact .look_bind (fun _ => rfl) fun span => .bind forward_advance fun _ =>
        .bind hn fun value => still_assigned _ span target value

theorem forward_expressionWithin : ∀ depth : Nat, (expressionWithin depth).Forward := by
  intro depth
  induction depth with
  | zero => exact .look_bind (fun _ => rfl) fun _ => .pure _
  | succ depth ih => exact forward_assignment ih

theorem forward_expression : expression.Forward :=
  .look_bind (fun _ => rfl) fun _ => forward_expressionWithin _

end Reader

end ShaderExpr
