import ShaderExpr.Proofs.Reading.Forward

namespace ShaderExpr.Reader

variable {α β : Type}

/-- A reader for places of some kind enters a nested one only at such places, and only behind a
    token that it took itself: nothing else about the nested one matters to it. -/
def Deepens (enters : Cursor → Prop) (body : Reader α → Reader α) : Prop :=
  ∀ nested nested' : Reader α, nested.Forward → ∀ c : Cursor, enters c →
    (∀ c' : Cursor, enters c' → c'.rest.length < c.rest.length → nested c' = nested' c') →
    body nested c = body nested' c

/-- A reader that enters itself up to some depth, and the tokens that one depth is enough for. It
    enters itself only where fewer tokens are left, so it satisfies the equation that a recursion
    without any bound has. -/
structure Bounded (enters : Cursor → Prop) (body : Reader α → Reader α) (spare : Nat)
    (within : Nat → Reader α) : Prop where
  deepens : Deepens enters body
  step : ∀ depth, within (depth + 1) = body (within depth)
  forward : ∀ depth, (within depth).Forward
  enough : ∀ c, enters c → 0 < c.rest.length + spare

namespace Bounded

variable {enters : Cursor → Prop} {body : Reader α → Reader α} {spare : Nat}
  {within : Nat → Reader α}

/-- Depths beyond the number of tokens read the same. -/
theorem depth_irrelevant (h : Bounded enters body spare within) : ∀ (depth depth' : Nat)
    (c : Cursor), enters c → c.rest.length + spare ≤ depth → c.rest.length + spare ≤ depth' →
      within depth c = within depth' c
  | 0, _, c, hc, hle, _ => by
    have hpos := h.enough c hc
    omega
  | _ + 1, 0, c, hc, _, hle => by
    have hpos := h.enough c hc
    omega
  | depth + 1, depth' + 1, c, hc, hle, hle' => by
    rw [h.step, h.step]
    exact h.deepens _ _ (h.forward depth) c hc fun c' hc' hlt =>
      h.depth_irrelevant depth depth' c' hc' (by omega) (by omega)

/-- The reader that starts with the depth that is enough is one that enters itself. -/
theorem fixed (h : Bounded enters body spare within) {reader : Reader α}
    (hreader : ∀ c, reader c = within (c.rest.length + spare) c) {c : Cursor} (hc : enters c) :
    reader c = body reader c := by
  have hpos := h.enough c hc
  obtain ⟨depth, hdepth⟩ : ∃ depth, c.rest.length + spare = depth + 1 :=
    ⟨c.rest.length + spare - 1, by omega⟩
  rw [hreader, hdepth, h.step]
  refine h.deepens _ _ (h.forward depth) c hc fun c' hc' hlt => ?_
  rw [hreader]
  exact h.depth_irrelevant depth _ c' hc' (by omega) (Nat.le_refl _)

end Bounded

theorem remaining_bind (f : Nat → Reader α) (c : Cursor) :
    (remaining >>= f) c = f c.rest.length c := rfl

/-- Two readers read the same where less than `n` tokens are left. -/
def Agree (n : Nat) (r r' : Reader α) : Prop := ∀ c : Cursor, c.rest.length < n → r c = r' c

/-- Two readers read the same there, in front of a token of kind `k`. -/
def AgreeAt (k : Token.Kind) (n : Nat) (r r' : Reader α) : Prop :=
  ∀ c : Cursor, c.kind = k → c.rest.length < n → r c = r' c

namespace Agree

variable {n : Nat} {r r' : Reader α} {f f' : α → Reader β}

theorem refl (n : Nat) (r : Reader α) : Agree n r r := fun _ _ => rfl

theorem mono {m : Nat} (h : Agree n r r') (hle : m ≤ n) : Agree m r r' :=
  fun c hc => h c (Nat.lt_of_lt_of_le hc hle)

theorem bind (h : Agree n r r') (hr : r.Forward) (hf : ∀ a, Agree n (f a) (f' a)) :
    Agree n (r >>= f) (r' >>= f') := by
  intro c hc
  change f (r c).1 (r c).2 = f' (r' c).1 (r' c).2
  rw [← h c hc]
  exact hf _ _ (Nat.lt_of_le_of_lt (hr.length_le c) hc)

/-- The same reading in front. -/
theorem same (hr : r.Forward) (hf : ∀ a, Agree n (f a) (f' a)) : Agree n (r >>= f) (r >>= f') :=
  (refl n r).bind hr hf

theorem ite {b : Prop} [Decidable b] {no no' : Reader α} (hyes : b → Agree n r r')
    (hno : ¬b → Agree n no no') : Agree n (if b then r else no) (if b then r' else no') := by
  split
  · exact hyes ‹_›
  · exact hno ‹_›

theorem kind_bind {f f' : Token.Kind → Reader β} (h : ∀ k, AgreeAt k n (f k) (f' k)) :
    Agree n (kind >>= f) (kind >>= f') := fun c hc => h c.kind c rfl hc

/-- What a mark opens. -/
theorem opened {m : Char} {yes yes' no : Reader β} (h : AgreeAt (.control m) n yes yes') :
    Agree n (isControl m >>= fun found => if found then yes else no)
      (isControl m >>= fun found => if found then yes' else no) := by
  intro c hc
  change (if decide (c.kind = .control m) then yes else no : Reader β) c =
    (if decide (c.kind = .control m) then yes' else no : Reader β) c
  split
  · rename_i hm
    exact h c (of_decide_eq_true hm) hc
  · rfl

end Agree

namespace AgreeAt

variable {k : Token.Kind} {n : Nat}

theorem refl (k : Token.Kind) (n : Nat) (r : Reader α) : AgreeAt k n r r := fun _ _ _ => rfl

theorem of_agree {r r' : Reader α} (h : Agree n r r') : AgreeAt k n r r' := fun c _ hc => h c hc

/-- Behind a token, less tokens are left. -/
theorem advance_bind {f f' : Unit → Reader β} (h : Agree n (f ()) (f' ()))
    (hk : k ≠ .endOfInput) : AgreeAt k (n + 1) (advance >>= f) (advance >>= f') := by
  intro c hkind hc
  have hlt : c.advance.rest.length < c.rest.length := Cursor.advance_lt (hkind ▸ hk)
  exact h c.advance (by omega)

theorem kind_bind {f f' : Token.Kind → Reader β} (h : AgreeAt k n (f k) (f' k)) :
    AgreeAt k n (kind >>= f) (kind >>= f') := by
  intro c hkind hc
  change f c.kind c = f' c.kind c
  rw [hkind]
  exact h c hkind hc

theorem span_bind {f f' : Span → Reader β} (h : ∀ span, AgreeAt k n (f span) (f' span)) :
    AgreeAt k n (span >>= f) (span >>= f') := fun c => h c.span c

theorem report_bind {problem : Problem} {f f' : Unit → Reader β}
    (h : AgreeAt k n (f ()) (f' ())) :
    AgreeAt k n (report problem >>= f) (report problem >>= f') := fun c => h (c.report problem c.span)

end AgreeAt

variable {nested nested' : Reader Expr} {n : Nat}

theorem componentArguments_agree (h : Agree n nested nested') (hn : nested.Forward) (ty : Ty) :
    ∀ (bound : Nat) (missing : Int) (arguments : List Expr),
      Agree n (componentArguments nested ty bound missing arguments)
        (componentArguments nested' ty bound missing arguments) := by
  intro bound
  induction bound with
  | zero => exact fun missing arguments => .refl n _
  | succ bound ih =>
    intro missing arguments
    unfold componentArguments
    refine .same (.still fun _ => rfl) fun span => h.bind hn fun argument =>
      .same (still_takeComponents _ _ _ _ _) fun taken => ?_
    exact .same (.still fun _ => rfl) fun _ => .ite (fun _ => .same forward_advance fun _ => ih _ _)
      fun _ => .refl n _

theorem construction_agree (h : Agree n nested nested') (hn : nested.Forward) (ty : Ty) :
    Agree (n + 1) (construction nested ty) (construction nested' ty) := by
  unfold construction
  refine .opened <| .span_bind fun opening => .advance_bind ?_ nofun
  refine .same (.still fun _ => rfl) fun problems => .same (.still fun _ => rfl) fun _ => ?_
  refine .ite (fun _ => .refl n _) fun _ => .same (.still fun _ => rfl) fun _ => ?_
  exact (componentArguments_agree h hn ty _ _ _).bind (forward_componentArguments hn ty _ _ _)
    fun taken => .refl n _

theorem callArguments_agree (h : Agree n nested nested') (hn : nested.Forward) :
    ∀ (bound : Nat) (candidates : Candidates) (arguments : List Expr),
      Agree n (callArguments nested bound candidates arguments)
        (callArguments nested' bound candidates arguments) := by
  intro bound
  induction bound with
  | zero => exact fun candidates arguments => .refl n _
  | succ bound ih =>
    intro candidates arguments
    unfold callArguments
    refine .same (.still fun _ => rfl) fun span => h.bind hn fun argument => ?_
    have hrest (narrowed : Candidates) (arguments : List Expr) :
        Agree n (do
          if ← isControl ',' then
            advance
            callArguments nested bound narrowed arguments
          else return (narrowed, arguments))
        (do
          if ← isControl ',' then
            advance
            callArguments nested' bound narrowed arguments
          else return (narrowed, arguments)) :=
      .same (.still fun _ => rfl) fun _ => .ite (fun _ => .same forward_advance fun _ => ih _ _)
        fun _ => .refl n _
    exact .ite (fun _ => .same (.still fun _ => rfl) fun _ => hrest _ _) fun _ => hrest _ _

theorem call_agree (h : Agree n nested nested') (hn : nested.Forward) (candidates : Candidates)
    (nameSpan : Span) :
    Agree (n + 1) (call nested candidates nameSpan) (call nested' candidates nameSpan) := by
  unfold call
  refine .opened <| .advance_bind ?_ nofun
  refine .same (.still fun _ => rfl) fun problems => .same (.still fun _ => rfl) fun _ => ?_
  refine .ite (fun _ => .refl n _) fun _ => .same (.still fun _ => rfl) fun _ => ?_
  exact (callArguments_agree h hn _ _ _).bind (forward_callArguments hn _ _ _)
    fun taken => .refl n _

theorem constructorCall_agree (h : Agree n nested nested') (hn : nested.Forward) (ty : Ty)
    (nameSpan : Span) :
    Agree (n + 1) (constructorCall nested ty nameSpan) (constructorCall nested' ty nameSpan) :=
  .ite (fun _ => call_agree h hn _ nameSpan) fun _ => construction_agree h hn ty

theorem named_agree (h : Agree n nested nested') (hn : nested.Forward) (name : String)
    (nameSpan : Span) : Agree (n + 1) (named nested name nameSpan) (named nested' name nameSpan) := by
  unfold named
  refine .same (.still fun _ => rfl) fun s => ?_
  split
  · exact constructorCall_agree h hn _ nameSpan
  · exact .ite (fun _ => call_agree h hn _ nameSpan) fun _ => .refl _ _

theorem primary_agree (h : Agree n nested nested') (hn : nested.Forward) :
    Agree (n + 1) (primary nested) (primary nested') := by
  unfold primary
  refine .same (.still fun _ => rfl) fun span => .kind_bind fun k => ?_
  split
  · exact .of_agree <| .same forward_advance fun _ => named_agree h hn _ span
  · exact .refl _ _ _
  · exact .advance_bind (h.bind hn fun e => .refl n _) nofun
  · rename_i word
    refine .of_agree <| .ite (fun _ => .same forward_definition fun ty? => ?_) fun _ => ?_
    · cases ty? with
      | none => exact .refl _ _
      | some ty => exact constructorCall_agree h hn ty span
    · cases (Ty.ofWord? word).filter (·.isBasic) with
      | none => exact .refl _ _
      | some ty => exact .same forward_advance fun _ => constructorCall_agree h hn ty span
  · exact .refl _ _ _

theorem postfixed_agree (h : Agree n nested nested') (hn : nested.Forward) :
    Agree (n + 1) (postfixed nested) (postfixed nested') :=
  (primary_agree h hn).bind (forward_primary hn) fun _ => .refl _ _

/-- An operator in front of an expression that `again` reads, or an expression without one. -/
def prefixed (nested again : Reader Expr) : Reader Expr := do
  match ← kind with
  | .control '+' =>
    advance
    again
  | .control '-' =>
    let signSpan ← span
    advance
    negated (← again) signSpan
  | .control '!' | .control '~' | .symbol .increment | .symbol .decrement =>
    report (.unaryOperator (← kind))
    advance
    again
  | _ => postfixed nested

theorem prefixed_agree {again again' : Reader Expr} (h : Agree n nested nested')
    (hn : nested.Forward) (ha : Agree n again again') (hforward : again.Forward) :
    Agree (n + 1) (prefixed nested again) (prefixed nested' again') := by
  unfold prefixed
  refine .kind_bind fun k => ?_
  split
  · exact .advance_bind ha nofun
  · exact .span_bind fun _ => .advance_bind (ha.bind hforward fun _ => .refl n _) nofun
  all_goals first
    | exact .of_agree (postfixed_agree h hn)
    | exact .kind_bind (.report_bind (.advance_bind ha (by simp)))

theorem signed_succ (nested : Reader Expr) (depth : Nat) :
    signed nested (depth + 1) = prefixed nested (signed nested depth) := rfl

theorem signed_agree (h : Agree n nested nested') (hn : nested.Forward) : ∀ depth : Nat,
    Agree (n + 1) (signed nested depth) (signed nested' depth) := by
  intro depth
  induction depth with
  | zero => exact postfixed_agree h hn
  | succ depth ih =>
    rw [signed_succ, signed_succ]
    exact prefixed_agree h hn (ih.mono (Nat.le_succ n)) (forward_signed hn depth)

/-- Signs repeat as often as they stand there. -/
theorem prefixed_deepens (hn : nested.Forward) : Deepens (fun _ => True) (prefixed nested) := by
  intro again again' hforward c _ hagree
  exact prefixed_agree (.refl _ _) hn (fun c' hlt => hagree c' trivial hlt) hforward c
    (Nat.lt_succ_self _)

/-- An operation without binary operators is the same one behind a sign. -/
theorem unary_eq (hn : nested.Forward) : unary nested = prefixed nested (unary nested) := by
  have hbounded : Bounded (fun _ => True) (prefixed nested) 1 (signed nested) :=
    { deepens := prefixed_deepens hn
      step := signed_succ nested
      forward := forward_signed hn
      enough := fun c _ => Nat.succ_pos _ }
  have hstart (c : Cursor) : unary nested c = signed nested (c.rest.length + 1) c :=
    remaining_bind (fun n => signed nested (n + 1)) c
  funext c
  exact hbounded.fixed hstart trivial

theorem unary_agree (h : Agree n nested nested') (hn : nested.Forward) :
    Agree (n + 1) (unary nested) (unary nested') :=
  .same (.still fun _ => rfl) fun _ => signed_agree h hn _

theorem chain_agree {operand operand' : Reader Expr} (h : Agree n operand operand')
    (ho : operand.Forward) (precedence : Nat) : ∀ (bound : Nat) (left : Expr),
      Agree n (chain operand precedence bound left) (chain operand' precedence bound left) := by
  intro bound
  induction bound with
  | zero => exact fun left => .refl n _
  | succ bound ih =>
    intro left
    unfold chain
    refine .same (.still fun _ => rfl) fun k => ?_
    cases k.operator?.filter (·.precedence = precedence) with
    | none => exact .refl n _
    | some op =>
      refine .same (.still fun _ => rfl) fun span => .same forward_advance fun _ =>
        h.bind ho fun right => .same (still_combined op span left right) fun combined => ih combined

theorem binaryLevels_agree {operand operand' : Reader Expr} (h : Agree n operand operand')
    (ho : operand.Forward) : ∀ levels : Nat,
      Agree n (binaryLevels operand levels) (binaryLevels operand' levels) := by
  intro levels
  induction levels with
  | zero => exact h
  | succ levels ih =>
    unfold binaryLevels
    have hforward := forward_binaryLevels ho levels
    exact ih.bind hforward fun left => .same (.still fun _ => rfl) fun _ =>
      chain_agree ih hforward _ _ left

theorem assignment_agree (h : Agree n nested nested') (hn : nested.Forward) :
    Agree (n + 1) (assignment nested) (assignment nested') := by
  have hoperation : Agree (n + 1) (operation nested) (operation nested') :=
    binaryLevels_agree (unary_agree h hn) (forward_unary hn) 11
  unfold assignment
  refine hoperation.bind (forward_operation hn) fun target => .kind_bind fun k => ?_
  cases hk : k.assignment? with
  | none => exact .refl _ _ _
  | some op =>
    have hend : k ≠ .endOfInput := by
      rintro rfl
      simp [Token.Kind.assignment?] at hk
    dsimp only
    cases target.isAssignable with
    | false => exact .report_bind (.advance_bind h hend)
    | true =>
      cases target.assigned?.filter (·.qualifier.isReadOnly) with
      | some x => exact .report_bind (.advance_bind (h.bind hn fun _ => .refl n _) hend)
      | none =>
        exact .span_bind fun span => .advance_bind (h.bind hn fun _ => .refl n _) hend

/-- An assignment enters itself behind a bracket, a comma or an operator. -/
theorem assignment_deepens : Deepens (fun _ => True) assignment := by
  intro nested nested' hn c _ hagree
  exact assignment_agree (fun c' hlt => hagree c' trivial hlt) hn c (Nat.lt_succ_self _)

/-- Expressions lie in one another as deep as they do. -/
theorem expression_eq : expression = assignment expression := by
  have hbounded : Bounded (fun _ => True) assignment 1 expressionWithin :=
    { deepens := assignment_deepens
      step := fun _ => rfl
      forward := forward_expressionWithin
      enough := fun c _ => Nat.succ_pos _ }
  have hstart (c : Cursor) : expression c = expressionWithin (c.rest.length + 1) c :=
    remaining_bind (fun n => expressionWithin (n + 1)) c
  funext c
  exact hbounded.fixed hstart trivial

variable {definition definition' : Reader (Option Ty)}

theorem typeWith_agree (h : AgreeAt (.keyword "struct") n definition definition') :
    Agree n (typeWith definition) (typeWith definition') := by
  unfold typeWith
  refine .kind_bind fun k => ?_
  by_cases hk : k = .keyword "struct"
  · rw [if_pos hk, if_pos hk, hk]
    exact h
  · rw [if_neg hk, if_neg hk]
    exact .refl _ _ _

theorem members_agree (h : AgreeAt (.keyword "struct") n definition definition')
    (hdef : definition.Forward) : ∀ (bound : Nat) (found : List (String × Ty)),
      Agree n (members definition bound found) (members definition' bound found) := by
  intro bound
  induction bound with
  | zero => exact fun found => .refl n _
  | succ bound ih =>
    intro found
    unfold members
    refine .same (.still fun _ => rfl) fun closing => .same (.still fun _ => rfl) fun k =>
      .ite (fun _ => .refl n _) fun _ => ?_
    refine (typeWith_agree h).bind (forward_typeWith hdef) fun ty? => ?_
    cases ty? with
    | none =>
      exact .same (.still fun _ => rfl) fun _ => .same (forward_skipPast ';') fun _ => ih found
    | some ty =>
      have hrest : Agree n (do
            let found ← memberNames ty ((← remaining) + 1) found
            expectControl ';' .expectedMemberEnd
            members definition bound found)
          (do
            let found ← memberNames ty ((← remaining) + 1) found
            expectControl ';' .expectedMemberEnd
            members definition' bound found) :=
        .same (.still fun _ => rfl) fun _ => .same (forward_memberNames ty _ found) fun found =>
          .same (forward_expectControl _ _) fun _ => ih found
      exact .ite (fun _ => .same (.still fun _ => rfl) fun _ => hrest) fun _ => hrest

/-- What is behind the keyword and the name of a struct. -/
theorem braces_agree (h : AgreeAt (.keyword "struct") n definition definition')
    (hdef : definition.Forward) (name : Option String) (define : List (String × Ty) → Reader Unit) :
    Agree n (do
      if ← isControl '{' then
        advance
        let found ← members definition (← remaining) []
        expectControl '}' .expectedStructEnd
        define found
        return some (Ty.struct name found)
      else
        report .expectedStructBody
        return none)
    (do
      if ← isControl '{' then
        advance
        let found ← members definition' (← remaining) []
        expectControl '}' .expectedStructEnd
        define found
        return some (Ty.struct name found)
      else
        report .expectedStructBody
        return none) := by
  refine .same (.still fun _ => rfl) fun opened => .ite (fun _ => ?_) fun _ => .refl n _
  exact .same forward_advance fun _ => .same (.still fun _ => rfl) fun bound =>
    (members_agree h hdef bound []).bind (forward_members hdef bound []) fun found => .refl n _

/-- A struct definition enters itself at the keyword of a struct between its braces. -/
theorem structBody_deepens : Deepens (fun c => c.kind = .keyword "struct")
    (fun definition => advance >>= fun _ => structBody definition) := by
  intro definition definition' hdef c hc hagree
  have hnested : AgreeAt (.keyword "struct") c.rest.length definition definition' :=
    fun c' hstruct hlt => hagree c' hstruct hlt
  refine AgreeAt.advance_bind (k := .keyword "struct") ?_ (by simp) c hc (Nat.lt_succ_self _)
  unfold structBody
  refine .same (.still fun _ => rfl) fun span => .same (.still fun _ => rfl) fun k => ?_
  cases k with
  | ident name =>
    exact .same forward_advance fun _ => braces_agree hnested hdef (some name) fun found =>
      defineStruct name span (.struct (some name) found)
  | _ => exact braces_agree hnested hdef none fun _ => pure ()

/-- Struct definitions lie in one another as deep as they do. -/
theorem definition_eq {c : Cursor} (hc : c.kind = .keyword "struct") :
    Reader.definition c = structBody Reader.definition c.advance := by
  have hbounded : Bounded (fun c => c.kind = .keyword "struct")
      (fun definition => advance >>= fun _ => structBody definition) 0 structDefinition :=
    { deepens := structBody_deepens
      step := structDefinition_succ
      forward := forward_structDefinition
      enough := fun c hc => List.length_pos_iff.mpr fun hnil => by
        rw [Cursor.kind_of_rest_nil hnil] at hc
        simp at hc }
  exact hbounded.fixed (remaining_bind structDefinition) hc

end ShaderExpr.Reader
