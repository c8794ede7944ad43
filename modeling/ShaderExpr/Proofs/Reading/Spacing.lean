import ShaderExpr.Proofs.Reading.Alike

namespace ShaderExpr

namespace Reader

variable {S : SpanRelation}

theorem alike_memberNames (ty : Ty) : ∀ (bound : Nat) (found : List (String × Ty)),
    (memberNames ty bound found).Placeless S := by
  intro bound
  induction bound with
  | zero => exact fun found => .pure found
  | succ bound ih =>
    intro found
    unfold memberNames
    refine .bind .kind fun kind => ?_
    split
    · have hrest (members : List (String × Ty)) : Placeless S (do
          advance
          if ← isControl ',' then
            advance
            memberNames ty bound members
          else return members) :=
        .advance_bind (.bind (.isControl _) fun _ =>
          .ite (.advance_bind (ih members)) (.pure members))
      exact .ite (.report_bind (hrest _)) (hrest _)
    · exact .report_bind (.pure found)

theorem alike_typeWith {definition : Reader (Option Ty)} (hdef : definition.Placeless S) :
    (typeWith definition).Placeless S :=
  .bind .kind fun _ => .ite hdef (.bind .scope fun _ => .ite (.advance_bind (.pure _)) (.pure _))

theorem alike_members {definition : Reader (Option Ty)} (hdef : definition.Placeless S) :
    ∀ (bound : Nat) (found : List (String × Ty)), (members definition bound found).Placeless S := by
  intro bound
  induction bound with
  | zero => exact fun found => .pure found
  | succ bound ih =>
    intro found
    unfold members
    refine .bind (.isControl _) fun _ => .bind .kind fun _ => .ite (.pure found)
      (.bind (alike_typeWith hdef) fun ty? => ?_)
    cases ty? with
    | none => exact .report_bind (.bind (.skipPast _) fun _ => ih found)
    | some ty =>
      have hrest : Placeless S (do
          let found ← memberNames ty ((← remaining) + 1) found
          expectControl ';' .expectedMemberEnd
          members definition bound found) :=
        .bind .remaining fun _ => .bind (alike_memberNames ty _ found) fun found =>
          .bind (.expectControl _ _) fun _ => ih found
      exact .ite (.report_bind hrest) hrest

theorem alike_defineStruct (name : String) {s s' : Span} (h : S.Holds s s') (ty : Ty) :
    (defineStruct name s ty).Alike S (defineStruct name s' ty) := by
  refine .bind .scope fun scope => ?_
  split
  · exact fun _ _ hcd => ⟨rfl, hcd.withScope _⟩
  · exact .reportAt h _

theorem alike_structBody {definition : Reader (Option Ty)} (hdef : definition.Placeless S) :
    (structBody definition).Placeless S := by
  have hbraces (name : Option String) (define define' : List (String × Ty) → Reader Unit)
      (hdefine : ∀ found, (define found).Alike S (define' found)) : Alike S (do
      if ← isControl '{' then
        advance
        let found ← members definition (← remaining) []
        expectControl '}' .expectedStructEnd
        define found
        return some (Ty.struct name found)
      else
        report .expectedStructBody
        return none) (do
      if ← isControl '{' then
        advance
        let found ← members definition (← remaining) []
        expectControl '}' .expectedStructEnd
        define' found
        return some (Ty.struct name found)
      else
        report .expectedStructBody
        return none) := by
    refine .bind (.isControl _) fun _ => .ite (.advance_bind ?_) (.report_bind (.pure none))
    refine .bind .remaining fun _ => .bind (alike_members hdef _ []) fun found => ?_
    exact .bind (.expectControl _ _) fun _ => .bind (hdefine found) fun _ => .pure _
  unfold structBody
  refine .span_bind fun _ _ h => .bind .kind fun kind => ?_
  cases kind with
  | ident name =>
    exact .advance_bind (hbraces (some name) _ _ fun found => alike_defineStruct name h _)
  | _ => exact hbraces none (fun _ => pure ()) (fun _ => pure ()) fun _ => .pure ()

theorem alike_structDefinition : ∀ depth : Nat, (structDefinition depth).Placeless S := by
  intro depth
  induction depth with
  | zero => exact .pure none
  | succ depth ih =>
    rw [structDefinition_succ]
    exact .advance_bind (alike_structBody ih)

theorem alike_definition : definition.Placeless S :=
  .bind .remaining fun _ => alike_structDefinition _

theorem alike_type : type.Placeless S := alike_typeWith alike_definition

theorem alike_fieldOf (base : Expr) (name : String) {s s' : Span} (h : S.Holds s s') :
    (fieldOf base name s).Alike S (fieldOf base name s') := by
  have hswizzle : (swizzle base name s).Alike S (swizzle base name s') := by
    unfold swizzle
    split
    · exact .reported h _ _
    · exact .ite (.reported h _ _) (.pure _)
  unfold fieldOf
  split
  · exact hswizzle
  · exact hswizzle
  · split
    · exact .pure _
    · exact .reported h _ _
  · exact .reported h _ _

theorem alike_field (base : Expr) : (field base).Placeless S := by
  unfold field
  refine .bind .kind fun kind => ?_
  split
  · refine .span_bind fun _ _ h => .advance_bind (.bind (.isControl _) fun _ => .ite ?_
      (alike_fieldOf base _ h))
    exact .bind (.reportAt h _) fun _ => .bind (.skipPast _) fun _ => .pure _
  · exact .report_bind (.pure base)

theorem alike_postfixes : ∀ (bound : Nat) (e : Expr), (postfixes bound e).Placeless S := by
  intro bound
  induction bound with
  | zero => exact fun e => .pure e
  | succ bound ih =>
    intro e
    have hoperator : Placeless S (do
        report (.postfixOperator (← kind))
        advance
        postfixes bound e) :=
      .bind .kind fun _ => .report_bind (.advance_bind (ih e))
    unfold postfixes
    refine .bind .kind fun kind => ?_
    split
    · exact .advance_bind (.bind (alike_field e) fun e => ih e)
    · exact .report_bind (.bind (.skipPast _) fun _ => ih e)
    · exact hoperator
    · exact hoperator
    · exact .pure e

variable {nested : Reader Expr}

theorem alike_takeComponents (ty : Ty) {s s' : Span} (h : S.Holds s s') (argument : Expr)
    (missing : Int) (arguments : List Expr) :
    (takeComponents ty s argument missing arguments).Alike S
      (takeComponents ty s' argument missing arguments) :=
  .ite (.reported h _ _) (.ite (.reported h _ _)
    (.ite (.ite (.pure _) (.reported h _ _)) (.pure _)))

theorem alike_componentArguments (hn : nested.Placeless S) (ty : Ty) :
    ∀ (bound : Nat) (missing : Int) (arguments : List Expr),
      (componentArguments nested ty bound missing arguments).Placeless S := by
  intro bound
  induction bound with
  | zero => exact fun missing arguments => .pure _
  | succ bound ih =>
    intro missing arguments
    unfold componentArguments
    refine .span_bind fun _ _ h => .bind hn fun argument =>
      .bind (alike_takeComponents ty h argument missing arguments) fun taken => ?_
    exact .bind (.isControl _) fun _ => .ite (.advance_bind (ih _ _)) (.pure _)

/-- What a construction lacks is reported from its opening parenthesis to the last token. -/
theorem alike_constructionEnd (ty : Ty) {opening opening' : Span} (h : S.Holds opening opening')
    (problems : Nat) (taken : Int × List Expr) : (constructionEnd ty opening problems taken).Alike S
      (constructionEnd ty opening' problems taken) := by
  have hend : Placeless S (do
      if problems < (← problemCount) then return .placeholder
      else return .construct ty taken.2 : Reader Expr) :=
    .bind .problemCount fun _ => .ite (.pure _) (.pure _)
  unfold constructionEnd
  refine .bind (.expectControl _ _) fun _ => .ite (fun c d hcd => ?_) hend
  exact hend _ _ (hcd.report _ (S.merge h hcd.last))

theorem alike_construction (hn : nested.Placeless S) (ty : Ty) :
    (construction nested ty).Placeless S := by
  rw [construction_eq]
  refine .bind (.isControl _) fun _ => .ite ?_ (.report_bind (.pure _))
  refine .span_bind fun _ _ h => .advance_bind (.bind .problemCount fun problems =>
    .bind (.isControl _) fun _ => ?_)
  refine .ite (alike_constructionEnd _ h _ _) (.bind .remaining fun _ => ?_)
  exact .bind (alike_componentArguments hn ty _ _ _) fun taken => alike_constructionEnd _ h _ _

theorem alike_callArguments (hn : nested.Placeless S) :
    ∀ (bound : Nat) (candidates : Candidates) (arguments : List Expr),
      (callArguments nested bound candidates arguments).Placeless S := by
  intro bound
  induction bound with
  | zero => exact fun candidates arguments => .pure _
  | succ bound ih =>
    intro candidates arguments
    unfold callArguments
    refine .span_bind fun _ _ h => .bind hn fun argument => ?_
    have hrest (narrowed : Candidates) (arguments : List Expr) : Placeless S (do
        if ← isControl ',' then
          advance
          callArguments nested bound narrowed arguments
        else return (narrowed, arguments)) :=
      .bind (.isControl _) fun _ => .ite (.advance_bind (ih _ _)) (.pure _)
    exact .ite (.bind (.reportAt h _) fun _ => hrest _ _) (hrest _ _)

theorem alike_callEnd {s s' : Span} (h : S.Holds s s') (problems : Nat)
    (taken : Candidates × List Expr) :
    (callEnd s problems taken).Alike S (callEnd s' problems taken) := by
  unfold callEnd
  refine .bind (.expectControl _ _) fun _ => .bind .problemCount fun _ => ?_
  refine .ite (.pure _) (.ite (.reported h _ _) ?_)
  split
  · exact .pure _
  · exact .reported h _ _

theorem alike_call (hn : nested.Placeless S) (candidates : Candidates) {s s' : Span}
    (h : S.Holds s s') : (call nested candidates s).Alike S (call nested candidates s') := by
  rw [call_eq, call_eq]
  refine .bind (.isControl _) fun _ => .ite (.advance_bind ?_) (.report_bind (.pure _))
  refine .bind .problemCount fun problems => .bind (.isControl _) fun _ => ?_
  refine .ite (alike_callEnd h _ _) (.bind .remaining fun _ => ?_)
  exact .bind (alike_callArguments hn _ _ _) fun taken => alike_callEnd h _ _

theorem alike_constructorCall (hn : nested.Placeless S) (ty : Ty) {s s' : Span} (h : S.Holds s s') :
    (constructorCall nested ty s).Alike S (constructorCall nested ty s') :=
  .ite (alike_call hn _ h) (alike_construction hn ty)

theorem alike_named (hn : nested.Placeless S) (name : String) {s s' : Span} (h : S.Holds s s') :
    (named nested name s).Alike S (named nested name s') := by
  unfold named
  refine .bind .scope fun scope => ?_
  split
  · exact alike_constructorCall hn _ h
  · refine .ite (alike_call hn _ h) ?_
    split
    · exact .pure _
    · refine .bind (.isControl _) fun _ => .ite ?_ (.reported h _ _)
      exact .bind (.reportAt h _) fun _ => .bind (.skipPast _) fun _ => .pure _

theorem alike_primary (hn : nested.Placeless S) : (primary nested).Placeless S := by
  unfold primary
  refine .span_bind fun _ _ h => .bind .kind fun kind => ?_
  split
  · exact .advance_bind (alike_named hn _ h)
  · exact .advance_bind (.pure _)
  · exact .advance_bind (.bind hn fun e => .bind (.expectControl _ _) fun _ => .pure e)
  · refine .ite (.bind alike_definition fun ty? => ?_) ?_
    · cases ty? with
      | none => exact .pure _
      | some ty => exact alike_constructorCall hn ty h
    · split
      · exact .advance_bind (alike_constructorCall hn _ h)
      · exact .report_bind (.advance_bind (.pure _))
  · exact .report_bind (.advance_bind (.pure _))

theorem alike_postfixed (hn : nested.Placeless S) : (postfixed nested).Placeless S :=
  .bind (alike_primary hn) fun e => .bind .remaining fun _ => alike_postfixes _ e

theorem alike_negated (e : Expr) {s s' : Span} (h : S.Holds s s') :
    (negated e s).Alike S (negated e s') :=
  .ite (.reported h _ _) (.ite (.reported h _ _) (.pure _))

theorem alike_signed (hn : nested.Placeless S) :
    ∀ bound : Nat, (signed nested bound).Placeless S := by
  intro bound
  induction bound with
  | zero => exact alike_postfixed hn
  | succ bound ih =>
    have hunsupported : Placeless S (do
        report (.unaryOperator (← kind))
        advance
        signed nested bound) :=
      .bind .kind fun _ => .report_bind (.advance_bind ih)
    unfold signed
    refine .bind .kind fun kind => ?_
    split
    · exact .advance_bind ih
    · exact .span_bind fun _ _ h => .advance_bind (.bind ih fun e => alike_negated e h)
    all_goals first
      | exact hunsupported
      | exact alike_postfixed hn

theorem alike_unary (hn : nested.Placeless S) : (unary nested).Placeless S :=
  .bind .remaining fun _ => alike_signed hn _

theorem alike_combined (op : Operator) {s s' : Span} (h : S.Holds s s') (left right : Expr) :
    (combined op s left right).Alike S (combined op s' left right) := by
  unfold combined
  split
  · exact .pure _
  · exact .reported h _ _

theorem alike_chain {operand : Reader Expr} (ho : operand.Placeless S) (precedence : Nat) :
    ∀ (bound : Nat) (left : Expr), (chain operand precedence bound left).Placeless S := by
  intro bound
  induction bound with
  | zero => exact fun left => .pure left
  | succ bound ih =>
    intro left
    unfold chain
    refine .bind .kind fun kind => ?_
    split
    · exact .span_bind fun _ _ h => .advance_bind (.bind ho fun right =>
        .bind (alike_combined _ h left right) fun left => ih left)
    · exact .pure left

theorem alike_binaryLevels {operand : Reader Expr} (ho : operand.Placeless S) :
    ∀ levels : Nat, (binaryLevels operand levels).Placeless S := by
  intro levels
  induction levels with
  | zero => exact ho
  | succ level ih =>
    exact .bind ih fun left => .bind .remaining fun _ => alike_chain ih _ _ left

theorem alike_assigned (op : Option Operator) {s s' : Span} (h : S.Holds s s')
    (target value : Expr) : (assigned op s target value).Alike S (assigned op s' target value) := by
  unfold assigned
  split
  · exact .reported h _ _
  · exact .ite (.pure _) (.reported h _ _)

theorem alike_assignment (hn : nested.Placeless S) : (assignment nested).Placeless S := by
  unfold assignment
  refine .bind (alike_binaryLevels (alike_unary hn) 11) fun target => .bind .kind fun kind => ?_
  split
  · exact .pure target
  · refine .ite (.report_bind (.advance_bind hn)) ?_
    split
    · exact .report_bind (.advance_bind (.bind hn fun _ => .pure target))
    · exact .span_bind fun _ _ h => .advance_bind (.bind hn fun value =>
        alike_assigned _ h target value)

theorem alike_expression : expression.Placeless S := by
  refine .bind .remaining fun count => ?_
  induction count + 1 with
  | zero => exact .report_bind (.pure _)
  | succ depth ih => exact alike_assignment ih

end Reader

namespace Reader

open Evaluator

theorem alike_qualifierWords : ∀ (bound : Nat) (q : Qualifier),
    (qualifierWords bound q).Placeless S := by
  intro bound
  induction bound with
  | zero => exact fun q => .pure q
  | succ bound ih =>
    intro q
    have hqualify (word : String) (said : QualifierWord) : (qualify word said q).Placeless S := by
      cases said with
      | storage s => exact .ite (.report_bind (.pure _)) (.pure _)
      | modifier m => exact .ite (.report_bind (.pure _)) (.pure _)
      | inout => exact .report_bind (.pure _)
    unfold qualifierWords
    refine .bind .kind fun kind => ?_
    split
    · split
      · exact .bind (hqualify _ _) fun q => .advance_bind (ih q)
      · exact .pure q
    · exact .pure q

theorem alike_qualifier : qualifier.Placeless S :=
  .bind .remaining fun _ => .bind (alike_qualifierWords _ _) fun _ =>
    .ite (.report_bind (.pure _)) (.pure _)

theorem alike_startsDeclaration : startsDeclaration.Placeless S := by
  intro c d hcd
  rw [startsDeclaration_eq, startsDeclaration_eq, hcd.scope, hcd.kind, hcd.nextKind]
  exact ⟨rfl, hcd⟩

theorem alike_checkVariable (name : String) {s s' : Span} (h : S.Holds s s') (ty : Ty) :
    (checkVariable name s ty).Alike S (checkVariable name s' ty) := by
  have hname : Alike S (do
      if ((← scope).variableNamed name).isSome then reportAt s (.redefinedVariable name)) (do
      if ((← scope).variableNamed name).isSome then reportAt s' (.redefinedVariable name)) :=
    .bind .scope fun _ => .ite (.reportAt h _) (.pure ())
  exact .ite (.bind (.reportAt h _) fun _ => hname) hname

theorem alike_initialValue (name : String) (ty : Ty) (q : Qualifier) {s s' : Span}
    (h : S.Holds s s') (e : Expr) :
    Evaluator.Alike S (initialValue name ty q s e) (initialValue name ty q s' e) := by
  refine .ite (.reported h _ _) (.ite (.reported h _ _) (.except_bind fun value? => ?_))
  cases value? with
  | some value => exact .pure _
  | none => exact .reported h _ _

theorem alike_initializer (name : String) {s s' : Span} (h : S.Holds s s') (ty : Ty)
    (q : Qualifier) : Evaluator.Alike S (initializer name s ty q) (initializer name s' ty q) := by
  refine .lift_bind (.isControl _) fun _ => .ite (.lift_bind .advance fun _ => ?_)
    (.ite (.reported h _ _) (.pure none))
  refine .span_bind fun _ _ hinitial => .lift_bind .problemCount fun _ => ?_
  refine .lift_bind alike_expression fun e => .lift_bind .problemCount fun _ => ?_
  exact .ite (.pure none) (alike_initialValue name ty q hinitial e)

theorem alike_variableDeclaration (q : Qualifier) (ty : Ty) (name : String) :
    Evaluator.Placeless S (variableDeclaration q ty name) := by
  refine .span_bind fun _ _ h => .lift_bind .advance fun _ => .lift_bind .problemCount fun _ =>
    .lift_bind (alike_checkVariable name h ty) fun _ => ?_
  refine .bind (alike_initializer name h ty q) fun initial => .lift_bind .problemCount fun _ =>
    .lift_bind (.expectControl _ _) fun _ => ?_
  refine .ite (fun c d hcd a c' hrun => ?_) (.pure ())
  obtain rfl : { c with scope := (c.scope.addVariable name ty q initial).2 } = c' :=
    congrArg Prod.snd (Except.ok.inj hrun)
  refine ⟨{ d with scope := (d.scope.addVariable name ty q initial).2 }, rfl, ?_⟩
  rw [← hcd.scope]
  exact hcd.withScope _

theorem alike_declared (q : Qualifier) (ty? : Option Ty) :
    Evaluator.Placeless S (declared q ty?) := by
  have hskip (p : Problem) : Evaluator.Placeless S (do
      report p
      skipPast ';') := .lift_bind (.report p) fun _ => .lift (.skipPast ';')
  cases ty? with
  | none => exact hskip _
  | some ty =>
    refine .lift_bind (.isControl _) fun _ => .ite (.lift .advance)
      (.lift_bind .kind fun kind => ?_)
    cases kind with
    | ident name => exact alike_variableDeclaration q ty name
    | _ => exact hskip _

theorem alike_declarations : ∀ bound : Nat, Evaluator.Placeless S (declarations bound) := by
  intro bound
  induction bound with
  | zero => exact .pure ()
  | succ bound ih =>
    have hdeclaration : Evaluator.Placeless S declaration := by
      rw [declaration_eq]
      exact .lift_bind alike_qualifier fun q => .lift_bind alike_type (alike_declared q)
    exact .lift_bind alike_startsDeclaration fun _ => .ite (.bind hdeclaration fun _ => ih)
      (.pure ())

/-- A whole source is read by the kinds of its tokens. -/
theorem alike_source : Evaluator.Placeless S source := by
  have hend (e : Expr) : Evaluator.Placeless S (do
      let found ← (liftM kind : Evaluator Token.Kind)
      if found ≠ .endOfInput then liftM (report (.expectedEnd found))
      return e) :=
    .lift_bind .kind fun _ => .ite (.lift_bind (.report _) fun _ => .pure e) (.pure e)
  refine .lift_bind .remaining fun _ => .bind (alike_declarations _) fun _ =>
    .lift_bind alike_expression fun e => .lift_bind (.isControl _) fun _ => ?_
  exact .ite (.lift_bind .advance fun _ => hend e) (hend e)

end Reader

/-- Tokens of a source without lexical errors are those that it is read from. -/
theorem lex_of_lexStrict? {source : String} {ts : List Token} (h : lexStrict? source = some ts) :
    ∃ tokens : TokenList, lex source = (some tokens, []) ∧ tokens.tokens = ts := by
  unfold lexStrict? at h
  split at h
  · rename_i tokens hlex
    exact ⟨tokens, hlex, Option.some.inj h⟩
  · simp at h

/-- Sources without lexical errors whose tokens are of the same kinds are read alike. Both give an
    expression, and it is the same, in the same scope, and with the same problems in the same order
    but for their spans. Spaces, comments and the spelling of literals are what such sources differ
    in. With lexical errors the problems would differ by these. -/
theorem Reading.same_of_kinds {source source' : String} {ts us : List Token}
    (h : lexStrict? source = some ts) (h' : lexStrict? source' = some us)
    (same : ts.map (·.kind) = us.map (·.kind)) :
    ∃ r r', ofSource source .empty = .ok r ∧ ofSource source' .empty = .ok r' ∧
      r.expression.isSome ∧ r.expression = r'.expression ∧ r.scope = r'.scope ∧
      r.diagnostics.map (·.problem) = r'.diagnostics.map (·.problem) := by
  obtain ⟨tokens, hlex, rfl⟩ := lex_of_lexStrict? h
  obtain ⟨tokens', hlex', rfl⟩ := lex_of_lexStrict? h'
  obtain ⟨r, hr, -⟩ := ofSource_total source Scope.WellFormed.empty
  obtain ⟨e, c, hrun, rfl⟩ := exists_run hlex hr
  -- Any two spans are related: what is left of the relation of states are the kinds.
  let S : SpanRelation := ⟨fun _ _ => True, fun _ _ => trivial⟩
  have hstart : Cursor.Alike S ⟨tokens.tokens, source.utf8ByteSize, ⟨0, 0⟩, .empty, []⟩
      ⟨tokens'.tokens, source'.utf8ByteSize, ⟨0, 0⟩, .empty, []⟩ := by
    refine ⟨?_, trivial, trivial, rfl, .nil⟩
    rw [← List.forall₂_eq_eq_eq, List.forall₂_map_left_iff, List.forall₂_map_right_iff] at same
    exact same.imp fun _ _ hkind => ⟨hkind, trivial⟩
  obtain ⟨d, hrun', halike⟩ := Reader.alike_source _ _ hstart e c hrun
  refine ⟨_, _, hr, ofSource_eq_ok hlex' hrun', rfl, rfl, halike.scope, ?_⟩
  simpa using halike.problems

/-- Spaces, a comment, and a number in another base, around a name that is not declared. -/
theorem Reading.same_of_kinds_comment : ∃ ts us,
    lexStrict? "int a = 16; a + b" = some ts ∧
      lexStrict? "int\ta=0x10;// a\n\na+ b" = some us ∧ ts.map (·.kind) = us.map (·.kind) ∧
      ∃ r r', ofSource "int a = 16; a + b" .empty = .ok r ∧
        ofSource "int\ta=0x10;// a\n\na+ b" .empty = .ok r' ∧
        r.expression.isSome ∧ r.expression = r'.expression ∧ r.scope = r'.scope ∧
        r.diagnostics.map (·.problem) = r'.diagnostics.map (·.problem) := by
  obtain ⟨ts, h⟩ := Option.isSome_iff_exists.mp
    (show (lexStrict? "int a = 16; a + b").isSome by decide +kernel)
  obtain ⟨us, h'⟩ := Option.isSome_iff_exists.mp
    (show (lexStrict? "int\ta=0x10;// a\n\na+ b").isSome by decide +kernel)
  have hkinds : (lexStrict? "int a = 16; a + b").map (·.map (·.kind)) =
      (lexStrict? "int\ta=0x10;// a\n\na+ b").map (·.map (·.kind)) := by decide +kernel
  have same : ts.map (·.kind) = us.map (·.kind) := by simpa [h, h'] using hkinds
  exact ⟨ts, us, h, h', same, same_of_kinds h h' same⟩

end ShaderExpr
