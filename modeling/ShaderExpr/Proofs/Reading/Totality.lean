import ShaderExpr.Proofs.Reading.Declared
import ShaderExpr.Proofs.Reading.Loops
import ShaderExpr.Proofs.Reading.Nesting

namespace ShaderExpr

namespace Evaluator

variable {α β : Type}

/-- An evaluator goes forward in the tokens and stays within them, unless it meets a fault. -/
def Forward (r : Evaluator α) : Prop := ∀ c a c', r c = .ok (a, c') → c'.rest <:+ c.rest

namespace Forward

variable {r : Evaluator α} {f : α → Evaluator β}

theorem lift {r : Reader α} (h : r.Forward) : (liftM r : Evaluator α).Forward := by
  intro c a c' hrun
  obtain rfl : (r c).2 = c' := congrArg Prod.snd (Except.ok.inj hrun)
  exact h c

theorem pure (a : α) : (pure a : Evaluator α).Forward := lift (.pure a)

theorem bind (h : r.Forward) (hf : ∀ a, (f a).Forward) : (r >>= f).Forward := by
  intro c b c'' hrun
  change Except.bind (r c) (fun (a, c') => f a c') = .ok (b, c'') at hrun
  cases hr : r c with
  | error cause => simp [hr, Except.bind] at hrun
  | ok result =>
    rw [hr] at hrun
    exact (hf result.1 result.2 b c'' hrun).trans (h c result.1 result.2 hr)

theorem look_bind {r : Reader α} (h : r.Still) (hf : ∀ a, (f a).Forward) :
    ((liftM r : Evaluator α) >>= f).Forward :=
  bind (lift (.still h)) hf

/-- A computation without a state. -/
theorem except_bind {x : Except Fault α} (hf : ∀ a, (f a).Forward) :
    ((liftM x : Evaluator α) >>= f).Forward := by
  intro c b c'' hrun
  cases x with
  | error cause =>
    have hfault : (Except.error cause : Except Fault (β × Cursor)) = .ok (b, c'') := hrun
    simp at hfault
  | ok a => exact hf a c b c'' hrun

theorem ite {b : Prop} [Decidable b] {yes no : Evaluator α} (hyes : yes.Forward)
    (hno : no.Forward) : (if b then yes else no).Forward := by
  split
  · exact hyes
  · exact hno

end Forward

end Evaluator

namespace Reader

open Evaluator

theorem forward_initialValue (name : String) (ty : Ty) (q : Qualifier) (span : Span) (e : Expr) :
    (initialValue name ty q span e).Forward := by
  have hnone (p : Problem) : Evaluator.Forward (do
      reportAt span p
      return (none : Option Value)) := .look_bind (fun _ => rfl) fun _ => .pure none
  refine .ite (hnone _) (.ite (hnone _) (.except_bind fun value? => ?_))
  cases value? with
  | some value => exact .pure _
  | none => exact hnone _

theorem forward_initializer (name : String) (nameSpan : Span) (ty : Ty) (q : Qualifier) :
    (initializer name nameSpan ty q).Forward := by
  refine .look_bind (fun _ => rfl) fun _ => .ite (.bind (.lift forward_advance) fun _ => ?_) ?_
  · refine .look_bind (fun _ => rfl) fun span => .look_bind (fun _ => rfl) fun _ => ?_
    refine .bind (.lift forward_expression) fun e => .look_bind (fun _ => rfl) fun _ => ?_
    exact .ite (.pure none) (forward_initialValue name ty q span e)
  · exact .ite (.look_bind (fun _ => rfl) fun _ => .pure none) (.pure none)

theorem forward_checkVariable (name : String) (nameSpan : Span) (ty : Ty) :
    (checkVariable name nameSpan ty).Forward := by
  have hname : Forward (do
      if ((← scope).variableNamed name).isSome then
        reportAt nameSpan (.redefinedVariable name)) :=
    .look_bind (fun _ => rfl) fun _ => .ite (.still fun _ => rfl) (.pure ())
  exact .ite (.look_bind (fun _ => rfl) fun _ => hname) hname

theorem forward_variableDeclaration (q : Qualifier) (ty : Ty) (name : String) :
    (variableDeclaration q ty name).Forward := by
  refine .look_bind (fun _ => rfl) fun span => .bind (.lift forward_advance) fun _ => ?_
  refine .look_bind (fun _ => rfl) fun _ => .bind (.lift (forward_checkVariable name span ty))
    fun _ => .bind (forward_initializer name span ty q) fun initial => ?_
  refine .look_bind (fun _ => rfl) fun _ => .bind (.lift (forward_expectControl _ _)) fun _ => ?_
  refine .ite (fun c a c' hrun => ?_) (.pure ())
  obtain rfl : { c with scope := (c.scope.addVariable name ty q initial).2 } = c' :=
    congrArg Prod.snd (Except.ok.inj hrun)
  exact List.suffix_rfl

/-- What is behind the qualifiers and the type of a declaration. -/
def declared (q : Qualifier) (ty? : Option Ty) : Evaluator Unit := do
  match ty? with
  | none =>
    report .expectedType
    skipPast ';'
  | some ty =>
    if ← isControl ';' then advance
    else match ← kind with
      | .ident name => variableDeclaration q ty name
      | _ =>
        report .expectedVariableName
        skipPast ';'

theorem declaration_eq : declaration =
    (liftM qualifier : Evaluator Qualifier) >>= fun q =>
      (liftM type : Evaluator (Option Ty)) >>= declared q := rfl

theorem forward_declared (q : Qualifier) (ty? : Option Ty) : (declared q ty?).Forward := by
  have hskip (p : Problem) : Evaluator.Forward (do
      report p
      skipPast ';') := .look_bind (fun _ => rfl) fun _ => .lift (forward_skipPast ';')
  cases ty? with
  | none => exact hskip _
  | some ty =>
    refine .look_bind (fun _ => rfl) fun _ => .ite (.lift forward_advance)
      (.look_bind (fun _ => rfl) fun kind => ?_)
    cases kind with
    | ident name => exact forward_variableDeclaration q ty name
    | _ => exact hskip _

theorem forward_qualifier : qualifier.Forward := by
  have hwords (c : Cursor) : (qualifierWords c.rest.length {} c).2.rest <:+ c.rest :=
    (qualifierWords_loops {} c).suffix
  intro c
  rw [qualifier_rest]
  exact hwords c

theorem forward_declaration : declaration.Forward := by
  rw [declaration_eq]
  exact .bind (.lift forward_qualifier) fun q => .bind (.lift forward_type) (forward_declared q)

theorem forward_declarations : ∀ bound : Nat, (declarations bound).Forward := by
  intro bound
  induction bound with
  | zero => exact .pure ()
  | succ bound ih =>
    refine .look_bind (fun c => ?_) fun _ => .ite (.bind forward_declaration fun _ => ih) (.pure ())
    rw [startsDeclaration_eq]

theorem forward_source : source.Forward := by
  have hend (e : Expr) : Evaluator.Forward (do
      let found ← (liftM kind : Evaluator Token.Kind)
      if found ≠ .endOfInput then liftM (report (.expectedEnd found))
      return e) :=
    .look_bind (fun _ => rfl) fun _ => .ite (.look_bind (fun _ => rfl) fun _ => .pure e) (.pure e)
  refine .look_bind (fun _ => rfl) fun _ => .bind (forward_declarations _) fun _ =>
    .bind (.lift forward_expression) fun e => .look_bind (fun _ => rfl) fun _ => ?_
  exact .ite (.bind (.lift forward_advance) fun _ => hend e) (hend e)

theorem takesStructs_definition : TakesStructs definition where
  forward := forward_definition
  takes c hc := by
    rw [definition_eq hc]
    have hend : c.kind ≠ .endOfInput := by simp [hc]
    exact Nat.lt_of_le_of_lt ((forward_structBody forward_definition).length_le c.advance)
      (Cursor.advance_lt hend)

/-- A type is taken where one starts. -/
theorem type_takes {c : Cursor}
    (hstart : c.kind = .keyword "struct" ∨ (namedType? c.scope c.kind).isSome) :
    (type c).2.rest.length < c.rest.length := by
  by_cases hstruct : c.kind = .keyword "struct"
  · have hrun : type c = definition c := by
      change (if c.kind = .keyword "struct" then definition else _ : Reader (Option Ty)) c = _
      rw [if_pos hstruct]
    rw [hrun]
    exact takesStructs_definition.takes c hstruct
  · obtain ⟨ty, hty⟩ := Option.isSome_iff_exists.mp (hstart.resolve_left hstruct)
    refine takesStructs_definition.typeWith_takes (show _ = (some ty : Option Ty) from ?_)
    change ((if c.kind = .keyword "struct" then definition
      else scope >>= fun s => if (namedType? s c.kind).isSome
        then advance >>= fun _ => pure (namedType? s c.kind) else pure (namedType? s c.kind)) c).1 = _
    rw [if_neg hstruct]
    change ((if (namedType? c.scope c.kind).isSome
      then advance >>= fun _ => pure (namedType? c.scope c.kind)
      else pure (namedType? c.scope c.kind) : Reader (Option Ty)) c).1 = _
    split <;> exact hty

/-- Where a declaration starts, it takes a token. -/
theorem declaration_takes {c c' : Cursor} (hstart : opensDeclaration c.scope c.kind c.nextKind)
    (hrun : declaration c = .ok ((), c')) : c'.rest.length < c.rest.length := by
  have hbehind : c'.rest <:+ (type (qualifier c).2).2.rest :=
    forward_declared (qualifier c).1 (type (qualifier c).2).1 (type (qualifier c).2).2 () c' hrun
  refine Nat.lt_of_le_of_lt hbehind.length_le ?_
  by_cases hword : ∃ word, c.kind = .keyword word ∧ (qualifierWord? word).isSome
  · obtain ⟨word, hkind, hsaid⟩ := hword
    exact Nat.lt_of_le_of_lt (forward_type.length_le _) (qualifier_takes hkind hsaid)
  · have hnone : ∀ word, c.kind = .keyword word → qualifierWord? word = none := by
      intro word hkind
      simpa [hkind] using hword
    rw [qualifier_stays hnone]
    refine type_takes ?_
    cases hkind : c.kind with
    | keyword word =>
      rw [hkind] at hstart
      simp only [opensDeclaration, hnone word hkind, Option.isSome_none, Bool.false_or, Bool.and_eq_true,
        Bool.or_eq_true, decide_eq_true_eq] at hstart
      exact hstart.2.imp (fun h => by rw [h]) id
    | ident name =>
      rw [hkind] at hstart
      simp only [opensDeclaration, Bool.and_eq_true] at hstart
      exact .inr hstart.2
    | _ => simp [opensDeclaration, hkind] at hstart

/-- One declaration. -/
def declarationRound (_ : Unit) : Evaluator (ForInStep Unit) := do
  if ← startsDeclaration then
    declaration
    return .yield ()
  else return .done ()

/-- Where no declaration starts, nothing is read. -/
theorem declarationRound_stop {c : Cursor}
    (hopen : opensDeclaration c.scope c.kind c.nextKind = false) :
    declarationRound () c = .ok (.done (), c) := by
  change (if (startsDeclaration c).1 then _ else _ : Evaluator (ForInStep Unit))
    (startsDeclaration c).2 = _
  rw [startsDeclaration_eq, hopen]
  rfl

theorem declarationRound_next {c c' : Cursor} (hopen : opensDeclaration c.scope c.kind c.nextKind)
    (hrun : declaration c = .ok ((), c')) : declarationRound () c = .ok (.yield (), c') := by
  change (if (startsDeclaration c).1 then declaration >>= fun _ => pure (.yield ())
    else pure (.done ()) : Evaluator (ForInStep Unit)) (startsDeclaration c).2 = _
  rw [startsDeclaration_eq, if_pos hopen]
  change Except.bind (declaration c) _ = _
  rw [hrun]
  rfl

theorem declarations_succ (n : Nat) (c : Cursor) : declarations (n + 1) c =
    Except.bind (declarationRound () c) fun
      | (.done _, c') => .ok ((), c')
      | (.yield _, c') => declarations n c' := by
  change (if (startsDeclaration c).1 then declaration >>= fun _ => declarations n
    else pure () : Evaluator Unit) (startsDeclaration c).2 =
    Except.bind ((if (startsDeclaration c).1 then declaration >>= fun _ => pure (.yield ())
      else pure (.done ()) : Evaluator (ForInStep Unit)) (startsDeclaration c).2) _
  split
  · change Except.bind (declaration (startsDeclaration c).2) _ =
      Except.bind (Except.bind (declaration (startsDeclaration c).2) _) _
    cases declaration (startsDeclaration c).2 <;> rfl
  · rfl

/-- Where declarations are read, each of them takes a token, none meets a fault, and the scope stays
    one of declarations. -/
theorem declarations_rounds : ∀ (n : Nat) (c : Cursor), c.rest.length ≤ n → c.scope.WellFormed →
    ∃ c', declarations n c = .ok ((), c') ∧
      Rounds (fun s c step c' => declarationRound s c = .ok (step, c')) () c () c' := by
  intro n
  induction n with
  | zero =>
    intro c hn _
    have hend : c.kind = .endOfInput :=
      Cursor.kind_of_rest_nil (List.length_eq_zero_iff.mp (Nat.le_zero.mp hn))
    have hstop := declarationRound_stop (c := c) (by rw [hend]; rfl)
    exact ⟨c, rfl, .last hstop List.suffix_rfl⟩
  | succ n ih =>
    intro c hn hc
    cases hopen : opensDeclaration c.scope c.kind c.nextKind with
    | false =>
      have hstop := declarationRound_stop hopen
      refine ⟨c, ?_, .last hstop List.suffix_rfl⟩
      rw [declarations_succ, hstop]
      rfl
    | true =>
      obtain ⟨⟨⟩, c', hrun, hc'⟩ := declaration_gives hc
      have hnext := declarationRound_next hopen hrun
      have htakes := declaration_takes hopen hrun
      obtain ⟨c'', hrest, hrounds⟩ := ih c' (by omega) hc'
      refine ⟨c'', ?_, .next hnext (forward_declaration c () c' hrun) htakes hrounds⟩
      rw [declarations_succ, hnext]
      exact hrest

/-- No reader goes back in the tokens or beyond their end. -/
structure GoesForward : Prop where
  stops : ∀ c : Cursor, c.rest = [] → c.advance = c ∧ ∀ mark, (c.skipPast mark).rest = []
  advance : advance.Forward
  skipPast : ∀ mark, (skipPast mark).Forward
  expectControl : ∀ mark problem, (expectControl mark problem).Forward
  expression : expression.Forward
  assignment : ∀ nested : Reader Expr, nested.Forward → (assignment nested).Forward
  operation : ∀ nested : Reader Expr, nested.Forward → (operation nested).Forward
  unary : ∀ nested : Reader Expr, nested.Forward → (unary nested).Forward
  postfixed : ∀ nested : Reader Expr, nested.Forward → (postfixed nested).Forward
  primary : ∀ nested : Reader Expr, nested.Forward → (primary nested).Forward
  type : type.Forward
  definition : definition.Forward
  qualifier : qualifier.Forward
  declaration : declaration.Forward
  source : source.Forward

theorem goesForward : GoesForward where
  stops c hnil := by
    refine ⟨by rw [Cursor.advance, hnil], fun mark => ?_⟩
    exact List.suffix_nil.mp (hnil ▸ c.skipPast_rest mark)
  advance := forward_advance
  skipPast := forward_skipPast
  expectControl := forward_expectControl
  expression := forward_expression
  assignment _ := forward_assignment
  operation _ := forward_operation
  unary _ := forward_unary
  postfixed _ := forward_postfixed
  primary _ := forward_primary
  type := forward_type
  definition := forward_definition
  qualifier := forward_qualifier
  declaration := forward_declaration
  source := forward_source

/-- Every loop ends with a round that ends it, and each round before takes a token. The number of
    tokens, which bounds the rounds, never cuts a loop short. -/
structure LoopsEnd : Prop where
  components : ∀ (nested : Reader Expr) (ty : Ty), nested.Forward →
    Loops (componentRound nested ty) fun taken => remaining >>= fun n =>
      componentArguments nested ty (n + 1) taken.1 taken.2
  arguments : ∀ nested : Reader Expr, nested.Forward →
    Loops (argumentRound nested) fun taken => remaining >>= fun n =>
      callArguments nested (n + 1) taken.1 taken.2
  postfixes : Loops postfixRound fun e => remaining >>= fun n => postfixes n e
  operators : ∀ (operand : Reader Expr) (precedence : Nat), operand.Forward →
    Loops (chainRound operand precedence) fun left => remaining >>= fun n =>
      chain operand precedence n left
  memberNames : ∀ ty : Ty, Loops (memberNameRound ty) fun found => remaining >>= fun n =>
    memberNames ty (n + 1) found
  members : Loops (memberRound definition) fun found => remaining >>= fun n =>
    members definition n found
  qualifiers : Loops qualifierRound fun q => remaining >>= fun n => qualifierWords n q
  declarations : ∀ c : Cursor, c.scope.WellFormed →
    ∃ c', declarations c.rest.length c = .ok ((), c') ∧
      Rounds (fun s c step c' => declarationRound s c = .ok (step, c')) () c () c'

theorem loopsEnd : LoopsEnd where
  components _ ty hn := (componentRound_productive hn ty).loops (componentArguments_eq ty)
  arguments _ hn := (argumentRound_productive hn).loops callArguments_eq
  postfixes := postfixRound_productive.loops_of_stop postfixRound_stop postfixes_eq
  operators _ precedence ho := (chainRound_productive ho precedence).loops_of_stop
    (chainRound_stop precedence) (chain_eq precedence)
  memberNames ty := (memberNameRound_productive ty).loops (memberNames_eq ty)
  members := (memberRound_productive takesStructs_definition).loops_of_stop memberRound_stop
    members_eq
  qualifiers := qualifierWords_loops
  declarations c hc := declarations_rounds c.rest.length c (Nat.le_refl _) hc

/-- Readers enter themselves behind a token only, and the number of tokens, which bounds the depth,
    never cuts the recursion short. -/
structure Recurses : Prop where
  expression : expression = assignment expression
  assignment : Deepens (fun _ => True) assignment
  unary : ∀ nested : Reader Expr, nested.Forward → unary nested = prefixed nested (unary nested)
  prefixed : ∀ nested : Reader Expr, nested.Forward → Deepens (fun _ => True) (prefixed nested)
  definition : ∀ c : Cursor, c.kind = .keyword "struct" →
    definition c = structBody definition c.advance
  structBody : Deepens (fun c => c.kind = .keyword "struct") fun definition =>
    Reader.advance >>= fun _ => structBody definition

theorem recurses : Recurses where
  expression := expression_eq
  assignment := assignment_deepens
  unary _ := unary_eq
  prefixed _ := prefixed_deepens
  definition _ := definition_eq
  structBody := structBody_deepens

end Reader

/-- Every source is read to its end without a fault: reading goes forward through its tokens, its
    loops and its recursion end by themselves, an operator is given a type by the rules of its
    family alone, and the evaluation of a well-typed tree gives a value or finds that it has none.
    The bounds that the definitions of loops and of the recursion have are thus no limits to them.
    -/
theorem Reading.total :
    (∀ source, ∃ reading, Reading.ofSource source .empty = .ok reading) ∧
      Reader.GoesForward ∧ Reader.LoopsEnd ∧ Reader.Recurses ∧
      (∀ (op : Operator) (left right ty : Ty), op.resultType left right = .ok ty →
        Operator.Typed op.family left right ty) ∧
      ∀ (s : Scope) (e : Expr), s.WellFormed → e.WellTyped s.declared →
        ∃ v?, e.constant? = .ok v? := by
  refine ⟨fun source => ?_, Reader.goesForward, Reader.loopsEnd, Reader.recurses,
    fun op left right ty => Operator.resultType_typed, fun s e hs he => ?_⟩
  · obtain ⟨reading, hreading, -⟩ := ofSource_total source Scope.WellFormed.empty
    exact ⟨reading, hreading⟩
  · rcases (he.settles hs.declared).constant? with ⟨v, hv, -⟩ | hnone
    · exact ⟨some v, hv⟩
    · exact ⟨none, hnone⟩

end ShaderExpr
