import ShaderExpr.Grammar.Declaration
import ShaderExpr.Proofs.Reading.Forward

namespace ShaderExpr

variable {σ : Type}

/-- The rounds of a loop, from a state at a cursor to where the loop ends. All of them stay within
    the tokens, and one with another behind it takes a token. -/
inductive Rounds (round : σ → Cursor → ForInStep σ → Cursor → Prop) :
    σ → Cursor → σ → Cursor → Prop
  | last {s s' : σ} {c c' : Cursor} (run : round s c (.done s') c') (within : c'.rest <:+ c.rest) :
    Rounds round s c s' c'
  | next {s s' s'' : σ} {c c' c'' : Cursor} (run : round s c (.yield s') c')
    (within : c'.rest <:+ c.rest) (takes : c'.rest.length < c.rest.length)
    (rest : Rounds round s' c' s'' c'') : Rounds round s c s'' c''

/-- A loop goes forward. -/
theorem Rounds.suffix {round : σ → Cursor → ForInStep σ → Cursor → Prop} {s s' : σ}
    {c c' : Cursor} (h : Rounds round s c s' c') : c'.rest <:+ c.rest := by
  induction h with
  | last _ within => exact within
  | next _ within _ _ ih => exact ih.trans within

namespace Reader

/-- A loop goes through rounds of this kind until one ends it, wherever it is entered. It is bounded
    by the number of tokens left, and that is no limit to it, since all rounds before the last take
    a token. -/
def Loops (round : σ → Reader (ForInStep σ)) (loop : σ → Reader σ) : Prop :=
  ∀ s c, Rounds (fun s c step c' => round s c = (step, c')) s c (loop s c).1 (loop s c).2

/-- At most `n` rounds. -/
def repeated (round : σ → Reader (ForInStep σ)) : Nat → σ → Reader σ
  | 0, s => return s
  | n + 1, s => do
    match ← round s with
    | .done s => return s
    | .yield s => repeated round n s

/-- A round from `c` with another one behind it leaves less than `n` tokens. -/
def Shortens (n : Nat) (r : Reader (ForInStep σ)) (c : Cursor) : Prop :=
  ∀ s', (r c).1 = .yield s' → (r c).2.rest.length < n

/-- Rounds that go forward, and take a token if another one follows. -/
structure Productive (round : σ → Reader (ForInStep σ)) : Prop where
  forward : ∀ s, (round s).Forward
  takes : ∀ s c, (round s).Shortens c.rest.length c

variable {round : σ → Reader (ForInStep σ)}

theorem repeated_succ (n : Nat) (s : σ) (c : Cursor) :
    repeated round (n + 1) s c = match round s c with
      | (.done s', c') => (s', c')
      | (.yield s', c') => repeated round n s' c' := by
  change (match (round s c).1 with
    | .done s' => pure s'
    | .yield s' => repeated round n s' : Reader σ) (round s c).2 = _
  rcases round s c with ⟨_ | _, _⟩ <;> rfl

/-- More rounds than there are tokens are never all needed, since each one but the last takes a
    token. -/
theorem Productive.rounds (h : Productive round) : ∀ (n : Nat) (s : σ) (c : Cursor),
    c.rest.length < n ∨ (c.rest.length = n ∧ ∀ s c, c.rest = [] → round s c = (.done s, c)) →
      Rounds (fun s c step c' => round s c = (step, c')) s c (repeated round n s c).1
        (repeated round n s c).2
  | 0, s, c, hn => by
    obtain ⟨hnil, hstop⟩ := hn.resolve_left (Nat.not_lt_zero _)
    exact .last (hstop s c (List.length_eq_zero_iff.mp hnil)) List.suffix_rfl
  | n + 1, s, c, hn => by
    have hwithin := h.forward s c
    rw [repeated_succ]
    generalize hround : round s c = result at hwithin
    obtain ⟨step, c'⟩ := result
    cases step with
    | done s' => exact .last hround hwithin
    | yield s' =>
      have htakes : c'.rest.length < c.rest.length := by
        simpa [hround] using h.takes s c s'
      refine .next hround hwithin htakes (h.rounds n s' c' ?_)
      rcases hn with hn | ⟨hn, hstop⟩
      · exact .inl (by omega)
      · by_cases hlast : c'.rest.length = n
        · exact .inr ⟨hlast, hstop⟩
        · exact .inl (by omega)

/-- A loop with one round more to go than there are tokens. -/
theorem Productive.loops (h : Productive round) {loop : Nat → σ → Reader σ}
    (hloop : ∀ n s, loop n s = repeated round n s) :
    Loops round fun s => remaining >>= fun n => loop (n + 1) s := by
  intro s c
  have hrounds := h.rounds (c.rest.length + 1) s c (.inl (Nat.lt_succ_self _))
  rw [← hloop] at hrounds
  exact hrounds

/-- A loop with as many rounds to go as there are tokens, which stops at their end. By `stop` the
    last round is not cut off, although there is no round to spare. -/
theorem Productive.loops_of_stop (h : Productive round)
    (stop : ∀ s c, c.rest = [] → round s c = (.done s, c)) {loop : Nat → σ → Reader σ}
    (hloop : ∀ n s, loop n s = repeated round n s) :
    Loops round fun s => remaining >>= fun n => loop n s := by
  intro s c
  have hrounds := h.rounds c.rest.length s c (.inr ⟨rfl, stop⟩)
  rw [← hloop] at hrounds
  exact hrounds

namespace Shortens

variable {α : Type} {n : Nat} {r : Reader α} {f : α → Reader (ForInStep σ)} {c : Cursor}

theorem done {s : σ} : Shortens n (pure (.done s)) c := by
  intro s' h
  cases h

theorem bind (hle : c.rest.length ≤ n) (hr : r.Forward)
    (hf : ∀ a c', c'.rest.length ≤ n → (f a).Shortens n c') : (r >>= f).Shortens n c :=
  hf (r c).1 (r c).2 (Nat.le_trans (hr.length_le c) hle)

/-- A reading that takes a token leaves the rest of the round to any other. -/
theorem of_lt (hlt : (r c).2.rest.length < n) (hf : ∀ a, (f a).Forward) :
    (r >>= f).Shortens n c :=
  fun _ _ => Nat.lt_of_le_of_lt ((hf _).length_le _) hlt

/-- Where a token was taken already, the rest of a round only has to go forward. -/
theorem of_forward {r : Reader (ForInStep σ)} (hlt : c.rest.length < n) (hr : r.Forward) :
    r.Shortens n c :=
  fun _ _ => Nat.lt_of_le_of_lt (hr.length_le c) hlt

theorem run_bind (h : (f (r c).1).Shortens n (r c).2) : (r >>= f).Shortens n c := h

theorem kind_bind {f : Token.Kind → Reader (ForInStep σ)} (h : (f c.kind).Shortens n c) :
    (kind >>= f).Shortens n c := h

theorem isControl_bind {m : Char} {f : Bool → Reader (ForInStep σ)}
    (h : (f (decide (c.kind = .control m))).Shortens n c) : (isControl m >>= f).Shortens n c := h

theorem report_bind {p : Problem} {f : Unit → Reader (ForInStep σ)}
    (h : (f ()).Shortens n (c.report p c.span)) : (report p >>= f).Shortens n c := h

theorem advance_bind (hle : c.rest.length ≤ n) (hkind : c.kind ≠ .endOfInput)
    {f : Unit → Reader (ForInStep σ)} (hf : ∀ a, (f a).Forward) : (advance >>= f).Shortens n c :=
  of_lt (Nat.lt_of_lt_of_le (Cursor.advance_lt hkind) hle) hf

/-- Behind a mark that stands between, one more round follows. -/
theorem separated (hle : c.rest.length ≤ n) (m : Char) (s : σ) : Shortens n (do
    if ← isControl m then
      advance
      return .yield s
    else return .done s) c := by
  change Shortens n (if decide (c.kind = .control m) then _ else _) c
  split
  · rename_i hm
    refine advance_bind hle ?_ fun _ => .pure _
    rw [of_decide_eq_true hm]
    simp
  · exact done

end Shortens

/-- A mark decides whether a loop goes on. -/
theorem separated_bind (m : Char) (s : σ) (next : σ → Reader σ) :
    (do
      if ← isControl m then
        advance
        return ForInStep.yield s
      else return ForInStep.done s : Reader (ForInStep σ)) >>= (fun
        | .done s => pure s
        | .yield s => next s) =
    (do
      if ← isControl m then
        advance
        next s
      else return s) := by
  rw [bind_assoc]
  refine bind_congr fun found => ?_
  cases found <;> rfl

theorem forward_separated (m : Char) (s : σ) : Forward (do
    if ← isControl m then
      advance
      return ForInStep.yield s
    else return ForInStep.done s) :=
  .look_bind (fun _ => rfl) fun _ => .ite (.bind forward_advance fun _ => .pure _) (.pure _)

variable {nested : Reader Expr}

/-- One argument of a constructor, and the comma behind it. -/
def componentRound (nested : Reader Expr) (ty : Ty) (taken : Int × List Expr) :
    Reader (ForInStep (Int × List Expr)) := do
  let argumentSpan ← span
  let argument ← nested
  let taken ← takeComponents ty argumentSpan argument taken.1 taken.2
  if ← isControl ',' then
    advance
    return .yield taken
  else return .done taken

theorem componentArguments_eq (ty : Ty) (n : Nat) (taken : Int × List Expr) :
    componentArguments nested ty n taken.1 taken.2 = repeated (componentRound nested ty) n taken := by
  induction n generalizing taken with
  | zero => rfl
  | succ n ih =>
    unfold componentArguments repeated componentRound
    rw [bind_assoc]
    refine bind_congr fun span => ?_
    rw [bind_assoc]
    refine bind_congr fun argument => ?_
    rw [bind_assoc]
    refine bind_congr fun taken => ?_
    dsimp only
    rw [ih taken]
    exact (separated_bind ',' taken _).symm

theorem componentRound_productive (hn : nested.Forward) (ty : Ty) :
    Productive (componentRound nested ty) where
  forward _ := .look_bind (fun _ => rfl) fun _ => .bind hn fun _ =>
    .bind (still_takeComponents _ _ _ _ _) fun taken => forward_separated ',' taken
  takes _ _ := .bind (Nat.le_refl _) (.still fun _ => rfl) fun _ _ hle => .bind hle hn
    fun _ _ hle => .bind hle (still_takeComponents _ _ _ _ _) fun _ _ hle => .separated hle ',' _

/-- One argument of a call, and the comma behind it. -/
def argumentRound (nested : Reader Expr) (taken : Candidates × List Expr) :
    Reader (ForInStep (Candidates × List Expr)) := do
  let (candidates, arguments) := taken
  let argumentSpan ← span
  let argument ← nested
  let narrowed := candidates.takeArgument arguments.length argument.ty
  if !candidates.isEmpty && narrowed.isEmpty then
    reportAt argumentSpan (.noOverloadForTypes (arguments.length + 1))
  if ← isControl ',' then
    advance
    return .yield (narrowed, arguments ++ [argument])
  else return .done (narrowed, arguments ++ [argument])

theorem callArguments_eq (n : Nat) (taken : Candidates × List Expr) :
    callArguments nested n taken.1 taken.2 = repeated (argumentRound nested) n taken := by
  induction n generalizing taken with
  | zero => rfl
  | succ n ih =>
    unfold callArguments repeated argumentRound
    rw [bind_assoc]
    refine bind_congr fun span => ?_
    rw [bind_assoc]
    refine bind_congr fun argument => ?_
    dsimp only
    split
    · rw [bind_assoc]
      refine bind_congr fun _ => ?_
      rw [ih (_, _)]
      exact (separated_bind ',' _ _).symm
    · rw [ih (_, _)]
      exact (separated_bind ',' _ _).symm

theorem argumentRound_productive (hn : nested.Forward) : Productive (argumentRound nested) where
  forward taken := .look_bind (fun _ => rfl) fun _ => .bind hn fun _ => .ite
    (.look_bind (fun _ => rfl) fun _ => forward_separated ',' _) (forward_separated ',' _)
  takes taken c := by
    refine .bind (Nat.le_refl _) (.still fun _ => rfl) fun span c₁ hle => .bind hle hn
      fun argument c₂ hle => ?_
    dsimp only
    split
    · exact .bind hle (.still fun _ => rfl) fun _ _ hle => .separated hle ',' _
    · exact .separated hle ',' _

/-- One field or unsupported operator. -/
def postfixRound (e : Expr) : Reader (ForInStep Expr) := do
  match ← kind with
  | .control '.' =>
    advance
    return .yield (← field e)
  | .control '[' =>
    report .subscript
    skipPast ']'
    return .yield e
  | .symbol .increment | .symbol .decrement =>
    report (.postfixOperator (← kind))
    advance
    return .yield e
  | _ => return .done e

theorem postfixes_eq (n : Nat) (e : Expr) : postfixes n e = repeated postfixRound n e := by
  induction n generalizing e with
  | zero => rfl
  | succ n ih =>
    unfold postfixes repeated postfixRound
    rw [bind_assoc]
    refine bind_congr fun kind => ?_
    split
    · simp only [bind_assoc, pure_bind]
      exact bind_congr fun _ => bind_congr fun e => ih e
    · simp only [bind_assoc, pure_bind]
      exact bind_congr fun _ => bind_congr fun _ => ih e
    · simp only [bind_assoc, pure_bind]
      exact bind_congr fun _ => bind_congr fun _ => bind_congr fun _ => ih e
    · simp only [bind_assoc, pure_bind]
      exact bind_congr fun _ => bind_congr fun _ => bind_congr fun _ => ih e
    · simp_all

theorem postfixRound_productive : Productive postfixRound where
  forward e := by
    refine .look_bind (fun _ => rfl) fun kind => ?_
    split
    · exact .bind forward_advance fun _ => .bind (forward_field e) fun _ => .pure _
    · exact .look_bind (fun _ => rfl) fun _ => .bind (forward_skipPast _) fun _ => .pure _
    · exact .look_bind (fun _ => rfl) fun _ => .look_bind (fun _ => rfl) fun _ =>
        .bind forward_advance fun _ => .pure _
    · exact .look_bind (fun _ => rfl) fun _ => .look_bind (fun _ => rfl) fun _ =>
        .bind forward_advance fun _ => .pure _
    · exact .pure _
  takes e c := by
    refine .kind_bind ?_
    split
    · rename_i hkind
      exact .advance_bind (Nat.le_refl _) (by simp [hkind]) fun _ =>
        .bind (forward_field e) fun _ => .pure _
    · rename_i hkind
      have hrest : c.rest ≠ [] := fun hnil => by
        rw [Cursor.kind_of_rest_nil hnil] at hkind
        simp at hkind
      exact .report_bind (.of_lt (Cursor.skipPast_lt _ hrest) fun _ => .pure _)
    all_goals first
      | rename_i hkind
        have hend : (c.report (.postfixOperator c.kind) c.span).kind ≠ .endOfInput := by
          change c.kind ≠ .endOfInput
          simp [hkind]
        exact .kind_bind (.report_bind (.advance_bind (Nat.le_refl _) hend fun _ => .pure _))
      | exact .done

theorem postfixRound_stop (e : Expr) (c : Cursor) (h : c.rest = []) :
    postfixRound e c = (.done e, c) := by
  change (match c.kind with
    | .control '.' => advance >>= fun _ => field e >>= fun e => pure (.yield e)
    | .control '[' => report .subscript >>= fun _ => skipPast ']' >>= fun _ => pure (.yield e)
    | .symbol .increment | .symbol .decrement =>
      kind >>= fun k => report (.postfixOperator k) >>= fun _ => advance >>= fun _ =>
        pure (.yield e)
    | _ => pure (.done e) : Reader (ForInStep Expr)) c = (.done e, c)
  rw [Cursor.kind_of_rest_nil h]
  rfl

/-- One operator of a precedence and its right operand. -/
def chainRound (operand : Reader Expr) (precedence : Nat) (left : Expr) :
    Reader (ForInStep Expr) := do
  match (← kind).operator?.filter (·.precedence = precedence) with
  | some op =>
    let operatorSpan ← span
    advance
    let right ← operand
    return .yield (← combined op operatorSpan left right)
  | none => return .done left

variable {operand : Reader Expr}

theorem chain_eq (precedence n : Nat) (left : Expr) :
    chain operand precedence n left = repeated (chainRound operand precedence) n left := by
  induction n generalizing left with
  | zero => rfl
  | succ n ih =>
    unfold chain repeated chainRound
    rw [bind_assoc]
    refine bind_congr fun kind => ?_
    cases kind.operator?.filter (·.precedence = precedence) with
    | some op =>
      simp only [bind_assoc, pure_bind]
      exact bind_congr fun _ => bind_congr fun _ => bind_congr fun _ => bind_congr ih
    | none => rfl

theorem chainRound_productive (ho : operand.Forward) (precedence : Nat) :
    Productive (chainRound operand precedence) where
  forward left := by
    refine .look_bind (fun _ => rfl) fun kind => ?_
    split
    · exact .look_bind (fun _ => rfl) fun span => .bind forward_advance fun _ => .bind ho fun right =>
        .bind (still_combined _ span left right) fun _ => .pure _
    · exact .pure _
  takes left c := by
    refine .kind_bind ?_
    split
    · rename_i op hop
      have hend : c.kind ≠ .endOfInput := by
        intro hend
        rw [hend] at hop
        simp [Token.Kind.operator?] at hop
      exact .advance_bind (Nat.le_refl _) hend fun _ => .bind ho fun right =>
        .bind (still_combined _ _ left right) fun _ => .pure _
    · exact .done

theorem chainRound_stop (precedence : Nat) (left : Expr) (c : Cursor) (h : c.rest = []) :
    chainRound operand precedence left c = (.done left, c) := by
  change (match c.kind.operator?.filter (·.precedence = precedence) with
    | some op => span >>= fun s => advance >>= fun _ => operand >>= fun right =>
      combined op s left right >>= fun e => pure (.yield e)
    | none => pure (.done left) : Reader (ForInStep Expr)) c = (.done left, c)
  rw [Cursor.kind_of_rest_nil h]
  rfl

/-- The name of one member, and the comma behind it. -/
def memberNameRound (ty : Ty) (members : List (String × Ty)) :
    Reader (ForInStep (List (String × Ty))) := do
  match ← kind with
  | .ident name =>
    let duplicate := members.any (·.1 = name)
    if duplicate then report (.duplicateMember name)
    advance
    let members := if duplicate then members else members ++ [(name, ty)]
    if ← isControl ',' then
      advance
      return .yield members
    else return .done members
  | _ =>
    report .expectedMemberName
    return .done members

theorem memberNames_eq (ty : Ty) (n : Nat) (members : List (String × Ty)) :
    memberNames ty n members = repeated (memberNameRound ty) n members := by
  induction n generalizing members with
  | zero => rfl
  | succ n ih =>
    unfold memberNames repeated memberNameRound
    rw [bind_assoc]
    refine bind_congr fun kind => ?_
    cases kind with
    | ident name =>
      dsimp only
      split
      · rw [bind_assoc]
        refine bind_congr fun _ => ?_
        rw [bind_assoc]
        refine bind_congr fun _ => ?_
        rw [ih]
        exact (separated_bind ',' _ _).symm
      · rw [bind_assoc]
        refine bind_congr fun _ => ?_
        rw [ih]
        exact (separated_bind ',' _ _).symm
    | _ => rfl

theorem memberNameRound_productive (ty : Ty) : Productive (memberNameRound ty) where
  forward members := by
    refine .look_bind (fun _ => rfl) fun kind => ?_
    split
    · exact .ite (.look_bind (fun _ => rfl) fun _ => .bind forward_advance fun _ =>
        forward_separated ',' _) (.bind forward_advance fun _ => forward_separated ',' _)
    · exact .look_bind (fun _ => rfl) fun _ => .pure _
  takes members c := by
    refine .kind_bind ?_
    split
    · dsimp only
      split
      · exact .bind (Nat.le_refl _) (.still fun _ => rfl) fun _ _ hle =>
          .bind hle forward_advance fun _ _ hle => .separated hle ',' _
      · exact .bind (Nat.le_refl _) forward_advance fun _ _ hle => .separated hle ',' _
    · exact .report_bind .done

/-- A reader of struct definitions, which takes their keyword at least. -/
structure TakesStructs (definition : Reader (Option Ty)) : Prop where
  forward : definition.Forward
  takes : ∀ c : Cursor, c.kind = .keyword "struct" →
    (definition c).2.rest.length < c.rest.length

variable {definition : Reader (Option Ty)}

/-- Where there is a type, a token is taken. -/
theorem TakesStructs.typeWith_takes (h : TakesStructs definition) {c : Cursor} {ty : Ty}
    (hty : (typeWith definition c).1 = some ty) :
    (typeWith definition c).2.rest.length < c.rest.length := by
  have hrun : typeWith definition c = if c.kind = .keyword "struct" then definition c
      else (namedType? c.scope c.kind, if (namedType? c.scope c.kind).isSome then c.advance else c)
      := by
    change (if c.kind = .keyword "struct" then definition
      else scope >>= fun s => if (namedType? s c.kind).isSome
        then advance >>= fun _ => pure (namedType? s c.kind) else pure (namedType? s c.kind)) c = _
    split
    · rfl
    · change (if (namedType? c.scope c.kind).isSome
        then advance >>= fun _ => pure (namedType? c.scope c.kind)
        else pure (namedType? c.scope c.kind) : Reader (Option Ty)) c = _
      split <;> rfl
  rw [hrun] at hty ⊢
  split
  · rename_i hstruct
    exact h.takes c hstruct
  · rename_i hstruct
    rw [if_neg hstruct] at hty
    have hend : c.kind ≠ .endOfInput := by
      intro hend
      rw [hend] at hty
      simp [namedType?] at hty
    have hsome : (namedType? c.scope c.kind).isSome := Option.isSome_iff_exists.mpr ⟨ty, hty⟩
    rw [if_pos hsome]
    exact Cursor.advance_lt hend

/-- Declarations of members of one type, up to the closing brace. -/
def memberRound (definition : Reader (Option Ty)) (found : List (String × Ty)) :
    Reader (ForInStep (List (String × Ty))) := do
  if (← isControl '}') || (← kind) = .endOfInput then return .done found
  else
    match ← typeWith definition with
    | none =>
      report .expectedMemberType
      skipPast ';'
      return .yield found
    | some ty =>
      if !(ty.isBasic || ty.isStruct) then report (.memberType ty)
      let found ← memberNames ty ((← remaining) + 1) found
      expectControl ';' .expectedMemberEnd
      return .yield found

theorem members_eq (n : Nat) (found : List (String × Ty)) :
    members definition n found = repeated (memberRound definition) n found := by
  induction n generalizing found with
  | zero => rfl
  | succ n ih =>
    unfold members repeated memberRound
    rw [bind_assoc]
    refine bind_congr fun closing => ?_
    rw [bind_assoc]
    refine bind_congr fun kind => ?_
    split
    · rfl
    · rw [bind_assoc]
      refine bind_congr fun ty? => ?_
      cases ty? with
      | none =>
        simp only [bind_assoc, pure_bind]
        exact bind_congr fun _ => bind_congr fun _ => ih found
      | some ty =>
        dsimp only
        split
        · simp only [bind_assoc, pure_bind]
          exact bind_congr fun _ => bind_congr fun _ => bind_congr fun found =>
            bind_congr fun _ => ih found
        · simp only [bind_assoc, pure_bind]
          exact bind_congr fun _ => bind_congr fun found => bind_congr fun _ => ih found

theorem forward_memberBody (ty? : Option Ty) (found : List (String × Ty)) : Forward (do
    match ty? with
    | none =>
      report .expectedMemberType
      skipPast ';'
      return ForInStep.yield found
    | some ty =>
      if !(ty.isBasic || ty.isStruct) then report (.memberType ty)
      let found ← memberNames ty ((← remaining) + 1) found
      expectControl ';' .expectedMemberEnd
      return ForInStep.yield found) := by
  cases ty? with
  | none => exact .look_bind (fun _ => rfl) fun _ => .bind (forward_skipPast _) fun _ => .pure _
  | some ty =>
    have hrest : Forward (do
        let found ← memberNames ty ((← remaining) + 1) found
        expectControl ';' .expectedMemberEnd
        return ForInStep.yield found) :=
      .look_bind (fun _ => rfl) fun _ => .bind (forward_memberNames ty _ found) fun found =>
        .bind (forward_expectControl _ _) fun _ => .pure _
    exact .ite (.look_bind (fun _ => rfl) fun _ => hrest) hrest

theorem memberRound_productive (h : TakesStructs definition) :
    Productive (memberRound definition) where
  forward found :=
    .look_bind (fun _ => rfl) fun _ => .look_bind (fun _ => rfl) fun _ => .ite (.pure _)
      (.bind (forward_typeWith h.forward) fun ty? => forward_memberBody ty? found)
  takes found c := by
    refine .isControl_bind (.kind_bind ?_)
    split
    · exact .done
    · rename_i hopen
      have hrest : c.rest ≠ [] := fun hnil => by
        rw [Cursor.kind_of_rest_nil hnil] at hopen
        simp at hopen
      refine .run_bind ?_
      have hle := (forward_typeWith h.forward).length_le c
      cases hty : (typeWith definition c).1 with
      | some ty => exact .of_forward (h.typeWith_takes hty) (forward_memberBody (some ty) found)
      | none =>
        refine .report_bind (.of_lt ?_ fun _ => .pure _)
        by_cases hnil : (typeWith definition c).2.rest = []
        · have hskip := ((typeWith definition c).2.skipPast_rest ';').length_le
          rw [hnil] at hskip
          exact Nat.lt_of_le_of_lt hskip (List.length_pos_iff.mpr hrest)
        · exact Nat.lt_of_lt_of_le (Cursor.skipPast_lt _ hnil) hle

theorem memberRound_stop (found : List (String × Ty)) (c : Cursor) (h : c.rest = []) :
    memberRound definition found c = (.done found, c) := by
  change (if decide (c.kind = .control '}') || decide (c.kind = .endOfInput) then _
    else _ : Reader (ForInStep (List (String × Ty)))) c = (.done found, c)
  rw [Cursor.kind_of_rest_nil h]
  rfl

/-- One qualifier word. -/
def qualifierRound (q : Qualifier) : Reader (ForInStep Qualifier) := do
  match ← kind with
  | .keyword word =>
    match qualifierWord? word with
    | some said =>
      let q ← qualify word said q
      advance
      return .yield q
    | none => return .done q
  | _ => return .done q

theorem still_qualify (word : String) (said : QualifierWord) (q : Qualifier) :
    (qualify word said q).Still := by
  unfold qualify
  cases said with
  | storage s => exact .ite (.bind (fun _ => rfl) fun _ _ => rfl) fun _ => rfl
  | modifier m => exact .ite (.bind (fun _ => rfl) fun _ _ => rfl) fun _ => rfl
  | inout => exact .bind (fun _ => rfl) fun _ _ => rfl

theorem kind_eq_of_rest {c c' : Cursor} (h : c'.rest = c.rest) : c'.kind = c.kind := by
  unfold Cursor.kind
  rw [h]

theorem qualifierWords_eq (n : Nat) (q : Qualifier) :
    qualifierWords n q = repeated qualifierRound n q := by
  induction n generalizing q with
  | zero => rfl
  | succ n ih =>
    unfold qualifierWords repeated qualifierRound
    rw [bind_assoc]
    refine bind_congr fun kind => ?_
    cases kind with
    | keyword word =>
      dsimp only
      cases qualifierWord? word with
      | some said =>
        simp only [bind_assoc, pure_bind]
        exact bind_congr fun q => bind_congr fun _ => ih q
      | none => rfl
    | _ => rfl

theorem qualifierRound_productive : Productive qualifierRound where
  forward q := by
    refine .look_bind (fun _ => rfl) fun kind => ?_
    split
    · split
      · exact .look_bind (still_qualify _ _ q) fun _ => .bind forward_advance fun _ => .pure _
      · exact .pure _
    · exact .pure _
  takes q c := by
    refine .kind_bind ?_
    split
    · rename_i word hword
      split
      · rename_i said _
        have hrest := still_qualify word said q c
        refine .run_bind (.advance_bind (Nat.le_of_eq (congrArg List.length hrest)) ?_ fun _ => .pure _)
        rw [kind_eq_of_rest hrest, hword]
        simp
      · exact .done
    · exact .done

theorem qualifierRound_stop (q : Qualifier) (c : Cursor) (h : c.rest = []) :
    qualifierRound q c = (.done q, c) := by
  change (match c.kind with
    | .keyword word =>
      match qualifierWord? word with
      | some said => qualify word said q >>= fun q => advance >>= fun _ => pure (.yield q)
      | none => pure (.done q)
    | _ => pure (.done q) : Reader (ForInStep Qualifier)) c = (.done q, c)
  rw [Cursor.kind_of_rest_nil h]
  rfl

theorem qualifierWords_loops : Loops qualifierRound fun q => remaining >>= fun n =>
    qualifierWords n q :=
  qualifierRound_productive.loops_of_stop qualifierRound_stop qualifierWords_eq

theorem qualifierRound_word {c : Cursor} {word : String} {said : QualifierWord}
    (hkind : c.kind = .keyword word) (hsaid : qualifierWord? word = some said) (q : Qualifier) :
    ∃ q', (qualifierRound q c).1 = .yield q' := by
  refine ⟨(qualify word said q c).1, ?_⟩
  change ((match c.kind with
    | .keyword word =>
      match qualifierWord? word with
      | some said => qualify word said q >>= fun q => advance >>= fun _ => pure (.yield q)
      | none => pure (.done q)
    | _ => pure (.done q) : Reader (ForInStep Qualifier)) c).1 = _
  rw [hkind]
  dsimp only
  rw [hsaid]
  rfl

theorem qualifierRound_other {c : Cursor}
    (hkind : ∀ word, c.kind = .keyword word → qualifierWord? word = none) (q : Qualifier) :
    qualifierRound q c = (.done q, c) := by
  change (match c.kind with
    | .keyword word =>
      match qualifierWord? word with
      | some said => qualify word said q >>= fun q => advance >>= fun _ => pure (.yield q)
      | none => pure (.done q)
    | _ => pure (.done q) : Reader (ForInStep Qualifier)) c = (.done q, c)
  cases hk : c.kind with
  | keyword word =>
    dsimp only
    rw [hkind word hk]
    rfl
  | _ => rfl

theorem qualifier_rest (c : Cursor) :
    (qualifier c).2.rest = (qualifierWords c.rest.length {} c).2.rest := by
  change ((if _ then _ else _ : Reader Qualifier) (qualifierWords c.rest.length {} c).2).2.rest = _
  split <;> rfl

/-- A qualifier word is taken. -/
theorem qualifier_takes {c : Cursor} {word : String} (hkind : c.kind = .keyword word)
    (hsaid : (qualifierWord? word).isSome) : (qualifier c).2.rest.length < c.rest.length := by
  obtain ⟨said, hsaid⟩ := Option.isSome_iff_exists.mp hsaid
  obtain ⟨q, hyield⟩ := qualifierRound_word hkind hsaid {}
  rw [qualifier_rest]
  have hrounds := qualifierWords_loops {} c
  cases hrounds with
  | last run => simp [run] at hyield
  | next _ _ takes rest => exact Nat.lt_of_le_of_lt rest.suffix.length_le takes

/-- Where there is no qualifier word, nothing is read. -/
theorem qualifier_stays {c : Cursor}
    (hkind : ∀ word, c.kind = .keyword word → qualifierWord? word = none) :
    qualifier c = ({}, c) := by
  have hwords : qualifierWords c.rest.length {} c = ({}, c) := by
    cases hn : c.rest.length with
    | zero => rfl
    | succ n =>
      rw [qualifierWords_eq, repeated_succ, qualifierRound_other hkind]
  change ((if (qualifierWords c.rest.length {} c).1.isConstant && _ then _ else _ :
    Reader Qualifier) (qualifierWords c.rest.length {} c).2) = _
  rw [hwords]
  rfl

end Reader

end ShaderExpr
