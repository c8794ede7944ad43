import ShaderExpr.Program
import ShaderExpr.Proofs.Grammar.Soundness

namespace ShaderExpr

namespace Phrase

/-- Words in front of a declaration. A constant is a variable of the module, and no word says that a
    variable is one of the body function. -/
structure Qualifiers (ks : Kinds) (q : Qualifier) : Prop where
  words : ∀ k ∈ ks, ∃ word, k = .keyword word
  outside : q.storage.storageClass ≠ .function
  constant : q.isConstant → q.storage = .global

/-- What a variable starts with: a constant that fits its type, or nothing. Constants start with
    something. -/
inductive Initializer (ty : Ty) (q : Qualifier) : Scope → Kinds → Option Value → Scope → Prop
  | none {s : Scope} (varies : q.isConstant = false) : Initializer ty q s [] none s
  | some {s s' : Scope} {ks : Kinds} {e : Expr} {v : Value} (place : q.storage.canInitialize)
    (value : Assignment s ks e s') (fits : e.ty.convertsTo ty)
    (known : e.constant? = .ok (some v)) :
    Initializer ty q s (.control '=' :: ks) (v.convert ty).toOption s'

/-- A declaration of a type alone, or of a variable with a name of its own. -/
inductive Declaration : Scope → Kinds → Scope → Prop
  | type {s s' : Scope} {qs ks : Kinds} {q : Qualifier} {ty : Ty} (qualifiers : Qualifiers qs q)
    (type : Specifier s ks ty s') : Declaration s (qs ++ (ks ++ [.control ';'])) s'
  | object {s s' s'' : Scope} {qs ks us : Kinds} {q : Qualifier} {ty : Ty} {name : String}
    {initial : Option Value} (qualifiers : Qualifiers qs q) (type : Specifier s ks ty s')
    (holds : ty.isVoid = false) (fresh : s'.variableNamed name = none)
    (starts : Initializer ty q s' us initial s'') :
    Declaration s (qs ++ (ks ++ .ident name :: (us ++ [.control ';'])))
      (s''.addVariable name ty q initial).2

/-- Declarations one behind the other. -/
inductive Declarations : Scope → Kinds → Scope → Prop
  | none {s : Scope} : Declarations s [] s
  | more {s s' s'' : Scope} {ks us : Kinds} (first : Declaration s ks s')
    (rest : Declarations s' us s'') : Declarations s (ks ++ us) s''

end Phrase

namespace Evaluator

variable {α β : Type}

/-- Reading from `c` ends in a fault, or reports no problem only if it ends as `Q` says.
    Declarations evaluate their initializers, and that there is no fault in this is shown apart. -/
def Leaves (r : Evaluator α) (c : Cursor) (Q : α → Cursor → Prop) : Prop :=
  ∀ a c', r c = .ok (a, c') → c.Passes c' (Q a c')

namespace Leaves

variable {r : Evaluator α} {f : α → Evaluator β} {c : Cursor} {P Q : α → Cursor → Prop}
  {R : β → Cursor → Prop}

theorem mono (h : r.Leaves c P) (hPQ : ∀ a c', P a c' → Q a c') : r.Leaves c Q :=
  fun a c' hr => (h a c' hr).mono (hPQ a c')

theorem pure {a : α} (h : Q a c) : (pure a : Evaluator α).Leaves c Q := by
  intro a' c' hr
  have hr : (Except.ok (a, c) : Except Fault _) = .ok (a', c') := hr
  obtain ⟨rfl, rfl⟩ : a = a' ∧ c = c' := by simpa using hr
  exact .of_diagnostics_eq rfl h

theorem lift {r : Reader α} (h : r.Yields c Q) : (liftM r : Evaluator α).Leaves c Q := by
  intro a c' hr
  obtain ⟨rfl, rfl⟩ : (r c).1 = a ∧ (r c).2 = c' := by
    have hr : Except.ok (r c) = (Except.ok (a, c') : Except Fault _) := hr
    rw [Except.ok.inj hr]
    exact ⟨rfl, rfl⟩
  exact h

theorem bind (h : r.Leaves c P) (hf : ∀ a c', (f a).Leaves c' fun b c'' => P a c' → R b c'') :
    (r >>= f).Leaves c R := by
  intro b c'' hr
  change Except.bind (r c) (fun (a, c') => f a c') = .ok (b, c'') at hr
  cases hrun : r c with
  | error cause =>
    rw [hrun] at hr
    simp [Except.bind] at hr
  | ok result =>
    obtain ⟨a, c'⟩ := result
    rw [hrun] at hr
    exact (h a c' hrun).trans (hf a c' b c'' hr) fun hP hR => hR hP

/-- Reading goes on where a reader that changes nothing leaves it. -/
theorem look_bind {r : Reader α} {a : α} (hr : r c = (a, c)) (h : (f a).Leaves c R) :
    ((liftM r : Evaluator α) >>= f).Leaves c R := by
  intro b c'' hrun
  refine h b c'' ?_
  rw [← hrun]
  change f a c = f (r c).1 (r c).2
  rw [hr]

/-- A computation without a state, for those of its results that are no fault. -/
theorem except_bind {x : Except Fault α} (h : ∀ a, x = .ok a → (f a).Leaves c R) :
    ((liftM x : Evaluator α) >>= f).Leaves c R := by
  intro b c'' hrun
  cases x with
  | error cause =>
    have hfault : (Except.error cause : Except Fault (β × Cursor)) = .ok (b, c'') := hrun
    simp at hfault
  | ok a => exact h a rfl b c'' hrun

theorem advance_bind {f : Unit → Evaluator β} (h : (f ()).Leaves c.advance R) :
    ((liftM Reader.advance : Evaluator Unit) >>= f).Leaves c R := by
  intro b c'' hrun
  have hpass := h b c'' hrun
  exact Cursor.Passes.trans (.of_diagnostics_eq c.advance_diagnostics trivial) hpass fun _ => id

/-- Behind a report nothing is left to show. -/
theorem report_bind {r : Reader Unit} {f : Unit → Evaluator β}
    (hr : r.Yields c fun _ _ => False) (h : ∀ c', (f ()).Leaves c' fun _ _ => True) :
    ((liftM r : Evaluator Unit) >>= f).Leaves c R :=
  bind (lift hr) fun _ c' => (h c').mono fun _ _ _ hno => hno.elim

/-- Where a reading ended without a fault is known to be where it ends. -/
theorem ran (h : r.Leaves c Q) : r.Leaves c fun a c' => Q a c' ∧ r c = .ok (a, c') :=
  fun a c' hr => (h a c' hr).mono fun hQ => ⟨hQ, hr⟩

/-- A reading without problems leaves as many as there were. -/
theorem quiet (h : r.Leaves c Q) :
    r.Leaves c fun a c' => Q a c' ∧ c'.diagnostics.length = c.diagnostics.length :=
  fun a c' hr => ⟨(h a c' hr).1, fun hclean => ⟨(h a c' hr).2 hclean, hclean⟩⟩

end Leaves

end Evaluator

namespace Reader

open Evaluator

theorem storageClass_of_qualifierWord? {word : String} {s : Storage}
    (h : qualifierWord? word = some (.storage s)) : s.storageClass ≠ .function := by
  unfold qualifierWord? at h
  split at h <;> simp_all [Storage.storageClass]
  all_goals
    subst h
    simp

/-- What a qualifier word says changes no state of reading. Nor does it make a variable of a module
    one of the body function. -/
theorem qualify_stays {word : String} {said : QualifierWord}
    (known : qualifierWord? word = some said) (q : Qualifier) (c : Cursor) :
    (qualify word said q).Yields c fun q' c' => c' = c ∧
      (q.storage.storageClass ≠ .function → q'.storage.storageClass ≠ .function) := by
  unfold qualify
  cases said with
  | storage s =>
    dsimp only
    split
    · exact yields_report_bind fun c' => .pure trivial
    · exact .pure ⟨rfl, fun _ => storageClass_of_qualifierWord? known⟩
  | modifier m =>
    dsimp only
    split
    · exact yields_report_bind fun c' => .pure trivial
    · exact .pure ⟨rfl, id⟩
  | inout => exact yields_report_bind fun c' => .pure trivial

theorem qualifierWords_accepts : ∀ (bound : Nat) (q : Qualifier),
    (qualifierWords bound q).Accepts fun q' s ks s' => s' = s ∧
      (q.storage.storageClass ≠ .function → q'.storage.storageClass ≠ .function) ∧
      ∀ k ∈ ks, ∃ word, k = .keyword word := by
  intro bound
  induction bound with
  | zero => exact fun q c => .pure (.refl ⟨rfl, id, by simp⟩)
  | succ bound ih =>
    intro q c
    unfold qualifierWords
    refine .kind_bind ?_
    split
    · rename_i word hword
      split
      · rename_i said known
        refine Yields.bind (qualify_stays known q c) fun q' c' => .advance_bind ?_
        refine (ih q' c'.advance).mono ?_
        rintro q'' c'' hrest ⟨rfl, hfirst⟩
        refine (Cursor.spells_token hword (by simp)).trans hrest ?_
        rintro ks us ⟨rfl, hs⟩ ⟨hs', houtside, hus⟩
        exact ⟨hs'.trans hs, fun h => houtside (hfirst h), by simpa using hus⟩
      · exact .pure (.refl ⟨rfl, id, by simp⟩)
    · exact .pure (.refl ⟨rfl, id, by simp⟩)

theorem qualifier_accepts :
    qualifier.Accepts fun q s ks s' => s' = s ∧ Phrase.Qualifiers ks q := by
  intro c
  unfold qualifier
  refine .remaining_bind (Yields.bind (qualifierWords_accepts _ {} c) fun q c' => ?_)
  split
  · exact yields_report_bind fun c'' => .pure trivial
  · rename_i hglobal
    refine .pure fun hwords => hwords.mono fun ks h =>
      ⟨h.1, h.2.2, h.2.1 (by simp [Storage.storageClass]), fun hconstant => ?_⟩
    by_contra hstorage
    simp [hconstant, hstorage] at hglobal

theorem checkVariable_stays (name : String) (nameSpan : Span) (ty : Ty) (c : Cursor) :
    (checkVariable name nameSpan ty).Yields c fun _ c' =>
      c' = c ∧ ty.isVoid = false ∧ c.scope.variableNamed name = none := by
  unfold checkVariable
  cases hvoid : ty.isVoid with
  | true =>
    refine yields_reportAt_bind fun c' => .scope_bind ?_
    split
    · exact .reportAt
    · exact .pure trivial
  | false =>
    simp only [Bool.false_eq_true, if_false]
    refine .scope_bind ?_
    split
    · exact .reportAt
    · rename_i hnone
      exact .pure ⟨rfl, trivial, by simpa using hnone⟩

/-- The value of an initializer, whose tokens were read before. It says nothing only if the
    expression is constant and converts to the type of the variable. -/
theorem initialValue_leaves (name : String) (ty : Ty) (q : Qualifier) (span : Span) (e : Expr)
    (c : Cursor) : (initialValue name ty q span e).Leaves c fun initial c' =>
      c' = c ∧ q.storage.canInitialize ∧ e.ty.convertsTo ty ∧
        ∃ v, e.constant? = .ok (some v) ∧ initial = (v.convert ty).toOption := by
  unfold initialValue
  cases hplace : q.storage.canInitialize with
  | false => exact .report_bind .reportAt fun c' => .pure trivial
  | true =>
    cases hfits : e.ty.convertsTo ty with
    | false => exact .report_bind .reportAt fun c' => .pure trivial
    | true =>
      refine .except_bind fun value? hvalue => ?_
      cases value? with
      | none => exact .report_bind .reportAt fun c' => .pure trivial
      | some v => exact .pure ⟨rfl, rfl, rfl, v, hvalue, rfl⟩

theorem initializer_leaves (name : String) (nameSpan : Span) (ty : Ty) (q : Qualifier)
    (c : Cursor) : (initializer name nameSpan ty q).Leaves c fun initial c' =>
      c.Spells c' fun s ks s' => Phrase.Initializer ty q s ks initial s' := by
  unfold initializer
  by_cases hsign : c.kind = .control '='
  · refine .look_bind (a := true) (Prod.ext (decide_eq_true hsign) rfl) ?_
    refine .advance_bind (.look_bind rfl (.look_bind rfl ?_))
    refine .bind (Leaves.quiet (.lift (expression_accepts c.advance))) fun e c' => .look_bind rfl ?_
    split
    · rename_i hproblems
      refine .pure fun ⟨_, hquiet⟩ => ?_
      omega
    · refine (initialValue_leaves name ty q c.advance.span e c').mono ?_
      rintro initial c'' ⟨rfl, hplace, hfits, v, hv, rfl⟩ ⟨hvalue, -⟩
      refine (Cursor.spells_token hsign (by simp)).trans hvalue ?_
      rintro ks us ⟨rfl, hs⟩ hvalue
      exact .some hplace (hs ▸ hvalue) hfits hv
  · refine .look_bind (a := false) (Prod.ext (decide_eq_false hsign) rfl) ?_
    cases hconstant : q.isConstant with
    | true => exact .report_bind .reportAt fun c' => .pure trivial
    | false => exact .pure (.refl (.none hconstant))

/-- A variable behind its type. Without problems it is declared. -/
theorem variableDeclaration_leaves (q : Qualifier) (ty : Ty) {name : String} {c : Cursor}
    (hname : c.kind = .ident name) : (variableDeclaration q ty name).Leaves c fun _ c' =>
      c.Spells c' fun s ks s' => ∃ us initial s'', ks = .ident name :: (us ++ [.control ';']) ∧
        ty.isVoid = false ∧ s.variableNamed name = none ∧
        Phrase.Initializer ty q s us initial s'' ∧ s' = (s''.addVariable name ty q initial).2 := by
  unfold variableDeclaration
  refine .look_bind rfl (.advance_bind (.look_bind rfl ?_))
  refine .bind (Leaves.quiet (.lift (checkVariable_stays name c.span ty c.advance))) fun _ c' => ?_
  refine .bind (Leaves.quiet (initializer_leaves name c.span ty q c')) fun initial c₁ => ?_
  refine .look_bind rfl ?_
  refine .bind (.lift (expectControl_accepts ';' .expectedDeclarationEnd c₁)) fun _ c₂ => ?_
  by_cases hvalid : c₁.diagnostics.length = c.advance.diagnostics.length
  · rw [if_pos hvalid]
    rintro _ _ ⟨rfl, rfl⟩
    refine .of_diagnostics_eq rfl ?_
    rintro hend ⟨hstarts, -⟩ ⟨⟨rfl, hholds, hfresh⟩, -⟩
    obtain ⟨us, hus, hstarts⟩ := hstarts
    obtain ⟨vs, hvs, hmark, hscope⟩ := hend
    obtain ⟨t, ht, hkind⟩ := Cursor.rest_of_kind hname (by simp)
    rw [Cursor.advance_scope] at hfresh hstarts
    refine ⟨t :: (us ++ vs), by rw [ht, hus, hvs]; simp, us.map (·.kind), initial, c₁.scope, ?_,
      hholds, hfresh, hstarts, by rw [← hscope]⟩
    rw [List.map_cons, List.map_append, hkind, hmark]
  · rw [if_neg hvalid]
    refine .pure fun _ ⟨_, hquiet⟩ ⟨_, hquiet'⟩ => ?_
    omega

theorem declaration_leaves (c : Cursor) : declaration.Leaves c fun _ c' =>
    c.Spells c' Phrase.Declaration := by
  unfold declaration
  refine .bind (.lift (qualifier_accepts c)) fun q c₁ => ?_
  refine .bind (.lift (type_accepts c₁)) fun ty? c₂ => ?_
  cases ty? with
  | none => exact .report_bind .report fun c' => .lift (.skipPast trivial)
  | some ty =>
    have hfront {c' : Cursor} {R T : Scope → Phrase.Kinds → Scope → Prop} (hrest : c₂.Spells c' R)
        (htype : ∀ ty', some ty = some ty' → c₁.Spells c₂ fun s ks s' =>
          Phrase.Specifier s ks ty' s')
        (hqualifiers : c.Spells c₁ fun s ks s' => s' = s ∧ Phrase.Qualifiers ks q)
        (hT : ∀ {s s' s'' qs ks us}, Phrase.Qualifiers qs q → Phrase.Specifier s ks ty s' →
          R s' us s'' → T s (qs ++ (ks ++ us)) s'') : c.Spells c' T := by
      have hbehind := (htype ty rfl).trans hrest (T := fun s ks s' => ∃ us vs s'', ks = us ++ vs ∧
        Phrase.Specifier s us ty s'' ∧ R s'' vs s') fun ks us h h' => ⟨ks, us, _, rfl, h, h'⟩
      refine hqualifiers.trans hbehind ?_
      rintro qs _ ⟨hs, hqs⟩ ⟨ks, us, s'', rfl, hks, hus⟩
      exact hT hqs (hs ▸ hks) hus
    by_cases hend : c₂.kind = .control ';'
    · refine .look_bind (a := true) (Prod.ext (decide_eq_true hend) rfl) (.lift (.advance ?_))
      intro htype hqualifiers
      refine hfront (Cursor.spells_token hend (by simp)) htype hqualifiers ?_
      rintro s s' s'' qs ks us hqs hks ⟨rfl, rfl⟩
      exact .type hqs hks
    · refine .look_bind (a := false) (Prod.ext (decide_eq_false hend) rfl) (.look_bind rfl ?_)
      dsimp only
      split
      · rename_i name hname
        refine (variableDeclaration_leaves q ty hname).mono ?_
        intro _ c' hobject htype hqualifiers
        refine hfront hobject htype hqualifiers ?_
        rintro s s' s'' qs ks _ hqs hks ⟨us, initial, s₃, rfl, hholds, hfresh, hstarts, rfl⟩
        exact .object hqs hks hholds hfresh hstarts
      · exact .report_bind .report fun c' => .lift (.skipPast trivial)

/-- Does a declaration start with a token of kind `k` in front of one of kind `next`? -/
def opensDeclaration (s : Scope) (k next : Token.Kind) : Bool :=
  let namedNext := match next with
    | .ident _ => true
    | _ => false
  match k with
  | .keyword word => (qualifierWord? word).isSome ||
      (namedNext && (word = "struct" || (Ty.ofWord? word).isSome))
  | .ident name => namedNext && (s.typeNamed name).isSome
  | _ => false

theorem startsDeclaration_eq (c : Cursor) :
    startsDeclaration c = (opensDeclaration c.scope c.kind c.nextKind, c) := by
  have hbind {α β : Type} (r : Reader α) (f : α → Reader β) (c : Cursor) :
      (r >>= f) c = f (r c).1 (r c).2 := rfl
  have hkind : kind c = (c.kind, c) := rfl
  have hnext : nextKind c = (c.nextKind, c) := rfl
  have hpure {α : Type} (a : α) (c : Cursor) : (pure a : Reader α) c = (a, c) := rfl
  have hmap {α : Type} (f : Scope → α) : (f <$> scope : Reader α) c = (f c.scope, c) := rfl
  unfold startsDeclaration startsType opensDeclaration
  simp only [hbind, hkind, hnext]
  generalize c.nextKind = next
  cases hk : c.kind with
  | keyword word =>
    cases hword : (qualifierWord? word).isSome <;> cases next <;>
      simp [hbind, hkind, hmap, hpure, hk, hword, namedType?]
  | _ => cases next <;> simp [hbind, hkind, hmap, hpure, hk, namedType?]

theorem declarations_leaves : ∀ (bound : Nat) (c : Cursor),
    (declarations bound).Leaves c fun _ c' => c.Spells c' Phrase.Declarations := by
  intro bound
  induction bound with
  | zero => exact fun c => .pure (.refl .none)
  | succ bound ih =>
    intro c
    unfold declarations
    refine .look_bind (startsDeclaration_eq c) ?_
    split
    · refine .bind (declaration_leaves c) fun _ c' => (ih c').mono fun _ c'' hrest hfirst => ?_
      exact hfirst.trans hrest fun ks us => .more
    · exact .pure (.refl .none)

/-- What is behind the expression of a source changes no scope. -/
theorem sourceEnd_leaves (e : Expr) (c : Cursor) : Leaves (do
    if ← (liftM (isControl ';') : Evaluator Bool) then liftM advance
    let found ← (liftM kind : Evaluator Token.Kind)
    if found ≠ .endOfInput then liftM (report (.expectedEnd found))
    return e) c fun e' c' => e' = e ∧ c'.scope = c.scope := by
  have hend (c : Cursor) : Leaves (do
      let found ← (liftM kind : Evaluator Token.Kind)
      if found ≠ .endOfInput then liftM (report (.expectedEnd found))
      return e) c fun e' c' => e' = e ∧ c'.scope = c.scope := by
    refine .look_bind rfl ?_
    split
    · exact .report_bind .report fun c' => .pure trivial
    · exact .pure ⟨rfl, rfl⟩
  by_cases hmark : c.kind = .control ';'
  · refine .look_bind (a := true) (Prod.ext (decide_eq_true hmark) rfl) (.advance_bind ?_)
    refine (hend c.advance).mono fun e' c' h => ?_
    rw [Cursor.advance_scope] at h
    exact h
  · exact .look_bind (a := false) (Prod.ext (decide_eq_false hmark) rfl) (hend c)

/-- A source is declarations, and an expression in the scope that they leave. The tokens of both are
    in front of what may be left over. -/
theorem source_leaves (c : Cursor) : source.Leaves c fun e c' =>
    ∃ c₁ ds es, declarations c.rest.length c = .ok ((), c₁) ∧
      Phrase.Declarations c.scope ds c₁.scope ∧ Phrase.Assignment c₁.scope es e c'.scope ∧
      ds ++ es <+: c.rest.map (·.kind) := by
  unfold source
  refine .look_bind rfl (.bind (Leaves.ran (declarations_leaves c.rest.length c)) fun _ c₁ => ?_)
  refine .bind (.lift (expression_accepts c₁)) fun e c₂ => (sourceEnd_leaves e c₂).mono ?_
  rintro _ c₃ ⟨rfl, hscope⟩ ⟨es, hes, hexpression⟩ ⟨⟨ds, hds, hdeclarations⟩, hrun⟩
  refine ⟨c₁, _, _, hrun, hdeclarations, hscope ▸ hexpression, c₂.rest.map (·.kind), ?_⟩
  rw [hds, hes]
  simp

end Reader

/-- Scope that the declarations of a source leave to its expression, on top of a scope. -/
def Reading.declared (source : String) (scope : Scope) : Except Fault Scope :=
  match lex source with
  | (none, _) => .ok scope
  | (some tokens, _) => do
    let cursor : Cursor := ⟨tokens.tokens, source.utf8ByteSize, ⟨0, 0⟩, scope, []⟩
    let (_, cursor) ← (Reader.declarations tokens.tokens.length).run cursor
    return cursor.scope

/-- What a reading of tokens gives, if it ends in no fault. -/
theorem Reading.ofSource_eq_ok {source : String} {scope : Scope} {tokens : TokenList}
    {errors : List Diagnostic} {e : Expr} {c : Cursor} (hlex : lex source = (some tokens, errors))
    (hrun : Reader.source ⟨tokens.tokens, source.utf8ByteSize, ⟨0, 0⟩, scope, []⟩ = .ok (e, c)) :
    ofSource source scope = .ok ⟨some e, c.scope, errors ++ c.diagnostics⟩ := by
  unfold ofSource
  rw [hlex]
  dsimp only
  rw [StateT.run, hrun]
  rfl

/-- A reading of tokens is what reading them left, if it gave anything. It ends in a fault only
    where reading the tokens does. -/
theorem Reading.exists_run {source : String} {scope : Scope} {tokens : TokenList}
    {errors : List Diagnostic} {r : Reading} (hlex : lex source = (some tokens, errors))
    (h : ofSource source scope = .ok r) : ∃ e c,
      Reader.source ⟨tokens.tokens, source.utf8ByteSize, ⟨0, 0⟩, scope, []⟩ = .ok (e, c) ∧
      r = ⟨some e, c.scope, errors ++ c.diagnostics⟩ := by
  cases hrun : Reader.source ⟨tokens.tokens, source.utf8ByteSize, ⟨0, 0⟩, scope, []⟩ with
  | error cause =>
    unfold ofSource at h
    rw [hlex] at h
    dsimp only at h
    rw [StateT.run, hrun] at h
    exact absurd h (by simp [bind, Except.bind])
  | ok result =>
    obtain ⟨e, c⟩ := result
    rw [ofSource_eq_ok hlex hrun] at h
    exact ⟨e, c, rfl, (Except.ok.inj h).symm⟩

/-- A program is a reading without problems. -/
theorem Program.parseIn_eq_ok {source : String} {scope : Scope} {p : Program} :
    parseIn source scope = .ok p ↔
      Reading.ofSource source scope = .ok ⟨some p.expression, p.scope, []⟩ := by
  unfold parseIn
  obtain ⟨result, hresult⟩ : ∃ r, Reading.ofSource source scope = r := ⟨_, rfl⟩
  rw [hresult]
  cases p
  rcases result with cause | ⟨_ | e, s, _ | ⟨d, ds⟩⟩ <;> simp [and_comm]

/-- What a program was read from: tokens that are declarations of the grammar, and behind them an
    expression in the scope that these leave. -/
theorem Program.derives {source : String} {scope : Scope} {p : Program}
    (h : parseIn source scope = .ok p) : ∃ tokens s ds es, lex source = (some tokens, []) ∧
      Reading.declared source scope = .ok s ∧ Phrase.Declarations scope ds s ∧
      Phrase.Assignment s es p.expression p.scope ∧ ds ++ es <+: tokens.tokens.map (·.kind) := by
  rw [parseIn_eq_ok] at h
  obtain ⟨⟨tokens?, errors⟩, hlex⟩ : ∃ r, lex source = r := ⟨_, rfl⟩
  cases tokens? with
  | none =>
    unfold Reading.ofSource at h
    rw [hlex] at h
    simp at h
  | some tokens =>
    obtain ⟨e, c, hrun, hreading⟩ := Reading.exists_run hlex h
    obtain ⟨he, hscope, hclean⟩ := Reading.mk.inj hreading
    obtain rfl := Option.some.inj he
    obtain ⟨rfl, hnone⟩ := List.append_eq_nil_iff.mp hclean.symm
    obtain ⟨c₁, ds, es, hdeclared, hdeclarations, hexpression, htokens⟩ :=
      (Reader.source_leaves ⟨tokens.tokens, source.utf8ByteSize, ⟨0, 0⟩, scope, []⟩ _ c hrun).2
        (by rw [hnone])
    refine ⟨tokens, c₁.scope, ds, es, hlex, ?_, hdeclarations, hscope ▸ hexpression, htokens⟩
    unfold Reading.declared
    rw [hlex]
    dsimp only
    rw [StateT.run, hdeclared]
    rfl

end ShaderExpr
