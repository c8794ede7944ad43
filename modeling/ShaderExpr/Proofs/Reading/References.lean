import Mathlib.Data.List.Nodup
import ShaderExpr.Proofs.Reading.Declared

namespace ShaderExpr

/-- Variables have names of their own, so a name finds the variable that was declared with it. -/
theorem Scope.WellFormed.variableNamed {s : Scope} (h : s.WellFormed) {x : Variable}
    (hx : x ∈ s.declared) : s.variableNamed x.name = some x := by
  unfold Scope.variableNamed
  cases hfound : s.declared.find? (·.name = x.name) with
  | none => simpa using List.find?_eq_none.mp hfound x hx
  | some y =>
    have hname : y.name = x.name := by simpa using List.find?_some hfound
    rw [List.inj_on_of_nodup_map h.names (List.mem_of_find?_eq_some hfound) hx hname]

theorem Cursor.kind_advance (c : Cursor) : c.advance.kind = c.nextKind := by
  obtain ⟨rest, sourceEnd, last, scope, diagnostics⟩ := c
  rcases rest with _ | ⟨t, _ | ⟨u, ts⟩⟩ <;> rfl

namespace Reader

theorem look_bind_apply {α β : Type} (r : Reader α) {f : α → Reader β} {c : Cursor} {a : α}
    (hr : r c = (a, c)) : (r >>= f) c = f a c := by
  change f (r c).1 (r c).2 = f a c
  rw [hr]

variable {nested : Reader Expr} {c : Cursor} {name : String}

theorem primary_ident (hkind : c.kind = .ident name) :
    primary nested c = named nested name c.span c.advance := by
  unfold primary
  rw [look_bind_apply span rfl, look_bind_apply kind rfl, hkind]
  rfl

/-- A name of neither a type nor a function is the variable of that name. -/
theorem named_variable {x : Variable} (noType : c.scope.typeNamed name = none)
    (noFunction : c.scope.hasFunction name = false) (found : c.scope.variableNamed name = some x)
    (nameSpan : Span) : named nested name nameSpan c = (.reference x, c) := by
  unfold named
  rw [scope_bind_apply, noType]
  simp only [noFunction, found]
  rfl

/-- A function has to be called, whatever else its name may mean. -/
theorem named_function (noType : c.scope.typeNamed name = none)
    (function : c.scope.hasFunction name) (noCall : c.kind ≠ .control '(') (nameSpan : Span) :
    named nested name nameSpan c = (.placeholder, c.report .expectedCall c.span) := by
  unfold named
  rw [scope_bind_apply, noType]
  simp only [function, if_true]
  unfold call
  change (if decide (c.kind = .control '(') then _ else _ : Reader Expr) c = _
  rw [if_neg (by simpa using noCall)]
  rfl

/-- Where an expression has the name of a variable that declarations made, no call follows and no
    struct took the name, the variable is meant and no problem reported, unless a builtin function
    has the name too. Then the call of the function is missing: a function hides a variable of its
    name even where no parenthesis follows. `behind` says that only structs were named since the
    declarations. -/
theorem primary_declared {tokens : List Token} {sourceEnd bound : Nat} {d : Cursor} {x : Variable}
    (ran : declarations bound ⟨tokens, sourceEnd, ⟨0, 0⟩, .empty, []⟩ = .ok ((), c))
    (declared : x ∈ c.scope.declared) (behind : c.scope.Extends d.scope)
    (hkind : d.kind = .ident x.name) (noCall : d.nextKind ≠ .control '(')
    (noType : d.scope.typeNamed x.name = none) :
    (Builtin.ofName? x.name = none → primary nested d = (.reference x, d.advance) ∧
        d.advance.diagnostics = d.diagnostics) ∧
      ((Builtin.ofName? x.name).isSome → primary nested d =
        (.placeholder, d.advance.report .expectedCall d.advance.span)) := by
  have hscope : c.scope.WellFormed := by
    obtain ⟨_, c', hrun, hc'⟩ := declarations_gives bound
      (c := ⟨tokens, sourceEnd, ⟨0, 0⟩, .empty, []⟩) Scope.WellFormed.empty
    rw [ran] at hrun
    obtain rfl : c = c' := congrArg Prod.snd (Except.ok.inj hrun)
    exact hc'
  have hfound : d.scope.variableNamed x.name = some x :=
    (hscope.extend behind).variableNamed (behind.declared ▸ declared)
  rw [primary_ident hkind]
  rw [← d.advance_scope] at noType hfound
  refine ⟨fun hbuiltin => ⟨?_, d.advance_diagnostics⟩, fun hbuiltin => ?_⟩
  · have noFunction : d.advance.scope.hasFunction x.name = false := by
      rw [Scope.hasFunction, hbuiltin]
      rfl
    exact named_variable noType noFunction hfound d.span
  · refine named_function noType hbuiltin ?_ d.span
    rw [Cursor.kind_advance]
    exact noCall

/-- A variable that a builtin function hides, and another one behind it. -/
theorem primary_declared_length : ∃ c x y,
    declarations 2 ⟨(lexStrict? "float length; int i; i").getD [], 22, ⟨0, 0⟩, .empty, []⟩ =
      .ok ((), c) ∧ c.scope.declared = [x, y] ∧ x.name = "length" ∧
      primary expression c = (.reference y, c.advance) ∧
      ∀ d : Cursor, d.scope = c.scope → d.kind = .ident "length" → d.nextKind = .endOfInput →
        primary expression d =
          (.placeholder, d.advance.report .expectedCall d.advance.span) := by
  have hrun : ((declarations 2 ⟨(lexStrict? "float length; int i; i").getD [], 22, ⟨0, 0⟩, .empty,
      []⟩).toOption.map fun r => (r.2.kind, r.2.nextKind, r.2.scope.declared.map (·.name),
        r.2.scope.types.map (·.1))) =
      some (.ident "i", .endOfInput, ["length", "i"], []) := by decide +kernel
  obtain ⟨⟨_, c⟩, hran, hc⟩ := Option.map_eq_some_iff.mp hrun
  have ran := Except.toOption_eq_some.mp hran
  obtain ⟨hkind, hnext, hnames, htypes⟩ : c.kind = .ident "i" ∧ c.nextKind = .endOfInput ∧
      c.scope.declared.map (·.name) = ["length", "i"] ∧ c.scope.types.map (·.1) = [] := by
    simpa using hc
  obtain ⟨x, _, hdeclared, hx, hrest⟩ := List.map_eq_cons_iff.mp hnames
  obtain ⟨y, rfl, hy⟩ := List.map_eq_singleton_iff.mp hrest
  have noType (name : String) : c.scope.typeNamed name = none := by
    rw [Scope.typeNamed, List.map_eq_nil_iff.mp htypes]
    rfl
  refine ⟨c, x, y, ran, hdeclared, hx, ?_, fun d hscope hname hend => ?_⟩
  · refine ((primary_declared ran (by simp [hdeclared]) (.refl _) (hy ▸ hkind) ?_ (noType _)).1
      (hy ▸ by decide +kernel)).1
    simp [hnext]
  · refine (primary_declared ran (x := x) (by simp [hdeclared]) (hscope ▸ .refl _) (hx ▸ hname) ?_
      (hscope ▸ noType _)).2 (hx ▸ by decide +kernel)
    simp [hend]

end Reader

end ShaderExpr
