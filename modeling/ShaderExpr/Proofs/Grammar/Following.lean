import ShaderExpr.Proofs.Grammar.Arguments

namespace ShaderExpr

namespace Cursor

/-- Kinds of the tokens not read yet. -/
def kinds (c : Cursor) : Phrase.Kinds := c.rest.map (·.kind)

theorem kind_eq_headD (c : Cursor) : c.kind = c.kinds.headD .endOfInput := by
  unfold kind kinds
  cases c.rest <;> rfl

theorem kind_of_kinds {c : Cursor} {k : Token.Kind} {us : Phrase.Kinds} (h : c.kinds = k :: us) :
    c.kind = k := by
  rw [kind_eq_headD, h]
  rfl

theorem kinds_advance {c : Cursor} {k : Token.Kind} {us : Phrase.Kinds} (h : c.kinds = k :: us) :
    c.advance.kinds = us := by
  unfold kinds at h
  unfold kinds advance
  cases hrest : c.rest with
  | nil => simp [hrest] at h
  | cons t rest => simpa [hrest] using (List.cons.inj (by simpa [hrest] using h)).2

theorem nextKind_eq_headD (c : Cursor) : c.nextKind = c.kinds.tail.headD .endOfInput := by
  unfold nextKind kinds
  rcases c.rest with _ | ⟨t, _ | ⟨u, ts⟩⟩ <;> rfl

theorem rest_eq_nil {c : Cursor} (h : c.kinds = []) : c.rest = [] := List.map_eq_nil_iff.mp h

theorem length_rest (c : Cursor) : c.rest.length = c.kinds.length := (List.length_map _).symm

end Cursor

namespace Phrase

/-- A token that does not go on with the fields of an expression, nor makes a call of one. -/
def EndsFields (k : Token.Kind) : Prop :=
  k ≠ .control '.' ∧ k ≠ .control '[' ∧ k ≠ .control '(' ∧ k ≠ .symbol .increment ∧
    k ≠ .symbol .decrement

/-- A token that does not go on with an operation of a precedence. -/
def EndsOperation (p : Nat) (k : Token.Kind) : Prop :=
  EndsFields k ∧ ∀ op, k.operator? = some op → op.precedence < p

/-- A token that does not go on with an assignment. -/
def EndsAssignment (k : Token.Kind) : Prop := EndsOperation 2 k ∧ k.assignment? = none

theorem endsFields_of_operator {k : Token.Kind} {op : Operator} (h : k.operator? = some op) :
    EndsFields k := by
  refine ⟨?_, ?_, ?_, ?_, ?_⟩ <;> rintro rfl <;> simp [Token.Kind.operator?, Symbol.operator?] at h

theorem endsOperation_of_operator {k : Token.Kind} {op : Operator} {p : Nat}
    (h : k.operator? = some op) (hp : op.precedence < p) : EndsOperation p k := by
  refine ⟨endsFields_of_operator h, fun op' hop => ?_⟩
  obtain rfl : op = op' := by simpa [h] using hop
  exact hp

theorem EndsOperation.mono {k : Token.Kind} {p q : Nat} (h : EndsOperation p k) (hpq : p ≤ q) :
    EndsOperation q k :=
  ⟨h.1, fun op hop => Nat.lt_of_lt_of_le (h.2 op hop) hpq⟩

theorem endsOperation_of_assignment {k : Token.Kind} {op : Option Operator}
    (h : k.assignment? = some op) (p : Nat) : EndsOperation p k := by
  have hnone : k.operator? = none := by
    unfold Token.Kind.assignment? at h
    split at h
    · rfl
    · rename_i s
      cases s <;> first | rfl | simp [Symbol.assigned?] at h
    · simp at h
  refine ⟨⟨?_, ?_, ?_, ?_, ?_⟩, by simp [hnone]⟩ <;> rintro rfl <;>
    simp [Token.Kind.assignment?, Symbol.assigned?] at h

theorem endsAssignment_endOfInput : EndsAssignment .endOfInput := by
  simp [EndsAssignment, EndsOperation, EndsFields, Token.Kind.operator?, Token.Kind.assignment?]

theorem endsAssignment_closing : EndsAssignment (.control ')') := by
  simp [EndsAssignment, EndsOperation, EndsFields, Token.Kind.operator?, Token.Kind.assignment?]

theorem endsAssignment_comma : EndsAssignment (.control ',') := by
  simp [EndsAssignment, EndsOperation, EndsFields, Token.Kind.operator?, Token.Kind.assignment?]

end Phrase

namespace Reader

variable {α β : Type}

/-- Reading from `c` reports no problem and ends as `Q` says. Tokens behind a phrase must not belong
    to it, and the first of them tells. -/
def Gives (r : Reader α) (c : Cursor) (Q : α → Cursor → Prop) : Prop :=
  (r c).2.diagnostics = c.diagnostics ∧ Q (r c).1 (r c).2

namespace Gives

variable {r : Reader α} {f : α → Reader β} {c : Cursor} {P Q : α → Cursor → Prop}
  {R : β → Cursor → Prop}

theorem mono (h : r.Gives c P) (hPQ : ∀ a c', P a c' → Q a c') : r.Gives c Q :=
  ⟨h.1, hPQ _ _ h.2⟩

theorem pure {a : α} (h : Q a c) : (pure a : Reader α).Gives c Q := ⟨rfl, h⟩

theorem bind (h : r.Gives c P)
    (hf : ∀ a c', c'.diagnostics = c.diagnostics → P a c' → (f a).Gives c' R) :
    (r >>= f).Gives c R := by
  obtain ⟨hclean, hP⟩ := h
  obtain ⟨hclean', hR⟩ := hf _ _ hclean hP
  exact ⟨hclean'.trans hclean, hR⟩

theorem kind_bind {f : Token.Kind → Reader β} (h : (f c.kind).Gives c R) :
    (kind >>= f).Gives c R := h

theorem span_bind {f : Span → Reader β} (h : (f c.span).Gives c R) : (span >>= f).Gives c R := h

theorem scope_bind {f : Scope → Reader β} (h : (f c.scope).Gives c R) :
    (scope >>= f).Gives c R := h

theorem remaining_bind {f : Nat → Reader β} (h : (f c.kinds.length).Gives c R) :
    (remaining >>= f).Gives c R := by
  rw [← Cursor.length_rest] at h
  exact h

theorem problemCount_bind {f : Nat → Reader β} (h : (f c.diagnostics.length).Gives c R) :
    (problemCount >>= f).Gives c R := h

theorem isControl_bind {m : Char} {f : Bool → Reader β}
    (h : (f (decide (c.kind = .control m))).Gives c R) : (isControl m >>= f).Gives c R := h

theorem advance_bind {f : Unit → Reader β} (h : (f ()).Gives c.advance R) :
    (advance >>= f).Gives c R :=
  bind (P := fun _ c' => c' = c.advance) ⟨c.advance_diagnostics, rfl⟩ fun _ _ _ h' => h' ▸ h

/-- A control token that is there is read. -/
theorem expectControl_bind {m : Char} {p : Problem} {f : Unit → Reader β} {us : Phrase.Kinds}
    (hc : c.kinds = .control m :: us) (h : (f ()).Gives c.advance R) :
    (expectControl m p >>= f).Gives c R := by
  refine bind (P := fun _ c' => c' = c.advance) ?_ fun _ _ _ h' => h' ▸ h
  have hm := Cursor.kind_of_kinds hc
  unfold expectControl
  refine isControl_bind ?_
  rw [if_pos (by simpa using hm)]
  exact ⟨c.advance_diagnostics, rfl⟩

end Gives

/-- A check whose condition some result satisfies gives that result. -/
theorem Decides.gives_bind {r : Reader α} {P : α → Prop} {f : α → Reader β} {c : Cursor}
    {R : β → Cursor → Prop} {a : α} (h : r.Decides P) (ha : P a) (hf : (f a).Gives c R) :
    (r >>= f).Gives c R := by
  refine Gives.bind (P := fun a' c' => a' = a ∧ c' = c) ?_ ?_
  · rw [Gives, (h c).2 a ha]
    exact ⟨rfl, rfl, rfl⟩
  · rintro a' c' - ⟨rfl, rfl⟩
    exact hf

theorem Decides.gives {r : Reader α} {P : α → Prop} {c : Cursor} {Q : α → Cursor → Prop} {a : α}
    (h : r.Decides P) (ha : P a) (hQ : Q a c) : r.Gives c Q := by
  rw [Gives, (h c).2 a ha]
  exact ⟨rfl, hQ⟩

/-- A phrase of the tokens `ks` is read as `a` where the tokens `us` follow, from a state in the
    scope `s` to one in the scope `s'`. -/
def Reads (r : Reader α) (s : Scope) (ks us : Phrase.Kinds) (a : α) (s' : Scope) : Prop :=
  ∀ c : Cursor, c.kinds = ks ++ us → c.scope = s →
    r.Gives c fun a' c' => a' = a ∧ c'.kinds = us ∧ c'.scope = s'

theorem Reads.bind {r : Reader α} {s s' : Scope} {ks us : Phrase.Kinds} {a : α} {f : α → Reader β}
    {c : Cursor} {R : β → Cursor → Prop} (h : r.Reads s ks us a s') (hc : c.kinds = ks ++ us)
    (hs : c.scope = s)
    (hf : ∀ c', c'.diagnostics = c.diagnostics → c'.kinds = us → c'.scope = s' →
      (f a).Gives c' R) : (r >>= f).Gives c R := by
  refine Gives.bind (h c hc hs) ?_
  rintro a' c' hclean ⟨rfl, hrest, hscope⟩
  exact hf c' hclean hrest hscope

end Reader

end ShaderExpr
