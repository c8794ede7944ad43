import Mathlib.Tactic.Common
import ShaderExpr.Proofs.Grammar.Phrase

namespace ShaderExpr

namespace Cursor

@[simp] theorem report_rest (c : Cursor) (p : Problem) (s : Span) : (c.report p s).rest = c.rest :=
  rfl

@[simp] theorem advance_diagnostics (c : Cursor) : c.advance.diagnostics = c.diagnostics := by
  unfold advance
  split <;> rfl

@[simp] theorem advance_scope (c : Cursor) : c.advance.scope = c.scope := by
  unfold advance
  split <;> rfl

@[simp] theorem skipPast_diagnostics (c : Cursor) (mark : Char) :
    (c.skipPast mark).diagnostics = c.diagnostics := rfl

/-- Advancing takes the current token, unless the input is at its end. -/
theorem rest_of_kind {c : Cursor} {k : Token.Kind} (hk : c.kind = k) (hend : k ≠ .endOfInput) :
    ∃ t, c.rest = t :: c.advance.rest ∧ t.kind = k := by
  unfold kind at hk
  unfold advance
  split at hk
  · exact absurd hk.symm hend
  · exact ⟨_, by assumption, hk⟩

/-- From one state of reading to a later one, problems were only added, and `P` holds if there are
    none. Readers only add to the problems reported, so a reading that reports none went through
    states without problems only. -/
def Passes (c c' : Cursor) (P : Prop) : Prop :=
  c.diagnostics.length ≤ c'.diagnostics.length ∧
    (c'.diagnostics.length = c.diagnostics.length → P)

theorem Passes.trans {c c' c'' : Cursor} {P Q R : Prop} (h : c.Passes c' P) (h' : c'.Passes c'' Q)
    (hR : P → Q → R) : c.Passes c'' R := by
  obtain ⟨hle, hP⟩ := h
  obtain ⟨hle', hQ⟩ := h'
  exact ⟨Nat.le_trans hle hle', fun hclean => hR (hP (by omega)) (hQ (by omega))⟩

theorem Passes.mono {c c' : Cursor} {P Q : Prop} (h : c.Passes c' P) (hPQ : P → Q) :
    c.Passes c' Q :=
  ⟨h.1, fun hclean => hPQ (h.2 hclean)⟩

theorem Passes.of_diagnostics_eq {c c' : Cursor} {P : Prop} (h : c'.diagnostics = c.diagnostics)
    (hP : P) : c.Passes c' P :=
  ⟨Nat.le_of_eq (by rw [h]), fun _ => hP⟩

/-- A report is a problem, so everything follows from there being none behind it. -/
theorem passes_report (c : Cursor) (p : Problem) (s : Span) (P : Prop) :
    c.Passes (c.report p s) P := by
  constructor
  · simp [report]
  · intro hclean
    simp [report] at hclean

/-- The tokens between two states spell a phrase. -/
def Spells (c c' : Cursor) (R : Scope → Phrase.Kinds → Scope → Prop) : Prop :=
  ∃ ts, c.rest = ts ++ c'.rest ∧ R c.scope (ts.map (·.kind)) c'.scope

/-- A state in which nothing was read. -/
theorem Spells.refl {c : Cursor} {R : Scope → Phrase.Kinds → Scope → Prop}
    (h : R c.scope [] c.scope) : c.Spells c R :=
  ⟨[], rfl, h⟩

theorem Spells.trans {c c' c'' : Cursor} {R S T : Scope → Phrase.Kinds → Scope → Prop}
    (h : c.Spells c' R) (h' : c'.Spells c'' S)
    (hR : ∀ ks us, R c.scope ks c'.scope → S c'.scope us c''.scope →
      T c.scope (ks ++ us) c''.scope) : c.Spells c'' T := by
  obtain ⟨ts, hts, hr⟩ := h
  obtain ⟨us, hus, hr'⟩ := h'
  refine ⟨ts ++ us, by rw [hts, hus, List.append_assoc], ?_⟩
  rw [List.map_append]
  exact hR _ _ hr hr'

theorem Spells.mono {c c' : Cursor} {R S : Scope → Phrase.Kinds → Scope → Prop}
    (h : c.Spells c' R) (hR : ∀ ks, R c.scope ks c'.scope → S c.scope ks c'.scope) :
    c.Spells c' S := by
  obtain ⟨ts, hts, hr⟩ := h
  exact ⟨ts, hts, hR _ hr⟩

/-- A single token. -/
theorem spells_token {c : Cursor} {k : Token.Kind} (hk : c.kind = k) (hend : k ≠ .endOfInput) :
    c.Spells c.advance fun s ks s' => ks = [k] ∧ s' = s := by
  obtain ⟨t, hrest, ht⟩ := rest_of_kind hk hend
  exact ⟨[t], hrest, by simp [ht], advance_scope c⟩

end Cursor

namespace Reader

variable {α β : Type}

/-- Reading from `c` reports no problem only if it ends as `Q` says. Nothing is said of readings
    with problems. -/
def Yields (r : Reader α) (c : Cursor) (Q : α → Cursor → Prop) : Prop :=
  c.Passes (r c).2 (Q (r c).1 (r c).2)

namespace Yields

variable {r : Reader α} {f : α → Reader β} {c : Cursor} {P Q : α → Cursor → Prop}
  {R : β → Cursor → Prop}

theorem mono (h : r.Yields c P) (hPQ : ∀ a c', P a c' → Q a c') : r.Yields c Q :=
  Cursor.Passes.mono h (hPQ _ _)

theorem pure {a : α} (h : Q a c) : (pure a : Reader α).Yields c Q :=
  .of_diagnostics_eq rfl h

/-- What follows a reading may rely on how that ended, as far as its own end is concerned. -/
theorem bind (h : r.Yields c P) (hf : ∀ a c', (f a).Yields c' fun b c'' => P a c' → R b c'') :
    (r >>= f).Yields c R :=
  Cursor.Passes.trans h (hf _ _) fun hP hR => hR hP

theorem ite {b : Bool} {yes no : Reader α} (hyes : b = true → yes.Yields c Q)
    (hno : b = false → no.Yields c Q) : (if b = true then yes else no).Yields c Q := by
  cases b with
  | true => exact hyes rfl
  | false => exact hno rfl

theorem kind_bind {f : Token.Kind → Reader β} (h : (f c.kind).Yields c R) :
    (kind >>= f).Yields c R := h

theorem span_bind {f : Span → Reader β} (h : (f c.span).Yields c R) : (span >>= f).Yields c R := h

theorem scope_bind {f : Scope → Reader β} (h : (f c.scope).Yields c R) :
    (scope >>= f).Yields c R := h

theorem get_bind {f : Cursor → Reader β} (h : (f c).Yields c R) :
    ((get : Reader Cursor) >>= f).Yields c R := h

theorem remaining_bind {f : Nat → Reader β} (h : (f c.rest.length).Yields c R) :
    (remaining >>= f).Yields c R := h

theorem problemCount_bind {f : Nat → Reader β} (h : (f c.diagnostics.length).Yields c R) :
    (problemCount >>= f).Yields c R := h

theorem isControl_bind {m : Char} {f : Bool → Reader β}
    (h : (f (decide (c.kind = .control m))).Yields c R) : (isControl m >>= f).Yields c R := h

theorem advance_bind {f : Unit → Reader β} (h : (f ()).Yields c.advance R) :
    (advance >>= f).Yields c R :=
  Cursor.Passes.trans (.of_diagnostics_eq c.advance_diagnostics trivial) h fun _ => id

theorem advance {Q : Unit → Cursor → Prop} (h : Q () c.advance) : advance.Yields c Q :=
  .of_diagnostics_eq c.advance_diagnostics h

theorem skipPast {m : Char} {Q : Unit → Cursor → Prop} (h : Q () (c.skipPast m)) :
    (skipPast m).Yields c Q :=
  .of_diagnostics_eq rfl h

theorem skipPast_bind {m : Char} {f : Unit → Reader β} (h : (f ()).Yields (c.skipPast m) R) :
    (Reader.skipPast m >>= f).Yields c R :=
  Cursor.Passes.trans (.of_diagnostics_eq (c.skipPast_diagnostics m) trivial) h fun _ => id

theorem reportAt {s : Span} {p : Problem} {Q : Unit → Cursor → Prop} :
    (reportAt s p).Yields c Q :=
  c.passes_report p s _

theorem report {p : Problem} {Q : Unit → Cursor → Prop} : (report p).Yields c Q := reportAt

end Yields

/-- Behind a report nothing is left to show. -/
theorem yields_reportAt_bind {s : Span} {p : Problem} {f : Unit → Reader β} {c : Cursor}
    {R : β → Cursor → Prop} (h : ∀ c', (f ()).Yields c' fun _ _ => True) :
    (reportAt s p >>= f).Yields c R :=
  Yields.bind (P := fun _ _ => False) .reportAt fun _ c' => (h c').mono fun _ _ _ hno => hno.elim

theorem yields_report_bind {p : Problem} {f : Unit → Reader β} {c : Cursor}
    {R : β → Cursor → Prop} (h : ∀ c', (f ()).Yields c' fun _ _ => True) :
    (report p >>= f).Yields c R :=
  yields_reportAt_bind h

/-- Readings of a reader without problems take a phrase. -/
def Accepts (r : Reader α) (R : α → Scope → Phrase.Kinds → Scope → Prop) : Prop :=
  ∀ c : Cursor, r.Yields c fun a c' => c.Spells c' (R a)

/-- Without problems, a control token that is expected is there. -/
theorem expectControl_accepts (m : Char) (p : Problem) :
    (expectControl m p).Accepts fun _ s ks s' => ks = [.control m] ∧ s' = s := by
  intro c
  unfold expectControl
  refine .isControl_bind ?_
  by_cases hm : c.kind = .control m
  · rw [if_pos (by simpa using hm)]
    exact .advance (Cursor.spells_token hm (by simp))
  · rw [if_neg (by simpa using hm)]
    exact yields_report_bind fun c' => .skipPast trivial

end Reader

end ShaderExpr
