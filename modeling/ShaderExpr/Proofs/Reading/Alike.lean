import Mathlib.Data.List.Forall2
import ShaderExpr.Proofs.Grammar.Following
import ShaderExpr.Proofs.Reading.Totality

namespace ShaderExpr

/-- A relation of spans that merging keeps. Two readings of tokens of the same kinds stand at other
    places and report at other spans: at those of tokens, at the end of input, and over two of
    these. A relation that holds of the first two kinds thus holds of all that they report. -/
structure SpanRelation where
  Holds : Span → Span → Prop
  merge {s s' t t' : Span} : Holds s s' → Holds t t' → Holds (s.merge t) (s'.merge t')

/-- Tokens of one kind, at related spans. -/
def Token.Alike (S : SpanRelation) (t u : Token) : Prop := t.kind = u.kind ∧ S.Holds t.span u.span

/-- One problem, at related spans. -/
def Diagnostic.Alike (S : SpanRelation) (d e : Diagnostic) : Prop :=
  d.problem = e.problem ∧ S.Holds d.span e.span

/-- States of two readings that differ in spans only, and in related ones. -/
structure Cursor.Alike (S : SpanRelation) (c d : Cursor) : Prop where
  rest : List.Forall₂ (Token.Alike S) c.rest d.rest
  sourceEnd : S.Holds ⟨c.sourceEnd, c.sourceEnd⟩ ⟨d.sourceEnd, d.sourceEnd⟩
  last : S.Holds c.last d.last
  scope : c.scope = d.scope
  diagnostics : List.Forall₂ (Diagnostic.Alike S) c.diagnostics d.diagnostics

variable {S : SpanRelation} {α β : Type}

namespace Cursor.Alike

variable {c d : Cursor}

theorem kinds (h : c.Alike S d) : c.kinds = d.kinds := by
  have hkinds : List.Forall₂ (· = ·) c.kinds d.kinds := List.rel_map (fun _ _ ht => ht.1) h.rest
  rwa [List.forall₂_eq_eq_eq] at hkinds

theorem kind (h : c.Alike S d) : c.kind = d.kind := by
  rw [kind_eq_headD, kind_eq_headD, h.kinds]

theorem nextKind (h : c.Alike S d) : c.nextKind = d.nextKind := by
  rw [nextKind_eq_headD, nextKind_eq_headD, h.kinds]

theorem length_rest (h : c.Alike S d) : c.rest.length = d.rest.length := h.rest.length_eq

theorem problemCount (h : c.Alike S d) : c.diagnostics.length = d.diagnostics.length :=
  h.diagnostics.length_eq

theorem span (h : c.Alike S d) : S.Holds c.span d.span := by
  have hrest := h.rest
  unfold Cursor.span
  cases hc : c.rest with
  | nil =>
    rw [hc, List.forall₂_nil_left_iff] at hrest
    rw [hrest]
    exact h.sourceEnd
  | cons t ts =>
    rw [hc] at hrest
    obtain ⟨u, us, htu, -, hd⟩ := List.forall₂_cons_left_iff.mp hrest
    rw [hd]
    exact htu.2

theorem advance (h : c.Alike S d) : c.advance.Alike S d.advance := by
  have hrest := h.rest
  unfold Cursor.advance
  cases hc : c.rest with
  | nil =>
    rw [hc, List.forall₂_nil_left_iff] at hrest
    rw [hrest]
    exact h
  | cons t ts =>
    rw [hc] at hrest
    obtain ⟨u, us, htu, hts, hd⟩ := List.forall₂_cons_left_iff.mp hrest
    rw [hd]
    exact ⟨hts, h.sourceEnd, htu.2, h.scope, h.diagnostics⟩

theorem skipPast_go {mark : Char} {last last' : Span} {ts us : List Token}
    (hlast : S.Holds last last') (h : List.Forall₂ (Token.Alike S) ts us) :
    S.Holds (skipPast.go mark last ts).1 (skipPast.go mark last' us).1 ∧
      List.Forall₂ (Token.Alike S) (skipPast.go mark last ts).2 (skipPast.go mark last' us).2 := by
  induction h generalizing last last' with
  | nil => exact ⟨hlast, .nil⟩
  | cons ht hts ih =>
    unfold skipPast.go
    rw [ht.1]
    split
    · exact ⟨ht.2, hts⟩
    · exact ih ht.2

theorem skipPast (h : c.Alike S d) (mark : Char) : (c.skipPast mark).Alike S (d.skipPast mark) :=
  have hgo := skipPast_go h.last h.rest
  ⟨hgo.2, h.sourceEnd, hgo.1, h.scope, h.diagnostics⟩

theorem report (h : c.Alike S d) (problem : Problem) {s s' : Span} (hs : S.Holds s s') :
    (c.report problem s).Alike S (d.report problem s') :=
  ⟨h.rest, h.sourceEnd, h.last, h.scope, List.rel_append h.diagnostics (.cons ⟨rfl, hs⟩ .nil)⟩

theorem withScope (h : c.Alike S d) (scope : Scope) :
    Alike S { c with scope } { d with scope } :=
  ⟨h.rest, h.sourceEnd, h.last, rfl, h.diagnostics⟩

theorem problems (h : c.Alike S d) :
    c.diagnostics.map (·.problem) = d.diagnostics.map (·.problem) := by
  have hproblems : List.Forall₂ (· = ·) (c.diagnostics.map (·.problem))
      (d.diagnostics.map (·.problem)) := List.rel_map (fun _ _ hd => hd.1) h.diagnostics
  rwa [List.forall₂_eq_eq_eq] at hproblems

end Cursor.Alike

namespace Reader

/-- Two readers give the same in states that differ in related spans only, and leave such states. -/
def Alike (S : SpanRelation) (r q : Reader α) : Prop :=
  ∀ c d : Cursor, c.Alike S d → (r c).1 = (q d).1 ∧ (r c).2.Alike S (q d).2

/-- What a reader gives does not depend on the spans of the tokens. -/
abbrev Placeless (S : SpanRelation) (r : Reader α) : Prop := r.Alike S r

namespace Alike

variable {r q : Reader α} {f g : α → Reader β}

theorem pure (a : α) : (pure a : Reader α).Placeless S := fun _ _ h => ⟨rfl, h⟩

theorem bind (h : r.Alike S q) (hf : ∀ a, (f a).Alike S (g a)) : (r >>= f).Alike S (q >>= g) := by
  intro c d hcd
  obtain ⟨hvalue, hstate⟩ := h c d hcd
  change (f (r c).1 (r c).2).1 = (g (q d).1 (q d).2).1 ∧
    (f (r c).1 (r c).2).2.Alike S (g (q d).1 (q d).2).2
  rw [← hvalue]
  exact hf _ _ _ hstate

theorem span_bind {f g : Span → Reader β} (h : ∀ s s', S.Holds s s' → (f s).Alike S (g s')) :
    (span >>= f).Alike S (span >>= g) :=
  fun c d hcd => h c.span d.span hcd.span c d hcd

theorem ite {b : Prop} [Decidable b] {yes no yes' no' : Reader α} (hyes : yes.Alike S yes')
    (hno : no.Alike S no') : (if b then yes else no).Alike S (if b then yes' else no') := by
  split
  · exact hyes
  · exact hno

theorem kind : kind.Placeless S := fun _ _ hcd => ⟨hcd.kind, hcd⟩

theorem scope : scope.Placeless S := fun _ _ hcd => ⟨hcd.scope, hcd⟩

theorem remaining : remaining.Placeless S := fun _ _ hcd => ⟨hcd.length_rest, hcd⟩

theorem problemCount : problemCount.Placeless S := fun _ _ hcd => ⟨hcd.problemCount, hcd⟩

theorem isControl (m : Char) : (isControl m).Placeless S := bind kind fun _ => pure _

theorem advance : advance.Placeless S := fun _ _ hcd => ⟨rfl, hcd.advance⟩

theorem skipPast (mark : Char) : (skipPast mark).Placeless S :=
  fun _ _ hcd => ⟨rfl, hcd.skipPast mark⟩

theorem reportAt {s s' : Span} (h : S.Holds s s') (p : Problem) :
    (reportAt s p).Alike S (reportAt s' p) :=
  fun _ _ hcd => ⟨rfl, hcd.report p h⟩

theorem report (p : Problem) : (report p).Placeless S :=
  span_bind fun _ _ h => reportAt h p

theorem expectControl (m : Char) (p : Problem) : (expectControl m p).Placeless S :=
  bind (isControl m) fun _ => ite advance (bind (report p) fun _ => skipPast m)

theorem advance_bind {f g : Unit → Reader β} (h : (f ()).Alike S (g ())) :
    (Reader.advance >>= f).Alike S (Reader.advance >>= g) :=
  bind advance fun _ => h

theorem report_bind {p : Problem} {f g : Unit → Reader β} (h : (f ()).Alike S (g ())) :
    (Reader.report p >>= f).Alike S (Reader.report p >>= g) :=
  bind (report p) fun _ => h

theorem reported {s s' : Span} (h : S.Holds s s') (p : Problem) (a : α) : Alike S (do
    Reader.reportAt s p
    return a) (do
    Reader.reportAt s' p
    return a) :=
  bind (reportAt h p) fun _ => pure a

end Alike

end Reader

namespace Evaluator

/-- What one evaluator gives, the other gives too in a state that differs in related spans only. -/
def Alike (S : SpanRelation) (r q : Evaluator α) : Prop :=
  ∀ c d : Cursor, c.Alike S d →
    ∀ a c', r c = .ok (a, c') → ∃ d', q d = .ok (a, d') ∧ c'.Alike S d'

/-- What an evaluator gives does not depend on the spans of the tokens. -/
abbrev Placeless (S : SpanRelation) (r : Evaluator α) : Prop := r.Alike S r

namespace Alike

variable {r q : Evaluator α} {f g : α → Evaluator β}

theorem lift {r q : Reader α} (h : r.Alike S q) :
    Alike S (liftM r : Evaluator α) (liftM q : Evaluator α) := by
  intro c d hcd a c' hrun
  obtain ⟨hvalue, hstate⟩ := h c d hcd
  obtain ⟨rfl, rfl⟩ : (r c).1 = a ∧ (r c).2 = c' := Prod.mk.inj (Except.ok.inj hrun)
  exact ⟨(q d).2, congrArg (fun b => Except.ok (b, (q d).2)) hvalue.symm, hstate⟩

theorem pure (a : α) : (pure a : Evaluator α).Placeless S := lift (.pure a)

theorem bind (h : r.Alike S q) (hf : ∀ a, (f a).Alike S (g a)) : (r >>= f).Alike S (q >>= g) := by
  intro c d hcd b c'' hrun
  change Except.bind (r c) (fun (a, c') => f a c') = .ok (b, c'') at hrun
  obtain ⟨⟨a, c'⟩, hr, hrest⟩ := Except.bind_eq_ok.mp hrun
  obtain ⟨d', hq, hcd'⟩ := h c d hcd a c' hr
  obtain ⟨d'', hg, hcd''⟩ := hf a c' d' hcd' b c'' hrest
  refine ⟨d'', ?_, hcd''⟩
  change Except.bind (q d) (fun (a, d') => g a d') = .ok (b, d'')
  rw [hq]
  exact hg

theorem lift_bind {r q : Reader α} (h : r.Alike S q) (hf : ∀ a, (f a).Alike S (g a)) :
    ((liftM r : Evaluator α) >>= f).Alike S ((liftM q : Evaluator α) >>= g) :=
  bind (lift h) hf

theorem span_bind {f g : Span → Evaluator β} (h : ∀ s s', S.Holds s s' → (f s).Alike S (g s')) :
    ((liftM Reader.span : Evaluator Span) >>= f).Alike S
      ((liftM Reader.span : Evaluator Span) >>= g) :=
  fun c d hcd b c'' hrun => h c.span d.span hcd.span c d hcd b c'' hrun

/-- A computation without a state. -/
theorem except_bind {x : Except Fault α} (hf : ∀ a, (f a).Alike S (g a)) :
    ((liftM x : Evaluator α) >>= f).Alike S ((liftM x : Evaluator α) >>= g) := by
  intro c d hcd b c'' hrun
  cases x with
  | error cause =>
    have hfault : (Except.error cause : Except Fault (β × Cursor)) = .ok (b, c'') := hrun
    simp at hfault
  | ok a => exact hf a c d hcd b c'' hrun

theorem ite {b : Prop} [Decidable b] {yes no yes' no' : Evaluator α} (hyes : yes.Alike S yes')
    (hno : no.Alike S no') : (if b then yes else no).Alike S (if b then yes' else no') := by
  split
  · exact hyes
  · exact hno

theorem reported {s s' : Span} (h : S.Holds s s') (p : Problem) (a : α) : Alike S (do
    Reader.reportAt s p
    return a : Evaluator α) (do
    Reader.reportAt s' p
    return a : Evaluator α) :=
  lift_bind (.reportAt h p) fun _ => pure a

end Alike

end Evaluator

end ShaderExpr
