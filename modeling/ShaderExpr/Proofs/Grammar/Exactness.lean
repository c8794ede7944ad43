import ShaderExpr.Proofs.Grammar.Completeness
import ShaderExpr.Proofs.Grammar.Soundness

namespace ShaderExpr.Reader

/-- A whole list of tokens is read without a problem exactly if it is an expression of the grammar,
    and what is read is then the only tree that the grammar gives it. This holds in any scope, also
    where structs are named inside of the expression. Where the source ends and which token was the
    last only matters for reports, so both are free. -/
theorem expression_exact (tokens : List Token) (sourceEnd : Nat) (last : Span) (s : Scope) :
    (∀ e s', (∃ c, expression ⟨tokens, sourceEnd, last, s, []⟩ = (e, c) ∧ c.rest = [] ∧
        c.diagnostics = [] ∧ c.scope = s') ↔ Phrase.Assignment s (tokens.map (·.kind)) e s') ∧
      ∀ e e' s' s'', Phrase.Assignment s (tokens.map (·.kind)) e s' →
        Phrase.Assignment s (tokens.map (·.kind)) e' s'' → e = e' ∧ s' = s'' := by
  generalize hstart : (⟨tokens, sourceEnd, last, s, []⟩ : Cursor) = c₀
  obtain ⟨hrest₀, hscope₀, hclean₀⟩ : c₀.rest = tokens ∧ c₀.scope = s ∧ c₀.diagnostics = [] := by
    rw [← hstart]
    exact ⟨rfl, rfl, rfl⟩
  have hkinds : c₀.kinds = tokens.map (·.kind) ++ [] := by
    rw [Cursor.kinds, hrest₀, List.append_nil]
  obtain ⟨⟨e₀, c₁⟩, hresult⟩ : ∃ r : Expr × Cursor, expression c₀ = r := ⟨expression c₀, rfl⟩
  have hread {e : Expr} {s' : Scope} (h : Phrase.Assignment s (tokens.map (·.kind)) e s') :
      e₀ = e ∧ c₁.rest = [] ∧ c₁.diagnostics = [] ∧ c₁.scope = s' := by
    have hgives := expression_reads h [] Phrase.endsAssignment_endOfInput c₀ hkinds hscope₀
    rw [Gives, hresult] at hgives
    obtain ⟨hclean, he, hrest, hscope⟩ := hgives
    exact ⟨he, Cursor.rest_eq_nil hrest, hclean.trans hclean₀, hscope⟩
  refine ⟨fun e s' => ⟨?_, fun h => ?_⟩, fun e e' s' s'' h h' => ?_⟩
  · rintro ⟨c, hc, hrest, hclean, rfl⟩
    have haccepts := (expression_accepts c₀).2
    rw [hc, hclean, hclean₀] at haccepts
    obtain ⟨ts, hts, h⟩ := haccepts rfl
    rw [hrest, List.append_nil, hrest₀] at hts
    rw [hts, ← hscope₀]
    exact h
  · obtain ⟨rfl, hrest, hclean, hscope⟩ := hread h
    exact ⟨c₁, hresult, hrest, hclean, hscope⟩
  · obtain ⟨he, -, -, hs⟩ := hread h
    obtain ⟨he', -, -, hs'⟩ := hread h'
    exact ⟨he.symm.trans he', hs.symm.trans hs'⟩

end ShaderExpr.Reader
