import ShaderExpr.Proofs.Numeric.Numerals
import ShaderExpr.Proofs.Printing.Identifiers
import ShaderExpr.Proofs.Printing.Signs

namespace ShaderExpr

/-- A decimal is rounded to a finite number or to infinity. -/
theorem Decimal.toBits_finite (f : BinaryFormat) (d : Decimal) :
    (∃ significand exponent, f.magnitude (d.toBits f) = .finite significand exponent) ∨
      d.toBits f = f.infinity :=
  (Nat.lt_or_eq_of_le (d.toBits_le f)).imp_left BinaryFormat.exists_finite

/-- A literal is finite, or the infinity that a floating-point number beyond the range rounds to. -/
theorem Token.Forms.finite {front : List Char} {x : Scalar} {flaw : Option LiteralFlaw}
    (h : Forms front (.literal x) flaw) :
    x.IsFinite ∨ x = .float ⟨0x7f800000⟩ ∨ x = .double ⟨0x7ff0000000000000⟩ := by
  generalize hkind : Kind.literal x = k at h
  cases h with
  | @float _ _ value double =>
    obtain rfl := Kind.literal.inj hkind
    cases double with
    | false =>
      have hbits : (UInt32.ofNat (value.toBits .single)).toNat = value.toBits .single :=
        UInt32.toNat_ofNat_of_lt' (Nat.lt_of_le_of_lt (value.toBits_le .single) (by decide))
      refine (value.toBits_finite .single).imp (fun hfinite => ?_) fun hinfinite => .inl ?_
      · rw [← hbits] at hfinite
        exact hfinite
      · rw [hinfinite]
        rfl
    | true =>
      have hbits : (UInt64.ofNat (value.toBits .double)).toNat = value.toBits .double :=
        UInt64.toNat_ofNat_of_lt' (Nat.lt_of_le_of_lt (value.toBits_le .double) (by decide))
      refine (value.toBits_finite .double).imp (fun hfinite => ?_) fun hinfinite => .inr ?_
      · rw [← hbits] at hfinite
        exact hfinite
      · rw [hinfinite]
        rfl
  | @integer _ _ _ _ unsigned =>
    obtain rfl := Kind.literal.inj hkind
    cases unsigned <;> exact .inl trivial
  | bool =>
    obtain rfl := Kind.literal.inj hkind
    exact .inl trivial
  | line | block | symbol | keyword | ident | control => cases hkind

theorem Lexeme.first?_of_next? {text : List Char} {skipped : Nat} {lexeme : Lexeme}
    (h : next? text = some (skipped, lexeme)) : ∃ rest, first? rest = some lexeme := by
  induction text generalizing skipped with
  | nil => simp [next?] at h
  | cons c text ih =>
    unfold next? at h
    split at h
    · rename_i hfirst
      obtain ⟨-, rfl⟩ := Prod.mk.inj (Option.some.inj h)
      exact ⟨_, hfirst⟩
    · obtain ⟨⟨skipped, lexeme⟩, hnext, hsame⟩ := Option.map_eq_some_iff.mp h
      obtain ⟨-, rfl⟩ := Prod.mk.inj hsame
      exact ih hnext

/-- Every token is one that was found at the front of some text. -/
theorem Scan.exists_first? (position : Nat) (text : List Char) :
    ∀ t ∈ (ofText position text).tokens, ∃ rest lexeme, Lexeme.first? rest = some lexeme ∧
      t.1.kind = lexeme.kind := by
  fun_induction ofText position text with
  | case1 | case4 => simp
  | case2 position c rest hspace ih => exact ih
  | case3 position c rest hsolid lexeme hfirst stop ih =>
    exact List.forall_mem_cons.mpr ⟨⟨_, lexeme, hfirst, rfl⟩, ih⟩
  | case5 position c rest hsolid hnone error skipped lexeme hnext size stop following ih =>
    obtain ⟨rest', hfirst⟩ := Lexeme.first?_of_next? hnext
    exact List.forall_mem_cons.mpr ⟨⟨rest', lexeme, hfirst, rfl⟩, ih⟩

/-- A literal of a source is a token of its own somewhere in it, also behind an error that was
    recovered from. -/
theorem exists_forms_of_lex {source : String} {found : TokenList} {errors : List Diagnostic}
    {t : Token} {x : Scalar} (h : lex source = (some found, errors)) (taken : t ∈ found.tokens)
    (literal : t.kind = .literal x) : ∃ front flaw, Token.Forms front (.literal x) flaw := by
  have hscan : ∀ pair ∈ (Scan.ofSource source).tokens, ∃ rest lexeme,
      Lexeme.first? rest = some lexeme ∧ pair.1.kind = lexeme.kind := by
    unfold Scan.ofSource
    split <;> exact Scan.exists_first? _ _
  unfold lex at h
  generalize Scan.ofSource source = scan at h hscan
  dsimp only at h
  split at h
  · obtain ⟨htokens, -⟩ := Prod.mk.inj h
    obtain rfl := Option.some.inj htokens
    obtain ⟨pair, hpair, rfl⟩ := List.mem_map.mp (List.mem_filter.mp taken).1
    obtain ⟨rest, lexeme, hfirst, hkind⟩ := hscan pair hpair
    have hliteral : lexeme.kind = .literal x := hkind.symm.trans literal
    obtain ⟨front, _, _, _, hforms, _⟩ := Lexeme.first?_heads hfirst (by simp [hliteral])
    exact ⟨front, lexeme.flaw, hliteral ▸ hforms⟩
  · simp at h

end ShaderExpr
