import ShaderExpr.Proofs.Printing.Spelling

namespace ShaderExpr

/-- The text goes on with something that is no part of an expression in front of it. A point would
    select from the last operand, and make another number of an integer. -/
def Expr.Ends (e : Expr) (rest : List Char) : Prop :=
  EndsExpression rest ∧
    (e.binding < postfixBinding ∨ (∃ n, e = .constant (.ofScalar (.int n))) →
      ∀ c ∈ rest.head?, c ≠ '.')

/-- The text goes on with something that ends every expression. -/
def EndsPhrase (rest : List Char) : Prop := ∀ c ∈ rest.head?, c = ' ' ∨ c = ')' ∨ c = ','

/-- The end of a phrase ends a literal in it, and makes no other number of an integer. -/
theorem EndsPhrase.literal {rest : List Char} (h : EndsPhrase rest) :
    EndsExpression rest ∧ ∀ c ∈ rest.head?, c ≠ '.' := by
  refine ⟨fun c hc => ?_, fun c hc => ?_⟩
  · rcases h c hc with rfl | rfl | rfl <;> simp
  · rcases h c hc with rfl | rfl | rfl <;> decide

theorem EndsPhrase.ends {rest : List Char} (h : EndsPhrase rest) (e : Expr) : e.Ends rest :=
  ⟨h.literal.1, fun _ => h.literal.2⟩

theorem endsPhrase_space (rest : List Char) : EndsPhrase (' ' :: rest) := by
  intro c hc
  obtain rfl : ' ' = c := by simpa using hc
  exact .inl rfl

theorem endsPhrase_closing (rest : List Char) : EndsPhrase (')' :: rest) := by
  intro c hc
  obtain rfl : ')' = c := by simpa using hc
  exact .inr (.inl rfl)

theorem endsPhrase_comma (rest : List Char) : EndsPhrase (',' :: rest) := by
  intro c hc
  obtain rfl : ',' = c := by simpa using hc
  exact .inr (.inr rfl)

/-- Behind an expression that binds weaker than a field, only the end of a phrase may follow. -/
theorem Expr.Ends.phrase {e : Expr} {rest : List Char} (h : e.Ends rest)
    (he : e.binding < postfixBinding) : EndsPhrase rest := by
  intro c hc
  have hpoint := h.2 (.inl he) c hc
  rcases h.1 c hc with h | h | h | h
  · exact .inl h
  · exact .inr (.inl h)
  · exact .inr (.inr h)
  · exact absurd h hpoint

namespace Renders

variable {text : List Char} {ks : Phrase.Kinds} {F : List Char → Prop}

theorem parenthesized (h : Renders text ks F) (hF : ∀ rest, F (')' :: rest)) :
    Renders ('(' :: (text ++ [')'])) (Phrase.enclosed ks) fun _ => True := by
  have hopen : Renders ['('] [.control '('] fun _ => True := renders_mark (by simp)
  have hclose : Renders [')'] [.control ')'] fun _ => True := renders_mark (by simp)
  exact hopen.append (h.append hclose fun rest _ => hF rest) fun _ _ => trivial

end Renders

namespace Expr

/-- An expression in a place that asks for a binding strength. -/
theorem renders_placed {e : Expr} (h : Renders e.print.toList e.kinds e.Ends) (p : Nat) :
    Renders (e.placed e.print p).toList (e.placedKinds e.kinds p) fun rest =>
      p ≤ e.binding → e.Ends rest := by
  unfold placed placedKinds
  by_cases hloose : e.binding < p
  · rw [if_pos hloose, if_pos hloose]
    have htext : (parenthesized e.print).toList = '(' :: (e.print.toList ++ [')']) := by
      simp [Expr.parenthesized]
    rw [htext]
    exact (h.parenthesized fun rest => (endsPhrase_closing rest).ends e).mono fun _ _ => trivial
  · rw [if_neg hloose, if_neg hloose]
    exact h.mono fun rest hrest => hrest (by omega)

/-- Arguments between commas and parentheses. -/
theorem renders_arguments {texts : List String} {kss : List Phrase.Kinds}
    (h : List.Forall₂ (fun text ks => Renders text.toList ks EndsPhrase) texts kss) :
    Renders (Expr.parenthesized (", ".intercalate texts)).toList
      (Phrase.enclosed (Phrase.separated kss)) fun _ => True := by
  have hinside {texts : List String} {kss : List Phrase.Kinds}
      (h : List.Forall₂ (fun text ks => Renders text.toList ks EndsPhrase) texts kss) :
      Renders (", ".intercalate texts).toList (Phrase.separated kss) EndsPhrase := by
    induction h with
    | nil =>
      rw [String.intercalate_nil]
      exact fun _ _ _ h => h
    | @cons text ks texts kss hfirst hrest ih =>
      cases hrest with
      | nil =>
        rw [String.intercalate_singleton]
        exact hfirst
      | @cons text' ks' texts kss hsecond hrest =>
        have hcomma : Renders [','] [.control ','] fun _ => True := renders_mark (by simp)
        have htext : (", ".intercalate (text :: text' :: texts)).toList =
            text.toList ++ ([','] ++ ([' '] ++ (", ".intercalate (text' :: texts)).toList)) := by
          rw [String.intercalate_cons_cons, String.toList_append, String.toList_append,
            List.append_assoc]
          rfl
        rw [htext]
        have hbehind := hcomma.append (Renders.space.append ih fun _ _ => trivial)
          fun _ _ => trivial
        exact hfirst.append hbehind fun rest _ => endsPhrase_comma _
  have htext : (Expr.parenthesized (", ".intercalate texts)).toList =
      '(' :: ((", ".intercalate texts).toList ++ [')']) := by
    simp [Expr.parenthesized]
  rw [htext]
  exact (hinside h).parenthesized fun rest => endsPhrase_closing rest

end Expr

/-- The text starts with something in front of which a sign stays a sign. -/
def StartsOperand (text : List Char) : Prop := ∃ c cs, text = c :: cs ∧ c ≠ '-' ∧ c ≠ '='

namespace StartsOperand

theorem head? {text : List Char} (h : StartsOperand text) : ∀ c ∈ text.head?, c ≠ '-' ∧ c ≠ '=' := by
  obtain ⟨c, cs, rfl, hc⟩ := h
  intro d hd
  obtain rfl : c = d := by simpa using hd
  exact hc

theorem append {text : List Char} (h : StartsOperand text) (rest : List Char) :
    StartsOperand (text ++ rest) := by
  obtain ⟨c, cs, rfl, hc⟩ := h
  exact ⟨c, cs ++ rest, rfl, hc⟩

theorem word {c : Char} {cs : List Char} (h : Lexeme.isIdentStart c) : StartsOperand (c :: cs) :=
  ⟨c, cs, rfl, Lexeme.ne_of_isIdentStart h (by decide), Lexeme.ne_of_isIdentStart h (by decide)⟩

theorem identifier {name : String} (h : IsIdentifier name) : StartsOperand name.toList := by
  obtain ⟨c, cs, hname, hc, -⟩ := h.word
  rw [hname]
  exact word hc

theorem parenthesized (text : String) : StartsOperand (Expr.parenthesized text).toList :=
  ⟨'(', text.toList ++ [')'], by simp [Expr.parenthesized], by decide, by decide⟩

theorem type {s : Scope} {ty : Ty} (h : ty.Written s) : StartsOperand ty.text.toList := by
  have hword {w : String} (hw : w ∈ Token.keywords) : StartsOperand w.toList := by
    obtain ⟨⟨c, cs, hlist, hc, -⟩, -⟩ := Lexeme.keyword_parts hw
    rw [hlist]
    exact word hc
  cases ty with
  | struct name members =>
    cases name with
    | some name => exact identifier h.1
    | none =>
      have hstruct := (@word 's' "truct".toList (by decide)).append
        (" \x7b ".toList ++ (Ty.membersText members).toList ++ ['\x7d'])
      have htext : (Ty.struct none members).text.toList =
          's' :: "truct".toList ++ (" \x7b ".toList ++ (Ty.membersText members).toList ++ ['\x7d']) := by
        simp [Ty.text]
      rw [htext]
      exact hstruct
  | _ => exact hword h.2

end StartsOperand

namespace Expr

/-- What binds as tight as a field starts with no sign, and parentheses do not either. -/
theorem Printable.starts {s : Scope} : ∀ {e : Expr}, Printable s e →
    StartsOperand (e.placed e.print postfixBinding).toList
  | e, h => by
    unfold placed
    by_cases hloose : e.binding < postfixBinding
    · rw [if_pos hloose]
      exact .parenthesized _
    · rw [if_neg hloose]
      cases h with
      | constant plain =>
        rw [print, Value.text_ofScalar]
        exact Scalar.text_starts plain
      | reference name => exact .identifier name
      | @binary op => exact absurd (show op.precedence < 14 by cases op <;> decide) hloose
      | assign => exact absurd (show assignmentBinding < postfixBinding by decide) hloose
      | negate => exact absurd (show unaryBinding < postfixBinding by decide) hloose
      | construct _ type =>
        rw [print, String.toList_append]
        exact (StartsOperand.type type).append _
      | builtin _ name =>
        rw [print, String.toList_append]
        exact (StartsOperand.identifier name).append _
      | make _ type =>
        rw [print, String.toList_append]
        exact (StartsOperand.type type).append _
      | member base =>
        rw [print, String.append_assoc, String.toList_append]
        exact base.starts.append _
      | swizzle base =>
        rw [print, String.append_assoc, String.toList_append]
        exact base.starts.append _

theorem identifier_noDigit {name : String} (h : IsIdentifier name) (rest : List Char) :
    ∀ c ∈ (name.toList ++ rest).head?, isDecimalDigit c = false := by
  obtain ⟨c, cs, hname, hc, -⟩ := h.word
  intro d hd
  rw [hname] at hd
  obtain rfl : c = d := by simpa using hd
  exact Lexeme.isDecimalDigit_of_isIdentStart hc

/-- The last operand of a phrase that ends weaker than a field. -/
theorem Ends.operand {e operand : Expr} {rest : List Char} (h : e.Ends rest)
    (he : e.binding < postfixBinding) : operand.Ends rest :=
  (h.phrase he).ends operand

/-- A selection behind a text that a point can follow. -/
theorem renders_selected {text name : String} {ks : Phrase.Kinds} {F : List Char → Prop}
    (h : Renders text.toList ks F) (hF : ∀ rest, F ('.' :: rest)) (identifier : IsIdentifier name) :
    Renders (text ++ "." ++ name).toList (ks ++ [.control '.', .ident name]) EndsExpression := by
  have htext : (text ++ "." ++ name).toList = text.toList ++ (['.'] ++ name.toList) := by simp
  have hpoint := renders_point.append identifier.renders fun rest _ =>
    identifier_noDigit identifier rest
  rw [htext]
  exact (h.append hpoint fun rest _ => hF (name.toList ++ rest)).mono fun _ hrest => hrest.endsWord

theorem endsExpression_point (rest : List Char) : EndsExpression ('.' :: rest) := by
  intro c hc
  obtain rfl : '.' = c := by simpa using hc
  exact .inr (.inr (.inr rfl))

/-- A selection behind a base, which no integer literal is: an integer and the point behind it would
    be read as a number. -/
theorem renders_field {base : Expr} {name : String} (h : Renders base.print.toList base.kinds base.Ends)
    (noInt : ∀ n, base ≠ constant (.ofScalar (.int n))) (identifier : IsIdentifier name) :
    Renders (base.placed base.print postfixBinding ++ "." ++ name).toList
      (base.placedKinds base.kinds postfixBinding ++ [.control '.', .ident name]) EndsExpression := by
  refine renders_selected (renders_placed h postfixBinding) (fun rest hbinding => ?_) identifier
  refine ⟨endsExpression_point rest, fun hloose => ?_⟩
  rcases hloose with hloose | ⟨n, hn⟩
  · omega
  · exact absurd hn (noInt n)

/-- Arguments behind the name of what takes them. -/
theorem renders_called {name : String} {ks : Phrase.Kinds} {texts : List String}
    {kss : List Phrase.Kinds} (hname : Renders name.toList ks EndsWord)
    (h : List.Forall₂ (fun text ks => Renders text.toList ks EndsPhrase) texts kss) :
    Renders (name ++ Expr.parenthesized (", ".intercalate texts)).toList
      (ks ++ Phrase.enclosed (Phrase.separated kss)) fun _ => True := by
  rw [String.toList_append]
  refine hname.append (renders_arguments h) fun rest _ => ?_
  have htext : (Expr.parenthesized (", ".intercalate texts)).toList ++ rest =
      '(' :: ((", ".intercalate texts).toList ++ ([')'] ++ rest)) := by
    simp [Expr.parenthesized]
  rw [htext]
  exact Ty.endsWord_cons (by decide) _

mutual
/-- The text that a tree is printed as splits into the tokens that the tree is printed as. -/
theorem Printable.renders {s : Scope} : ∀ {e : Expr}, Printable s e →
    Renders e.print.toList e.kinds e.Ends
  | _, .constant (x := x) plain => by
    rw [print, kinds, Value.text_ofScalar, Value.components_ofScalar]
    refine (Scalar.renders plain (Scalar.readsBack plain)).mono fun rest hrest => ⟨hrest.1, fun n hn => ?_⟩
    exact hrest.2 (.inr ⟨n, by rw [hn]⟩)
  | _, .reference name _ _ _ => name.renders.mono fun _ hrest => hrest.1.endsWord
  | _, @Printable.binary _ op ty left right hleft hright _ => by
    have hloose : (binary op ty left right).binding < postfixBinding := by
      change op.precedence < 14
      cases op <;> decide
    have htext : (binary op ty left right).print.toList =
        (left.placed left.print op.precedence).toList ++ ([' '] ++ (op.text.toList ++ ([' '] ++
          (right.placed right.print (op.precedence + 1)).toList))) := by
      simp [print]
    rw [htext]
    have hbehind := op.renders.append
      (Renders.space.append (renders_placed hright.renders (op.precedence + 1)) fun _ _ => trivial)
      fun rest _ => ⟨_, rfl⟩
    have hsign := Renders.space.append hbehind fun _ _ => trivial
    have hall := (renders_placed hleft.renders op.precedence).append hsign fun rest _ _ =>
      (endsPhrase_space _).ends left
    exact hall.mono fun rest hrest _ => hrest.operand hloose
  | _, @Printable.assign _ op ty target value htarget hvalue sign _ _ _ _ => by
    have hloose : (assign op ty target value).binding < postfixBinding :=
      show assignmentBinding < postfixBinding by decide
    have htext : (assign op ty target value).print.toList =
        (target.placed target.print postfixBinding).toList ++ ([' '] ++
          ((op.elim "" Operator.text ++ "=").toList ++ ([' '] ++
            (value.placed value.print assignmentBinding).toList))) := by
      simp [print]
    rw [htext]
    have hbehind := (renders_assignment sign).append
      (Renders.space.append (renders_placed hvalue.renders assignmentBinding) fun _ _ => trivial)
      fun rest _ => ⟨_, rfl⟩
    have hsign := Renders.space.append hbehind fun _ _ => trivial
    have hall := (renders_placed htarget.renders postfixBinding).append hsign fun rest _ _ =>
      (endsPhrase_space _).ends target
    exact hall.mono fun rest hrest _ => hrest.operand hloose
  | _, @Printable.negate _ operand hoperand _ _ => by
    have hloose : (negate operand).binding < postfixBinding :=
      show unaryBinding < postfixBinding by decide
    have hinside := hoperand.renders
    rw [print, String.toList_append]
    by_cases hminus : operand.binding = unaryBinding
    · rw [if_pos hminus, kinds, if_pos hminus]
      have htext : (parenthesized operand.print).toList =
          '(' :: (operand.print.toList ++ [')']) := by
        simp [parenthesized]
      have henclosed := hinside.parenthesized fun rest => (endsPhrase_closing rest).ends operand
      rw [← htext] at henclosed
      have hall := renders_minus.append henclosed fun rest _ =>
        ((StartsOperand.parenthesized operand.print).append rest).head?
      exact hall.mono fun _ _ => trivial
    · rw [if_neg hminus, kinds, if_neg hminus]
      have hsame : (operand.placed operand.print unaryBinding) =
          operand.placed operand.print postfixBinding := by
        have hbound := operand.binding_le
        have hsame : operand.binding < unaryBinding ↔ operand.binding < postfixBinding := by
          simp only [unaryBinding, postfixBinding] at hminus ⊢
          omega
        simp only [placed, hsame]
      have hall := renders_minus.append (renders_placed hinside unaryBinding) fun rest _ => by
        rw [hsame]
        exact (hoperand.starts.append rest).head?
      exact hall.mono fun rest hrest _ => hrest.operand hloose
  | _, .construct arguments type _ _ =>
    (renders_called type.renders arguments.renders).mono fun _ _ => trivial
  | _, .builtin arguments name _ _ _ =>
    (renders_called name.renders arguments.renders).mono fun _ _ => trivial
  | _, .make arguments type _ _ =>
    (renders_called type.renders arguments.renders).mono fun _ _ => trivial
  | _, @Printable.member _ base name index hbase identifier found => by
    rw [print, kinds, Ty.name_of_memberIndex? found]
    exact (renders_field hbase.renders (fun n => ne_constant_of_memberIndex? found _)
      identifier).mono fun _ hrest => hrest.1
  | _, @Printable.swizzle _ base name letters indexes hbase noInt identifier _ spelled _ _ _ => by
    rw [print, kinds, Letters.map_letter spelled, String.ofList_toList]
    exact (renders_field hbase.renders noInt identifier).mono fun _ hrest => hrest.1
theorem AllPrintable.renders {s : Scope} : ∀ {es : List Expr}, AllPrintable s es →
    List.Forall₂ (fun text ks => Renders text.toList ks EndsPhrase) (printAll es) (kindsAll es)
  | _, .nil => .nil
  | e :: _, .cons first rest =>
    .cons ((renders_placed first.renders assignmentBinding).mono fun _ hrest _ => hrest.ends e)
      rest.renders
end

end Expr

end ShaderExpr
