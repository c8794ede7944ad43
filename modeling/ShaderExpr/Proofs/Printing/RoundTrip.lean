import ShaderExpr.Proofs.Expr.Equality
import ShaderExpr.Proofs.Grammar.Exactness
import ShaderExpr.Proofs.Printing.Derived
import ShaderExpr.Proofs.Printing.Identifiers
import ShaderExpr.Proofs.Printing.Rendering

namespace ShaderExpr

open Reader (opensDeclaration)

/-- Does a declaration start with these tokens? -/
def Phrase.Opens (s : Scope) (ks : Kinds) : Prop :=
  opensDeclaration s (ks.headD .endOfInput) (ks.tail.headD .endOfInput)

namespace Expr

open Phrase (Opens)

/-- No type in front of arguments starts a declaration. -/
theorem not_opens_type {s : Scope} {ty : Ty} (h : ty.Written s) (ks us : Phrase.Kinds) :
    ¬Opens s (ty.kinds ++ Phrase.enclosed ks ++ us) := by
  have hqualifier : ∀ p ∈ Ty.builtins, (Reader.qualifierWord? p.2.text).isSome = false := by
    decide +kernel
  have hword : ∀ t : Ty, Ty.ofWord? t.text = some t →
      ¬Opens s ([.keyword t.text] ++ Phrase.enclosed ks ++ us) := by
    intro t ht
    obtain ⟨p, hp, hpt⟩ := Option.map_eq_some_iff.mp ht
    have hno := hqualifier p (List.mem_of_find?_eq_some hp)
    rw [hpt] at hno
    simp [Opens, Phrase.enclosed, opensDeclaration, hno]
  cases ty with
  | struct name members =>
    cases name with
    | some name => simp [Opens, Ty.kinds, Phrase.enclosed, opensDeclaration]
    | none => simp [Opens, Ty.kinds, opensDeclaration, Reader.qualifierWord?]
  | _ => exact hword _ h.1

theorem not_opens_placed {s : Scope} {e : Expr} (h : ∀ us, ¬Opens s (e.kinds ++ us)) (p : Nat)
    (ks us : Phrase.Kinds) : ¬Opens s (e.placedKinds e.kinds p ++ ks ++ us) := by
  unfold placedKinds
  rw [List.append_assoc]
  split
  · simp [Opens, Phrase.enclosed, opensDeclaration]
  · exact h (ks ++ us)

theorem not_opens_constant (s : Scope) (x : Scalar) (us : Phrase.Kinds) :
    ¬Opens s ((constant (.ofScalar x)).kinds ++ us) := by
  rw [kinds, Value.components_ofScalar]
  simp [Opens, opensDeclaration]

theorem not_opens_name {s : Scope} {name : String} (h : s.typeNamed name = none)
    (us : Phrase.Kinds) : ¬Opens s (.ident name :: us) := by
  simp [Opens, opensDeclaration, h]

theorem not_opens_mark (s : Scope) (c : Char) (us : Phrase.Kinds) :
    ¬Opens s (.control c :: us) := by
  simp [Opens, opensDeclaration]

/-- No printed expression starts a declaration. -/
theorem Printable.not_opens {s : Scope} : ∀ {e : Expr}, Printable s e →
    ∀ us, ¬Opens s (e.kinds ++ us)
  | _, .constant _, us => not_opens_constant s _ us
  | _, .reference _ noType _ _, us => not_opens_name noType us
  | _, .binary left _ _, us => not_opens_placed left.not_opens _ _ us
  | _, .assign target _ _ _ _ _ _, us => not_opens_placed target.not_opens _ _ us
  | _, .negate _ _ _, _ => not_opens_mark s '-' _
  | _, .construct _ type _ _, us => not_opens_type type _ us
  | _, .builtin _ _ noType _ _, _ => not_opens_name noType _
  | _, .make _ type _ _, us => not_opens_type type _ us
  | _, .member base _ _, us => not_opens_placed base.not_opens _ _ us
  | _, .swizzle base _ _ _ _ _ _ _, us => not_opens_placed base.not_opens _ _ us

end Expr

namespace Spaced

/-- No text of tokens starts with a byte order mark. -/
theorem head?_ne {text : List Char} {ks : Phrase.Kinds} (h : Spaced text ks) :
    text.head? ≠ some '\ufeff' := by
  cases h with
  | done => simp
  | space => simp
  | token first =>
    rintro hmark
    obtain rfl := Option.some.inj hmark
    rw [List.cons_append, Lexeme.first?_eq_none (by decide)] at first
    simp at first

end Spaced

namespace Reader

theorem bind_of_ok {α β : Type} {r : Evaluator α} {f : α → Evaluator β} {c c' : Cursor} {a : α}
    (h : r c = .ok (a, c')) : (r >>= f) c = f a c' := by
  change Except.bind (r c) (fun (a, c') => f a c') = _
  rw [h]
  rfl

theorem look_bind {α β : Type} {r : Reader α} {f : α → Evaluator β} {c c' : Cursor} {a : α}
    (h : r c = (a, c')) : ((liftM r : Evaluator α) >>= f) c = f a c' :=
  bind_of_ok (congrArg Except.ok h)

/-- A whole source without declarations. The tokens must not open a declaration, as an expression
    that starts with the name of a type might be taken for one. -/
theorem source_reads {s : Scope} {ks : Phrase.Kinds} {e : Expr} (h : Phrase.Assignment s ks e s)
    (hopens : ¬Phrase.Opens s ks) {c : Cursor} (hkinds : c.kinds = ks) (hscope : c.scope = s)
    (hclean : c.diagnostics = []) :
    ∃ c', source c = .ok (e, c') ∧ c'.scope = s ∧ c'.diagnostics = [] := by
  have hstarts : startsDeclaration c = (false, c) := by
    have hnext : c.nextKind = c.kinds.tail.headD .endOfInput := by
      unfold Cursor.nextKind Cursor.kinds
      rcases c.rest with _ | ⟨t, _ | ⟨u, rest⟩⟩ <;> rfl
    rw [startsDeclaration_eq, Cursor.kind_eq_headD, hnext, hkinds, hscope]
    rw [show opensDeclaration s (ks.headD .endOfInput) (ks.tail.headD .endOfInput) = false from
      Bool.eq_false_iff.mpr hopens]
  have hdeclarations : ∀ n, declarations n c = .ok ((), c) := by
    intro n
    cases n with
    | zero => rfl
    | succ n =>
      unfold declarations
      rw [look_bind hstarts]
      rfl
  obtain ⟨⟨e', c'⟩, hresult⟩ : ∃ r : Expr × Cursor, expression c = r := ⟨expression c, rfl⟩
  have hgives := expression_reads h [] Phrase.endsAssignment_endOfInput c (by simpa using hkinds)
    hscope
  rw [Gives, hresult] at hgives
  obtain ⟨hclean', rfl, hrest, hscope'⟩ := hgives
  refine ⟨c', ?_, hscope', hclean'.trans hclean⟩
  have hend : c'.kind = .endOfInput := by
    rw [Cursor.kind_eq_headD, show c'.kinds = [] from hrest]
    rfl
  have hmark : isControl ';' c' = (false, c') := by
    have hlook : isControl ';' c' = (decide (c'.kind = .control ';'), c') := rfl
    rw [hlook, hend]
    rfl
  have hfound : kind c' = (c'.kind, c') := rfl
  unfold source
  rw [look_bind (r := remaining) rfl, bind_of_ok (hdeclarations _), look_bind hresult,
    look_bind hmark, if_neg (by simp)]
  dsimp only
  rw [look_bind hfound, if_neg (by simpa using hend)]
  rfl

end Reader

/-- A text whose tokens derive an expression and start no declaration is a program with this
    expression. -/
theorem Program.parseIn_of_spaced {s : Scope} {text : String} {ks : Phrase.Kinds} {e : Expr}
    (h : Spaced text.toList ks) (derived : Phrase.Assignment s ks e s)
    (hopens : ¬Phrase.Opens s ks) : parseIn text s = .ok ⟨s, e⟩ := by
  obtain ⟨tokens, htokens, hlex⟩ := h.lex h.head?_ne
  obtain ⟨c', hrun, hscope, hclean⟩ := Reader.source_reads derived hopens
    (c := ⟨tokens, text.utf8ByteSize, ⟨0, 0⟩, s, []⟩) htokens rfl rfl
  rw [parseIn_eq_ok, Reading.ofSource_eq_ok hlex hrun, hscope, hclean]
  rfl

/-- A printed tree is read again, in the scope whose names it was printed with. -/
theorem Expr.Printable.parses {s : Scope} {e : Expr} (h : e.Printable s) :
    Program.parseIn e.print s = .ok ⟨s, e⟩ := by
  have hspaced : Spaced e.print.toList e.kinds := by
    have hrenders := h.renders [] [] (EndsPhrase.ends (by simp [EndsPhrase]) e) .done
    rwa [List.append_nil, List.append_nil] at hrenders
  have hbinds : Phrase.Assignment s e.kinds e s := h.binds.loosen (q := 0) e.binding_le (by omega)
  have hopens := h.not_opens []
  rw [List.append_nil] at hopens
  exact Program.parseIn_of_spaced hspaced hbinds hopens

/-- Printing an expression and reading it again gives the same expression and adds nothing to the
    scope. Structs are named in front of the expression only, since the printed text would name them
    a second time. Literals are non-negative and finite, and none is an integer from which a
    component is selected: other numbers print as a sign, a word or with a point of their own. -/
theorem Program.parse_print {source : String} {p : Program} (h : parse source = .ok p)
    (unnamed : Reading.declared source .empty = .ok p.scope)
    (literals : Expr.PlainLiterals p.expression.nodes) :
    parseIn p.expression.print p.scope = .ok p := by
  obtain ⟨tokens, s, ds, es, hlex, hdeclared, hdeclarations, hexpression, htokens⟩ := derives h
  obtain rfl : p.scope = s := Except.ok.inj (unnamed.symm.trans hdeclared)
  have hnamed : p.scope.Named := hdeclarations.named (by simp [Scope.Named, Scope.empty])
  have hidentifiers : Phrase.Identifiers es := fun name hname =>
    .of_lex hlex (htokens.subset (List.mem_append_right ds hname))
  exact (hexpression.printable rfl hnamed hidentifiers literals).parses

/-- Two minus signs in front of each other, and a right operand as weak as its operator. -/
theorem Program.parse_print_minus : ∃ p, parse "float x; x = - -x - (x - 1.5);" = .ok p ∧
    Reading.declared "float x; x = - -x - (x - 1.5);" .empty = .ok p.scope ∧
    Expr.PlainLiterals p.expression.nodes ∧ parseIn p.expression.print p.scope = .ok p := by
  let x : Variable := ⟨0, "x", .scalar .float, {}, none⟩
  let literal : Scalar := .float ⟨0x3fc00000⟩
  let value : Expr := .binary .sub (.scalar .float) (.negate (.negate (.reference x)))
    (.binary .sub (.scalar .float) (.reference x) (.constant (.ofScalar literal)))
  let p : Program := ⟨⟨[], [x], 1⟩, .assign none (.scalar .float) (.reference x) value⟩
  have hparse : parse "float x; x = - -x - (x - 1.5);" = .ok p := by
    have hsome : (parse "float x; x = - -x - (x - 1.5);").toOption = some p := by decide +kernel
    generalize parse "float x; x = - -x - (x - 1.5);" = result at hsome ⊢
    cases result <;> simp_all [Except.toOption]
  have hdeclared : Reading.declared "float x; x = - -x - (x - 1.5);" .empty = .ok p.scope := by
    have hsome : (Reading.declared "float x; x = - -x - (x - 1.5);" .empty).toOption =
        some p.scope := by decide +kernel
    generalize Reading.declared "float x; x = - -x - (x - 1.5);" .empty = result at hsome ⊢
    cases result <;> simp_all [Except.toOption]
  have hconstant : ∀ y, .constant (.ofScalar y) ∈ p.expression.nodes → y = literal := by
    intro y hy
    have hvalue : Value.ofScalar y = .ofScalar literal := by
      simpa [p, value, Expr.nodes] using hy
    simpa [Value.components_ofScalar] using congrArg Value.components hvalue
  have hliterals : Expr.PlainLiterals p.expression.nodes := by
    refine ⟨fun y hy => ?_, fun n letters indexes hy => ?_⟩
    · rw [hconstant y hy]
      exact ⟨by decide +kernel, 0xc00000, -23, by decide +kernel⟩
    · simp [p, value, Expr.nodes] at hy
  exact ⟨p, hparse, hdeclared, hliterals, parse_print hparse hdeclared hliterals⟩

end ShaderExpr
