import ShaderExpr.Proofs.Grammar.Declarations

namespace ShaderExpr

namespace Scope

/-- Every name of a type names the struct of that name. -/
def Named (s : Scope) : Prop := ∀ p ∈ s.types, ∃ members, p.2 = .struct (some p.1) members

theorem Named.struct {s : Scope} (h : s.Named) {name : String} {ty : Ty}
    (hty : s.typeNamed name = some ty) : ∃ members, ty = .struct (some name) members := by
  obtain ⟨p, hp, rfl⟩ := Option.map_eq_some_iff.mp hty
  obtain rfl : p.1 = name := by simpa using List.find?_some hp
  exact h p (List.mem_of_find?_eq_some hp)

/-- What names a type in one scope names it in another. -/
def Keeps (s s' : Scope) : Prop :=
  ∀ name ty, s.typeNamed name = some ty → s'.typeNamed name = some ty

/-- A scope with structs named on top of those of another, under new names. This is all that
    expressions do to a scope. -/
structure Extends (s s' : Scope) : Prop where
  types : ∃ added, s'.types = added ++ s.types ∧
    ∀ p ∈ added, ∃ members, p.2 = .struct (some p.1) members
  kept : s.Keeps s'
  declared : s'.declared = s.declared
  nextId : s'.nextId = s.nextId

namespace Extends

theorem refl (s : Scope) : s.Extends s := ⟨⟨[], rfl, by simp⟩, fun _ _ => id, rfl, rfl⟩

theorem trans {s s' s'' : Scope} (h : s.Extends s') (h' : s'.Extends s'') : s.Extends s'' := by
  obtain ⟨added, hadded, hnamed⟩ := h.types
  obtain ⟨added', hadded', hnamed'⟩ := h'.types
  refine ⟨⟨added' ++ added, by rw [hadded', hadded, List.append_assoc], fun p hp => ?_⟩,
    fun name ty hty => h'.kept name ty (h.kept name ty hty), h'.declared.trans h.declared,
    h'.nextId.trans h.nextId⟩
  rcases List.mem_append.mp hp with hp | hp
  · exact hnamed' p hp
  · exact hnamed p hp

/-- Nothing is ever removed, so the scopes in between two equal ones are equal to them. -/
theorem antisymm {s s' : Scope} (h : s.Extends s') (h' : s'.Extends s) : s = s' := by
  obtain ⟨added, hadded, -⟩ := h.types
  obtain ⟨added', hadded', -⟩ := h'.types
  have hlength := congrArg List.length hadded
  have hlength' := congrArg List.length hadded'
  rw [List.length_append] at hlength hlength'
  obtain rfl : added = [] := List.length_eq_zero_iff.mp (by omega)
  have hdeclared := h.declared
  have hnextId := h.nextId
  cases s
  cases s'
  rw [List.nil_append] at hadded
  rw [Scope.mk.injEq]
  exact ⟨hadded.symm, hdeclared.symm, hnextId.symm⟩

theorem named {s s' : Scope} (h : s.Extends s') (hs : s.Named) : s'.Named := by
  obtain ⟨added, hadded, hnamed⟩ := h.types
  intro p hp
  rw [hadded] at hp
  rcases List.mem_append.mp hp with hp | hp
  · exact hnamed p hp
  · exact hs p hp

/-- A struct takes a name that was free, so a scope with it is another. -/
theorem addType {s s' : Scope} {name : String} {members : List (String × Ty)}
    (h : s.addType? name (.struct (some name) members) = some s') :
    s.Extends s' ∧ s' ≠ s := by
  unfold addType? at h
  split at h
  · simp at h
  · rename_i hfree
    obtain rfl := Option.some.inj h
    refine ⟨⟨⟨[(name, .struct (some name) members)], rfl, by simp⟩, fun other ty hty => ?_, rfl, rfl⟩,
      fun heq => ?_⟩
    · have hne : name ≠ other := by
        rintro rfl
        exact hfree (by rw [hty]; rfl)
      rw [← hty]
      exact congrArg _ (List.find?_cons_of_neg (by simpa using hne))
    · have hlength := congrArg (·.types.length) heq
      simp at hlength

end Extends

end Scope

namespace Phrase

mutual
theorem Specifier.scope : ∀ {s ks ty s'}, Specifier s ks ty s' → s.Extends s'
  | _, _, _, _, .word _ => .refl _
  | _, _, _, _, .name _ => .refl _
  | _, _, _, _, .definition definition => definition.scope
theorem Definition.scope : ∀ {s ks ty s'}, Definition s ks ty s' → s.Extends s'
  | _, _, _, _, .anonymous body => body.scope
  | _, _, _, _, .named body free => body.scope.trans (Scope.Extends.addType free).1
theorem Members.scope : ∀ {s found ks all s'}, Members s found ks all s' → s.Extends s'
  | _, _, _, _, _, .done => .refl _
  | _, _, _, _, _, .more type _ _ _ _ rest => type.scope.trans rest.scope
end

theorem Constructor.scope {s s' : Scope} {ks : Kinds} {ty : Ty} (h : Constructor s ks ty s') :
    s.Extends s' := by
  cases h with
  | word | name => exact .refl s
  | definition definition => exact definition.scope

mutual
theorem Assignment.scope : ∀ {s ks e s'}, Assignment s ks e s' → s.Extends s'
  | _, _, _, _, .operation operation => operation.scope
  | _, _, _, _, .assign left _ _ _ right _ _ => left.scope.trans right.scope
theorem Operation.scope : ∀ {p s ks e s'}, Operation p s ks e s' → s.Extends s'
  | _, _, _, _, _, .unary unary => unary.scope
  | _, _, _, _, _, .tighter _ tighter => tighter.scope
  | _, _, _, _, _, .binary before _ _ after _ => before.scope.trans after.scope
theorem Unary.scope : ∀ {s ks e s'}, Unary s ks e s' → s.Extends s'
  | _, _, _, _, .plus operand => operand.scope
  | _, _, _, _, .minus operand _ _ => operand.scope
  | _, _, _, _, .postfixed operand => operand.scope
theorem Postfixed.scope : ∀ {s ks e s'}, Postfixed s ks e s' → s.Extends s'
  | _, _, _, _, .primary primary => primary.scope
  | _, _, _, _, .field operand _ => operand.scope
theorem Primary.scope : ∀ {s ks e s'}, Primary s ks e s' → s.Extends s'
  | _, _, _, _, .literal _ => .refl _
  | _, _, _, _, .reference _ _ _ => .refl _
  | _, _, _, _, .parentheses inside => inside.scope
  | _, _, _, _, .construct type _ inside _ => type.scope.trans inside.scope
  | _, _, _, _, .make type _ inside _ => type.scope.trans inside.scope
  | _, _, _, _, .call _ _ inside _ => inside.scope
theorem Arguments.scope : ∀ {s ks es s'}, Arguments s ks es s' → s.Extends s'
  | _, _, _, _, .none => .refl _
  | _, _, _, _, .some list => list.scope
theorem ArgumentList.scope : ∀ {s ks es s'}, ArgumentList s ks es s' → s.Extends s'
  | _, _, _, _, .one argument => argument.scope
  | _, _, _, _, .more argument rest => argument.scope.trans rest.scope
end

theorem Initializer.scope {ty : Ty} {q : Qualifier} {s s' : Scope} {ks : Kinds}
    {initial : Option Value} (h : Initializer ty q s ks initial s') : s.Extends s' := by
  cases h with
  | none => exact .refl s
  | some _ value => exact value.scope

theorem Declaration.named {s s' : Scope} {ks : Kinds} (h : Declaration s ks s') (hs : s.Named) :
    s'.Named := by
  cases h with
  | type _ type => exact type.scope.named hs
  | object _ type _ _ starts => exact starts.scope.named (type.scope.named hs)

theorem Declarations.named {s s' : Scope} {ks : Kinds} (h : Declarations s ks s') (hs : s.Named) :
    s'.Named := by
  induction h with
  | none => exact hs
  | more first _ ih => exact ih (first.named hs)

end Phrase

end ShaderExpr
