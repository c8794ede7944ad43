import ShaderExpr.Program
import ShaderExpr.Proofs.Layout.Sections
import ShaderExpr.Proofs.Reading.Declared

namespace ShaderExpr

open Relation

namespace Scope

/-- A scope with nothing but parameters, which are not void. It is what a body function is compiled
    in. -/
inductive Parameterized : Scope → Prop
  | empty : Parameterized .empty
  | add {s : Scope} (h : Parameterized s) (name : String) {ty : Ty} (present : ty.isVoid = false) :
    Parameterized (s.addParameter name ty).2

variable {x : Variable} {xs : List Variable}

theorem nodup_names_place (h : (xs.map (·.name)).Nodup) : ((place x xs).map (·.name)).Nodup := by
  induction xs with
  | nil => exact List.nodup_singleton _
  | cons z xs ih =>
    obtain ⟨hz, hxs⟩ := List.nodup_cons.mp h
    rw [place]
    split
    · rename_i hname
      refine List.nodup_cons.mpr ⟨fun hmem => ?_, hxs⟩
      obtain ⟨y, hy, hyx⟩ := List.mem_map.mp hmem
      exact hz (List.mem_map.mpr ⟨y, hy, hyx.trans hname.symm⟩)
    · rename_i hname
      refine List.nodup_cons.mpr ⟨fun hmem => ?_, ih hxs⟩
      obtain ⟨y, hy, hyz⟩ := List.mem_map.mp hmem
      rcases mem_place hy with rfl | hy
      · exact hname hyz.symm
      · exact hz (List.mem_map.mpr ⟨y, hy, hyz⟩)

/-- A parameter takes the place of a variable of its name. -/
theorem WellFormed.addParameter {s : Scope} (h : s.WellFormed) (name : String) {ty : Ty}
    (present : ty.isVoid = false) : (s.addParameter name ty).2.WellFormed := by
  have hvalid : (s.addParameter name ty).1.WellFormed :=
    ⟨present, fun v hv => (nomatch hv), fun hconstant => absurd hconstant Bool.false_ne_true⟩
  refine ⟨h.named, fun x hx => ?_, nodup_names_place h.names,
    nodup_place h.ids fun y hy => Nat.ne_of_lt (h.fresh y hy), fun x hx => ?_⟩
  · rcases mem_place hx with rfl | hx
    · exact hvalid
    · exact h.declared x hx
  · rcases mem_place hx with rfl | hx
    · exact Nat.lt_succ_self _
    · exact Nat.lt_succ_of_lt (h.fresh x hx)

theorem Parameterized.wellFormed {s : Scope} (h : s.Parameterized) : s.WellFormed := by
  induction h with
  | empty => exact .empty
  | add _ name present ih => exact ih.addParameter name present

end Scope

namespace Build

open Builder

variable {xs : List Variable} {allowed : Opcode → Prop} {b b' : Builder}

/-- Declares the parameters among variables, used or not. -/
def declareParameters [Limits] : List Variable → Build Unit
  | [] => return
  | x :: rest => do
    if x.isParameter then
      let _ ← variableId x
    declareParameters rest

theorem forIn_eq_declareParameters [Limits] {f : Variable → Unit → Build (ForInStep Unit)}
    (hf : ∀ x u, f x u = if x.isParameter then variableId x >>= fun _ => pure (.yield ())
      else pure (.yield ())) : forIn xs () f = declareParameters xs := by
  induction xs with
  | nil => rfl
  | cons x xs ih =>
    rw [List.forIn_cons, hf, declareParameters]
    by_cases hparameter : x.isParameter
    · simp only [if_pos hparameter, bind_assoc, pure_bind, ih]
    · simp only [if_neg hparameter, pure_bind, ih]

/-- A parameter that the table does not have is put behind the others. -/
theorem parameterId_eq_ok {x : Variable} {id : Id} (hx : x ∈ xs) (outside : x.isParameter)
    (new : b.declared.lookup x.id = none) (h : variableId x b = .ok (id, b')) :
    ReflTransGen (Step xs allowed) b b' ∧ b'.declared = (x.id, id) :: b.declared ∧
      ∃ pointer, b'.parameters = b.parameters ++ [(id, pointer)] ∧
        b'.pointerTypes.lookup (x.ty, .function) = some pointer := by
  have hpath : ReflTransGen (Step xs allowed) b b' := (variableId_takes b hx id b' h).1
  obtain ⟨pointer, b₁, hsteps, hpointer, -, rfl, ⟨-, names, -, rfl⟩ | ⟨inside, -⟩⟩ :=
    variableId_eq_ok new h
  · have hclass : x.qualifier.storage.storageClass = .function := by
      rw [of_decide_eq_true outside]
      rfl
    refine ⟨hpath, ?_, pointer, ?_, hclass ▸ hpointer⟩
    · rw [← declared_of_steps hsteps]
      rfl
    · rw [← (same_of_definitions hsteps).2.1]
      rfl
  · simp [outside] at inside

/-- A variable is a parameter of the body function under an id, behind a pointer to its type. -/
def IsArgument (b : Builder) (x : Variable) (p : Id × Id) : Prop :=
  b.declared.lookup x.id = some p.1 ∧ b.pointerTypes.lookup (x.ty, .function) = some p.2

theorem IsArgument.keeps {x : Variable} {p : Id × Id} (h : IsArgument b x p) (hkeeps : b.Keeps b') :
    IsArgument b' x p := ⟨hkeeps (.var x.id) p.1 h.1, hkeeps.pointers h.2⟩

/-- Parameters are declared in order. -/
theorem declareParameters_takes {ys : List Variable} (hsub : ys ⊆ xs) (ids : (ys.map (·.id)).Nodup)
    (new : ∀ y ∈ ys, b.declared.lookup y.id = none) :
    (declareParameters ys).Takes (Step xs allowed) b fun _ b' => ∃ ps,
      b'.parameters = b.parameters ++ ps ∧
        List.Forall₂ (IsArgument b') (ys.filter (·.isParameter)) ps := by
  induction ys generalizing b with
  | nil => exact .pure ⟨[], (List.append_nil _).symm, .nil⟩
  | cons y ys ih =>
    obtain ⟨hy, hys⟩ := List.nodup_cons.mp ids
    have hsub' : ys ⊆ xs := fun z hz => hsub (List.mem_cons_of_mem y hz)
    have hnew' : ∀ z ∈ ys, b.declared.lookup z.id = none :=
      fun z hz => new z (List.mem_cons_of_mem y hz)
    rw [declareParameters]
    by_cases hparameter : y.isParameter
    · rw [if_pos hparameter]
      rw [List.filter_cons_of_pos hparameter]
      intro u b' h
      obtain ⟨id, b₁, hid, h⟩ := bind_eq_ok.mp h
      obtain ⟨hpath, hdeclared, pointer, hparameters, hpointer⟩ :=
        (parameterId_eq_ok (hsub List.mem_cons_self) hparameter (new y List.mem_cons_self) hid :
          ReflTransGen (Step xs allowed) b b₁ ∧ _)
      have hnew₁ : ∀ z ∈ ys, b₁.declared.lookup z.id = none := by
        intro z hz
        have hne : z.id ≠ y.id := fun heq => hy (List.mem_map.mpr ⟨z, hz, heq⟩)
        rw [hdeclared, List.lookup_cons_eq, if_neg hne]
        exact hnew' z hz
      obtain ⟨hpath', ps, hps, hall⟩ := ih hsub' hys hnew₁ u b' h
      have hfirst : IsArgument b₁ y (id, pointer) :=
        ⟨by rw [hdeclared, List.lookup_cons_self], hpointer⟩
      refine ⟨hpath.trans hpath', (id, pointer) :: ps, ?_, .cons (hfirst.keeps ?_) hall⟩
      · rw [hps, hparameters, List.append_assoc, List.singleton_append]
      · exact .of_steps (fun _ _ => Step.keeps) hpath'
    · rw [if_neg hparameter, List.filter_cons_of_neg hparameter]
      exact ih hsub' hys hnew'

end Build

end ShaderExpr
