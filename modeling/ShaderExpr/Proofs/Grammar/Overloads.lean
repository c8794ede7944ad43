import Mathlib.Data.List.Forall2
import ShaderExpr.Proofs.Grammar.Phrase

namespace ShaderExpr

namespace Candidates

/-- Candidates come from a list of functions and accept the first arguments of some types. Each step
    of the choice keeps this, so it holds of the function that is chosen. -/
def Accepting (functions : List Function) (types : List Ty) (c : Candidates) : Prop :=
  ∀ p ∈ c.entries, p.1 ∈ functions ∧
    ∀ (n : Nat) (t : Ty), types[n]? = some t → ∃ u, p.1.parameters[n]? = some u ∧ t.convertsTo u

theorem Accepting.takeArgument {functions : List Function} {types : List Ty} {c : Candidates}
    (h : c.Accepting functions types) (ty : Ty) :
    (c.takeArgument types.length ty).Accepting functions (types ++ [ty]) := by
  intro p hp
  obtain ⟨⟨f, exact⟩, hf, hp⟩ := List.mem_filterMap.mp hp
  dsimp only at hp
  split at hp
  · simp at hp
  · rename_i u hu
    split at hp
    · rename_i hconverts
      obtain rfl := Option.some.inj hp
      refine ⟨(h _ hf).1, fun n t hn => ?_⟩
      rcases Nat.lt_trichotomy n types.length with hlt | rfl | hgt
      · rw [List.getElem?_append_left hlt] at hn
        exact (h _ hf).2 n t hn
      · obtain rfl : ty = t := by simpa using hn
        exact ⟨u, hu, hconverts⟩
      · rw [List.getElem?_eq_none (by simp; omega)] at hn
        simp at hn
    · simp at hp

theorem Accepting.narrow {functions : List Function} (more : List Ty) {types : List Ty}
    {c : Candidates} (h : c.Accepting functions types) :
    ((more.zipIdx types.length).foldl (fun c a => c.takeArgument a.2 a.1) c).Accepting functions
      (types ++ more) := by
  induction more generalizing types c with
  | nil => simpa using h
  | cons ty more ih =>
    have hrest := ih (h.takeArgument ty)
    rw [List.append_assoc, List.length_append, List.length_singleton] at hrest
    exact hrest

theorem mem_of_choice? {c : Candidates} {f : Function} (h : c.choice? = some f) :
    ∃ p ∈ c.entries, p.1 = f := by
  unfold choice? at h
  split at h
  · rename_i g exact hg
    exact ⟨(g, exact), by rw [hg]; simp, Option.some.inj h⟩
  · split at h
    · rename_i g exact hg
      have hmem : (g, exact) ∈ c.entries.filter (·.2) := by rw [hg]; simp
      exact ⟨_, (List.mem_filter.mp hmem).1, Option.some.inj h⟩
    · simp at h

theorem Accepting.ofFunctions (functions : List Function) :
    (ofFunctions functions).Accepting functions [] := by
  intro p hp
  obtain ⟨f, hf, rfl⟩ := List.mem_map.mp hp
  exact ⟨hf, by simp⟩

/-- A function that was chosen has as many parameters as there are arguments, and each of them
    accepts its argument. -/
theorem Accepting.of_choice? {functions : List Function} {types : List Ty} {c : Candidates}
    {f : Function} (h : c.Accepting functions types)
    (hf : (c.takeCount types.length).choice? = some f) :
    f ∈ functions ∧ List.Forall₂ (fun t u => t.convertsTo u = true) types f.parameters := by
  obtain ⟨p, hp, rfl⟩ := mem_of_choice? hf
  obtain ⟨hentry, hcount⟩ := List.mem_filter.mp hp
  obtain ⟨hmem, haccepts⟩ := h p hentry
  have hcount : p.1.parameters.length = types.length := by simpa using hcount
  refine ⟨hmem, List.forall₂_iff_get.mpr ⟨hcount.symm, fun n ht hu => ?_⟩⟩
  obtain ⟨u, hfound, hconverts⟩ := haccepts n types[n] (by simp [List.getElem?_eq_getElem ht])
  rw [List.getElem?_eq_getElem hu] at hfound
  simpa [Option.some.inj hfound] using hconverts

theorem accepts_of_resolve? {functions : List Function} {types : List Ty} {f : Function}
    (h : resolve? functions types = some f) :
    f ∈ functions ∧ List.Forall₂ (fun t u => t.convertsTo u = true) types f.parameters :=
  ((Accepting.ofFunctions functions).narrow types).of_choice? h

theorem mem_of_resolve? {functions : List Function} {types : List Ty} {f : Function}
    (h : resolve? functions types = some f) : f ∈ functions := (accepts_of_resolve? h).1

end Candidates

theorem Builtin.builtin_of_mem_overloads {b : Builtin} {g : Signature} (h : g ∈ b.overloads) :
    g.builtin = b := by
  unfold overloads at h
  split at h
  · rw [List.mem_singleton.mp h]
  · obtain ⟨c, -, h⟩ := List.mem_flatMap.mp h
    obtain ⟨t, -, h⟩ := List.mem_flatMap.mp h
    obtain ⟨form, -, rfl⟩ := List.mem_map.mp h
    rfl

/-- Functions of a name are overloads of the builtin function of that name. -/
theorem Scope.builtin_of_mem_functions {s : Scope} {name : String} {f : Function}
    (h : f ∈ s.functions name) :
    ∃ g : Signature, f = .builtin g ∧ g.builtin.name = name ∧ g ∈ g.builtin.overloads := by
  unfold functions at h
  split at h
  · rename_i b hb
    obtain ⟨g, hg, rfl⟩ := List.mem_map.mp h
    have hname : b.name = name := by simpa using List.find?_some hb
    refine ⟨g, rfl, ?_⟩
    rw [Builtin.builtin_of_mem_overloads hg]
    exact ⟨hname, hg⟩
  · simp at h

end ShaderExpr
