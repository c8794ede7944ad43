import ShaderExpr.Proofs.Grammar.Arguments

namespace ShaderExpr

namespace Function

/-- There is a parameter for each argument, and every argument converts to the type of its own. -/
def accepts (types : List Ty) (f : Function) : Bool :=
  f.parameters.length = types.length && (types.zip f.parameters).all fun (t, u) => t.convertsTo u

/-- Of the functions that accept arguments, those that convert none of them. -/
def acceptsAsIs (types : List Ty) (f : Function) : Bool := f.accepts types && f.parameters = types

/-- A function is the only entry of a list with a property: no other entry has it, not even one of
    the same function. -/
def IsOnly (p : Function → Bool) (functions : List Function) (f : Function) : Prop :=
  f ∈ functions ∧ p f ∧ functions.countP p = 1

/-- What a call with arguments of these types means, where a name has these functions. -/
inductive Resolves (functions : List Function) (types : List Ty) (f : Function) : Prop
  | only (only : IsOnly (accepts types) functions f)
  | asIs (several : 1 < functions.countP (accepts types))
    (only : IsOnly (acceptsAsIs types) functions f)

theorem isOnly_iff {p : Function → Bool} {functions : List Function} {f : Function} :
    IsOnly p functions f ↔ functions.filter p = [f] := by
  unfold IsOnly
  rw [List.countP_eq_length_filter, ← and_assoc, ← List.mem_filter]
  constructor
  · rintro ⟨hmem, hlength⟩
    obtain ⟨g, hg⟩ := List.length_eq_one_iff.mp hlength
    rw [hg] at hmem ⊢
    rw [List.mem_singleton.mp hmem]
  · intro h
    rw [h]
    exact ⟨List.mem_singleton_self f, rfl⟩

theorem IsOnly.perm {p : Function → Bool} {functions listed : List Function} {f : Function}
    (same : listed.Perm functions) : IsOnly p listed f ↔ IsOnly p functions f := by
  unfold IsOnly
  rw [same.mem_iff, same.countP_eq p]

/-- What a call means does not depend on the order of the functions. -/
theorem Resolves.perm {functions listed : List Function} {types : List Ty} {f : Function}
    (same : listed.Perm functions) : Resolves listed types f ↔ Resolves functions types f := by
  constructor
  · rintro (honly | ⟨hseveral, honly⟩)
    · exact .only ((IsOnly.perm same).mp honly)
    · exact .asIs (same.countP_eq _ ▸ hseveral) ((IsOnly.perm same).mp honly)
  · rintro (honly | ⟨hseveral, honly⟩)
    · exact .only ((IsOnly.perm same).mpr honly)
    · exact .asIs (same.countP_eq _ ▸ hseveral) ((IsOnly.perm same).mpr honly)

/-- Does the parameter at the position of an argument accept it? -/
def takes (f : Function) (argument : Ty × Nat) : Bool :=
  f.parameters[argument.2]?.any fun parameter => argument.1.convertsTo parameter

/-- Has the parameter at the position of an argument its type? -/
def takesAsIs (f : Function) (argument : Ty × Nat) : Bool :=
  f.parameters[argument.2]? = some argument.1

/-- Arguments that are looked at one by one are accepted together. -/
theorem accepts_eq (types : List Ty) (f : Function) :
    f.accepts types = (types.zipIdx.all f.takes && f.parameters.length = types.length) := by
  unfold accepts
  rw [Bool.and_comm]
  by_cases hlength : f.parameters.length = types.length
  swap
  · simp [hlength]
  congr 1
  rw [Bool.eq_iff_iff, List.all_eq_true, List.all_eq_true]
  constructor
  · rintro h ⟨t, n⟩ hargument
    have ht := List.mem_zipIdx_iff_getElem?.mp hargument
    obtain ⟨hn, -⟩ := List.getElem?_eq_some_iff.mp ht
    have hu : f.parameters[n]? = some f.parameters[n] := List.getElem?_eq_getElem (by omega)
    have hmem : (t, f.parameters[n]) ∈ types.zip f.parameters :=
      List.mem_of_getElem? (i := n) (List.getElem?_zip_eq_some.mpr ⟨ht, hu⟩)
    simpa [takes, hu] using h _ hmem
  · rintro h ⟨t, u⟩ hpair
    obtain ⟨n, hn⟩ := List.mem_iff_getElem?.mp hpair
    obtain ⟨ht, hu⟩ := List.getElem?_zip_eq_some.mp hn
    simpa [takes, hu] using h (t, n) (List.mem_zipIdx_iff_getElem?.mpr ht)

/-- Parameters that have the types of the arguments one by one are these types. -/
theorem all_takesAsIs {types : List Ty} {f : Function} (h : f.parameters.length = types.length) :
    types.zipIdx.all f.takesAsIs = decide (f.parameters = types) := by
  rw [Bool.eq_iff_iff, List.all_eq_true, decide_eq_true_eq]
  constructor
  · intro hall
    refine List.ext_getElem h fun n hn hn' => ?_
    have hn := hall (types[n], n)
      (List.mem_zipIdx_iff_getElem?.mpr (List.getElem?_eq_getElem hn'))
    obtain ⟨_, hsame⟩ := List.getElem?_eq_some_iff.mp (of_decide_eq_true hn)
    exact hsame
  · rintro rfl ⟨t, n⟩ hargument
    simpa [takesAsIs] using List.mem_zipIdx_iff_getElem?.mp hargument

end Function

namespace Candidates

open ShaderExpr.Function

/-- An argument keeps the candidates that take it. -/
theorem entries_takeArgument (c : Candidates) (argument : Ty × Nat) :
    (c.takeArgument argument.2 argument.1).entries =
      (c.entries.filter fun p => p.1.takes argument).map fun p =>
        (p.1, p.2 && p.1.takesAsIs argument) := by
  obtain ⟨entries⟩ := c
  unfold takeArgument
  induction entries with
  | nil => rfl
  | cons p entries ih =>
    obtain ⟨f, exact⟩ := p
    dsimp only at ih ⊢
    rw [List.filterMap_cons, List.filter_cons, ih]
    cases hparameter : f.parameters[argument.2]? with
    | none => simp [takes, hparameter]
    | some u => by_cases htakes : argument.1.convertsTo u <;> simp [takes, takesAsIs, hparameter, htakes]

/-- Arguments keep the candidates that take all of them, in whatever order they come. What is kept
    with a candidate is whether all of them were of exactly its types. -/
theorem entries_foldl (arguments : List (Ty × Nat)) (c : Candidates) :
    (arguments.foldl (fun c a => c.takeArgument a.2 a.1) c).entries =
      (c.entries.filter fun p => arguments.all p.1.takes).map fun p =>
        (p.1, p.2 && arguments.all p.1.takesAsIs) := by
  induction arguments generalizing c with
  | nil => simp
  | cons argument arguments ih =>
    rw [List.foldl_cons, ih, entries_takeArgument, List.filter_map, List.filter_filter,
      List.map_map]
    simp [Function.comp_def, Bool.and_comm]

/-- The candidates behind all arguments and their count. -/
theorem entries_takeCount (functions : List Function) {types : List Ty}
    {arguments : List (Ty × Nat)} (each : arguments.Perm types.zipIdx) :
    ((arguments.foldl (fun c a => c.takeArgument a.2 a.1) (ofFunctions functions)).takeCount
      types.length).entries =
      (functions.filter (accepts types)).map fun f => (f, decide (f.parameters = types)) := by
  have hentries := entries_foldl arguments (ofFunctions functions)
  simp only [ofFunctions, List.filter_map, List.map_map, Function.comp_def, Bool.true_and,
    each.all_eq] at hentries
  simp only [takeCount, ofFunctions, hentries, List.filter_map, Function.comp_def,
    List.filter_filter]
  have hfilter : functions.filter (fun f => decide (f.parameters.length = types.length) &&
      types.zipIdx.all f.takes) = functions.filter (accepts types) :=
    List.filter_congr fun f _ => by rw [accepts_eq, Bool.and_comm]
  rw [hfilter]
  refine List.map_congr_left fun f hf => ?_
  have haccepts := (List.mem_filter.mp hf).2
  rw [accepts_eq, Bool.and_eq_true, decide_eq_true_eq] at haccepts
  rw [all_takesAsIs haccepts.2]

/-- The choice among functions, some of which are set apart as exact. -/
theorem choice?_eq_some_iff (functions : List Function) (exact : Function → Bool) (f : Function) :
    (⟨functions.map fun g => (g, exact g)⟩ : Candidates).choice? = some f ↔
      functions = [f] ∨ 1 < functions.length ∧ functions.filter exact = [f] := by
  match functions with
  | [] => simp [choice?]
  | [g] => simp [choice?]
  | g :: h :: more =>
    have hfilter : ((g :: h :: more).map fun g => (g, exact g)).filter (·.2) =
        ((g :: h :: more).filter exact).map fun g => (g, exact g) := by
      rw [List.filter_map]
      rfl
    simp only [choice?, List.map_cons] at hfilter ⊢
    rw [hfilter]
    match (g :: h :: more).filter exact with
    | [] => simp
    | [k] => simp
    | k :: l :: others => simp

/-- The arguments together choose what the call means, however they are looked at one by one. `each`
    says that every argument was looked at once, with its own position. -/
theorem choice?_iff_resolves {functions : List Function} {types : List Ty}
    {arguments : List (Ty × Nat)} (each : arguments.Perm types.zipIdx) (f : Function) :
    ((arguments.foldl (fun c a => c.takeArgument a.2 a.1) (ofFunctions functions)).takeCount
      types.length).choice? = some f ↔ Resolves functions types f := by
  have hentries := entries_takeCount functions each
  have hchoice := choice?_eq_some_iff (functions.filter (accepts types))
    (fun g => decide (g.parameters = types)) f
  rw [← hentries] at hchoice
  have hexact : (functions.filter (accepts types)).filter (fun g => decide (g.parameters = types)) =
      functions.filter (acceptsAsIs types) := by
    rw [List.filter_filter]
    exact List.filter_congr fun g _ => Bool.and_comm _ _
  rw [hexact, ← List.countP_eq_length_filter, ← isOnly_iff, ← isOnly_iff] at hchoice
  refine hchoice.trans ⟨?_, ?_⟩
  · rintro (honly | ⟨hseveral, honly⟩)
    · exact .only honly
    · exact .asIs hseveral honly
  · rintro (honly | ⟨hseveral, honly⟩)
    · exact .inl honly
    · exact .inr ⟨hseveral, honly⟩

/-- A call means the only function that accepts its arguments, or where several do the only one of
    these whose parameters have the types of the arguments. The functions may be listed in any
    order, and the arguments may be looked at in any order. A function that is listed twice counts
    as two. -/
theorem resolve?_exact (functions : List Function) (types : List Ty) :
    (∀ f, resolve? functions types = some f ↔ Resolves functions types f) ∧
      ∀ (listed : List Function) (arguments : List (Ty × Nat)), listed.Perm functions →
        arguments.Perm types.zipIdx →
          ((arguments.foldl (fun c a => c.takeArgument a.2 a.1) (ofFunctions listed)).takeCount
            types.length).choice? = resolve? functions types := by
  have hresolve (f : Function) : resolve? functions types = some f ↔ Resolves functions types f :=
    choice?_iff_resolves (List.Perm.refl _) f
  refine ⟨hresolve, fun listed arguments same each => Option.ext fun f => ?_⟩
  calc _ ↔ Resolves listed types f := choice?_iff_resolves each f
    _ ↔ Resolves functions types f := Resolves.perm same
    _ ↔ _ := (hresolve f).symm

/-- Three overloads accept two integers, and one of them converts neither. Here they are listed
    backwards, and the second argument is looked at first. -/
theorem resolve?_exact_max :
    let types := [Ty.scalar .int, Ty.scalar .int]
    let functions := Builtin.max.overloads.map Function.builtin
    functions.countP (accepts types) = 3 ∧
      (((ofFunctions functions.reverse).takeArgument 1 (.scalar .int)).takeArgument 0
        (.scalar .int) |>.takeCount 2).choice? = some (.builtin ⟨.max, .scalar .int, types⟩) := by
  intro types functions
  have hseveral : functions.countP (accepts types) = 3 := by decide +kernel
  have honly : IsOnly (acceptsAsIs types) functions (.builtin ⟨.max, .scalar .int, types⟩) :=
    ⟨by decide +kernel, by decide +kernel, by decide +kernel⟩
  obtain ⟨hresolves, hchoice⟩ := resolve?_exact functions types
  have hmeans := (hresolves _).mpr (.asIs (by omega) honly)
  refine ⟨hseveral, ?_⟩
  rw [← hmeans, ← hchoice functions.reverse types.zipIdx.reverse functions.reverse_perm
    types.zipIdx.reverse_perm]
  rfl

end Candidates

end ShaderExpr
