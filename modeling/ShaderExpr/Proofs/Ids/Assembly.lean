import ShaderExpr.Proofs.Build.Assembly
import ShaderExpr.Proofs.Ids.Numbered
import ShaderExpr.Proofs.Module.LiteralString

namespace ShaderExpr

open Instruction

namespace Builder

variable {b : Builder} {void type function label : Id}

/-- Behind the type of the body function, only it and its label need an id. The three assumptions on
    the next id say that the ids do not run out while they are handed out. -/
theorem Numbered.closed (hn : b.Numbered []) (hvoid : void ∈ results b.front)
    (hmax : b.nextId ≠ 0xffffffff) (hmax' : b.nextId + 1 ≠ 0xffffffff)
    (hmax'' : b.nextId + 1 + 1 ≠ 0xffffffff) {names : List Instruction}
    (hnames : names = [] ∨
      names = [⟨.debugName, (b.nextId + 1) :: LiteralString.encode Build.bodyName⟩]) :
    (b.closed void names).Numbered [b.nextId + 1 + 1, b.nextId + 1] := by
  have hn₁ := (hn.reserve hmax).settleDefinition
    (i := ⟨.typeFunction, b.nextId :: void :: b.parameters.map (·.2)⟩) rfl fun id hid => by
      rcases List.mem_cons.mp (show id ∈ void :: b.parameters.map (·.2) from hid) with rfl | hid
      · exact hvoid
      · obtain ⟨p, hp, rfl⟩ := List.mem_map.mp hid
        exact hn.parameters p hp
  have hn₂ := (hn₁.reserve hmax').reserve hmax''
  have hbounds := hn₂.bounds (.inl (List.mem_cons_of_mem _ (List.mem_singleton_self _)))
  rcases hnames with rfl | rfl
  · rw [Builder.closed, List.append_nil]
    exact hn₂
  · exact hn₂.withDebug rfl rfl fun id hid => List.mem_singleton.mp hid ▸ hbounds

theorem results_heading : results (b.heading function) = results b.imports := by
  have hcapabilities : results b.capabilities = [] := by
    rw [capabilities]
    split <;> rfl
  have hentry : results (b.entry function) = [] := by
    rw [entry]
    split <;> rfl
  rw [heading, results_append, results_append, results_append, hcapabilities, hentry]
  simp [results, Instruction.result?, Opcode.resultPosition?]

theorem results_opening :
    results (b.opening void type function) = function :: b.parameters.map (·.1) := by
  have hparameters : results (b.parameters.map fun p => ⟨.functionParameter, [p.2, p.1]⟩) =
      b.parameters.map (·.1) := by
    induction b.parameters with
    | nil => rfl
    | cons p ps ih => exact congrArg (p.1 :: ·) ih
  rw [← hparameters]
  rfl

theorem Numbered.results_debug {pending : List Id} (hn : b.Numbered pending) :
    results b.debug = [] :=
  List.filterMap_eq_nil_iff.mpr fun i hi => (hn.debug i hi).2.1

theorem results_front : results b.front = results b.imports ++ results b.define :=
  results_append _ _

theorem Numbered.results_assembled {pending : List Id} (hn : b.Numbered pending) :
    results (b.assembled void type function label).instructions =
      results b.front ++ function :: b.parameters.map (·.1) ++ [label] ++ results b.declare ++
        results b.code := by
  have hlabel : results [⟨.label, [label]⟩] = [label] := rfl
  have hend : results [⟨.ret, []⟩, ⟨.functionEnd, []⟩] = [] := rfl
  simp only [assembled, Module.ofInstructions, hn.bare.1, hn.bare.2, results_append,
    results_heading, hn.results_debug, results_opening, hlabel, hend, results_front,
    List.nil_append, List.append_nil]

theorem Numbered.count_assembled (hn : b.Numbered [label, function]) (void type id : Id) :
    (results (b.assembled void type function label).instructions).count id =
      if 1 ≤ id.toNat ∧ id.toNat < b.nextId.toNat then 1 else 0 := by
  rw [← hn.once id, hn.results_assembled, known, outer]
  simp only [List.count_append, List.count_cons, List.count_nil]
  omega

theorem ahead_entry : ∀ i ∈ b.entry function, i.op.refersAhead := by
  rw [entry]
  split <;> simp [Opcode.refersAhead]

theorem ordered_heading : Ordered [] (b.heading function) := by
  have hcapabilities : ∀ i ∈ b.capabilities, i.uses = [] := by
    rw [capabilities]
    split <;> simp [Instruction.uses]
  have himports : ∀ i ∈ b.imports, i.uses = [] := by
    rw [imports]
    split <;> simp [Instruction.uses]
  refine ordered_of_known fun i hi hahead id hid => ?_
  simp only [heading, List.mem_append, List.mem_singleton] at hi
  rcases hi with ((hi | hi) | rfl) | hi
  · simp [hcapabilities i hi] at hid
  · simp [himports i hi] at hid
  · simp [Instruction.uses] at hid
  · simp [ahead_entry i hi] at hahead

theorem Numbered.ordered_opening {pending : List Id} (hn : b.Numbered pending)
    (hvoid : void ∈ results b.front) (htype : type ∈ results b.front) :
    Ordered (results b.front) (b.opening void type function) := by
  refine ordered_of_known fun i hi _ id hid => ?_
  rcases List.mem_cons.mp hi with rfl | hi
  · rcases List.mem_cons.mp (show id ∈ [void, type] from hid) with rfl | hid
    · exact hvoid
    · exact List.mem_singleton.mp hid ▸ htype
  · obtain ⟨p, hp, rfl⟩ := List.mem_map.mp hi
    exact List.mem_singleton.mp hid ▸ hn.parameters p hp

theorem Numbered.ordered_assembled (hn : b.Numbered [label, function])
    (hvoid : void ∈ results b.front) (htype : type ∈ results b.front) :
    Ordered [] (b.assembled void type function label).instructions := by
  have hdebug : Ordered [] b.debug :=
    ordered_of_known fun i hi hahead => by simp [(hn.debug i hi).1] at hahead
  have hdefine : Ordered (results b.imports) b.define := (ordered_append.mp hn.front).2
  have hdeclare : Ordered (results b.front) b.declare :=
    ordered_of_known fun i hi _ => hn.declare i hi
  have hlabel : Ordered [] [⟨.label, [label]⟩] := ⟨fun _ => by simp [Instruction.uses], trivial⟩
  have hend : Ordered [] [⟨.ret, []⟩, ⟨.functionEnd, []⟩] :=
    ⟨fun _ => by simp [Instruction.uses], fun _ => by simp [Instruction.uses], trivial⟩
  simp only [assembled, Module.ofInstructions, hn.bare.1, hn.bare.2, List.nil_append,
    List.append_nil]
  refine .append (.append (.append (.append (.append (.append (.append ordered_heading hdebug ?_)
    hdefine ?_) (hn.ordered_opening hvoid htype) ?_) hlabel ?_) hdeclare ?_) hn.code ?_) hend ?_
  all_goals simp only [results_append, results_heading, hn.results_debug, results_opening,
    results_front, outer, List.append_nil, List.nil_subset]
  · exact List.Subset.refl _
  · exact List.Subset.refl _
  · intro id hid
    simp only [List.mem_append, List.mem_cons] at hid ⊢
    tauto
  · intro id hid
    simp only [List.mem_append, List.mem_cons] at hid ⊢
    tauto

theorem Numbered.interface_bounds {pending : List Id} (hn : b.Numbered pending)
    (hfunction : function ∈ pending) {i : Instruction} (hi : i ∈ b.entry function) {id : Id}
    (hid : id ∈ i.uses) : 1 ≤ id.toNat ∧ id.toNat < b.nextId.toNat := by
  rw [entry] at hi
  split at hi
  · simp only [List.mem_cons, List.not_mem_nil, or_false] at hi
    rcases hi with rfl | rfl
    · have hid : id ∈ function ::
          LiteralString.behind (LiteralString.encode Build.bodyName ++ b.interface) := hid
      rw [LiteralString.behind_encode (by decide)] at hid
      rcases List.mem_cons.mp hid with rfl | hid
      · exact hn.bounds (.inl hfunction)
      · exact hn.bounds (.inr (mem_known_of_outer (hn.interface id hid)))
    · exact List.mem_singleton.mp hid ▸ hn.bounds (.inl hfunction)
  · simp at hi

theorem op_capabilities : ∀ i ∈ b.capabilities, i.op = .capability := by
  rw [capabilities]
  split <;> simp

theorem given_imports : ∀ i ∈ b.imports, i.result?.isSome := by
  rw [imports]
  split <;> simp [Instruction.result?, Opcode.resultPosition?]

theorem given_opening : ∀ i ∈ b.opening void type function, i.result?.isSome := by
  intro i hi
  rcases List.mem_cons.mp hi with rfl | hi
  · rfl
  · obtain ⟨p, -, rfl⟩ := List.mem_map.mp hi
    rfl

/-- An instruction of a module is a name, or one of the code, or has a result, or is one of the
    frame around these. -/
theorem Numbered.mem_assembled {pending : List Id} (hn : b.Numbered pending) {i : Instruction}
    (hi : i ∈ (b.assembled void type function label).instructions) :
    i ∈ b.entry function ∨ i ∈ b.debug ∨ i ∈ b.code ∨ i.result?.isSome ∨
      i.op ∈ [.capability, .memoryModel, .ret, .functionEnd] := by
  simp only [assembled, Module.ofInstructions, hn.bare.1, hn.bare.2, heading, List.nil_append,
    List.append_nil, List.mem_append, List.mem_cons, List.not_mem_nil, or_false] at hi
  rcases hi with ((((((((((hi | hi) | rfl) | hi) | hi) | hi) | hi) | rfl) | hi) | hi) | rfl | rfl)
  · exact .inr (.inr (.inr (.inr (by simp [op_capabilities i hi]))))
  · exact .inr (.inr (.inr (.inl (given_imports i hi))))
  · exact .inr (.inr (.inr (.inr (by simp))))
  · exact .inl hi
  · exact .inr (.inl hi)
  · exact .inr (.inr (.inr (.inl (hn.given i (List.mem_append_left _ hi)))))
  · exact .inr (.inr (.inr (.inl (given_opening i hi))))
  · exact .inr (.inr (.inr (.inl rfl)))
  · exact .inr (.inr (.inr (.inl (hn.given i (List.mem_append_right _ hi)))))
  · exact .inr (.inr (.inl hi))
  · exact .inr (.inr (.inr (.inr (by simp))))
  · exact .inr (.inr (.inr (.inr (by simp))))

/-- Only the entry point and names may refer ahead. -/
theorem Numbered.mem_of_refersAhead {pending : List Id} (hn : b.Numbered pending) {i : Instruction}
    (hi : i ∈ (b.assembled void type function label).instructions) (hahead : i.op.refersAhead) :
    i ∈ b.entry function ∨ i ∈ b.debug := by
  have hresult : ¬ i.result?.isSome := by simp [result?_of_refersAhead hahead]
  rcases hn.mem_assembled hi with hi | hi | hi | hi | hi
  · exact .inl hi
  · exact .inr hi
  · rcases hn.computed i hi with h | h
    · exact absurd h hresult
    · simp [h, Opcode.refersAhead] at hahead
  · exact absurd hi hresult
  · simp only [List.mem_cons, List.not_mem_nil, or_false] at hi
    rcases hi with h | h | h | h <;> simp [h, Opcode.refersAhead] at hahead

/-- The ids of a module are in static single assignment form. Everything that instructions refer to
    stands in front of them, although the parts are not put together in the order in which they
    grew. -/
theorem Numbered.assembled (hn : b.Numbered [label, function]) (hvoid : void ∈ results b.front)
    (htype : type ∈ results b.front) :
    (b.assembled void type function label).SingleAssignment := by
  have hmem {id : Id} (hid : id ∈ results (b.assembled void type function label).instructions) :
      1 ≤ id.toNat ∧ id.toNat < b.nextId.toNat := by
    by_contra hout
    have hcount := hn.count_assembled void type id
    rw [if_neg hout] at hcount
    exact absurd (List.count_pos_iff.mpr hid) (by omega)
  have hearlier : ∀ front i behind, (b.assembled void type function label).instructions =
      front ++ i :: behind → i.op.refersAhead = false → ∀ id ∈ i.uses, id ∈ results front := by
    intro front i behind heq hahead
    have hordered := hn.ordered_assembled hvoid htype
    rw [heq] at hordered
    simpa using hordered.earlier hahead
  refine ⟨fun id h h' => ?_, fun i hi id hid => ?_, hearlier⟩
  · rw [hn.count_assembled, if_pos ⟨h, h'⟩]
  · rcases hid with hid | hid
    · cases hahead : i.op.refersAhead with
      | true =>
        rcases hn.mem_of_refersAhead hi hahead with hi | hi
        · exact hn.interface_bounds (List.mem_cons_of_mem _ (List.mem_singleton_self _)) hi hid
        · exact (hn.debug i hi).2.2 id hid
      | false =>
        obtain ⟨front, behind, heq⟩ := List.append_of_mem hi
        refine hmem ?_
        rw [heq, results_append]
        exact List.mem_append_left _ (hearlier front i behind heq hahead id hid)
    · exact hmem (mem_results.mpr ⟨i, hi, hid⟩)

end Builder

end ShaderExpr
