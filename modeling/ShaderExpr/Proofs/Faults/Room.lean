import Mathlib.Algebra.Ring.Nat
import ShaderExpr.Proofs.Faults.Limits
import ShaderExpr.Proofs.Ids.Assembly
import ShaderExpr.Proofs.Interning.Traces
import ShaderExpr.Proofs.Layout.Decoding

namespace ShaderExpr

open Instruction

namespace Builder

/-- All instructions so far have as many words as their first word can say. -/
def IsShort (b : Builder) : Prop := ∀ s, ∀ i ∈ b.sectionOf s, i.IsShort

/-- What building spends from one state to a later one. It asked for `asked` ids, which are new as
    long as the numbers do not start over, and gave a meaning to at least `asked + gain`.
    Instructions were only added, so those of the later state are short only if those of the earlier
    one are. -/
structure Spends (b : Builder) (asked : Nat) (gain : Int) (b' : Builder) : Prop where
  meanings : (b.known.length : Int) + asked + gain ≤ b'.known.length
  nextId : b.nextId.toNat + asked < 2 ^ 32 → b'.nextId.toNat = b.nextId.toNat + asked
  sections : ∀ s, b.sectionOf s ⊆ b'.sectionOf s

variable {b b' b'' : Builder} {asked asked' : Nat} {gain gain' : Int} {s : Section}
  {i : Instruction}

theorem IsShort.of_subset (h : b'.IsShort) (sections : ∀ s, b.sectionOf s ⊆ b'.sectionOf s) :
    b.IsShort := fun s i hi => h s i (sections s hi)

theorem known_length (b : Builder) : b.known.length =
    (results b.imports).length + (results b.define).length + b.parameters.length +
      (results b.declare).length + (results b.code).length := by
  simp only [known, outer, front, results_append, List.length_append, List.length_map]

theorem sectionOf_append (b : Builder) (s : Section) (i : Instruction) :
    (b.append s i).sectionOf s = b.sectionOf s ++ [i] := by
  cases s <;> rfl

theorem sectionOf_append_of_ne (b : Builder) {s s' : Section} (i : Instruction) (h : s' ≠ s) :
    (b.append s i).sectionOf s' = b.sectionOf s' := by
  cases s <;> cases s' <;> first | rfl | exact absurd rfl h

namespace Spends

theorem trans (h : b.Spends asked gain b') (h' : b'.Spends asked' gain' b'') :
    b.Spends (asked + asked') (gain + gain') b'' := by
  refine ⟨?_, fun hroom => ?_, fun s _ hi => h'.sections s (h.sections s hi)⟩
  · have hmeanings := h.meanings
    have hmeanings' := h'.meanings
    omega
  · have hnext := h.nextId (by omega)
    have hnext' := h'.nextId (by omega)
    omega

/-- Where nothing is handed out and no instruction is added. -/
theorem of_same (nextId : b'.nextId = b.nextId) (sections : ∀ s, b'.sectionOf s = b.sectionOf s)
    (known : (b.known.length : Int) + gain ≤ b'.known.length) : b.Spends 0 gain b' := by
  refine ⟨by omega, fun _ => by rw [nextId, Nat.add_zero], fun s => ?_⟩
  rw [sections s]
  exact fun _ hi => hi

theorem refl (b : Builder) : b.Spends 0 0 b := of_same rfl (fun _ => rfl) (by omega)

theorem append (b : Builder) (s : Section) (i : Instruction) : b.Spends 0 0 (b.append s i) := by
  refine ⟨?_, fun _ => ?_, fun s' => ?_⟩
  · rw [known_length, known_length]
    cases s <;> simp only [Builder.append, imports, results_append, List.length_append] <;> omega
  · cases s <;> rfl
  · by_cases h : s' = s
    · subst h
      rw [sectionOf_append]
      exact List.subset_append_left _ _
    · rw [sectionOf_append_of_ne b i h]
      exact fun _ hi => hi

/-- An instruction with a result gives an id a meaning. -/
theorem appendResult (b : Builder) (hs : s = .define ∨ s = .declare ∨ s = .code)
    (hresult : i.result?.isSome) : b.Spends 0 1 (b.append s i) := by
  refine ⟨?_, (append b s i).nextId, (append b s i).sections⟩
  obtain ⟨id, hid⟩ := Option.isSome_iff_exists.mp hresult
  have hone : (results [i]).length = 1 := by rw [results_singleton, hid]; rfl
  rw [known_length, known_length]
  rcases hs with rfl | rfl | rfl
  all_goals
    simp only [Builder.append, imports, results_append, List.length_append, hone]
    omega

end Spends

end Builder

namespace Build

open Builder

variable {α β : Type} {gain gain' : Int} {xs : List Variable}

/-- What is built without limits is built within them too, unless it has an instruction that is too
    long, or needs more ids than are left. The result without limits is what decides: it is there
    even where one of the limits is met. -/
def Agrees (r : [Limits] → Build α) (gain : Int) : Prop :=
  ∀ b a b', @r .ignored b = .ok (a, b') → ∃ asked, b.Spends asked gain b' ∧
    ∀ L : Limits, (L.words → b'.IsShort) → (L.ids → b.nextId.toNat + asked < 2 ^ 32) →
      @r L b = .ok (a, b')

/-- What would be built without limits is within them: its instructions are short, and there are ids
    for all that it gives a meaning to. This is about what is built and not about how, so it can be
    checked on the finished code. -/
def HasRoom (r : [Limits] → Build α) (b : Builder) : Prop :=
  ∀ a b', @r .ignored b = .ok (a, b') →
    b'.IsShort ∧ b.nextId.toNat + (b'.known.length - b.known.length) < 2 ^ 32

theorem ne_of_room {id : Id} (room : id.toNat + 1 < 2 ^ 32) : id ≠ 0xffffffff := by
  rintro rfl
  exact absurd room (by decide)

theorem fresh_of_room [Limits] {b : Builder} (room : Limits.ids → b.nextId.toNat + 1 < 2 ^ 32) :
    fresh b = .ok (b.nextId, { b with nextId := b.nextId + 1 }) := by
  rw [fresh_run, if_neg fun ⟨hids, hmax⟩ => ne_of_room (room hids) hmax]

namespace Agrees

variable {r : [Limits] → Build α} {f : [Limits] → α → Build β}

theorem congr {r r' : [Limits] → Build α} (h : ∀ [Limits], r = r') (h' : Agrees r' gain) :
    Agrees r gain := by
  have heq : @r = @r' := funext fun _ => h
  exact heq ▸ h'

/-- Where there is room, there is a result. -/
theorem exists_ok {b : Builder} (h : Agrees r 0) (runs : ∀ [Limits], Runs r b)
    (room : HasRoom r b) : ∃ a b', r b = .ok (a, b') := by
  obtain ⟨a, b', hr⟩ := Runs.exists_ok (@runs .ignored)
  obtain ⟨asked, hspends, hlimits⟩ := h b a b' hr
  obtain ⟨hshort, hids⟩ := room a b' hr
  have hmeanings := hspends.meanings
  exact ⟨a, b', hlimits .enforced (fun _ => hshort) fun _ => by omega⟩

/-- What limits have nothing to do with. -/
theorem of_unlimited {r : Build α} (h : ∀ b a b', r b = .ok (a, b') → b.Spends 0 gain b') :
    Agrees (fun [Limits] => r) gain :=
  fun b a b' hr => ⟨0, h b a b' hr, fun _ _ _ => hr⟩

theorem pure (a : α) : Agrees (fun [Limits] => (pure a : Build α)) 0 :=
  of_unlimited fun b a' b' hr => by
    obtain ⟨-, rfl⟩ := Prod.mk.inj (Except.ok.inj hr)
    exact .refl b

theorem throw (e : Fault) : Agrees (fun [Limits] => (throw e : Build α)) gain :=
  of_unlimited fun b a b' hr => by
    have hfault : (Except.error e : Except Fault (α × Builder)) = .ok (a, b') := hr
    simp at hfault

theorem modify {g : Builder → Builder} (h : ∀ b : Builder, b.Spends 0 gain (g b)) :
    Agrees (fun [Limits] => (modify g : Build Unit)) gain :=
  of_unlimited fun b _ b' hr => by
    obtain ⟨-, rfl⟩ := Prod.mk.inj (Except.ok.inj hr)
    exact h b

theorem bind (h : Agrees r gain) (hf : ∀ a, Agrees (f a) gain') :
    Agrees (r >>= fun a => f a) (gain + gain') := by
  intro b c b'' hr
  obtain ⟨a, b', ha, hc⟩ := bind_eq_ok.mp hr
  obtain ⟨asked, hspends, hlimits⟩ := h b a b' ha
  obtain ⟨asked', hspends', hlimits'⟩ := hf a b' c b'' hc
  refine ⟨asked + asked', hspends.trans hspends', fun L hwords hids => ?_⟩
  refine bind_eq_ok.mpr ⟨a, b', hlimits L (fun hL => ?_) (fun hL => ?_),
    hlimits' L hwords fun hL => ?_⟩
  · exact (hwords hL).of_subset hspends'.sections
  · have hroom := hids hL
    omega
  · have hroom := hids hL
    rw [hspends.nextId (by omega)]
    omega

/-- What follows something that needs as many ids as it gives a meaning to. -/
theorem and_then (h : Agrees r 0) (hf : ∀ a, Agrees (f a) gain) :
    Agrees (r >>= fun a => f a) gain := by
  rw [← Int.zero_add gain]
  exact h.bind hf

theorem get_bind {f : [Limits] → Builder → Build β} (h : ∀ b, Agrees (f b) gain) :
    Agrees (do f (← get)) gain := fun b => h b b

theorem ite {p : Prop} [Decidable p] {yes no : [Limits] → Build α} (hyes : Agrees yes gain)
    (hno : Agrees no gain) : Agrees (if p then yes else no) gain := by
  split
  · exact hyes
  · exact hno

theorem forM {l : List α} {f : [Limits] → α → Build Unit} (h : ∀ x, Agrees (f x) 0) :
    Agrees (l.forM fun x => f x) 0 := by
  induction l with
  | nil => exact .pure ()
  | cons x l ih => exact (h x).and_then fun _ => ih

/-- An id is handed out, and is given a meaning later. -/
theorem fresh_bind {f : [Limits] → Id → Build α} (h : ∀ id, Agrees (f id) (gain + 1)) :
    Agrees (fresh >>= fun id => f id) gain := by
  have hfresh : Agrees fresh (-1) := by
    intro b id b' hr
    obtain ⟨rfl, rfl, -⟩ := @eq_of_fresh _ _ _ .ignored hr
    have hknown : Builder.known { b with nextId := b.nextId + 1 } = b.known := rfl
    exact ⟨1, ⟨by rw [hknown]; omega, fun hroom => toNat_add_one (ne_of_room hroom),
      fun _ _ hi => hi⟩, fun L _ hids => fresh_of_room hids⟩
  have hgain : gain = -1 + (gain + 1) := by omega
  rw [hgain]
  exact hfresh.bind h

end Agrees

theorem add_agrees_of {s : Section} {op : Opcode} {operands : List UInt32}
    (h : ∀ b : Builder, b.Spends 0 gain (b.append s ⟨op, operands⟩)) :
    Agrees (add s op operands) gain := by
  intro b u b' hr
  obtain ⟨rfl, -⟩ := @eq_of_add _ _ _ _ _ _ .ignored hr
  refine ⟨0, h b, fun L hwords _ => ?_⟩
  refine (@add_run L s op operands b).trans (if_pos fun hL => hwords hL s ⟨op, operands⟩ ?_)
  rw [sectionOf_append]
  exact List.mem_append_right _ (List.mem_singleton_self _)

theorem add_agrees (s : Section) (op : Opcode) (operands : List UInt32) :
    Agrees (add s op operands) 0 := add_agrees_of fun b => .append b s _

theorem addNew_agrees {s : Section} {op : Opcode} {operands : List UInt32}
    (hs : s = .define ∨ s = .declare ∨ s = .code)
    (hresult : (Instruction.mk op operands).result?.isSome) : Agrees (add s op operands) 1 :=
  add_agrees_of fun b => .appendResult b hs hresult

/-- An id is handed out for an instruction with this result. Only a section that is counted in
    `known` can settle it, so names and the header are left out. -/
theorem define_agrees {s : Section} {op : Opcode} {operands : Id → List UInt32}
    {f : [Limits] → Id → Build α} (hs : s = .define ∨ s = .declare ∨ s = .code)
    (hresult : ∀ id, (Instruction.mk op (operands id)).result?.isSome)
    (h : ∀ id, Agrees (f id) gain) :
    Agrees (do
      let id ← fresh
      add s op (operands id)
      f id) gain := by
  refine .fresh_bind fun id => ?_
  rw [Int.add_comm]
  exact (addNew_agrees hs (hresult id)).bind fun _ => h id

/-- Tables and flags hold no instructions. Changing them takes no id and adds no instruction. -/
theorem table_bind {g : Builder → Builder} {r : [Limits] → Build α}
    (same : ∀ b : Builder, (g b).nextId = b.nextId ∧ (g b).known = b.known ∧
      ∀ s, (g b).sectionOf s = b.sectionOf s)
    (h : Agrees r gain) : Agrees ((modifyThe Builder g : Build Unit) >>= fun _ => r) gain := by
  refine (Agrees.modify fun b => ?_).and_then fun _ => h
  obtain ⟨hnext, hknown, hsections⟩ := same b
  exact .of_same hnext hsections (by rw [hknown]; omega)

theorem nameId_agrees (id : Id) (name : String) : Agrees (nameId id name) 0 :=
  .get_bind fun _ => .ite (add_agrees _ _ _) (.pure ())

theorem nameMembers_agrees (id : Id) (members : List (String × Ty)) :
    Agrees (nameMembers id members) 0 :=
  .get_bind fun _ => .ite (.forM fun _ => add_agrees _ _ _) (.pure ())

theorem internType_agrees {ty : Ty} {definition : [Limits] → Build Id} (h : Agrees definition 0) :
    Agrees (internType ty definition) 0 := by
  refine .get_bind fun b => ?_
  split
  · exact .pure _
  · exact h

theorem defineType_agrees (ty : Ty) {op : Opcode} (operands : List UInt32)
    (h : op.resultPosition? = some 0) : Agrees (defineType ty op operands) 0 :=
  define_agrees (.inl rfl) (fun id => by simp [result?, h]) fun id =>
    table_bind (fun _ => ⟨rfl, rfl, fun _ => rfl⟩) <| .pure id

theorem scalarTypeId_agrees (s : ScalarType) : Agrees (scalarTypeId s) 0 := by
  refine internType_agrees ?_
  cases s with
  | double =>
    exact table_bind (fun _ => ⟨rfl, rfl, fun _ => rfl⟩) <| defineType_agrees _ _ rfl
  | bool | float | int | uint => exact defineType_agrees _ _ rfl

theorem vectorTypeId_agrees (s : ScalarType) (n : Dim) : Agrees (vectorTypeId s n) 0 :=
  internType_agrees ((scalarTypeId_agrees s).and_then fun _ => defineType_agrees _ _ rfl)

theorem matrixTypeId_agrees (s : ScalarType) (columns rows : Dim) :
    Agrees (matrixTypeId s columns rows) 0 :=
  internType_agrees ((vectorTypeId_agrees s rows).and_then fun _ => defineType_agrees _ _ rfl)

mutual
theorem typeId_agrees : ∀ ty : Ty, Agrees (typeId ty) 0
  | .void => internType_agrees (defineType_agrees _ _ rfl)
  | .scalar s => scalarTypeId_agrees s
  | .vector s n => vectorTypeId_agrees s n
  | .matrix s columns rows => matrixTypeId_agrees s columns rows
  | .struct name members => by
    refine internType_agrees ((memberTypeIds_agrees members).and_then fun ids =>
      (defineType_agrees _ _ rfl).and_then fun id => ?_)
    have hmembers : Agrees (do nameMembers id members; return id) 0 :=
      (nameMembers_agrees id members).and_then fun _ => .pure id
    cases name with
    | none => exact hmembers
    | some name => exact (nameId_agrees id name).and_then fun _ => hmembers
theorem memberTypeIds_agrees : ∀ members : List (String × Ty), Agrees (memberTypeIds members) 0
  | [] => .pure []
  | (_, t) :: rest =>
    (typeId_agrees t).and_then fun _ => (memberTypeIds_agrees rest).and_then fun _ => .pure _
end

theorem pointerTypeId_agrees (ty : Ty) (storage : Storage) :
    Agrees (pointerTypeId ty storage) 0 := by
  refine .get_bind fun b => ?_
  split
  · exact .pure _
  · exact (typeId_agrees ty).and_then fun _ => define_agrees (.inl rfl) (fun _ => rfl) fun _ =>
      table_bind (fun _ => ⟨rfl, rfl, fun _ => rfl⟩) <| .pure _

theorem addResult_agrees {s : Section} (hs : s = .define ∨ s = .declare ∨ s = .code) {op : Opcode}
    (ty : Ty) (operands : List UInt32) (hop : op.resultPosition? = some 1) :
    Agrees (addResult s op ty operands) 0 :=
  (typeId_agrees ty).and_then fun _ => define_agrees hs (fun _ => by simp [result?, hop])
    fun _ => .pure _

theorem emit_agrees {op : Opcode} (ty : Ty) (operands : List UInt32)
    (hop : op.resultPosition? = some 1) : Agrees (emit op ty operands) 0 :=
  addResult_agrees (.inr (.inr rfl)) ty operands hop

/-- The import is counted where its id is handed out, although it is put into the header last. -/
theorem extendedSetId_agrees : Agrees extendedSetId 0 := by
  intro b a b' (hr : @extendedSetId .ignored b = .ok (a, b'))
  cases hset : b.extendedSet with
  | some id =>
    rw [@extendedSetId_of_known _ .ignored _ hset] at hr
    obtain ⟨rfl, rfl⟩ := Prod.mk.inj (Except.ok.inj hr)
    exact ⟨0, .refl b, fun L _ _ => @extendedSetId_of_known _ L _ hset⟩
  | none =>
    rw [@extendedSetId_of_new _ .ignored hset] at hr
    obtain ⟨id, b₁, hfresh, hr⟩ := bind_eq_ok.mp hr
    obtain ⟨rfl, rfl, -⟩ := @eq_of_fresh _ _ _ .ignored hfresh
    obtain ⟨rfl, rfl⟩ := Prod.mk.inj (Except.ok.inj hr)
    refine ⟨1, ⟨?_, fun hroom => toNat_add_one (ne_of_room hroom), fun _ _ hi => hi⟩,
      fun L _ hids => (@extendedSetId_of_new _ L hset).trans
        (bind_eq_ok.mpr ⟨_, _, fresh_of_room hids, rfl⟩)⟩
    rw [known_length, known_length]
    have hone : (results [⟨.extInstImport, b.nextId :: Typing.extendedSetName⟩]).length = 1 := rfl
    simp only [imports, hset, hone, results_nil, List.length_nil]
    omega

theorem emitExtended_agrees (ty : Ty) (number : UInt32) (operands : List UInt32) :
    Agrees (emitExtended ty number operands) 0 :=
  extendedSetId_agrees.and_then fun _ => emit_agrees _ _ rfl

theorem internValue_agrees {ty : Ty} {data : List UInt8} {definition : [Limits] → Build Id}
    (h : Agrees definition 0) : Agrees (internValue ty data definition) 0 := by
  refine .get_bind fun b => ?_
  split
  · exact .pure _
  · exact h.and_then fun _ => table_bind (fun _ => ⟨rfl, rfl, fun _ => rfl⟩) <| .pure _

/-- A constant from the ids of its parts. -/
theorem constant_agrees (op : Opcode) (ty : Ty) (operands : List UInt32)
    (hop : op.resultPosition? = some 1) : Agrees (addResult .define op ty operands) 0 :=
  addResult_agrees (.inl rfl) ty operands hop

theorem scalarId_agrees (s : ScalarType) (data : List UInt8) : Agrees (scalarId s data) 0 := by
  refine internValue_agrees ?_
  split
  · exact .throw _
  all_goals exact constant_agrees _ _ _ rfl

theorem partIds_agrees {part : [Limits] → List UInt8 → Build Id}
    (h : ∀ data, Agrees (part data) 0) (size : Nat) : ∀ (count : Nat) (data : List UInt8),
      Agrees (partIds (fun data => part data) size count data) 0
  | 0, _ => .pure []
  | count + 1, _ => (h _).and_then fun _ =>
    (partIds_agrees h size count _).and_then fun _ => .pure _

theorem vectorId_agrees (s : ScalarType) (n : Dim) (data : List UInt8) :
    Agrees (vectorId s n data) 0 :=
  internValue_agrees ((partIds_agrees (scalarId_agrees s) _ _ _).and_then fun _ =>
    constant_agrees _ _ _ rfl)

theorem matrixId_agrees (s : ScalarType) (columns rows : Dim) (data : List UInt8) :
    Agrees (matrixId s columns rows data) 0 :=
  internValue_agrees ((partIds_agrees (vectorId_agrees s rows) _ _ _).and_then fun _ =>
    constant_agrees _ _ _ rfl)

mutual
theorem constantId_agrees : ∀ (ty : Ty) (data : List UInt8), Agrees (constantId ty data) 0
  | .void, _ => .throw _
  | .scalar s, data => scalarId_agrees s data
  | .vector s n, data => vectorId_agrees s n data
  | .matrix s columns rows, data => matrixId_agrees s columns rows data
  | .struct _ members, data =>
    internValue_agrees ((memberIds_agrees members data).and_then fun _ =>
      constant_agrees _ _ _ rfl)
theorem memberIds_agrees : ∀ (members : List (String × Ty)) (data : List UInt8),
    Agrees (memberIds members data) 0
  | [], _ => .pure []
  | (_, t) :: rest, _ =>
    (constantId_agrees t _).and_then fun _ => (memberIds_agrees rest _).and_then fun _ => .pure _
end

theorem nameVariable_agrees (x : Variable) (id : Id) : Agrees (nameVariable x id) 0 :=
  (nameId_agrees id x.name).and_then fun _ =>
    table_bind (fun _ => ⟨rfl, rfl, fun _ => rfl⟩) <| .pure id

theorem initialIds_agrees (x : Variable) : Agrees (initialIds x) 0 := by
  unfold initialIds
  split
  · exact .ite ((constantId_agrees _ _).and_then fun _ => .pure _) (.pure _)
  · exact .pure _

theorem registerVariable_agrees (x : Variable) (id : Id) : Agrees (registerVariable x id) 0 := by
  unfold registerVariable
  split
  · exact table_bind (fun _ => ⟨rfl, rfl, fun _ => rfl⟩) <| nameVariable_agrees x id
  · exact nameVariable_agrees x id

/-- The declaration of a variable gives its id a meaning. -/
theorem placeVariable_agrees (x : Variable) (pointer id : Id) :
    Agrees (placeVariable x pointer id) 1 := by
  refine (initialIds_agrees x).and_then fun _ => ?_
  refine (addNew_agrees ?_ rfl).bind fun _ => registerVariable_agrees x id
  split
  · exact .inr (.inl rfl)
  · exact .inl rfl

/-- A parameter has its meaning in the opening of the body function. -/
theorem parameter_agrees (id pointer : Id) :
    Agrees (fun [Limits] => (modify fun b =>
      { b with parameters := b.parameters ++ [(id, pointer)] } : Build Unit)) 1 := by
  refine .modify fun b => .of_same rfl (fun _ => rfl) ?_
  rw [known_length, known_length]
  simp only [imports, List.length_append, List.length_singleton]
  omega

theorem variableId_agrees (x : Variable) : Agrees (variableId x) 0 := by
  intro b id b' (hr : @variableId .ignored x b = .ok (id, b'))
  cases hknown : b.declared.lookup x.id with
  | some known =>
    rw [@variableId_of_known _ .ignored _ _ hknown] at hr
    obtain ⟨rfl, rfl⟩ := Prod.mk.inj (Except.ok.inj hr)
    exact ⟨0, .refl b, fun L _ _ => @variableId_of_known _ L _ _ hknown⟩
  | none =>
    have hnew : Agrees (do
        let pointer ← pointerTypeId x.ty x.qualifier.storage
        let id ← fresh
        if x.isParameter then
          modify fun b => { b with parameters := b.parameters ++ [(id, pointer)] }
          nameVariable x id
        else placeVariable x pointer id) 0 :=
      (pointerTypeId_agrees _ _).and_then fun pointer => .fresh_bind fun id =>
        .ite ((parameter_agrees id pointer).bind fun _ => nameVariable_agrees x id)
          (placeVariable_agrees x pointer id)
    rw [@variableId_of_new _ .ignored _ hknown] at hr
    obtain ⟨asked, hspends, hlimits⟩ := hnew b id b' hr
    exact ⟨asked, hspends, fun L hwords hids =>
      (@variableId_of_new _ L _ hknown).trans (hlimits L hwords hids)⟩

theorem resultPosition?_of_isComputed {op : Opcode} (h : op.isComputed) :
    op.resultPosition? = some 1 := by
  cases op <;> first | rfl | exact absurd h (by decide)

/-- Limits leave code as it is, as long as it is within them. Every id that code asks for is given a
    meaning by an instruction, so counting meanings counts ids. -/
def agreeing (xs : List Variable) : Trait xs where
  holds r := Agrees r 0
  pure := .pure
  throw := .throw
  bind h hf := h.and_then hf
  folds h := .get_bind fun _ => h _
  emit ty operands hop := emit_agrees ty operands (resultPosition?_of_isComputed hop)
  emitExtended := emitExtended_agrees
  valueId _ := constantId_agrees _ _
  variableId x _ := variableId_agrees x
  access ty storage _ := (pointerTypeId_agrees ty storage).and_then fun _ =>
    define_agrees (.inr (.inr rfl)) (fun _ => rfl) fun _ => .pure _
  store operands := add_agrees .code .store operands

/-- A finished module has the instructions of the last state, and its body function and the label
    in it have their meanings in the module only. -/
theorem finish_assembles {b b' : Builder} {m : Module} (h : @finish .ignored b = .ok (m, b')) :
    (∀ s, b'.sectionOf s ⊆ m.instructions) ∧
      b'.known.length + 2 ≤ (results m.instructions).length := by
  obtain ⟨void, b₁, names, -, -, -, rfl, rfl⟩ := @eq_of_finish _ _ .ignored _ h
  generalize b₁.closed void names = c
  constructor
  · intro s i hi
    cases s <;>
      simp only [sectionOf, withHeader, assembled, Module.ofInstructions, List.mem_append] at hi ⊢ <;>
      tauto
  · have hlabel (label : Id) : results [⟨.label, [label]⟩] = [label] := rfl
    rw [known_length]
    simp only [assembled, Module.ofInstructions, results_append, results_heading, results_opening,
      hlabel, withHeader, imports, List.length_append, List.length_cons, List.length_map]
    omega

theorem addHeader_agrees (function : Id) : Agrees (addHeader function) 0 := by
  have hcapabilities : Agrees addCapabilities 0 :=
    (add_agrees _ _ _).and_then fun _ => .get_bind fun _ => .ite (add_agrees _ _ _) (.pure ())
  have himport : Agrees addImport 0 := by
    refine .get_bind fun b => ?_
    split
    · exact add_agrees _ _ _
    · exact .pure ()
  have hentry : Agrees (addEntryPoint function) 0 :=
    .get_bind fun _ => .ite ((add_agrees _ _ _).and_then fun _ => add_agrees _ _ _) (.pure ())
  exact hcapabilities.and_then fun _ => himport.and_then fun _ => (add_agrees _ _ _).and_then
    fun _ => hentry

/-- Of the ids that finishing asks for, the two of the body function and of its label get their
    meaning in the module only. -/
theorem finish_agrees : Agrees finish (-2) := by
  refine (typeId_agrees .void).and_then fun void => .get_bind fun b => ?_
  refine define_agrees (.inl rfl) (fun _ => rfl) fun type => ?_
  refine .fresh_bind fun function => .fresh_bind fun label => ?_
  exact (nameId_agrees function bodyName).and_then fun _ =>
    (addHeader_agrees function).and_then fun _ => .get_bind fun _ => .pure _

end Build

end ShaderExpr
