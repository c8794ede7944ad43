import ShaderExpr.Module.Builder
import ShaderExpr.Proofs.Layout.Framing

namespace ShaderExpr

namespace Opcode

theorem ofNumber?_number (op : Opcode) : ofNumber? op.number = some op := by
  cases op <;> rfl

theorem number_lt (op : Opcode) : op.number < 0x10000 := by
  cases op <;> decide

theorem ofNumber?_eq_some_iff {n : Nat} {op : Opcode} : ofNumber? n = some op ↔ op.number = n := by
  constructor
  · intro h
    simpa using List.find?_some h
  · rintro rfl
    exact op.ofNumber?_number

def codes : Codes Opcode := ⟨number, ofNumber?, number_lt, ofNumber?_eq_some_iff⟩

end Opcode

namespace Instruction

def framed (i : Instruction) : Framed Opcode := ⟨i.op, i.operands⟩

theorem framed_injective : Function.Injective framed := by
  rintro ⟨op, operands⟩ ⟨op', operands'⟩ h
  simpa [framed] using h

/-- The number of words can be said in the first word. -/
def IsShort (i : Instruction) : Prop := i.operands.length < maxWordCount

variable {is : List Instruction}

theorem decodeFrom_framed (index : Nat) (ws : List UInt32) :
    Opcode.codes.decodeFrom index ws = (decodeFrom index ws).map (·.map framed) := by
  fun_induction decodeFrom index ws with
  | case1 => rw [Codes.decodeFrom]; rfl
  | case2 index first rest count houtside =>
    rw [Codes.decodeFrom, if_pos houtside]
    rfl
  | case3 index first rest count number hinside hop =>
    have hunknown : Opcode.codes.ofNumber? (first.toNat % 0x10000) = none := hop
    rw [Codes.decodeFrom, if_neg hinside, hunknown]
    rfl
  | case4 index first rest count number hinside op hop e herror ih =>
    have hknown : Opcode.codes.ofNumber? (first.toNat % 0x10000) = some op := hop
    have hrest : Opcode.codes.decodeFrom (index + 1) (rest.drop (first.toNat / 0x10000 - 1)) =
        .error e := by rw [ih, herror]; rfl
    rw [Codes.decodeFrom, if_neg hinside]
    simp only [hknown, hrest]
    rfl
  | case5 index first rest count number hinside op hop following hfollowing ih =>
    have hknown : Opcode.codes.ofNumber? (first.toNat % 0x10000) = some op := hop
    have hrest : Opcode.codes.decodeFrom (index + 1) (rest.drop (first.toNat / 0x10000 - 1)) =
        .ok (following.map framed) := by rw [ih, hfollowing]; rfl
    rw [Codes.decodeFrom, if_neg hinside]
    simp only [hknown, hrest]
    rfl

theorem decode_framed (ws : List UInt32) :
    Opcode.codes.decode ws = (decode ws).map (·.map framed) := decodeFrom_framed 0 ws

theorem decode_words (h : ∀ i ∈ is, i.IsShort) : decode (is.flatMap (·.words)) = .ok is := by
  have hread : Opcode.codes.decode ((is.map framed).flatMap Opcode.codes.words) =
      .ok (is.map framed) := Codes.decode_flatMap_words (List.forall_mem_map.mpr h)
  rw [List.flatMap_map, decode_framed] at hread
  change (decode (is.flatMap (·.words))).map _ = _ at hread
  cases hdecode : decode (is.flatMap (·.words)) with
  | error e => simp [hdecode, Except.map] at hread
  | ok js =>
    rw [hdecode] at hread
    rw [(List.map_inj_right framed_injective).mp (Except.ok.inj hread)]

end Instruction

namespace Module

def header (m : Module) : Header := ⟨m.version, m.generator, m.bound⟩

theorem decode_framed (ws : List UInt32) : Opcode.codes.decodeModule ws =
    (decode ws).map fun m => (m.header, m.instructions.map (·.framed)) := by
  fun_cases decode ws with
  | case1 first version generator bound last rest hmagic =>
    rw [Codes.decodeModule, if_pos hmagic]
    rfl
  | case2 first version generator bound last rest hmagic hschema =>
    rw [Codes.decodeModule, if_neg hmagic, if_pos hschema]
    rfl
  | case3 first version generator bound last rest hmagic hschema e herror =>
    rw [Codes.decodeModule, if_neg hmagic, if_neg hschema, Instruction.decode_framed, herror]
    rfl
  | case4 first version generator bound last rest hmagic hschema is hread =>
    rw [Codes.decodeModule, if_neg hmagic, if_neg hschema, Instruction.decode_framed, hread]
    rfl
  | case5 ws hshort =>
    rw [Codes.decodeModule]
    · rfl
    · exact hshort

/-- What is read back is the module with its header. -/
theorem decode_words {m : Module} (h : ∀ i ∈ m.instructions, i.IsShort) :
    decode m.words = .ok m := by
  have hinstructions := Instruction.decode_words h
  simp only [words, headerWords, decode, List.cons_append, List.nil_append, ne_eq, not_true,
    if_false, hinstructions]

/-- Framing is exact whatever the operations are, and the modules of this compiler are written and
    read by that framing at the operations it knows. All that is asked of operations is that
    different ones have different numbers, so new ones can be added without a look at this. -/
theorem framing_exact : (∀ {Op : Type} (codes : Codes Op), codes.Exact) ∧
    (∀ stream op operands, Opcode.codes.push stream ⟨op, operands⟩ =
      (Build.checked op operands).map (stream ++ ·.words)) ∧
    (∀ ws, Opcode.codes.decode ws = (Instruction.decode ws).map (·.map (·.framed))) ∧
    (∀ m : Module, m.words = m.header.words ++
      (m.instructions.map (·.framed)).flatMap Opcode.codes.words) ∧
    ∀ ws, Opcode.codes.decodeModule ws =
      (decode ws).map fun m => (m.header, m.instructions.map (·.framed)) := by
  refine ⟨fun codes => codes.exact_framing, fun stream op operands => ?_,
    Instruction.decode_framed, fun m => ?_, decode_framed⟩
  · have hwords : Limits.words = true := rfl
    simp only [Codes.push, Build.checked, hwords, forall_const]
    split <;> rfl
  · rw [List.flatMap_map]
    rfl

end Module

end ShaderExpr
