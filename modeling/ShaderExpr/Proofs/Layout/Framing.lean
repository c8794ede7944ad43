import ShaderExpr.Module.Framing

namespace ShaderExpr

/-- The number of words can be said in the first word. -/
def Framed.IsShort {Op : Type} (i : Framed Op) : Prop :=
  i.operands.length < Instruction.maxWordCount

namespace Codes

variable {Op : Type} {codes : Codes Op} {i : Framed Op} {is : List (Framed Op)}
variable {ws rest stream : List UInt32} {header : Header} {index : Nat}

/-- The first word of a short instruction says its length and its operation. -/
theorem toNat_first (h : i.IsShort) :
    (UInt32.ofNat ((i.operands.length + 1) * 0x10000 + codes.number i.op)).toNat =
      (i.operands.length + 1) * 0x10000 + codes.number i.op := by
  have hnumber := codes.number_lt i.op
  have hshort : i.operands.length < 65535 := h
  refine UInt32.toNat_ofNat_of_lt' ?_
  simp only [UInt32.size]
  omega

/-- A short instruction is taken off the words behind it. -/
theorem decodeFrom_append (h : i.IsShort) (hrest : codes.decodeFrom (index + 1) rest = .ok is) :
    codes.decodeFrom index (codes.words i ++ rest) = .ok (i :: is) := by
  have hnumber := codes.number_lt i.op
  have hcount : ((i.operands.length + 1) * 0x10000 + codes.number i.op) / 0x10000 =
      i.operands.length + 1 := by omega
  have hop : ((i.operands.length + 1) * 0x10000 + codes.number i.op) % 0x10000 =
      codes.number i.op := by omega
  have hinside : ¬(i.operands.length + 1 = 0 ∨
      (i.operands ++ rest).length + 1 < i.operands.length + 1) := by
    rw [List.length_append]
    omega
  have hknown : codes.ofNumber? (codes.number i.op) = some i.op :=
    codes.ofNumber?_eq_some_iff.mpr rfl
  rw [words, List.cons_append, decodeFrom, toNat_first h, hcount, hop, if_neg hinside]
  simp only [hknown, Nat.add_sub_cancel, List.drop_left', List.take_left', hrest]

theorem decode_flatMap_words (h : ∀ i ∈ is, i.IsShort) :
    codes.decode (is.flatMap codes.words) = .ok is := by
  suffices hfrom : ∀ index, codes.decodeFrom index (is.flatMap codes.words) = .ok is from hfrom 0
  induction is with
  | nil => exact fun index => by rw [List.flatMap_nil, decodeFrom]
  | cons i is ih =>
    intro index
    rw [List.flatMap_cons]
    exact decodeFrom_append (h i List.mem_cons_self)
      (ih (fun j hj => h j (List.mem_cons_of_mem i hj)) (index + 1))

/-- The words that an instruction was taken from are the ones it has. The first of them counts all
    of them, so the count must be neither zero nor beyond the end of the module. -/
theorem words_take {first : UInt32} {op : Op} (hcount : first.toNat / 0x10000 ≠ 0)
    (hinside : first.toNat / 0x10000 ≤ rest.length + 1)
    (hop : codes.number op = first.toNat % 0x10000) :
    (⟨op, rest.take (first.toNat / 0x10000 - 1)⟩ : Framed Op).IsShort ∧
      codes.words ⟨op, rest.take (first.toNat / 0x10000 - 1)⟩ =
        first :: rest.take (first.toNat / 0x10000 - 1) := by
  have hlt := first.toNat_lt
  have hlength : (rest.take (first.toNat / 0x10000 - 1)).length = first.toNat / 0x10000 - 1 :=
    List.length_take_of_le (by omega)
  have hfirst : (first.toNat / 0x10000 - 1 + 1) * 0x10000 + first.toNat % 0x10000 =
      first.toNat := by omega
  constructor
  · rw [Framed.IsShort, hlength, Instruction.maxWordCount]
    omega
  · rw [words, hlength, hop, hfirst, UInt32.ofNat_toNat]

theorem flatMap_words_of_decodeFrom (h : codes.decodeFrom index ws = .ok is) :
    (∀ i ∈ is, i.IsShort) ∧ is.flatMap codes.words = ws := by
  fun_induction codes.decodeFrom index ws generalizing is with
  | case1 => cases h; exact ⟨by simp, rfl⟩
  | case2 => cases h
  | case3 => cases h
  | case4 => cases h
  | case5 index first rest count number hinside op hop following hfollowing =>
    rename_i ih
    cases h
    obtain ⟨hshort, hwords⟩ := ih hfollowing
    rw [not_or, Nat.not_lt] at hinside
    obtain ⟨hfirst, heq⟩ :=
      words_take hinside.1 hinside.2 (codes.ofNumber?_eq_some_iff.mp hop)
    refine ⟨List.forall_mem_cons.mpr ⟨hfirst, hshort⟩, ?_⟩
    rw [List.flatMap_cons, heq, hwords, List.cons_append, List.take_append_drop]

/-- Writing succeeds on short instructions, and writes the words of each behind the stream. -/
theorem foldlM_push_eq_ok_iff : is.foldlM codes.push stream = .ok ws ↔
    (∀ i ∈ is, i.IsShort) ∧ stream ++ is.flatMap codes.words = ws := by
  induction is generalizing stream with
  | nil => simp [pure, Except.pure]
  | cons i is ih =>
    rw [List.foldlM_cons, push, List.forall_mem_cons, List.flatMap_cons, ← List.append_assoc]
    by_cases h : i.operands.length + 1 ≤ Instruction.maxWordCount
    · have hshort : i.IsShort := h
      rw [if_pos h, and_iff_right hshort]
      exact ih
    · have hlong : ¬i.IsShort := h
      rw [if_neg h]
      simp [hlong, bind, Except.bind]

theorem encode_eq_ok_iff : codes.encode is = .ok ws ↔
    (∀ i ∈ is, i.IsShort) ∧ is.flatMap codes.words = ws := foldlM_push_eq_ok_iff

theorem decode_eq_ok_iff : codes.decode ws = .ok is ↔ codes.encode is = .ok ws := by
  rw [encode_eq_ok_iff]
  constructor
  · exact flatMap_words_of_decodeFrom
  · rintro ⟨hshort, rfl⟩
    exact decode_flatMap_words hshort

theorem decodeModule_eq_ok_iff : codes.decodeModule ws = .ok (header, is) ↔
    ∃ body, codes.encode is = .ok body ∧ ws = header.words ++ body := by
  constructor
  · intro h
    unfold decodeModule at h
    split at h
    case h_2 => cases h
    case h_1 first version generator bound last rest =>
      split at h
      · cases h
      case isFalse hmagic =>
        split at h
        · cases h
        case isFalse hschema =>
          split at h
          · cases h
          case h_2 hrest =>
            cases h
            obtain rfl := Decidable.not_not.mp hmagic
            obtain rfl := Decidable.not_not.mp hschema
            exact ⟨rest, decode_eq_ok_iff.mp hrest, rfl⟩
  · rintro ⟨body, hbody, rfl⟩
    simp [Header.words, decodeModule, decode_eq_ok_iff.mpr hbody]

end Codes

theorem ModuleError.exists_message_eq (e : ModuleError) :
    ∃ problem, e.message = "invalid module: " ++ problem := by
  cases e <;> exact ⟨_, rfl⟩

/-- Framing with the operations of `codes` is a bijection between the lists of instructions that can
    be written and the streams that can be read, and says so of every stream that it does not read.
    Nothing is lost on the way out and nothing is invented on the way in. -/
structure Codes.Exact {Op : Type} (codes : Codes Op) : Prop where
  /-- Instructions can be written if their numbers of words can, with at most 65534 operands. -/
  writes : ∀ is, (∃ ws, codes.encode is = .ok ws) ↔ ∀ i ∈ is, i.operands.length ≤ 65534
  /-- What was written is read back, and what is read can be written again. -/
  reads : ∀ is ws, codes.decode ws = .ok is ↔ codes.encode is = .ok ws
  /-- The same of whole modules, with their headers. -/
  readsModule : ∀ header is ws, codes.decodeModule ws = .ok (header, is) ↔
    ∃ body, codes.encode is = .ok body ∧ ws = header.words ++ body
  rejects : ∀ ws, (¬∃ is, codes.encode is = .ok ws) →
    ∃ e problem, codes.decode ws = .error e ∧ e.message = "invalid module: " ++ problem
  rejectsModule : ∀ ws, (¬∃ (header : Header) (is : _) (body : _),
      codes.encode is = .ok body ∧ ws = header.words ++ body) →
    ∃ e problem, codes.decodeModule ws = .error e ∧ e.message = "invalid module: " ++ problem

theorem Codes.exact_framing {Op : Type} (codes : Codes Op) : codes.Exact where
  writes is := by
    simp only [encode_eq_ok_iff, exists_and_left, exists_eq', and_true]
    exact forall₂_congr fun i _ => Nat.lt_succ_iff
  reads is ws := decode_eq_ok_iff
  readsModule header is ws := decodeModule_eq_ok_iff
  rejects ws h := by
    cases hws : codes.decode ws with
    | ok is => exact absurd ⟨is, decode_eq_ok_iff.mp hws⟩ h
    | error e =>
      obtain ⟨problem, hmessage⟩ := e.exists_message_eq
      exact ⟨e, problem, rfl, hmessage⟩
  rejectsModule ws h := by
    cases hws : codes.decodeModule ws with
    | ok result =>
      obtain ⟨header, is⟩ := result
      exact absurd ⟨header, is, decodeModule_eq_ok_iff.mp hws⟩ h
    | error e =>
      obtain ⟨problem, hmessage⟩ := e.exists_message_eq
      exact ⟨e, problem, rfl, hmessage⟩

end ShaderExpr
