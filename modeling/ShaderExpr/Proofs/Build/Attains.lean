import ShaderExpr.Proofs.Build.Steps

namespace ShaderExpr

open Typing

namespace Build

variable {α β : Type} {xs : List Variable} {casts : Bool} {b b' : Builder}

theorem bind_eq_ok {r : Build α} {f : α → Build β} {c : β} {b' : Builder} :
    (r >>= f) b = .ok (c, b') ↔ ∃ a b₁, r b = .ok (a, b₁) ∧ f a b₁ = .ok (c, b') := by
  have hbind : (r >>= f) b = (r b >>= fun p => f p.1 p.2) := rfl
  rw [hbind, Except.bind_eq_ok]
  constructor
  · rintro ⟨⟨a, b₁⟩, hr, hf⟩
    exact ⟨a, b₁, hr, hf⟩
  · rintro ⟨a, b₁, hr, hf⟩
    exact ⟨(a, b₁), hr, hf⟩

/-- Building from `b` fails, or grows it into a sound state of which and of the result `Q` says
    more. Nothing is asked of runs that fail: that there are none is shown apart, under limits. -/
def Attains (xs : List Variable) (casts : Bool) (r : Build α) (b : Builder)
    (Q : α → Builder → Prop) : Prop :=
  ∀ a b', r b = .ok (a, b') → b.Grows b' ∧ b'.Sound xs casts ∧ Q a b'

namespace Attains

variable {r : Build α} {f : α → Build β} {P Q : α → Builder → Prop} {R : β → Builder → Prop}

theorem mono (h : r.Attains xs casts b P)
    (hPQ : ∀ a b', b.Grows b' → b'.Sound xs casts → P a b' → Q a b') :
    r.Attains xs casts b Q := by
  intro a b' hr
  obtain ⟨hgrows, hs, hP⟩ := h a b' hr
  exact ⟨hgrows, hs, hPQ a b' hgrows hs hP⟩

theorem pure {a : α} (hs : b.Sound xs casts) (h : Q a b) : (pure a : Build α).Attains xs casts b Q := by
  intro a' b' hr
  obtain ⟨rfl, rfl⟩ : a = a' ∧ b = b' := Prod.mk.inj (Except.ok.inj hr)
  exact ⟨.refl b, hs, h⟩

theorem throw {e : Fault} : (throw e : Build α).Attains xs casts b Q := by
  intro a b' hr
  have hfault : (Except.error e : Except Fault (α × Builder)) = .ok (a, b') := hr
  simp at hfault

theorem bind (h : r.Attains xs casts b P)
    (hf : ∀ a b', b.Grows b' → b'.Sound xs casts → P a b' → (f a).Attains xs casts b' R) :
    (r >>= f).Attains xs casts b R := by
  intro c b'' hr
  obtain ⟨a, b', ha, hc⟩ := bind_eq_ok.mp hr
  obtain ⟨hgrows, hs, hP⟩ := h a b' ha
  obtain ⟨hgrows', hs', hR⟩ := hf a b' hgrows hs hP c b'' hc
  exact ⟨hgrows.trans hgrows', hs', hR⟩

theorem get_bind {f : Builder → Build β} (h : (f b).Attains xs casts b R) :
    ((get : Build Builder) >>= f).Attains xs casts b R := h

theorem modify_bind {g : Builder → Builder} {f : Unit → Build β} (hgrows : b.Grows (g b))
    (h : (f ()).Attains xs casts (g b) R) :
    ((modify g : Build Unit) >>= f).Attains xs casts b R := by
  intro c b' hr
  obtain ⟨hgrows', hs', hR⟩ := h c b' hr
  exact ⟨hgrows.trans hgrows', hs', hR⟩

/-- A computation without a state, for those of its results that are no fault. -/
theorem except_bind {x : Except Fault α} (h : ∀ a, x = .ok a → (f a).Attains xs casts b R) :
    ((liftM x : Build α) >>= f).Attains xs casts b R := by
  intro c b' hr
  cases x with
  | error cause =>
    have hfault : (Except.error cause : Except Fault (β × Builder)) = .ok (c, b') := hr
    simp at hfault
  | ok a => exact h a rfl c b' hr

/-- Elements of a list, one after the other. What is said of a result must not be lost while the
    later ones are built, which is what `stable` asks. -/
theorem mapM {P : α → β → Builder → Prop} {l : List α}
    (stable : ∀ x y b b', Builder.Grows b b' → P x y b → P x y b') (hs : b.Sound xs casts)
    (h : ∀ x ∈ l, ∀ b', b.Grows b' → b'.Sound xs casts → (f x).Attains xs casts b' (P x)) :
    (l.mapM f).Attains xs casts b fun ys b' => List.Forall₂ (fun x y => P x y b') l ys := by
  induction l generalizing b with
  | nil => exact .pure hs .nil
  | cons x l ih =>
    rw [List.mapM_cons]
    refine (h x List.mem_cons_self b (.refl b) hs).bind fun y b₁ hgrows hs₁ hy => ?_
    refine (ih hs₁ fun z hz b' hgrows' => h z (List.mem_cons_of_mem x hz) b'
      (hgrows.trans hgrows')).bind fun ys b₂ hgrows₂ hs₂ hys => ?_
    exact .pure hs₂ (.cons (stable x y b₁ b₂ hgrows₂ hy) hys)

end Attains

theorem fresh_run [Limits] (b : Builder) : fresh b =
    if Limits.ids ∧ b.nextId = 0xffffffff then .error .idsExhausted
    else .ok (b.nextId, { b with nextId := b.nextId + 1 }) := by
  change (if Limits.ids ∧ b.nextId = 0xffffffff then throw .idsExhausted else _ : Build Id) b = _
  split <;> rfl

theorem add_run [Limits] (s : Section) (op : Opcode) (operands : List UInt32) (b : Builder) :
    add s op operands b =
      if Limits.words → operands.length + 1 ≤ Instruction.maxWordCount then
        .ok ((), b.append s ⟨op, operands⟩)
      else .error .instructionTooLong := by
  unfold add checked
  split <;> rfl

variable {id : Id} {s : Section} {op : Opcode} {operands : List UInt32} {u : Unit}

theorem eq_of_fresh [Limits] (h : fresh b = .ok (id, b')) : id = b.nextId ∧
    b' = { b with nextId := b.nextId + 1 } ∧ (Limits.ids → b.nextId ≠ 0xffffffff) := by
  rw [fresh_run] at h
  split at h
  · simp at h
  · rename_i hmax
    obtain ⟨rfl, rfl⟩ := Prod.mk.inj (Except.ok.inj h)
    exact ⟨rfl, rfl, fun hids hnext => hmax ⟨hids, hnext⟩⟩

theorem eq_of_add [Limits] (h : add s op operands b = .ok (u, b')) :
    b' = b.append s ⟨op, operands⟩ ∧
      (Limits.words → operands.length < Instruction.maxWordCount) := by
  rw [add_run] at h
  split at h
  · rename_i hshort
    obtain ⟨-, rfl⟩ := Prod.mk.inj (Except.ok.inj h)
    exact ⟨rfl, hshort⟩
  · simp at h

/-- A new id, in a module that is kept to its limits. -/
theorem fresh_eq_ok (h : fresh b = .ok (id, b')) :
    id = b.nextId ∧ b' = { b with nextId := b.nextId + 1 } ∧ b.nextId ≠ 0xffffffff := by
  obtain ⟨hid, hb, hmax⟩ := eq_of_fresh h
  exact ⟨hid, hb, hmax rfl⟩

/-- A new instruction, in a module that is kept to its limits. -/
theorem add_eq_ok (h : add s op operands b = .ok (u, b')) :
    b' = b.append s ⟨op, operands⟩ ∧ operands.length < Instruction.maxWordCount := by
  obtain ⟨hb, hshort⟩ := eq_of_add h
  exact ⟨hb, hshort rfl⟩

end Build

end ShaderExpr
