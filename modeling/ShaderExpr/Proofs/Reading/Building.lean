import ShaderExpr.Proofs.Expr.WellTyped
import ShaderExpr.Proofs.Grammar.Scoping
import ShaderExpr.Proofs.Reading.Endings

namespace ShaderExpr

namespace Reader

variable {xs : List Variable} {α β : Type}

/-- In every scope over the variables `xs`, reading gives what `P` says and only adds structs to the
    scope, whether it meets problems or not. A node that fails its check is left out or replaced. -/
def Builds (xs : List Variable) (r : Reader α) (P : α → Prop) : Prop :=
  ∀ c : Cursor, c.scope.Named → c.scope.declared = xs → c.scope.Extends (r c).2.scope ∧ P (r c).1

/-- A reader that leaves the scope alone. -/
def Quiet (r : Reader α) : Prop := ∀ c : Cursor, (r c).2.scope = c.scope

theorem Quiet.of_eq {r : Reader α} (h : ∀ c, (r c).2 = c) : r.Quiet :=
  fun c => congrArg Cursor.scope (h c)

theorem Quiet.bind {r : Reader α} {f : α → Reader β} (h : r.Quiet) (hf : ∀ a, (f a).Quiet) :
    (r >>= f).Quiet :=
  fun c => (hf _ _).trans (h c)

theorem quiet_advance : advance.Quiet := fun c => c.advance_scope

theorem quiet_expectControl (m : Char) (p : Problem) : (expectControl m p).Quiet := by
  refine .bind (fun _ => rfl) fun found => ?_
  split
  · exact quiet_advance
  · exact fun _ => rfl

namespace Builds

variable {r : Reader α} {f : α → Reader β} {P P' : α → Prop} {Q : β → Prop}

theorem mono (h : Builds xs r P) (hP : ∀ a, P a → P' a) : Builds xs r P' :=
  fun c hnamed hxs => ⟨(h c hnamed hxs).1, hP _ (h c hnamed hxs).2⟩

theorem pure {a : α} (h : P a) : Builds xs (pure a : Reader α) P :=
  fun c _ _ => ⟨.refl c.scope, h⟩

theorem bind (h : Builds xs r P) (hf : ∀ a, P a → Builds xs (f a) Q) : Builds xs (r >>= f) Q := by
  intro c hnamed hxs
  obtain ⟨hextends, ha⟩ := h c hnamed hxs
  obtain ⟨hextends', hb⟩ := hf _ ha (r c).2 (hextends.named hnamed) (hextends.declared.trans hxs)
  exact ⟨hextends.trans hextends', hb⟩

theorem quiet (h : r.Quiet) : Builds xs r fun _ => True :=
  fun c _ _ => ⟨h c ▸ .refl c.scope, trivial⟩

/-- Readers that leave the scope alone and whose results say nothing are passed by. -/
theorem quiet_bind (h : r.Quiet) (hf : ∀ a, Builds xs (f a) Q) : Builds xs (r >>= f) Q :=
  (quiet h).bind fun a _ => hf a

theorem look_bind (h : ∀ c, (r c).2 = c) (hf : ∀ a, Builds xs (f a) Q) :
    Builds xs (r >>= f) Q :=
  quiet_bind (.of_eq h) hf

theorem scope_bind {f : Scope → Reader β}
    (h : ∀ s : Scope, s.Named → s.declared = xs → Builds xs (f s) Q) :
    Builds xs (scope >>= f) Q :=
  fun c hnamed hxs => h c.scope hnamed hxs c hnamed hxs

theorem advance_bind {f : Unit → Reader β} (h : Builds xs (f ()) Q) :
    Builds xs (advance >>= f) Q :=
  quiet_bind quiet_advance fun _ => h

theorem ite {b : Prop} [Decidable b] {yes no : Reader α} (hyes : b → Builds xs yes P)
    (hno : ¬b → Builds xs no P) : Builds xs (if b then yes else no) P := by
  split
  · exact hyes ‹_›
  · exact hno ‹_›

end Builds

theorem memberNames_builds (ty : Ty) : ∀ (bound : Nat) (found : List (String × Ty)),
    Builds xs (memberNames ty bound found) fun _ => True := by
  intro bound
  induction bound with
  | zero => exact fun found => .pure trivial
  | succ bound ih =>
    intro found
    unfold memberNames
    refine .look_bind (fun _ => rfl) fun kind => ?_
    cases kind with
    | ident name =>
      dsimp only
      have hrest (members : List (String × Ty)) : Builds xs (do
          if ← isControl ',' then
            advance
            memberNames ty bound members
          else return members) fun _ => True :=
        .look_bind (fun _ => rfl) fun _ => .ite (fun _ => .advance_bind (ih members))
          fun _ => .pure trivial
      refine .ite (fun _ => .quiet_bind (fun _ => rfl) fun _ => .advance_bind (hrest _))
        fun _ => .advance_bind (hrest _)
    | _ => exact .quiet_bind (fun _ => rfl) fun _ => .pure trivial

theorem typeWith_builds {definition : Reader (Option Ty)} {P : Option Ty → Prop}
    (hdef : Builds xs definition P) : Builds xs (typeWith definition) fun _ => True := by
  unfold typeWith
  refine .look_bind (fun _ => rfl) fun kind => .ite (fun _ => hdef.mono fun _ _ => trivial)
    fun _ => .look_bind (fun _ => rfl) fun s => ?_
  exact .ite (fun _ => .advance_bind (.pure trivial)) fun _ => .pure trivial

theorem members_builds {definition : Reader (Option Ty)} {P : Option Ty → Prop}
    (hdef : Builds xs definition P) : ∀ (bound : Nat) (found : List (String × Ty)),
    Builds xs (members definition bound found) fun _ => True := by
  intro bound
  induction bound with
  | zero => exact fun found => .pure trivial
  | succ bound ih =>
    intro found
    unfold members
    refine .look_bind (fun _ => rfl) fun _ => .look_bind (fun _ => rfl) fun _ => ?_
    refine .ite (fun _ => .pure trivial) fun _ => (typeWith_builds hdef).bind fun ty? _ => ?_
    cases ty? with
    | none => exact .quiet_bind (fun _ => rfl) fun _ => .quiet_bind (fun _ => rfl) fun _ => ih found
    | some ty =>
      have hrest : Builds xs (do
          let found ← memberNames ty ((← remaining) + 1) found
          expectControl ';' .expectedMemberEnd
          members definition bound found) fun _ => True :=
        .look_bind (fun _ => rfl) fun _ => (memberNames_builds ty _ found).bind fun found _ =>
          .quiet_bind (quiet_expectControl _ _) fun _ => ih found
      exact .ite (fun _ => .quiet_bind (fun _ => rfl) fun _ => hrest) fun _ => hrest

/-- A struct that is defined takes a name that was free. -/
theorem defineStruct_builds (name : String) (span : Span) (members : List (String × Ty)) :
    Builds xs (defineStruct name span (.struct (some name) members)) fun _ => True := by
  intro c _ _
  refine ⟨?_, trivial⟩
  cases hadd : c.scope.addType? name (.struct (some name) members) with
  | none =>
    rw [defineStruct_of_taken hadd]
    exact .refl c.scope
  | some s =>
    rw [defineStruct_of_free hadd]
    exact (Scope.Extends.addType hadd).1

theorem structDefinition_builds : ∀ depth : Nat,
    Builds xs (structDefinition depth) fun ty? => ∀ ty, ty? = some ty → ty.isStruct := by
  intro depth
  induction depth with
  | zero => exact .pure (by simp)
  | succ depth ih =>
    have hbody (name : Option String) (define : List (String × Ty) → Reader Unit)
        (hdefine : ∀ found, Builds xs (define found) fun _ => True) : Builds xs (do
        if ← isControl '{' then
          advance
          let found ← members (structDefinition depth) (← remaining) []
          expectControl '}' .expectedStructEnd
          define found
          return some (Ty.struct name found)
        else
          report .expectedStructBody
          return none) fun ty? => ∀ ty, ty? = some ty → ty.isStruct := by
      refine .look_bind (fun _ => rfl) fun _ => .ite (fun _ => .advance_bind ?_)
        fun _ => .quiet_bind (fun _ => rfl) fun _ => .pure (by simp)
      refine .look_bind (fun _ => rfl) fun _ => (members_builds ih _ []).bind fun found _ => ?_
      refine .quiet_bind (quiet_expectControl _ _) fun _ => (hdefine found).bind fun _ _ => ?_
      exact .pure fun ty hty => by rw [← Option.some.inj hty]; rfl
    unfold structDefinition
    refine .advance_bind (.look_bind (fun _ => rfl) fun span => .look_bind (fun _ => rfl)
      fun kind => ?_)
    cases kind with
    | ident name =>
      exact .advance_bind (hbody (some name) _ (defineStruct_builds name span))
    | _ => exact hbody none (fun _ => pure ()) fun _ => .pure trivial

theorem definition_builds :
    Builds xs definition fun ty? => ∀ ty, ty? = some ty → ty.isStruct :=
  .look_bind (fun _ => rfl) fun _ => structDefinition_builds _

theorem type_builds : Builds xs type fun _ => True := typeWith_builds definition_builds

end Reader

end ShaderExpr
