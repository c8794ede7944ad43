import ShaderExpr.Proofs.Build.Access
import ShaderExpr.Proofs.Build.Calls

namespace ShaderExpr

open Typing

namespace Expr

mutual
/-- Somewhere in the expression, a constructor takes the components of a matrix and converts them
    to a type that does not float. -/
def castsMatrices : Expr → Bool
  | constant _ | reference _ => false
  | binary _ _ left right => left.castsMatrices || right.castsMatrices
  | assign _ _ target value => target.castsMatrices || value.castsMatrices
  | negate operand => operand.castsMatrices
  | construct ty arguments => ty.castsMatrix (arguments.map Expr.ty) || anyCastsMatrices arguments
  | call _ arguments => anyCastsMatrices arguments
  | member base _ | swizzle base _ _ => base.castsMatrices
def anyCastsMatrices : List Expr → Bool
  | [] => false
  | e :: rest => e.castsMatrices || anyCastsMatrices rest
end

end Expr

namespace Build

open Builder

variable {xs : List Variable} {casts : Bool} {b b' : Builder}

theorem folded?_attains (hs : b.Sound xs casts) {e : Expr} (he : e.Checked xs) :
    (folded? e).Attains xs casts b fun v? _ => ∀ v, v? = some v → v.ty = e.ty := by
  refine .get_bind ?_
  split
  · intro v? b' hr
    have hrun : (e.constant? >>= fun v? => Except.ok (v?, b)) = .ok (v?, b') := hr
    obtain ⟨w?, hw, hpair⟩ := Except.bind_eq_ok.mp hrun
    obtain ⟨rfl, rfl⟩ := Prod.mk.inj (Except.ok.inj hpair)
    refine ⟨.refl b, hs, fun v hv => ?_⟩
    subst hv
    exact he.fold_ty hs.valid (Expr.fold_of_constant? hw)
  · exact .pure hs (by simp)

theorem valueId_typed (hs : b.Sound xs casts) (v : Value) (hv : v.ty.isAllowed casts) :
    (valueId v).Attains xs casts b fun id b' => b'.Typed id v.ty :=
  (valueId_attains hs v hv).mono fun _ _ _ _ h => h.1.typed

/-- A known value and the contents of a place have the type of the expression, as the value of its
    own code has. -/
theorem valueOf_attains (hs : b.Sound xs casts) {e : Expr} {code : Build Id} (he : e.Checked xs)
    (h : ∀ b', b.Grows b' → b'.Sound xs casts →
      code.Attains xs casts b' fun id b'' => b''.Typed id e.ty) :
    (valueOf e code).Attains xs casts b fun id b' => b'.Typed id e.ty := by
  unfold valueOf
  refine (folded?_attains hs he).bind fun v? b₁ hgrows₁ hs₁ hv => ?_
  cases v? with
  | some v =>
    rw [← hv v rfl]
    have hproper : v.ty.isProper := hv v rfl ▸ he.proper hs.valid
    exact valueId_typed hs₁ v (Ty.isAllowed_of_isProper casts hproper)
  | none =>
    refine (place?_attains hs₁ he).bind fun p? b₂ hgrows₂ hs₂ hp => ?_
    cases p? with
    | none => exact h b₂ (hgrows₁.trans hgrows₂) hs₂
    | some p => exact load_attains hs₂ (hp p rfl).1

theorem emit_member (hs : b.Sound xs casts) {ty : Ty} {index : Nat} {x : Id} (proper : ty.isProper)
    (found : index < ty.members.length) (hx : b.Typed x ty) :
    (emit .compositeExtract (ty.memberType index) [x, UInt32.ofNat index]).Attains xs casts b
      fun id b' => b'.Typed id (ty.memberType index) := by
  obtain ⟨t, ht, htype⟩ := hx
  have hfew := hs.length_members ht
  rw [show [x, UInt32.ofNat index] = x :: [index].map UInt32.ofNat from rfl]
  refine emit_extract hs
    (Ty.isAllowed_of_isProper casts (Ty.memberType_proper proper found)) (fun i hi => ?_)
    (Ty.at?_member found) ⟨t, ht, htype⟩
  rw [List.mem_singleton.mp hi]
  omega

mutual
/-- The code of an expression gives a value of its type. -/
theorem expr_attains : ∀ {e : Expr} {b : Builder}, b.Sound xs casts → e.Checked xs →
    (e.castsMatrices → casts) → (expr e).Attains xs casts b fun id b' => b'.Typed id e.ty
  | .constant v, b, hs, he, _ =>
    valueOf_attains hs he fun b₁ _ hs₁ =>
      valueId_typed hs₁ v (Ty.isAllowed_of_isProper casts (he.proper hs.valid))
  | .reference x, b, hs, he, _ => valueOf_attains hs he fun b₁ _ _ => .throw
  | .binary op ty left right, b, hs, he, hcasts => by
    refine valueOf_attains hs he fun b₁ _ hs₁ => ?_
    obtain ⟨hleft, hright, htyped⟩ : left.Checked xs ∧ right.Checked xs ∧
        op.resultType left.ty right.ty = .ok ty := by
      cases he with
      | binary hleft hright htyped => exact ⟨hleft, hright, htyped⟩
    refine (expr_attains hs₁ hleft fun h => hcasts (by simp [Expr.castsMatrices, h])).bind
      fun l b₂ _ hs₂ hl => ?_
    refine (expr_attains hs₂ hright fun h => hcasts (by simp [Expr.castsMatrices, h])).bind
      fun r b₃ hgrows₃ hs₃ hr => ?_
    exact binary_attains hs₃ (l := ⟨l, left.ty⟩) (r := ⟨r, right.ty⟩) htyped
      (hleft.proper hs.valid) (hright.proper hs.valid) (hl.mono hgrows₃.includes) hr
  | .assign op ty target value, b, hs, he, hcasts => by
    refine valueOf_attains hs he fun b₁ _ hs₁ => ?_
    obtain ⟨htarget, hvalue, hplace, htyped, hfits⟩ : target.Checked xs ∧ value.Checked xs ∧
        target.isAssignable ∧ Reader.assignedType op target.ty value.ty = .ok ty ∧
          ty.convertsTo target.ty := by
      cases he with
      | assign htarget hvalue hplace _ htyped hfits =>
        exact ⟨htarget, hvalue, hplace, htyped, hfits⟩
    refine (place?_attains hs₁ htarget).bind fun p? b₂ _ hs₂ hp => ?_
    cases p? with
    | none => exact .throw
    | some p =>
      obtain ⟨hp, honce⟩ := hp p rfl
      refine (expr_attains hs₂ hvalue fun h => hcasts (by simp [Expr.castsMatrices, h])).bind
        fun v b₃ hgrows₃ hs₃ hv => ?_
      exact assign_attains hs₃ (hp.mono hgrows₃.includes)
        (honce hplace) htyped hfits (htarget.proper hs.valid) (hvalue.proper hs.valid) hv
  | .negate operand, b, hs, he, hcasts => by
    refine valueOf_attains hs he fun b₁ _ hs₁ => ?_
    obtain ⟨hoperand, hbasic, hnumber⟩ : operand.Checked xs ∧ operand.ty.isBasic ∧
        operand.ty.component? ≠ some .bool := by
      cases he with
      | negate hoperand hbasic hnumber => exact ⟨hoperand, hbasic, hnumber⟩
    exact (expr_attains hs₁ hoperand hcasts).bind fun x b₂ _ hs₂ hx =>
      negation_attains hs₂ (x := ⟨x, operand.ty⟩) (hoperand.proper hs.valid) hbasic hnumber hx
  | .construct ty arguments, b, hs, he, hcasts => by
    refine valueOf_attains hs he fun b₁ _ hs₁ => ?_
    obtain ⟨hproper, hbasic, harguments, hfilled⟩ : ty.isProper ∧ ty.isBasic ∧
        (∀ e ∈ arguments, e.Checked xs) ∧ ty.FilledBy (arguments.map Expr.ty) := by
      cases he with
      | construct hproper hbasic harguments hfilled =>
        exact ⟨hproper, hbasic, harguments, hfilled⟩
    refine (operands_attains hs₁ harguments fun h => hcasts (by simp [Expr.castsMatrices, h])).bind
      fun operands b₂ _ hs₂ ⟨htypes, htyped⟩ => ?_
    rw [← htypes] at hfilled
    refine construct_attains hs₂ hproper hbasic hfilled (fun h => hcasts ?_) htyped
    rw [htypes] at h
    simp [Expr.castsMatrices, h]
  | .call f arguments, b, hs, he, hcasts => by
    refine valueOf_attains hs he fun b₁ _ hs₁ => ?_
    obtain ⟨hknown, harguments, haccepted⟩ : f.IsKnown ∧ (∀ e ∈ arguments, e.Checked xs) ∧
        List.Forall₂ (fun t u => t.convertsTo u = true) (arguments.map Expr.ty) f.parameters := by
      cases he with
      | call hknown harguments haccepted => exact ⟨hknown, harguments, haccepted⟩
    exact (converted_attains hs₁ harguments haccepted hknown.parameters_proper hcasts).bind
      fun ids b₂ _ hs₂ hids => functionCall_attains hs₂ hknown hids
  | .member base index, b, hs, he, hcasts => by
    refine valueOf_attains hs he fun b₁ _ hs₁ => ?_
    obtain ⟨hbase, hfound⟩ : base.Checked xs ∧ index < base.ty.members.length := by
      cases he with
      | member hbase hfound => exact ⟨hbase, hfound⟩
    exact (expr_attains hs₁ hbase hcasts).bind fun x b₂ _ hs₂ hx =>
      emit_member hs₂ (hbase.proper hs.valid) hfound hx
  | .swizzle base letters indexes, b, hs, he, hcasts => by
    refine valueOf_attains hs he fun b₁ _ hs₁ => ?_
    obtain ⟨hbase, hselects⟩ : base.Checked xs ∧ base.ty.Selects indexes := by
      cases he with
      | swizzle hbase hshape hany hfew hinside => exact ⟨hbase, hshape, hany, hfew, hinside⟩
    exact (expr_attains hs₁ hbase hcasts).bind fun x b₂ _ hs₂ hx =>
      selectComponents_attains hs₂ hselects hx
theorem operands_attains : ∀ {es : List Expr} {b : Builder}, b.Sound xs casts →
    (∀ e ∈ es, e.Checked xs) → (Expr.anyCastsMatrices es → casts) →
    (operands es).Attains xs casts b fun operands b' =>
      operands.map (·.ty) = es.map Expr.ty ∧ ∀ x ∈ operands, b'.Typed x.id x.ty
  | [], b, hs, _, _ => .pure hs (by simp)
  | e :: es, b, hs, hes, hcasts => by
    refine (expr_attains hs (hes e List.mem_cons_self) fun h =>
      hcasts (by simp [Expr.anyCastsMatrices, h])).bind fun id b₁ _ hs₁ hid => ?_
    refine (operands_attains hs₁ (fun e' he' => hes e' (List.mem_cons_of_mem e he')) fun h =>
      hcasts (by simp [Expr.anyCastsMatrices, h])).bind fun rest b₂ hgrows₂ hs₂ ⟨htypes, hrest⟩ => ?_
    refine .pure hs₂ ⟨by simp [htypes], fun x hx => ?_⟩
    rcases List.mem_cons.mp hx with rfl | hx
    · exact hid.mono hgrows₂.includes
    · exact hrest x hx
theorem converted_attains : ∀ {es : List Expr} {ts : List Ty} {b : Builder}, b.Sound xs casts →
    (∀ e ∈ es, e.Checked xs) →
    List.Forall₂ (fun t u => t.convertsTo u = true) (es.map Expr.ty) ts →
    (∀ t ∈ ts, t.isProper) → (Expr.anyCastsMatrices es → casts) →
    (converted es ts).Attains xs casts b fun ids b' => List.Forall₂ b'.Typed ids ts
  | [], ts, b, hs, _, haccepted, _, _ => by
    cases haccepted
    exact .pure hs .nil
  | e :: es, ts, b, hs, hes, haccepted, hproper, hcasts => by
    obtain _ | @⟨_, t, _, ts, hfits, haccepted⟩ := haccepted
    rw [converted]
    refine (expr_attains hs (hes e List.mem_cons_self) fun h =>
      hcasts (by simp [Expr.anyCastsMatrices, h])).bind fun x b₁ _ hs₁ hx => ?_
    refine (convert_attains hs₁ (Ty.alike_of_convertsTo hfits)
      (Ty.isAllowed_of_isProper casts (hproper t List.mem_cons_self)) hx).bind
      fun id b₂ _ hs₂ hid => ?_
    refine (converted_attains hs₂ (fun e' he' => hes e' (List.mem_cons_of_mem e he')) haccepted
      (fun t' ht' => hproper t' (List.mem_cons_of_mem t ht')) fun h =>
        hcasts (by simp [Expr.anyCastsMatrices, h])).bind fun ids b₃ hgrows₃ hs₃ hids => ?_
    exact .pure hs₃ (.cons (hid.mono hgrows₃.includes) hids)
end

end Build

end ShaderExpr
