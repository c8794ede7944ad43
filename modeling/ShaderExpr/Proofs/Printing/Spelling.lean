import ShaderExpr.Proofs.Numeric.Numerals
import ShaderExpr.Proofs.Printing.Printable

namespace ShaderExpr

namespace Phrase

/-- Phrases that bind at least as tight as a place asks for, from assignments to fields. -/
def Binds (p : Nat) (s : Scope) (ks : Kinds) (e : Expr) : Prop :=
  match p with
  | 0 | 1 => Assignment s ks e s
  | 13 => Unary s ks e s
  | 14 => Postfixed s ks e s
  | p => Operation p s ks e s

theorem binds_operation {p : Nat} (h : 2 ≤ p) (h' : p ≤ 12) (s : Scope) (ks : Kinds) (e : Expr) :
    Binds p s ks e = Operation p s ks e s := by
  unfold Binds
  split <;> first | omega | rfl

theorem Binds.operation {p : Nat} {s : Scope} {ks : Kinds} {e : Expr} (h : Binds p s ks e)
    (hlow : 2 ≤ p) (hhigh : p ≤ 13) : Operation p s ks e s := by
  by_cases hp : p ≤ 12
  · rw [binds_operation hlow hp] at h
    exact h
  · obtain rfl : p = 13 := by omega
    exact .unary h

/-- What binds tighter can stand in any looser place. -/
theorem Binds.loosen {p q : Nat} {s : Scope} {ks : Kinds} {e : Expr} (h : Binds p s ks e)
    (hp : p ≤ 14) (hq : q ≤ p) : Binds q s ks e := by
  obtain ⟨n, rfl⟩ := Nat.exists_eq_add_of_le hq
  induction n with
  | zero => exact h
  | succ n ih =>
    refine ih ?_ (by omega) (by omega)
    by_cases hlow : q + n ≤ 1
    · have hcases : q + n = 0 ∨ q + n = 1 := by omega
      rcases hcases with hzero | hone
      · rw [← Nat.add_assoc, hzero] at h
        rw [hzero]
        exact h
      · rw [← Nat.add_assoc, hone] at h
        rw [hone]
        exact Assignment.operation h
    · by_cases hhigh : q + n ≤ 11
      · rw [binds_operation (by omega) (by omega)] at h ⊢
        exact .tighter (by omega) h
      · have hcases : q + n = 12 ∨ q + n = 13 := by omega
        rcases hcases with htwelve | hthirteen
        · rw [← Nat.add_assoc, htwelve] at h
          rw [htwelve]
          exact .tighter (by omega) (.unary h)
        · rw [← Nat.add_assoc, hthirteen] at h
          rw [hthirteen]
          exact .postfixed h

/-- Parentheses fit any expression into any place. -/
theorem Binds.enclosed {p q : Nat} {s : Scope} {ks : Kinds} {e : Expr} (h : Binds p s ks e)
    (hp : p ≤ 14) (hq : q ≤ 14) : Binds q s (Phrase.enclosed ks) e := by
  have hinside : Assignment s ks e s := h.loosen hp (Nat.zero_le p)
  have hprimary : Binds 14 s (Phrase.enclosed ks) e := .primary (.parentheses hinside)
  exact hprimary.loosen (Nat.le_refl 14) hq

end Phrase

theorem Value.components_ofScalar (x : Scalar) : (Value.ofScalar x).components = [x] := by
  have hdata : (Value.ofScalar x).data = x.bytes := by
    simp [Value.ofScalar, Value.ofComponents, Ty.component?, Ty.componentCount, Scalar.convert_type]
  have hty : (Value.ofScalar x).ty = .scalar x.type := rfl
  have hlen := x.length_bytes
  simp [Value.components, hty, hdata, Value.get?, Ty.component?, Ty.componentCount, List.range_succ,
    ← hlen, Scalar.ofBytes?_bytes]

theorem ne_sign_of_isDecimalDigit {c : Char} (h : isDecimalDigit c) : c ≠ '-' ∧ c ≠ '=' := by
  refine ⟨?_, ?_⟩ <;> rintro rfl <;> exact absurd h (by decide)

namespace Scalar

/-- The text of a literal does not start with a sign. -/
theorem text_starts {x : Scalar} (plain : x.IsPlain) :
    ∃ c cs, x.text.toList = c :: cs ∧ c ≠ '-' ∧ c ≠ '=' := by
  cases x with
  | float x =>
    obtain ⟨d, hread, -⟩ := Option.map_eq_some_iff.mp (readsBack plain)
    obtain ⟨c, cs, hcs, hc⟩ :=
      (BinaryFormat.text_isNumeral numeralStyle plain.1 plain.2 (by rw [hread]; rfl)).starts
    exact ⟨c, cs, hcs, ne_sign_of_isDecimalDigit hc⟩
  | double x =>
    obtain ⟨d, hread, -⟩ := Option.map_eq_some_iff.mp (readsBack plain)
    obtain ⟨c, cs, hcs, hc⟩ :=
      (BinaryFormat.text_isNumeral numeralStyle plain.1 plain.2 (by rw [hread]; rfl)).starts
    exact ⟨c, cs ++ "lf".toList, by rw [text, String.toList_append, hcs]; rfl,
      ne_sign_of_isDecimalDigit hc⟩
  | int n =>
    have hplain : 0 ≤ n.toInt := plain
    have hdigits := isDecimalDigit_of_mem_toDigits (n := n.toNatClampNeg)
    obtain ⟨c, cs, hcs⟩ :=
      List.exists_cons_of_ne_nil (Nat.toDigits_ne_nil (n := n.toNatClampNeg) (b := 10))
    refine ⟨c, cs, ?_, ne_sign_of_isDecimalDigit (hdigits c (by simp [hcs]))⟩
    rw [text, Int.toString_eq_repr, Int.repr_eq_if, if_pos hplain, Nat.toList_repr]
    exact hcs
  | uint n =>
    have hdigits := isDecimalDigit_of_mem_toDigits (n := n.toNat)
    obtain ⟨c, cs, hcs⟩ :=
      List.exists_cons_of_ne_nil (Nat.toDigits_ne_nil (n := n.toNat) (b := 10))
    refine ⟨c, cs ++ "u".toList, ?_, ne_sign_of_isDecimalDigit (hdigits c (by simp [hcs]))⟩
    rw [text, String.toList_append, Nat.toString_eq_repr, Nat.toList_repr, hcs]
    rfl
  | bool b => cases b <;> exact ⟨_, _, rfl, by decide, by decide⟩

end Scalar

namespace Expr

theorem binding_constant {x : Scalar} (plain : x.IsPlain) :
    (constant (.ofScalar x)).binding = postfixBinding := by
  obtain ⟨c, cs, hcs, hminus, -⟩ := x.text_starts plain
  rw [binding, Value.text_ofScalar, hcs, if_neg (by simpa using hminus)]

theorem binding_le (e : Expr) : e.binding ≤ 14 := by
  cases e with
  | constant value =>
    rw [binding]
    split <;> decide
  | binary op =>
    rw [binding]
    cases op <;> decide
  | negate => exact Nat.le_succ 13
  | assign => exact Nat.le_of_ble_eq_true rfl
  | _ => exact Nat.le_refl 14

/-- A phrase at its own strength, put into a place. -/
theorem binds_placed {s : Scope} {e : Expr} {ks : Phrase.Kinds} {p : Nat}
    (h : Phrase.Binds e.binding s ks e) (hp : p ≤ 14) :
    Phrase.Binds p s (e.placedKinds ks p) e := by
  unfold placedKinds
  by_cases hloose : e.binding < p
  · rw [if_pos hloose]
    exact h.enclosed e.binding_le hp
  · rw [if_neg hloose]
    exact h.loosen e.binding_le (by omega)

/-- Arguments of any call, from the derivations of each. -/
theorem arguments_separated {s : Scope} {es : List Expr} {kss : List Phrase.Kinds}
    (h : List.Forall₂ (fun e ks => Phrase.Assignment s ks e s) es kss) :
    Phrase.Arguments s (Phrase.separated kss) es s := by
  have hlist : es ≠ [] → Phrase.ArgumentList s (Phrase.separated kss) es s := by
    intro hsome
    induction h with
    | nil => exact absurd rfl hsome
    | @cons e ks es kss hfirst hrest ih =>
      cases hrest with
      | nil => exact .one hfirst
      | cons => exact .more hfirst (ih (by simp))
  cases h with
  | nil => exact .none
  | cons => exact .some (hlist (by simp))

theorem constructor_of_written {s : Scope} {ty : Ty} (h : ty.Written s)
    (holds : ty.isBasic ∨ ty.isStruct) : Phrase.Constructor s ty.kinds ty s := by
  have hspecifier := h.specifier
  cases ty with
  | struct name members =>
    cases name with
    | some name => exact .name h.2
    | none =>
      refine .definition (.anonymous (Ty.MembersWritten.members h.2 [] ?_))
      simpa using h.1
  | void => simp [Ty.isBasic, Ty.isStruct] at holds
  | _ => exact .word h.1 (by simp [Ty.isBasic])

/-- A struct value's member is no member of a literal. -/
theorem ne_constant_of_memberIndex? {base : Expr} {name : String} {index : Nat}
    (h : base.ty.memberIndex? name = some index) (x : Scalar) : base ≠ .constant (.ofScalar x) := by
  rintro rfl
  simp [ty, Value.ofScalar, Value.ofComponents, Ty.component?, Ty.memberIndex?, Ty.members] at h

theorem binds_field {s : Scope} {base e : Expr} {ks : Phrase.Kinds} {name : String}
    (h : Phrase.Binds base.binding s ks base) (hfield : Phrase.Field base name e) :
    Phrase.Postfixed s (base.placedKinds ks postfixBinding ++ [.control '.', .ident name]) e s :=
  .field (binds_placed h (Nat.le_refl 14)) hfield

mutual
/-- The tokens that a tree is printed as form an expression of the grammar, with that tree. -/
theorem Printable.binds {s : Scope} : ∀ {e : Expr}, Printable s e →
    Phrase.Binds e.binding s e.kinds e
  | _, .constant (x := x) plain => by
    rw [binding_constant plain, kinds, Value.components_ofScalar]
    exact .primary (.literal x)
  | _, .reference name noType noFunction found => .primary (.reference noType noFunction found)
  | _, @Printable.binary _ op ty left right hleft hright typed => by
    obtain ⟨hlow, hhigh⟩ : 2 ≤ op.precedence ∧ op.precedence ≤ 12 := by cases op <;> decide
    rw [binding, Phrase.binds_operation hlow hhigh]
    have hbefore := (binds_placed (p := op.precedence) hleft.binds (by omega)).operation hlow
      (by omega)
    have hafter := (binds_placed (p := op.precedence + 1) hright.binds (by omega)).operation
      (by omega) (by omega)
    exact .binary hbefore op.operator?_token rfl hafter typed
  | _, @Printable.assign _ op ty target value htarget hvalue sign place writable typed fits => by
    have hplace : Phrase.Binds 2 s (target.placedKinds target.kinds postfixBinding) target :=
      (binds_placed (p := 14) htarget.binds (Nat.le_refl 14)).loosen (Nat.le_refl 14) (by omega)
    have hvalue : Phrase.Binds 1 s (value.placedKinds value.kinds assignmentBinding) value :=
      binds_placed hvalue.binds (by omega)
    exact .assign hplace sign place writable hvalue typed fits
  | _, @Printable.negate _ operand hoperand basic number => by
    have hinside : Phrase.Unary s (if operand.binding = unaryBinding then
        Phrase.enclosed operand.kinds else operand.placedKinds operand.kinds unaryBinding)
        operand s := by
      by_cases hminus : operand.binding = unaryBinding
      · rw [if_pos hminus]
        exact hoperand.binds.enclosed (q := 13) operand.binding_le (by omega)
      · rw [if_neg hminus]
        exact binds_placed (p := 13) hoperand.binds (by omega)
    exact .minus hinside basic number
  | _, @Printable.construct _ ty _ arguments type basic filled => by
    have hno : ty.isStruct = false := by
      cases ty <;> simp_all [Ty.isBasic, Ty.isStruct]
    exact .primary (.construct (constructor_of_written type (.inl basic)) hno
      (arguments_separated arguments.binds) filled)
  | _, .builtin arguments name noType isFunction resolved =>
    .primary (.call noType isFunction (arguments_separated arguments.binds) resolved)
  | _, .make arguments type struct resolved =>
    .primary (.make (constructor_of_written type (.inr struct)) struct
      (arguments_separated arguments.binds) resolved)
  | _, @Printable.member _ base name index hbase identifier found => by
    rw [kinds, Ty.name_of_memberIndex? found]
    exact binds_field hbase.binds (.member found)
  | _, @Printable.swizzle _ base name letters indexes hbase _ _ shape spelled any few inside => by
    rw [kinds, Letters.map_letter spelled, String.ofList_toList]
    exact binds_field hbase.binds (.components shape spelled any few inside)
theorem AllPrintable.binds {s : Scope} : ∀ {es : List Expr}, AllPrintable s es →
    List.Forall₂ (fun e ks => Phrase.Assignment s ks e s) es (kindsAll es)
  | _, .nil => .nil
  | _, .cons first rest => by
    refine .cons ?_ rest.binds
    exact binds_placed (p := 1) first.binds (by omega)
end

end Expr

end ShaderExpr
