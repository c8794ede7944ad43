import ShaderExpr.Proofs.Ids.Code
import ShaderExpr.Proofs.Stores.Assignments

namespace ShaderExpr

open Instruction

namespace Typing

/-- A pointer is one to a whole variable, or to a member that a path leads to. -/
def Reaches (code : List Instruction) (base pointer : Id) : Prop :=
  pointer = base ∨ ∃ type path, ⟨.accessChain, type :: pointer :: base :: path⟩ ∈ code

/-- An assignment is made by a store through a pointer to the variable assigned to, where `ids` are
    the pointers to variables. -/
inductive Writes (code : List Instruction) (ids : List (Nat × Id)) : Expr → Instruction → Prop
  | store {op : Option Operator} {ty : Ty} {target value : Expr} {x : Variable}
    {base pointer stored : Id} (assigned : target.assigned? = some x)
    (known : ids.lookup x.id = some base) (reached : Reaches code base pointer) :
    Writes code ids (.assign op ty target value) ⟨.store, [pointer, stored]⟩

theorem Reaches.mono {code code' : List Instruction} {base pointer : Id}
    (h : Reaches code base pointer) (hsub : code ⊆ code') : Reaches code' base pointer :=
  h.imp_right fun ⟨type, path, hmem⟩ => ⟨type, path, hsub hmem⟩

end Typing

open Typing

namespace Builder

/-- Assignments are made by stores in the code. -/
abbrev Writes (b : Builder) : Expr → Instruction → Prop := Typing.Writes b.code b.declared

theorem Later.code_subset {b b' : Builder} (h : b.Later b') : b.code ⊆ b'.code := by
  obtain ⟨new, hnew⟩ := h.code
  rw [hnew]
  exact List.subset_append_left _ _

theorem Writes.later {b b' : Builder} {node : Expr} {i : Instruction} (h : b.Writes node i)
    (later : b.Later b') : b'.Writes node i := by
  cases h with
  | store assigned known reached =>
    exact .store assigned (later.declared _ _ known) (reached.mono later.code_subset)

/-- A place is one in the variable that an expression assigns to. -/
structure Denotes (b : Builder) (e : Expr) (p : Place) : Prop where
  base : ∃ x, e.assigned? = some x ∧ b.declared.lookup x.id = some p.variableId
  indexes : ∀ id ∈ p.indexes, Knows id b

theorem Denotes.later {b b' : Builder} {e : Expr} {p : Place} (h : b.Denotes e p)
    (later : b.Later b') : b'.Denotes e p := by
  obtain ⟨x, hx, hid⟩ := h.base
  exact ⟨⟨x, hx, later.declared _ _ hid⟩, fun id hid => (h.indexes id hid).later later⟩

theorem Denotes.knows {b : Builder} {e : Expr} {p : Place} (h : b.Denotes e p)
    (hn : b.Numbered []) : Knows p.variableId b := by
  obtain ⟨x, -, hid⟩ := h.base
  exact mem_known_of_outer (hn.declared _ _ hid).mem_outer

end Builder

namespace Build

open Builder

variable {α β : Type} {b : Builder} {e : Expr} {p : Place}

theorem select_denotes {p' : Place} {indexes : List Nat} {letters : Letters} (h : b.Denotes e p)
    (hselect : p.select indexes = .ok p') : b.Denotes (.swizzle e letters indexes) p' := by
  unfold Place.select at hselect
  split at hselect
  · obtain rfl := Except.ok.inj hselect
    exact ⟨h.base, h.indexes⟩
  · split at hselect
    · obtain rfl := Except.ok.inj hselect
      exact ⟨h.base, h.indexes⟩
    · simp at hselect

theorem memberPlace_gives (hn : b.Numbered []) (h : b.Denotes e p) (index : Nat) (ty : Ty) :
    (memberPlace p index ty).Gives [] b fun p' b' => b'.Denotes (.member e index) p' := by
  unfold memberPlace
  split
  · exact .throw
  · refine (valueId_gives hn _).bind fun id b₁ hlater hn₁ hid => .pure hn₁ ?_
    obtain ⟨hbase, hindexes⟩ := h.later hlater
    refine ⟨hbase, fun x hx => ?_⟩
    rcases List.mem_append.mp hx with hx | hx
    · exact hindexes x hx
    · exact List.mem_singleton.mp hx ▸ hid.knows

/-- A place of an expression is one in the variable that it assigns to. -/
theorem place?_gives : ∀ (e : Expr) {b : Builder}, b.Numbered [] →
    (place? e).Gives [] b fun p? b' => ∀ p, p? = some p → b'.Denotes e p
  | .reference x, b, hn => by
    unfold place? placeOf
    rw [map_eq_pure_bind, bind_assoc]
    refine (variableId_gives hn x).bind fun id b₁ _ hn₁ hid => .pure hn₁ fun p hp => ?_
    obtain rfl := Option.some.inj hp
    exact ⟨⟨x, rfl, hid⟩, by simp⟩
  | .member base index, b, hn => by
    unfold place?
    refine (place?_gives base hn).bind fun p? b₁ _ hn₁ hp => ?_
    cases p? with
    | none => exact .pure hn₁ (by simp)
    | some p =>
      dsimp only
      rw [map_eq_pure_bind]
      refine (memberPlace_gives hn₁ (hp p rfl) index _).bind fun p' b₂ _ hn₂ hp' => ?_
      exact .pure hn₂ fun q hq => Option.some.inj hq ▸ hp'
  | .swizzle base letters indexes, b, hn => by
    unfold place?
    refine (place?_gives base hn).bind fun p? b₁ _ hn₁ hp => ?_
    cases p? with
    | none => exact .pure hn₁ (by simp)
    | some p =>
      dsimp only
      rw [map_eq_pure_bind]
      refine .except_bind fun p' hp' => .pure hn₁ fun q hq => ?_
      exact Option.some.inj hq ▸ select_denotes (hp p rfl) hp'
  | .constant _, _, hn | .binary .., _, hn | .assign .., _, hn | .negate _, _, hn
  | .construct .., _, hn | .call .., _, hn => .pure hn (by simp)

/-- The pointer to a place is one to its variable, or behind an access to a member. -/
theorem pointer_gives (hn : b.Numbered []) (h : b.Denotes e p) : (pointer p).Gives [] b
    fun id b' => Knows id b' ∧ Reaches b'.code p.variableId id := by
  unfold pointer
  split
  · exact .pure hn ⟨h.knows hn, .inl rfl⟩
  · refine (pointerTypeId_gives hn p.whole p.storage).bind fun t b₁ hlater hn₁ ht => ?_
    have h₁ := h.later hlater
    refine (addCode_gives hn₁ rfl fun id x hx => ?_).mono fun id b₂ _ _ hid =>
      ⟨hid.1, .inr ⟨t, p.indexes, hid.2⟩⟩
    rcases uses_result rfl hx with rfl | hx
    · exact ht.knows
    · rcases List.mem_cons.mp hx with rfl | hx
      · exact h₁.knows hn₁
      · exact h₁.indexes x hx

theorem selectComponents_gives (hn : b.Numbered []) {id : Id} (whole ty : Ty) (indexes : List Nat)
    (hid : Knows id b) : (selectComponents id whole ty indexes).Gives [] b Knows := by
  unfold selectComponents
  split
  · exact .pure hn hid
  · exact emit_gives hn rfl fun x hx => List.eq_of_mem_replicate hx ▸ hid
  · exact extract_gives hn hid
  · exact pick_gives hn (.inl rfl) hid hid

theorem load_gives (hn : b.Numbered []) (h : b.Denotes e p) : (load p).Gives [] b Knows := by
  unfold load
  refine (pointer_gives hn h).bind fun id b₁ _ hn₁ hid => ?_
  refine (emit_one hn₁ rfl hid.1).bind fun loaded b₂ _ hn₂ hloaded => ?_
  cases p.selected with
  | none => exact .pure hn₂ hloaded
  | some indexes => exact .except_bind fun ty _ => selectComponents_gives hn₂ _ ty indexes hloaded

theorem storedWhole_gives (hn : b.Numbered []) {id value : Id} (p : Place) (hid : Knows id b)
    (hvalue : Knows value b) : (storedWhole p id value).Gives [] b Knows := by
  unfold storedWhole
  split
  · exact .pure hn hvalue
  · split
    · exact .pure hn hvalue
    · refine (emit_one hn rfl hid).bind fun current b₁ hlater hn₁ hcurrent => ?_
      unfold replaceComponents
      split
      · exact pick_gives hn₁ (.inr rfl) (hvalue.later hlater) hcurrent
      · exact pick_gives hn₁ (.inl rfl) hcurrent (hvalue.later hlater)

/-- Building from `b` fails, or adds code that makes assignments by one store each in their order,
    through pointers to the variables that are assigned to, and ends as `Q` says. Everything else
    only adds values. -/
def Performs (r : Build α) (b : Builder) (nodes : List Expr) (Q : α → Builder → Prop) : Prop :=
  ∀ a b', r b = .ok (a, b') → b.Later b' ∧ b'.Numbered [] ∧
    (∃ new, stores b'.code = stores b.code ++ new ∧ List.Forall₂ b'.Writes nodes new) ∧ Q a b'

section

variable {r : Build α} {f : α → Build β} {nodes nodes' : List Expr} {P : α → Builder → Prop}
  {Q : β → Builder → Prop}

theorem Gives.performs (h : r.Gives [] b P) : r.Performs b [] P := by
  intro a b' hr
  obtain ⟨hlater, hn, hsilent, hP⟩ := h a b' hr
  exact ⟨hlater, hn, ⟨[], by rw [List.append_nil]; exact hsilent, .nil⟩, hP⟩

theorem Performs.bind (h : r.Performs b nodes P)
    (hf : ∀ a b', b.Later b' → b'.Numbered [] → P a b' → (f a).Performs b' nodes' Q) :
    (r >>= f).Performs b (nodes ++ nodes') Q := by
  intro c b'' hr
  obtain ⟨a, b', ha, hc⟩ := bind_eq_ok.mp hr
  obtain ⟨hlater, hn, ⟨new, hnew, hwrites⟩, hP⟩ := h a b' ha
  obtain ⟨hlater', hn', ⟨new', hnew', hwrites'⟩, hQ⟩ := hf a b' hlater hn hP c b'' hc
  refine ⟨hlater.trans hlater', hn', ⟨new ++ new', ?_, ?_⟩, hQ⟩
  · rw [hnew', hnew, List.append_assoc]
  · exact List.rel_append (hwrites.imp fun _ _ hwrite => hwrite.later hlater') hwrites'

/-- Steps without stores in front of others. -/
theorem Performs.of_gives (h : r.Gives [] b P)
    (hf : ∀ a b', b.Later b' → b'.Numbered [] → P a b' → (f a).Performs b' nodes Q) :
    (r >>= f).Performs b nodes Q :=
  h.performs.bind hf

theorem Performs.except_bind {x : Except Fault α} (h : ∀ a, x = .ok a → (f a).Performs b nodes Q) :
    ((liftM x : Build α) >>= f).Performs b nodes Q := by
  intro c b' hr
  cases x with
  | error cause => exact nomatch hr
  | ok a => exact h a rfl c b' hr

/-- Steps without stores behind others. -/
theorem Performs.gives (h : r.Performs b nodes P)
    (hf : ∀ a b', b.Later b' → b'.Numbered [] → P a b' → (f a).Gives [] b' Q) :
    (r >>= f).Performs b nodes Q := by
  have hbind := h.bind fun a b' hlater hn hP => (hf a b' hlater hn hP).performs
  rwa [List.append_nil] at hbind

end

theorem store_performs (hn : b.Numbered []) {op : Option Operator} {ty : Ty} {target value : Expr}
    (h : b.Denotes target p) {id : Id} (hid : Knows id b) :
    (store p id).Performs b [.assign op ty target value] fun _ _ => True := by
  unfold store
  refine .of_gives (pointer_gives hn h) fun pointer b₁ hlater₁ hn₁ ⟨hpointer, hreaches⟩ => ?_
  refine .of_gives (storedWhole_gives hn₁ p hpointer (hid.later hlater₁))
    fun stored b₂ hlater₂ hn₂ hstored => ?_
  intro _ b' hadd
  obtain ⟨rfl, -⟩ := add_eq_ok hadd
  have hlater : b₂.Later (b₂.withCode ⟨.store, [pointer, stored]⟩) :=
    .of_declared (fun _ h => h) (fun _ h => h) (fun _ h => h) ⟨_, rfl⟩ rfl (Nat.le_refl _)
  refine ⟨hlater, hn₂.withStore fun x hx => ?_, ⟨[⟨.store, [pointer, stored]⟩], ?_,
    .cons ?_ .nil⟩, trivial⟩
  · rcases List.mem_cons.mp hx with rfl | hx
    · exact hpointer.later hlater₂
    · exact List.mem_singleton.mp hx ▸ hstored
  · change stores (b₂.code ++ [_]) = _
    rw [stores, List.filter_append]
    rfl
  · obtain ⟨x, hx, hbase⟩ := h.base
    have hlater' := hlater₁.trans (hlater₂.trans hlater)
    exact .store hx (hlater'.declared _ _ hbase)
      (hreaches.mono (hlater₂.trans hlater).code_subset)

theorem assignedValue_gives (hn : b.Numbered []) (op : Option Operator) (ty target : Ty)
    (h : b.Denotes e p) {x : Operand} (hx : Knows x.id b) :
    (assignedValue op ty target p x).Gives [] b Knows := by
  unfold assignedValue
  split
  · refine (load_gives hn h).bind fun current b₁ hlater₁ hn₁ hcurrent => ?_
    refine (binary_gives hn₁ _ ty (l := ⟨current, target⟩) hcurrent (hx.later hlater₁)).bind
      fun result b₂ _ hn₂ hresult => ?_
    exact convert_gives hn₂ ty target hresult
  · exact convert_gives hn x.ty target hx

/-- An assignment stores once, behind the evaluation of what it stores. -/
theorem assign_performs (hn : b.Numbered []) {op : Option Operator} {ty : Ty} {target value : Expr}
    (h : b.Denotes target p) {x : Operand} (hx : Knows x.id b) :
    (assign op ty p x).Performs b [.assign op ty target value] Knows := by
  unfold assign
  refine .except_bind fun t _ => ?_
  refine .of_gives (assignedValue_gives hn op ty t h hx) fun id b₁ hlater₁ hn₁ hid => ?_
  exact (store_performs hn₁ (h.later hlater₁) hid).gives fun _ b₂ hlater₂ hn₂ _ =>
    .pure hn₂ (hid.later hlater₂)

theorem folded?_gives (hn : b.Numbered []) (e : Expr) :
    (folded? e).Gives [] b fun v? _ => v?.isSome → e.executed = [] := by
  refine .get_bind ?_
  split
  · refine .except hn fun v? hv hsome => ?_
    obtain ⟨v, rfl⟩ := Option.isSome_iff_exists.mp hsome
    exact Expr.executed_of_fold (Expr.fold_of_constant? hv)
  · exact .pure hn (by simp)

/-- An expression with a value or a place makes no assignment, and else its own code does. -/
theorem valueOf_performs (hn : b.Numbered []) {code : Build Id}
    (h : ∀ b', b'.Numbered [] → code.Performs b' e.executed Knows) :
    (valueOf e code).Performs b e.executed Knows := by
  unfold valueOf
  refine .of_gives (folded?_gives hn e) fun v? b₁ _ hn₁ hv => ?_
  cases v? with
  | some v =>
    rw [hv rfl]
    exact ((valueId_gives hn₁ v).mono fun _ _ _ _ hid => hid.knows).performs
  | none =>
    refine .of_gives (place?_gives e hn₁) fun p? b₂ _ hn₂ hp => ?_
    cases p? with
    | none => exact h b₂ hn₂
    | some p =>
      obtain ⟨x, hx, -⟩ := (hp p rfl).base
      rw [Expr.executed_of_assigned? hx]
      exact (load_gives hn₂ (hp p rfl)).performs

mutual
/-- The code of an expression stores once for each assignment that it makes. -/
theorem expr_performs : ∀ (e : Expr) {b : Builder}, b.Numbered [] →
    (expr e).Performs b e.executed Knows
  | .constant v, b, hn => by
    refine valueOf_performs hn fun b₁ hn₁ => ?_
    exact ((valueId_gives hn₁ v).mono fun _ _ _ _ hid => hid.knows).performs
  | .reference x, b, hn => valueOf_performs hn fun b₁ _ => Gives.throw.performs
  | .binary op ty left right, b, hn => by
    refine valueOf_performs hn fun b₁ hn₁ => ?_
    refine (expr_performs left hn₁).bind fun l b₂ _ hn₂ hl => ?_
    refine (expr_performs right hn₂).gives fun r b₃ hlater₃ hn₃ hr => ?_
    exact binary_gives hn₃ op ty (l := ⟨l, left.ty⟩) (r := ⟨r, right.ty⟩) (hl.later hlater₃) hr
  | .assign op ty target value, b, hn => by
    refine valueOf_performs hn fun b₁ hn₁ => ?_
    refine .of_gives (place?_gives target hn₁) fun p? b₂ _ hn₂ hp => ?_
    cases p? with
    | none => exact fun _ _ h => nomatch h
    | some p =>
      refine (expr_performs value hn₂).bind fun v b₃ hlater₃ hn₃ hv => ?_
      exact assign_performs hn₃ ((hp p rfl).later hlater₃) (x := ⟨v, value.ty⟩) hv
  | .negate operand, b, hn => by
    refine valueOf_performs hn fun b₁ hn₁ => ?_
    exact (expr_performs operand hn₁).gives fun x b₂ _ hn₂ hx =>
      negation_gives hn₂ (x := ⟨x, operand.ty⟩) hx
  | .construct ty arguments, b, hn => by
    refine valueOf_performs hn fun b₁ hn₁ => ?_
    exact (operands_performs arguments hn₁).gives fun xs b₂ _ hn₂ hxs => construct_gives hn₂ ty hxs
  | .call f arguments, b, hn => by
    refine valueOf_performs hn fun b₁ hn₁ => ?_
    exact (converted_performs arguments f.parameters hn₁).gives fun ids b₂ _ hn₂ hids =>
      functionCall_gives hn₂ f hids
  | .member base index, b, hn => by
    refine valueOf_performs hn fun b₁ hn₁ => ?_
    exact (expr_performs base hn₁).gives fun x b₂ _ hn₂ hx => extract_gives hn₂ hx
  | .swizzle base letters indexes, b, hn => by
    refine valueOf_performs hn fun b₁ hn₁ => ?_
    exact (expr_performs base hn₁).gives fun x b₂ _ hn₂ hx =>
      selectComponents_gives hn₂ _ _ indexes hx
theorem operands_performs : ∀ (es : List Expr) {b : Builder}, b.Numbered [] →
    (operands es).Performs b (Expr.executedAll es) fun xs b' => ∀ x ∈ xs, Knows x.id b'
  | [], b, hn => (Gives.pure hn (by simp)).performs
  | e :: es, b, hn => by
    refine (expr_performs e hn).bind fun id b₁ _ hn₁ hid => ?_
    refine (operands_performs es hn₁).gives fun xs b₂ hlater₂ hn₂ hxs => .pure hn₂ fun x hx => ?_
    rcases List.mem_cons.mp hx with rfl | hx
    · exact hid.later hlater₂
    · exact hxs x hx
theorem converted_performs : ∀ (es : List Expr) (ts : List Ty) {b : Builder}, b.Numbered [] →
    (converted es ts).Performs b (Expr.executedFor es ts) fun ids b' => ∀ id ∈ ids, Knows id b'
  | [], ts, b, hn => by
    rw [converted, Expr.executedFor]
    · exact (Gives.pure hn (by simp)).performs
    all_goals simp
  | e :: es, [], b, hn => by
    rw [converted, Expr.executedFor]
    · exact (Gives.pure hn (by simp)).performs
    all_goals simp
  | e :: es, t :: ts, b, hn => by
    rw [converted, Expr.executedFor]
    refine (expr_performs e hn).bind fun x b₁ _ hn₁ hx => ?_
    refine .of_gives (convert_gives hn₁ e.ty t hx) fun id b₂ _ hn₂ hid => ?_
    refine (converted_performs es ts hn₂).gives fun ids b₃ hlater₃ hn₃ hids =>
      .pure hn₃ fun y hy => ?_
    rcases List.mem_cons.mp hy with rfl | hy
    · exact hid.later hlater₃
    · exact hids y hy
end

end Build

end ShaderExpr
