import Mathlib.Tactic.Common
import ShaderExpr.Proofs.Grammar.Clean

namespace ShaderExpr

/-- The sets of letters have no letter in common. -/
theorem Letters.containing?_of_index? {letters : Letters} {c : Char} {i : Nat}
    (h : letters.index? c = some i) : Letters.containing? c = some letters := by
  obtain ⟨hi, hc, -⟩ := List.findIdx?_eq_some_iff_getElem.mp h
  have hmem : c ∈ letters.text.toList := by
    rw [← of_decide_eq_true hc]
    exact List.getElem_mem hi
  cases letters with
  | position =>
    have hc : c = 'x' ∨ c = 'y' ∨ c = 'z' ∨ c = 'w' := by simpa [Letters.text] using hmem
    rcases hc with rfl | rfl | rfl | rfl <;> decide
  | color =>
    have hc : c = 'r' ∨ c = 'g' ∨ c = 'b' ∨ c = 'a' := by simpa [Letters.text] using hmem
    rcases hc with rfl | rfl | rfl | rfl <;> decide
  | texture =>
    have hc : c = 's' ∨ c = 't' ∨ c = 'p' ∨ c = 'q' := by simpa [Letters.text] using hmem
    rcases hc with rfl | rfl | rfl | rfl <;> decide

namespace Reader

/-- The component that one letter of a selection names, in the way that a whole name is checked.
    Which letter is at fault only matters for the problem that is reported. -/
theorem mapM_selection_eq_ok_iff {letters : Letters} {bound : Nat} (wrong : Char → Problem)
    (outside : Char → Problem) {cs : List Char} {indexes : List Nat} :
    (cs.mapM fun c =>
      match letters.index? c with
      | none => Except.error (wrong c)
      | some i => if i < bound then .ok i else .error (outside c)) = .ok indexes ↔
    cs.mapM letters.index? = some indexes ∧ ∀ i ∈ indexes, i < bound := by
  induction cs generalizing indexes with
  | nil =>
    constructor
    · intro h
      obtain rfl : [] = indexes := by simpa [pure, Except.pure] using h
      simp
    · rintro ⟨h, -⟩
      obtain rfl : [] = indexes := by simpa using h
      rfl
  | cons c cs ih =>
    rw [List.mapM_cons, List.mapM_cons]
    cases hc : letters.index? c with
    | none => simp [bind, Except.bind]
    | some i =>
      by_cases hi : i < bound
      · constructor
        · intro h
          simp only [hi, if_true, bind, Except.bind] at h
          split at h
          · simp at h
          · rename_i rest hrest
            obtain rfl : i :: rest = indexes := by simpa [pure, Except.pure] using h
            obtain ⟨hcs, hall⟩ := ih.mp hrest
            exact ⟨by simp [hcs], by simpa [hi] using hall⟩
        · rintro ⟨h, hall⟩
          simp only [Option.bind_eq_bind, Option.bind_some, Option.bind_eq_some_iff,
            Option.pure_def, Option.some.injEq] at h
          obtain ⟨rest, hrest, rfl⟩ := h
          have := ih.mpr ⟨hrest, fun j hj => hall j (List.mem_cons_of_mem _ hj)⟩
          simp only [hi, if_true, bind, Except.bind, this, pure, Except.pure]
      · constructor
        · intro h
          simp [hi, bind, Except.bind] at h
        · rintro ⟨h, hall⟩
          simp only [Option.bind_eq_bind, Option.bind_some, Option.bind_eq_some_iff,
            Option.pure_def, Option.some.injEq] at h
          obtain ⟨rest, -, rfl⟩ := h
          exact absurd (hall i (by simp)) hi

/-- A name selects components exactly if all its letters are of one set and name components that
    are there. -/
theorem selection_eq_ok_iff {ty : Ty} {name : String} {letters : Letters} {indexes : List Nat} :
    selection ty name = .ok (letters, indexes) ↔
      name.toList.mapM letters.index? = some indexes ∧ indexes ≠ [] ∧
        ∀ i ∈ indexes, i < max ty.length 1 := by
  unfold selection
  cases hname : name.toList with
  | nil =>
    constructor
    · intro h
      simp at h
    · rintro ⟨h, hsome, -⟩
      exact absurd (by simpa using h.symm) hsome
  | cons first rest =>
    constructor
    · intro h
      simp only at h
      split at h
      · simp at h
      · rename_i found hfound
        simp only [bind, Except.bind, pure, Except.pure] at h
        split at h
        · simp at h
        · rename_i all hall
          obtain ⟨rfl, rfl⟩ : found = letters ∧ all = indexes := by simpa using h
          obtain ⟨hcs, hin⟩ := (mapM_selection_eq_ok_iff _ _).mp hall
          refine ⟨hcs, ?_, hin⟩
          rintro rfl
          simp [Option.bind_eq_some_iff] at hcs
    · rintro ⟨hcs, -, hin⟩
      have hfirst : Letters.containing? first = some letters := by
        rw [List.mapM_cons, Option.bind_eq_bind, Option.bind_eq_some_iff] at hcs
        obtain ⟨i, hi, -⟩ := hcs
        exact Letters.containing?_of_index? hi
      have hall := (mapM_selection_eq_ok_iff (fun c => .swizzleLetter c letters.text)
        (fun c => .swizzleRange c ty)).mpr ⟨hcs, hin⟩
      simp only [hfirst]
      exact congrArg (· >>= fun indexes => Except.ok (letters, indexes)) hall

/-- A check takes no token. Without a problem its result satisfies `P`, and a result that satisfies
    `P` is the one it gives, without a problem. -/
def Decides {α : Type} (r : Reader α) (P : α → Prop) : Prop :=
  ∀ c : Cursor, (r.Yields c fun a c' => c' = c ∧ P a) ∧ ∀ a, P a → r c = (a, c)

theorem swizzle_decides (base : Expr) (name : String) (span : Span) :
    (swizzle base name span).Decides fun e => ∃ letters indexes,
      name.toList.mapM letters.index? = some indexes ∧ indexes ≠ [] ∧
      (∀ i ∈ indexes, i < max base.ty.length 1) ∧ indexes.length ≤ 4 ∧
      e = .swizzle base letters indexes := by
  intro c
  unfold swizzle
  cases h : selection base.ty name with
  | error p =>
    constructor
    · exact yields_reportAt_bind fun c' => .pure trivial
    · rintro e ⟨letters, indexes, hspelled, hsome, hin, -, -⟩
      have hok := selection_eq_ok_iff.mpr ⟨hspelled, hsome, hin⟩
      rw [h] at hok
      simp at hok
  | ok found =>
    obtain ⟨letters, indexes⟩ := found
    have hsel := selection_eq_ok_iff.mp h
    by_cases hlong : 4 < indexes.length
    · constructor
      · simp only [hlong, if_true]
        exact yields_reportAt_bind fun c' => .pure trivial
      · rintro e ⟨letters', indexes', hspelled, hsome, hin, hfew, -⟩
        have hok := selection_eq_ok_iff.mpr ⟨hspelled, hsome, hin⟩
        obtain ⟨rfl, rfl⟩ : letters = letters' ∧ indexes = indexes' := by simpa [h] using hok
        omega
    · have htake : indexes.take 4 = indexes := List.take_of_length_le (by omega)
      simp only [hlong, if_false, htake]
      constructor
      · exact .pure ⟨rfl, letters, indexes, hsel.1, hsel.2.1, hsel.2.2, by omega, rfl⟩
      · rintro e ⟨letters', indexes', hspelled, hsome, hin, -, rfl⟩
        have hok := selection_eq_ok_iff.mpr ⟨hspelled, hsome, hin⟩
        obtain ⟨rfl, rfl⟩ : letters = letters' ∧ indexes = indexes' := by simpa [h] using hok
        rfl

/-- What a name behind a point selects is what the grammar says. -/
theorem fieldOf_decides (base : Expr) (name : String) (span : Span) :
    (fieldOf base name span).Decides (Phrase.Field base name) := by
  have hcomponents (hshape : (∃ s, base.ty = .scalar s) ∨ ∃ s n, base.ty = .vector s n)
      (c : Cursor) : ((swizzle base name span).Yields c fun e c' =>
        c' = c ∧ Phrase.Field base name e) ∧
      ∀ e, Phrase.Field base name e → swizzle base name span c = (e, c) := by
    obtain ⟨hsound, hcomplete⟩ := swizzle_decides base name span c
    refine ⟨hsound.mono ?_, fun e he => hcomplete e ?_⟩
    · rintro e c' ⟨hc, letters, indexes, hspelled, hsome, hin, hfew, rfl⟩
      exact ⟨hc, .components hshape hspelled hsome hfew hin⟩
    · cases he with
      | member found =>
        rcases hshape with ⟨s, hs⟩ | ⟨s, n, hs⟩ <;> simp [hs, Ty.memberIndex?, Ty.members] at found
      | components _ hspelled hsome hfew hin => exact ⟨_, _, hspelled, hsome, hin, hfew, rfl⟩
  have hother (hscalar : ∀ s, base.ty ≠ .scalar s) (hvector : ∀ s n, base.ty ≠ .vector s n)
      (e : Expr) (he : Phrase.Field base name e) :
      ∃ index, base.ty.memberIndex? name = some index ∧ e = .member base index := by
    cases he with
    | member found => exact ⟨_, found, rfl⟩
    | components hshape =>
      rcases hshape with ⟨s, hs⟩ | ⟨s, n, hs⟩
      · exact absurd hs (hscalar s)
      · exact absurd hs (hvector s n)
  intro c
  unfold fieldOf
  cases hty : base.ty with
  | scalar s => exact hcomponents (.inl ⟨s, hty⟩) c
  | vector s n => exact hcomponents (.inr ⟨s, n, hty⟩) c
  | struct tag ms =>
    rw [hty] at hother
    cases hindex : (Ty.struct tag ms).memberIndex? name with
    | some index =>
      refine ⟨.pure ⟨rfl, .member (hty ▸ hindex)⟩, fun e he => ?_⟩
      obtain ⟨index', hfound, rfl⟩ := hother (by simp) (by simp) e he
      obtain rfl : index = index' := by simpa [hindex] using hfound
      rfl
    | none =>
      refine ⟨yields_reportAt_bind fun c' => .pure trivial, fun e he => ?_⟩
      obtain ⟨index', hfound, -⟩ := hother (by simp) (by simp) e he
      simp [hindex] at hfound
  | matrix s m n =>
    rw [hty] at hother
    refine ⟨yields_reportAt_bind fun c' => .pure trivial, fun e he => ?_⟩
    obtain ⟨index', hfound, -⟩ := hother (by simp) (by simp) e he
    simp [Ty.memberIndex?, Ty.members] at hfound
  | void =>
    rw [hty] at hother
    refine ⟨yields_reportAt_bind fun c' => .pure trivial, fun e he => ?_⟩
    obtain ⟨index', hfound, -⟩ := hother (by simp) (by simp) e he
    simp [Ty.memberIndex?, Ty.members] at hfound

theorem negated_decides (operand : Expr) (span : Span) :
    (negated operand span).Decides fun e =>
      operand.ty.isBasic ∧ operand.ty.component? ≠ some .bool ∧ e = .negate operand := by
  intro c
  unfold negated
  by_cases hbasic : operand.ty.isBasic
  · by_cases hbool : operand.ty.component? = some .bool
    · simp only [hbasic, Bool.not_true, Bool.false_eq_true, if_false, hbool, if_true]
      exact ⟨yields_reportAt_bind fun c' => .pure trivial, fun e he => absurd rfl he.2.1⟩
    · simp only [hbasic, Bool.not_true, Bool.false_eq_true, if_false, hbool]
      refine ⟨.pure ⟨rfl, trivial, hbool, rfl⟩, ?_⟩
      rintro e ⟨-, -, rfl⟩
      rfl
  · simp only [hbasic, Bool.not_false, if_true]
    exact ⟨yields_reportAt_bind fun c' => .pure trivial, fun e he => absurd he.1 (by simp)⟩

theorem combined_decides (op : Operator) (span : Span) (left right : Expr) :
    (combined op span left right).Decides fun e =>
      ∃ ty, op.resultType left.ty right.ty = .ok ty ∧ e = .binary op ty left right := by
  intro c
  unfold combined
  cases h : op.resultType left.ty right.ty with
  | error p =>
    refine ⟨yields_reportAt_bind fun c' => .pure trivial, ?_⟩
    rintro e ⟨ty, hty, -⟩
    simp at hty
  | ok ty =>
    refine ⟨.pure ⟨rfl, ty, rfl, rfl⟩, ?_⟩
    rintro e ⟨ty', hty, rfl⟩
    obtain rfl : ty = ty' := by simpa using hty
    rfl

theorem assigned_decides (op : Option Operator) (span : Span) (target value : Expr) :
    (assigned op span target value).Decides fun e =>
      ∃ ty, assignedType op target.ty value.ty = .ok ty ∧ ty.convertsTo target.ty ∧
        e = .assign op ty target value := by
  intro c
  unfold assigned
  cases h : assignedType op target.ty value.ty with
  | error p =>
    refine ⟨yields_reportAt_bind fun c' => .pure trivial, ?_⟩
    rintro e ⟨ty, hty, -⟩
    simp at hty
  | ok ty =>
    by_cases hfits : ty.convertsTo target.ty
    · simp only [hfits, if_true]
      refine ⟨.pure ⟨rfl, ty, rfl, hfits, rfl⟩, ?_⟩
      rintro e ⟨ty', hty, -, rfl⟩
      obtain rfl : ty = ty' := by simpa using hty
      rfl
    · simp only [hfits]
      refine ⟨yields_reportAt_bind fun c' => .pure trivial, ?_⟩
      rintro e ⟨ty', hty, hfits', -⟩
      obtain rfl : ty = ty' := by simpa using hty
      exact absurd hfits' hfits

end Reader

end ShaderExpr
