import ShaderExpr.Proofs.Expr.Typing
import ShaderExpr.Proofs.Expr.WellTyped

namespace ShaderExpr

namespace Expr

/-- Is an expression itself an assignment? -/
def isAssignment : Expr → Bool
  | assign .. => true
  | _ => false

mutual
/-- All assignments in an expression from left to right, each behind those in its own parts. -/
def assignments : Expr → List Expr
  | constant _ | reference _ => []
  | binary _ _ left right => left.assignments ++ right.assignments
  | assign op ty target value =>
    target.assignments ++ value.assignments ++ [assign op ty target value]
  | negate operand => operand.assignments
  | construct _ arguments | call _ arguments => assignmentsAll arguments
  | member base _ | swizzle base _ _ => base.assignments
def assignmentsAll : List Expr → List Expr
  | [] => []
  | e :: rest => e.assignments ++ assignmentsAll rest
end

mutual
/-- The assignments that code makes. An argument without a parameter has no code. -/
def executed : Expr → List Expr
  | constant _ | reference _ => []
  | binary _ _ left right => left.executed ++ right.executed
  | assign op ty target value => value.executed ++ [assign op ty target value]
  | negate operand => operand.executed
  | construct _ arguments => executedAll arguments
  | call f arguments => executedFor arguments f.parameters
  | member base _ | swizzle base _ _ => base.executed
def executedAll : List Expr → List Expr
  | [] => []
  | e :: rest => e.executed ++ executedAll rest
def executedFor : List Expr → List Ty → List Expr
  | e :: rest, _ :: parameters => e.executed ++ executedFor rest parameters
  | _, _ => []
end

theorem assignmentsAll_eq (es : List Expr) : assignmentsAll es = es.flatMap assignments := by
  induction es with
  | nil => rfl
  | cons e es ih => simp [assignmentsAll, ih]

/-- The parts of an expression give their assignments, and an assignment itself is the last one. -/
theorem assignments_eq (e : Expr) :
    e.assignments = e.parts.flatMap assignments ++ if e.isAssignment then [e] else [] := by
  cases e <;> simp [assignments, parts, isAssignment, assignmentsAll_eq]

mutual
theorem within_of_mem_assignments {s : Expr} : ∀ {e : Expr}, s ∈ e.assignments →
    s.Within e ∧ s.isAssignment
  | constant _, h | reference _, h => by simp [assignments] at h
  | binary op ty left right, h => by
    rcases List.mem_append.mp h with h | h
    · exact (within_of_mem_assignments h).imp_left (.part (by simp [parts]))
    · exact (within_of_mem_assignments h).imp_left (.part (by simp [parts]))
  | assign op ty target value, h => by
    rcases List.mem_append.mp h with h | h
    · rcases List.mem_append.mp h with h | h
      · exact (within_of_mem_assignments h).imp_left (.part (by simp [parts]))
      · exact (within_of_mem_assignments h).imp_left (.part (by simp [parts]))
    · obtain rfl := List.mem_singleton.mp h
      exact ⟨.whole, rfl⟩
  | negate operand, h =>
    (within_of_mem_assignments (e := operand) h).imp_left (.part (by simp [parts]))
  | construct ty arguments, h => by
    obtain ⟨e, he, hs, hassign⟩ := within_of_mem_assignmentsAll h
    exact ⟨.part he hs, hassign⟩
  | call f arguments, h => by
    obtain ⟨e, he, hs, hassign⟩ := within_of_mem_assignmentsAll h
    exact ⟨.part he hs, hassign⟩
  | member base index, h =>
    (within_of_mem_assignments (e := base) h).imp_left (.part (by simp [parts]))
  | swizzle base letters indexes, h =>
    (within_of_mem_assignments (e := base) h).imp_left (.part (by simp [parts]))
theorem within_of_mem_assignmentsAll {s : Expr} : ∀ {es : List Expr}, s ∈ assignmentsAll es →
    ∃ e ∈ es, s.Within e ∧ s.isAssignment
  | [], h => by simp [assignmentsAll] at h
  | e :: es, h => by
    rcases List.mem_append.mp h with h | h
    · exact ⟨e, List.mem_cons_self, within_of_mem_assignments h⟩
    · obtain ⟨e', he', h'⟩ := within_of_mem_assignmentsAll h
      exact ⟨e', List.mem_cons_of_mem e he', h'⟩
end

/-- The assignments of an expression are those that stand somewhere in it. -/
theorem mem_assignments {e s : Expr} : s ∈ e.assignments ↔ s.Within e ∧ s.isAssignment := by
  refine ⟨within_of_mem_assignments, fun ⟨hs, hassign⟩ => ?_⟩
  clear * - hs hassign
  induction hs with
  | whole => simp [assignments_eq s, hassign]
  | @part e p hp _ ih =>
    rw [assignments_eq e]
    exact List.mem_append_left _ (List.mem_flatMap.mpr ⟨p, hp, ih⟩)

/-- What is assigned to holds no assignment. -/
theorem assignments_of_isAssignable : ∀ {e : Expr}, e.isAssignable → e.assignments = []
  | reference _, _ => rfl
  | member base _, h => assignments_of_isAssignable (e := base) h
  | swizzle base _ _, h => assignments_of_isAssignable (e := base) (Bool.and_eq_true_iff.mp h).2

theorem executed_of_assigned? {x : Variable} : ∀ {e : Expr}, e.assigned? = some x →
    e.executed = []
  | reference _, _ => rfl
  | member base _, h => executed_of_assigned? (e := base) h
  | swizzle base _ _, h => executed_of_assigned? (e := base) h

theorem executedFor_nil : ∀ {es : List Expr}, executedAll es = [] → ∀ ts, executedFor es ts = []
  | [], _, ts => by simp [executedFor]
  | e :: es, _, [] => by simp [executedFor]
  | e :: es, h, t :: ts => by
    obtain ⟨he, hes⟩ := List.append_eq_nil_iff.mp h
    rw [executedFor, he, executedFor_nil hes ts, List.append_nil]

mutual
/-- An expression with a value at compile time makes no assignment. -/
theorem executed_of_fold : ∀ {e : Expr} {v : Value}, e.fold = .ok v → e.executed = []
  | constant _, _, _ | reference _, _, _ => rfl
  | binary op ty left right, v, h => by
    simp only [fold] at h
    split at h
    all_goals first
      | exact absurd h (by simp)
      | obtain ⟨l, hl, h⟩ := Except.bind_eq_ok.mp h
        obtain ⟨r, hr, h⟩ := Except.bind_eq_ok.mp h
        rw [executed, executed_of_fold hl, executed_of_fold hr, List.append_nil]
  | assign op ty target value, v, h => by simp [fold] at h
  | negate operand, v, h => by
    obtain ⟨x, hx, -⟩ := Except.bind_eq_ok.mp h
    exact executed_of_fold (e := operand) hx
  | construct ty arguments, v, h => by
    obtain ⟨vs, hvs, -⟩ := Except.bind_eq_ok.mp h
    exact executedAll_of_foldAll hvs
  | call f arguments, v, h => by
    obtain ⟨vs, hvs, -⟩ := Except.bind_eq_ok.mp h
    exact executedFor_nil (executedAll_of_foldAll hvs) _
  | member base index, v, h => by
    obtain ⟨x, hx, -⟩ := Except.bind_eq_ok.mp h
    exact executed_of_fold (e := base) hx
  | swizzle base letters indexes, v, h => by
    obtain ⟨x, hx, -⟩ := Except.bind_eq_ok.mp h
    exact executed_of_fold (e := base) hx
theorem executedAll_of_foldAll : ∀ {es : List Expr} {vs : List Value}, foldAll es = .ok vs →
    executedAll es = []
  | [], _, _ => rfl
  | e :: es, vs, h => by
    obtain ⟨v, hv, h⟩ := Except.bind_eq_ok.mp h
    obtain ⟨ws, hws, -⟩ := Except.bind_eq_ok.mp h
    rw [executedAll, executed_of_fold hv, executedAll_of_foldAll hws, List.append_nil]
end

theorem executedFor_eq : ∀ {es : List Expr} {ts : List Ty}, es.length ≤ ts.length →
    executedFor es ts = executedAll es
  | [], ts, _ => by simp [executedFor, executedAll]
  | e :: es, [], h => by simp at h
  | e :: es, t :: ts, h => by
    rw [executedFor, executedAll, executedFor_eq (Nat.le_of_succ_le_succ h)]

mutual
/-- Calls as reading builds them have a parameter for each argument, so no assignment is left out. -/
theorem executed_eq {xs : List Variable} : ∀ {e : Expr}, e.WellTyped xs →
    e.executed = e.assignments
  | constant _, _ | reference _, _ => rfl
  | binary op ty left right, h => by
    have hpart := h.of_part
    rw [executed, assignments, executed_eq (hpart left (by simp [parts])),
      executed_eq (hpart right (by simp [parts]))]
  | assign op ty target value, h => by
    rw [executed, assignments, executed_eq (h.of_part value (by simp [parts])),
      assignments_of_isAssignable h.holds.1, List.nil_append]
  | negate operand, h => executed_eq (e := operand) (h.of_part operand (by simp [parts]))
  | construct ty arguments, h => executedAll_eq fun p hp => h.of_part p hp
  | call f arguments, h => by
    have hlength : arguments.length ≤ f.parameters.length := by
      simpa using Nat.le_of_eq h.holds.2.length_eq
    rw [executed, assignments, executedFor_eq hlength]
    exact executedAll_eq fun p hp => h.of_part p hp
  | member base index, h =>
    executed_eq (e := base) (h.of_part base (by simp [parts]))
  | swizzle base letters indexes, h =>
    executed_eq (e := base) (h.of_part base (by simp [parts]))
theorem executedAll_eq {xs : List Variable} : ∀ {es : List Expr}, (∀ e ∈ es, e.WellTyped xs) →
    executedAll es = assignmentsAll es
  | [], _ => rfl
  | e :: es, h => by
    rw [executedAll, assignmentsAll, executed_eq (h e List.mem_cons_self),
      executedAll_eq fun e' he' => h e' (List.mem_cons_of_mem e he')]
end

end Expr

end ShaderExpr
