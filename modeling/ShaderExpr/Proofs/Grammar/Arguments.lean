import Mathlib.Data.List.Forall2
import ShaderExpr.Proofs.Grammar.Checks

namespace ShaderExpr

namespace Ty

theorem totalCount_append (types more : List Ty) :
    totalCount (types ++ more) = totalCount types + totalCount more := by
  induction types with
  | nil => simp [totalCount]
  | cons t types ih =>
    rw [List.cons_append, totalCount, totalCount, ih, Nat.add_assoc]

theorem totalCount_singleton (t : Ty) : totalCount [t] = t.componentCount := rfl

/-- Arguments of these types can stand in a constructor, and leave that many components missing. The
    count goes below zero where the last argument has more than is missing. -/
def Filling (ty : Ty) (types : List Ty) (missing : Int) : Prop :=
  (∃ t, types = [t] ∧ t.isMatrix ∧ ty.isMatrix ∧ missing = 0) ∨
  ((∀ t ∈ types, t.isBasic ∧ ¬(t.isMatrix ∧ ty.isMatrix)) ∧
    missing = ty.componentCount - totalCount types ∧
    (types ≠ [] → totalCount types.dropLast < ty.componentCount))

/-- An argument of type `t` is taken behind those of `types`, and changes how many components are
    missing. -/
def Takes (ty : Ty) (types : List Ty) (missing : Int) (t : Ty) (missing' : Int) : Prop :=
  0 < missing ∧ t.isBasic ∧
    ((t.isMatrix ∧ ty.isMatrix ∧ types = [] ∧ missing' = 0) ∨
      (¬(t.isMatrix ∧ ty.isMatrix) ∧ missing' = missing - t.componentCount))

theorem isBasic_of_isMatrix {t : Ty} (h : t.isMatrix) : t.isBasic := by
  cases t <;> simp_all [isMatrix, isBasic]

theorem filling_nil (ty : Ty) : ty.Filling [] ty.componentCount :=
  .inr ⟨by simp, by simp [totalCount], by simp⟩

/-- One more argument is checked against those in front of it only through what they leave. -/
theorem filling_append_singleton {ty t : Ty} {types : List Ty} {missing missing' : Int}
    (h : ty.Filling types missing) :
    ty.Filling (types ++ [t]) missing' ↔ ty.Takes types missing t missing' := by
  have hpositive (hm : ty.isMatrix) : 0 < ty.componentCount := by
    cases ty with
    | matrix s m n => cases m <;> cases n <;> simp [componentCount, Dim.toNat]
    | _ => simp [isMatrix] at hm
  rcases h with ⟨u, rfl, hu, hty, rfl⟩ | ⟨hall, rfl, hroom⟩
  · constructor
    · rintro (⟨v, hv, -⟩ | ⟨hall, -⟩)
      · simp at hv
      · exact absurd ⟨hu, hty⟩ (hall u (by simp)).2
    · rintro ⟨hlt, -⟩
      exact absurd hlt (by simp)
  · constructor
    · rintro (⟨v, hv, hvm, hty, hmissing⟩ | ⟨hall', hmissing, hroom'⟩)
      · obtain ⟨rfl, rfl⟩ : types = [] ∧ t = v := by simpa [List.append_eq_singleton_iff] using hv
        have := hpositive hty
        exact ⟨by simpa [totalCount] using this, isBasic_of_isMatrix hvm, .inl ⟨hvm, hty, rfl, hmissing⟩⟩
      · have hlt := hroom' (by simp)
        rw [List.dropLast_concat] at hlt
        rw [totalCount_append, totalCount_singleton] at hmissing
        obtain ⟨hbasic, hboth⟩ := hall' t (by simp)
        refine ⟨by omega, hbasic, .inr ⟨hboth, ?_⟩⟩
        omega
    · rintro ⟨hlt, hbasic, ⟨htm, hty, rfl, rfl⟩ | ⟨hboth, rfl⟩⟩
      · exact .inl ⟨t, rfl, htm, hty, rfl⟩
      · refine .inr ⟨fun u hu => ?_, ?_, fun _ => ?_⟩
        · rcases List.mem_append.mp hu with hu | hu
          · exact hall u hu
          · obtain rfl : u = t := by simpa using hu
            exact ⟨hbasic, hboth⟩
        · rw [totalCount_append, totalCount_singleton]
          omega
        · rw [List.dropLast_concat]
          omega

theorem Filling.of_append_singleton {ty t : Ty} {types : List Ty} {missing : Int}
    (h : ty.Filling (types ++ [t]) missing) : ∃ missing', ty.Filling types missing' := by
  rcases h with ⟨u, hu, -⟩ | ⟨hall, -, hroom⟩
  · obtain ⟨rfl, -⟩ : types = [] ∧ t = u := by simpa [List.append_eq_singleton_iff] using hu
    exact ⟨_, filling_nil ty⟩
  · refine ⟨_, .inr ⟨fun v hv => hall v (List.mem_append_left _ hv), rfl, fun _ => ?_⟩⟩
    have hlt := hroom (by simp)
    rw [List.dropLast_concat] at hlt
    rcases List.eq_nil_or_concat types with rfl | ⟨front, last, rfl⟩
    · exact hlt
    · rw [List.concat_eq_append, totalCount_append] at hlt
      rw [List.concat_eq_append, List.dropLast_concat]
      omega

/-- Arguments in front of others that can stand in a constructor can stand there, too. -/
theorem Filling.of_append {ty : Ty} {types more : List Ty} {missing : Int}
    (h : ty.Filling (types ++ more) missing) : ∃ missing', ty.Filling types missing' := by
  induction more generalizing types with
  | nil => exact ⟨missing, by simpa using h⟩
  | cons t more ih =>
    rw [List.append_cons] at h
    obtain ⟨missing', hfront⟩ := ih h
    exact hfront.of_append_singleton

theorem filledBy_iff {ty : Ty} {types : List Ty} : ty.FilledBy types ↔
    ∃ missing, ty.Filling types missing ∧ (0 < missing → ∃ s, types = [.scalar s]) := by
  constructor
  · rintro (⟨s, rfl, hcount⟩ | ⟨t, rfl, htm, hty⟩ | ⟨hall, hcount, hroom⟩)
    · refine ⟨_, .inr ⟨?_, rfl, ?_⟩, fun _ => ⟨s, rfl⟩⟩
      · simp [isBasic, isMatrix]
      · simpa [totalCount] using hcount
    · exact ⟨0, .inl ⟨t, rfl, htm, hty, rfl⟩, by simp⟩
    · exact ⟨_, .inr ⟨hall, rfl, hroom⟩, fun h => by omega⟩
  · rintro ⟨missing, ⟨t, rfl, htm, hty, -⟩ | ⟨hall, rfl, hroom⟩, hsingle⟩
    · exact .inr (.inl ⟨t, rfl, htm, hty⟩)
    · by_cases hlt : totalCount types < ty.componentCount
      · obtain ⟨s, rfl⟩ := hsingle (by omega)
        exact .inl ⟨s, rfl, by omega⟩
      · exact .inr (.inr ⟨hall, by omega, hroom⟩)

end Ty

namespace Reader

/-- Is a single scalar all that stands between the parentheses? -/
theorem singleScalar_iff {arguments : List Expr} :
    (match arguments with
      | [argument] => argument.isScalarValued
      | _ => false) = true ↔ ∃ s, arguments.map Expr.ty = [.scalar s] := by
  rcases arguments with _ | ⟨argument, _ | ⟨b, rest⟩⟩
  · simp
  · simp only [Expr.isScalarValued, List.map_cons, List.map_nil, List.cons.injEq, and_true]
    cases argument.ty <;> simp
  · simp

theorem takeComponents_decides (ty : Ty) (span : Span) (argument : Expr) (missing : Int)
    (arguments : List Expr) :
    (takeComponents ty span argument missing arguments).Decides fun result =>
      ty.Takes (arguments.map Expr.ty) missing argument.ty result.1 ∧
        result.2 = arguments ++ [argument] := by
  intro c
  unfold takeComponents
  by_cases hmissing : missing ≤ 0
  · rw [if_pos hmissing]
    exact ⟨yields_reportAt_bind fun c' => .pure trivial, fun result h => by
      have := h.1.1
      omega⟩
  · rw [if_neg hmissing]
    by_cases hbasic : argument.ty.isBasic
    · simp only [hbasic, Bool.not_true, Bool.false_eq_true, if_false]
      by_cases hboth : argument.ty.isMatrix ∧ ty.isMatrix
      · rw [if_pos (by simpa using hboth)]
        cases arguments with
        | nil =>
          refine ⟨.pure ⟨rfl, ⟨by omega, hbasic, .inl ⟨hboth.1, hboth.2, rfl, rfl⟩⟩, rfl⟩, ?_⟩
          rintro ⟨m, as⟩ ⟨⟨-, -, ⟨-, -, -, hm⟩ | ⟨hnot, -⟩⟩, has⟩
          · obtain rfl : as = [argument] := has
            obtain rfl : m = 0 := hm
            rfl
          · exact absurd hboth hnot
        | cons a as =>
          refine ⟨yields_reportAt_bind fun c' => .pure trivial, ?_⟩
          rintro result ⟨⟨-, -, ⟨-, -, hnil, -⟩ | ⟨hnot, -⟩⟩, -⟩
          · simp at hnil
          · exact absurd hboth hnot
      · rw [if_neg (by simpa using hboth)]
        refine ⟨.pure ⟨rfl, ⟨by omega, hbasic, .inr ⟨hboth, rfl⟩⟩, rfl⟩, ?_⟩
        rintro ⟨m, as⟩ ⟨⟨-, -, ⟨hm, hty, -, -⟩ | ⟨-, hm⟩⟩, has⟩
        · exact absurd ⟨hm, hty⟩ hboth
        · obtain rfl : as = arguments ++ [argument] := has
          obtain rfl : m = missing - argument.ty.componentCount := hm
          rfl
    · simp only [hbasic, Bool.not_false, if_true]
      refine ⟨yields_reportAt_bind fun c' => .pure trivial, ?_⟩
      rintro result ⟨⟨-, hno, -⟩, -⟩
      exact absurd hno hbasic

end Reader

namespace Candidates

/-- Candidates that arguments of these types leave, the first of which is argument `n`. An argument
    that no candidate accepts leaves none. -/
def narrow (c : Candidates) (n : Nat) (types : List Ty) : Candidates :=
  (types.zipIdx n).foldl (fun c argument => c.takeArgument argument.2 argument.1) c

@[simp] theorem narrow_nil (c : Candidates) (n : Nat) : c.narrow n [] = c := rfl

@[simp] theorem narrow_cons (c : Candidates) (n : Nat) (ty : Ty) (types : List Ty) :
    c.narrow n (ty :: types) = (c.takeArgument n ty).narrow (n + 1) types := rfl

theorem resolve?_eq (functions : List Function) (types : List Ty) :
    resolve? functions types =
      (((ofFunctions functions).narrow 0 types).takeCount types.length).choice? := rfl

/-- A function stays as long as its parameters accept the arguments. -/
theorem narrow_single {f : Function} : ∀ {types : List Ty} {n : Nat} (exact : Bool),
    List.Forall₂ (fun t u => t.convertsTo u = true) types (f.parameters.drop n) →
    ∃ exact', (⟨[(f, exact)]⟩ : Candidates).narrow n types = ⟨[(f, exact')]⟩
  | [], _, exact, _ => ⟨exact, rfl⟩
  | t :: types, n, exact, h => by
    obtain ⟨u, rest, hu, hrest, hdrop⟩ := List.forall₂_cons_left_iff.mp h
    have hparameter : f.parameters[n]? = some u := by
      rw [← List.head?_drop, hdrop]
      rfl
    have htail : f.parameters.drop (n + 1) = rest := by
      rw [← List.tail_drop, hdrop]
      rfl
    have hstep : (⟨[(f, exact)]⟩ : Candidates).takeArgument n t = ⟨[(f, exact && u = t)]⟩ := by
      simp [takeArgument, hparameter, hu]
    rw [narrow_cons, hstep]
    exact narrow_single _ (htail ▸ hrest)

/-- The only function there is is chosen, if it takes the arguments. -/
theorem resolve?_single {f : Function} {types : List Ty}
    (h : List.Forall₂ (fun t u => t.convertsTo u = true) types f.parameters) :
    resolve? [f] types = some f := by
  obtain ⟨exact, hexact⟩ := narrow_single (n := 0) true h
  rw [resolve?_eq, ofFunctions, List.map_singleton, hexact]
  simp [takeCount, choice?, h.length_eq]

/-- Arguments only ever exclude candidates. -/
theorem isEmpty_narrow {c : Candidates} {n : Nat} {types : List Ty} (h : c.isEmpty) :
    (c.narrow n types).isEmpty := by
  induction types generalizing c n with
  | nil => exact h
  | cons ty types ih =>
    rw [narrow_cons]
    refine ih ?_
    simp only [isEmpty, List.isEmpty_iff] at h ⊢
    simp [takeArgument, h]

/-- Where no candidate is left, there is none to choose. -/
theorem choice?_takeCount_of_isEmpty {c : Candidates} {n : Nat} (h : c.isEmpty) :
    (c.takeCount n).choice? = none := by
  simp only [isEmpty, List.isEmpty_iff] at h
  simp [takeCount, choice?, h]

end Candidates

end ShaderExpr
