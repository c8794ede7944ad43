import ShaderExpr.Proofs.Collections
import ShaderExpr.Proofs.Module.Rules

namespace ShaderExpr.Typing

variable {known known' : List Instruction}

theorem HasType.mono {id t : Id} (h : HasType known id t) (hsub : known ⊆ known') :
    HasType known' id t := by
  obtain ⟨i, hi, hresult, htype⟩ := h
  exact ⟨i, hsub hi, hresult, htype⟩

theorem IsConstant.mono {id : Id} (h : IsConstant known id) (hsub : known ⊆ known') :
    IsConstant known' id := by
  obtain ⟨i, hi, hresult, hconstant⟩ := h
  exact ⟨i, hsub hi, hresult, hconstant⟩

theorem IsDataType.mono {t : Id} (h : IsDataType known t) (hsub : known ⊆ known') :
    IsDataType known' t := by
  obtain ⟨i, hi, hresult, hop⟩ := h
  exact ⟨i, hsub hi, hresult, hop⟩

theorem IsScalar.mono {k : Kind} {t : Id} (h : IsScalar known k t) (hsub : known ⊆ known') :
    IsScalar known' k t := by
  cases k with
  | boolean | unsigned | float => exact hsub h
  | integer | floating =>
    obtain ⟨n, hn⟩ := h
    exact ⟨n, hsub hn⟩

theorem Lanes.mono {k : Kind} {t : Id} {n : Nat} (h : Lanes known k t n) (hsub : known ⊆ known') :
    Lanes known' k t n := by
  cases h with
  | scalar kind => exact .scalar (kind.mono hsub)
  | vector declared kind => exact .vector (hsub declared) (kind.mono hsub)

theorem Parts.mono {t : Id} {types : List Id} (h : Parts known t types) (hsub : known ⊆ known') :
    Parts known' t types := by
  cases h with
  | vector declared => exact .vector (hsub declared)
  | matrix declared => exact .matrix (hsub declared)
  | struct declared => exact .struct (hsub declared)

theorem Path.mono {t u : Id} {indexes : List Nat} (h : Path known t indexes u)
    (hsub : known ⊆ known') : Path known' t indexes u := by
  induction h with
  | nil => exact .nil
  | cons composite part _ ih => exact .cons (composite.mono hsub) part ih

theorem IsIndex.mono {id : Id} {index : Nat} (h : IsIndex known id index)
    (hsub : known ⊆ known') : IsIndex known' id index := by
  obtain ⟨t, word, ht, hconstant, hword⟩ := h
  exact ⟨t, word, hsub ht, hsub hconstant, hword⟩

theorem LiteralWords.mono {t : Id} {n : Nat} (h : LiteralWords known t n)
    (hsub : known ⊆ known') : LiteralWords known' t n := by
  cases h with
  | int declared => exact .int (hsub declared)
  | float declared => exact .float (hsub declared)

theorem ExtendedRule.mono {op : ExtendedOp} {t : Id} {operands : List Id}
    (h : ExtendedRule known op t operands) (hsub : known ⊆ known') :
    ExtendedRule known' op t operands := by
  cases h with
  | uniform form lanes same =>
    exact .uniform form (lanes.mono hsub) fun x hx => (same x hx).mono hsub
  | length scalar lanes operand =>
    exact .length (scalar.mono hsub) (lanes.imp_right fun ⟨n, hn⟩ => ⟨n, hsub hn⟩)
      (operand.mono hsub)
  | distance scalar lanes left right =>
    exact .distance (scalar.mono hsub) (lanes.imp_right fun ⟨n, hn⟩ => ⟨n, hsub hn⟩)
      (left.mono hsub) (right.mono hsub)
  | cross three scalar left right =>
    exact .cross (hsub three) (scalar.mono hsub) (left.mono hsub) (right.mono hsub)

theorem forall₂_hasType_mono {xs ts : List Id} (h : List.Forall₂ (HasType known) xs ts)
    (hsub : known ⊆ known') : List.Forall₂ (HasType known') xs ts :=
  h.imp fun _ _ hx => hx.mono hsub

theorem Rule.mono {i : Instruction} (h : Rule known i) (hsub : known ⊆ known') :
    Rule known' i := by
  cases h with
  | frame frame => exact .frame frame
  | typeVoid => exact .typeVoid
  | typeScalar => exact .typeScalar
  | typeVector component least greatest => exact .typeVector (component.mono hsub) least greatest
  | typeMatrix column least greatest => exact .typeMatrix (hsub column) least greatest
  | typeStruct data => exact .typeStruct fun m hm => (data m hm).mono hsub
  | typePointer pointee => exact .typePointer (pointee.mono hsub)
  | typeFunction nothing => exact .typeFunction (hsub nothing)
  | constantBool truth boolean => exact .constantBool truth (boolean.mono hsub)
  | constant literal => exact .constant (literal.mono hsub)
  | constantComposite composite filled constants =>
    exact .constantComposite (composite.mono hsub) (forall₂_hasType_mono filled hsub)
      fun x hx => (constants x hx).mono hsub
  | function declared => exact .function (hsub declared)
  | var pointer one starts =>
    exact .var (hsub pointer) one
      fun x hx => ⟨(starts x hx).1.mono hsub, (starts x hx).2.mono hsub⟩
  | load pointer operand => exact .load (hsub pointer) (operand.mono hsub)
  | store pointer place value => exact .store (hsub pointer) (place.mono hsub) (value.mono hsub)
  | accessChain base operand constants inside pointer =>
    exact .accessChain (hsub base) (operand.mono hsub) (constants.imp fun _ _ hx => hx.mono hsub)
      (inside.mono hsub) (hsub pointer)
  | compositeConstruct composite filled =>
    exact .compositeConstruct (composite.mono hsub) (forall₂_hasType_mono filled hsub)
  | compositeExtract operand inside =>
    exact .compositeExtract (operand.mono hsub) (inside.mono hsub)
  | compositeInsert part whole inside =>
    exact .compositeInsert (part.mono hsub) (whole.mono hsub) (inside.mono hsub)
  | vectorShuffle result count left left_vector right right_vector inside =>
    exact .vectorShuffle (hsub result) count (left.mono hsub) (hsub left_vector)
      (right.mono hsub) (hsub right_vector) inside
  | uniform form lanes same =>
    exact .uniform form (lanes.mono hsub) fun x hx => (same x hx).mono hsub
  | comparison form result lanes same =>
    exact .comparison form (result.mono hsub) (lanes.mono hsub) fun x hx => (same x hx).mono hsub
  | conversion form result lanes operand other =>
    exact .conversion form (result.mono hsub) (lanes.mono hsub) (operand.mono hsub) other
  | fConvert result lanes operand other =>
    exact .fConvert (result.mono hsub) (lanes.mono hsub) (operand.mono hsub) other
  | shift form result base lanes amount =>
    exact .shift form (result.mono hsub) (base.mono hsub) (lanes.mono hsub) (amount.mono hsub)
  | select result condition lanes left right =>
    exact .select (result.mono hsub) (condition.mono hsub) (lanes.mono hsub) (left.mono hsub)
      (right.mono hsub)
  | vectorTimesScalar vector floating left right =>
    exact .vectorTimesScalar (hsub vector) (floating.mono hsub) (left.mono hsub)
      (right.mono hsub)
  | matrixTimesScalar matrix column floating left right =>
    exact .matrixTimesScalar (hsub matrix) (hsub column) (floating.mono hsub) (left.mono hsub)
      (right.mono hsub)
  | vectorTimesMatrix result floating left vector right matrix column =>
    exact .vectorTimesMatrix (hsub result) (floating.mono hsub) (left.mono hsub) (hsub vector)
      (right.mono hsub) (hsub matrix) (hsub column)
  | matrixTimesVector result floating left matrix column right vector =>
    exact .matrixTimesVector (hsub result) (floating.mono hsub) (left.mono hsub) (hsub matrix)
      (hsub column) (right.mono hsub) (hsub vector)
  | matrixTimesMatrix result column floating left left_matrix right right_matrix right_column =>
    exact .matrixTimesMatrix (hsub result) (hsub column) (floating.mono hsub) (left.mono hsub)
      (hsub left_matrix) (right.mono hsub) (hsub right_matrix) (hsub right_column)
  | dot vector floating left right =>
    exact .dot (hsub vector) (floating.mono hsub) (left.mono hsub) (right.mono hsub)
  | quantifier form boolean vector component operand =>
    exact .quantifier form (boolean.mono hsub) (hsub vector) (component.mono hsub)
      (operand.mono hsub)
  | extInst imported named typed => exact .extInst (hsub imported) named (typed.mono hsub)

/-- If an instruction declares a matrix type, the columns of it float. -/
def FloatingColumns (known : List Instruction) (i : Instruction) : Prop :=
  ∀ t c n, i = ⟨.typeMatrix, [t, c, n]⟩ →
    ∃ u k, ⟨.typeVector, [c, u, k]⟩ ∈ known ∧ IsScalar known .floating u

theorem FloatingColumns.mono {i : Instruction} (h : FloatingColumns known i)
    (hsub : known ⊆ known') : FloatingColumns known' i := by
  intro t c n hi
  obtain ⟨u, k, hvector, hscalar⟩ := h t c n hi
  exact ⟨u, k, hsub hvector, hscalar.mono hsub⟩

theorem floatingColumns_of_op {i : Instruction} (h : i.op ≠ .typeMatrix) :
    FloatingColumns known i := by
  rintro t c n rfl
  exact absurd rfl h

/-- Instructions give a meaning only to ids that others do not. So more instructions in front only
    help: what was declared stays declared, and code stays well typed. -/
def Apart (is known : List Instruction) : Prop :=
  ∀ i ∈ is, ∀ r, i.result? = some r → ∀ j ∈ known, j.result? ≠ some r

theorem follows_append {xs ys : List Instruction} :
    Follows known (xs ++ ys) ↔ Follows known xs ∧ Follows (known ++ xs) ys := by
  induction xs generalizing known with
  | nil => simp [Follows]
  | cons x xs ih =>
    simp only [List.cons_append, Follows, ih, List.append_assoc, List.nil_append, and_assoc]

theorem follows_singleton {i : Instruction} (rule : Rule known i) (apart : Apart [i] known) :
    Follows known [i] :=
  ⟨rule, fun j hj r hr => apart i (by simp) r hr j hj, trivial⟩

theorem follows_apart {xs : List Instruction} (h : Follows known xs) : Apart xs known := by
  intro i hi r hr j hj
  obtain ⟨ys, zs, rfl⟩ := List.append_of_mem hi
  obtain ⟨-, -, hi, -⟩ := follows_append.mp h
  exact hi j (List.mem_append_left ys hj) r hr

/-- An id has one meaning. -/
theorem Follows.unique {xs : List Instruction} (h : Follows known xs) {i j : Instruction}
    (hi : i ∈ xs) (hj : j ∈ xs) {r : Id} (hir : i.result? = some r) (hjr : j.result? = some r) :
    i = j := by
  induction xs generalizing known with
  | nil => simp at hi
  | cons x xs ih =>
    obtain ⟨-, -, hrest⟩ := h
    have hx : ∀ k ∈ xs, k.result? = some r → x.result? ≠ some r := fun k hk hkr =>
      follows_apart hrest k hk r hkr x (List.mem_append_right known (List.mem_singleton_self x))
    rcases List.mem_cons.mp hi with rfl | hi'
    · rcases List.mem_cons.mp hj with rfl | hj'
      · rfl
      · exact absurd hir (hx j hj' hjr)
    · rcases List.mem_cons.mp hj with rfl | hj'
      · exact absurd hjr (hx i hi' hir)
      · exact ih hrest hi' hj'

theorem Follows.mono {xs : List Instruction} (h : Follows known xs) (hsub : known ⊆ known')
    (apart : Apart xs known') : Follows known' xs := by
  induction xs generalizing known known' with
  | nil => trivial
  | cons x xs ih =>
    obtain ⟨hrule, hfresh, hrest⟩ := h
    have hx : Apart xs [x] := fun i hi r hr j hj =>
      follows_apart hrest i hi r hr j (List.mem_append_right known hj)
    refine ⟨hrule.mono hsub, fun j hj r hr => apart x (by simp) r hr j hj, ih hrest ?_ ?_⟩
    · intro j hj
      rcases List.mem_append.mp hj with hj | hj
      · exact List.mem_append_left _ (hsub hj)
      · exact List.mem_append_right _ hj
    · intro i hi r hr j hj
      rcases List.mem_append.mp hj with hj | hj
      · exact apart i (List.mem_cons_of_mem x hi) r hr j hj
      · exact hx i hi r hr j hj

end ShaderExpr.Typing
