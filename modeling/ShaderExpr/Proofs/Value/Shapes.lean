import ShaderExpr.Proofs.Collections
import ShaderExpr.Proofs.Value.Parts

namespace ShaderExpr

namespace Ty

/-- Basic types of one shape: scalars, vectors of one length, matrices of the same columns and
    rows. -/
def sameShape : Ty → Ty → Bool
  | .scalar _, .scalar _ => true
  | .vector _ m, .vector _ n => m = n
  | .matrix _ columns rows, .matrix _ columns' rows' => columns = columns' && rows = rows'
  | _, _ => false

/-- Basic types of different shapes with equally many components: vectors of four and matrices of
    two by two, and matrices with columns and rows exchanged. -/
def regroups : Ty → Ty → Bool
  | .vector _ n, .matrix _ columns rows | .matrix _ columns rows, .vector _ n =>
    n = .four && columns = .two && rows = .two
  | .matrix _ columns rows, .matrix _ columns' rows' =>
    columns = rows' && rows = columns' && columns ≠ rows
  | _, _ => false

/-- A value of the one type is taken for one of the other. Their numbers of components are compared,
    which tells most shapes apart but not all. -/
def accepts (found expected : Ty) : Bool :=
  found = expected || found.sameShape expected || found.regroups expected

/-- The numbers of components tell shapes apart, but for those that are regrouped. -/
theorem componentCount_beq (t u : Ty) :
    (t.isBasic && u.isBasic && t.componentCount == u.componentCount) =
      (t.sameShape u || t.regroups u) := by
  cases t with
  | void | struct => rfl
  | scalar s =>
    cases u with
    | void | struct | scalar => rfl
    | vector _ n => cases n <;> rfl
    | matrix _ columns rows => cases columns <;> cases rows <;> rfl
  | vector s m =>
    cases u with
    | void | struct => rfl
    | scalar => cases m <;> rfl
    | vector _ n => cases m <;> cases n <;> rfl
    | matrix _ columns rows => cases m <;> cases columns <;> cases rows <;> rfl
  | matrix s columns rows =>
    cases u with
    | void | struct => rfl
    | scalar => cases columns <;> cases rows <;> rfl
    | vector _ n => cases columns <;> cases rows <;> cases n <;> rfl
    | matrix _ columns' rows' =>
      cases columns <;> cases rows <;> cases columns' <;> cases rows' <;> rfl

theorem membersSize_drop (members : List (String × Ty)) (n : Nat) :
    membersSize (members.take n) + membersSize (members.drop n) = membersSize members := by
  induction members generalizing n with
  | nil => simp [membersSize]
  | cons m members ih =>
    cases n with
    | zero => simp [membersSize]
    | succ n =>
      rw [List.take_succ_cons, List.drop_succ_cons, membersSize, membersSize, Nat.add_assoc, ih]

end Ty

namespace Value

variable {v w : Value} {ty : Ty} {values : List Value}

/-- Nothing but the types decides about a conversion. -/
theorem convert_of_accepts (h : v.ty.accepts ty) : ∃ w, v.convert ty = .ok w := by
  unfold convert
  split
  · exact ⟨v, rfl⟩
  · rename_i hty
    rw [Ty.accepts, decide_eq_false hty, Bool.false_or] at h
    rw [Ty.componentCount_beq, if_pos h]
    exact ⟨_, rfl⟩

theorem convert_of_not_accepts (h : v.ty.accepts ty = false) :
    v.convert ty = .error (.typeMismatch ty v.ty) := by
  rw [Ty.accepts, Bool.or_assoc, Bool.or_eq_false_iff, decide_eq_false_iff_not] at h
  rw [convert, if_neg h.1, Ty.componentCount_beq, h.2, if_neg Bool.false_ne_true]

theorem accepts_iff : (∃ w, v.convert ty = .ok w) ↔ v.ty.accepts ty := by
  refine ⟨fun ⟨w, hw⟩ => ?_, fun h => ?_⟩
  · cases haccepts : v.ty.accepts ty with
    | true => rfl
    | false => simp [convert_of_not_accepts haccepts] at hw
  · exact convert_of_accepts h

/-- What a struct is made of fits its members as far as both go, and the members behind have no
    bytes. -/
theorem ofMembers_isOk_iff (struct : ty.isStruct) : (∃ v, ofMembers ty values = .ok v) ↔
    (∀ p ∈ values.zip ty.members, p.1.ty.accepts p.2.2) ∧
      Ty.membersSize (ty.members.drop values.length) = 0 := by
  have hsplit := Ty.membersSize_drop ty.members values.length
  constructor
  · rintro ⟨v, hv⟩
    obtain ⟨converted, hconverted, hty, hdata⟩ := ofMembers_eq_ok hv
    refine ⟨fun p hp => ?_, ?_⟩
    · obtain ⟨i, hi⟩ := List.mem_iff_getElem?.mp hp
      obtain ⟨w, -, hw⟩ := Except.getElem?_mapM hconverted hi
      exact accepts_iff.mp ⟨w, hw⟩
    · have hlength := length_flatMap_data (typed_of_converted hconverted)
      rw [← hdata, v.size_eq, hty, Ty.size_eq_membersSize struct] at hlength
      omega
  · rintro ⟨haccepts, hbehind⟩
    obtain ⟨converted, hconverted, -⟩ := Except.mapM_total (P := fun _ => True)
      (f := fun p : Value × String × Ty => p.1.convert p.2.2) fun p hp =>
        (accepts_iff.mpr (haccepts p hp)).imp fun _ hw => ⟨hw, trivial⟩
    have hsize : (converted.flatMap (·.data)).length = ty.size := by
      rw [length_flatMap_data (typed_of_converted hconverted), Ty.size_eq_membersSize struct]
      omega
    obtain ⟨v, hv, -⟩ := ofData_total struct hsize
    exact ⟨v, Except.bind_eq_ok.mpr ⟨converted, hconverted, hv⟩⟩

theorem isBasic_of_convert {s : ScalarType} (h : v.convert ty = .ok w)
    (hs : ty.component? = some s) : v.ty.isBasic := by
  unfold convert at h
  split at h
  · rename_i hty
    exact Ty.isBasic_of_component? (hty ▸ hs)
  · split at h
    · rename_i hshape
      simp only [Bool.and_eq_true] at hshape
      exact hshape.1.1
    · simp at h

/-- A value is converted to a type just if it has the type already, has the same shape, or can be
    regrouped to the other shape, and then it is converted component by component; the reason for
    all else is that the types do not match. A struct takes values just if each of them that has a
    member at its place can be converted to the type of the member, and the members behind the last
    value have no bytes. Values in excess are left out. -/
theorem accepted_iff (v : Value) (ty : Ty) (values : List Value) :
    ((∃ w, v.convert ty = .ok w) ↔ v.ty = ty ∨ v.ty.sameShape ty ∨ v.ty.regroups ty) ∧
    (∀ w, v.convert ty = .ok w → w.ty = ty ∧ ∀ s, ty.component? = some s →
      ∀ i < ty.componentCount, w.cell i = (v.cell i).convert s) ∧
    ((∀ w, v.convert ty ≠ .ok w) → v.convert ty = .error (.typeMismatch ty v.ty)) ∧
    (ty.isStruct →
      ((∃ u, ofMembers ty values = .ok u) ↔
        (∀ x name t, (x, name, t) ∈ values.zip ty.members →
          x.ty = t ∨ x.ty.sameShape t ∨ x.ty.regroups t) ∧
        Ty.membersSize (ty.members.drop values.length) = 0) ∧
      ofMembers ty (values.take ty.members.length) = ofMembers ty values) := by
  have haccepts (v : Value) (ty : Ty) :
      v.ty.accepts ty ↔ v.ty = ty ∨ v.ty.sameShape ty ∨ v.ty.regroups ty := by
    simp [Ty.accepts, or_assoc]
  refine ⟨accepts_iff.trans (haccepts v ty), fun w hw => ?_, fun hnone => ?_,
    fun struct => ⟨(ofMembers_isOk_iff struct).trans ?_, ?_⟩⟩
  · exact ⟨ty_of_convert hw, fun s hs i hi => cell_of_convert hw (isBasic_of_convert hw hs) hs hi⟩
  · refine convert_of_not_accepts (Bool.eq_false_iff.mpr fun h => ?_)
    obtain ⟨w, hw⟩ := convert_of_accepts h
    exact hnone w hw
  · simp only [haccepts, Prod.forall]
  · rw [ofMembers, ofMembers, List.take_length_zip]

/-- A vector of four is taken for a matrix of two by two, also for a member behind which values in
    excess and a member without bytes follow. -/
theorem accepted_iff_square :
    let square := Ty.matrix .float .two .two
    let light := Ty.struct (some "Light") [("color", square), ("none", .struct none [])]
    let v := ofComponents (.vector .float .four) [.int 1, .int 2, .int 3, .int 4]
    (∃ w, v.convert square = .ok w ∧ w.ty = square) ∧
      (∃ s, ofMembers light [v] = .ok s) ∧
      ofMembers (.struct none [("color", square)]) [v, v] =
        ofMembers (.struct none [("color", square)]) [v] ∧
      v.convert (.scalar .float) = .error (.typeMismatch (.scalar .float) v.ty) := by
  intro square light v
  obtain ⟨hsquare, hresult, -, -⟩ := accepted_iff v square []
  obtain ⟨w, hw⟩ := hsquare.mpr (.inr (.inr rfl))
  obtain ⟨-, -, -, hmembers⟩ := accepted_iff v light [v]
  obtain ⟨-, -, -, hexcess⟩ := accepted_iff v (.struct none [("color", square)]) [v, v]
  refine ⟨⟨w, hw, (hresult w hw).1⟩, (hmembers rfl).1.mpr ⟨?_, rfl⟩, ((hexcess rfl).2).symm, ?_⟩
  · intro x name t hx
    obtain ⟨rfl, -, rfl⟩ : x = v ∧ name = "color" ∧ t = square := by
      simpa [light, Ty.members] using hx
    exact .inr (.inr rfl)
  · obtain ⟨hscalar, -, hrefused, -⟩ := accepted_iff v (.scalar .float) []
    refine hrefused fun w hw => ?_
    have hdiffers := hscalar.mp ⟨w, hw⟩
    revert hdiffers
    decide

end Value

end ShaderExpr
