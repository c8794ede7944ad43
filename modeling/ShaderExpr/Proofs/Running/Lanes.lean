import ShaderExpr.Proofs.Collections
import ShaderExpr.Proofs.Faults.Operations
import ShaderExpr.Proofs.Running.Conversion
import ShaderExpr.Proofs.Running.Operators
import ShaderExpr.Proofs.Value.Products

namespace ShaderExpr

namespace Ty

/-- Type of a single lane. -/
def lane : Ty → Ty
  | .vector s _ => .scalar s
  | ty => ty

/-- Number of lanes, where there is more than one. -/
def width? : Ty → Option Dim
  | .vector _ n => some n
  | _ => none

/-- A scalar, or a vector of the given number of lanes. -/
def isLaned (width : Option Dim) : Ty → Bool
  | .scalar _ => true
  | .vector _ n => width = some n
  | _ => false

theorem componentCount_of_width? {ty : Ty} {n : Dim} (h : ty.width? = some n) :
    ty.componentCount = n.toNat := by
  cases ty with
  | void | scalar | matrix | struct => simp [width?] at h
  | vector => rw [componentCount, Option.some.inj h]

theorem isLaned_cases {t ty : Ty} (laned : t.isLaned ty.width?) :
    (∃ s, t = .scalar s) ∨ ∃ s n, t = .vector s n ∧ ty.componentCount = n.toNat := by
  cases t with
  | void | matrix | struct => simp [isLaned] at laned
  | scalar s => exact .inl ⟨s, rfl⟩
  | vector s n =>
    exact .inr ⟨s, n, rfl, componentCount_of_width? (by simpa [isLaned] using laned)⟩

theorem component?_lane (ty : Ty) : ty.lane.component? = ty.component? := by
  cases ty with
  | void | scalar | vector | matrix | struct => rfl

end Ty

namespace Signature

/-- The overload over single components. -/
def single (g : Signature) : Signature := ⟨g.builtin, g.result.lane, g.parameters.map Ty.lane⟩

/-- The overload for arguments of which the scalars are repeated. -/
def wide (g : Signature) : Signature :=
  { g with parameters := g.parameters.map (Build.widened (Build.widthOf g)) }

/-- Whether arguments and result of an overload have the same lanes can be computed. -/
def isLanewise (g : Signature) : Bool :=
  g.result.isLaned g.result.width? && g.parameters.all (·.isLaned g.result.width?) &&
    Build.widthOf g = g.result.width? && g.single ∈ g.builtin.overloads &&
    g.wide ∈ g.builtin.overloads

/-- Arguments and result have the same lanes, and there are overloads for a single lane and for
    arguments without scalars. -/
structure Lanewise (g : Signature) : Prop where
  result : g.result.isLaned g.result.width?
  parameters : ∀ t ∈ g.parameters, t.isLaned g.result.width?
  width : Build.widthOf g = g.result.width?
  single : g.single ∈ g.builtin.overloads
  wide : g.wide ∈ g.builtin.overloads

theorem lanewise_of_known {g : Signature} (known : g ∈ g.builtin.overloads)
    (plain : g.builtin.isReducing = false) : g.Lanewise := by
  have hall := Builtin.of_all_overloads (P := fun g => g.builtin.isReducing || g.isLanewise)
    (by decide +kernel) known
  rw [plain, Bool.false_or] at hall
  simp only [isLanewise, Bool.and_eq_true, decide_eq_true_eq, List.all_eq_true] at hall
  obtain ⟨⟨⟨⟨result, parameters⟩, width⟩, single⟩, wide⟩ := hall
  exact ⟨result, parameters, width, single, wide⟩

end Signature

namespace Value

/-- Lane of an argument or a result. A scalar is the same in all lanes. -/
def lane (v : Value) (i : Nat) : Value := if v.ty.isScalar then v else (v.element? i).getD v

/-- A scalar is repeated, if there is a number of lanes to repeat it for. -/
def widened (width : Option Dim) (v : Value) : Value :=
  match v.ty, width with
  | .scalar s, some n => ofComponents (.vector s n) (List.replicate n.toNat (v.cell 0))
  | _, _ => v

variable {v : Value} {ty : Ty} {s : ScalarType} {n : Dim} {i : Nat}

theorem lane_of_scalar (hty : v.ty = .scalar s) : v.lane i = v := by
  have hscalar : v.ty.isScalar := hty ▸ rfl
  rw [lane, if_pos hscalar]

theorem element?_lane (hty : v.ty = .vector s n) (hi : i < n.toNat) :
    v.element? i = some (v.lane i) ∧ (v.lane i).ty = .scalar s ∧ (v.lane i).cell 0 = v.cell i := by
  have hscalar : v.ty.isScalar = false := hty ▸ rfl
  obtain ⟨w, hw, hwty, hget⟩ := element?_total hty rfl hi
  have hlane : v.lane i = w := by
    rw [lane, if_neg (Bool.not_eq_true _ ▸ hscalar), hw, Option.getD_some]
  have hcell := hget 0 Nat.zero_lt_one
  rw [Ty.componentCount, Nat.mul_one, Nat.add_zero] at hcell
  rw [hlane, hwty, cell, cell, hcell]
  exact ⟨hw, rfl, rfl⟩

/-- A lane is a single component. -/
theorem ty_lane (laned : v.ty.isLaned ty.width?) (hi : i < ty.componentCount) :
    (v.lane i).ty = v.ty.lane ∧ ∃ s, v.ty.lane = .scalar s := by
  obtain ⟨s, hty⟩ | ⟨s, n, hty, hcount⟩ := Ty.isLaned_cases laned
  · rw [lane_of_scalar hty, hty]
    exact ⟨rfl, s, rfl⟩
  · obtain ⟨-, hlane, -⟩ := element?_lane hty (hcount ▸ hi)
    rw [hlane, hty]
    exact ⟨rfl, s, rfl⟩

theorem argumentComponent?_eq (laned : v.ty.isLaned ty.width?) (hi : i < ty.componentCount) :
    Builtin.argumentComponent? v i = some ((v.lane i).cell 0) := by
  obtain ⟨s, hty⟩ | ⟨s, n, hty, hcount⟩ := Ty.isLaned_cases laned
  · have hs : v.ty.component? = some s := hty ▸ rfl
    have hscalar : v.ty.isScalar := hty ▸ rfl
    have hfirst : 0 < v.ty.componentCount := hty ▸ Nat.zero_lt_one
    rw [lane_of_scalar hty, Builtin.argumentComponent?, if_pos hscalar, (get?_eq_cell hs hfirst).1]
  · have hs : v.ty.component? = some s := hty ▸ rfl
    have hscalar : ¬v.ty.isScalar := by simp [hty, Ty.isScalar]
    rw [hcount] at hi
    have hin : i < v.ty.componentCount := hty ▸ hi
    obtain ⟨-, -, hcell⟩ := element?_lane hty hi
    rw [hcell, Builtin.argumentComponent?, if_neg hscalar, (get?_eq_cell hs hin).1]

/-- The lanes of a value of which all components are known. -/
theorem cell_lane_self (laned : v.ty.isLaned v.ty.width?) (hi : i < v.ty.componentCount) :
    (v.lane i).cell 0 = v.cell i := by
  obtain ⟨s, hty⟩ | ⟨s, n, hty, hcount⟩ := Ty.isLaned_cases laned
  · have hfirst : i = 0 := by simpa [hty, Ty.componentCount] using hi
    rw [lane_of_scalar hty, hfirst]
  · exact (element?_lane hty (hcount ▸ hi)).2.2

theorem Canonical.lane (hv : v.Canonical) (laned : v.ty.isLaned ty.width?)
    (hi : i < ty.componentCount) : (v.lane i).Canonical := by
  obtain ⟨s, hty⟩ | ⟨s, n, hty, hcount⟩ := Ty.isLaned_cases laned
  · rwa [lane_of_scalar hty]
  · exact hv.element? (element?_lane hty (hcount ▸ hi)).1

/-- Canonical values are told apart by their components. -/
theorem Canonical.eq_of_cells {w : Value} (hv : v.Canonical) (hw : w.Canonical) (hty : v.ty = w.ty)
    (basic : v.ty.isBasic) (h : ∀ i < v.ty.componentCount, v.cell i = w.cell i) : v = w := by
  obtain ⟨s, hs⟩ := Ty.component?_of_isBasic basic
  refine hv.ext hw hty basic fun i hi => ?_
  rw [(get?_eq_cell hs hi).1, h i hi, (get?_eq_cell (hty ▸ hs) (hty ▸ hi)).1]

theorem ty_widened (width : Option Dim) (v : Value) :
    (v.widened width).ty = Build.widened width v.ty := by
  unfold widened
  split
  · rename_i s n hty
    rw [ofComponents_ty, hty, Build.widened]
  · rename_i hother
    unfold Build.widened
    split
    · rename_i s n hty
      exact (hother s n hty rfl).elim
    · rfl

theorem widened_of_vector (hty : v.ty = .vector s n) (width : Option Dim) :
    v.widened width = v := by
  simp only [widened, hty]

theorem widened_of_scalar (hty : v.ty = .scalar s) :
    v.widened (some n) = ofComponents (.vector s n) (List.replicate n.toNat (v.cell 0)) := by
  simp only [widened, hty]

theorem cell_widened (hty : v.ty = .scalar s) (hi : i < n.toNat) :
    (v.widened (some n)).cell i = v.cell 0 := by
  have hs : v.ty.component? = some s := hty ▸ rfl
  have hfirst : 0 < v.ty.componentCount := hty ▸ Nat.zero_lt_one
  rw [widened_of_scalar hty]
  exact cell_ofComponents_of_type rfl hi (List.getElem?_replicate_of_lt hi) (type_cell hs hfirst)

/-- Repeating scalars changes no lane. -/
theorem cell_lane_widened (laned : v.ty.isLaned ty.width?) (hi : i < ty.componentCount) :
    ((v.widened ty.width?).lane i).cell 0 = (v.lane i).cell 0 := by
  obtain ⟨s, hty⟩ | ⟨s, n, hty, -⟩ := Ty.isLaned_cases laned
  · cases hwidth : ty.width? with
    | none => simp only [widened, hty]
    | some n =>
      rw [Ty.componentCount_of_width? hwidth] at hi
      have hwide : (v.widened (some n)).ty = .vector s n := by rw [ty_widened, hty, Build.widened]
      obtain ⟨-, -, hcell⟩ := element?_lane hwide hi
      rw [hcell, cell_widened hty hi, lane_of_scalar hty]
  · rw [widened_of_vector hty]

end Value

namespace Signature

variable {g : Signature} {arguments : List Value} {v : Value} {i : Nat}

/-- Components of the value of a call, from the lanes of its arguments. Reducing functions are left
    out, since their value depends on all lanes at once. -/
theorem evaluate_cells (known : g ∈ g.builtin.overloads) (plain : g.builtin.isReducing = false)
    (typed : arguments.map (·.ty) = g.parameters) : ∃ s v, g.result.component? = some s ∧
      g.evaluate arguments = some v ∧ v.ty = g.result ∧ v.Canonical ∧
      ∀ i < g.result.componentCount, ∃ x, v.cell i = x.convert s ∧
        g.builtin.scalarComponent s (arguments.map fun a => (a.lane i).cell 0) = some x := by
  obtain ⟨-, hlaned, -, -, -⟩ := lanewise_of_known known plain
  obtain ⟨s, hs⟩ := Ty.component?_of_isBasic (Builtin.result_basic known)
  obtain ⟨v, hv⟩ := evaluate_total known typed
  have hlanes (i : Nat) (hi : i < g.result.componentCount) :
      arguments.mapM (Builtin.argumentComponent? · i) =
        some (arguments.map fun a => (a.lane i).cell 0) :=
    Option.mapM_eq_map fun a ha =>
      Value.argumentComponent?_eq (hlaned a.ty (typed ▸ List.mem_map_of_mem ha)) hi
  refine ⟨s, v, hs, hv, ?_⟩
  rw [evaluate, if_neg (by simp [plain]), hs, Option.bind_eq_bind, Option.bind_some] at hv
  obtain ⟨results, hresults, hv⟩ := Option.bind_eq_some_iff.mp hv
  obtain rfl := Option.some.inj hv
  refine ⟨Value.ofComponents_ty _ _,
    Value.canonical_ofComponents (Ty.isStruct_of_isBasic (Builtin.result_basic known)) _,
    fun i hi => ?_⟩
  obtain ⟨x, hx, hcomponent⟩ := Option.getElem?_mapM hresults (List.getElem?_range hi)
  rw [hlanes i hi] at hcomponent
  exact ⟨x, Value.cell_ofComponents hs hi hx, hcomponent⟩

theorem typed_lanes (known : g ∈ g.builtin.overloads) (plain : g.builtin.isReducing = false)
    (typed : arguments.map (·.ty) = g.parameters) (hi : i < g.result.componentCount) :
    (arguments.map (·.lane i)).map (·.ty) = g.single.parameters := by
  obtain ⟨-, hlaned, -, -, -⟩ := lanewise_of_known known plain
  rw [single, ← typed, List.map_map, List.map_map]
  exact List.map_congr_left fun a ha =>
    (Value.ty_lane (hlaned a.ty (typed ▸ List.mem_map_of_mem ha)) hi).1

theorem typed_widened (typed : arguments.map (·.ty) = g.parameters) :
    (arguments.map (·.widened (Build.widthOf g))).map (·.ty) = g.wide.parameters := by
  rw [wide, ← typed, List.map_map, List.map_map]
  exact List.map_congr_left fun a _ => Value.ty_widened _ a

/-- Calls of a builtin function agree in components for which their arguments have the same
    lanes. -/
theorem cell_congr {g' : Signature} {arguments' : List Value} {w : Value} {k : Nat}
    (known : g ∈ g.builtin.overloads) (plain : g.builtin.isReducing = false)
    (typed : arguments.map (·.ty) = g.parameters) (hv : g.evaluate arguments = some v)
    (known' : g' ∈ g'.builtin.overloads) (typed' : arguments'.map (·.ty) = g'.parameters)
    (hw : g'.evaluate arguments' = some w) (builtin : g'.builtin = g.builtin)
    (component : g'.result.component? = g.result.component?) (hi : i < g.result.componentCount)
    (hk : k < g'.result.componentCount)
    (lanes : (arguments'.map fun a => (a.lane k).cell 0) =
      arguments.map fun a => (a.lane i).cell 0) : v.cell i = w.cell k := by
  obtain ⟨s, v', hs, hv', -, -, hcells⟩ := evaluate_cells known plain typed
  obtain rfl : v' = v := Option.some.inj (hv'.symm.trans hv)
  obtain ⟨s', w', hs', hw', -, -, hcells'⟩ := evaluate_cells known' (builtin ▸ plain) typed'
  obtain rfl : w' = w := Option.some.inj (hw'.symm.trans hw)
  obtain rfl : s = s' := Option.some.inj (hs.symm.trans (component.symm.trans hs'))
  obtain ⟨x, hx, hcomponent⟩ := hcells i hi
  obtain ⟨y, hy, hcomponent'⟩ := hcells' k hk
  rw [builtin, lanes] at hcomponent'
  rw [hx, hy, Option.some.inj (hcomponent.symm.trans hcomponent')]

/-- A lane of the value is the value of the lanes. -/
theorem evaluate_single (known : g ∈ g.builtin.overloads) (plain : g.builtin.isReducing = false)
    (typed : arguments.map (·.ty) = g.parameters) (hv : g.evaluate arguments = some v)
    (hi : i < g.result.componentCount) :
    g.single.evaluate (arguments.map (·.lane i)) = some (v.lane i) := by
  obtain ⟨hresult, hlaned, -, hsingle, -⟩ := lanewise_of_known known plain
  obtain ⟨-, v', -, hv', hty, hcanonical, -⟩ := evaluate_cells known plain typed
  obtain rfl : v' = v := Option.some.inj (hv'.symm.trans hv)
  obtain ⟨-, w, -, hw, hwty, hwcanonical, -⟩ :=
    evaluate_cells hsingle plain (typed_lanes known plain typed hi)
  have hvlaned : v'.ty.isLaned g.result.width? := by rw [hty]; exact hresult
  obtain ⟨hlane, t, ht⟩ := Value.ty_lane hvlaned hi
  have hwcount : g.single.result.componentCount = 1 := by
    rw [single, ← hty, ht, Ty.componentCount]
  -- The lanes of the arguments are scalars, of which the only lane is the scalar itself.
  have hscalars : ((arguments.map (·.lane i)).map fun a => (a.lane 0).cell 0) =
      arguments.map fun a => (a.lane i).cell 0 := by
    rw [List.map_map]
    refine List.map_congr_left fun a ha => ?_
    obtain ⟨hty, t, ht⟩ := Value.ty_lane (hlaned a.ty (typed ▸ List.mem_map_of_mem ha)) hi
    rw [Function.comp_apply, Value.lane_of_scalar (hty.trans ht)]
  have hcell : v'.cell i = w.cell 0 :=
    cell_congr known plain typed hv hsingle (typed_lanes known plain typed hi) hw rfl
      (Ty.component?_lane g.result) hi (hwcount ▸ Nat.zero_lt_one) hscalars
  have hsame : v'.lane i = w := by
    refine (hcanonical.lane hvlaned hi).eq_of_cells hwcanonical ?_ ?_ fun k hk => ?_
    · rw [hlane, hwty, hty, single]
    · rw [hlane, ht]
      rfl
    · obtain rfl : k = 0 := by
        rw [hlane, ht] at hk
        exact Nat.lt_one_iff.mp hk
      rw [Value.cell_lane_self (by rw [hty]; exact hresult) (hty ▸ hi), hcell]
  rw [hw, hsame]

/-- Arguments can be repeated in front of a call. -/
theorem evaluate_wide (known : g ∈ g.builtin.overloads) (plain : g.builtin.isReducing = false)
    (typed : arguments.map (·.ty) = g.parameters) (hv : g.evaluate arguments = some v) :
    g.wide.evaluate (arguments.map (·.widened (Build.widthOf g))) = some v := by
  obtain ⟨-, hlaned, hwidth, -, hwide⟩ := lanewise_of_known known plain
  obtain ⟨-, v', -, hv', hty, hcanonical, -⟩ := evaluate_cells known plain typed
  obtain rfl : v' = v := Option.some.inj (hv'.symm.trans hv)
  obtain ⟨-, w, -, hw, hwty, hwcanonical, -⟩ :=
    evaluate_cells hwide plain (typed_widened typed)
  have hsame : v' = w := by
    refine hcanonical.eq_of_cells hwcanonical (hty.trans hwty.symm)
      (hty ▸ Builtin.result_basic known) fun i hi => ?_
    rw [hty] at hi
    have hlanes : ((arguments.map (·.widened (Build.widthOf g))).map fun a => (a.lane i).cell 0) =
        arguments.map fun a => (a.lane i).cell 0 := by
      rw [List.map_map, hwidth]
      exact List.map_congr_left fun a ha =>
        Value.cell_lane_widened (hlaned a.ty (typed ▸ List.mem_map_of_mem ha)) hi
    exact cell_congr known plain typed hv hwide (typed_widened typed) hw rfl rfl hi hi hlanes
  rw [hw, hsame]

end Signature

namespace Build

open Builder

variable {S : Setting} {b : Builder} {σ : State} {memory : Nat → Datum}

/-- Arguments of a call, of which the scalars are repeated. -/
def widenAll (f : Signature) (arguments : List Id) : Build (List Id) :=
  (arguments.zip f.parameters).mapM fun (id, t) => widen t id (widthOf f)

/-- Instruction of a call. -/
def instruct (f : Signature) (arguments : List Id) : Build Id :=
  let first := f.parameters.headD .void
  match extendedOp? f.builtin (first.component?.getD .float) arguments.length with
  | some op => emitExtended f.result (UInt32.ofNat op.number) arguments
  | none => emit (plainOp f.builtin first.isScalar) f.result arguments

theorem bind_congr {α β : Type} {r : Build α} {f g : α → Build β}
    (h : ∀ b a b', r b = .ok (a, b') → f a b' = g a b') : r >>= f = r >>= g := by
  funext b
  have hbind (f : α → Build β) : (r >>= f) b = (r b >>= fun p => f p.1 p.2) := rfl
  rw [hbind, hbind]
  cases hr : r b with
  | error => rfl
  | ok p => exact h b p.1 p.2 hr

theorem component?_widened (width : Option Dim) (t : Ty) :
    (widened width t).component? = t.component? := by
  cases t with
  | void | vector | matrix | struct => rfl
  | scalar => cases width <;> rfl

/-- What is repeated is not repeated again. -/
theorem widen_widened (width : Option Dim) (t : Ty) (id : Id) :
    widen (widened width t) id width = pure id := by
  cases t with
  | void | vector | matrix | struct => rfl
  | scalar => cases width <;> rfl

theorem plainOp_eq {f : Builtin} (plain : f.isReducing = false) {s : ScalarType} {arity : Nat}
    (ordinary : extendedOp? f s arity = none) (scalar scalar' : Bool) :
    plainOp f scalar = plainOp f scalar' := by
  cases f with
  | mod | isnan | isinf => rfl
  | dot => simp [Builtin.isReducing] at plain
  | _ => simp [extendedOp?] at ordinary

/-- The instruction is the same for arguments that are repeated. -/
theorem instruct_wide {f : Signature} (plain : f.builtin.isReducing = false) (ids : List Id) :
    instruct f.wide ids = instruct f ids := by
  have hfirst : (f.wide.parameters.headD .void).component? =
      (f.parameters.headD .void).component? := by
    rw [Signature.wide]
    cases f.parameters with
    | nil => rfl
    | cons t _ => exact component?_widened _ t
  unfold instruct
  dsimp only
  rw [hfirst]
  change (match extendedOp? f.builtin _ _ with | some _ => _ | none => _) = _
  split
  · rfl
  · rename_i hordinary
    rw [plainOp_eq plain hordinary]
    rfl

theorem widenAll_wide {f : Signature} (same : widthOf f.wide = widthOf f) {ids : List Id}
    (count : ids.length = f.parameters.length) : widenAll f.wide ids = pure ids := by
  have hpure : (fun (p : Id × Ty) => widen p.2 p.1 (widthOf f)) ∘
      Prod.map id (widened (widthOf f)) = fun p => pure p.1 :=
    funext fun p => widen_widened (widthOf f) p.2 p.1
  rw [widenAll, same, Signature.wide, List.zip_map_right, List.mapM_map]
  exact (congrArg (List.mapM · _) hpure).trans (by
    rw [List.mapM_pure, List.map_fst_zip (Nat.le_of_eq count)])

/-- A call is the call of the overload without scalars, behind code that repeats them. Reducing
    functions are left out, as they have no lanes. -/
theorem builtinCall_wide {f : Signature} (known : f ∈ f.builtin.overloads)
    (plain : f.builtin.isReducing = false) {ids : List Id}
    (count : ids.length = f.parameters.length) :
    builtinCall f ids = widenAll f ids >>= builtinCall f.wide := by
  obtain ⟨-, -, hwidth, -, hwide⟩ := Signature.lanewise_of_known known plain
  have same : widthOf f.wide = widthOf f :=
    (Signature.lanewise_of_known hwide plain).width.trans hwidth.symm
  have hcall (f : Signature) (ids : List Id) : builtinCall f ids = widenAll f ids >>= instruct f :=
    rfl
  rw [hcall]
  refine bind_congr fun b ids' b' hids => ?_
  have hcount : ids'.length = f.parameters.length := by
    rw [length_of_mapM hids, List.length_zip, count, Nat.min_self]
  rw [hcall, widenAll_wide same hcount, pure_bind, instruct_wide plain]

theorem widen_yields {id : Id} {v : Value} (width : Option Dim) (hid : σ.values id = some v.datum) :
    (widen v.ty id width).Yields S b σ memory (v.widened width).datum := by
  cases hty : v.ty with
  | void | vector | matrix | struct =>
    simp only [widen, Value.widened, hty]
    exact .pure hid
  | scalar s =>
    cases width with
    | none =>
      simp only [widen, Value.widened, hty]
      exact .pure hid
    | some n =>
      have hwide : (v.widened (some n)).ty = .vector s n := by
        rw [Value.ty_widened, hty, widened]
      have hdatum : (v.widened (some n)).datum = Machine.splat v.datum (.vector s n) := by
        rw [Value.datum_eq_build_of_ty hwide rfl, Value.datum_eq_build_of_ty hty rfl, Ty.build,
          Machine.splat_eq_build rfl rfl]
        exact Ty.build_congr fun i hi => Value.cell_widened hty hi
      rw [hdatum]
      exact splat_yields (.vector s n) hid

/-- Repeated arguments have the data of the repeated values. -/
theorem widenAll_arrives {f : Signature} {ids : List Id} {arguments : List Value}
    (typed : arguments.map (·.ty) = f.parameters) (hids : σ.Have ids (arguments.map (·.datum))) :
    (widenAll f ids).Arrives S b σ memory memory fun ids' _ σ' =>
      σ'.Have ids' ((arguments.map (·.widened (widthOf f))).map (·.datum)) := by
  rw [widenAll, ← typed]
  generalize widthOf f = width
  clear typed
  induction arguments generalizing ids b σ with
  | nil =>
    obtain _ | _ := hids
    exact .pure .nil
  | cons v arguments ih =>
    obtain _ | ⟨hid, hids⟩ := hids
    rw [List.map_cons, List.zip_cons_cons, List.mapM_cons]
    refine (widen_yields width hid).bind fun id' b₁ σ₁ hlater hid' => ?_
    refine (ih (State.Have.mono hids hlater.extends_)).bind fun ids' b₂ σ₂ hlater' hids' => ?_
    exact .pure (.cons (hlater'.value hid') hids')

end Build

/-- A call whose arguments have the types of the parameters has a value. Lane `i` of it is the value
    of the overload over single components for the lanes `i` of the arguments. It is also the value
    for arguments of which the scalars are repeated to the number of lanes, and that is what code
    computes: the code of the call is the code of that other call, behind code that takes data of
    the arguments to data of the repeated ones. Functions that reduce all lanes to one number, such
    as a length, have no lanes, and `plain` leaves them out. -/
theorem Signature.evaluate_lanes {g : Signature} {arguments : List Value}
    (known : g ∈ g.builtin.overloads) (plain : g.builtin.isReducing = false)
    (typed : arguments.map (·.ty) = g.parameters) :
    let repeated := arguments.map (·.widened (Build.widthOf g))
    g.single ∈ g.builtin.overloads ∧ g.wide ∈ g.builtin.overloads ∧
      (∃ v, g.evaluate arguments = some v ∧ v.ty = g.result ∧
        (∀ i < g.result.componentCount,
          (arguments.map (·.lane i)).map (·.ty) = g.single.parameters ∧
            g.single.evaluate (arguments.map (·.lane i)) = some (v.lane i)) ∧
        repeated.map (·.ty) = g.wide.parameters ∧ g.wide.evaluate repeated = some v) ∧
      ∀ (S : Setting) (b : Builder) (σ : State) (memory : Nat → Datum) (ids : List Id),
        σ.Have ids (arguments.map (·.datum)) →
          Build.builtinCall g ids = Build.widenAll g ids >>= Build.builtinCall g.wide ∧
          (Build.widenAll g ids).Arrives S b σ memory memory fun ids' _ σ' =>
            σ'.Have ids' (repeated.map (·.datum)) := by
  obtain ⟨-, -, -, hsingle, hwide⟩ := lanewise_of_known known plain
  obtain ⟨-, v, -, hv, hty, -, -⟩ := evaluate_cells known plain typed
  refine ⟨hsingle, hwide, ⟨v, hv, hty, fun i hi => ⟨typed_lanes known plain typed hi,
    evaluate_single known plain typed hv hi⟩, typed_widened typed,
    evaluate_wide known plain typed hv⟩, fun S b σ memory ids hids => ⟨?_, ?_⟩⟩
  · refine Build.builtinCall_wide known plain ?_
    rw [hids.length_eq, ← typed, List.length_map, List.length_map]
  · exact Build.widenAll_arrives typed hids

/-- Integers between two scalars: both lanes are between them, and the code of the call first makes two
    pairs of the two scalars and then is the code of the call with three pairs. -/
theorem Signature.evaluate_lanes_clamp :
    let g : Signature :=
      ⟨.clamp, .vector .int .two, [.vector .int .two, .scalar .int, .scalar .int]⟩
    let pair (x y : Int32) := Value.ofComponents (.vector .int .two) [.int x, .int y]
    let one (x : Int32) := Value.ofScalar (.int x)
    g.evaluate [pair (-5) 9, one 0, one 3] = some (pair 0 3) ∧
      g.single.evaluate [one 9, one 0, one 3] = some (one 3) ∧
      g.wide.evaluate [pair (-5) 9, pair 0 0, pair 3 3] = some (pair 0 3) ∧
      ∃ ids b, [pair (-5) 9, one 0, one 3].mapM Build.valueId (.new {}) = .ok (ids, b) ∧
        ∃ ids' b₁ id b', Build.widenAll g ids b = .ok (ids', b₁) ∧
          (∃ S σ memory, b₁.Leads S σ memory ∧
            σ.Have ids' ([pair (-5) 9, pair 0 0, pair 3 3].map (·.datum))) ∧
          Build.builtinCall g.wide ids' b₁ = .ok (id, b') ∧
          Build.builtinCall g ids b = .ok (id, b') := by
  intro g pair one
  have known : g ∈ g.builtin.overloads := by decide
  have typed : [pair (-5) 9, one 0, one 3].map (·.ty) = g.parameters := rfl
  obtain ⟨-, -, ⟨v, hv, -, hlanes, -, hwide⟩, hcode⟩ := evaluate_lanes known rfl typed
  have hvalue : g.evaluate [pair (-5) 9, one 0, one 3] = some (pair 0 3) := by decide
  obtain rfl : v = pair 0 3 := Option.some.inj (hv.symm.trans hvalue)
  refine ⟨hvalue, (hlanes 1 (by decide)).2, hwide, ?_⟩
  have hok : ((do
      let ids ← [pair (-5) 9, one 0, one 3].mapM Build.valueId
      Build.builtinCall g ids : Build Id) (.new {})).toOption.isSome := by
    decide +kernel
  obtain ⟨⟨id, b'⟩, hresult⟩ := Option.isSome_iff_exists.mp hok
  obtain ⟨ids, b, hids, hcall⟩ := Build.bind_eq_ok.mp (Except.toOption_eq_some.mp hresult)
  let S : Setting := ⟨⟨fun _ _ _ _ => .nothing⟩, fun _ => .nothing, []⟩
  have hnew : (Builder.new {}).Leads S (.start fun _ => none) fun _ => .nothing :=
    .new {} (by simp [S])
  obtain ⟨σ, hleads, -, hdata⟩ :=
    Build.Arrives.mapM (g := Value.datum) (fun v _ _ _ _ => Build.valueId_yields v) hnew ids b hids
  obtain ⟨hcalls, harrives⟩ := hcode S b σ _ ids hdata
  obtain ⟨ids', b₁, hwiden, hwideCall⟩ := Build.bind_eq_ok.mp (hcalls ▸ hcall)
  obtain ⟨σ₁, hleads₁, -, hdata₁⟩ := harrives hleads ids' b₁ hwiden
  exact ⟨ids, b, hids, ids', b₁, id, b', hwiden, ⟨S, σ₁, _, hleads₁, hdata₁⟩, hwideCall, hcall⟩

end ShaderExpr
