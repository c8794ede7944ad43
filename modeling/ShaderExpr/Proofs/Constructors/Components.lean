import ShaderExpr.Proofs.Constructors.Reading
import ShaderExpr.Proofs.Faults.Operations
import ShaderExpr.Proofs.Running.Construction
import ShaderExpr.Proofs.Running.Contents
import ShaderExpr.Proofs.Running.Operators

namespace ShaderExpr

open Folding

namespace Ty

variable {ty : Ty} {s : ScalarType} {vs : List Value} {v w : Value} {k : Nat}

/-- What stands on the diagonal of a matrix of this many rows, and zero beside it. -/
def onDiagonal (s : ScalarType) (rows k : Nat) (x : Scalar) : Scalar :=
  if k / rows = k % rows then x else .zero s

/-- What a constructor takes for position `k` of its type: of a single scalar, the scalar itself or
    its place on the diagonal of a matrix; of a matrix for a matrix, the component in the same column
    and row, and the identity where there is none; of all else, component `k` of all in order. -/
def source (ty : Ty) (vs : List Value) (k : Nat) : Scalar :=
  let inOrder := (vs.flatMap (·.components))[k]?.getD (.bool false)
  match vs with
  | [v] =>
    match ty, v.ty with
    | .matrix s _ rows, .scalar _ => onDiagonal s rows.toNat k (v.cell 0)
    | _, .scalar _ => v.cell 0
    | .matrix s _ rows, .matrix _ columns' rows' =>
      if k / rows.toNat < columns'.toNat ∧ k % rows.toNat < rows'.toNat then
        v.cell (k / rows.toNat * rows'.toNat + k % rows.toNat)
      else onDiagonal s rows.toNat k (.one s)
    | _, _ => inOrder
  | _ => inOrder

end Ty

namespace Folding

variable {ty : Ty} {s : ScalarType} {vs : List Value} {v w : Value} {k : Nat}

/-- Position `k` of a matrix is in one of its columns and rows. -/
theorem getElem?_positions_div {columns rows : Dim} (hk : k < columns.toNat * rows.toNat) :
    (positions columns.toNat rows.toNat)[k]? = some (k / rows.toNat, k % rows.toNat) := by
  have hrows : 0 < rows.toNat := Nat.lt_of_lt_of_le Nat.two_pos rows.toNat_bounds.1
  have hcolumn : k / rows.toNat < columns.toNat := (Nat.div_lt_iff_lt_mul hrows).mpr hk
  have h := Machine.getElem?_positions hcolumn (Nat.mod_lt k hrows)
  rwa [Nat.div_add_mod'] at h

theorem getElem?_spread (hk : k < ty.componentCount) (x : Scalar) :
    (spread ty x)[k]? = some (match ty with
      | .matrix s _ rows => Ty.onDiagonal s rows.toNat k x
      | _ => x) := by
  cases ty with
  | matrix s columns rows =>
    rw [spread, List.getElem?_map, getElem?_positions_div hk, Option.map_some]
    rfl
  | void | scalar | vector | struct => simp [spread, hk]

theorem component_eq_cell (hs : v.ty.component? = some s) {i : Nat} (hi : i < v.ty.componentCount) :
    component v i = .ok (v.cell i) := by
  rw [component, (Value.get?_eq_cell hs hi).1]

/-- A single scalar. -/
theorem cell_of_construct_scalar {s' : ScalarType} (hs : ty.component? = some s)
    (hv : v.ty = .scalar s') (hw : construct ty [v] = .ok w) (hk : k < ty.componentCount) :
    w.cell k = (ty.source [v] k).convert s := by
  have hcomponent : component v 0 = .ok (v.cell 0) :=
    component_eq_cell (by rw [hv]; rfl) (by rw [hv]; exact Nat.one_pos)
  have hvalue : w = .ofComponents ty (spread ty (v.cell 0)) := by
    unfold construct at hw
    dsimp only at hw
    rw [if_pos (by rw [hv]; rfl), hcomponent] at hw
    exact (Except.ok.inj hw).symm
  rw [hvalue, Value.cell_ofComponents hs hk (getElem?_spread hk _)]
  unfold Ty.source
  dsimp only
  rw [hv]
  cases ty <;> rfl

/-- A single matrix for a matrix. -/
theorem cell_of_construct_matrix {s' : ScalarType} {columns rows columns' rows' : Dim}
    (hv : v.ty = .matrix s' columns' rows')
    (hw : construct (.matrix s columns rows) [v] = .ok w) (hk : k < columns.toNat * rows.toNat) :
    w.cell k = ((Ty.matrix s columns rows).source [v] k).convert s := by
  unfold construct at hw
  dsimp only at hw
  rw [if_neg (by rw [hv]; exact Bool.false_ne_true), hv] at hw
  obtain ⟨results, hresults, hw⟩ := Except.bind_eq_ok.mp hw
  obtain rfl := Except.ok.inj hw
  obtain ⟨x, hx, hcomponent⟩ := Except.getElem?_mapM hresults (getElem?_positions_div hk)
  rw [Value.cell_ofComponents rfl hk hx]
  unfold Ty.source
  dsimp only at hcomponent ⊢
  rw [hv]
  dsimp only
  split at hcomponent
  · rename_i hinside
    have hcell := component_eq_cell (v := v) (by rw [hv]; rfl)
      (by rw [hv]; exact lt_count_of_position hinside.1 hinside.2)
    rw [if_pos hinside, Except.ok.inj (hcell.symm.trans hcomponent)]
  · rename_i hinside
    rw [if_neg hinside, ← Except.ok.inj hcomponent, Ty.onDiagonal]

/-- Components of several arguments, or of one that is neither a scalar nor a matrix for a matrix,
    stand in their order. There are enough of them, so none is left out. -/
theorem cell_of_construct_components (hs : ty.component? = some s)
    (basic : ∀ v ∈ vs, v.ty.isBasic) (enough : ty.componentCount ≤ Ty.totalCount (vs.map (·.ty)))
    (several : ∀ v, vs = [v] → v.ty.isScalar = false ∧ ¬(ty.isMatrix ∧ v.ty.isMatrix))
    (hw : construct ty vs = .ok w) (hk : k < ty.componentCount) :
    w.cell k = (ty.source vs k).convert s := by
  have hlength : k < (vs.flatMap (·.components)).length :=
    Nat.lt_of_lt_of_le hk (Machine.length_flatMap_components basic ▸ enough)
  have hsource : ty.source vs k = (vs.flatMap (·.components))[k] := by
    unfold Ty.source
    rw [List.getElem?_eq_getElem hlength, Option.getD_some]
    split
    · rename_i v
      obtain ⟨hscalar, hmatrices⟩ := several v rfl
      dsimp only
      split
      · rename_i hv
        simp [hv, Ty.isScalar] at hscalar
      · rename_i hv
        simp [hv, Ty.isScalar] at hscalar
      · rename_i hv
        exact absurd ⟨rfl, by rw [hv]; rfl⟩ hmatrices
      · rfl
    · rfl
  obtain rfl := Except.ok.inj (hw.symm.trans (Machine.construct_components several))
  rw [hsource, Value.cell_ofComponents hs hk (List.getElem?_eq_getElem hlength)]

/-- Constructing has at every position what it is meant to have there, converted. -/
theorem cell_of_construct (hs : ty.component? = some s) (fills : ty.FilledBy (vs.map (·.ty)))
    (hw : construct ty vs = .ok w) (hk : k < ty.componentCount) :
    w.cell k = (ty.source vs k).convert s := by
  rcases Machine.arguments_cases fills with ⟨v, s', rfl, hv⟩ |
    ⟨v, s'', s', columns, rows, columns', rows', rfl, hv, rfl⟩ | ⟨henough, hseveral⟩
  · exact cell_of_construct_scalar hs hv hw hk
  · obtain rfl : s'' = s := Option.some.inj hs
    exact cell_of_construct_matrix hv hw hk
  · exact cell_of_construct_components hs (fun v hv => fills.isBasic _ (List.mem_map_of_mem hv))
      henough hseveral hw hk

end Folding

/-- A constructor of `ty` makes these components of its arguments, evaluated, and by its code for
    operands that hold the arguments, wherever a module has got before. `Makes.of_room` says when
    the code is there. -/
def Ty.Makes (ty : Ty) (vs : List Value) (cs : List Scalar) : Prop :=
  (∃ v, construct ty vs = .ok v ∧ v.ty = ty ∧ v.components = cs) ∧
    ∀ (S : Setting) (b : Builder) (σ : State) (memory : Nat → Datum) (operands : List Operand),
      b.Leads S σ memory → Build.Agree σ operands (vs.map Value.quantity) →
      (Build.construct ty operands).Ends S b fun id σ' memory' =>
        memory' = memory ∧ ∃ d, σ'.values id = some d ∧ ty.Holds d ∧ d.cells = cs

theorem Build.types_of_agree {σ : State} {operands : List Operand} {vs : List Value}
    (h : Agree σ operands (vs.map Value.quantity)) : operands.map (·.ty) = vs.map (·.ty) := by
  have hpairs := List.forall₂_map_right_iff.mp h
  induction hpairs with
  | nil => rfl
  | cons first _ ih =>
    rw [List.map_cons, List.map_cons, ih (List.forall₂_cons.mp h).2, ← first.1]
    rfl

/-- Where the module has room for the code of a constructor, it makes the components: neither the
    length of an instruction nor the number of ids is in the way. -/
theorem Ty.Makes.of_room {ty : Ty} {vs : List Value} {cs : List Scalar} (h : ty.Makes vs cs)
    (basic : ty.isBasic) (fills : ty.FilledBy (vs.map (·.ty))) {S : Setting} {b : Builder} {σ : State}
    {memory : Nat → Datum} {operands : List Operand} (leads : b.Leads S σ memory)
    (agree : Build.Agree σ operands (vs.map Value.quantity))
    (room : Build.HasRoom (Build.construct ty operands) b) :
    ∃ id b' σ', Build.construct ty operands b = .ok (id, b') ∧ b'.Leads S σ' memory ∧
      ∃ d, σ'.values id = some d ∧ ty.Holds d ∧ d.cells = cs := by
  have hagrees : Build.Agrees (Build.construct ty operands) 0 :=
    Build.construct_has (T := Build.agreeing []) ty operands
  have hruns [Limits] : (Build.construct ty operands).Runs b :=
    Build.construct_runs basic (Build.types_of_agree agree ▸ fills)
  obtain ⟨id, b', σ', memory', hr, hleads, rfl, hd⟩ :=
    (h.2 S b σ memory operands leads agree).of_room hagrees hruns room
  exact ⟨id, b', σ', hr, hleads, hd⟩

/-- Arguments that fill a type make all of its components. -/
theorem Ty.makes_source {ty : Ty} {s : ScalarType} {vs : List Value} (hs : ty.component? = some s)
    (fills : ty.FilledBy (vs.map (·.ty))) :
    ty.Makes vs ((List.range ty.componentCount).map fun k => (ty.source vs k).convert s) := by
  have basic := Ty.isBasic_of_component? hs
  obtain ⟨w, hw, hty⟩ : ∃ w, construct ty vs = .ok w ∧ w.ty = ty :=
    construct_total fun v hv => fills.isBasic _ (List.mem_map_of_mem hv)
  have hcomponents : w.components =
      (List.range ty.componentCount).map fun k => (ty.source vs k).convert s := by
    rw [Value.components_eq (hty ▸ basic), hty]
    exact List.map_congr_left fun k hk => cell_of_construct hs fills hw (List.mem_range.mp hk)
  refine ⟨⟨w, hw, hty, hcomponents⟩, fun S b σ memory operands hleads hagree => ?_⟩
  have hruns : (Build.construct ty operands).Runs b :=
    Build.construct_runs basic (Build.types_of_agree hagree ▸ fills)
  refine (Build.construct_yields ty hagree).ends hruns hleads fun id _ σ' hid => ⟨rfl, w.datum, ?_,
    hty ▸ w.holds, ?_⟩
  · rw [hid, Machine.construct_datum basic fills hw]
  · rw [Machine.cells_datum (hty ▸ basic), ← Value.components_eq (hty ▸ basic), hcomponents]

/-- Constructors take exactly the arguments that fill their type: a single scalar, a single matrix
    for a matrix, or arguments with components, no matrix among them for a matrix, of which all have
    as many components as the type and all but the last have fewer. Those that are taken make all
    components of the type, the same in evaluation as in code, each of them converted from where it
    stands in the arguments. The word must name a type with components, as constructors of structs
    are calls. The arguments are read without problems of their own, and the token behind them does
    not go on with the expression; so a problem that is reported is one of the constructor. -/
theorem Ty.constructor_exact {word : String} {ty : Ty} {s : ScalarType}
    (known : Ty.ofWord? word = some ty) (component : ty.component? = some s) :
    (∀ (c : Cursor) (us : Phrase.Kinds) {s' : Scope} {kss : List Phrase.Kinds} {es : List Expr},
      Reader.ReadInTurn c.scope kss es s' → Phrase.EndsAssignment (us.headD .endOfInput) →
      c.kinds = .keyword word :: (Phrase.enclosed (Phrase.separated kss) ++ us) →
      ((Reader.expression c).2.diagnostics = c.diagnostics ↔ ty.FilledBy (es.map Expr.ty)) ∧
        (ty.FilledBy (es.map Expr.ty) → (Reader.expression c).1 = .construct ty es ∧
          (Reader.expression c).2.kinds = us ∧ (Reader.expression c).2.scope = s')) ∧
      ∀ vs : List Value, ty.FilledBy (vs.map (·.ty)) →
        ty.Makes vs ((List.range ty.componentCount).map fun k => (ty.source vs k).convert s) :=
  ⟨fun _ _ _ _ _ arguments hend hc =>
    Reader.expression_construct known (Ty.isBasic_of_component? component) arguments hend hc rfl,
    fun _ fills => makes_source component fills⟩

/-- A number between the parentheses of a matrix stands on its diagonal, and so it does in the data
    that the code for it has in a new module. -/
theorem Ty.constructor_exact_diagonal :
    (∃ c : Cursor, c.kinds =
        [.keyword "mat2", .control '(', .literal (.int 3), .control ')'] ∧
      (Reader.expression c).2.diagnostics = c.diagnostics ∧
      (Reader.expression c).1 =
        .construct (.matrix .float .two .two) [.constant (.ofScalar (.int 3))]) ∧
    (Ty.matrix .float .two .two).Makes [.ofScalar (.int 3)]
      [.float ⟨0x40400000⟩, .float ⟨0⟩, .float ⟨0⟩, .float ⟨0x40400000⟩] ∧
    ∃ x b, Build.valueId (.ofScalar (.int 3)) (.new {}) = .ok (x, b) ∧
      ∃ id b' d, Build.construct (.matrix .float .two .two) [⟨x, .scalar .int⟩] b = .ok (id, b') ∧
        (∃ S σ' memory, b'.Leads S σ' memory ∧ σ'.values id = some d) ∧
        d.cells = [.float ⟨0x40400000⟩, .float ⟨0⟩, .float ⟨0⟩, .float ⟨0x40400000⟩] := by
  have known : Ty.ofWord? "mat2" = some (.matrix .float .two .two) := by decide
  have hfills : (Ty.matrix .float .two .two).FilledBy [.scalar .int] :=
    .inl ⟨.int, rfl, by decide⟩
  obtain ⟨hreads, hmakes⟩ := constructor_exact known rfl
  have hcells : ((List.range (Ty.matrix .float .two .two).componentCount).map fun k =>
      ((Ty.matrix .float .two .two).source [.ofScalar (.int 3)] k).convert .float) =
        [.float ⟨0x40400000⟩, .float ⟨0⟩, .float ⟨0⟩, .float ⟨0x40400000⟩] := by
    decide +kernel
  have hmade := hcells ▸ hmakes [.ofScalar (.int 3)] hfills
  refine ⟨?_, hmade, ?_⟩
  · let token (k : Token.Kind) : Token := ⟨k, ⟨0, 0⟩⟩
    let c (ks : Phrase.Kinds) : Cursor := ⟨ks.map token, 0, ⟨0, 0⟩, .empty, []⟩
    have hkinds (ks : Phrase.Kinds) : (c ks).kinds = ks := by
      simp [c, token, Cursor.kinds, Function.comp_def]
    have hliteral : Reader.ReadsWhole .empty [.literal (.int 3)] (.constant (.ofScalar (.int 3)))
        .empty :=
      ⟨c _, hkinds _, rfl, Reader.expression_reads (Phrase.Primary.literal _).assignment []
        Phrase.endsAssignment_endOfInput _ (hkinds _) rfl⟩
    obtain ⟨hiff, hread⟩ := hreads (c _) [] (.cons hliteral .nil)
      Phrase.endsAssignment_endOfInput (hkinds _)
    exact ⟨_, hkinds _, hiff.mpr hfills, (hread hfills).1⟩
  · have hok : ((do
        let x ← Build.valueId (.ofScalar (.int 3))
        Build.construct (.matrix .float .two .two) [⟨x, .scalar .int⟩] : Build Id)
          (.new {})).toOption.isSome := by
      decide +kernel
    obtain ⟨⟨id, b'⟩, hresult⟩ := Option.isSome_iff_exists.mp hok
    obtain ⟨x, b, hx, hconstruct⟩ := Build.bind_eq_ok.mp (Except.toOption_eq_some.mp hresult)
    let S : Setting := ⟨⟨fun _ _ _ _ => .nothing⟩, fun _ => .nothing, []⟩
    have hnew : (Builder.new {}).Leads S (.start fun _ => none) fun _ => .nothing :=
      .new {} (by simp [S])
    obtain ⟨σ, hleads, -, hvalue⟩ := Build.valueId_yields (.ofScalar (.int 3)) hnew x b hx
    obtain ⟨_, hfault, -⟩ | ⟨_, _, σ', memory', hr, hleads', -, d, hd, -, hsame⟩ :=
      hmade.2 S b σ _ [⟨x, .scalar .int⟩] hleads (.cons ⟨rfl, hvalue⟩ .nil)
    · rw [hfault] at hconstruct
      cases hconstruct
    · rw [hr] at hconstruct
      cases hconstruct
      exact ⟨x, b, hx, id, b', d, hr, ⟨S, σ', memory', hleads', hd⟩, hsame⟩

end ShaderExpr
