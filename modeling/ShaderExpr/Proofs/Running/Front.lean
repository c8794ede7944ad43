import ShaderExpr.Proofs.Build.Constants
import ShaderExpr.Proofs.Collections
import ShaderExpr.Proofs.Interning.Tables
import ShaderExpr.Proofs.Running.Machine

namespace ShaderExpr

/-- What a variable holds before the body runs, where it holds `d` unless it is given a value. -/
def Variable.startDatum (x : Variable) (d : Datum) : Datum :=
  match x.start? with
  | some v => v.datum
  | none => d

/-- A key has its meaning under an id. -/
def State.Means (σ : State) : Key → Id → Prop
  | .type ty, id => σ.types id = some ty.bare
  | .pointer .., _ => True
  | .value ty data, id => σ.values id = some (ty.datum data)
  | .var _, id => σ.pointers id = some ⟨id, []⟩

namespace Builder

variable {M : Machine} {b : Builder} {σ : State} {id : Id}

theorem ofNat?_of_word (n : Dim) : Dim.ofNat? (UInt32.ofNat n.toNat).toNat = some n := by
  cases n <;> rfl

/-- All keys have their meaning under their ids. -/
def Known (b : Builder) (σ : State) : Prop := ∀ k id, b.find k = some id → σ.Means k id

/-- All keys but those of variables have their meaning under their ids. Each single definition gives
    its key the meaning that it was asked for, if all that it refers to has its meaning. -/
def Grounded (b : Builder) (σ : State) : Prop :=
  ∀ k id, k.isVar = false → b.find k = some id → σ.Means k id

/-- Definition of a type, behind the types that it is made of. -/
theorem Spells.readType? {ty : Ty} {op : Opcode} {operands : List UInt32}
    (h : b.Spells ty op operands) (known : b.Grounded σ) :
    σ.readType? op operands = some ty.bare := by
  cases h with
  | void | bool | float | double | int | uint => rfl
  | @vector s n c component =>
    have hc : σ.types c = some (.scalar s) := known (.type (.scalar s)) c rfl component
    simp only [State.readType?, hc, ofNat?_of_word]
    rfl
  | @matrix s columns rows c column =>
    have hc : σ.types c = some (.vector s rows) := known (.type (.vector s rows)) c rfl column
    simp only [State.readType?, hc, ofNat?_of_word]
    rfl
  | @struct name members ids made =>
    have hall : operands.mapM σ.types = some (members.map fun m => m.2.bare) :=
      Option.mapM_eq_of_forall₂ made fun m u hm => known (.type m.2) u rfl hm
    rw [State.readType?, hall, Option.map_some, Ty.bare, Ty.bareMembers_eq]

theorem datum_eq_composite {ty : Ty} (whole : ty.isScalar = false) (data : List UInt8) :
    ty.datum data = .composite ((ty.constantParts data).map fun part => part.1.datum part.2) := by
  cases ty with
  | void | scalar => simp [Ty.isScalar] at whole
  | vector s n =>
    rw [Ty.datum, Ty.datum.vectorDatum, Ty.constantParts, List.map_map]
    rfl
  | matrix s columns rows =>
    rw [Ty.datum, Ty.constantParts, List.map_map]
    rfl
  | struct name members =>
    rw [Ty.datum, Ty.constantParts, memberData_eq_map]

/-- Definition of a constant, behind the constants that it is made of. -/
theorem Fills.readConstant? {ty : Ty} {data : List UInt8} {op : Opcode} {operands : List UInt32}
    (h : b.Fills ty data op operands) (known : b.Grounded σ) :
    σ.readConstant? op ty.bare operands = some (ty.datum data) := by
  cases h with
  | true read | false read => simp [State.readConstant?, Ty.datum, Ty.datum.scalarDatum, read]
  | @scalar s data x read number =>
    have hwords : Scalar.ofWords? s x.words = some x := by
      rw [← Scalar.type_of_ofBytes? read]
      exact Scalar.ofWords?_words x
    simp [State.readConstant?, Ty.bare, hwords, Ty.datum, Ty.datum.scalarDatum, read]
  | composite whole made =>
    have hall : operands.mapM σ.values =
        some ((ty.constantParts data).map fun part => part.1.datum part.2) :=
      Option.mapM_eq_of_forall₂ made fun part u hpart => known (.value part.1 part.2) u rfl hpart
    simp only [State.readConstant?]
    rw [hall, datum_eq_composite whole]
    rfl

theorem Spells.step {ty : Ty} {op : Opcode} {operands : List UInt32}
    (h : b.Spells ty op operands) (known : b.Grounded σ) :
    M.step ⟨op, id :: operands⟩ σ = some (σ.withType id ty.bare) := by
  have hread := h.readType? known
  cases h <;> simp [Machine.step, Opcode.isType, State.defineType, hread]

theorem Fills.step {ty : Ty} {data : List UInt8} {op : Opcode} {operands : List UInt32} {type : Id}
    (h : b.Fills ty data op operands) (htype : b.types.lookup ty = some type)
    (known : b.Grounded σ) :
    M.step ⟨op, type :: id :: operands⟩ σ = some (σ.withValue id (ty.datum data)) := by
  have hread := h.readConstant? known
  have hty : σ.types type = some ty.bare := known (.type ty) type rfl htype
  cases h <;>
    simp [Machine.step, Opcode.isType, Opcode.isConstant, State.defineConstant, hty, hread]

/-- Declaration of a variable, behind the constant that it starts with. A variable without one
    starts with `d`, which the state has for it. -/
theorem declaration_step {x : Variable} (pointer : Id) {initial : List Id}
    (starts : b.Starts x initial) (known : b.Grounded σ) (d : Datum) :
    M.step (declaration x id pointer initial) (σ.withContents id d) =
      some (σ.withVariable id (x.startDatum d)) := by
  obtain ⟨hnone, rfl⟩ | ⟨v, c, hv, hc, rfl⟩ := starts
  · rw [Variable.startDatum, hnone]
    rfl
  · have hvalue : σ.values c = some v.datum := known (.value v.ty v.data) c rfl hc
    simp [Machine.step, declaration, State.declareVariable, State.withVariable,
      State.withPointer, State.withContents, hvalue, Variable.startDatum, hv]

end Builder

end ShaderExpr
