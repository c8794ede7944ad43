import ShaderExpr.Ty

namespace ShaderExpr

/-- A demand that no correct caller makes, such as a component beyond the end of a value. The
    operation that meets one gives no result. -/
inductive Fault
  /-- A value has no component or element at the position asked for. -/
  | componentOutOfRange (ty : Ty) (index : Nat)
  /-- An operation on components met a type that has none. -/
  | noComponents (ty : Ty)
  /-- A component type has no such operation. -/
  | unsupportedComponent (component : ScalarType)
  /-- There is no conversion between the two types. -/
  | noConversion (source target : Ty)
  /-- A swizzle selects no vector: it has no letters, too many, or one out of range. -/
  | invalidSwizzle
  /-- A place was indexed after components of it had been selected. -/
  | indexedSwizzle
  /-- An assignment or a load has no place to work on. -/
  | noPlace
  /-- An instruction has more words than its count can say. -/
  | instructionTooLong
  /-- All ids of a module are in use. -/
  | idsExhausted
  deriving Repr

end ShaderExpr
