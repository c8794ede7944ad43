namespace ShaderExpr

/-- Code points from the first to the second, both included. -/
abbrev CodeRange := Nat × Nat

namespace CodeRange

def contains (r : CodeRange) (c : Char) : Bool := r.1 ≤ c.toNat && c.toNat ≤ r.2

end CodeRange

/-- The property White_Space. -/
def whiteSpace : List CodeRange :=
  [(0x9, 0xd), (0x20, 0x20), (0x85, 0x85), (0xa0, 0xa0), (0x1680, 0x1680), (0x2000, 0x200a),
    (0x2028, 0x2029), (0x202f, 0x202f), (0x205f, 0x205f), (0x3000, 0x3000)]

def isWhiteSpace (c : Char) : Bool := whiteSpace.any (·.contains c)

/-- Text without white space at its ends. -/
def trimmed (text : List Char) : List Char :=
  ((text.dropWhile isWhiteSpace).reverse.dropWhile isWhiteSpace).reverse

end ShaderExpr
