namespace ShaderExpr

/-- The bytes from `start` up to `stop`. Positions are natural numbers, where a compiler keeps them
    in words of 32 bits: what is said of spans is about sources of less than `2 ^ 32` bytes. -/
structure Span where
  start : Nat
  stop : Nat
  deriving DecidableEq, Repr

namespace Span

/-- Smallest span that covers both. -/
def merge (a b : Span) : Span := ⟨min a.start b.start, max a.stop b.stop⟩

end Span

/-- Bytes that a text takes in UTF-8. -/
def byteLength (text : List Char) : Nat := text.foldr (fun c n => c.utf8Size + n) 0

end ShaderExpr
