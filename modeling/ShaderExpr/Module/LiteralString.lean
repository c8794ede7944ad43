import ShaderExpr.Numeric.LittleEndian

namespace ShaderExpr.LiteralString

/-- The words of a string: UTF-8 with a zero byte at the end, filled up with zeros to whole words. A
    string whose bytes fill their words exactly needs one more word for the zero. -/
def encode (s : String) : List UInt32 :=
  let bytes := s.toUTF8.data.toList
  wordsOfBytes (bytes ++ List.replicate (4 - bytes.length % 4) 0)

/-- Reads up to the first zero byte. Without one, or when the bytes are no UTF-8, there is no
    string. -/
def decode? (words : List UInt32) : Option String :=
  let bytes := words.flatMap wordBytes
  if bytes.contains 0 then String.fromUTF8? ⟨(bytes.takeWhile (· != 0)).toArray⟩ else none

end ShaderExpr.LiteralString
