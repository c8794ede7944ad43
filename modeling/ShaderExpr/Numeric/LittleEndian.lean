namespace ShaderExpr

/-- The four bytes of a word. -/
def wordBytes (w : UInt32) : List UInt8 :=
  [UInt8.ofNat w.toNat, UInt8.ofNat (w.toNat / 0x100), UInt8.ofNat (w.toNat / 0x10000),
    UInt8.ofNat (w.toNat / 0x1000000)]

/-- The word that four bytes make. -/
def wordOfBytes (a b c d : UInt8) : UInt32 :=
  UInt32.ofNat (a.toNat + 0x100 * b.toNat + 0x10000 * c.toNat + 0x1000000 * d.toNat)

/-- The words that a string of bytes makes, as far as it has whole words. -/
def wordsOfBytes : List UInt8 → List UInt32
  | a :: b :: c :: d :: rest => wordOfBytes a b c d :: wordsOfBytes rest
  | _ => []

theorem length_wordBytes (w : UInt32) : (wordBytes w).length = 4 := rfl

theorem length_flatMap_wordBytes (ws : List UInt32) :
    (ws.flatMap wordBytes).length = 4 * ws.length := by
  induction ws with
  | nil => rfl
  | cons w ws ih =>
    rw [List.flatMap_cons, List.length_append, length_wordBytes, ih, List.length_cons,
      Nat.mul_succ, Nat.add_comm]

theorem wordOfBytes_wordBytes (w : UInt32) :
    wordsOfBytes (wordBytes w) = [w] := by
  have hw := w.toNat_lt
  simp only [wordBytes, wordsOfBytes, wordOfBytes, List.cons.injEq, and_true]
  apply UInt32.toNat.inj
  simp only [UInt32.toNat_ofNat', UInt8.toNat_ofNat']
  omega

end ShaderExpr
