import Mathlib.Tactic.Common
import ShaderExpr.Value

namespace ShaderExpr

theorem wordsOfBytes_append (w : UInt32) (rest : List UInt8) :
    wordsOfBytes (wordBytes w ++ rest) = w :: wordsOfBytes rest := by
  have hw := wordOfBytes_wordBytes w
  simp only [wordBytes, wordsOfBytes, List.cons.injEq, and_true] at hw
  change wordOfBytes _ _ _ _ :: wordsOfBytes rest = _
  rw [hw]

/-- Words are read back from their bytes. -/
theorem wordsOfBytes_flatMap (ws : List UInt32) : wordsOfBytes (ws.flatMap wordBytes) = ws := by
  induction ws with
  | nil => rfl
  | cons w ws ih => rw [List.flatMap_cons, wordsOfBytes_append, ih]

theorem wordBytes_wordOfBytes (a b c d : UInt8) :
    wordBytes (wordOfBytes a b c d) = [a, b, c, d] := by
  have ha := a.toNat_lt
  have hb := b.toNat_lt
  have hc := c.toNat_lt
  have hd := d.toNat_lt
  simp only [wordBytes, wordOfBytes, UInt32.toNat_ofNat', List.cons.injEq, and_true]
  refine ⟨?_, ?_, ?_, ?_⟩
  all_goals
    apply UInt8.toNat.inj
    rw [UInt8.toNat_ofNat']
    omega

/-- Bytes that fill whole words are all in these. -/
theorem flatMap_wordBytes : ∀ {n : Nat} {bytes : List UInt8}, bytes.length = 4 * n →
    (wordsOfBytes bytes).flatMap wordBytes = bytes
  | 0, [], _ => rfl
  | n + 1, a :: b :: c :: d :: rest, h => by
    have hrest : rest.length = 4 * n := by
      simp only [List.length_cons] at h
      omega
    rw [wordsOfBytes, List.flatMap_cons, wordBytes_wordOfBytes, flatMap_wordBytes hrest]
    rfl
  | 0, _ :: _, h => by simp at h
  | n + 1, [], h | n + 1, [_], h | n + 1, [_, _], h | n + 1, [_, _, _], h => by
    simp only [List.length_cons, List.length_nil] at h
    omega

theorem length_wordsOfBytes {n : Nat} {bytes : List UInt8} (h : bytes.length = 4 * n) :
    (wordsOfBytes bytes).length = n := by
  have hlength := length_flatMap_wordBytes (wordsOfBytes bytes)
  rw [flatMap_wordBytes h] at hlength
  omega

/-- A double is read back from its two words. -/
theorem words_join (b : UInt64) :
    (b >>> 32).toUInt32.toUInt64 <<< 32 ||| b.toUInt32.toUInt64 = b := by
  have hb := b.toNat_lt
  have hlow : b.toNat % 2 ^ 32 < 2 ^ 32 := Nat.mod_lt _ (by decide)
  apply UInt64.toNat_inj.mp
  rw [UInt64.toNat_or, UInt64.toNat_shiftLeft, UInt32.toNat_toUInt64, UInt32.toNat_toUInt64,
    UInt64.toNat_toUInt32, UInt64.toNat_toUInt32, UInt64.toNat_shiftRight]
  have hthirtyTwo : UInt64.toNat 32 % 64 = 32 := rfl
  rw [hthirtyTwo, Nat.shiftLeft_eq, Nat.shiftRight_eq_div_pow,
    Nat.mod_eq_of_lt (a := b.toNat / 2 ^ 32 % 2 ^ 32 * 2 ^ 32) (by omega), ← Nat.shiftLeft_eq,
    ← Nat.shiftLeft_add_eq_or_of_lt hlow, Nat.shiftLeft_eq]
  omega

namespace Scalar

theorem ofWords?_words (x : Scalar) : ofWords? x.type x.words = some x := by
  cases x with
  | float x => rfl
  | double x =>
    have := words_join x.bits
    simp only [words, type, ofWords?]
    rw [this]
  | int n => simp [words, type, ofWords?]
  | uint n => rfl
  | bool b => cases b <;> rfl

theorem ofBytes?_bytes (x : Scalar) : ofBytes? x.type x.bytes = some x := by
  rw [ofBytes?, if_pos x.length_bytes, bytes, wordsOfBytes_flatMap, ofWords?_words]

/-- Conversion to its own type leaves a component as it is. -/
theorem convert_type (x : Scalar) : x.convert x.type = x := by
  cases x <;> rfl

end Scalar

theorem Value.data_ofScalar (x : Scalar) : (Value.ofScalar x).data = x.bytes := by
  simp [Value.ofScalar, Value.ofComponents, Ty.component?, Ty.componentCount, Scalar.convert_type]

theorem Value.text_ofScalar (x : Scalar) : (Value.ofScalar x).text = x.text := by
  have hty : (Value.ofScalar x).ty = .scalar x.type := rfl
  have hlen := x.length_bytes
  rw [Value.text, data_ofScalar, hty, Value.textOf, Value.componentTexts]
  simp [List.range_succ, ← hlen, Scalar.ofBytes?_bytes, String.join]

end ShaderExpr
