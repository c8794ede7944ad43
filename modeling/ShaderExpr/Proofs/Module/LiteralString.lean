import ShaderExpr.Module.LiteralString
import ShaderExpr.Proofs.Module.Ids
import ShaderExpr.Proofs.Value.Bytes

namespace ShaderExpr

/-- The byte of the highest order decides whether a word is a small number. -/
theorem wordOfBytes_lt_iff {a b c d : UInt8} :
    (wordOfBytes a b c d).toNat < 0x1000000 ↔ d = 0 := by
  have ha := a.toNat_lt
  have hb := b.toNat_lt
  have hc := c.toNat_lt
  have hd := d.toNat_lt
  rw [wordOfBytes, UInt32.toNat_ofNat', ← UInt8.toNat_inj, UInt8.toNat_zero]
  omega

namespace LiteralString

variable {s : String} {words rest : List UInt32}

/-- Only U+0000 is written with a zero byte: the bytes of all longer forms have their highest bit
    set. -/
theorem zero_mem_utf8EncodeChar {c : Char} : 0 ∈ String.utf8EncodeChar c ↔ c = '\x00' := by
  have hbyte (n : Nat) : 0 = UInt8.ofNat n ↔ n % 0x100 = 0 := by
    rw [← UInt8.toNat_inj, UInt8.toNat_ofNat', eq_comm]
    rfl
  have hchar : c = '\x00' ↔ c.val.toNat = 0 :=
    ⟨fun h => by rw [h]; rfl, fun h => Char.ext (UInt32.toNat.inj h)⟩
  rw [hchar, String.utf8EncodeChar]
  split
  · simp only [List.mem_singleton, hbyte]
    omega
  split
  · simp only [List.mem_cons, List.not_mem_nil, or_false, hbyte]
    omega
  split
  · simp only [List.mem_cons, List.not_mem_nil, or_false, hbyte]
    omega
  · simp only [List.mem_cons, List.not_mem_nil, or_false, hbyte]
    omega

theorem zero_mem_toUTF8 : 0 ∈ s.toUTF8.data.toList ↔ '\x00' ∈ s.toList := by
  have hbytes : s.toUTF8.data.toList = s.toList.flatMap String.utf8EncodeChar := by
    rw [String.toUTF8_eq_toByteArray, ← String.utf8Encode_toList, List.utf8Encode,
      List.data_toByteArray]
  simp only [hbytes, List.mem_flatMap, zero_mem_utf8EncodeChar, exists_eq_right]

theorem length_toUTF8 : s.toUTF8.data.toList.length = s.utf8ByteSize := rfl

/-- One to four zeros stand behind the bytes of a string. -/
theorem flatMap_encode (s : String) : (encode s).flatMap wordBytes =
    s.toUTF8.data.toList ++ List.replicate (4 - s.utf8ByteSize % 4) 0 := by
  have hlength : (s.toUTF8.data.toList ++ List.replicate (4 - s.utf8ByteSize % 4) 0).length =
      4 * (s.utf8ByteSize / 4 + 1) := by
    rw [List.length_append, List.length_replicate, length_toUTF8]
    omega
  exact flatMap_wordBytes hlength

theorem length_encode (s : String) : (encode s).length = s.utf8ByteSize / 4 + 1 := by
  have hbytes := congrArg List.length (flatMap_encode s)
  rw [length_flatMap_wordBytes, List.length_append, List.length_replicate, length_toUTF8] at hbytes
  omega

theorem fromUTF8?_eq_some_iff {bytes : List UInt8} :
    String.fromUTF8? ⟨bytes.toArray⟩ = some s ↔ s.toUTF8.data.toList = bytes := by
  constructor
  · intro h
    unfold String.fromUTF8? at h
    split at h
    · rw [← Option.some.inj h]
      rfl
    · simp at h
  · rintro rfl
    exact dif_pos s.isValidUTF8

theorem takeWhile_terminated {front behind : List UInt8} (h : 0 ∉ front) :
    (front ++ 0 :: behind).takeWhile (· != 0) = front := by
  have hfront : ∀ b ∈ front, (b != 0) = true := fun b hb =>
    bne_iff_ne.mpr fun hzero => h (hzero ▸ hb)
  rw [List.takeWhile_append_of_pos hfront, List.takeWhile_cons_of_neg (by decide), List.append_nil]

/-- A string is read just if it is without U+0000 and its bytes and a zero come first. -/
theorem decode?_eq_some_iff : decode? words = some s ↔ '\x00' ∉ s.toList ∧
    ∃ behind, words.flatMap wordBytes = s.toUTF8.data.toList ++ 0 :: behind := by
  rw [← zero_mem_toUTF8]
  constructor
  · intro h
    simp only [decode?, List.contains_iff_mem] at h
    split at h
    · rename_i hzero
      obtain ⟨front, behind, hsplit, hfront⟩ := List.eq_append_cons_of_mem hzero
      rw [hsplit, takeWhile_terminated hfront, fromUTF8?_eq_some_iff] at h
      rw [h]
      exact ⟨hfront, behind, hsplit⟩
    · simp at h
  · rintro ⟨hplain, behind, hbytes⟩
    rw [decode?, hbytes, if_pos (by simp), takeWhile_terminated hplain, fromUTF8?_eq_some_iff]

theorem decode?_encode_append_iff (s : String) (rest : List UInt32) :
    decode? (encode s ++ rest) = some s ↔ '\x00' ∉ s.toList := by
  obtain ⟨more, hmore⟩ : ∃ more, 4 - s.utf8ByteSize % 4 = more + 1 :=
    ⟨3 - s.utf8ByteSize % 4, by omega⟩
  refine decode?_eq_some_iff.trans (and_iff_left ?_)
  rw [List.flatMap_append, flatMap_encode, hmore, List.replicate_succ, List.append_assoc]
  exact ⟨_, rfl⟩

/-- The word with the zero is the last one of a string, as all words in front of it are full. -/
theorem behind_wordsOfBytes : ∀ {bytes : List UInt8}, 0 ∉ bytes →
    behind (wordsOfBytes (bytes ++ List.replicate (4 - bytes.length % 4) 0) ++ rest) = rest
  | a :: b :: c :: d :: bytes, h => by
    simp only [List.mem_cons, not_or] at h
    obtain ⟨-, -, -, hd, hmore⟩ := h
    have hfull : ¬ (wordOfBytes a b c d).toNat < 0x1000000 := fun hlt =>
      hd (wordOfBytes_lt_iff.mp hlt).symm
    have hlength : (a :: b :: c :: d :: bytes).length % 4 = bytes.length % 4 := by
      simp only [List.length_cons]
      omega
    rw [hlength]
    change behind (wordOfBytes a b c d :: _) = rest
    rw [behind, if_neg hfull]
    exact behind_wordsOfBytes hmore
  | [], _ => rfl
  | [_], _ | [_, _], _ | [_, _, _], _ => by
    change behind (wordOfBytes _ _ _ 0 :: rest) = rest
    rw [behind, if_pos (wordOfBytes_lt_iff.mpr rfl)]

/-- Operands behind a string are told from it. -/
theorem behind_encode (plain : '\x00' ∉ s.toList) : behind (encode s ++ rest) = rest :=
  behind_wordsOfBytes (zero_mem_toUTF8.not.mpr plain)

/-- Literal strings survive encoding, whatever words follow, just if they are without U+0000: in
    UTF-8 only this one is written with a zero byte, so in any other string the first zero is the
    one behind it. A string takes a word for each four bytes that it has in full and one more, and
    behind its bytes there are only zeros. Strings without U+0000 that are written alike are the
    same. -/
theorem encode_lossless :
    (∀ (s : String) (rest : List UInt32),
      decode? (encode s ++ rest) = some s ↔ '\x00' ∉ s.toList) ∧
    (∀ s : String, (encode s).length = s.utf8ByteSize / 4 + 1 ∧ (encode s).flatMap wordBytes =
      s.toUTF8.data.toList ++ List.replicate (4 - s.utf8ByteSize % 4) 0) ∧
    ∀ s t : String, '\x00' ∉ s.toList → '\x00' ∉ t.toList → encode s = encode t → s = t := by
  refine ⟨decode?_encode_append_iff, fun s => ⟨length_encode s, flatMap_encode s⟩,
    fun s t hs ht h => ?_⟩
  have hread := (decode?_encode_append_iff s []).mpr hs
  rw [h, (decode?_encode_append_iff t []).mpr ht] at hread
  exact (Option.some.inj hread).symm

/-- A string that fills a word, in front of words with zeros in them, and one of several bytes to a
    character. -/
theorem encode_lossless_main :
    '\x00' ∉ "main".toList ∧ encode "main" = encode ("ma" ++ "in") ∧ "main" = "ma" ++ "in" ∧
      decode? (encode "main" ++ [7, 6]) = some "main" ∧ (encode "main").length = 2 ∧
      decode? (encode "né€" ++ [7]) = some "né€" ∧ (encode "né€").length = 2 := by
  obtain ⟨hread, hwritten, hinjective⟩ := encode_lossless
  have hplain : '\x00' ∉ "main".toList := by decide
  have hsame : encode "main" = encode ("ma" ++ "in") := by decide
  exact ⟨hplain, hsame, hinjective "main" ("ma" ++ "in") hplain (by decide) hsame,
    (hread "main" [7, 6]).mpr hplain, (hwritten "main").1, (hread "né€" [7]).mpr (by decide),
    (hwritten "né€").1⟩

end LiteralString

end ShaderExpr
