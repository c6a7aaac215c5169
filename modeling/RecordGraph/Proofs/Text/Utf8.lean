import Mathlib.Tactic.SplitIfs
import RecordGraph.Text.Utf8

/-!
# Text and its bytes

`Utf8.decode_encode`: the bytes of a text are read back as that text. One character comes first
(`decodeFrom_char`), by the number of its bytes; the text is an induction on its characters.
-/
namespace RecordGraph.Utf8

/-! ## Bytes of a character -/

variable {a b c d : UInt8}

theorem between_iff {low high : UInt8} :
    (decide (low ≤ a) && decide (a < high)) = true ↔
      low.toNat ≤ a.toNat ∧ a.toNat < high.toNat := by
  rw [Bool.and_eq_true, decide_eq_true_eq, decide_eq_true_eq, UInt8.le_iff_toNat_le,
    UInt8.lt_iff_toNat_lt]

theorem isContinuation_iff : isContinuation b = true ↔ 0x80 ≤ b.toNat ∧ b.toNat < 0xc0 :=
  between_iff

theorem secondOfThree_iff : secondOfThree a b = true ↔ 0x80 ≤ b.toNat ∧ b.toNat < 0xc0 ∧
    (a.toNat = 0xe0 → 0xa0 ≤ b.toNat) ∧ (a.toNat = 0xed → b.toNat < 0xa0) := by
  simp only [secondOfThree, beq_iff_eq, ← UInt8.toNat_inj, UInt8.reduceToNat]
  split_ifs
  · simp only [between_iff, UInt8.reduceToNat]
    omega
  · simp only [between_iff, UInt8.reduceToNat]
    omega
  · rw [isContinuation_iff]
    omega

theorem secondOfFour_iff : secondOfFour a b = true ↔ 0x80 ≤ b.toNat ∧ b.toNat < 0xc0 ∧
    (a.toNat = 0xf0 → 0x90 ≤ b.toNat) ∧ (a.toNat = 0xf4 → b.toNat < 0x90) := by
  simp only [secondOfFour, beq_iff_eq, ← UInt8.toNat_inj, UInt8.reduceToNat]
  split_ifs
  · simp only [between_iff, UInt8.reduceToNat]
    omega
  · simp only [between_iff, UInt8.reduceToNat]
    omega
  · rw [isContinuation_iff]
    omega

section

variable (index : Nat) (rest : List UInt8)

theorem decodeFrom_one (ha : a.toNat < 0x80) :
    decodeFrom index (a :: rest)
      = (decodeFrom (index + 1) rest).map (Char.ofNat a.toNat :: ·) := by
  rw [decodeFrom.eq_def]
  dsimp only
  rw [if_pos (UInt8.lt_iff_toNat_lt.2 ha)]

theorem decodeFrom_two (ha : 0xc2 ≤ a.toNat ∧ a.toNat < 0xe0) (hb : isContinuation b = true) :
    decodeFrom index (a :: b :: rest) = (decodeFrom (index + 2) rest).map
      (Char.ofNat (a.toNat % 32 * 64 + payload b) :: ·) := by
  rw [decodeFrom.eq_def]
  simp only [Bool.and_eq_true, decide_eq_true_eq, UInt8.le_iff_toNat_le, UInt8.lt_iff_toNat_lt,
    UInt8.reduceToNat, hb, Bool.not_true, Bool.false_eq_true, if_false]
  rw [if_neg (by omega), if_pos ha]

theorem decodeFrom_three (ha : 0xe0 ≤ a.toNat ∧ a.toNat < 0xf0)
    (hb : secondOfThree a b = true) (hc : isContinuation c = true) :
    decodeFrom index (a :: b :: c :: rest) = (decodeFrom (index + 3) rest).map
      (Char.ofNat (a.toNat % 16 * 4096 + payload b * 64 + payload c) :: ·) := by
  rw [decodeFrom.eq_def]
  simp only [Bool.and_eq_true, decide_eq_true_eq, UInt8.le_iff_toNat_le, UInt8.lt_iff_toNat_lt,
    UInt8.reduceToNat, hb, hc, Bool.not_true, Bool.false_eq_true, if_false]
  rw [if_neg (by omega), if_neg (by omega), if_pos ha]

theorem decodeFrom_four (ha : 0xf0 ≤ a.toNat ∧ a.toNat < 0xf5)
    (hb : secondOfFour a b = true) (hc : isContinuation c = true) (hd : isContinuation d = true) :
    decodeFrom index (a :: b :: c :: d :: rest) = (decodeFrom (index + 4) rest).map
      (Char.ofNat
        (a.toNat % 8 * 262144 + payload b * 4096 + payload c * 64 + payload d) :: ·) := by
  rw [decodeFrom.eq_def]
  simp only [Bool.and_eq_true, decide_eq_true_eq, UInt8.le_iff_toNat_le, UInt8.lt_iff_toNat_lt,
    UInt8.reduceToNat, hb, hc, hd, Bool.not_true, Bool.false_eq_true, if_false]
  rw [if_neg (by omega), if_neg (by omega), if_neg (by omega), if_pos ha]

end

theorem toNat_ofNat {n : Nat} (h : n < 256) : (UInt8.ofNat n).toNat = n :=
  UInt8.toNat_ofNat_of_lt' h

/-- A byte that continues a character carries its last six bits. -/
theorem continuation (n : Nat) : isContinuation (UInt8.ofNat (n % 64 + 128)) = true ∧
    payload (UInt8.ofNat (n % 64 + 128)) = n % 64 := by
  rw [isContinuation_iff, payload, toNat_ofNat (by omega)]
  omega

/-! ## Characters and texts -/

/-- The bytes of a character are read back as that character, whatever follows. -/
theorem decodeFrom_char (c : Char) (index : Nat) (rest : List UInt8) :
    decodeFrom index (String.utf8EncodeChar c ++ rest)
      = (decodeFrom (index + (String.utf8EncodeChar c).length) rest).map (c :: ·) := by
  have hvalid : c.val.toNat < 0xd800 ∨ 0xdfff < c.val.toNat ∧ c.val.toNat < 0x110000 := c.valid
  have hchar : Char.ofNat c.val.toNat = c := Char.ofNat_toNat c
  rw [String.utf8EncodeChar]
  generalize c.val.toNat = v at hvalid hchar ⊢
  split_ifs with hone htwo hthree
  · rw [List.singleton_append, decodeFrom_one _ _ (by rw [toNat_ofNat] <;> omega),
      toNat_ofNat (by omega), hchar, List.length_singleton]
  · obtain ⟨hb, hp⟩ := continuation v
    have hcode : (v / 64 % 32 + 192) % 32 * 64 + v % 64 = v := by omega
    rw [List.cons_append, List.singleton_append,
      decodeFrom_two _ _ (by rw [toNat_ofNat] <;> omega) hb, hp, toNat_ofNat (by omega), hcode,
      hchar]
    rfl
  · obtain ⟨-, hp⟩ := continuation (v / 64)
    obtain ⟨hc, hq⟩ := continuation v
    have hcode : (v / 4096 % 16 + 224) % 16 * 4096 + v / 64 % 64 * 64 + v % 64 = v := by omega
    have hsecond : secondOfThree (UInt8.ofNat (v / 4096 % 16 + 224))
        (UInt8.ofNat (v / 64 % 64 + 128)) = true := by
      rw [secondOfThree_iff, toNat_ofNat (by omega), toNat_ofNat (by omega)]
      omega
    rw [List.cons_append, List.cons_append, List.singleton_append,
      decodeFrom_three _ _ (by rw [toNat_ofNat] <;> omega) hsecond hc, hp, hq,
      toNat_ofNat (by omega), hcode, hchar]
    rfl
  · obtain ⟨-, hp⟩ := continuation (v / 4096)
    obtain ⟨hc, hq⟩ := continuation (v / 64)
    obtain ⟨hd, hr⟩ := continuation v
    have hcode : (v / 262144 % 8 + 240) % 8 * 262144 + v / 4096 % 64 * 4096 + v / 64 % 64 * 64
        + v % 64 = v := by omega
    have hsecond : secondOfFour (UInt8.ofNat (v / 262144 % 8 + 240))
        (UInt8.ofNat (v / 4096 % 64 + 128)) = true := by
      rw [secondOfFour_iff, toNat_ofNat (by omega), toNat_ofNat (by omega)]
      omega
    rw [List.cons_append, List.cons_append, List.cons_append, List.singleton_append,
      decodeFrom_four _ _ (by rw [toNat_ofNat] <;> omega) hsecond hc hd, hp, hq, hr,
      toNat_ofNat (by omega), hcode, hchar]
    rfl

theorem decodeFrom_chars (cs : List Char) (index : Nat) :
    decodeFrom index (cs.flatMap String.utf8EncodeChar) = .ok cs := by
  induction cs generalizing index with
  | nil => rw [List.flatMap_nil, decodeFrom]
  | cons c cs ih => rw [List.flatMap_cons, decodeFrom_char, ih, Except.map]

theorem toList_loop (bytes : ByteArray) (i : Nat) (read : List UInt8) :
    ByteArray.toList.loop bytes i read = read.reverse ++ bytes.data.toList.drop i := by
  rw [ByteArray.toList.loop]
  split
  · rename_i h
    have hi : i < bytes.data.toList.length := h
    have hget : bytes.get! i = bytes.data.toList[i] := getElem!_pos bytes.data i h
    rw [toList_loop bytes (i + 1), List.reverse_cons, List.append_assoc, List.singleton_append,
      hget, List.drop_eq_getElem_cons hi]
  · rename_i h
    rw [List.drop_eq_nil_of_le (Nat.not_lt.1 h), List.append_nil]

/-- The bytes of a text are those of its characters. -/
theorem encode_eq (s : String) : encode s = s.toList.flatMap String.utf8EncodeChar := by
  rw [encode, ByteArray.toList, toList_loop, List.reverse_nil, List.nil_append, List.drop_zero,
    String.toUTF8_eq_toByteArray, ← String.utf8Encode_toList, List.utf8Encode,
    List.toList_data_toByteArray]

/-- The bytes of a text are read back as that text. -/
theorem decode_encode (s : String) : decode (encode s) = .ok s := by
  rw [decode, encode_eq, decodeFrom_chars, Except.map, String.ofList_toList]

end RecordGraph.Utf8
