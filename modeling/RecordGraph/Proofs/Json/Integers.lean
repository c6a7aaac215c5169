import RecordGraph.Proofs.Json.Numerals

/-!
# Integers in documents

A written integer is a number without fraction and exponent (`toList_toString`). `Json.int64_ofInt`
and `Json.uint64_ofNat`: integers of 64 bits are read back in their full range.
-/
namespace RecordGraph.Json

open Literal

/-! ## Integers as they are written -/

/-- No number but 0 begins with 0. -/
theorem head_toDigits_ne_zero {n : Nat} (hn : n ≠ 0) : (Nat.toDigits 10 n).head? ≠ some '0' := by
  induction n using Nat.strongRecOn with
  | ind n ih =>
    by_cases hlt : n < 10
    · rw [Nat.toDigits_of_lt_base hlt, List.head?_cons]
      exact (by decide : ∀ m < 10, m ≠ 0 → some (Nat.digitChar m) ≠ some '0') n hlt hn
    · rw [Nat.toDigits_of_base_le (by decide) (Nat.not_lt.1 hlt), List.head?_append,
        Option.or_of_isSome (List.isSome_head?.2 Nat.toDigits_ne_nil)]
      exact ih (n / 10) (by omega) (by omega)

/-- The parts of an integer. -/
def integerParts (i : Int) : Written := ⟨decide (i < 0), Nat.toDigits 10 i.natAbs, none, none⟩

theorem proper_integerParts (i : Int) : (integerParts i).Proper where
  whole := isDigits_toDigits _
  leading := by
    rw [integerParts]
    by_cases hi : i.natAbs = 0
    · exact .inl (by rw [hi, Nat.toDigits_zero])
    · exact .inr (head_toDigits_ne_zero hi)
  fraction := nofun

/-- An integer is written with a sign and digits. -/
theorem toList_toString (i : Int) : (toString i).toList = (integerParts i).chars := by
  rw [Int.toString_eq_repr, Int.repr_eq_if, integerParts, Written.chars, signChars, fractionChars,
    exponentChars, List.append_nil, List.append_nil]
  split_ifs with hnonneg hneg hneg
  · exact absurd (of_decide_eq_true hneg) (by omega)
  · rw [Nat.repr_eq_ofList_toDigits, String.toList_ofList, List.nil_append,
      show i.toNat = i.natAbs by omega]
  · rw [String.toList_append, Nat.repr_eq_ofList_toDigits, show "-".toList = ['-'] from rfl,
      String.toList_ofList, show (-i).toNat = i.natAbs by omega]
  · exact absurd (decide_eq_true (by omega)) hneg

/-- The parts of a written integer. -/
theorem written_ofInt (i : Int) : Written.ofChars (toString i).toList =
    ⟨decide (i < 0), Nat.toDigits 10 i.natAbs, none, none⟩ := by
  rw [toList_toString, ofChars_chars (proper_integerParts i), integerParts]

/-! ## Integers of 64 bits -/

theorem number_ofNat {n : Nat} (hn : n < 2 ^ 64) :
    number? (toString (n : Int)).toList = some (.unsigned (UInt64.ofNat n)) := by
  have hnonneg : decide ((n : Int) < 0) = false := decide_eq_false (by omega)
  simp only [number?, written_ofInt, hnonneg, natOfDigits_toDigits, Int.natAbs_natCast]
  rw [if_pos ⟨rfl, rfl, hn⟩]
  rfl

theorem number_ofNeg {i : Int} (hneg : i < 0) (hi : -2 ^ 63 ≤ i) :
    number? (toString i).toList = some (.negative (Int64.ofInt i)) := by
  simp only [number?, written_ofInt, decide_eq_true hneg, natOfDigits_toDigits]
  rw [if_pos ⟨rfl, rfl, by omega⟩, if_neg (by decide), if_neg (by omega),
    show -(i.natAbs : Int) = i by omega]

/-- An unsigned integer is read back. -/
theorem uint64_ofNat {n : Nat} (hn : n < 2 ^ 64) : (ofNat n).uint64? = some (UInt64.ofNat n) := by
  have h := number_ofNat hn
  rw [show toString (n : Int) = toString n from rfl] at h
  rw [ofNat, uint64?, h]

/-- A signed integer is read back. -/
theorem int64_ofInt (i : Int64) : (ofInt i.toInt).int64? = some i := by
  have hle := i.le_toInt
  have hlt := i.toInt_lt
  by_cases hneg : i.toInt < 0
  · rw [ofInt, int64?, number_ofNeg hneg hle]
    simp only [Int64.ofInt_toInt]
  · have hnat : ((i.toInt.toNat : Nat) : Int) = i.toInt := Int.toNat_of_nonneg (by omega)
    have h := number_ofNat (show i.toInt.toNat < 2 ^ 64 by omega)
    rw [hnat] at h
    have hword : ((UInt64.ofNat i.toInt.toNat).toNat : Int) = i.toInt := by
      rw [UInt64.toNat_ofNat_of_lt' (by rw [UInt64.size]; omega), hnat]
    simp only [ofInt, int64?, h, hword]
    rw [Width.signed?, if_pos ⟨by omega, by omega⟩, Int64.ofInt_toInt]

end RecordGraph.Json
