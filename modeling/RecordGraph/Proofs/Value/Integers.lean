import Mathlib.Algebra.Group.Int.Defs
import Mathlib.Algebra.Group.Nat.Defs
import RecordGraph.Proofs.Number.Denoted
import RecordGraph.Proofs.Value.Decode

/-!
# The number a decoded integer is

`Value.Denotes` says, apart from any receiver, which number a raw value denotes. An integer receiver
stands for a range of integers, `Receiver.integers?`. Both ways of reading, with a sign and without
one, first make a word of 64 bits, then look whether it is in the range.

**Results.**
* `Receiver.exists_reads_of_signed?`, `Receiver.signed?_of_reads` and the same without a sign: what
  is read is the number denoted, as a word.
* `Integers.decode_eq_ok_iff`, `Integers.denotes_and_holds_iff`: what a decoder gives, and which
  value of its range an integer is.
* `Receiver.decode_integer`: what an integer receiver gives is the number the raw value denotes, and
  a number beyond its range is refused. Whole doubles beyond the range of a receiver of 64 bits are
  cut to its nearest end instead.
-/
namespace RecordGraph

/-! ## Raw values -/

/-- The number that a raw value denotes: for a double the exact number of its bits, for a text the
integer that it spells between blanks. -/
def Value.Denotes : Value → ℚ → Prop
  | .int i, q => q = i.toInt
  | .uint u, q => q = u.toNat
  | .bool b, q => q = if b then 1 else 0
  | .float x, q => x.isFinite = true ∧ q = x.toRat
  | .text s, q => ∃ n : Int, Literal.SpellsInt (Text.trim s).toList n ∧ q = n
  | _, _ => False

theorem Value.int_denotes_iff {i : Int64} {n : Int} : (Value.int i).Denotes n ↔ n = i.toInt :=
  Int.cast_inj

theorem Value.uint_denotes_iff {u : UInt64} {n : Int} : (Value.uint u).Denotes n ↔ n = u.toNat := by
  rw [Value.Denotes, ← Int.cast_natCast, Int.cast_inj]

theorem Value.bool_denotes_iff {b : Bool} {n : Int} :
    (Value.bool b).Denotes n ↔ n = if b then 1 else 0 := by
  rw [Value.Denotes]
  exact_mod_cast Iff.rfl

theorem Value.float_denotes_iff {x : Binary64} {n : Int} :
    (Value.float x).Denotes n ↔ x.toInt? = some n := by
  rw [Binary64.toInt?_eq_some_iff, eq_comm (a := x.toRat)]
  exact Iff.rfl

theorem Value.text_denotes_iff {s : String} {n : Int} :
    (Value.text s).Denotes n ↔ Literal.SpellsInt (Text.trim s).toList n := by
  simp only [Value.Denotes, Int.cast_inj, exists_eq_right']

theorem Value.Denotes.ne_null {v : Value} {q : ℚ} (h : v.Denotes q) : v ≠ .null := by
  rintro rfl
  exact h

theorem Value.Denotes.unique {v : Value} {p q : ℚ} (hp : v.Denotes p) (hq : v.Denotes q) :
    p = q := by
  cases v with
  | int _ | uint _ | bool _ => exact hp.trans hq.symm
  | float _ => exact hp.2.trans hq.2.symm
  | text _ =>
    obtain ⟨m, hm, rfl⟩ := hp
    obtain ⟨n, hn, rfl⟩ := hq
    rw [hm.unique hn]
  | null | bytes _ | time _ | uuid _ => exact hp.elim

/-! ## Ranges -/

/-- The integers of so many bits, with or without a sign. -/
structure Integers where
  hasSign : Bool
  bits : Nat

namespace Integers

def least (k : Integers) : Int := if k.hasSign then -2 ^ (k.bits - 1) else 0

def greatest (k : Integers) : Int := if k.hasSign then 2 ^ (k.bits - 1) - 1 else 2 ^ k.bits - 1

def Contains (k : Integers) (n : Int) : Prop := k.least ≤ n ∧ n ≤ k.greatest

/-- The integer of the range that is nearest to a given one. -/
def nearest (k : Integers) (n : Int) : Int := max k.least (min n k.greatest)

/-- All 64 bits of a word. -/
def word (k : Integers) : Integers := { k with bits := 64 }

theorem nearest_of_contains {k : Integers} {n : Int} (h : k.Contains n) : k.nearest n = n := by
  obtain ⟨hle, hge⟩ := h
  rw [nearest, min_eq_left hge, max_eq_right hle]

/-- An integer of the range as a value. -/
def value (k : Integers) (n : Int) : Value :=
  if k.hasSign then .int (Int64.ofInt n) else .uint (UInt64.ofNat n.toNat)

/-- The values of the range. -/
def Holds (k : Integers) (v : Value) : Prop :=
  if k.hasSign then Receiver.IsSigned k.bits v else Receiver.IsUnsigned k.bits v

def decode (k : Integers) (raw : Value) : Except DecodeFault Value :=
  if k.hasSign then Receiver.decodeSigned k.bits raw else Receiver.decodeUnsigned k.bits raw

/-- Without a sign, a text with a minus is read as no number, not even before zero. -/
def Admits (k : Integers) (raw : Value) : Prop :=
  k.hasSign = false → ∀ s, raw = .text s → (Text.trim s).toList.head? ≠ some '-'

/-- The number read from a raw value fits a word, or is that of a double, then of any size. A double
below zero is read only where signs are. -/
def Reads (k : Integers) (raw : Value) (n : Int) : Prop :=
  k.Admits raw ∧ raw.Denotes n ∧
    (k.word.Contains n ∨ (∃ x, raw = .float x) ∧ (k.hasSign = false → 0 ≤ n))

/-- A whole double beyond a range of 64 bits. One below zero is nothing where no signs are. -/
def Cuts (k : Integers) (raw : Value) (n : Int) : Prop :=
  k.bits = 64 ∧ (∃ x, raw = .float x) ∧ raw.Denotes n ∧ ¬k.Contains n ∧ (k.hasSign = false → 0 ≤ n)

section

variable {k : Integers} {n : Int}

theorem contains_iff_of_sign (hk : k.hasSign = true) :
    k.Contains n ↔ -2 ^ (k.bits - 1) ≤ n ∧ n < 2 ^ (k.bits - 1) := by
  rw [Contains, least, greatest, hk, if_pos rfl, if_pos rfl]
  exact and_congr_right fun _ => Int.le_sub_one_iff

theorem contains_iff_of_no_sign (hk : k.hasSign = false) :
    k.Contains n ↔ 0 ≤ n ∧ n < 2 ^ k.bits := by
  rw [Contains, least, greatest, hk, if_neg Bool.false_ne_true, if_neg Bool.false_ne_true]
  exact and_congr_right fun _ => Int.le_sub_one_iff

theorem word_contains_of_sign (hk : k.hasSign = true) :
    k.word.Contains n ↔ -2 ^ 63 ≤ n ∧ n < 2 ^ 63 := contains_iff_of_sign hk

theorem word_contains_of_no_sign (hk : k.hasSign = false) :
    k.word.Contains n ↔ 0 ≤ n ∧ n < 2 ^ 64 := contains_iff_of_no_sign hk

theorem clampSigned_eq (hk : k.hasSign = true) : Receiver.clampSigned n = k.word.nearest n := by
  rw [nearest, least, greatest, word, hk, if_pos rfl, if_pos rfl]
  rfl

theorem clampUnsigned_eq (hk : k.hasSign = false) :
    (Receiver.clampUnsigned n : Int) = k.word.nearest n := by
  rw [nearest, least, greatest, word, hk, if_neg Bool.false_ne_true, if_neg Bool.false_ne_true,
    Receiver.clampUnsigned, Int.toNat_of_nonneg (le_max_left _ _)]
  rfl

end

end Integers

namespace Receiver

/-- The integers that a receiver stands for, if it is for integers. -/
def integers? (receiver : Receiver) : Option Integers :=
  receiver.intBits?.map fun bits =>
    ⟨!(receiver matches .uint8 | .uint16 | .uint32 | .uint64), bits⟩

/-- What is read with a sign is the number denoted, as a word. -/
theorem exists_reads_of_signed? {k : Integers} (hk : k.hasSign = true) {raw : Value} {i : Int}
    (h : signed? raw = .ok i) : ∃ n, k.Reads raw n ∧ i = k.word.nearest n := by
  have hadmits : k.Admits raw := fun hsign => absurd (hsign.symm.trans hk) Bool.false_ne_true
  have hfits (hden : raw.Denotes i) (hi : -2 ^ 63 ≤ i ∧ i < 2 ^ 63) :
      ∃ n, k.Reads raw n ∧ i = k.word.nearest n := by
    have hcontains := (Integers.word_contains_of_sign hk).2 hi
    exact ⟨i, ⟨hadmits, hden, .inl hcontains⟩, (Integers.nearest_of_contains hcontains).symm⟩
  have hi := signed?_bounds h
  cases raw with
  | int j =>
    cases h
    exact hfits (Value.int_denotes_iff.2 rfl) hi
  | uint u =>
    unfold signed? at h
    dsimp only at h
    split at h
    · cases h
      exact hfits (Value.uint_denotes_iff.2 rfl) hi
    · cases h
  | bool b =>
    cases h
    exact hfits (Value.bool_denotes_iff.2 rfl) hi
  | float x =>
    unfold signed? at h
    dsimp only at h
    split at h
    · rename_i n hn
      cases h
      exact ⟨n, ⟨hadmits, Value.float_denotes_iff.2 hn, .inr ⟨⟨x, rfl⟩, fun hsign =>
        absurd (hsign.symm.trans hk) Bool.false_ne_true⟩⟩, Integers.clampSigned_eq hk⟩
    · cases h
  | text s =>
    unfold signed? at h
    dsimp only at h
    split at h
    · rename_i j hj
      cases h
      exact hfits (Value.text_denotes_iff.2 (Literal.readInt64?_eq_some_iff.1 hj)) hi
    · cases h
  | null | bytes _ | time _ | uuid _ => cases h

/-- The number denoted is read with a sign, as a word. -/
theorem signed?_of_reads {k : Integers} (hk : k.hasSign = true) {raw : Value} {n : Int}
    (h : k.Reads raw n) : signed? raw = .ok (k.word.nearest n) := by
  obtain ⟨-, hden, hfits⟩ := h
  have hword (hfloat : ¬∃ x, raw = .float x) : k.word.Contains n :=
    hfits.resolve_right fun h => hfloat h.1
  cases raw with
  | int j =>
    rw [Integers.nearest_of_contains (hword (by simp)), Value.int_denotes_iff.1 hden]
    rfl
  | uint u =>
    obtain rfl := Value.uint_denotes_iff.1 hden
    have hlt := ((Integers.word_contains_of_sign hk).1 (hword (by simp))).2
    rw [Integers.nearest_of_contains (hword (by simp))]
    unfold signed?
    dsimp only
    rw [if_pos (by omega)]
  | bool b =>
    rw [Integers.nearest_of_contains (hword (by simp)), Value.bool_denotes_iff.1 hden]
    rfl
  | float x =>
    unfold signed?
    dsimp only
    rw [Value.float_denotes_iff.1 hden, ← Integers.clampSigned_eq hk]
  | text s =>
    obtain ⟨hle, hlt⟩ := (Integers.word_contains_of_sign hk).1 (hword (by simp))
    have hn := Int64.toInt_ofInt_of_le hle hlt
    have hread : Literal.readInt64? (Text.trim s) = some (Int64.ofInt n) := by
      rw [Literal.readInt64?_eq_some_iff, hn]
      exact Value.text_denotes_iff.1 hden
    rw [Integers.nearest_of_contains (hword (by simp))]
    unfold signed?
    dsimp only
    rw [hread]
    exact congrArg Except.ok hn
  | null | bytes _ | time _ | uuid _ => exact hden.elim

/-- What is read without a sign is the number denoted, as a word. -/
theorem exists_reads_of_unsigned? {k : Integers} (hk : k.hasSign = false) {raw : Value} {m : Nat}
    (h : unsigned? raw = .ok m) : ∃ n, k.Reads raw n ∧ (m : Int) = k.word.nearest n := by
  have hfits (hadmits : k.Admits raw) (hden : raw.Denotes (m : Int)) (hm : m < 2 ^ 64) :
      ∃ n, k.Reads raw n ∧ (m : Int) = k.word.nearest n := by
    have hcontains : k.word.Contains m :=
      (Integers.word_contains_of_no_sign hk).2 ⟨Int.natCast_nonneg m, by omega⟩
    exact ⟨m, ⟨hadmits, hden, .inl hcontains⟩, (Integers.nearest_of_contains hcontains).symm⟩
  have hm := unsigned?_lt h
  cases raw with
  | uint u =>
    cases h
    exact hfits nofun (Value.uint_denotes_iff.2 rfl) hm
  | int i =>
    unfold unsigned? at h
    dsimp only at h
    split at h
    · rename_i hi
      cases h
      exact hfits nofun (Value.int_denotes_iff.2 (Int.toNat_of_nonneg hi)) hm
    · cases h
  | bool b =>
    cases h
    exact hfits nofun (Value.bool_denotes_iff.2 (by cases b <;> rfl)) hm
  | float x =>
    unfold unsigned? at h
    dsimp only at h
    split at h
    · rename_i n hnonneg hn
      cases h
      obtain ⟨hfinite, hvalue⟩ := Binary64.toInt?_eq_some_iff.1 hn
      rw [Binary64.isNonneg_iff hfinite, hvalue] at hnonneg
      exact ⟨n, ⟨nofun, Value.float_denotes_iff.2 hn, .inr ⟨⟨x, rfl⟩, fun _ => by
        exact_mod_cast hnonneg⟩⟩, Integers.clampUnsigned_eq hk⟩
    · cases h
  | text s =>
    unfold unsigned? at h
    dsimp only at h
    split at h
    · rename_i u hu
      cases h
      obtain ⟨hminus, hspells⟩ := Literal.readUInt64?_eq_some_iff.1 hu
      refine hfits ?_ (Value.text_denotes_iff.2 hspells) hm
      rintro - _ ⟨⟩
      exact hminus
    · cases h
  | null | bytes _ | time _ | uuid _ => cases h

/-- The number denoted is read without a sign, as a word. -/
theorem unsigned?_of_reads {k : Integers} (hk : k.hasSign = false) {raw : Value} {n : Int}
    (h : k.Reads raw n) : unsigned? raw = .ok (k.word.nearest n).toNat := by
  obtain ⟨hadmits, hden, hfits⟩ := h
  have hword (hfloat : ¬∃ x, raw = .float x) : k.word.Contains n :=
    hfits.resolve_right fun h => hfloat h.1
  cases raw with
  | uint u =>
    rw [Integers.nearest_of_contains (hword (by simp)), Value.uint_denotes_iff.1 hden]
    rfl
  | int i =>
    obtain rfl := Value.int_denotes_iff.1 hden
    have hnonneg := ((Integers.word_contains_of_no_sign hk).1 (hword (by simp))).1
    rw [Integers.nearest_of_contains (hword (by simp))]
    unfold unsigned?
    dsimp only
    rw [if_pos hnonneg]
  | bool b =>
    rw [Integers.nearest_of_contains (hword (by simp)), Value.bool_denotes_iff.1 hden]
    cases b <;> rfl
  | float x =>
    have hn := Value.float_denotes_iff.1 hden
    obtain ⟨hfinite, hvalue⟩ := Binary64.toInt?_eq_some_iff.1 hn
    have hle : 0 ≤ n := by
      rcases hfits with hcontains | ⟨-, h⟩
      · exact ((Integers.word_contains_of_no_sign hk).1 hcontains).1
      · exact h hk
    have hnonneg : x.isNonneg = true := by
      rw [Binary64.isNonneg_iff hfinite, hvalue]
      exact_mod_cast hle
    unfold unsigned?
    dsimp only
    rw [hn, hnonneg, ← Integers.clampUnsigned_eq hk]
    rfl
  | text s =>
    obtain ⟨hle, hlt⟩ := (Integers.word_contains_of_no_sign hk).1 (hword (by simp))
    obtain ⟨m, rfl⟩ := Int.eq_ofNat_of_zero_le hle
    have hm := UInt64.toNat_ofNat_of_lt' (show m < 2 ^ 64 by omega)
    have hread : Literal.readUInt64? (Text.trim s) = some (UInt64.ofNat m) := by
      rw [Literal.readUInt64?_eq_some_iff, hm]
      exact ⟨hadmits hk s rfl, Value.text_denotes_iff.1 hden⟩
    rw [Integers.nearest_of_contains (hword (by simp))]
    unfold unsigned?
    dsimp only
    rw [hread]
    exact congrArg Except.ok hm
  | null | bytes _ | time _ | uuid _ => exact hden.elim

end Receiver

namespace Integers

variable {k : Integers} {raw v : Value} {n : Int}

theorem least_le_greatest (k : Integers) : k.least ≤ k.greatest := by
  have hsigned : (0 : Int) < 2 ^ (k.bits - 1) := Int.pow_pos (by decide)
  have hunsigned : (0 : Int) < 2 ^ k.bits := Int.pow_pos (by decide)
  rw [least, greatest]
  split_ifs <;> omega

theorem contains_nearest (k : Integers) (n : Int) : k.Contains (k.nearest n) :=
  ⟨le_max_left _ _, max_le k.least_le_greatest (min_le_right _ _)⟩

/-- Narrower ranges are within the words, and short of every end that a word has below zero or
above. -/
theorem within_word (hk : k.bits ≤ 64) : k.word.least ≤ k.least ∧ k.greatest ≤ k.word.greatest ∧
    (k.bits < 64 → k.greatest < k.word.greatest ∧
      (k.hasSign = true → k.word.least < k.least)) := by
  have hpow {a b : Nat} (h : a ≤ b) : (2 ^ a : Int) ≤ 2 ^ b := pow_le_pow_right₀ (by decide) h
  have hpow_lt {a b : Nat} (h : a < b) : (2 ^ a : Int) < 2 ^ b := pow_lt_pow_right₀ (by decide) h
  cases hsign : k.hasSign with
  | false =>
    have hle := hpow hk
    simp only [least, greatest, word, hsign, Bool.false_eq_true, if_false]
    exact ⟨le_refl _, by omega, fun hlt => ⟨by have := hpow_lt hlt; omega, nofun⟩⟩
  | true =>
    have hle := hpow (show k.bits - 1 ≤ 64 - 1 by omega)
    simp only [least, greatest, word, hsign, if_true]
    refine ⟨by omega, by omega, fun hlt => ?_⟩
    have := hpow_lt (show k.bits - 1 < 64 - 1 by omega)
    exact ⟨by omega, fun _ => by omega⟩

theorem word_contains (hk : k.bits ≤ 64) (h : k.Contains n) : k.word.Contains n := by
  obtain ⟨hleast, hgreatest, -⟩ := within_word hk
  exact ⟨hleast.trans h.1, h.2.trans hgreatest⟩

/-- What is cut to a word is in no narrower range. -/
theorem word_contains_of_nearest (hk : k.bits < 64) (hn : k.hasSign = false → 0 ≤ n)
    (h : k.Contains (k.word.nearest n)) : k.word.Contains n := by
  obtain ⟨-, -, hstrict⟩ := within_word hk.le
  obtain ⟨hgreatest, hleast⟩ := hstrict hk
  obtain ⟨hle, hge⟩ := h
  rw [nearest] at hle hge
  have hends := k.word.least_le_greatest
  refine ⟨?_, by omega⟩
  cases hsign : k.hasSign with
  | false =>
    have hzero : k.word.least = 0 := by rw [least, word, hsign, if_neg Bool.false_ne_true]
    exact hzero.trans_le (hn hsign)
  | true =>
    have := hleast hsign
    omega

theorem decode_eq_ok_iff (hk : k.bits ≤ 64) : k.decode raw = .ok v ↔
    ∃ n, k.Reads raw n ∧ k.Contains (k.word.nearest n) ∧ v = k.value (k.word.nearest n) := by
  cases hsign : k.hasSign with
  | true =>
    have hfits {i : Int} (hi : k.word.Contains i) : ¬(k.bits < 64 ∧
        (i < -(Receiver.bound (k.bits - 1) : Int) ∨ Receiver.bound (k.bits - 1) ≤ i)) ↔
          k.Contains i := by
      have hbound : (Receiver.bound (k.bits - 1) : Int) = 2 ^ (k.bits - 1) := by
        simp [Receiver.bound]
      rw [hbound, contains_iff_of_sign hsign]
      rw [word_contains_of_sign hsign] at hi
      rcases Nat.lt_or_eq_of_le hk with hlt | heq
      · omega
      · rw [heq]
        omega
    rw [decode, hsign, if_pos rfl, Receiver.decodeSigned_eq_ok_iff]
    constructor
    · rintro ⟨i, hi, hnarrow, rfl⟩
      obtain ⟨n, hn, rfl⟩ := Receiver.exists_reads_of_signed? hsign hi
      refine ⟨n, hn, (hfits (contains_nearest _ _)).1 hnarrow, ?_⟩
      rw [value, hsign, if_pos rfl]
    · rintro ⟨n, hn, hcontains, rfl⟩
      refine ⟨_, Receiver.signed?_of_reads hsign hn, (hfits (contains_nearest _ _)).2 hcontains, ?_⟩
      rw [value, hsign, if_pos rfl]
  | false =>
    have hfits {m : Nat} (hm : k.word.Contains m) :
        ¬(k.bits < 64 ∧ Receiver.bound k.bits ≤ m) ↔ k.Contains m := by
      have hbound : (2 ^ k.bits : Int) = (Receiver.bound k.bits : Nat) := by simp [Receiver.bound]
      rw [word_contains_of_no_sign hsign] at hm
      rw [contains_iff_of_no_sign hsign, hbound]
      rcases Nat.lt_or_eq_of_le hk with hlt | heq
      · omega
      · have : (Receiver.bound k.bits : Int) = 2 ^ 64 := by rw [← hbound, heq]
        omega
    rw [decode, hsign, if_neg Bool.false_ne_true, Receiver.decodeUnsigned_eq_ok_iff]
    constructor
    · rintro ⟨m, hm, hnarrow, rfl⟩
      obtain ⟨n, hn, hnearest⟩ := Receiver.exists_reads_of_unsigned? hsign hm
      have hword : k.word.Contains m := hnearest ▸ contains_nearest _ _
      refine ⟨n, hn, hnearest ▸ (hfits hword).1 hnarrow, ?_⟩
      rw [← hnearest, value, hsign, if_neg Bool.false_ne_true]
      rfl
    · rintro ⟨n, hn, hcontains, rfl⟩
      have hword := k.word.contains_nearest n
      obtain ⟨m, hm⟩ := Int.eq_ofNat_of_zero_le ((word_contains_of_no_sign hsign).1 hword).1
      have hread := Receiver.unsigned?_of_reads hsign hn
      rw [hm] at hword hcontains hread ⊢
      refine ⟨m, hread, (hfits hword).2 hcontains, ?_⟩
      rw [value, hsign, if_neg Bool.false_ne_true]
      rfl

/-- A number that is read, and as a word is in the range, is a word itself, if it was not cut. -/
theorem Reads.word_contains (hreads : k.Reads raw n) (hk : k.bits ≤ 64)
    (h : k.Contains (k.word.nearest n)) (hcuts : ¬k.Cuts raw n) : k.word.Contains n := by
  obtain ⟨-, hden, hword | ⟨hfloat, hnonneg⟩⟩ := hreads
  · exact hword
  rcases Nat.lt_or_eq_of_le hk with hlt | heq
  · exact word_contains_of_nearest hlt hnonneg h
  · by_contra houtside
    refine hcuts ⟨heq, hfloat, hden, fun hn => houtside (Integers.word_contains hk hn), hnonneg⟩

/-- The values of a range are its integers. -/
theorem denotes_and_holds_iff (hk : k.bits ≤ 64) :
    v.Denotes n ∧ k.Holds v ↔ k.Contains n ∧ v = k.value n := by
  cases hsign : k.hasSign with
  | true =>
    simp only [Holds, value, hsign, if_true, Receiver.IsSigned, contains_iff_of_sign hsign]
    constructor
    · rintro ⟨hden, i, rfl, hi⟩
      obtain rfl := Value.int_denotes_iff.1 hden
      exact ⟨hi, by rw [Int64.ofInt_toInt]⟩
    · rintro ⟨hn, rfl⟩
      have hword := word_contains hk ((contains_iff_of_sign hsign).2 hn)
      obtain ⟨hle, hlt⟩ := (word_contains_of_sign hsign).1 hword
      have hvalue := Int64.toInt_ofInt_of_le hle hlt
      exact ⟨Value.int_denotes_iff.2 hvalue.symm, _, rfl, hvalue.symm ▸ hn⟩
  | false =>
    simp only [Holds, value, hsign, Bool.false_eq_true, if_false, Receiver.IsUnsigned,
      contains_iff_of_no_sign hsign]
    constructor
    · rintro ⟨hden, u, rfl, hu⟩
      obtain rfl := Value.uint_denotes_iff.1 hden
      refine ⟨⟨Int.natCast_nonneg _, by exact_mod_cast hu⟩, ?_⟩
      rw [Int.toNat_natCast, UInt64.ofNat_toNat]
    · rintro ⟨hn, rfl⟩
      have hword := word_contains hk ((contains_iff_of_no_sign hsign).2 hn)
      obtain ⟨m, rfl⟩ := Int.eq_ofNat_of_zero_le hn.1
      have hlt := ((word_contains_of_no_sign hsign).1 hword).2
      have hvalue := UInt64.toNat_ofNat_of_lt' (show m < 2 ^ 64 by omega)
      rw [Int.toNat_natCast]
      exact ⟨Value.uint_denotes_iff.2 (by rw [hvalue]), _, rfl, by rw [hvalue]; exact_mod_cast hn.2⟩

end Integers

namespace Receiver

theorem decodePresent_eq {receiver : Receiver} {k : Integers} (hk : receiver.integers? = some k)
    (raw : Value) : receiver.decodePresent raw = k.decode raw := by
  cases receiver with
  | int8 | int16 | int32 | int64 | autoPrimaryKey | uint8 | uint16 | uint32 | uint64 =>
    cases hk
    rfl
  | _ => cases hk

theorem holds_iff {receiver : Receiver} {k : Integers} (hk : receiver.integers? = some k)
    (v : Value) : receiver.Holds v ↔ k.Holds v := by
  cases receiver with
  | int8 | int16 | int32 | int64 | autoPrimaryKey | uint8 | uint16 | uint32 | uint64 =>
    cases hk
    exact Iff.rfl
  | _ => cases hk

theorem decode_cases (receiver : Receiver) (column : String) (raw : Value) :
    (∃ v, receiver.decode column raw = .ok v) ∨
      ∃ fault, receiver.decode column raw = .error (.decode column receiver fault) := by
  rw [decode]
  split
  · exact .inl ⟨_, rfl⟩
  · split
    · exact .inl ⟨_, rfl⟩
    · exact .inr ⟨_, rfl⟩

theorem bits_le {receiver : Receiver} {k : Integers} (hk : receiver.integers? = some k) :
    k.bits ≤ 64 := by
  cases receiver with
  | int8 | int16 | int32 | int64 | autoPrimaryKey | uint8 | uint16 | uint32 | uint64 =>
    cases hk
    decide
  | _ => cases hk

/-- What an integer receiver gives is the number that the raw value denotes, and a number that it
does not stand for is refused. Whole doubles beyond the range of a receiver of 64 bits are cut to
the nearest end of the range instead. -/
theorem decode_integer {receiver : Receiver} {k : Integers} (hk : receiver.integers? = some k)
    (column : String) (raw : Value) :
    ((∀ n, ¬k.Cuts raw n) →
      (∀ v, receiver.decode column raw = .ok v ↔ raw = .null ∧ v = .null ∨
        k.Admits raw ∧ ∃ n : Int, raw.Denotes n ∧ v.Denotes n ∧ receiver.Holds v) ∧
      ∀ q, raw.Denotes q → (¬∃ n : Int, q = n ∧ k.Contains n) →
        ∃ fault, receiver.decode column raw = .error (.decode column receiver fault)) ∧
    ∀ n, k.Cuts raw n → ∃ v, receiver.decode column raw = .ok v ∧
      v.Denotes (k.nearest n) ∧ receiver.Holds v ∧ ¬raw.Denotes (k.nearest n) := by
  have hbits := bits_le hk
  have hok (v : Value) : receiver.decode column raw = .ok v ↔ raw = .null ∧ v = .null ∨
      raw ≠ .null ∧ ∃ n, k.Reads raw n ∧ k.Contains (k.word.nearest n) ∧
        v = k.value (k.word.nearest n) := by
    rw [Receiver.decode_eq_ok_iff, decodePresent_eq hk, Integers.decode_eq_ok_iff hbits]
  constructor
  · intro hcuts
    have hexact (v : Value) : receiver.decode column raw = .ok v ↔ raw = .null ∧ v = .null ∨
        k.Admits raw ∧ ∃ n : Int, raw.Denotes n ∧ v.Denotes n ∧ receiver.Holds v := by
      simp only [hok, holds_iff hk, Integers.denotes_and_holds_iff hbits]
      refine or_congr_right ⟨?_, ?_⟩
      · rintro ⟨-, n, hreads, hcontains, rfl⟩
        have hword := hreads.word_contains hbits hcontains (hcuts n)
        rw [Integers.nearest_of_contains hword] at hcontains ⊢
        exact ⟨hreads.1, n, hreads.2.1, hcontains, rfl⟩
      · rintro ⟨hadmits, n, hden, hcontains, rfl⟩
        have hword := Integers.word_contains hbits hcontains
        refine ⟨hden.ne_null, n, ⟨hadmits, hden, .inl hword⟩, ?_⟩
        rw [Integers.nearest_of_contains hword]
        exact ⟨hcontains, rfl⟩
    refine ⟨hexact, fun q hq houtside => ?_⟩
    rcases decode_cases receiver column raw with ⟨v, hv⟩ | herror
    · rcases (hexact v).1 hv with ⟨hnull, -⟩ | ⟨-, n, hden, hvalue⟩
      · exact absurd hnull hq.ne_null
      · rw [holds_iff hk, Integers.denotes_and_holds_iff hbits] at hvalue
        exact absurd ⟨n, hq.unique hden, hvalue.1⟩ houtside
    · exact herror
  · rintro n ⟨hwide, ⟨x, rfl⟩, hden, houtside, hnonneg⟩
    have hword : k.word = k := by rw [Integers.word, ← hwide]
    have hcontains := k.contains_nearest n
    refine ⟨k.value (k.nearest n), (hok _).2 (.inr ⟨nofun, n, ⟨nofun, hden, .inr ⟨⟨x, rfl⟩,
      hnonneg⟩⟩, ?_⟩), ?_⟩
    · rw [hword]
      exact ⟨hcontains, rfl⟩
    · rw [holds_iff hk, ← and_assoc, Integers.denotes_and_holds_iff hbits]
      refine ⟨⟨hcontains, rfl⟩, fun hcut => houtside ?_⟩
      rw [← Int.cast_injective (hden.unique hcut)] at hcontains
      exact hcontains

/-- The least integer with a sign is a double, and read exactly. -/
theorem least_double_decoded :
    (⟨0xc3e0000000000000⟩ : Binary64).toInt? = some (-2 ^ 63) ∧
      Receiver.decode .int64 "n" (.float ⟨0xc3e0000000000000⟩) = .ok (.int Int64.minValue) := by
  have hnumber : (⟨0xc3e0000000000000⟩ : Binary64).toInt? = some (-2 ^ 63) := by decide +kernel
  have hden := Value.float_denotes_iff.2 hnumber
  have hsigned : Receiver.int64.integers? = some ⟨true, 64⟩ := rfl
  obtain ⟨hexact, -⟩ :=
    (decode_integer hsigned "n" (.float ⟨0xc3e0000000000000⟩)).1 <| by
      rintro n ⟨-, -, hn, houtside, -⟩
      obtain rfl := Int.cast_injective (hden.unique hn)
      exact houtside ((Integers.contains_iff_of_sign rfl).2 (by decide))
  exact ⟨hnumber, (hexact _).2 (.inr ⟨nofun, -2 ^ 63, hden, Value.int_denotes_iff.2 rfl,
    Int64.minValue, rfl, by decide⟩)⟩

/-- The first doubles beyond the integers with a sign, and beyond those without, are decoded to the
greatest integers before them. -/
theorem doubles_cut :
    ((Value.float ⟨0x43e0000000000000⟩).Denotes (2 ^ 63 : Int) ∧
      Receiver.decode .int64 "n" (.float ⟨0x43e0000000000000⟩) = .ok (.int Int64.maxValue) ∧
      ¬(Value.int Int64.maxValue).Denotes (2 ^ 63 : Int)) ∧
    ((Value.float ⟨0x43f0000000000000⟩).Denotes (2 ^ 64 : Int) ∧
      Receiver.decode .uint64 "n" (.float ⟨0x43f0000000000000⟩) =
        .ok (.uint 0xffffffffffffffff) ∧
      ¬(Value.uint 0xffffffffffffffff).Denotes (2 ^ 64 : Int)) := by
  refine ⟨⟨Value.float_denotes_iff.2 (by decide +kernel), rfl, ?_⟩,
    Value.float_denotes_iff.2 (by decide +kernel), rfl, ?_⟩
  · rw [Value.int_denotes_iff]
    decide
  · rw [Value.uint_denotes_iff]
    decide

end Receiver

end RecordGraph
