import Mathlib.Algebra.Group.Nat.Defs
import Mathlib.Data.List.TakeWhile
import RecordGraph.Proofs.Number.Sums
import RecordGraph.Proofs.Sqlite.Stored
import RecordGraph.Schema.Basic
import RecordGraph.Sql.TableDefinition

/-!
# Unsigned numbers in integer columns

SQLite has no unsigned integers. A number beyond the signed range is handed over as its digits, so
that none is lost; but the column it goes to is declared `INTEGER`, and such a column takes digits
for the number they spell and keeps the nearest double.

**Results.**
* `Numeral.read?_toDigits`: the digits of such a number are read as its nearest double.
* `Affinity.keep_digits`: this double is what the column keeps.
* `Column.reread_unsigned`: what is read back is the number up to its last eleven bits, which are
  rounded, and the numbers that come back unchanged.
-/
namespace RecordGraph

open Sqlite Binary64 Literal

/-! ## Digits as numerals -/

theorem Literal.splitSign_digits {cs : List Char} (h : ∀ c ∈ cs, isDigit c = true) :
    splitSign cs = (false, cs) := by
  unfold splitSign
  split
  · exact absurd (h '-' List.mem_cons_self) (by decide)
  · exact absurd (h '+' List.mem_cons_self) (by decide)
  · rfl

/-- From here on, a number of 64 bits is nearest to the first one that has more. -/
theorem Binary64.ofNat_eq_of_ge {n : Nat} (hge : 2 ^ 64 - 1024 ≤ n) (hlt : n ≤ 2 ^ 64) :
    ofNat n = ofNat (2 ^ 64) := by
  have hends : roundedMagnitude (2 ^ 64) 1 ≤ roundedMagnitude (2 ^ 64 - 1024) 1 := by
    decide +kernel
  have hmono {k m : Nat} (h : k ≤ m) : roundedMagnitude k 1 ≤ roundedMagnitude m 1 :=
    roundedMagnitude_mono Nat.one_pos Nat.one_pos
      (div_le_div_of_nonneg_right (by exact_mod_cast h) (by norm_num))
  rw [ofNat, ofNat, roundRatio_eq, roundRatio_eq,
    (hmono hlt).antisymm (hends.trans (hmono hge))]

namespace Sqlite.Numeral

/-- One digit more, behind digits that a word had room for. -/
theorem leading_snoc {cs : List Char} {word w : Nat} (h : leading word cs = (w, [])) (c : Char) :
    leading word (cs ++ [c]) =
      if w < 1844674407370955160 then (w * 10 + (c.toNat - '0'.toNat), []) else (w, [c]) := by
  induction cs generalizing word with
  | nil =>
    cases h
    rfl
  | cons d cs ih =>
    rw [leading] at h
    split at h
    · rename_i hroom
      rw [List.cons_append, leading, if_pos hroom]
      exact ih h
    · cases h

/-- A word has room for all digits if it has room for the last one. -/
theorem leading_of_lt {cs : List Char} (h : natOfDigits cs / 10 < 1844674407370955160) :
    leading 0 cs = (natOfDigits cs, []) := by
  induction cs using List.reverseRecOn with
  | nil => rfl
  | append_singleton cs c ih =>
    rw [natOfDigits_snoc] at h ⊢
    rw [leading_snoc (ih (by omega)), if_pos (by omega)]

/-- Of the greatest numbers of 64 bits it has no room for the last digit. -/
theorem leading_of_ge {n : Nat} (hge : 18446744073709551600 ≤ n) (hlt : n < 2 ^ 64) :
    ∃ c, leading 0 (Nat.toDigits 10 n) = (n / 10, [c]) := by
  obtain ⟨cs, c, hcs⟩ : ∃ cs c, Nat.toDigits 10 n = cs ++ [c] :=
    ⟨_, _, (List.dropLast_append_getLast Nat.toDigits_ne_nil).symm⟩
  have hdigit : isDigit c = true :=
    isDigit_of_mem_toDigits (n := n) (hcs ▸ List.mem_append_right cs List.mem_cons_self)
  have hlast := digit_le_of_isDigit hdigit
  have hn := natOfDigits_toDigits n
  rw [hcs, natOfDigits_snoc] at hn
  generalize c.toNat - '0'.toNat = k at hlast hn
  have hinit : natOfDigits cs = n / 10 := by omega
  refine ⟨c, ?_⟩
  rw [hcs, leading_snoc (leading_of_lt (by omega)), if_neg (by omega), hinit]

section
variable {n : Nat} (hge : 2 ^ 63 ≤ n) (hlt : n < 2 ^ 64)
include hge hlt

theorem toDouble_pair : (pair n).toDouble = ofNat n := by
  have hvalue := value_ofNat_word hge hlt
  have hwhole : (ofNat n).whole = 2048 * roundHalfEven n 2048 := (value_eq_natCast_iff.1 hvalue).2
  have hnear := roundHalfEven_cases n 2048
  have hhigh : (DoublePair.ofRatio n 1).high = ofNat n := rfl
  rw [pair, hhigh, hwhole]
  split
  · exact DoublePair.toDouble_ofRatio hge hlt
  · -- The number is rounded up to the first one of more bits.
    have hsum : (DoublePair.ofDouble (ofNat n)).toDouble = (ofNat n).add (zero false) := rfl
    have hrat : (ofNat n).toRat = (2048 * roundHalfEven n 2048 : Nat) :=
      (toRat_ofNat n).trans hvalue
    have hfull : 2048 * roundHalfEven n 2048 = 2 ^ 64 := by omega
    rw [hsum, add_zero_eq_ofNat (isFinite_ofNat hlt.le) (by omega) hrat, hfull,
      ofNat_eq_of_ge (by omega) hlt.le]

theorem magnitude_word : magnitude n 0 = ofNat n := by
  have hsettle : settle 20 n 0 = (n, 0) := by simp [settle]
  have hscale (x : DoublePair) : x.scale 0 = x := by simp [DoublePair.scale, DoublePair.times]
  rw [magnitude, hsettle]
  dsimp only
  rw [hscale, toDouble_pair hge hlt, isNaN_of_isFinite (isFinite_ofNat hlt.le),
    if_neg Bool.false_ne_true]

/-- The digits of a number of 64 bits are read as its nearest double, also those that a word has no
room for. -/
theorem read?_toDigits : read? (Nat.toDigits 10 n) = some (ofNat n) := by
  have hdigits : ∀ c ∈ Nat.toDigits 10 n, isDigit c = true := fun _ => isDigit_of_mem_toDigits
  have hfraction : fraction? (Nat.toDigits 10 n) = some ⟨Nat.toDigits 10 n, [], 0⟩ := by
    have hwhole := List.takeWhile_eq_self_iff.2 hdigits
    have hrest := List.dropWhile_eq_nil_iff.2 hdigits
    simp only [fraction?, hwhole, hrest, List.append_nil, if_neg Nat.toDigits_ne_nil, readExponent?,
      Option.map_some]
  rw [read?, splitSign_digits hdigits]
  dsimp only
  rw [hfraction, Option.map_some, ofFraction]
  dsimp only
  rw [List.append_nil]
  rcases Nat.lt_or_ge n 18446744073709551600 with hroom | hfull
  · rw [leading_of_lt (by rw [natOfDigits_toDigits]; omega), natOfDigits_toDigits]
    dsimp only
    rw [if_neg (by omega), if_neg Bool.false_ne_true]
    exact congrArg some (magnitude_word hge hlt)
  · obtain ⟨c, hc⟩ := leading_of_ge hfull hlt
    have hdropped : magnitude (n / 10) 1 = ofNat (2 ^ 64) := by
      obtain h | h : n / 10 = 1844674407370955160 ∨ n / 10 = 1844674407370955161 := by omega
      · rw [h]
        decide +kernel
      · rw [h]
        decide +kernel
    rw [hc]
    dsimp only
    rw [if_neg (by omega), if_neg Bool.false_ne_true, ofNat_eq_of_ge (by omega) hlt.le]
    exact congrArg some hdropped

end

end Sqlite.Numeral

/-! ## What the column keeps -/

theorem Binary64.toInt?_ofNat_word {n : Nat} (hge : 2 ^ 63 ≤ n) (hlt : n < 2 ^ 64) :
    (ofNat n).toInt? = some ((2048 * roundHalfEven n 2048 : Nat) : Int) := by
  refine toInt?_eq_some_iff.2 ⟨isFinite_ofNat hlt.le, ?_⟩
  rw [toRat_ofNat, value_ofNat_word hge hlt, Int.cast_natCast]

namespace Sqlite.Affinity

/-- There are no blanks among digits. -/
theorem trimmed_toDigits (n : Nat) : trimmed (Nat.toDigits 10 n) = Nat.toDigits 10 n := by
  have hspace : ∀ c ∈ Nat.toDigits 10 n, isSpace c = false := by
    intro c hc
    obtain ⟨k, -, hk⟩ := isDigit_iff.1 (isDigit_of_mem_toDigits hc)
    have hzero : '0'.toNat = 48 := rfl
    have hblank : c ≠ ' ' := by
      rintro rfl
      have hspace : ' '.toNat = 32 := rfl
      omega
    rw [isSpace, beq_eq_false_iff_ne.2 hblank, Bool.false_or, Bool.and_eq_false_iff,
      decide_eq_false_iff_not, decide_eq_false_iff_not]
    exact .inr (by omega)
  have hkeep (cs : List Char) (h : ∀ c ∈ cs, isSpace c = false) : cs.dropWhile isSpace = cs := by
    cases cs with
    | nil => rfl
    | cons c cs => rw [List.dropWhile_cons, h c List.mem_cons_self, if_neg Bool.false_ne_true]
  rw [trimmed, hkeep _ hspace, hkeep _ fun c hc => hspace c (List.mem_reverse.1 hc),
    List.reverse_reverse]

/-- The digits of a number beyond the signed range are kept as its nearest double. -/
theorem keep_digits {n : Nat} (hge : 2 ^ 63 ≤ n) (hlt : n < 2 ^ 64) :
    integer.keep (.text (toString n)) = .real (Binary64.ofNat n) := by
  have hread : readInt? (Nat.toDigits 10 n) = some (n : Int) := by
    rw [readInt?_eq_some_iff]
    exact .plain (readNat?_eq_some_iff.1 (readNat?_toDigits n))
  have hsigned : Width.signed? n = none := if_neg (by omega)
  have hdouble : ofDouble (Binary64.ofNat n) = .real (Binary64.ofNat n) := by
    have hnear := roundHalfEven_cases n 2048
    rw [ofDouble, toInt?_ofNat_word hge hlt]
    exact if_neg (by omega)
  have hnumber : numberOf? (toString n) = some (.real (Binary64.ofNat n)) := by
    rw [numberOf?, toList_toString, trimmed_toDigits, hread, Option.bind_some, hsigned,
      Numeral.read?_toDigits hge hlt, Option.map_some, hdouble]
  rw [keep, keepNumber, hnumber, Option.getD_some]

end Sqlite.Affinity

/-! ## What is read back -/

/-- What a column gives back of a value: it is handed over, kept by the affinity of the column and
decoded by its receiver. -/
def Column.reread (c : Column) (v : Value) : Except Error Value :=
  c.receiver.decode c.name ((Affinity.ofReceiver c.receiver).keep (Stored.ofValue v)).value

/-- The number that an integer column gives back: beyond the signed range the nearest multiple of
2048, or the last number of 64 bits where that one is too great. -/
def rereadNat (n : Nat) : Nat :=
  if n < 2 ^ 63 then n else min (2048 * roundHalfEven n 2048) (2 ^ 64 - 1)

/-- Multiples of 2048 come back, and so does the last number, which is rounded up and cut again. -/
theorem rereadNat_eq_iff {n : Nat} (hlt : n < 2 ^ 64) :
    rereadNat n = n ↔ n < 2 ^ 63 ∨ 2048 ∣ n ∨ n = 2 ^ 64 - 1 := by
  have hnear := roundHalfEven_cases n 2048
  rw [rereadNat]
  generalize roundHalfEven n 2048 = q at hnear
  split <;> omega

theorem rereadNat_lt {n : Nat} (hlt : n < 2 ^ 64) : rereadNat n < 2 ^ 64 := by
  rw [rereadNat]
  split <;> omega

namespace Receiver

/-- A double beyond the signed range is cut to the last number of 64 bits. -/
theorem unsigned?_ofNat_word {n : Nat} (hge : 2 ^ 63 ≤ n) (hlt : n < 2 ^ 64) :
    unsigned? (.float (Binary64.ofNat n)) =
      .ok (min (2048 * roundHalfEven n 2048) (2 ^ 64 - 1)) := by
  have hnonneg : (Binary64.ofNat n).isNonneg = true := by
    rw [isNonneg_iff (isFinite_ofNat hlt.le), toRat_ofNat]
    exact value_nonneg _
  have hclamp (k : Nat) : clampUnsigned (k : Int) = min k (2 ^ 64 - 1) := by
    rw [clampUnsigned]
    omega
  simp only [unsigned?, hnonneg, toInt?_ofNat_word hge hlt, hclamp]

theorem unsigned?_kept (u : UInt64) :
    unsigned? (Affinity.integer.keep (Stored.ofValue (.uint u))).value =
      .ok (rereadNat u.toNat) := by
  rcases Nat.lt_or_ge u.toNat (2 ^ 63) with hlt | hge
  · have hholds : Receiver.uint64.Holds (.uint u) := ⟨u, rfl, u.toNat_lt⟩
    have hkept := Affinity.keep_ofReceiver hholds nofun (by rintro _ ⟨⟩; exact hlt)
    have haffinity : Affinity.ofReceiver .uint64 = .integer := rfl
    rw [haffinity] at hkept
    rw [hkept, unsigned?_ofValue, rereadNat, if_pos hlt]
  · rw [Stored.ofValue_of_le hge, Affinity.keep_digits hge u.toNat_lt, rereadNat,
      if_neg (Nat.not_lt.2 hge)]
    exact unsigned?_ofNat_word hge u.toNat_lt

theorem decode_of_unsigned {column : String} {v : Value} {n : Nat} (hv : v ≠ .null)
    (h : unsigned? v = .ok n) : decode .uint64 column v = .ok (.uint (UInt64.ofNat n)) := by
  refine decode_eq_ok_iff.2 (.inr ⟨hv, ?_⟩)
  have hdecode : decodePresent .uint64 v = decodeUnsigned 64 v := rfl
  rw [hdecode, decodeUnsigned, h]
  rfl

end Receiver

namespace Column

theorem reread_uint {c : Column} (hc : c.receiver = .uint64) (u : UInt64) :
    c.reread (.uint u) = .ok (.uint (UInt64.ofNat (rereadNat u.toNat))) := by
  have haffinity : Affinity.ofReceiver .uint64 = .integer := rfl
  rw [reread, hc, haffinity]
  have hread := Receiver.unsigned?_kept u
  refine Receiver.decode_of_unsigned ?_ hread
  intro hnull
  rw [hnull] at hread
  cases hread

/-- **Unsigned numbers.** A column for unsigned numbers is declared as one for integers. Beyond the
signed range it keeps the nearest double, and gives back what that one comes to: the number itself
if it is a multiple of 2048 or the last one of 64 bits, and else another number. -/
theorem reread_unsigned {c : Column} (hc : c.receiver = .uint64) (u : UInt64) :
    Dialect.columnType .sqlite c = Affinity.integer.typeName ∧
      (2 ^ 63 ≤ u.toNat →
        Affinity.integer.keep (Stored.ofValue (.uint u)) = .real (Binary64.ofNat u.toNat)) ∧
      c.reread (.uint u) = .ok (.uint (UInt64.ofNat (rereadNat u.toNat))) ∧
      (c.reread (.uint u) = .ok (.uint u) ↔
        u.toNat < 2 ^ 63 ∨ 2048 ∣ u.toNat ∨ u.toNat = 2 ^ 64 - 1) := by
  refine ⟨?_, fun hge => ?_, reread_uint hc u, ?_⟩
  · rw [Dialect.columnType, Dialect.sqliteType, hc]
    rfl
  · rw [Stored.ofValue_of_le hge, Affinity.keep_digits hge u.toNat_lt]
  · rw [reread_uint hc, ← rereadNat_eq_iff u.toNat_lt, Except.ok.injEq, Value.uint.injEq,
      ← UInt64.toNat_inj, UInt64.toNat_ofNat_of_lt' (rereadNat_lt u.toNat_lt)]

end Column

/-! ## Sizes of files -/

namespace Files

/-- A column for byte counts. -/
def size : Column :=
  Schema.columnOf ⟨"size", none, .uint64, .column, false, false, false, none⟩

/-- Small numbers come back, and so do powers of two and the last number. -/
theorem size_reread : size.receiver = .uint64 ∧ size.reread (.uint 5) = .ok (.uint 5) ∧
    size.reread (.uint 0x8000000000000000) = .ok (.uint 0x8000000000000000) ∧
    size.reread (.uint 0xffffffffffffffff) = .ok (.uint 0xffffffffffffffff) :=
  ⟨rfl, (Column.reread_unsigned rfl 5).2.2.2.2 (.inl (by decide)),
    (Column.reread_unsigned rfl 0x8000000000000000).2.2.2.2 (.inr (.inl (by decide))),
    (Column.reread_unsigned rfl 0xffffffffffffffff).2.2.2.2 (.inr (.inr (by decide)))⟩

/-- The number behind the first power of two that no signed number reaches comes back as that power
of two. -/
theorem size_rounded : size.receiver = .uint64 ∧
    size.reread (.uint 0x8000000000000001) = .ok (.uint 0x8000000000000000) ∧
    size.reread (.uint 0x8000000000000001) ≠ .ok (.uint 0x8000000000000001) := by
  have hread : size.reread (.uint 0x8000000000000001) = .ok (.uint 0x8000000000000000) :=
    Column.reread_uint rfl 0x8000000000000001
  refine ⟨rfl, hread, fun hsame => ?_⟩
  rw [hread] at hsame
  exact absurd (Value.uint.inj (Except.ok.inj hsame)) (by decide)

end Files

end RecordGraph
