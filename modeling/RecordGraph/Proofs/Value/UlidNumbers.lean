import Mathlib.Data.String.Basic
import RecordGraph.Proofs.Number.Positional
import RecordGraph.Proofs.Value.Decode
import RecordGraph.Proofs.Value.Uuid

/-!
# ULIDs and their numbers

The canonical ULIDs are the numerals of 26 digits that spell a number of 128 bits: 26 digits hold
130 bits, and a first digit of at most `7` leaves the two topmost unset.

* `Ulid.value_encode`, `Ulid.Canonical.encode_value`: numbers are written and read faithfully.
* `Ulid.canonical_iff_existsUnique`: every canonical text is written for one number.
* `Ulid.decodeUlid_text_iff`: which texts are received as the key of a number.
* `Ulid.encode_faithful`: the order of the texts, what they are, and the keys read for them.
-/
namespace RecordGraph.Ulid

open Positional

/-! ## The alphabet -/

theorem pairwise_alphabet : alphabet.Pairwise (· < ·) := by decide

theorem ascending : Ascending 32 alphabet.idxOf (· ∈ alphabet) :=
  Ascending.of_alphabet pairwise_alphabet

theorem idxOf_digit : ∀ d < 32, alphabet.idxOf (digit d) = d := by decide

theorem idxOf_le_seven {c : Char} (hc : c ∈ alphabet) (hle : c ≤ '7') :
    alphabet.idxOf c ≤ 7 := by
  have hseven : '7' ∈ alphabet := digit_mem 7 (by decide)
  exact Nat.le_of_not_lt fun hlt =>
    absurd hle (Char.not_le.2 ((ascending.lt_iff hseven hc).2 hlt))

/-! ## Numbers -/

/-- The number that a ULID in its canonical form spells. -/
def value (s : String) : Nat := Positional.value 32 alphabet.idxOf s.toList

theorem toList_encode (v : BitVec 128) : (encode v).toList = numeral 32 digit 26 v.toNat :=
  String.toList_ofList

/-- The 26 digits of a number spell it. -/
theorem value_encode (v : BitVec 128) : value (encode v) = v.toNat := by
  have hbits : v.toNat < 2 ^ 128 := v.isLt
  rw [value, toList_encode, value_numeral (by decide) idxOf_digit]
  exact Nat.mod_eq_of_lt (Nat.lt_trans hbits (by decide))

/-- Texts of numbers are ordered like the numbers. -/
theorem encode_lt_encode_iff (a b : BitVec 128) : encode a < encode b ↔ a < b := by
  rw [String.lt_iff_toList_lt, ascending.lt_iff_value_lt
    ((canonical_encode a).length.trans (canonical_encode b).length.symm)
    (canonical_encode a).digits (canonical_encode b).digits, BitVec.lt_def]
  change value (encode a) < value (encode b) ↔ _
  rw [value_encode, value_encode]

theorem encode_inj {a b : BitVec 128} : encode a = encode b ↔ a = b := by
  refine ⟨fun h => BitVec.eq_of_toNat_eq ?_, congrArg encode⟩
  rw [← value_encode, h, value_encode]

/-- The first digit leaves the two topmost of 130 bits unset. -/
theorem Canonical.value_lt {s : String} (h : Canonical s) : value s < 2 ^ 128 := by
  obtain ⟨hlength, hdigits, hhead⟩ := h
  rw [value]
  cases hs : s.toList with
  | nil =>
    rw [hs] at hlength
    cases hlength
  | cons c cs =>
    rw [hs] at hlength hdigits hhead
    obtain ⟨hc, hcs⟩ := List.forall_mem_cons.1 hdigits
    have hfirst : alphabet.idxOf c ≤ 7 := idxOf_le_seven hc (hhead c rfl)
    have hrest : Positional.value 32 alphabet.idxOf cs < 32 ^ cs.length := ascending.value_lt hcs
    rw [value_cons]
    rw [Nat.succ.inj hlength] at hrest ⊢
    omega

/-- A canonical text is written for the number it spells. -/
theorem Canonical.encode_value {s : String} (h : Canonical s) :
    encode (BitVec.ofNat 128 (value s)) = s := by
  refine String.toList_inj.1 (ascending.ext ((canonical_encode _).length.trans h.length.symm)
    (canonical_encode _).digits h.digits ?_)
  change value (encode _) = value s
  rw [value_encode, BitVec.toNat_ofNat, Nat.mod_eq_of_lt h.value_lt]

theorem canonical_iff_existsUnique {s : String} : Canonical s ↔ ∃! v, s = encode v := by
  constructor
  · intro h
    exact ⟨_, h.encode_value.symm, fun v hv => encode_inj.1 (hv.symm.trans h.encode_value.symm)⟩
  · rintro ⟨v, rfl, -⟩
    exact canonical_encode v

/-! ## Received keys -/

/-- The texts that are received as the key of a number are its digits in either case. -/
theorem decodeUlid_text_iff {s : String} {v : BitVec 128} :
    Receiver.decodeUlid (.text s) = .ok (.text (encode v)) ↔ canonical s = encode v := by
  rw [Receiver.decodeUlid]
  split
  · rw [Except.ok.injEq, Value.text.injEq]
  · rename_i hs
    constructor
    · intro h
      cases h
    · intro h
      refine absurd (isUlid_iff.2 ?_) hs
      rw [h]
      exact canonical_encode v

theorem decodeUlid_bytes (v : BitVec 128) :
    Receiver.decodeUlid (.bytes (Uuid.mk v).bytes) = .ok (.text (encode v)) := by
  rw [Receiver.decodeUlid, Uuid.ofBytes_bytes]

/-- **Numbers as ULIDs.** Texts are ordered like their numbers; a text is a ULID exactly when its
upper-case form is the text of a number, then of one; and the bytes of a number are received as
the same key as its text in either case, and as no other text. -/
theorem encode_faithful :
    (∀ a b : BitVec 128, encode a < encode b ↔ a < b) ∧
      (∀ s : String, isUlid s = true ↔ ∃! v, canonical s = encode v) ∧
        ∀ (column : String) (v : BitVec 128),
          Receiver.ulid.decode column (.bytes (Uuid.mk v).bytes) = .ok (.text (encode v)) ∧
            ∀ s : String, Receiver.ulid.decode column (.text s) = .ok (.text (encode v)) ↔
              canonical s = encode v := by
  refine ⟨encode_lt_encode_iff, fun s => isUlid_iff.trans canonical_iff_existsUnique,
    fun column v => ⟨?_, fun s => ?_⟩⟩
  · exact Receiver.decode_eq_ok_iff.2 (.inr ⟨Value.noConfusion, decodeUlid_bytes v⟩)
  · rw [Receiver.decode_eq_ok_iff, ← decodeUlid_text_iff]
    constructor
    · intro h
      obtain ⟨hnull, -⟩ | ⟨-, h⟩ := h
      · cases hnull
      · exact h
    · intro h
      exact .inr ⟨Value.noConfusion, h⟩

end RecordGraph.Ulid
