import Mathlib.Data.List.Basic
import RecordGraph.Value.Ulid

/-!
# ULIDs in their canonical form

A ULID is read in either case and kept in upper case.

* `Ulid.Canonical`: 26 digits of the alphabet, the first of them at most `7`.
* `Ulid.isUlid_iff`: a text is a ULID exactly when its upper-case form is canonical.
* `Ulid.canonical_encode`: numbers are written in the canonical form.
-/
namespace RecordGraph.Ulid

/-- The upper-case form of a ULID. -/
structure Canonical (s : String) : Prop where
  length : s.toList.length = 26
  digits : ∀ c ∈ s.toList, c ∈ alphabet
  head_le : ∀ c ∈ s.toList.head?, c ≤ '7'

/-- There are no small letters among the digits. -/
theorem toUpper_of_mem : ∀ c ∈ alphabet, c.toUpper = c := by
  have hall : (alphabet.all fun c => c.toUpper == c) = true := by decide
  exact fun c hc => beq_iff_eq.1 (List.all_eq_true.1 hall c hc)

theorem Canonical.canonical_eq {s : String} (h : Canonical s) : canonical s = s := by
  rw [canonical, List.map_congr_left (g := id) fun c hc => toUpper_of_mem c (h.digits c hc),
    List.map_id, String.ofList_toList]

/-- A letter comes behind `7` in either case, and anything else is its own upper case. -/
theorem toUpper_le_seven_iff (c : Char) : c.toUpper ≤ '7' ↔ c ≤ '7' := by
  delta Char.toUpper
  split
  · rename_i h
    have hlow : 97 ≤ c.val.toNat := h.1
    have hhigh : c.val.toNat ≤ 122 := h.2
    simp only [Char.le_def, UInt32.le_iff_toNat_le, UInt32.toNat_add]
    have hseven : '7'.val.toNat = 55 := rfl
    have hshift : ('A'.val - 'a'.val).toNat = 4294967264 := rfl
    rw [hseven, hshift]
    omega
  · exact Iff.rfl

/-- A text is a ULID exactly when its upper-case form is canonical. -/
theorem isUlid_iff {s : String} : isUlid s = true ↔ Canonical (canonical s) := by
  have hlist : (canonical s).toList = s.toList.map Char.toUpper := String.toList_ofList
  simp only [isUlid, Bool.and_eq_true, beq_iff_eq, List.all_eq_true, List.contains_iff_mem]
  constructor
  · rintro ⟨⟨hlength, hhead⟩, hall⟩
    refine ⟨by rw [hlist, List.length_map, hlength], fun c hc => ?_, fun c hc => ?_⟩
    · rw [hlist] at hc
      obtain ⟨d, hd, rfl⟩ := List.mem_map.1 hc
      exact hall d hd
    · rw [hlist, List.head?_map] at hc
      obtain ⟨d, hd, rfl⟩ := Option.map_eq_some_iff.1 hc
      rw [hd, Option.map_some, Option.getD_some, decide_eq_true_eq] at hhead
      exact (toUpper_le_seven_iff d).2 hhead
  · rintro ⟨hlength, hdigits, hhead⟩
    rw [hlist, List.length_map] at hlength
    rw [hlist] at hdigits hhead
    refine ⟨⟨hlength, ?_⟩, fun c hc => hdigits _ (List.mem_map_of_mem hc)⟩
    cases hs : s.toList with
    | nil =>
      rw [hs] at hlength
      cases hlength
    | cons c cs =>
      rw [hs] at hhead
      exact decide_eq_true ((toUpper_le_seven_iff c).1 (hhead _ rfl))

/-! ## Numbers -/

theorem digit_mem : ∀ n < 32, digit n ∈ alphabet := by decide

theorem digit_le_seven : ∀ n < 8, digit n ≤ '7' := by decide

/-- Numbers are written in the canonical form. -/
theorem canonical_encode (n : BitVec 128) : Canonical (encode n) := by
  have hlist : (encode n).toList =
      (List.range 26).map fun i => digit (n.toNat / Nat.pow 32 (25 - i) % 32) :=
    String.toList_ofList
  refine ⟨by rw [hlist]; rfl, fun c hc => ?_, fun c hc => ?_⟩
  · rw [hlist] at hc
    obtain ⟨i, -, rfl⟩ := List.mem_map.1 hc
    exact digit_mem _ (Nat.mod_lt _ (by decide))
  · have hbits : n.toNat < 2 ^ 128 := n.isLt
    have hfirst : n.toNat / Nat.pow 32 25 < 8 :=
      Nat.div_lt_of_lt_mul (Nat.lt_of_lt_of_eq hbits (by decide))
    rw [hlist, List.head?_map] at hc
    cases hc
    exact digit_le_seven _ (Nat.lt_of_le_of_lt (Nat.mod_le _ _) hfirst)

end RecordGraph.Ulid
