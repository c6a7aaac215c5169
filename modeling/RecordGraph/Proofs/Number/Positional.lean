import Mathlib.Data.List.Basic
import Mathlib.Tactic.Ring
import Mathlib.Tactic.Tauto
import RecordGraph.Proofs.Number.Digits

/-!
# Numerals of one width

Numerals of one width are ordered as texts like the numbers they spell, in any base whose digits
ascend with their characters.

* `Positional.value`: the number that digits spell.
* `Positional.numeral`: the digits of a number in a given width, and `value_numeral`, what they spell.
* `Positional.Ascending.lt_iff_value_lt`: the order of numerals of one width.
* `Positional.Ascending.ext`: a numeral of given width is known by what it spells.
* `Positional.append_lt_append_iff`: the order of texts that begin with parts of one width.
-/
namespace RecordGraph.Positional

/-- Texts that begin with parts of one width are ordered by these parts first. -/
theorem append_lt_append_iff : ∀ {xs ys xs' ys' : List Char}, xs.length = ys.length →
    (xs ++ xs' < ys ++ ys' ↔ xs < ys ∨ xs = ys ∧ xs' < ys')
  | [], [], _, _, _ => by simp
  | x :: xs, y :: ys, _, _, h => by
    rw [List.cons_append, List.cons_append, List.cons_lt_cons_iff, List.cons_lt_cons_iff,
      append_lt_append_iff (Nat.succ.inj h), List.cons.injEq]
    tauto

/-- The number that digits spell, the most significant first. -/
def value (base : Nat) (digit : Char → Nat) (cs : List Char) : Nat :=
  cs.foldl (fun n c => n * base + digit c) 0

/-- The digits of a base ascend with their characters. -/
structure Ascending (base : Nat) (digit : Char → Nat) (isDigit : Char → Prop) : Prop where
  lt_base : ∀ {c}, isDigit c → digit c < base
  lt_iff : ∀ {c d}, isDigit c → isDigit d → (c < d ↔ digit c < digit d)

variable {base : Nat} {digit : Char → Nat} {isDigit : Char → Prop}

theorem foldl_eq (cs : List Char) (n : Nat) :
    cs.foldl (fun n c => n * base + digit c) n = n * base ^ cs.length + value base digit cs := by
  induction cs generalizing n with
  | nil => simp [value]
  | cons c cs ih =>
    rw [value, List.foldl_cons, List.foldl_cons, ih, ih (0 * base + digit c), List.length_cons,
      Nat.pow_succ']
    ring

theorem value_cons (c : Char) (cs : List Char) :
    value base digit (c :: cs) = digit c * base ^ cs.length + value base digit cs := by
  rw [value, List.foldl_cons, foldl_eq, Nat.zero_mul, Nat.zero_add]

/-- The digits of a number, the most significant first. What does not fit is left out. -/
def numeral (base : Nat) (char : Nat → Char) (width n : Nat) : List Char :=
  (List.range width).map fun i => char (n / base ^ (width - 1 - i) % base)

@[simp] theorem length_numeral {char : Nat → Char} (width n : Nat) :
    (numeral base char width n).length = width := by
  rw [numeral, List.length_map, List.length_range]

theorem numeral_succ {char : Nat → Char} (width n : Nat) : numeral base char (width + 1) n =
    char (n / base ^ width % base) :: numeral base char width n := by
  rw [numeral, numeral, List.range_succ_eq_map, List.map_cons, List.map_map]
  congr 1
  refine List.map_congr_left fun i _ => ?_
  rw [Function.comp_apply, show width + 1 - 1 - i.succ = width - 1 - i by omega]

/-- The digits of a number spell it, as far as they go. -/
theorem value_numeral {char : Nat → Char} (hbase : 0 < base)
    (hchar : ∀ d < base, digit (char d) = d) (width n : Nat) :
    value base digit (numeral base char width n) = n % base ^ width := by
  induction width with
  | zero => rw [Nat.pow_zero, Nat.mod_one]; rfl
  | succ width ih =>
    rw [numeral_succ, value_cons, ih, length_numeral, hchar _ (Nat.mod_lt _ hbase),
      Nat.mod_pow_succ]
    ring

namespace Ascending

/-- The digits of a sorted alphabet ascend by their places in it. -/
theorem of_alphabet {alphabet : List Char} (h : alphabet.Pairwise (· < ·)) :
    Ascending alphabet.length alphabet.idxOf (· ∈ alphabet) where
  lt_base := List.idxOf_lt_length_of_mem
  lt_iff {c d} hc hd := by
    have hlt : ∀ {c d : Char}, c ∈ alphabet → d ∈ alphabet →
        alphabet.idxOf c < alphabet.idxOf d → c < d := fun {c d} hc hd hcd => by
      have := List.pairwise_iff_getElem.1 h _ _ (List.idxOf_lt_length_of_mem hc)
        (List.idxOf_lt_length_of_mem hd) hcd
      rwa [List.getElem_idxOf, List.getElem_idxOf] at this
    refine ⟨fun hcd => Nat.lt_of_not_le fun hle => ?_, hlt hc hd⟩
    rcases Nat.lt_or_eq_of_le hle with hdc | heq
    · exact absurd (hlt hd hc hdc) (Char.lt_asymm hcd)
    · rw [(List.idxOf_inj hd).1 heq] at hcd
      exact Char.lt_irrefl _ hcd

variable (h : Ascending base digit isDigit)
include h

theorem value_lt {cs : List Char} (hcs : ∀ c ∈ cs, isDigit c) :
    value base digit cs < base ^ cs.length := by
  induction cs with
  | nil => exact Nat.one_pos
  | cons c cs ih =>
    obtain ⟨hc, hcs⟩ := List.forall_mem_cons.1 hcs
    rw [value_cons, List.length_cons, Nat.pow_succ']
    calc digit c * base ^ cs.length + value base digit cs
        < (digit c + 1) * base ^ cs.length := by
          rw [Nat.succ_mul]
          exact Nat.add_lt_add_left (ih hcs) _
      _ ≤ base * base ^ cs.length := Nat.mul_le_mul_right _ (h.lt_base hc)

theorem eq_iff {c d : Char} (hc : isDigit c) (hd : isDigit d) : c = d ↔ digit c = digit d := by
  refine ⟨congrArg digit, fun heq => ?_⟩
  by_contra hne
  rcases Nat.lt_or_gt_of_ne (mt Char.toNat_inj.1 hne) with hlt | hlt
  · exact absurd ((h.lt_iff hc hd).1 hlt) (by omega)
  · exact absurd ((h.lt_iff hd hc).1 hlt) (by omega)

/-- Numerals of one width are ordered like the numbers they spell. -/
theorem lt_iff_value_lt : ∀ {cs ds : List Char}, cs.length = ds.length →
    (∀ c ∈ cs, isDigit c) → (∀ d ∈ ds, isDigit d) →
      (cs < ds ↔ value base digit cs < value base digit ds)
  | [], [], _, _, _ => by simp [value]
  | c :: cs, d :: ds, hlength, hcs, hds => by
    obtain ⟨hc, hcs⟩ := List.forall_mem_cons.1 hcs
    obtain ⟨hd, hds⟩ := List.forall_mem_cons.1 hds
    have hlength : cs.length = ds.length := Nat.succ.inj hlength
    have hx := h.value_lt hcs
    have hy := h.value_lt hds
    rw [List.cons_lt_cons_iff, h.lt_iff hc hd, h.eq_iff hc hd,
      lt_iff_value_lt hlength hcs hds, value_cons, value_cons]
    rw [hlength] at hx ⊢
    -- The first digits decide, for what the others spell is less than one unit of them.
    rcases Nat.lt_trichotomy (digit c) (digit d) with hlt | heq | hlt
    · have := Nat.mul_le_mul_right (base ^ ds.length) hlt
      rw [Nat.succ_mul] at this
      omega
    · rw [heq]
      omega
    · have := Nat.mul_le_mul_right (base ^ ds.length) hlt
      rw [Nat.succ_mul] at this
      omega

/-- A numeral of given width is known by the number it spells. -/
theorem ext {cs ds : List Char} (hlength : cs.length = ds.length) (hcs : ∀ c ∈ cs, isDigit c)
    (hds : ∀ d ∈ ds, isDigit d) (hvalue : value base digit cs = value base digit ds) :
    cs = ds := by
  refine List.le_antisymm (List.not_lt.1 fun hlt => ?_) (List.not_lt.1 fun hlt => ?_)
  · exact absurd ((h.lt_iff_value_lt hlength.symm hds hcs).1 hlt) (by omega)
  · exact absurd ((h.lt_iff_value_lt hlength hcs hds).1 hlt) (by omega)

end Ascending

end RecordGraph.Positional

namespace RecordGraph.Literal

theorem ascending_decimal : Positional.Ascending 10 (fun c => c.toNat - '0'.toNat)
    (isDigit · = true) where
  lt_base hc := Nat.lt_succ_of_le (digit_le_of_isDigit hc)
  lt_iff {c d} hc hd := by
    rw [isDigit_eq, Char.isDigit, Bool.and_eq_true, decide_eq_true_eq, decide_eq_true_eq] at hc hd
    have hzero : '0'.toNat = 48 := rfl
    have hc : 48 ≤ c.toNat := hc.1
    have hd : 48 ≤ d.toNat := hd.1
    rw [hzero, Char.lt_def, UInt32.lt_iff_toNat_lt]
    show c.toNat < d.toNat ↔ _
    omega

/-- Decimal numerals of one width are ordered like the numbers they spell. -/
theorem lt_iff_natOfDigits_lt {cs ds : List Char} (hlength : cs.length = ds.length)
    (hcs : ∀ c ∈ cs, isDigit c = true) (hds : ∀ d ∈ ds, isDigit d = true) :
    cs < ds ↔ natOfDigits cs < natOfDigits ds :=
  ascending_decimal.lt_iff_value_lt hlength hcs hds

end RecordGraph.Literal
