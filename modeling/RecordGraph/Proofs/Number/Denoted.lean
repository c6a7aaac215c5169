import Mathlib.Algebra.Group.Int.Defs
import Mathlib.Algebra.Group.Nat.Defs
import RecordGraph.Proofs.Number.Digits
import RecordGraph.Proofs.Number.Rounding

/-!
# The integers of texts and of doubles

Which integer a text spells is told by a relation, `Literal.SpellsInt`, that knows nothing of
reading; which number a double denotes by its bits, `Binary64.toRat`.

**Results.**
* `Literal.readInt?_eq_some_iff`: what is read from a text is what it spells.
* `Literal.readInt64?_eq_some_iff`, `Literal.readUInt64?_eq_some_iff`: so are the words of 64 bits;
  one without a sign takes no minus.
* `Binary64.toInt?_eq_some_iff`: the integer of a double is the number of its bits.
-/
namespace RecordGraph

/-! ## Texts -/

namespace Literal

/-- Decimal digits, and the number they spell. -/
inductive SpellsNat : List Char → Nat → Prop where
  | digit {c : Char} {k : Nat} (hk : k < 10) (hc : c.toNat = '0'.toNat + k) : SpellsNat [c] k
  | snoc {cs : List Char} {n : Nat} {c : Char} {k : Nat} (hcs : SpellsNat cs n) (hk : k < 10)
      (hc : c.toNat = '0'.toNat + k) : SpellsNat (cs ++ [c]) (10 * n + k)

/-- A decimal integer with or without a sign. -/
inductive SpellsInt : List Char → Int → Prop where
  | plain {cs : List Char} {n : Nat} (h : SpellsNat cs n) : SpellsInt cs n
  | plus {cs : List Char} {n : Nat} (h : SpellsNat cs n) : SpellsInt ('+' :: cs) n
  | minus {cs : List Char} {n : Nat} (h : SpellsNat cs n) : SpellsInt ('-' :: cs) (-n)

theorem isDigit_iff {c : Char} : isDigit c = true ↔ ∃ k < 10, c.toNat = '0'.toNat + k := by
  rw [isDigit_eq, Char.isDigit_iff_toNat]
  have hzero : '0'.toNat = 48 := rfl
  have hnine : '9'.toNat = 57 := rfl
  constructor
  · rintro ⟨hle, hge⟩
    exact ⟨c.toNat - 48, by omega, by omega⟩
  · rintro ⟨k, hk, hc⟩
    omega

theorem SpellsNat.ne_nil {cs : List Char} {n : Nat} (h : SpellsNat cs n) : cs ≠ [] := by
  cases h with
  | digit => exact List.cons_ne_nil _ _
  | snoc => exact List.append_ne_nil_of_right_ne_nil _ (List.cons_ne_nil _ _)

theorem SpellsNat.isDigit {cs : List Char} {n : Nat} (h : SpellsNat cs n) :
    ∀ c ∈ cs, Literal.isDigit c = true := by
  induction h with
  | digit hk hc => exact List.forall_mem_singleton.2 (isDigit_iff.2 ⟨_, hk, hc⟩)
  | snoc _ hk hc ih =>
    exact List.forall_mem_append.2 ⟨ih, List.forall_mem_singleton.2 (isDigit_iff.2 ⟨_, hk, hc⟩)⟩

theorem SpellsNat.natOfDigits_eq {cs : List Char} {n : Nat} (h : SpellsNat cs n) :
    natOfDigits cs = n := by
  induction h with
  | @digit c k hk hc =>
    rw [natOfDigits, List.foldl_cons, List.foldl_nil, hc, Nat.add_sub_cancel_left, Nat.zero_mul,
      Nat.zero_add]
  | snoc _ hk hc ih => rw [natOfDigits_snoc, ih, hc, Nat.add_sub_cancel_left, Nat.mul_comm]

/-- Digits spell their number. -/
theorem spellsNat_natOfDigits {cs : List Char} (hne : cs ≠ [])
    (h : ∀ c ∈ cs, isDigit c = true) : SpellsNat cs (natOfDigits cs) := by
  induction cs using List.reverseRecOn with
  | nil => exact absurd rfl hne
  | append_singleton cs c ih =>
    obtain ⟨hinit, hlast⟩ := List.forall_mem_append.1 h
    obtain ⟨k, hk, hc⟩ := isDigit_iff.1 (hlast c List.mem_cons_self)
    rw [natOfDigits_snoc, hc, Nat.add_sub_cancel_left, Nat.mul_comm]
    rcases eq_or_ne cs [] with rfl | hcs
    · rw [natOfDigits, List.foldl_nil, Nat.mul_zero, Nat.zero_add]
      exact .digit hk hc
    · exact .snoc (ih hcs hinit) hk hc

theorem readNat?_eq_some_iff {cs : List Char} {n : Nat} :
    readNat? cs = some n ↔ SpellsNat cs n := by
  rw [readNat?, Option.ite_none_right_eq_some, List.all_eq_true, Option.some_inj]
  constructor
  · rintro ⟨⟨hne, hdigits⟩, rfl⟩
    exact spellsNat_natOfDigits hne hdigits
  · intro h
    exact ⟨⟨h.ne_nil, h.isDigit⟩, h.natOfDigits_eq⟩

/-- Digits begin with no sign. -/
theorem SpellsNat.head_ne {cs : List Char} {n : Nat} (h : SpellsNat cs n) {c : Char}
    (hc : Literal.isDigit c = false) : cs.head? ≠ some c := by
  intro hhead
  rw [h.isDigit c (List.mem_of_mem_head? hhead)] at hc
  cases hc

/-- What is read from a text is what it spells. -/
theorem readInt?_eq_some_iff {cs : List Char} {i : Int} :
    readInt? cs = some i ↔ SpellsInt cs i := by
  have hplain {cs : List Char} (hminus : cs.head? ≠ some '-') (hplus : cs.head? ≠ some '+') :
      splitSign cs = (false, cs) := by
    unfold splitSign
    split
    · exact absurd rfl hminus
    · exact absurd rfl hplus
    · rfl
  constructor
  · intro h
    unfold readInt? splitSign at h
    split at h
    rename_i negative digits hsplit
    cases hn : readNat? digits with
    | none =>
      rw [hn] at h
      cases h
    | some n =>
      rw [hn] at h
      cases h
      rw [readNat?_eq_some_iff] at hn
      split at hsplit <;> cases hsplit
      · exact .minus hn
      · exact .plus hn
      · exact .plain hn
  · rintro (⟨hn⟩ | ⟨hn⟩ | ⟨hn⟩)
    · rw [readInt?, hplain (hn.head_ne rfl) (hn.head_ne rfl)]
      simp only [readNat?_eq_some_iff.2 hn]
      rfl
    all_goals
      simp only [readInt?, splitSign, readNat?_eq_some_iff.2 hn]
      rfl

/-- A text spells one integer at most. -/
theorem SpellsInt.unique {cs : List Char} {i j : Int} (hi : SpellsInt cs i) (hj : SpellsInt cs j) :
    i = j :=
  Option.some_inj.1 ((readInt?_eq_some_iff.2 hi).symm.trans (readInt?_eq_some_iff.2 hj))

end Literal

theorem Width.signed?_eq_some_iff {n : Int} {i : Int64} :
    Width.signed? n = some i ↔ i.toInt = n := by
  rw [Width.signed?, Option.ite_none_right_eq_some, Option.some_inj]
  constructor
  · rintro ⟨⟨hle, hlt⟩, rfl⟩
    exact Int64.toInt_ofInt_of_le hle hlt
  · rintro rfl
    exact ⟨⟨i.le_toInt, i.toInt_lt⟩, Int64.ofInt_toInt i⟩

theorem Width.unsigned?_eq_some_iff {n : Nat} {u : UInt64} :
    Width.unsigned? n = some u ↔ u.toNat = n := by
  rw [Width.unsigned?, Option.ite_none_right_eq_some, Option.some_inj]
  constructor
  · rintro ⟨hlt, rfl⟩
    exact UInt64.toNat_ofNat_of_lt' hlt
  · rintro rfl
    exact ⟨u.toNat_lt, UInt64.ofNat_toNat⟩

namespace Literal

theorem readInt64?_eq_some_iff {s : String} {i : Int64} :
    readInt64? s = some i ↔ SpellsInt s.toList i.toInt := by
  simp only [readInt64?, Option.bind_eq_some_iff, readInt?_eq_some_iff, Width.signed?_eq_some_iff]
  exact exists_eq_right'

/-- Numbers without a sign are read like the others, but for a minus before them. -/
theorem readUInt64?_eq_some_iff {s : String} {u : UInt64} :
    readUInt64? s = some u ↔ s.toList.head? ≠ some '-' ∧ SpellsInt s.toList u.toNat := by
  simp only [readUInt64?, Option.bind_eq_some_iff, readNat?_eq_some_iff,
    Width.unsigned?_eq_some_iff, exists_eq_right']
  generalize s.toList = cs, u.toNat = n
  constructor
  · intro h
    split at h
    · exact ⟨by simp, .plus h⟩
    · exact ⟨h.head_ne rfl, .plain h⟩
  · rintro ⟨hminus, h⟩
    obtain ⟨i, hi⟩ : ∃ i : Int, i = n := ⟨_, rfl⟩
    rw [← hi] at h
    cases h with
    | plain h =>
      obtain rfl := Int.ofNat.inj hi
      split
      · exact absurd rfl (h.head_ne rfl)
      · exact h
    | plus h =>
      obtain rfl := Int.ofNat.inj hi
      exact h
    | minus => exact absurd rfl hminus

end Literal

/-! ## Doubles -/

namespace Binary64

/-- The number of a finite double. -/
def toRat (x : Binary64) : ℚ := if x.negative then -x.value else x.value

theorem value_eq_natCast_iff {x : Binary64} {k : Nat} :
    x.value = k ↔ x.ratio.1 % x.ratio.2 = 0 ∧ x.ratio.1 / x.ratio.2 = k := by
  have hpos := x.ratio_pos
  rw [value, div_eq_iff (by exact_mod_cast hpos.ne')]
  constructor
  · intro h
    have hmul : x.ratio.1 = k * x.ratio.2 := by exact_mod_cast h
    rw [hmul]
    exact ⟨Nat.mul_mod_left _ _, Nat.mul_div_cancel _ hpos⟩
  · rintro ⟨hmod, rfl⟩
    exact_mod_cast (Nat.div_mul_cancel (Nat.dvd_of_mod_eq_zero hmod)).symm

theorem value_nonneg (x : Binary64) : 0 ≤ x.value :=
  div_nonneg (Nat.cast_nonneg _) (Nat.cast_nonneg _)

theorem abs_toRat (x : Binary64) : |x.toRat| = x.value := by
  rw [toRat]
  split_ifs
  · rw [abs_neg, abs_of_nonneg x.value_nonneg]
  · exact abs_of_nonneg x.value_nonneg

/-- The integer of a double is the number of its bits, if that one is an integer. -/
theorem toInt?_eq_some_iff {x : Binary64} {n : Int} :
    x.toInt? = some n ↔ x.isFinite = true ∧ x.toRat = n := by
  cases hfinite : x.isFinite with
  | false => simp [toInt?, hfinite]
  | true =>
    simp only [toInt?, hfinite, Bool.not_true, Bool.false_eq_true, if_false, true_and,
      Option.ite_none_right_eq_some, Option.some_inj]
    constructor
    · rintro ⟨hmod, rfl⟩
      rw [toRat, value_eq_natCast_iff.2 ⟨hmod, rfl⟩]
      split_ifs <;> simp only [Int.cast_neg, Int.cast_natCast]
    · intro h
      have habs : x.value = n.natAbs := by rw [← abs_toRat, h, Nat.cast_natAbs, Int.cast_abs]
      obtain ⟨hmod, hdiv⟩ := value_eq_natCast_iff.1 habs
      refine ⟨hmod, ?_⟩
      rw [hdiv]
      rw [toRat, habs] at h
      generalize n.natAbs = k at h ⊢
      split_ifs at h ⊢ <;> exact_mod_cast h

theorem isZero_iff {x : Binary64} : x.isZero = true ↔ x.value = 0 := by
  have hpower : (2 ^ x.exponent : ℚ) ≠ 0 := zpow_ne_zero _ two_ne_zero
  have hunit : 0 < exponentUnit := Nat.two_pow_pos 52
  rw [value_eq, mul_eq_zero, or_iff_left hpower, Nat.cast_eq_zero, isZero, significand,
    Bool.and_eq_true, beq_iff_eq, beq_iff_eq]
  split_ifs with hbiased
  · exact and_iff_right hbiased
  · exact iff_of_false (fun h => hbiased h.1) (by omega)

theorem isNonneg_iff {x : Binary64} (hx : x.isFinite = true) : x.isNonneg = true ↔ 0 ≤ x.toRat := by
  have hnan : x.isNaN = false := by
    rw [isFinite, bne_iff_ne] at hx
    rw [isNaN, beq_eq_false_iff_ne.2 hx, Bool.false_and]
  rw [isNonneg, hnan, Bool.not_false, Bool.true_and, Bool.or_eq_true, isZero_iff, toRat]
  have hvalue := x.value_nonneg
  cases x.negative with
  | false => simpa using hvalue
  | true =>
    rw [if_pos rfl, Left.nonneg_neg_iff, hvalue.ge_iff_eq']
    simp

end Binary64

end RecordGraph
