import Mathlib.Tactic.Linarith
import Mathlib.Tactic.NormNum
import RecordGraph.Number.DoublePair
import RecordGraph.Proofs.Number.Denoted

/-!
# Sums of doubles

A double next to a fraction denotes the nearest integer of the fraction in its unit. An integer of
at most 53 bits is denoted as it is, so the part of an integer that its nearest double has no room
for is not lost in a pair, and adding up the pair rounds the integer itself.

**Results.**
* `Binary64.value_roundRatio`: what the double nearest to a fraction denotes.
* `Binary64.value_roundRatio_of_lt`, `Binary64.value_ofNat_word`: so for integers of at most 53 bits,
  and for those of 64 bits.
* `Binary64.add_eq_ofNat`: a sum that is a natural number is rounded as that number.
* `DoublePair.toDouble_ofRatio`: a number of 64 bits goes through a pair to its nearest double.
-/
namespace RecordGraph

namespace Binary64

/-! ## What a rounded fraction denotes -/

theorem roundHalfEven_eq {n d k : Nat} (hd : 0 < d) (h : (n / d : ℚ) = k) :
    roundHalfEven n d = k :=
  (roundHalfEven_le hd h.le).antisymm (le_roundHalfEven hd h.ge)

/-- The double nearest to a fraction is that of the number, however it is written. -/
theorem roundRatio_congr (negative : Bool) {num den num' den' : Nat} (hden : 0 < den)
    (hden' : 0 < den') (h : (num / den : ℚ) = num' / den') :
    roundRatio negative num den = roundRatio negative num' den' := by
  rw [roundRatio_eq, roundRatio_eq, (roundedMagnitude_mono hden hden' h.le).antisymm
    (roundedMagnitude_mono hden' hden h.ge)]

theorem HasUnit.unique {precision : Nat} {least : Int} {q : ℚ} {e e' : Int}
    (h : HasUnit precision least q e) (h' : HasUnit precision least q e') : e = e' :=
  (h.mono h' le_rfl).antisymm (h'.mono h le_rfl)

/-- The magnitude bits are a number of units, with the exponent of the unit in front. A number that
has a bit more is the next power of two. -/
theorem value_of_magnitude {x : Binary64} {e : Int} {m : Nat} (he : -1074 ≤ e)
    (hx : x.magnitude = (e + 1074).toNat * exponentUnit + m) (hle : m ≤ 2 * exponentUnit)
    (hge : e = -1074 ∨ exponentUnit ≤ m) : x.value = m * 2 ^ e := by
  have hcases : x.significand = m ∧ x.exponent = e ∨
      m = 2 * exponentUnit ∧ x.significand = exponentUnit ∧ x.exponent = e + 1 := by
    unfold significand exponent
    rw [biased_eq, fraction_eq, hx]
    unfold exponentUnit at *
    split_ifs <;> omega
  rw [value_eq]
  rcases hcases with ⟨hm, hexp⟩ | ⟨rfl, hm, hexp⟩
  · rw [hm, hexp]
  · rw [hm, hexp, zpow_add_one₀ two_ne_zero]
    push_cast
    ring

/-- The double nearest to a fraction denotes the nearest integer in the unit of the fraction. -/
theorem value_roundRatio (negative : Bool) {num den : Nat} {e : Int} (hnum : num ≠ 0)
    (hden : 0 < den) (hfinite : (roundRatio negative num den).isFinite = true)
    (he : HasUnit 53 (-1074) (num / den : ℚ) e) :
    (roundRatio negative num den).value =
      roundHalfEven (scaled num den e).1 (scaled num den e).2 * 2 ^ e := by
  refine value_of_magnitude he.least_le ?_ (roundHalfEven_scaled_le hden he) ?_
  · rw [isFinite_iff, magnitude_roundRatio] at hfinite
    rw [magnitude_roundRatio]
    unfold roundedMagnitude at hfinite ⊢
    rw [if_neg hnum, ((unitExponent_spec hnum hden 53 (-1074)).unique he)] at hfinite ⊢
    exact Nat.min_eq_left (Nat.le_of_lt (Nat.lt_of_not_le fun hle =>
      absurd hfinite (Nat.not_lt.2 (Nat.le_min.2 ⟨hle, Nat.le_refl _⟩))))
  · rcases Int.lt_or_eq_of_le he.least_le with hlt | heq
    · exact .inr (le_roundHalfEven_scaled hden he hlt)
    · exact .inl heq.symm

theorem negative_roundRatio (negative : Bool) (num den : Nat) :
    (roundRatio negative num den).negative = negative := by
  have hm := (roundedMagnitude_le num den).trans_lt (by decide : infiniteMagnitude < signUnit)
  have hword : (if negative then signUnit + roundedMagnitude num den
      else roundedMagnitude num den) < 2 ^ 64 := by
    unfold signUnit at *
    split_ifs <;> omega
  rw [roundRatio_eq, Binary64.negative, ofMagnitude, UInt64.toNat_ofNat_of_lt' hword]
  cases negative
  · simpa using hm
  · simp

theorem toRat_ofNat (n : Nat) : (ofNat n).toRat = (ofNat n).value := by
  rw [toRat, ofNat, negative_roundRatio, if_neg Bool.false_ne_true]

theorem zero_eq_ofNat : zero false = ofNat 0 := by
  rw [ofNat, roundRatio, if_pos rfl]

/-! ## Integers -/

/-- No integer of 64 bits is rounded to infinity. -/
theorem isFinite_roundRatio (negative : Bool) {n : Nat} (h : n ≤ 2 ^ 64) :
    (roundRatio negative n 1).isFinite = true := by
  rw [isFinite_iff, magnitude_roundRatio]
  have hgreatest : roundedMagnitude (2 ^ 64) 1 < infiniteMagnitude := by decide +kernel
  refine (roundedMagnitude_mono Nat.one_pos Nat.one_pos ?_).trans_lt hgreatest
  exact div_le_div_of_nonneg_right (by exact_mod_cast h) (by norm_num)

theorem isFinite_ofNat {n : Nat} (h : n ≤ 2 ^ 64) : (ofNat n).isFinite = true :=
  isFinite_roundRatio false h

/-- An integer of at most 53 bits is denoted as it is. -/
theorem value_roundRatio_of_lt (negative : Bool) {n : Nat} (h : n < 2 ^ 53) :
    (roundRatio negative n 1).value = n := by
  rcases Nat.eq_zero_or_pos n with rfl | hn
  · have hzero : (roundRatio negative 0 1).magnitude = 0 := magnitude_roundRatio negative 0 1
    rw [value_of_magnitude (e := -1074) (m := 0) (by norm_num) (by simpa using hzero) (by decide)
      (.inl rfl), Nat.cast_zero, zero_mul]
  · have hunit := unitExponent_spec hn.ne' Nat.one_pos 53 (-1074)
    generalize unitExponent 53 (-1074) n 1 = e at hunit
    have hle : e ≤ 0 := by
      rcases hunit.le with rfl | hge
      · norm_num
      · have hlt : (2 ^ (((53 : Nat) : Int) + e - 1) : ℚ) < 2 ^ (53 : Int) := by
          refine hge.trans_lt ?_
          rw [Nat.cast_one, div_one]
          exact_mod_cast h
        have := (zpow_lt_zpow_iff_right₀ (by norm_num : (1 : ℚ) < 2)).1 hlt
        omega
    obtain ⟨k, hk⟩ := Int.eq_ofNat_of_zero_le (show 0 ≤ -e by omega)
    obtain rfl : e = -(k : Int) := by omega
    have hpower : (2 ^ (-(k : Int)) : ℚ) = (2 ^ k)⁻¹ := by rw [zpow_neg, zpow_natCast]
    have hscaled : roundHalfEven (scaled n 1 (-(k : Int))).1 (scaled n 1 (-(k : Int))).2 =
        n * 2 ^ k := by
      refine roundHalfEven_eq (scaled_pos Nat.one_pos n _) ?_
      rw [scaled_eq, hpower, div_inv_eq_mul]
      push_cast
      ring
    rw [value_roundRatio negative hn.ne' Nat.one_pos (isFinite_roundRatio negative (by omega))
      hunit, hscaled, hpower, Nat.cast_mul, Nat.cast_pow, Nat.cast_ofNat,
      mul_inv_cancel_right₀ (by positivity)]

/-- Of an integer of 64 bits, the last eleven are rounded. -/
theorem value_ofNat_word {n : Nat} (hge : 2 ^ 63 ≤ n) (hlt : n < 2 ^ 64) :
    (ofNat n).value = (2048 * roundHalfEven n 2048 : Nat) := by
  have hunit : HasUnit 53 (-1074) (n / (1 : Nat) : ℚ) 11 := by
    rw [Nat.cast_one, div_one]
    have hfirst : (2 ^ (63 : Int) : ℚ) ≤ n := by exact_mod_cast hge
    have hpast : (n : ℚ) < 2 ^ (64 : Int) := by exact_mod_cast hlt
    exact ⟨by norm_num, hpast, .inr hfirst⟩
  rw [ofNat, value_roundRatio false (by omega) Nat.one_pos (isFinite_roundRatio false hlt.le) hunit]
  have hscaled : scaled n 1 11 = (n, 2048) := rfl
  rw [hscaled]
  push_cast
  ring

/-! ## Sums -/

theorem signedRatio_eq (x : Binary64) : (x.signedRatio.1 / x.signedRatio.2 : ℚ) = x.toRat := by
  rw [signedRatio, toRat, value]
  dsimp only
  split_ifs
  · push_cast
    rw [neg_div]
  · push_cast
    rfl

theorem isNaN_of_isFinite {x : Binary64} (h : x.isFinite = true) : x.isNaN = false :=
  Bool.eq_false_iff.2 fun hnan =>
    absurd ((isFinite_iff.1 h).trans (isNaN_iff.1 hnan)) (Nat.lt_irrefl _)

theorem isInfinite_of_isFinite {x : Binary64} (h : x.isFinite = true) : x.isInfinite = false :=
  Bool.eq_false_iff.2 fun hinfinite => (isFinite_iff.1 h).ne (isInfinite_iff.1 hinfinite)

/-- A sum that is a natural number is rounded as that number. -/
theorem add_eq_ofNat {x y : Binary64} (hx : x.isFinite = true) (hy : y.isFinite = true) {n : Nat}
    (hn : n ≠ 0) (h : x.toRat + y.toRat = n) : x.add y = ofNat n := by
  have hb : 0 < x.signedRatio.2 := x.ratio_pos
  have hd : 0 < y.signedRatio.2 := y.ratio_pos
  rw [← signedRatio_eq, ← signedRatio_eq] at h
  rw [add, isNaN_of_isFinite hx, isNaN_of_isFinite hy, isInfinite_of_isFinite hx,
    isInfinite_of_isFinite hy]
  simp only [Bool.or_self, Bool.false_eq_true, if_false]
  generalize x.signedRatio = p at *
  generalize y.signedRatio = q at *
  obtain ⟨a, b⟩ := p
  obtain ⟨c, d⟩ := q
  dsimp only at *
  have hsum : a * d + c * b = ((n * (b * d) : Nat) : Int) := by
    have hb' : (b : ℚ) ≠ 0 := by exact_mod_cast hb.ne'
    have hd' : (d : ℚ) ≠ 0 := by exact_mod_cast hd.ne'
    rw [div_add_div _ _ hb' hd', div_eq_iff (mul_ne_zero hb' hd')] at h
    have hcast : (a * d + c * b : ℚ) = ((n * (b * d) : Nat) : ℚ) := by
      rw [mul_comm (c : ℚ)]
      exact_mod_cast h
    exact_mod_cast hcast
  have hpos : 0 < n * (b * d) := Nat.mul_pos (Nat.pos_of_ne_zero hn) (Nat.mul_pos hb hd)
  rw [hsum, if_neg (by omega), Int.natAbs_natCast,
    decide_eq_false (Int.not_lt.2 (Int.natCast_nonneg _)), ofNat]
  refine roundRatio_congr false (Nat.mul_pos hb hd) Nat.one_pos ?_
  rw [Nat.cast_mul, mul_div_assoc, div_self (by exact_mod_cast (Nat.mul_pos hb hd).ne'), mul_one,
    Nat.cast_one, div_one]

theorem add_zero_eq_ofNat {x : Binary64} (hx : x.isFinite = true) {n : Nat} (hn : n ≠ 0)
    (h : x.toRat = n) : x.add (zero false) = ofNat n := by
  rw [zero_eq_ofNat]
  refine add_eq_ofNat hx (isFinite_ofNat (Nat.zero_le _)) hn ?_
  rw [h, toRat_ofNat, ofNat, value_roundRatio_of_lt false (Nat.two_pow_pos 53), Nat.cast_zero,
    add_zero]

end Binary64

namespace DoublePair

open Binary64

/-- The second double of a pair is next to what the first one leaves of an integer. -/
theorem low_ofRatio {n k : Nat} (h : (ofNat n).value = k) :
    (ofRatio n 1).low = roundRatio (decide ((n : Int) - k < 0)) ((n : Int) - k).natAbs 1 := by
  have hpos := (ofNat n).ratio_pos
  obtain ⟨hmod, hdiv⟩ := value_eq_natCast_iff.1 h
  have hratio : (ofNat n).ratio.1 = k * (ofNat n).ratio.2 := by
    rw [← hdiv, Nat.div_mul_cancel (Nat.dvd_of_mod_eq_zero hmod)]
  have hlow : (ofRatio n 1).low = roundRatio
      (decide (((n * (ofNat n).ratio.2 : Nat) : Int) - ((ofNat n).ratio.1 * 1 : Nat) < 0))
      (((n * (ofNat n).ratio.2 : Nat) : Int) - ((ofNat n).ratio.1 * 1 : Nat)).natAbs
      (1 * (ofNat n).ratio.2) := rfl
  rw [hlow, hratio]
  generalize (ofNat n).ratio.2 = d at hpos
  have hleft : ((n * d : Nat) : Int) - (k * d * 1 : Nat) = ((n : Int) - k) * d := by
    push_cast
    ring
  have hsign : ((n : Int) - k) * d < 0 ↔ (n : Int) - k < 0 := by
    have hd : (0 : Int) < d := by exact_mod_cast hpos
    refine ⟨fun hneg => ?_, fun hneg => mul_neg_of_neg_of_pos hneg hd⟩
    exact Int.not_le.1 fun hnonneg => absurd hneg (Int.not_lt.2 (mul_nonneg hnonneg hd.le))
  rw [hleft, decide_eq_decide.2 hsign, Int.natAbs_mul, Int.natAbs_natCast, Nat.one_mul]
  refine roundRatio_congr _ hpos Nat.one_pos ?_
  rw [Nat.cast_mul, mul_div_assoc, div_self (by exact_mod_cast hpos.ne'), mul_one, Nat.cast_one,
    div_one]

/-- A number of 64 bits goes through a pair to its nearest double. -/
theorem toDouble_ofRatio {n : Nat} (hge : 2 ^ 63 ≤ n) (hlt : n < 2 ^ 64) :
    (ofRatio n 1).toDouble = ofNat n := by
  have hvalue := value_ofNat_word hge hlt
  have hnear := roundHalfEven_cases n 2048
  have hlow := low_ofRatio hvalue
  have hrest : ((n : Int) - (2048 * roundHalfEven n 2048 : Nat)).natAbs < 2 ^ 53 := by omega
  generalize 2048 * roundHalfEven n 2048 = k at *
  have hhigh : (ofNat n).toRat = k := (toRat_ofNat n).trans hvalue
  have hlowRat : (ofRatio n 1).low.toRat = ((n : Int) - k : Int) := by
    rw [hlow, toRat, negative_roundRatio, value_roundRatio_of_lt _ hrest, Nat.cast_natAbs]
    split_ifs with hsign
    · rw [abs_of_neg (of_decide_eq_true hsign)]
      push_cast
      ring
    · rw [abs_of_nonneg (Int.not_lt.1 fun hneg => hsign (decide_eq_true hneg))]
  have hsum : (ofRatio n 1).toDouble = (ofNat n).add (ofRatio n 1).low := rfl
  rw [hsum]
  refine add_eq_ofNat (isFinite_ofNat hlt.le) ?_ (by omega) ?_
  · rw [hlow]
    exact isFinite_roundRatio _ (by omega)
  · rw [hhigh, hlowRat]
    push_cast
    ring

end DoublePair

end RecordGraph
