import Mathlib.Algebra.Order.Field.Power
import Mathlib.Data.Rat.Cast.Order
import Mathlib.Tactic.Linarith
import Mathlib.Tactic.Ring
import Mathlib.Tactic.SplitIfs
import RecordGraph.Number.Binary64

/-!
# Rounding to doubles is monotone

* `roundHalfEven_mono`: the nearest integer of a greater fraction is no smaller.
* `unitExponent_spec`: in its unit, a fraction has the given number of bits, or the unit is the
  least one.
* `roundedMagnitude_mono`: the double nearest to a greater fraction has no smaller magnitude bits.
* `value_mono`, `mul_mono`: so has a double of a greater value, and a product of greater doubles.

All of these compare fractions as rational numbers; no bound on an error is needed.
-/
namespace RecordGraph

/-! ## Units -/

/-- `num / den` as a fraction in which `base ^ e` is the unit. -/
def inUnit (base num den : Nat) (e : Int) : Nat × Nat :=
  if 0 ≤ e then (num, den * base ^ e.toNat) else (num * base ^ (-e).toNat, den)

theorem inUnit_pos {base den : Nat} (hbase : 0 < base) (hden : 0 < den) (num : Nat) (e : Int) :
    0 < (inUnit base num den e).2 := by
  rw [inUnit]
  split_ifs
  · exact Nat.mul_pos hden (Nat.pow_pos hbase)
  · exact hden

/-- The unit is divided out. -/
theorem inUnit_eq (base num den : Nat) (e : Int) :
    ((inUnit base num den e).1 / (inUnit base num den e).2 : ℚ) = num / den / base ^ e := by
  rw [inUnit]
  split_ifs with he
  · obtain ⟨k, rfl⟩ := Int.eq_ofNat_of_zero_le he
    simp only [Int.toNat_natCast, Nat.cast_mul, Nat.cast_pow, zpow_natCast, div_div]
  · obtain ⟨k, hk⟩ := Int.eq_ofNat_of_zero_le (show 0 ≤ -e by omega)
    obtain rfl : e = -(k : Int) := by omega
    simp only [neg_neg, Int.toNat_natCast, Nat.cast_mul, Nat.cast_pow, zpow_neg, zpow_natCast,
      div_inv_eq_mul]
    rw [mul_div_right_comm]

namespace Binary64

theorem scaled_pos {den : Nat} (h : 0 < den) (num : Nat) (e : Int) :
    0 < (scaled num den e).2 := inUnit_pos two_pos h num e

theorem scaled_eq (num den : Nat) (e : Int) :
    ((scaled num den e).1 / (scaled num den e).2 : ℚ) = num / den / 2 ^ e := inUnit_eq 2 num den e

/-! ## The nearest integer -/

theorem roundHalfEven_cases (n d : Nat) :
    (roundHalfEven n d = n / d ∧ 2 * (n % d) ≤ d) ∨
      (roundHalfEven n d = n / d + 1 ∧ d ≤ 2 * (n % d)) := by
  unfold roundHalfEven
  dsimp only
  split_ifs <;> omega

/-- The nearest integer of a greater fraction is no smaller. -/
theorem roundHalfEven_mono {n d n' d' : Nat} (hd : 0 < d) (hd' : 0 < d')
    (h : (n / d : ℚ) ≤ n' / d') : roundHalfEven n d ≤ roundHalfEven n' d' := by
  have hcross : n * d' ≤ n' * d := by
    rw [div_le_div_iff₀ (by exact_mod_cast hd) (by exact_mod_cast hd')] at h
    exact_mod_cast h
  have hquotient : n / d ≤ n' / d' := by
    rw [Nat.le_div_iff_mul_le hd']
    refine Nat.le_of_mul_le_mul_right ?_ hd
    calc n / d * d' * d = n / d * d * d' := Nat.mul_right_comm _ _ _
      _ ≤ n * d' := Nat.mul_le_mul_right _ (Nat.div_mul_le_self n d)
      _ ≤ n' * d := hcross
  rcases Nat.lt_or_eq_of_le hquotient with hlt | heq
  · have := roundHalfEven_cases n d
    have := roundHalfEven_cases n' d'
    omega
  -- Between the same integers, the rests decide.
  · have hrest : n % d * d' ≤ n' % d' * d := by
      have hn : n * d' = n / d * (d * d') + n % d * d' := by
        conv_lhs => rw [← Nat.div_add_mod n d, Nat.add_mul]
        rw [Nat.mul_comm d, Nat.mul_assoc]
      have hn' : n' * d = n' / d' * (d * d') + n' % d' * d := by
        conv_lhs => rw [← Nat.div_add_mod n' d', Nat.add_mul]
        rw [Nat.mul_comm d', Nat.mul_assoc, Nat.mul_comm d' d]
      rw [hn, hn', heq] at hcross
      omega
    have hhalf (hup : d ≤ 2 * (n % d)) : d' ≤ 2 * (n' % d') := by
      refine Nat.le_of_mul_le_mul_right ?_ hd
      nlinarith
    have hover (hup : d < 2 * (n % d)) : d' < 2 * (n' % d') := by
      refine Nat.lt_of_mul_lt_mul_right (a := d) ?_
      nlinarith
    unfold roundHalfEven
    dsimp only
    rw [heq]
    split_ifs <;> omega

theorem roundHalfEven_one (k : Nat) : roundHalfEven k 1 = k := by
  rcases roundHalfEven_cases k 1 with ⟨h, -⟩ | ⟨-, h⟩
  · rw [h, Nat.div_one]
  · omega

theorem roundHalfEven_le {n d k : Nat} (hd : 0 < d) (h : (n / d : ℚ) ≤ k) :
    roundHalfEven n d ≤ k := by
  have hone : (n / d : ℚ) ≤ k / (1 : Nat) := by rwa [Nat.cast_one, div_one]
  exact (roundHalfEven_mono hd Nat.one_pos hone).trans_eq (roundHalfEven_one k)

theorem le_roundHalfEven {n d k : Nat} (hd : 0 < d) (h : (k : ℚ) ≤ n / d) :
    k ≤ roundHalfEven n d := by
  have hone : (k / (1 : Nat) : ℚ) ≤ n / d := by rwa [Nat.cast_one, div_one]
  exact (roundHalfEven_one k).symm.trans_le (roundHalfEven_mono Nat.one_pos hd hone)

/-! ## The unit of a fraction -/

/-- In this unit the fraction has `precision` bits, or fewer and the unit is the least one. -/
structure HasUnit (precision : Nat) (least : Int) (q : ℚ) (e : Int) : Prop where
  least_le : least ≤ e
  lt : q < 2 ^ (precision + e)
  le : e = least ∨ 2 ^ (precision + e - 1) ≤ q

theorem two_zpow_log2_le {n : Nat} (hn : n ≠ 0) : (2 ^ (n.log2 : Int) : ℚ) ≤ n := by
  rw [zpow_natCast]
  exact_mod_cast Nat.log2_self_le hn

theorem lt_two_zpow_log2 (n : Nat) : (n : ℚ) < 2 ^ (n.log2 + 1 : Int) := by
  have : (n : ℚ) < 2 ^ (n.log2 + 1) := by exact_mod_cast Nat.lt_log2_self
  exact_mod_cast this

theorem two_zpow_le {a b : Int} (h : a ≤ b) : (2 ^ a : ℚ) ≤ 2 ^ b :=
  zpow_le_zpow_right₀ (by norm_num) h

theorem unitExponent_spec {num den : Nat} (hnum : num ≠ 0) (hden : 0 < den) (precision : Nat)
    (least : Int) :
    HasUnit precision least (num / den : ℚ) (unitExponent precision least num den) := by
  have hden' : (0 : ℚ) < den := by exact_mod_cast hden
  have htwo : (2 : ℚ) ≠ 0 := two_ne_zero
  -- The logarithms tell the fraction up to a factor of four.
  have habove : (num / den : ℚ) < 2 ^ (num.log2 - den.log2 + 1 : Int) := by
    rw [div_lt_iff₀ hden']
    refine (lt_two_zpow_log2 num).trans_le ?_
    calc (2 ^ (num.log2 + 1 : Int) : ℚ)
        = 2 ^ (num.log2 - den.log2 + 1 : Int) * 2 ^ (den.log2 : Int) := by
          rw [← zpow_add₀ htwo]
          congr 1
          omega
      _ ≤ _ := mul_le_mul_of_nonneg_left (two_zpow_log2_le hden.ne') (by positivity)
  have hbelow : (2 ^ (num.log2 - den.log2 - 1 : Int) : ℚ) ≤ num / den := by
    rw [le_div_iff₀ hden']
    refine le_trans ?_ (two_zpow_log2_le hnum)
    calc (2 ^ (num.log2 - den.log2 - 1 : Int) * den : ℚ)
        ≤ 2 ^ (num.log2 - den.log2 - 1 : Int) * 2 ^ (den.log2 + 1 : Int) :=
          mul_le_mul_of_nonneg_left (lt_two_zpow_log2 den).le (by positivity)
      _ = 2 ^ (num.log2 : Int) := by
          rw [← zpow_add₀ htwo]
          congr 1
          omega
  unfold unitExponent
  dsimp only
  generalize hlow : (num.log2 : Int) - den.log2 - precision = low at *
  have hcompare : (scaled num den low).1 < Nat.pow 2 precision * (scaled num den low).2 ↔
      (num / den : ℚ) < 2 ^ (precision + low : Int) := by
    have hpos := scaled_pos hden num low
    rw [zpow_add₀ htwo, ← div_lt_iff₀ (by positivity), ← scaled_eq,
      div_lt_iff₀ (by exact_mod_cast hpos), zpow_natCast, Nat.pow_eq]
    exact_mod_cast Iff.rfl
  split_ifs with h
  · have hlt := hcompare.1 h
    refine ⟨Int.le_max_left _ _, hlt.trans_le (two_zpow_le (by omega)), ?_⟩
    rcases Int.le_total low least with hle | hle
    · exact .inl (by omega)
    · refine .inr (le_trans (two_zpow_le ?_) hbelow)
      omega
  · have hge := not_lt.1 (mt hcompare.2 h)
    refine ⟨Int.le_max_left _ _, habove.trans_le (two_zpow_le (by omega)), ?_⟩
    rcases Int.le_total (low + 1) least with hle | hle
    · exact .inl (by omega)
    · refine .inr (le_trans (two_zpow_le ?_) hge)
      omega

/-- A greater fraction has no smaller unit. -/
theorem HasUnit.mono {precision : Nat} {least : Int} {q q' : ℚ} {e e' : Int}
    (h : HasUnit precision least q e) (h' : HasUnit precision least q' e') (hle : q ≤ q') :
    e ≤ e' := by
  rcases h.le with rfl | hge
  · exact h'.least_le
  · have hlt : (2 ^ (precision + e - 1 : Int) : ℚ) < 2 ^ (precision + e' : Int) :=
      (hge.trans hle).trans_lt h'.lt
    have := (zpow_lt_zpow_iff_right₀ (by norm_num : (1 : ℚ) < 2)).1 hlt
    omega

/-! ## The nearest double -/

/-- The magnitude bits of the double nearest to a fraction. -/
def roundedMagnitude (num den : Nat) : Nat :=
  if num = 0 then 0
  else
    let e := unitExponent 53 (-1074) num den
    let (n, d) := scaled num den e
    min ((e + 1074).toNat * exponentUnit + roundHalfEven n d) infiniteMagnitude

theorem roundRatio_eq (negative : Bool) (num den : Nat) :
    roundRatio negative num den = ofMagnitude negative (roundedMagnitude num den) := by
  unfold roundRatio roundedMagnitude
  split_ifs <;> rfl

theorem roundedMagnitude_le (num den : Nat) : roundedMagnitude num den ≤ infiniteMagnitude := by
  unfold roundedMagnitude
  split_ifs
  · exact Nat.zero_le _
  · exact Nat.min_le_right _ _

/-- In its unit, a fraction is rounded to at most the first number with a bit more. -/
theorem roundHalfEven_scaled_le {num den : Nat} {e : Int} (hden : 0 < den)
    (h : HasUnit 53 (-1074) (num / den : ℚ) e) :
    roundHalfEven (scaled num den e).1 (scaled num den e).2 ≤ 2 * exponentUnit := by
  refine roundHalfEven_le (scaled_pos hden num e) ?_
  rw [scaled_eq, div_le_iff₀ (by positivity)]
  refine h.lt.le.trans_eq ?_
  rw [zpow_add₀ two_ne_zero, show 2 * exponentUnit = 2 ^ 53 from rfl]
  push_cast
  rfl

/-- Beyond the least unit, a fraction is rounded to a number with all bits. -/
theorem le_roundHalfEven_scaled {num den : Nat} {e : Int} (hden : 0 < den)
    (h : HasUnit 53 (-1074) (num / den : ℚ) e) (he : -1074 < e) :
    exponentUnit ≤ roundHalfEven (scaled num den e).1 (scaled num den e).2 := by
  refine le_roundHalfEven (scaled_pos hden num e) ?_
  have hge := h.le.resolve_left (by omega)
  rw [scaled_eq, le_div_iff₀ (by positivity)]
  refine le_trans (le_of_eq ?_) hge
  rw [show ((53 : Nat) : Int) + e - 1 = 52 + e by omega, zpow_add₀ two_ne_zero,
    show exponentUnit = 2 ^ 52 from rfl]
  push_cast
  rfl

/-- The double nearest to a greater fraction has no smaller magnitude. -/
theorem roundedMagnitude_mono {num den num' den' : Nat} (hden : 0 < den) (hden' : 0 < den')
    (h : (num / den : ℚ) ≤ num' / den') :
    roundedMagnitude num den ≤ roundedMagnitude num' den' := by
  unfold roundedMagnitude
  split_ifs with hnum hnum' hnum'
  · exact Nat.le_refl _
  · exact Nat.zero_le _
  · subst hnum'
    rw [Nat.cast_zero, zero_div] at h
    have : (0 : ℚ) < num / den :=
      div_pos (by exact_mod_cast Nat.pos_of_ne_zero hnum) (by exact_mod_cast hden)
    exact absurd h (not_le.2 this)
  have hunit := unitExponent_spec hnum hden 53 (-1074)
  have hunit' := unitExponent_spec hnum' hden' 53 (-1074)
  generalize unitExponent 53 (-1074) num den = e at *
  generalize unitExponent 53 (-1074) num' den' = e' at *
  have hleast := hunit.least_le
  dsimp only
  refine min_le_min_right _ ?_
  rcases Int.lt_or_eq_of_le (hunit.mono hunit' h) with hlt | rfl
  -- The greatest magnitude of a unit is the least of the next one.
  · have := roundHalfEven_scaled_le hden hunit
    have := le_roundHalfEven_scaled hden' hunit' (by omega)
    have : (e + 1074).toNat * exponentUnit + exponentUnit ≤ (e' + 1074).toNat * exponentUnit := by
      rw [← Nat.succ_mul]
      exact Nat.mul_le_mul_right _ (by omega)
    omega
  · refine Nat.add_le_add_left ?_ _
    refine roundHalfEven_mono (scaled_pos hden _ _) (scaled_pos hden' _ _) ?_
    rw [scaled_eq, scaled_eq]
    exact div_le_div_of_nonneg_right h (by positivity)

/-! ## Doubles by their magnitude -/

/-- The bits without the sign. -/
def magnitude (x : Binary64) : Nat := x.bits.toNat % signUnit

theorem magnitude_ofMagnitude (negative : Bool) {m : Nat} (hm : m < signUnit) :
    (ofMagnitude negative m).magnitude = m := by
  have hword : (if negative then signUnit + m else m) < 2 ^ 64 := by
    unfold signUnit at *
    split_ifs <;> omega
  rw [magnitude, ofMagnitude, UInt64.toNat_ofNat_of_lt' hword]
  unfold signUnit at *
  split_ifs <;> omega

/-- A double is its sign and its magnitude. -/
theorem ofMagnitude_magnitude (x : Binary64) : ofMagnitude x.negative x.magnitude = x := by
  have hword : (if x.negative then signUnit + x.magnitude else x.magnitude) = x.bits.toNat := by
    have := x.bits.toNat_lt
    unfold negative magnitude signUnit
    split_ifs with h <;> simp only [decide_eq_true_eq] at h <;> omega
  rw [ofMagnitude, hword, UInt64.ofNat_toNat]

theorem magnitude_roundRatio (negative : Bool) (num den : Nat) :
    (roundRatio negative num den).magnitude = roundedMagnitude num den := by
  rw [roundRatio_eq]
  exact magnitude_ofMagnitude _ ((roundedMagnitude_le num den).trans_lt (by decide))

theorem biased_eq (x : Binary64) : x.biased = x.magnitude / exponentUnit := by
  rw [biased, magnitude, signUnit, exponentUnit]
  omega

theorem fraction_eq (x : Binary64) : x.fraction = x.magnitude % exponentUnit := by
  rw [fraction, magnitude, signUnit, exponentUnit]
  omega

theorem magnitude_lt (x : Binary64) : x.magnitude < signUnit := Nat.mod_lt _ (by decide)

theorem isFinite_iff {x : Binary64} : x.isFinite = true ↔ x.magnitude < infiniteMagnitude := by
  have := x.magnitude_lt
  rw [isFinite, biased_eq, bne_iff_ne]
  unfold infiniteMagnitude exponentUnit signUnit at *
  omega

theorem isNaN_iff {x : Binary64} : x.isNaN = true ↔ infiniteMagnitude < x.magnitude := by
  have := x.magnitude_lt
  rw [isNaN, biased_eq, fraction_eq, Bool.and_eq_true, beq_iff_eq, bne_iff_ne]
  unfold infiniteMagnitude exponentUnit signUnit at *
  omega

theorem isInfinite_iff {x : Binary64} : x.isInfinite = true ↔ x.magnitude = infiniteMagnitude := by
  have := x.magnitude_lt
  rw [isInfinite, biased_eq, fraction_eq, Bool.and_eq_true, beq_iff_eq, beq_iff_eq]
  unfold infiniteMagnitude exponentUnit signUnit at *
  omega

/-- The number that the magnitude of a double denotes. -/
def value (x : Binary64) : ℚ := x.ratio.1 / x.ratio.2

theorem ratio_pos (x : Binary64) : 0 < x.ratio.2 := by
  rw [ratio]
  split_ifs
  · exact Nat.one_pos
  · exact Nat.pow_pos (by decide)

theorem value_eq (x : Binary64) : x.value = x.significand * 2 ^ x.exponent := by
  rw [value, ratio]
  split_ifs with he
  · obtain ⟨k, hk⟩ := Int.eq_ofNat_of_zero_le he
    simp only [hk, Int.toNat_natCast, Nat.pow_eq, Nat.cast_mul, Nat.cast_pow, Nat.cast_ofNat,
      zpow_natCast, Nat.cast_one, div_one]
  · obtain ⟨k, hk⟩ := Int.eq_ofNat_of_zero_le (show 0 ≤ -x.exponent by omega)
    rw [show x.exponent = -(k : Int) by omega]
    simp only [neg_neg, Int.toNat_natCast, Nat.pow_eq, Nat.cast_pow, Nat.cast_ofNat, zpow_neg,
      zpow_natCast, div_eq_mul_inv]

/-- A double with a greater magnitude has no smaller value. -/
theorem value_mono {x y : Binary64} (h : x.magnitude ≤ y.magnitude) : x.value ≤ y.value := by
  have hsignificand : x.exponent = y.exponent ∧ x.significand ≤ y.significand ∨
      x.exponent < y.exponent ∧ x.significand ≤ 2 ^ 53 ∧ 2 ^ 52 ≤ y.significand := by
    unfold exponent significand
    rw [biased_eq, biased_eq, fraction_eq, fraction_eq]
    unfold exponentUnit
    split_ifs <;> omega
  rw [value_eq, value_eq]
  rcases hsignificand with ⟨he, hm⟩ | ⟨he, hx, hy⟩
  · rw [he]
    exact mul_le_mul_of_nonneg_right (by exact_mod_cast hm) (by positivity)
  · calc (x.significand * 2 ^ x.exponent : ℚ)
        ≤ 2 ^ 53 * 2 ^ x.exponent :=
          mul_le_mul_of_nonneg_right (by exact_mod_cast hx) (by positivity)
      _ = 2 ^ 52 * 2 ^ (x.exponent + 1) := by
          rw [zpow_add_one₀ two_ne_zero]
          ring
      _ ≤ 2 ^ 52 * 2 ^ y.exponent :=
          mul_le_mul_of_nonneg_left (two_zpow_le (by omega)) (by positivity)
      _ ≤ y.significand * 2 ^ y.exponent :=
          mul_le_mul_of_nonneg_right (by exact_mod_cast hy) (by positivity)

/-! ## Products -/

theorem magnitude_mul {x y : Binary64} (hx : x.isFinite = true) (hy : y.isFinite = true) :
    (x.mul y).magnitude =
      roundedMagnitude (x.ratio.1 * y.ratio.1) (x.ratio.2 * y.ratio.2) := by
  have hordinary {z : Binary64} (hz : z.isFinite = true) :
      z.isNaN = false ∧ z.isInfinite = false := by
    rw [isFinite_iff] at hz
    exact ⟨Bool.eq_false_iff.2 fun h => absurd (isNaN_iff.1 h) (by omega),
      Bool.eq_false_iff.2 fun h => absurd (isInfinite_iff.1 h) (by omega)⟩
  unfold mul
  rw [(hordinary hx).1, (hordinary hx).2, (hordinary hy).1, (hordinary hy).2]
  exact magnitude_roundRatio _ _ _

/-- The product of greater doubles has no smaller magnitude. -/
theorem mul_mono {x y x' y' : Binary64} (hx' : x'.isFinite = true) (hy' : y'.isFinite = true)
    (hx : x.magnitude ≤ x'.magnitude) (hy : y.magnitude ≤ y'.magnitude) :
    (x.mul y).magnitude ≤ (x'.mul y').magnitude := by
  have hfinite {z z' : Binary64} (hz' : z'.isFinite = true) (h : z.magnitude ≤ z'.magnitude) :
      z.isFinite = true := isFinite_iff.2 (h.trans_lt (isFinite_iff.1 hz'))
  rw [magnitude_mul (hfinite hx' hx) (hfinite hy' hy), magnitude_mul hx' hy']
  have hproduct (a b : Binary64) :
      ((a.ratio.1 * b.ratio.1 : Nat) / (a.ratio.2 * b.ratio.2 : Nat) : ℚ) = a.value * b.value := by
    rw [value, value, div_mul_div_comm, Nat.cast_mul, Nat.cast_mul]
  refine roundedMagnitude_mono (Nat.mul_pos x.ratio_pos y.ratio_pos)
    (Nat.mul_pos x'.ratio_pos y'.ratio_pos) ?_
  rw [hproduct, hproduct]
  have hnonneg (z : Binary64) : 0 ≤ z.value := div_nonneg (Nat.cast_nonneg _) (Nat.cast_nonneg _)
  exact mul_le_mul (value_mono hx) (value_mono hy) (hnonneg y) (hnonneg x')

end Binary64

end RecordGraph
