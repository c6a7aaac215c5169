import RecordGraph.Number.Decimal
import RecordGraph.Proofs.Number.Digits
import RecordGraph.Proofs.Number.Rounding

/-!
# The shortest decimals of doubles

* `shortest_spec`: the decimal taken for a double has at most seventeen digits and reads back as the
  double, unless it is the zero that stands for none.
* `significant_spec`: what `Decimal.significant` leaves out of the digits are zeros.
-/
namespace RecordGraph.Decimal

open Literal

/-! ## Powers of ten -/

/-- A fraction is below the next power of ten. -/
theorem lt_magnitude {num den : Nat} (hden : 0 < den) :
    (num / den : ℚ) < 10 ^ (magnitude num den + 1) := by
  have hden' : (0 : ℚ) < den := by exact_mod_cast hden
  rw [magnitude, digitsOf, digitsOf]
  split_ifs with hle
  · rw [Int.sub_add_cancel, zpow_natCast, div_lt_iff₀ hden']
    exact_mod_cast (Nat.div_lt_iff_lt_mul hden).1 (lt_pow_length_toDigits (num / den))
  · rcases Nat.eq_zero_or_pos num with rfl | hnum
    · rw [Nat.cast_zero, zero_div]
      positivity
    · have hquotient : (den - 1) / num ≠ 0 := (Nat.div_pos (by omega) hnum).ne'
      have hpow := Nat.mul_le_of_le_div _ _ _ (pow_length_toDigits_le hquotient)
      have hlength := List.length_pos_iff.2 (Nat.toDigits_ne_nil (b := 10)
        (n := (den - 1) / num))
      generalize (Nat.toDigits 10 ((den - 1) / num)).length = length at *
      rw [show -(length : Int) + 1 = -((length - 1 : Nat) : Int) by omega, zpow_neg, zpow_natCast,
        div_lt_iff₀ hden', ← div_eq_inv_mul, lt_div_iff₀ (by positivity)]
      have hlt : num * 10 ^ (length - 1) < den := by
        rw [Nat.mul_comm]
        omega
      exact_mod_cast hlt

/-! ## Decimals that read back -/

/-- A decimal on a grid is next to the fraction, and reads back as the double. -/
theorem onGrid_spec {rule : HalfRule} {x : Binary64} {num den : Nat} {k : Int} {d : Decimal}
    (h : onGrid rule x num den k = some d) :
    ∃ digits, d = ⟨digits, k⟩ ∧ digits ≤ (scaled num den k).1 / (scaled num den k).2 + 1 ∧
      Binary64.ofDecimal x.negative digits k = x := by
  unfold onGrid at h
  dsimp only at h
  generalize (scaled num den k).1 / (scaled num den k).2 = low at *
  split at h
  · rename_i hlow hnext
    refine ⟨_, (Option.some.inj h).symm, ?_⟩
    split_ifs
    · exact ⟨Nat.le_refl _, eq_of_beq hnext⟩
    · exact ⟨Nat.le_succ low, eq_of_beq hlow⟩
  · rename_i hlow _
    exact ⟨low, (Option.some.inj h).symm, Nat.le_succ low, eq_of_beq hlow⟩
  · rename_i _ hnext
    exact ⟨low + 1, (Option.some.inj h).symm, Nat.le_refl _, eq_of_beq hnext⟩
  · cases h

/-- So many places of a fraction are below that power of ten. -/
theorem div_scaled_lt {num den : Nat} {k : Int} (places : Nat) (hden : 0 < den)
    (h : (num / den : ℚ) < 10 ^ (places + k)) :
    (scaled num den k).1 / (scaled num den k).2 < 10 ^ places := by
  have hpos : 0 < (scaled num den k).2 := inUnit_pos (by decide) hden num k
  have hunit : ((scaled num den k).1 / (scaled num den k).2 : ℚ) = num / den / 10 ^ k :=
    inUnit_eq 10 num den k
  have hlt : ((scaled num den k).1 / (scaled num den k).2 : ℚ) < 10 ^ places := by
    rw [hunit, div_lt_iff₀ (by positivity), ← zpow_natCast, ← zpow_add₀ (by norm_num)]
    exact h
  rw [div_lt_iff₀ (by exact_mod_cast hpos)] at hlt
  rw [Nat.div_lt_iff_lt_mul hpos]
  exact_mod_cast hlt

/-- The decimal taken for a double has at most seventeen digits and reads back as the double, unless
it is the zero that stands for none. -/
theorem shortest_spec (rule : HalfRule) (x : Binary64) : shortest rule x = ⟨0, 0⟩ ∨
    (shortest rule x).digits ≤ 10 ^ 17 ∧
      Binary64.ofDecimal x.negative (shortest rule x).digits (shortest rule x).exponent = x := by
  unfold shortest
  dsimp only
  cases hfound : (List.range 17).findSome? fun (i : Nat) =>
      onGrid rule x x.ratio.1 x.ratio.2 (magnitude x.ratio.1 x.ratio.2 - i) with
  | none => exact .inl rfl
  | some d =>
    obtain ⟨i, hi, hgrid⟩ := List.exists_of_findSome?_eq_some hfound
    obtain ⟨digits, rfl, hdigits, hreads⟩ := onGrid_spec hgrid
    refine .inr ⟨hdigits.trans (div_scaled_lt 17 x.ratio_pos ?_), hreads⟩
    have hi := List.mem_range.1 hi
    exact (lt_magnitude x.ratio_pos).trans_le (zpow_le_zpow_right₀ (by norm_num) (by omega))

/-! ## Digits without trailing zeros -/

/-- What is left out of the digits of a number are zeros. -/
theorem significant_spec {d : Decimal} (hd : d.digits ≠ 0) : ∃ zeros,
    Nat.toDigits 10 d.digits = (significant d).1 ++ List.replicate zeros '0' ∧
      (significant d).1 ≠ [] ∧
        (significant d).2 = (significant d).1.length + zeros + d.exponent := by
  unfold significant digitsOf
  dsimp only
  generalize hall : Nat.toDigits 10 d.digits = all at *
  have hsplit : all = (all.reverse.dropWhile (· == '0')).reverse
      ++ (all.reverse.takeWhile (· == '0')).reverse := by
    rw [← List.reverse_append, List.takeWhile_append_dropWhile, List.reverse_reverse]
  have hzeros : (all.reverse.takeWhile (· == '0')).reverse
      = List.replicate (all.reverse.takeWhile (· == '0')).length '0' := by
    rw [← List.length_reverse, List.eq_replicate_iff]
    exact ⟨rfl, fun c hc =>
      eq_of_beq (List.all_eq_true.1 List.all_takeWhile c (List.mem_reverse.1 hc))⟩
  rw [hzeros] at hsplit
  generalize (all.reverse.takeWhile (· == '0')).length = zeros at hsplit
  refine ⟨zeros, hsplit, fun hnil => ?_, ?_⟩
  · -- Zeros alone spell no other number.
    rw [hnil, List.nil_append] at hsplit
    have hzero : natOfDigits (List.replicate zeros '0') = 0 := natOfDigits_append_zeros [] zeros
    rw [← hsplit, ← hall, natOfDigits_toDigits] at hzero
    exact hd hzero
  · have hlength := congrArg List.length hsplit
    rw [List.length_append, List.length_replicate] at hlength
    rw [hlength, Nat.cast_add]

end RecordGraph.Decimal
