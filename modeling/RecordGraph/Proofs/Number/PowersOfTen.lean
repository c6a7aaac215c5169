import RecordGraph.Proofs.Number.Rounding

/-!
# Products with powers of ten

A number of at most seventeen digits times a power of ten may be rounded twice before the product is
rounded a third time. `isFinite_mul_ofDecimal`: the product stays finite if the exact number is
rounded below the greatest double. At the greatest double itself this fails: `17976931348623158`
with 292 zeros is rounded to it, but the product of the two rounded factors is beyond it.

By monotonicity it suffices to look at the greatest number for each power of ten (`bound_spec`).
-/
namespace RecordGraph.Binary64

theorem roundedMagnitude_mono_nat {m n : Nat} (h : m ≤ n) :
    roundedMagnitude m 1 ≤ roundedMagnitude n 1 :=
  roundedMagnitude_mono Nat.one_pos Nat.one_pos (by
    rw [Nat.cast_one, div_one, div_one]
    exact_mod_cast h)

theorem magnitude_ofNat (n : Nat) : (ofNat n).magnitude = roundedMagnitude n 1 :=
  magnitude_roundRatio _ _ _

theorem magnitude_ofDecimal (negative : Bool) {digits e : Nat} (hdigits : digits ≠ 0)
    (he : e ≤ 400) :
    (ofDecimal negative digits e).magnitude = roundedMagnitude (digits * 10 ^ e) 1 := by
  unfold ofDecimal
  dsimp only
  rw [if_neg hdigits, if_neg (by omega), if_neg (by omega), if_pos (by omega), Int.toNat_natCast,
    Nat.pow_eq]
  exact magnitude_roundRatio _ _ _

theorem magnitude_ofDecimal_far (negative : Bool) {digits : Nat} {e : Int} (hdigits : digits ≠ 0)
    (he : 400 < e) : (ofDecimal negative digits e).magnitude = infiniteMagnitude := by
  unfold ofDecimal
  dsimp only
  rw [if_neg hdigits, if_pos he]
  exact magnitude_ofMagnitude _ (by decide)

/-- The magnitude of the greatest finite doubles. -/
def greatest : Nat := infiniteMagnitude - 1

/-- The greatest number that with so many zeros lies below the middle of the two greatest
doubles. -/
def bound (e : Nat) : Nat := Nat.pow 2 970 * (Nat.pow 2 54 - 3) / Nat.pow 10 e

theorem bound_spec : ∀ i < 17, (ofNat (bound (292 + i))).isFinite = true ∧
    (ofDecimal false 1 (292 + i : Nat)).isFinite = true ∧
      ((ofNat (bound (292 + i))).mul (ofDecimal false 1 (292 + i : Nat))).isFinite = true ∧
        greatest ≤ roundedMagnitude ((bound (292 + i) + 1) * 10 ^ (292 + i)) 1 := by
  decide +kernel

/-- The greatest factors that come into question. -/
theorem exists_factors {n e : Nat} (hn : n ≤ 10 ^ 17) (he : e ≤ 308)
    (h : roundedMagnitude (n * 10 ^ e) 1 < greatest) :
    ∃ n' e' : Nat, n ≤ n' ∧ e ≤ e' ∧ e' ≤ 308 ∧ (ofNat n').isFinite = true ∧
      (ofDecimal false 1 e').isFinite = true ∧
        ((ofNat n').mul (ofDecimal false 1 e')).isFinite = true := by
  rcases Nat.lt_or_ge e 292 with hlt | hge
  · exact ⟨10 ^ 17, 291, hn, by omega, by omega, by decide +kernel, by decide +kernel,
      by decide +kernel⟩
  · obtain ⟨i, rfl⟩ := Nat.exists_eq_add_of_le hge
    obtain ⟨hbound, hpower, hproduct, hnext⟩ := bound_spec i (by omega)
    refine ⟨bound (292 + i), 292 + i, Nat.le_of_not_lt fun hlt => ?_, Nat.le_refl _, he, hbound,
      hpower, hproduct⟩
    have hle : bound (292 + i) + 1 ≤ n := hlt
    have := roundedMagnitude_mono_nat (Nat.mul_le_mul_right (10 ^ (292 + i)) hle)
    omega

/-- The product of the rounded factors is finite if the exact one is rounded below the greatest
double. -/
theorem isFinite_mul_ofDecimal {n e : Nat} (hn : n ≤ 10 ^ 17) (he : e ≤ 308)
    (h : roundedMagnitude (n * 10 ^ e) 1 < greatest) :
    ((ofNat n).mul (ofDecimal false 1 e)).isFinite = true := by
  obtain ⟨n', e', hn', he', hsmall, hfinite, hfinite', hproduct⟩ := exists_factors hn he h
  have hnumber : (ofNat n).magnitude ≤ (ofNat n').magnitude := by
    rw [magnitude_ofNat, magnitude_ofNat]
    exact roundedMagnitude_mono_nat hn'
  have hpower : (ofDecimal false 1 e).magnitude ≤ (ofDecimal false 1 e').magnitude := by
    rw [magnitude_ofDecimal _ (by decide) (by omega), magnitude_ofDecimal _ (by decide) (by omega)]
    exact roundedMagnitude_mono_nat
      (Nat.mul_le_mul_left _ (Nat.pow_le_pow_right (by decide) he'))
  rw [isFinite_iff] at hproduct ⊢
  exact (mul_mono hfinite hfinite' hnumber hpower).trans_lt hproduct

/-- A number with more zeros is not finite. -/
theorem le_308_of_lt_greatest {n e : Nat} (hn : n ≠ 0)
    (h : roundedMagnitude (n * 10 ^ e) 1 < greatest) : e ≤ 308 := by
  by_contra hlt
  have hpower : (10 : Nat) ^ 309 ≤ 10 ^ e := pow_le_pow_right₀ (by decide) (by omega)
  have hbeyond : greatest ≤ roundedMagnitude (10 ^ 309) 1 := by decide +kernel
  have hle := roundedMagnitude_mono_nat (hpower.trans (Nat.le_mul_of_pos_left (10 ^ e)
    (Nat.pos_of_ne_zero hn)))
  exact absurd (hbeyond.trans hle) (Nat.not_le.2 h)

end RecordGraph.Binary64
