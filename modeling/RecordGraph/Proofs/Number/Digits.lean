import Mathlib.Data.List.Induction
import Mathlib.Data.Nat.Digits.Defs
import RecordGraph.Number.Literal

/-!
# Decimal digits, written and read

The digits of a number spell it (`natOfDigits_toDigits`), whatever zeros stand before them, and
their count tells its size (`lt_pow_length_toDigits`, `pow_length_toDigits_le`). A run of digits
ends where no digit follows (`takeWhile_digits`, `dropWhile_digits`).
-/
namespace RecordGraph.Literal

theorem isDigit_eq (c : Char) : isDigit c = c.isDigit := by
  rw [Bool.eq_iff_iff, isDigit, digit?, Char.isDigit, Option.isSome_ite]
  simp only [Bool.and_eq_true, decide_eq_true_eq]
  exact Iff.rfl

theorem natOfDigits_eq (cs : List Char) : natOfDigits cs = Nat.ofDigitChars 10 cs 0 := by
  simp only [natOfDigits, Nat.ofDigitChars_eq_foldl, Nat.mul_comm]

/-- The digits of a number spell it. -/
theorem natOfDigits_toDigits (n : Nat) : natOfDigits (Nat.toDigits 10 n) = n := by
  rw [natOfDigits_eq, Nat.ofDigitChars_ten_toDigits]

theorem natOfDigits_zeros_append (k : Nat) (cs : List Char) :
    natOfDigits (List.replicate k '0' ++ cs) = natOfDigits cs := by
  rw [natOfDigits_eq, natOfDigits_eq, Nat.ofDigitChars_append, Nat.ofDigitChars_replicate_zero,
    Nat.mul_zero]

theorem natOfDigits_append_zeros (cs : List Char) (k : Nat) :
    natOfDigits (cs ++ List.replicate k '0') = 10 ^ k * natOfDigits cs := by
  rw [natOfDigits_eq, natOfDigits_eq, Nat.ofDigitChars_append, Nat.ofDigitChars_replicate_zero]

theorem isDigit_of_mem_toDigits {n : Nat} {c : Char} (h : c ∈ Nat.toDigits 10 n) :
    isDigit c = true := by
  rw [isDigit_eq]
  exact Nat.isDigit_of_mem_toDigits (by decide) (by decide) h

/-- The digits of a number are read as that number. -/
theorem readNat?_toDigits (n : Nat) : readNat? (Nat.toDigits 10 n) = some n := by
  rw [readNat?, if_pos ⟨Nat.toDigits_ne_nil, List.all_eq_true.2 fun _ => isDigit_of_mem_toDigits⟩,
    natOfDigits_toDigits]

theorem digit_le_of_isDigit {c : Char} (h : isDigit c = true) : c.toNat - '0'.toNat ≤ 9 := by
  rw [isDigit_eq, Char.isDigit, Bool.and_eq_true, decide_eq_true_eq, decide_eq_true_eq] at h
  have hle : c.toNat ≤ 57 := h.2
  have hzero : '0'.toNat = 48 := rfl
  omega

theorem natOfDigits_snoc (cs : List Char) (c : Char) :
    natOfDigits (cs ++ [c]) = natOfDigits cs * 10 + (c.toNat - '0'.toNat) := by
  rw [natOfDigits, List.foldl_append]
  rfl

/-- So many digits spell a number below that power of ten. -/
theorem natOfDigits_lt {cs : List Char} (h : ∀ c ∈ cs, isDigit c = true) :
    natOfDigits cs < 10 ^ cs.length := by
  induction cs using List.reverseRecOn with
  | nil => exact Nat.one_pos
  | append_singleton cs c ih =>
    have hinit := ih fun d hd => h d (List.mem_append_left _ hd)
    have hlast := digit_le_of_isDigit (h c (List.mem_append_right _ List.mem_cons_self))
    rw [natOfDigits_snoc, List.length_append, List.length_singleton, Nat.pow_succ]
    omega

theorem lt_pow_length_toDigits (n : Nat) : n < 10 ^ (Nat.toDigits 10 n).length := by
  have h := natOfDigits_lt fun c (hc : c ∈ Nat.toDigits 10 n) => isDigit_of_mem_toDigits hc
  rwa [natOfDigits_toDigits] at h

theorem pow_length_toDigits_le {n : Nat} (hn : n ≠ 0) :
    10 ^ ((Nat.toDigits 10 n).length - 1) ≤ n := by
  by_contra hlt
  by_cases hone : (Nat.toDigits 10 n).length - 1 = 0
  · rw [hone] at hlt
    omega
  · have := Nat.toDigits_length 10 n _ (Nat.pos_of_ne_zero hone) (Nat.not_le.1 hlt)
    omega

/-- What follows a run of digits begins with none. -/
def NoDigitFirst (cs : List Char) : Prop := ∀ c ∈ cs.head?, isDigit c = false

theorem noDigitFirst_cons {c : Char} (hc : isDigit c = false) (cs : List Char) :
    NoDigitFirst (c :: cs) := by
  rintro _ ⟨⟩
  exact hc

section

variable {digits rest : List Char} (hdigits : ∀ c ∈ digits, isDigit c = true)
  (hrest : NoDigitFirst rest)

include hdigits hrest

/-- A run of digits ends where no digit follows. -/
theorem takeWhile_digits : (digits ++ rest).takeWhile isDigit = digits := by
  rw [List.takeWhile_append_of_pos hdigits]
  cases rest with
  | nil => rw [List.takeWhile_nil, List.append_nil]
  | cons c cs => rw [List.takeWhile_cons, hrest c rfl, if_neg Bool.false_ne_true, List.append_nil]

theorem dropWhile_digits : (digits ++ rest).dropWhile isDigit = rest := by
  rw [List.dropWhile_append_of_pos hdigits]
  cases rest with
  | nil => rw [List.dropWhile_nil]
  | cons c cs => rw [List.dropWhile_cons, hrest c rfl, if_neg Bool.false_ne_true]

end

end RecordGraph.Literal
