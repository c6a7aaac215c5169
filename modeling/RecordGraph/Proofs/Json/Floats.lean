import RecordGraph.Proofs.Json.Rendered
import RecordGraph.Proofs.Number.PowersOfTen
import RecordGraph.Proofs.Number.Shortest

/-!
# Doubles in documents

* `plain_ofFloat`: a double is written as a number, or as null.
* `isSome_float?_ofFloat`: a finite double is read from its text, whether or not it is read exactly.

The text of a finite double has the parts `floatParts` (`toList_render`). Their digits are divided
by a power of ten, which always gives a double, or multiplied by one, which gives one because the
decimal was read back when it was chosen (`ReadsBack`, `isSome_scaled?`). The two greatest doubles
are looked at one by one.
-/
namespace RecordGraph.Json

open Literal Binary64

/-! ## Digits taken into a word -/

theorem le_foldl_digits (cs : List Char) (n : Nat) :
    n ≤ cs.foldl (fun n c => n * 10 + (c.toNat - '0'.toNat)) n := by
  induction cs generalizing n with
  | nil => exact Nat.le_refl n
  | cons c cs ih =>
    have := ih (n * 10 + (c.toNat - '0'.toNat))
    rw [List.foldl_cons]
    omega

/-- Digits that spell a number of 64 bits are all taken. -/
theorem take64_eq {cs : List Char} {n m : Nat}
    (h : cs.foldl (fun n c => n * 10 + (c.toNat - '0'.toNat)) n = m) (hm : m < 2 ^ 64) :
    take64 n cs = (m, []) := by
  induction cs generalizing n with
  | nil =>
    subst h
    rfl
  | cons c cs ih =>
    have hle := le_foldl_digits cs (n * 10 + (c.toNat - '0'.toNat))
    rw [List.foldl_cons] at h
    have hfits : n * 10 + (c.toNat - '0'.toNat) < 0x10000000000000000 := by omega
    rw [take64, if_pos hfits, ih h]

/-- The digits of a number, without the point. -/
def Written.digits (w : Written) : Nat := natOfDigits (w.whole ++ w.fraction.getD [])

/-- The power of ten that the last digit of a number counts. -/
def Written.place (w : Written) : Int :=
  w.exponent.getD 0 - ((w.fraction.getD []).length : Int)

/-- A number is read if its digits are, at their place, and its exponent is not too large. -/
theorem isSome_float? {w : Written} (hdigits : w.digits < 2 ^ 64)
    (hfar : ∀ e ∈ w.exponent, e < farExponent)
    (h : (scaled? w.negative w.digits w.place).isSome = true) : w.float?.isSome = true := by
  have hsplit : (w.fraction.getD []).foldl (fun n c => n * 10 + (c.toNat - '0'.toNat))
      (natOfDigits w.whole) = w.digits := by
    rw [Written.digits, natOfDigits, natOfDigits, List.foldl_append]
  have hle := le_foldl_digits (w.fraction.getD []) (natOfDigits w.whole)
  have hwhole : take64 0 w.whole = (natOfDigits w.whole, []) := take64_eq rfl (by omega)
  have hfraction := take64_eq hsplit hdigits
  have hlength : ((([] : List Char).length : Nat) : Int)
      - (((w.fraction.getD []).length - ([] : List Char).length : Nat) : Int)
      = -((w.fraction.getD []).length : Int) := by simp
  unfold Written.float?
  rw [hwhole]
  dsimp only
  rw [hfraction]
  dsimp only
  rw [hlength]
  unfold Written.place at h
  cases hexponent : w.exponent with
  | none =>
    rw [hexponent, Option.getD_none, Int.zero_sub] at h
    exact h
  | some e =>
    have hlt := hfar e hexponent
    rw [hexponent, Option.getD_some] at h
    dsimp only
    split_ifs with hbeyond hzero
    · rfl
    · unfold farExponent at *
      omega
    · rwa [Int.add_comm, ← Int.sub_eq_add_neg]

/-! ## Numbers that stay in range -/

theorem isSome_scaleSteps_of_neg (fuel : Nat) (x : Binary64) {e : Int} (he : e < 0) :
    (scaleSteps fuel x e).isSome = true := by
  induction fuel generalizing x e with
  | zero => rfl
  | succ fuel ih =>
    unfold scaleSteps
    dsimp only
    split_ifs with hnear hnonneg hinfinite hzero hnonneg
    · omega
    · omega
    · rfl
    · rfl
    · omega
    · exact ih _ (by omega)

theorem isSome_scaled?_of_neg (negative : Bool) (n : Nat) {e : Int} (he : e < 0) :
    (scaled? negative n e).isSome = true := by
  rw [scaled?, Option.isSome_map]
  exact isSome_scaleSteps_of_neg _ _ he

theorem isSome_scaled? (negative : Bool) {n e : Nat} (hn : n ≤ 10 ^ 17)
    (h : roundedMagnitude (n * 10 ^ e) 1 < greatest) : (scaled? negative n e).isSome = true := by
  rw [scaled?, Option.isSome_map]
  unfold scaleSteps
  simp only [Int.natAbs_natCast, Int.natCast_nonneg, if_true]
  split_ifs with hnear hinfinite hzero
  · have hfinite := isFinite_mul_ofDecimal hn hnear h
    rw [isFinite_iff] at hfinite
    rw [isInfinite_iff] at hinfinite
    omega
  · rfl
  · rfl
  · have hn : n ≠ 0 := by
      rintro rfl
      exact hzero (by decide)
    exact absurd (le_308_of_lt_greatest hn h) hnear

/-! ## Doubles as they are written -/

/-- The parts of a zero. -/
def zeroParts (negative : Bool) : Written := ⟨negative, ['0'], some ['0'], none⟩

/-- The parts of a number whose digits stand around the point. -/
def positionalParts (negative : Bool) (digits : List Char) (point : Int) : Written :=
  if point ≤ 0 then ⟨negative, ['0'], some (List.replicate (-point).toNat '0' ++ digits), none⟩
  else if digits.length ≤ point.toNat then
    ⟨negative, digits ++ List.replicate (point.toNat - digits.length) '0', some ['0'], none⟩
  else ⟨negative, digits.take point.toNat, some (digits.drop point.toNat), none⟩

/-- The parts of a number with one digit before the point. -/
def scientificParts (negative : Bool) (digits : List Char) (exponent : Int) : Written :=
  ⟨negative, digits.take 1, if digits.length ≤ 1 then none else some (digits.drop 1), some exponent⟩

/-- The parts that a finite double is written with. -/
def floatParts (x : Binary64) : Written :=
  if x.isZero then zeroParts x.negative
  else
    let (digits, point) := (Decimal.shortest .toEven x).significant
    if FloatLayout.json.isPositional (point - 1) then positionalParts x.negative digits point
    else scientificParts x.negative digits (point - 1)

theorem chars_positionalParts (negative : Bool) (digits : List Char) (point : Int) :
    (positionalParts negative digits point).chars =
      signChars negative ++ FloatLayout.json.positionally digits point := by
  unfold positionalParts FloatLayout.positionally
  split_ifs with hpoint hlength hfraction
  · simp [Written.chars, fractionChars, exponentChars]
  · simp [Written.chars, fractionChars, exponentChars]
  · exact absurd rfl hfraction
  · simp [Written.chars, fractionChars, exponentChars]

theorem chars_scientificParts (negative : Bool) (digits : List Char) (exponent : Int) :
    (scientificParts negative digits exponent).chars =
      signChars negative ++ FloatLayout.json.scientifically digits exponent := by
  have hwidth : 1 - (Nat.toDigits 10 exponent.natAbs).length = 0 := by
    have := List.length_pos_iff.2 (Nat.toDigits_ne_nil (b := 10) (n := exponent.natAbs))
    omega
  have hsize : List.replicate (FloatLayout.json.exponentWidth
      - (Decimal.digitsOf exponent.natAbs).length) '0' = [] := by
    rw [show FloatLayout.json.exponentWidth = 1 from rfl, Decimal.digitsOf, hwidth,
      List.replicate_zero]
  unfold scientificParts FloatLayout.scientifically Written.chars exponentChars
  dsimp only
  rw [hsize]
  rcases digits with _ | ⟨d, _ | ⟨d', ds⟩⟩
  · rfl
  · rfl
  · rw [if_neg (by simp)]
    simp [fractionChars, Decimal.digitsOf]

/-- A finite double is written with its parts. -/
theorem toList_render {x : Binary64} (h : x.isFinite = true) :
    (FloatLayout.json.render x).toList = (floatParts x).chars := by
  have hnan : x.isNaN = false := Bool.eq_false_iff.2 fun hnan => by
    rw [isNaN_iff] at hnan
    rw [isFinite_iff] at h
    omega
  have hinfinite : x.isInfinite = false := Bool.eq_false_iff.2 fun hinfinite => by
    rw [isInfinite_iff] at hinfinite
    rw [isFinite_iff] at h
    omega
  have hsign (body : List Char) :
      ((if x.negative then "-" else "") ++ String.ofList body).toList =
        signChars x.negative ++ body := by
    rw [String.toList_append, String.toList_ofList]
    cases x.negative <;> rfl
  have hdecimal : FloatLayout.json.digits.decimal x = Decimal.shortest .toEven x := rfl
  unfold FloatLayout.render floatParts
  rw [hnan, hinfinite, hdecimal]
  by_cases hzero : x.isZero = true
  · simp only [hzero, Bool.false_eq_true, if_false, if_true]
    cases x.negative <;> rfl
  · simp only [hzero, Bool.false_eq_true, if_false]
    rw [hsign]
    split_ifs
    · rw [chars_positionalParts]
    · rw [chars_scientificParts]

/-! ## Doubles are numbers -/

theorem isDigit_of_mem_zeros {k : Nat} {c : Char} (h : c ∈ List.replicate k '0') :
    isDigit c = true := by
  rw [List.eq_of_mem_replicate h]
  rfl

theorem isDigits_zero : IsDigits ['0'] :=
  ⟨List.cons_ne_nil _ _, List.forall_mem_singleton.2 rfl⟩

theorem proper_zeroParts (negative : Bool) : (zeroParts negative).Proper where
  whole := isDigits_zero
  leading := .inl rfl
  fraction := by
    rintro _ ⟨⟩
    exact isDigits_zero

section

variable {digits : List Char} (h : IsDigits digits) (hhead : digits.head? ≠ some '0')

include h hhead

theorem proper_positionalParts (negative : Bool) (point : Int) :
    (positionalParts negative digits point).Proper := by
  unfold positionalParts
  split_ifs with hpoint hlength
  · refine ⟨isDigits_zero, .inl rfl, ?_⟩
    rintro _ ⟨⟩
    refine ⟨List.append_ne_nil_of_right_ne_nil _ h.1, fun c hc => ?_⟩
    rcases List.mem_append.1 hc with hc | hc
    · exact isDigit_of_mem_zeros hc
    · exact h.2 c hc
  · refine ⟨⟨List.append_ne_nil_of_left_ne_nil h.1 _, fun c hc => ?_⟩, .inr ?_, ?_⟩
    · rcases List.mem_append.1 hc with hc | hc
      · exact h.2 c hc
      · exact isDigit_of_mem_zeros hc
    · obtain ⟨d, ds, rfl, hd⟩ := h.exists_cons
      exact hhead
    · rintro _ ⟨⟩
      exact isDigits_zero
  · obtain ⟨d, ds, rfl, hd⟩ := h.exists_cons
    obtain ⟨k, hk⟩ : ∃ k, point.toNat = k + 1 := ⟨point.toNat - 1, by omega⟩
    rw [hk] at hlength ⊢
    refine ⟨⟨by simp, fun c hc => h.2 c (List.mem_of_mem_take hc)⟩, .inr hhead, ?_⟩
    rintro _ ⟨⟩
    refine ⟨fun hnil => hlength (List.drop_eq_nil_iff.1 hnil), fun c hc => ?_⟩
    exact h.2 c (List.mem_of_mem_drop hc)

theorem proper_scientificParts (negative : Bool) (exponent : Int) :
    (scientificParts negative digits exponent).Proper := by
  obtain ⟨d, ds, rfl, hd⟩ := h.exists_cons
  refine ⟨⟨by simp [scientificParts], fun c hc => h.2 c (List.mem_of_mem_take hc)⟩, .inr hhead, ?_⟩
  rw [scientificParts]
  split_ifs with hlength
  · exact nofun
  · rintro _ ⟨⟩
    refine ⟨fun hnil => hlength (List.drop_eq_nil_iff.1 hnil), fun c hc => ?_⟩
    exact h.2 c (List.mem_of_mem_drop hc)

end

/-- Digits and the place of the point that read back as a double, with so many zeros behind the
digits. -/
structure ReadsBack (x : Binary64) (digits : List Char) (point : Int) (zeros : Nat) : Prop where
  isDigits : IsDigits digits
  leading : digits.head? ≠ some '0'
  ne_zero : natOfDigits digits ≠ 0
  length_le : digits.length + zeros ≤ 18
  le : natOfDigits digits * 10 ^ zeros ≤ 10 ^ 17
  reads : ofDecimal x.negative (natOfDigits digits * 10 ^ zeros) (point - digits.length - zeros) = x

/-- The digits that a double is written with read back, unless they are those of zero. -/
theorem readsBack_shortest {x : Binary64} (hzero : x.isZero = false) :
    (Decimal.shortest .toEven x).significant = ([], 1) ∨
      ∃ zeros, ReadsBack x (Decimal.shortest .toEven x).significant.1
        (Decimal.shortest .toEven x).significant.2 zeros := by
  rcases Decimal.shortest_spec .toEven x with hnone | ⟨hle, hreads⟩
  · exact .inl (by rw [hnone]; rfl)
  generalize Decimal.shortest .toEven x = d at *
  have hdigits : d.digits ≠ 0 := by
    intro h
    rw [h, ofDecimal, if_pos rfl] at hreads
    have hiszero (negative : Bool) : (zero negative).isZero = true := by
      cases negative <;> decide
    rw [← hreads, hiszero] at hzero
    cases hzero
  obtain ⟨zeros, hall, hne, hpoint⟩ := Decimal.significant_spec hdigits
  generalize d.significant.1 = digits at *
  generalize d.significant.2 = point at *
  have hvalue : natOfDigits digits * 10 ^ zeros = d.digits := by
    rw [Nat.mul_comm, ← natOfDigits_append_zeros, ← hall, natOfDigits_toDigits]
  have hmem {c : Char} (hc : c ∈ digits) : isDigit c = true :=
    isDigit_of_mem_toDigits (hall ▸ List.mem_append_left _ hc)
  have hlength := Nat.toDigits_length 10 d.digits 18 (by decide) (hle.trans_lt (by decide))
  rw [hall, List.length_append, List.length_replicate] at hlength
  refine .inr ⟨zeros, ⟨hne, fun _ => hmem⟩, ?_, ?_, hlength, hvalue ▸ hle, ?_⟩
  · have hhead := head_toDigits_ne_zero hdigits
    rw [hall] at hhead
    obtain ⟨c, cs, rfl⟩ := List.exists_cons_of_ne_nil hne
    exact hhead
  · intro h
    rw [h, Nat.zero_mul] at hvalue
    exact hdigits hvalue.symm
  · rw [hvalue, show point - digits.length - zeros = d.exponent by omega]
    exact hreads

/-! ## Finite doubles are read -/

theorem isSome_zeroParts (negative : Bool) : (zeroParts negative).float?.isSome = true := by
  cases negative <;> decide +kernel

section

variable {x : Binary64} {digits : List Char} {point : Int} {zeros : Nat}

/-- Digits around the point are divided by a power of ten, which never leaves the range. -/
theorem isSome_positionalParts (h : ReadsBack x digits point zeros) (hpoint : point ≤ 16)
    (negative : Bool) : (positionalParts negative digits point).float?.isSome = true := by
  have hle : natOfDigits digits ≤ 10 ^ 17 :=
    (Nat.le_mul_of_pos_right _ (Nat.pow_pos (by decide))).trans h.le
  have hlength := List.length_pos_iff.2 h.isDigits.1
  unfold positionalParts
  split_ifs with hleft hright
  · refine isSome_float? ?_ nofun (isSome_scaled?_of_neg _ _ ?_)
    · have hzeros := natOfDigits_zeros_append ((-point).toNat + 1) digits
      rw [List.replicate_succ, List.cons_append] at hzeros
      have : natOfDigits ('0' :: (List.replicate (-point).toNat '0' ++ digits)) < 2 ^ 64 := by omega
      exact this
    · rw [Written.place, Option.getD_none, Option.getD_some, List.length_append]
      omega
  · refine isSome_float? ?_ nofun
      (isSome_scaled?_of_neg _ _ (show (0 : Int) - 1 < 0 by decide))
    have hlt : natOfDigits (digits ++ List.replicate (point.toNat - digits.length) '0' ++ ['0'])
        < 10 ^ (digits ++ List.replicate (point.toNat - digits.length) '0' ++ ['0']).length :=
      natOfDigits_lt fun c hc => ?_
    · rw [List.length_append, List.length_append, List.length_replicate, List.length_singleton]
        at hlt
      have hpow := Nat.pow_le_pow_right (n := 10) (by decide) (show digits.length
        + (point.toNat - digits.length) + 1 ≤ 17 by omega)
      exact (hlt.trans_le hpow).trans (by decide)
    · rcases List.mem_append.1 hc with hc | hc
      · rcases List.mem_append.1 hc with hc | hc
        · exact h.isDigits.2 c hc
        · exact isDigit_of_mem_zeros hc
      · rw [List.mem_singleton.1 hc]
        rfl
  · refine isSome_float? ?_ nofun (isSome_scaled?_of_neg _ _ ?_)
    · have : natOfDigits (digits.take point.toNat ++ digits.drop point.toNat) < 2 ^ 64 := by
        rw [List.take_append_drop]
        omega
      exact this
    · rw [Written.place, Option.getD_none, Option.getD_some, List.length_drop]
      omega

theorem ReadsBack.exponent_le (h : ReadsBack x digits point zeros) (hx : x.magnitude < greatest) :
    point - digits.length - zeros ≤ 400 := by
  by_contra hfar
  have hne : natOfDigits digits * 10 ^ zeros ≠ 0 :=
    Nat.mul_ne_zero h.ne_zero (Nat.pow_pos (by decide)).ne'
  have hmagnitude := magnitude_ofDecimal_far x.negative hne (Int.not_le.1 hfar)
  rw [h.reads] at hmagnitude
  unfold greatest at hx
  omega

/-- What a double below the greatest is written as is rounded below the greatest. -/
theorem ReadsBack.lt_greatest (h : ReadsBack x digits point zeros) (hx : x.magnitude < greatest)
    {e : Nat} (he : point - digits.length = e) :
    roundedMagnitude (natOfDigits digits * 10 ^ e) 1 < greatest := by
  have hne : natOfDigits digits * 10 ^ zeros ≠ 0 :=
    Nat.mul_ne_zero h.ne_zero (Nat.pow_pos (by decide)).ne'
  have hreads := h.reads
  rw [he] at hreads
  rcases Nat.lt_or_ge e zeros with hlt | hge
  -- Fewer zeros than the digits had make a number of at most seventeen digits.
  · have hsmall : natOfDigits digits * 10 ^ e ≤ 10 ^ 17 :=
      (Nat.mul_le_mul_left _ (Nat.pow_le_pow_right (by decide) hlt.le)).trans h.le
    have hbelow : roundedMagnitude (10 ^ 17) 1 < greatest := by decide +kernel
    exact (roundedMagnitude_mono_nat hsmall).trans_lt hbelow
  · obtain ⟨k, rfl⟩ := Nat.exists_eq_add_of_le hge
    rw [show ((zeros + k : Nat) : Int) - zeros = k by omega] at hreads
    have hk : k ≤ 400 := by
      have := h.exponent_le hx
      omega
    rw [Nat.pow_add, ← Nat.mul_assoc, ← magnitude_ofDecimal x.negative hne hk, hreads]
    exact hx

theorem digits_scientificParts (negative : Bool) (digits : List Char) (exponent : Int) :
    (scientificParts negative digits exponent).digits = natOfDigits digits ∧
      (scientificParts negative digits exponent).place = exponent - (digits.length - 1 : Nat) := by
  unfold scientificParts Written.digits Written.place
  split_ifs with hlength
  · rw [Option.getD_none, Option.getD_some, List.append_nil, List.take_of_length_le hlength]
    simp
    omega
  · rw [Option.getD_some, Option.getD_some, List.take_append_drop, List.length_drop]
    exact ⟨rfl, rfl⟩

theorem isSome_scientificParts (h : ReadsBack x digits point zeros) (hx : x.magnitude < greatest) :
    (scientificParts x.negative digits (point - 1)).float?.isSome = true := by
  obtain ⟨hdigits, hplace⟩ := digits_scientificParts x.negative digits (point - 1)
  have hle : natOfDigits digits ≤ 10 ^ 17 :=
    (Nat.le_mul_of_pos_right _ (Nat.pow_pos (by decide))).trans h.le
  have hlength := List.length_pos_iff.2 h.isDigits.1
  have hexponent := h.exponent_le hx
  have hcount := h.length_le
  refine isSome_float? (by omega) ?_ ?_
  · rintro _ ⟨⟩
    unfold farExponent
    omega
  · rw [hdigits, hplace,
      show point - 1 - (digits.length - 1 : Nat) = point - digits.length by omega]
    rcases Int.lt_or_le (point - digits.length) 0 with hneg | hnonneg
    · exact isSome_scaled?_of_neg _ _ hneg
    · obtain ⟨e, he⟩ := Int.eq_ofNat_of_zero_le hnonneg
      rw [he]
      exact isSome_scaled? _ hle (h.lt_greatest hx he)

end

/-- The parts of a finite double make a number. -/
theorem proper_floatParts (x : Binary64) : (floatParts x).Proper := by
  unfold floatParts
  dsimp only
  cases hzero : x.isZero
  · rcases readsBack_shortest hzero with h | ⟨zeros, h⟩
    · rw [h]
      exact proper_zeroParts _
    · simp only [Bool.false_eq_true, if_false]
      split_ifs
      · exact proper_positionalParts h.isDigits h.leading _ _
      · exact proper_scientificParts h.isDigits h.leading _ _
  · exact proper_zeroParts _

/-- The parts of a finite double are read. -/
theorem isSome_floatParts {x : Binary64} (h : x.isFinite = true) :
    (floatParts x).float?.isSome = true := by
  have hle : x.magnitude ≤ greatest := by
    rw [isFinite_iff] at h
    unfold greatest
    omega
  rcases Nat.lt_or_eq_of_le hle with hlt | heq
  · unfold floatParts
    dsimp only
    cases hzero : x.isZero
    · rcases readsBack_shortest hzero with h | ⟨zeros, h⟩
      · rw [h]
        exact isSome_zeroParts _
      · simp only [Bool.false_eq_true, if_false]
        generalize (Decimal.shortest .toEven x).significant.2 = point at *
        split_ifs with hpositional
        · refine isSome_positionalParts h ?_ _
          change (decide (-5 ≤ point - 1) && decide (point - 1 ≤ 15)) = true at hpositional
          simp only [Bool.and_eq_true, decide_eq_true_eq] at hpositional
          omega
        · exact isSome_scientificParts h hlt
    · exact isSome_zeroParts _
  · rw [← ofMagnitude_magnitude x, heq]
    cases x.negative <;> decide +kernel

/-- Every finite double is read from its text. -/
theorem isSome_float?_ofFloat {x : Binary64} (h : x.isFinite = true) :
    (ofFloat x).float?.isSome = true := by
  rw [ofFloat, if_pos h, toList_render h, float?, Option.isSome_map, number?,
    ofChars_chars (proper_floatParts x)]
  split_ifs
  · rfl
  · rfl
  · rfl
  · rw [Option.isSome_map]
    exact isSome_floatParts h

/-- The text of a double is a number, or null. -/
theorem plain_ofFloat (x : Binary64) : (ofFloat x).Plain := by
  rw [ofFloat]
  split_ifs with h
  · rw [toList_render h]
    exact .number (proper_floatParts x)
  · exact .null

end RecordGraph.Json
