import RecordGraph.Proofs.Number.Digits
import RecordGraph.Proofs.Time.Calendar
import RecordGraph.Time.Read

/-!
# Times in encoded queries

`Time.parseExact_exact`: the exact text of an instant is read back as that instant, leap seconds
included, as long as its year has four digits.

The text is taken apart from the left. Every number in it is `padded`, so that one lemma
(`scanNumber_padded`) reads all of them.
-/
namespace RecordGraph

/-- An instant that a text of fixed width can hold: its year has at most four digits, and a leap
second stands behind second 59. -/
structure Time.Writable (t : Time) : Prop where
  nanos_lt : t.nanos < 2000000000
  leap : 1000000000 ≤ t.nanos → t.seconds % 60 = 59
  year_nonneg : 0 ≤ t.date.year
  year_le : t.date.year ≤ 9999

instance (t : Time) : Decidable t.Writable :=
  decidable_of_iff (t.nanos < 2000000000 ∧ (1000000000 ≤ t.nanos → t.seconds % 60 = 59) ∧
      0 ≤ t.date.year ∧ t.date.year ≤ 9999)
    ⟨fun ⟨h1, h2, h3, h4⟩ => ⟨h1, h2, h3, h4⟩, fun ⟨h1, h2, h3, h4⟩ => ⟨h1, h2, h3, h4⟩⟩

namespace Time

open Literal

/-! ## Padded numbers -/

theorem isDigit_of_mem_padded {width n : Nat} {c : Char} (h : c ∈ padded width n) :
    isDigit c = true := by
  rw [padded] at h
  rcases List.mem_append.1 h with h | h
  · rw [List.eq_of_mem_replicate h]
    rfl
  · exact isDigit_of_mem_toDigits h

theorem natOfDigits_padded (width n : Nat) : natOfDigits (padded width n) = n := by
  rw [padded, natOfDigits_zeros_append, natOfDigits_toDigits]

theorem length_padded {width n : Nat} (hw : 0 < width) (hn : n < 10 ^ width) :
    (padded width n).length = width := by
  have := Nat.toDigits_length 10 n width hw hn
  rw [padded, List.length_append, List.length_replicate]
  omega

theorem padded_eq_cons (width n : Nat) :
    ∃ c cs, padded width n = c :: cs ∧ isDigit c = true := by
  obtain ⟨c, cs, h⟩ := List.exists_cons_of_ne_nil (l := padded width n)
    (List.append_ne_nil_of_right_ne_nil _ Nat.toDigits_ne_nil)
  exact ⟨c, cs, h, isDigit_of_mem_padded (h ▸ List.mem_cons_self)⟩

theorem not_isBlank_of_isDigit {c : Char} (h : isDigit c = true) : Text.isBlank c = false := by
  have hbounds : 48 ≤ c.toNat ∧ c.toNat ≤ 57 := by
    rw [isDigit_eq, Char.isDigit, Bool.and_eq_true, decide_eq_true_eq, decide_eq_true_eq] at h
    exact h
  simp only [Text.isBlank, Bool.or_eq_false_iff, Bool.and_eq_false_iff, decide_eq_false_iff_not,
    beq_eq_false_iff_ne]
  omega

variable {least most width n : Nat} {rest : List Char}

/-- The digits at the start of a padded number, up to a bound. -/
theorem takeWhile_take_padded (hw : 0 < width) (hn : n < 10 ^ width) (hmost : width ≤ most)
    (hrest : NoDigitFirst rest) :
    ((padded width n ++ rest).take most).takeWhile isDigit = padded width n := by
  rw [List.take_append, length_padded hw hn,
    List.take_of_length_le (by rw [length_padded hw hn]; exact hmost)]
  refine takeWhile_digits (fun c => isDigit_of_mem_padded) fun c hc => hrest c ?_
  rw [List.head?_take] at hc
  split at hc
  · simp at hc
  · exact hc

theorem scanNumber_padded (hw : 0 < width) (hn : n < 10 ^ width) (hleast : least ≤ width)
    (hmost : width ≤ most) (hrest : NoDigitFirst rest) :
    scanNumber least most (padded width n ++ rest) = some (n, rest) := by
  simp only [scanNumber, takeWhile_take_padded hw hn hmost hrest, natOfDigits_padded,
    length_padded hw hn, if_neg (Nat.not_lt.2 hleast)]
  rw [List.drop_left' (length_padded hw hn)]

theorem trimStart_cons {c : Char} (h : Text.isBlank c = false) (cs : List Char) :
    Text.trimStart (c :: cs) = c :: cs := by
  rw [Text.trimStart, List.dropWhile_cons, h, if_neg Bool.false_ne_true]

theorem trimStart_padded (width n : Nat) (rest : List Char) :
    Text.trimStart (padded width n ++ rest) = padded width n ++ rest := by
  obtain ⟨c, cs, h, hc⟩ := padded_eq_cons width n
  rw [h, List.cons_append, trimStart_cons (not_isBlank_of_isDigit hc)]

theorem scanShort_padded (hn : n < 100) (hrest : NoDigitFirst rest) :
    scanShort (padded 2 n ++ rest) = some (n, rest) := by
  rw [scanShort, trimStart_padded]
  exact scanNumber_padded (by decide) hn (by decide) (by decide) hrest

theorem scanChar_cons (c : Char) (cs : List Char) : scanChar c (c :: cs) = some ((), cs) := by
  rw [scanChar, if_pos rfl]

/-! ## Date, clock and fraction -/

theorem scanYear_padded (hn : n < 10000) (hrest : NoDigitFirst rest) :
    scanYear (padded 4 n ++ rest) = some ((n : Int), rest) := by
  have hread : scanNumber 1 4 (padded 4 n ++ rest) = some (n, rest) :=
    scanNumber_padded (by decide) hn (by decide) (by decide) hrest
  rw [scanYear, trimStart_padded]
  obtain ⟨c, cs, h, hc⟩ := padded_eq_cons 4 n
  rw [h, List.cons_append] at hread ⊢
  split
  · simp only [List.cons.injEq] at *
    obtain ⟨rfl, -⟩ := ‹_›
    exact absurd hc (by decide)
  · simp only [List.cons.injEq] at *
    obtain ⟨rfl, -⟩ := ‹_›
    exact absurd hc (by decide)
  · rw [hread, Option.map_some]

/-- A date with a year of four digits is read back. -/
theorem scanDate_dateText {d : Date} (hexists : d.exists? = true) (hnonneg : 0 ≤ d.year)
    (hle : d.year ≤ 9999) (hrest : NoDigitFirst rest) :
    scanDate Text.trimStart (dateText d ++ rest) = some ((d.year, d.month, d.day), rest) := by
  obtain ⟨-, hmonth, -, hday⟩ := Date.exists?_iff.1 hexists
  have hlength := Calendar.monthLength_le hmonth d.year
  have hhyphen : ∀ cs, NoDigitFirst ('-' :: cs) := noDigitFirst_cons rfl
  have htrim : ∀ cs, Text.trimStart ('-' :: cs) = '-' :: cs := trimStart_cons rfl
  rw [dateText, yearText, if_pos ⟨hnonneg, hle⟩]
  simp only [scanDate, Option.bind_eq_bind, List.append_assoc, List.cons_append]
  rw [scanYear_padded (by omega) (hhyphen _), Option.bind_some, htrim, scanChar_cons,
    Option.bind_some, scanShort_padded (by omega) (hhyphen _), Option.bind_some, htrim,
    scanChar_cons, Option.bind_some, scanShort_padded (by omega) hrest, Option.bind_some,
    Int.toNat_of_nonneg hnonneg]

/-- What a fraction of a second is read as. -/
theorem scanFraction_padded (hw : 0 < width) (hnine : width ≤ 9) (hn : n < 10 ^ width)
    (hrest : NoDigitFirst rest) :
    scanFraction ('.' :: padded width n ++ rest) = some (n * 10 ^ (9 - width), rest) := by
  obtain ⟨c, cs, h, -⟩ := padded_eq_cons width n
  have hne : padded width n ≠ [] := by
    rw [h]
    exact List.cons_ne_nil _ _
  have hdrop : rest.dropWhile isDigit = rest := dropWhile_digits (List.forall_mem_nil _) hrest
  simp only [scanFraction, scanNanos, List.cons_append, takeWhile_take_padded hw hn hnine hrest,
    if_neg hne, natOfDigits_padded, length_padded hw hn, List.drop_left' (length_padded hw hn),
    hdrop, Nat.pow_eq]

theorem scanFraction_fractionText (hn : n < 1000000000) :
    scanFraction (fractionText n ++ ['Z']) = some (n, ['Z']) := by
  have hz : NoDigitFirst ['Z'] := noDigitFirst_cons rfl []
  rw [fractionText]
  split_ifs with h0 h3 h6
  · subst h0
    rfl
  · rw [scanFraction_padded (by decide) (by decide) (by omega) hz]
    congr 2
    omega
  · rw [scanFraction_padded (by decide) (by decide) (by omega) hz]
    congr 2
    omega
  · rw [scanFraction_padded (by decide) (by decide) hn hz, Nat.sub_self, Nat.pow_zero, Nat.mul_one]

theorem secondOfDay_lt (t : Time) : t.secondOfDay < 86400 := by
  rw [secondOfDay]
  omega

theorem subsecond_lt {t : Time} (h : t.nanos < 2000000000) : t.subsecond < 1000000000 := by
  rw [subsecond]
  split_ifs <;> omega

/-- The second on the clock; a leap second is second 60. -/
def clockSecond (t : Time) : Nat :=
  t.secondOfDay % 60 + if 1000000000 ≤ t.nanos then 1 else 0

theorem clockSecond_le (t : Time) : t.clockSecond ≤ 60 := by
  rw [clockSecond]
  split_ifs <;> omega

/-- A clock with a fraction is read back. -/
theorem scanClock_clockText {t : Time} (h : t.Writable) :
    scanClock Text.trimStart (clockText t ++ (fractionText t.subsecond ++ ['Z'])) =
      some ((t.secondOfDay / 3600, t.secondOfDay / 60 % 60, t.clockSecond, t.subsecond),
        ['Z']) := by
  have hday := secondOfDay_lt t
  have hcolon : ∀ cs, NoDigitFirst (':' :: cs) := noDigitFirst_cons rfl
  have htrim : ∀ cs, Text.trimStart (':' :: cs) = ':' :: cs := trimStart_cons rfl
  have hsecond : t.clockSecond < 100 := Nat.lt_of_le_of_lt t.clockSecond_le (by decide)
  have hfraction : NoDigitFirst (fractionText t.subsecond ++ ['Z']) := by
    rw [fractionText]
    split_ifs <;> exact noDigitFirst_cons rfl _
  simp only [scanClock, clockText, Option.bind_eq_bind, List.append_assoc, List.cons_append]
  rw [scanShort_padded (by omega) (hcolon _), Option.bind_some, htrim, scanChar_cons,
    Option.bind_some, scanShort_padded (by omega) (hcolon _), Option.bind_some, htrim,
    scanChar_cons, Option.bind_some, ← clockSecond, scanShort_padded hsecond hfraction,
    Option.bind_some, scanFraction_fractionText (subsecond_lt h.nanos_lt), Option.bind_some]

/-- The stamp with the parts of an instant names it. -/
theorem time?_parts {t : Time} (h : t.Writable) :
    (⟨t.date.year, t.date.month, t.date.day, t.secondOfDay / 3600, t.secondOfDay / 60 % 60,
      t.clockSecond, t.subsecond, 0⟩ : Stamp).time? = some t := by
  have hday := secondOfDay_lt t
  have hnanos := h.nanos_lt
  have hleap := h.leap
  have hrange : t.date.inRange = true := by
    have := h.year_nonneg
    have := h.year_le
    simp only [Date.inRange, Bool.and_eq_true, decide_eq_true_eq]
    omega
  have hsecond := t.clockSecond_le
  have hnumber : t.date.number = t.seconds / 86400 := Date.number_ofNumber _
  have hseconds : t.secondOfDay = t.seconds % 86400 := by
    rw [secondOfDay]
    omega
  have hguard : (t.date.exists? && t.date.inRange && decide (t.secondOfDay / 3600 ≤ 23)
      && decide (t.secondOfDay / 60 % 60 ≤ 59) && decide (t.clockSecond ≤ 60)
      && decide ((-86400 : Int) < 0) && decide ((0 : Int) < 86400)) = true := by
    simp only [Bool.and_eq_true, decide_eq_true_eq]
    exact ⟨⟨⟨⟨⟨⟨Date.exists_ofNumber _, hrange⟩, by omega⟩, by omega⟩, hsecond⟩, by omega⟩,
      by omega⟩
  -- The clock and the fraction together are the instant: the leap second goes back to the fraction.
  have hinstant (second leap : Nat) (hsecond : second = t.secondOfDay % 60)
      (hleap : t.subsecond + leap = t.nanos) :
      (⟨t.date.number * 86400 + ((t.secondOfDay / 3600 * 3600 + t.secondOfDay / 60 % 60 * 60
        + second : Nat) : Int) - 0, t.subsecond + leap⟩ : Time) = t := by
    rw [hleap, hnumber]
    congr 1
    omega
  rw [Stamp.time?]
  dsimp only
  rw [if_pos hguard]
  by_cases hsixty : t.clockSecond = 60
  · rw [if_pos hsixty]
    dsimp only
    rw [hinstant 59 1000000000 (by grind [clockSecond]) (by grind [clockSecond, subsecond]),
      if_pos hrange]
  · rw [if_neg hsixty]
    dsimp only
    rw [hinstant t.clockSecond 0 (by grind [clockSecond]) (by grind [clockSecond, subsecond]),
      if_pos hrange]

/-- The exact text of an instant is read back as that instant. -/
theorem parseExact_exact {t : Time} (h : t.Writable) : parseExact? t.exact = some t := by
  have hdate : scanDate Text.trimStart (dateText t.date
      ++ ('T' :: (clockText t ++ (fractionText t.subsecond ++ ['Z'])))) = _ :=
    scanDate_dateText (Date.exists_ofNumber _) h.year_nonneg h.year_le (noDigitFirst_cons rfl _)
  simp only [parseExact?, exact, String.toList_ofList, List.append_assoc, List.cons_append]
  rw [hdate, Option.bind_eq_bind, Option.bind_some]
  simp only [scanSeparator, true_or, if_true, Option.bind_eq_bind, Option.bind_some,
    scanClock_clockText h]
  exact time?_parts h

end Time

end RecordGraph
