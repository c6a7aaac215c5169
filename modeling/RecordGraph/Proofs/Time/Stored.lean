import Mathlib.Data.List.Forall2
import Mathlib.Data.String.Basic
import RecordGraph.Proofs.Number.Positional
import RecordGraph.Proofs.Time.Exact

/-!
# Stored times

The stored text of an instant is made of seven numbers of fixed width with a mark behind each
(`stored_eq_spell`). So texts are ordered like these numbers, from the year down to the microsecond,
and these are ordered like the instants.

**Results.**
* `Time.spell_lt_spell_iff`: numbers of fixed width are ordered as texts like themselves.
* `Time.parts_lt_parts_iff`: the parts of instants are ordered like their microseconds.
* `Time.parse_stored`: a stored text is read back, down to whole microseconds.
* `Time.stored_faithful`: the order of the texts, their equality and what they are read as.
-/
namespace RecordGraph

/-- An instant whose year has four digits. -/
structure Time.FourDigit (t : Time) : Prop where
  nanos_lt : t.nanos < 2000000000
  year_nonneg : 0 ≤ t.date.year
  year_le : t.date.year ≤ 9999

namespace Time

open Literal

/-! ## Numbers of fixed width -/

/-- Numbers in their widths, with a mark behind each. -/
def spell : List (Nat × Char) → List Nat → List Char
  | (width, mark) :: layout, n :: ns => padded width n ++ mark :: spell layout ns
  | _, _ => []

/-- A number has room in its width. -/
def Fits (field : Nat × Char) (n : Nat) : Prop := 0 < field.1 ∧ n < 10 ^ field.1

theorem padded_lt_padded_iff {width n m : Nat} (hw : 0 < width) (hn : n < 10 ^ width)
    (hm : m < 10 ^ width) : padded width n < padded width m ↔ n < m := by
  rw [lt_iff_natOfDigits_lt (by rw [length_padded hw hn, length_padded hw hm])
    (fun _ => isDigit_of_mem_padded) fun _ => isDigit_of_mem_padded, natOfDigits_padded,
    natOfDigits_padded]

theorem padded_inj {width n m : Nat} (h : padded width n = padded width m) : n = m := by
  rw [← natOfDigits_padded width n, h, natOfDigits_padded]

/-- Numbers of fixed width are ordered as texts like themselves. -/
theorem spell_lt_spell_iff {layout : List (Nat × Char)} {ns ms : List Nat}
    (hns : List.Forall₂ Fits layout ns) (hms : List.Forall₂ Fits layout ms) :
    spell layout ns < spell layout ms ↔ ns < ms := by
  induction hns generalizing ms with
  | nil =>
    cases hms
    simp [spell]
  | @cons field n layout ns hn hns ih =>
    cases hms with
    | @cons _ m _ ms hm hms =>
      have hlength : (padded field.1 n).length = (padded field.1 m).length := by
        rw [length_padded hn.1 hn.2, length_padded hm.1 hm.2]
      rw [spell, spell, Positional.append_lt_append_iff hlength,
        padded_lt_padded_iff hn.1 hn.2 hm.2, List.cons_lt_cons_iff, List.cons_lt_cons_iff, ih hms]
      constructor
      · rintro (h | ⟨h, h' | ⟨-, h'⟩⟩)
        · exact .inl h
        · exact absurd h' (Char.lt_irrefl _)
        · exact .inr ⟨padded_inj h, h'⟩
      · rintro (h | ⟨rfl, h⟩)
        · exact .inl h
        · exact .inr ⟨rfl, .inr ⟨rfl, h⟩⟩

/-- A number is read up to the mark behind it. -/
theorem scanNumber_fits {width n : Nat} {mark : Char} (h : Fits (width, mark) n)
    (hmark : isDigit mark = false) (rest : List Char) :
    scanNumber width width (padded width n ++ mark :: rest) = some (n, mark :: rest) :=
  scanNumber_padded h.1 h.2 (Nat.le_refl _) (Nat.le_refl _) (noDigitFirst_cons hmark _)

/-! ## The parts of an instant -/

/-- The widths of year, month, day, hour, minute, second and microsecond, and the marks behind
them. -/
def layout : List (Nat × Char) :=
  [(4, '-'), (2, '-'), (2, 'T'), (2, ':'), (2, ':'), (2, '.'), (6, 'Z')]

/-- The numbers of the stored text. -/
def parts (t : Time) : List Nat :=
  [t.date.year.toNat, t.date.month, t.date.day, t.secondOfDay / 3600, t.secondOfDay / 60 % 60,
    t.clockSecond, t.subsecond / 1000]

theorem exists_date (t : Time) : t.date.exists? = true := Date.exists_ofNumber _

theorem number_date (t : Time) : t.date.number = t.seconds / 86400 := Date.number_ofNumber _

section

variable {t : Time} (h : t.FourDigit)
include h

theorem stored_eq_spell : t.stored.toList = spell layout t.parts := by
  rw [stored, String.toList_ofList, dateText, yearText, if_pos ⟨h.year_nonneg, h.year_le⟩,
    clockText]
  simp only [layout, parts, spell, clockSecond, List.append_assoc, List.cons_append]

theorem fits_parts : List.Forall₂ Fits layout t.parts := by
  have hyear := h.year_nonneg
  have hyear' := h.year_le
  obtain ⟨-, hmonth, -, hday⟩ := Date.exists?_iff.1 (exists_date t)
  have hlength := Calendar.monthLength_le hmonth t.date.year
  have hclock := secondOfDay_lt t
  have hsecond := clockSecond_le t
  have hsub := subsecond_lt h.nanos_lt
  simp only [layout, parts, List.forall₂_cons, Fits, List.forall₂_nil_left_iff]
  refine ⟨⟨by decide, ?_⟩, ⟨by decide, ?_⟩, ⟨by decide, ?_⟩, ⟨by decide, ?_⟩, ⟨by decide, ?_⟩,
    ⟨by decide, ?_⟩, ⟨by decide, ?_⟩, trivial⟩ <;> omega

end

/-! ## The order of instants -/

/-- The parts of a clock in the order of their size. -/
theorem clock_lt_iff {a b c d : Nat} : (a / 3600 < b / 3600 ∨ a / 3600 = b / 3600 ∧
    (a / 60 % 60 < b / 60 % 60 ∨ a / 60 % 60 = b / 60 % 60 ∧
      (a % 60 < b % 60 ∨ a % 60 = b % 60 ∧ c < d))) ↔ a < b ∨ a = b ∧ c < d := by
  omega

variable {a b : Time}

theorem date_eq_iff : a.date.year = b.date.year ∧ a.date.month = b.date.month ∧
    a.date.day = b.date.day ↔ a.seconds / 86400 = b.seconds / 86400 := by
  constructor
  · rintro ⟨hyear, hmonth, hday⟩
    rw [← number_date a, ← number_date b, Date.number, Date.number, hyear, hmonth, hday]
  · intro h
    rw [date, date, h]
    exact ⟨rfl, rfl, rfl⟩

/-- The parts of a date in the order of their size, before anything else. -/
theorem date_lt_iff {rest : Prop} : (a.date.year < b.date.year ∨ a.date.year = b.date.year ∧
    (a.date.month < b.date.month ∨ a.date.month = b.date.month ∧
      (a.date.day < b.date.day ∨ a.date.day = b.date.day ∧ rest))) ↔
    a.seconds / 86400 < b.seconds / 86400 ∨ a.seconds / 86400 = b.seconds / 86400 ∧ rest := by
  rw [← date_eq_iff, ← number_date a, ← number_date b,
    Date.number_lt_iff (exists_date a) (exists_date b)]
  simp only [and_or_left, or_assoc, and_assoc]

/-- The parts of instants are ordered like their microseconds, unless they are leap seconds. -/
theorem parts_lt_parts_iff (ha : a.FourDigit) (hb : b.FourDigit) (ha' : a.nanos < 1000000000)
    (hb' : b.nanos < 1000000000) : a.parts < b.parts ↔ a.micros < b.micros := by
  have hyear : a.date.year.toNat < b.date.year.toNat ↔ a.date.year < b.date.year := by
    have := ha.year_nonneg
    omega
  have hyear' : a.date.year.toNat = b.date.year.toNat ↔ a.date.year = b.date.year := by
    have := ha.year_nonneg
    have := hb.year_nonneg
    omega
  have hclock (t : Time) (h : t.nanos < 1000000000) : t.clockSecond = t.secondOfDay % 60 := by
    rw [clockSecond, if_neg (Nat.not_le.2 h), Nat.add_zero]
  have hsub (t : Time) (h : t.nanos < 1000000000) : t.subsecond = t.nanos := by
    rw [subsecond, if_neg (Nat.not_le.2 h)]
  simp only [parts, List.cons_lt_cons_iff, List.not_lt_nil, and_false, or_false, hclock a ha',
    hclock b hb', hsub a ha', hsub b hb', hyear, hyear', clock_lt_iff, date_lt_iff]
  rw [micros, micros, secondOfDay, secondOfDay]
  omega

/-! ## Stored texts read back -/

/-- An instant without what is below its microsecond. -/
def truncated (t : Time) : Time := ⟨t.seconds, t.nanos / 1000 * 1000⟩

/-- What a stored text says: whole microseconds, and a leap second within a minute as the second
behind it. -/
def asRead (t : Time) : Time :=
  if 1000000000 ≤ t.nanos ∧ t.seconds % 60 ≠ 59 then
    ⟨t.seconds + 1, t.subsecond / 1000 * 1000⟩
  else t.truncated

theorem asRead_of_leap {t : Time} (h : 1000000000 ≤ t.nanos → t.seconds % 60 = 59) :
    t.asRead = t.truncated := by
  rw [asRead, if_neg fun hmid => hmid.2 (h hmid.1)]

@[simp] theorem micros_truncated (t : Time) : t.truncated.micros = t.micros := by
  rw [micros, micros, truncated]
  dsimp only
  omega

@[simp] theorem micros_asRead (t : Time) : t.asRead.micros = t.micros := by
  rw [asRead]
  split_ifs with h
  · rw [micros, micros, subsecond, if_pos h.1]
    dsimp only
    omega
  · exact micros_truncated t

/-- The second behind one within a minute is in the same minute. -/
@[simp] theorem date_asRead (t : Time) : t.asRead.date = t.date := by
  rw [asRead]
  split_ifs with hmid
  · rw [date, date]
    congr 1
    dsimp only
    omega
  · rfl

theorem minute_asRead (t : Time) : t.asRead.secondOfDay / 3600 = t.secondOfDay / 3600 ∧
    t.asRead.secondOfDay / 60 % 60 = t.secondOfDay / 60 % 60 := by
  rw [asRead]
  split_ifs with hmid
  · rw [secondOfDay, secondOfDay]
    dsimp only
    omega
  · exact ⟨rfl, rfl⟩

section

variable {t : Time} (h : t.FourDigit)
include h

theorem clockSecond_asRead : t.asRead.clockSecond = t.clockSecond := by
  have hsub := subsecond_lt h.nanos_lt
  rw [asRead]
  split_ifs with hmid
  · rw [clockSecond, clockSecond, secondOfDay, secondOfDay, if_pos hmid.1,
      if_neg (by dsimp only; omega)]
    dsimp only
    omega
  · rw [clockSecond, clockSecond, secondOfDay, secondOfDay, truncated]
    dsimp only
    split_ifs <;> omega

theorem subsecond_asRead : t.asRead.subsecond = t.subsecond / 1000 * 1000 := by
  have hsub := subsecond_lt h.nanos_lt
  rw [asRead]
  split_ifs with hmid
  · rw [subsecond, if_neg (by dsimp only; omega)]
  · rw [subsecond, subsecond, truncated]
    dsimp only
    split_ifs <;> omega

theorem asRead_writable : t.asRead.Writable := by
  have hnanos := h.nanos_lt
  have hsub := subsecond_lt h.nanos_lt
  refine ⟨?_, ?_, (date_asRead t).symm ▸ h.year_nonneg, (date_asRead t).symm ▸ h.year_le⟩
  all_goals
    rw [asRead]
    split_ifs <;> dsimp only [truncated] <;> omega

/-- A stored text is read as the stamp of its parts. -/
theorem parseStandard_stored : parseStandard? t.stored.toList =
    (⟨t.date.year, t.date.month, t.date.day, t.secondOfDay / 3600, t.secondOfDay / 60 % 60,
      t.clockSecond, t.subsecond / 1000 * 1000, 0⟩ : Stamp).time? := by
  have hfits := fits_parts h
  simp only [layout, parts, List.forall₂_cons] at hfits
  obtain ⟨hyear, hmonth, hday, hhour, hminute, hsecond, hsub, -⟩ := hfits
  have hfraction : scanFraction ('.' :: (padded 6 (t.subsecond / 1000) ++ ['Z'])) =
      some (t.subsecond / 1000 * 1000, ['Z']) :=
    scanFraction_padded hsub.1 (by decide) hsub.2 (noDigitFirst_cons rfl [])
  have hyearInt : ((t.date.year.toNat : Nat) : Int) = t.date.year :=
    Int.toNat_of_nonneg h.year_nonneg
  have hnext {α : Type} (a : α) (f : α → Option Time) : (some a >>= f) = f a := rfl
  rw [stored_eq_spell h]
  simp only [layout, parts, spell]
  rw [parseStandard?]
  dsimp only
  rw [scanNumber_fits hyear rfl, hnext, scanChar_cons, hnext,
    scanNumber_fits hmonth rfl, hnext, scanChar_cons, hnext, scanNumber_fits hday rfl, hnext,
    scanSeparator, if_pos (.inl rfl), hnext, scanNumber_fits hhour rfl, hnext, scanChar_cons, hnext,
    scanNumber_fits hminute rfl, hnext, scanChar_cons, hnext, scanNumber_fits hsecond rfl, hnext,
    hfraction, hnext, scanOffset, if_pos (.inl rfl), hnext, if_pos rfl, hyearInt]

/-- A stored text is read back, down to whole microseconds. -/
theorem parse_stored : parse? t.stored = some t.asRead := by
  have hread := time?_parts (asRead_writable h)
  rw [date_asRead, (minute_asRead t).1, (minute_asRead t).2, clockSecond_asRead h,
    subsecond_asRead h] at hread
  rw [parse?, parseStandard_stored h, hread]
  rfl

end

/-! ## Texts that are equal -/

/-- What is below a microsecond is not stored. -/
theorem stored_truncated (t : Time) : t.truncated.stored = t.stored := by
  have hleap : 1000000000 ≤ t.nanos / 1000 * 1000 ↔ 1000000000 ≤ t.nanos := by omega
  have hsub : t.truncated.subsecond / 1000 = t.subsecond / 1000 := by
    rw [subsecond, subsecond, truncated]
    dsimp only
    split_ifs <;> omega
  have hclock : t.truncated.clockText = t.clockText := by
    rw [clockText, clockText, truncated]
    simp only [hleap, secondOfDay]
  rw [stored, stored, hsub, hclock]
  rfl

theorem truncated_eq_iff (ha : a.nanos < 1000000000) (hb : b.nanos < 1000000000) :
    a.truncated = b.truncated ↔ a.micros = b.micros := by
  rw [truncated, truncated, micros, micros, Time.mk.injEq]
  omega

theorem asRead_of_lt {t : Time} (h : t.nanos < 1000000000) : t.asRead = t.truncated :=
  asRead_of_leap fun hle => absurd h (Nat.not_lt.2 hle)

/-- Instants with years of four digits that are no leap seconds: their stored texts are ordered like
their microseconds, are equal when these are, and are read back down to whole microseconds. -/
theorem stored_faithful (ha : a.FourDigit) (hb : b.FourDigit) (ha' : a.nanos < 1000000000)
    (hb' : b.nanos < 1000000000) :
    (a.stored < b.stored ↔ a.micros < b.micros) ∧ (a.stored = b.stored ↔ a.micros = b.micros) ∧
      parse? a.stored = some a.truncated := by
  have hreada := asRead_of_lt ha' ▸ parse_stored ha
  have hreadb := asRead_of_lt hb' ▸ parse_stored hb
  refine ⟨?_, ⟨fun h => ?_, fun h => ?_⟩, hreada⟩
  · rw [String.lt_iff_toList_lt, stored_eq_spell ha, stored_eq_spell hb,
      spell_lt_spell_iff (fits_parts ha) (fits_parts hb), parts_lt_parts_iff ha hb ha' hb']
  · rw [h, hreadb] at hreada
    exact (truncated_eq_iff ha' hb').1 (Option.some.inj hreada).symm
  · rw [← stored_truncated a, (truncated_eq_iff ha' hb').2 h, stored_truncated]

/-- The last half microsecond before 1970 is stored before 1970. -/
theorem epoch_faithful :
    (⟨-1, 999999500⟩ : Time).FourDigit ∧ (⟨0, 0⟩ : Time).FourDigit ∧
      (⟨-1, 999999500⟩ : Time).stored < (⟨0, 0⟩ : Time).stored ∧
        parse? (⟨-1, 999999500⟩ : Time).stored = some ⟨-1, 999999000⟩ := by
  have hbefore : (⟨-1, 999999500⟩ : Time).FourDigit := ⟨by decide, by decide, by decide⟩
  have hepoch : (⟨0, 0⟩ : Time).FourDigit := ⟨by decide, by decide, by decide⟩
  obtain ⟨hlt, -, hread⟩ := stored_faithful hbefore hepoch (by decide) (by decide)
  exact ⟨hbefore, hepoch, hlt.2 (by decide), hread⟩

end Time

end RecordGraph
