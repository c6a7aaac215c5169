import RecordGraph.Proofs.Time.Stored
import RecordGraph.Sql.Operation

/-!
# Times computed by SQLite

A stored time has six digits of a second. A time that SQLite computes is written by its `strftime`
in the format of the dialect, whose `%f` has three. Down to the millisecond the two texts are alike;
behind it the stored one has a digit where the computed one has its `Z`, and digits come first.

`strftime` belongs to SQLite. `Time.Strftime` is what is documented of it, and `Time.fillIn` is a
function of that kind.

**Results.**
* `Time.millis_lt_iff`: texts down to the millisecond are ordered like the instants.
* `Time.stored_of_wholeMillis`, `Time.Strftime.computed`: both texts, from this common part on.
* `Time.Strftime.compare_stored`: stored and computed times are ordered like their instants, and of
  equal instants the stored one comes first.
-/
namespace RecordGraph

/-- A fragment that begins with a call of `strftime` with a format. -/
def Sql.Formats (s : Sql) (format : List Char) : Prop :=
  ∃ more chunks, s.chunks = .raw ("strftime('" ++ String.ofList format ++ "', " ++ more) :: chunks

namespace Time

open Literal

/-! ## The formatter of SQLite -/

/-- A whole millisecond in a year of four digits that is no leap second. -/
structure WholeMillis (t : Time) : Prop extends FourDigit t where
  whole : t.nanos % 1000000 = 0
  noLeap : t.nanos < 1000000000

/-- The field of an instant that a letter behind a percent sign stands for. -/
def field? (t : Time) : Char → Option (List Char)
  | 'Y' => some (padded 4 t.date.year.toNat)
  | 'm' => some (padded 2 t.date.month)
  | 'd' => some (padded 2 t.date.day)
  | 'H' => some (padded 2 (t.secondOfDay / 3600))
  | 'M' => some (padded 2 (t.secondOfDay / 60 % 60))
  | 'f' => some (padded 2 (t.secondOfDay % 60) ++ '.' :: padded 3 (t.nanos / 1000000))
  | _ => none

/-- What is documented of SQLite's `strftime`, for whole milliseconds: a field stands for its text,
and any character that is no percent sign for itself. -/
structure Strftime (strftime : List Char → Time → List Char) : Prop where
  nil {t : Time} (ht : t.WholeMillis) : strftime [] t = []
  plain {t : Time} {c : Char} (ht : t.WholeMillis) (hc : c ≠ '%') (cs : List Char) :
    strftime (c :: cs) t = c :: strftime cs t
  field {t : Time} {c : Char} {text : List Char} (ht : t.WholeMillis) (hc : t.field? c = some text)
    (cs : List Char) : strftime ('%' :: c :: cs) t = text ++ strftime cs t

/-- A format with its fields filled in; a letter without a field stands for itself. -/
def fillIn : List Char → Time → List Char
  | [], _ => []
  | [c], _ => [c]
  | c :: d :: cs, t =>
    if c = '%' then (t.field? d).getD [d] ++ fillIn cs t else c :: fillIn (d :: cs) t

theorem strftime_fillIn : Strftime fillIn where
  nil _ := rfl
  plain _ hc cs := by
    cases cs with
    | nil => rfl
    | cons d cs => rw [fillIn, if_neg hc]
  field _ hc cs := by
    rw [fillIn, if_pos rfl, hc, Option.getD_some]

/-- The format of computed times, without its quotes. -/
def timeFormat : List Char := "%Y-%m-%dT%H:%M:%fZ".toList

/-- The current time and a time some seconds later are asked for in this format, whatever the
operands are. -/
theorem formats_timeFormat {op : Op} (hop : op = .now ∨ op = .dateAddSeconds) (args : List Sql) :
    (Dialect.operator .sqlite op args).Formats timeFormat := by
  obtain rfl | rfl := hop
  · exact ⟨"'now')", [], rfl⟩
  · exact ⟨"", _, rfl⟩

/-! ## Texts down to the millisecond -/

/-- Digits of one width that spell the same number. -/
theorem eq_of_natOfDigits_eq {cs ds : List Char} (hlength : cs.length = ds.length)
    (hcs : ∀ c ∈ cs, isDigit c = true) (hds : ∀ d ∈ ds, isDigit d = true)
    (h : natOfDigits cs = natOfDigits ds) : cs = ds := by
  obtain hlt | heq | hlt := lt_trichotomy cs ds
  · exact absurd ((lt_iff_natOfDigits_lt hlength hcs hds).1 hlt) h.not_lt
  · exact heq
  · exact absurd ((lt_iff_natOfDigits_lt hlength.symm hds hcs).1 hlt) h.symm.not_lt

/-- Zeros behind a padded number. -/
theorem padded_append_zeros {width n : Nat} (hw : 0 < width) (hn : n < 10 ^ width) (k : Nat) :
    padded (width + k) (n * 10 ^ k) = padded width n ++ List.replicate k '0' := by
  have hn' : n * 10 ^ k < 10 ^ (width + k) := by
    rw [Nat.pow_add]
    exact Nat.mul_lt_mul_of_pos_right hn (Nat.pow_pos (by decide))
  refine eq_of_natOfDigits_eq ?_ (fun _ => isDigit_of_mem_padded) (fun c hc => ?_) ?_
  · rw [length_padded (Nat.add_pos_left hw k) hn', List.length_append, length_padded hw hn,
      List.length_replicate]
  · rcases List.mem_append.1 hc with hc | hc
    · exact isDigit_of_mem_padded hc
    · rw [List.eq_of_mem_replicate hc]
      rfl
  · rw [natOfDigits_append_zeros, natOfDigits_padded, natOfDigits_padded, Nat.mul_comm]

/-- Numbers of fixed width are texts of one length. -/
theorem length_spell {layout : List (Nat × Char)} {ns ms : List Nat}
    (hns : List.Forall₂ Fits layout ns) (hms : List.Forall₂ Fits layout ms) :
    (spell layout ns).length = (spell layout ms).length := by
  induction hns generalizing ms with
  | nil =>
    cases hms
    rfl
  | cons hn _ ih =>
    cases hms with
    | cons hm hms =>
      rw [spell, spell, List.length_append, List.length_append, length_padded hn.1 hn.2,
        length_padded hm.1 hm.2, List.length_cons, List.length_cons, ih hms]

/-- The common part of a stored and a computed text. -/
def millis (t : Time) : List Char :=
  dateText t.date ++ 'T' :: t.clockText ++ '.' :: padded 3 (t.nanos / 1000000)

section

variable {s t : Time}

theorem stored_of_wholeMillis (h : t.WholeMillis) :
    t.stored.toList = t.millis ++ ['0', '0', '0', 'Z'] := by
  have hlt := h.noLeap
  have hwhole := h.whole
  have hsub : t.subsecond / 1000 = t.nanos / 1000000 * 10 ^ 3 := by
    rw [subsecond, if_neg (Nat.not_le.2 hlt)]
    omega
  have hdigits : padded (3 + 3) (t.nanos / 1000000 * 10 ^ 3) =
      padded 3 (t.nanos / 1000000) ++ List.replicate 3 '0' :=
    padded_append_zeros (by decide) (by omega) 3
  rw [stored, String.toList_ofList, hsub, hdigits, millis]
  simp only [List.append_assoc, List.cons_append]
  rfl

theorem length_millis (hs : s.WholeMillis) (ht : t.WholeMillis) :
    s.millis.length = t.millis.length := by
  have hlength := length_spell (fits_parts hs.toFourDigit) (fits_parts ht.toFourDigit)
  rw [← stored_eq_spell hs.toFourDigit, ← stored_eq_spell ht.toFourDigit,
    stored_of_wholeMillis hs, stored_of_wholeMillis ht, List.length_append, List.length_append]
    at hlength
  exact Nat.add_right_cancel hlength

/-- Texts down to the millisecond are ordered like the instants. -/
theorem millis_lt_iff (hs : s.WholeMillis) (ht : t.WholeMillis) :
    s.millis < t.millis ↔ s.micros < t.micros := by
  rw [← parts_lt_parts_iff hs.toFourDigit ht.toFourDigit hs.noLeap ht.noLeap,
    ← spell_lt_spell_iff (fits_parts hs.toFourDigit) (fits_parts ht.toFourDigit),
    ← stored_eq_spell hs.toFourDigit, ← stored_eq_spell ht.toFourDigit, stored_of_wholeMillis hs,
    stored_of_wholeMillis ht, Positional.append_lt_append_iff (length_millis hs ht)]
  simp only [List.lt_irrefl, and_false, or_false]

theorem millis_eq_iff (hs : s.WholeMillis) (ht : t.WholeMillis) :
    s.millis = t.millis ↔ s.micros = t.micros := by
  have hst := millis_lt_iff hs ht
  have hts := millis_lt_iff ht hs
  constructor
  · intro heq
    have hst' := mt hst.2 (heq ▸ lt_irrefl s.millis)
    have hts' := mt hts.2 (heq ▸ lt_irrefl s.millis)
    omega
  · intro heq
    obtain hlt | heq' | hlt := lt_trichotomy s.millis t.millis
    · exact absurd (hst.1 hlt) heq.not_lt
    · exact heq'
    · exact absurd (hts.1 hlt) heq.symm.not_lt

section

variable {strftime : List Char → Time → List Char} (h : Strftime strftime)
include h

/-- What SQLite computes. -/
theorem Strftime.computed (ht : t.WholeMillis) :
    strftime timeFormat t = t.millis ++ ['Z'] := by
  have hformat : timeFormat = ['%', 'Y', '-', '%', 'm', '-', '%', 'd', 'T', '%', 'H', ':', '%', 'M',
    ':', '%', 'f', 'Z'] := rfl
  rw [hformat, h.field ht rfl, h.plain ht (by decide), h.field ht rfl, h.plain ht (by decide),
    h.field ht rfl, h.plain ht (by decide), h.field ht rfl, h.plain ht (by decide), h.field ht rfl,
    h.plain ht (by decide), h.field ht rfl, h.plain ht (by decide), h.nil ht, millis, dateText,
    yearText, if_pos ⟨ht.year_nonneg, ht.year_le⟩, clockText]
  simp only [Nat.not_le.2 ht.noLeap, if_false, Nat.add_zero, List.append_assoc, List.cons_append]

/-- A digit comes before `Z`: at one instant the stored text comes first. -/
theorem Strftime.stored_lt (hs : s.WholeMillis) (ht : t.WholeMillis) :
    s.stored < String.ofList (strftime timeFormat t) ↔ s.micros ≤ t.micros := by
  have hdigit : ['0', '0', '0', 'Z'] < ['Z'] := by decide
  rw [String.lt_iff_toList_lt, String.toList_ofList, h.computed ht, stored_of_wholeMillis hs,
    Positional.append_lt_append_iff (length_millis hs ht), millis_lt_iff hs ht,
    millis_eq_iff hs ht, le_iff_lt_or_eq]
  exact or_congr_right (and_iff_left hdigit)

theorem Strftime.lt_stored (hs : s.WholeMillis) (ht : t.WholeMillis) :
    String.ofList (strftime timeFormat t) < s.stored ↔ t.micros < s.micros := by
  have hdigit : ¬['Z'] < ['0', '0', '0', 'Z'] := by decide
  rw [String.lt_iff_toList_lt, String.toList_ofList, h.computed ht, stored_of_wholeMillis hs,
    Positional.append_lt_append_iff (length_millis ht hs), millis_lt_iff ht hs]
  exact or_iff_left fun hz => hdigit hz.2

/-- **Stored and computed times.** Whatever `strftime` does that is documented of SQLite's, the
current time and a time some seconds later are computed by it in the format of the dialect, and a
stored time compares to one of them as the instants compare; only where these are equal, the stored
one comes first. -/
theorem Strftime.compare_stored {op : Op} (hop : op = .now ∨ op = .dateAddSeconds)
    (args : List Sql) (hs : s.WholeMillis) (ht : t.WholeMillis) :
    (Dialect.operator .sqlite op args).Formats timeFormat ∧
      compare s.stored (String.ofList (strftime timeFormat t)) =
        (compare s.micros t.micros).then .lt := by
  refine ⟨formats_timeFormat hop args, ?_⟩
  obtain hlt | heq | hlt := lt_trichotomy s.micros t.micros
  · rw [compare_lt_iff_lt.2 hlt, compare_lt_iff_lt.2 ((h.stored_lt hs ht).2 hlt.le)]
    rfl
  · rw [compare_eq_iff_eq.2 heq, compare_lt_iff_lt.2 ((h.stored_lt hs ht).2 heq.le)]
    rfl
  · rw [compare_gt_iff_gt.2 hlt, compare_gt_iff_gt.2 ((h.lt_stored hs ht).2 hlt)]
    rfl

end

end

/-! ## The start of 2024 -/

/-- A millisecond after the start of 2024 is stored behind what is computed for the start. -/
theorem newYear_compare :
    Strftime fillIn ∧ (⟨1704067200, 1000000⟩ : Time).WholeMillis ∧
      (⟨1704067200, 0⟩ : Time).WholeMillis ∧
        compare (⟨1704067200, 1000000⟩ : Time).stored
          (String.ofList (fillIn timeFormat ⟨1704067200, 0⟩)) = .gt := by
  have hlate : (⟨1704067200, 1000000⟩ : Time).WholeMillis :=
    ⟨⟨by decide, by decide, by decide⟩, by decide, by decide⟩
  have hearly : (⟨1704067200, 0⟩ : Time).WholeMillis :=
    ⟨⟨by decide, by decide, by decide⟩, by decide, by decide⟩
  exact ⟨strftime_fillIn, hlate, hearly,
    (strftime_fillIn.compare_stored (.inl rfl) [] hlate hearly).2⟩

/-- The two texts of the start itself differ, and the stored one comes first. -/
theorem newYear_apart :
    Strftime fillIn ∧ (⟨1704067200, 0⟩ : Time).WholeMillis ∧
      (Dialect.operator .sqlite .now []).Formats timeFormat ∧
        (⟨1704067200, 0⟩ : Time).stored = "2024-01-01T00:00:00.000000Z" ∧
          String.ofList (fillIn timeFormat ⟨1704067200, 0⟩) = "2024-01-01T00:00:00.000Z" ∧
            compare "2024-01-01T00:00:00.000000Z" "2024-01-01T00:00:00.000Z" ≠
              compare (⟨1704067200, 0⟩ : Time).micros (⟨1704067200, 0⟩ : Time).micros :=
  ⟨strftime_fillIn, ⟨⟨by decide, by decide, by decide⟩, by decide, by decide⟩,
    formats_timeFormat (.inl rfl) [], by decide +kernel, by decide +kernel, by decide +kernel⟩

end Time

end RecordGraph
