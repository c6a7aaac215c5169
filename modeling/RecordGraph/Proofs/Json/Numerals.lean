import Mathlib.Tactic.SplitIfs
import RecordGraph.Json.Number
import RecordGraph.Json.Read
import RecordGraph.Proofs.Number.Digits

/-!
# Numbers in documents

`Written.chars` puts a number together from its parts. If these are `Proper`, the number ends where
no number goes on (`scanNumber_chars`), and its parts are found again (`ofChars_chars`).
-/
namespace RecordGraph.Json

open Literal

/-! ## Numbers as they are written -/

/-- A run of digits that is not empty. -/
def IsDigits (ds : List Char) : Prop := ds ≠ [] ∧ ∀ c ∈ ds, isDigit c = true

theorem isDigits_toDigits (n : Nat) : IsDigits (Nat.toDigits 10 n) :=
  ⟨Nat.toDigits_ne_nil, fun _ => isDigit_of_mem_toDigits⟩

theorem IsDigits.exists_cons {ds : List Char} (h : IsDigits ds) :
    ∃ c cs, ds = c :: cs ∧ isDigit c = true := by
  obtain ⟨c, cs, hcons⟩ := List.exists_cons_of_ne_nil h.1
  exact ⟨c, cs, hcons, h.2 c (hcons ▸ List.mem_cons_self)⟩

/-- A minus sign where there is one. -/
def signChars (negative : Bool) : List Char := if negative then ['-'] else []

/-- A point and digits, if there are some. -/
def fractionChars : Option (List Char) → List Char
  | none => []
  | some ds => '.' :: ds

/-- A signed exponent, if there is one. -/
def exponentChars : Option Int → List Char
  | none => []
  | some e => 'e' :: (if e < 0 then '-' else '+') :: Nat.toDigits 10 e.natAbs

/-- The characters of a number with these parts. -/
def Written.chars (w : Written) : List Char :=
  signChars w.negative ++ (w.whole ++ (fractionChars w.fraction ++ exponentChars w.exponent))

/-- Parts that make a number: digits before and behind the point, and no needless zero in front. -/
structure Written.Proper (w : Written) : Prop where
  whole : IsDigits w.whole
  leading : w.whole = ['0'] ∨ w.whole.head? ≠ some '0'
  fraction : ∀ ds ∈ w.fraction, IsDigits ds

/-- A number begins with a sign or a digit. -/
theorem Written.Proper.exists_chars_eq_cons {w : Written} (h : w.Proper) :
    ∃ c cs, w.chars = c :: cs ∧ (c = '-' ∨ isDigit c = true) := by
  obtain ⟨d, ds, hd, hdigit⟩ := h.whole.exists_cons
  rw [Written.chars]
  cases w.negative
  · exact ⟨d, _, by rw [hd]; rfl, .inr hdigit⟩
  · exact ⟨'-', _, rfl, .inl rfl⟩

/-! ## The end of a number -/

/-- What stands behind a number, and does not continue it. -/
def NumberEnds (rest : List Char) : Prop :=
  ∀ c ∈ rest.head?, isDigit c = false ∧ c ≠ '.' ∧ c ≠ 'e' ∧ c ≠ 'E'

theorem numberEnds_nil : NumberEnds [] := by simp [NumberEnds]

variable {ds rest : List Char}

theorem NumberEnds.noDigitFirst (h : NumberEnds rest) : NoDigitFirst rest := fun c hc => (h c hc).1

theorem scanDigits_append (h : IsDigits ds) (hrest : NoDigitFirst rest) :
    scanDigits (ds ++ rest) = some (ds, rest) := by
  rw [scanDigits, takeWhile_digits h.2 hrest, dropWhile_digits h.2 hrest]
  exact if_neg h.1

theorem scanWhole_append (h : IsDigits ds) (hleading : ds = ['0'] ∨ ds.head? ≠ some '0')
    (hrest : NoDigitFirst rest) : scanWhole (ds ++ rest) = some (ds, rest) := by
  rcases hleading with rfl | hhead
  · rw [List.singleton_append, scanWhole, if_neg]
    cases rest with
    | nil => exact Bool.false_ne_true
    | cons c cs => simp [hrest c rfl]
  · rw [scanWhole]
    · exact scanDigits_append h hrest
    · obtain ⟨d, ds, rfl, -⟩ := h.exists_cons
      intro _ hzero
      cases hzero
      exact hhead rfl

theorem scanFraction_append {fraction : Option (List Char)} (h : ∀ ds ∈ fraction, IsDigits ds)
    (hrest : NoDigitFirst rest) (hpoint : ∀ c ∈ rest.head?, c ≠ '.') :
    scanFraction (fractionChars fraction ++ rest) = some (fractionChars fraction, rest) := by
  cases fraction with
  | none =>
    rw [fractionChars, List.nil_append, scanFraction]
    rintro _ rfl
    exact hpoint _ rfl rfl
  | some ds =>
    rw [fractionChars, List.cons_append, scanFraction, scanDigits_append (h ds rfl) hrest,
      Option.map_some]

theorem scanExponent_append (exponent : Option Int) (hrest : NumberEnds rest) :
    scanExponent (exponentChars exponent ++ rest) = some (exponentChars exponent, rest) := by
  cases exponent with
  | none =>
    rw [exponentChars, List.nil_append]
    cases rest with
    | nil => rfl
    | cons c cs =>
      obtain ⟨-, -, he, hE⟩ := hrest c rfl
      unfold scanExponent
      exact if_neg (not_or.2 ⟨he, hE⟩)
  | some e =>
    have hdigits := scanDigits_append (isDigits_toDigits e.natAbs) hrest.noDigitFirst
    rw [exponentChars]
    split_ifs <;>
      simp only [List.cons_append, scanExponent, true_or, if_true, hdigits, Option.map_some]

/-- What stands behind the point of a number, or in its place. -/
theorem head_exponentChars_append (exponent : Option Int) (hrest : NumberEnds rest) :
    ∀ c ∈ (exponentChars exponent ++ rest).head?, isDigit c = false ∧ c ≠ '.' := by
  intro c hc
  cases exponent with
  | none =>
    obtain ⟨hdigit, hpoint, -⟩ := hrest c hc
    exact ⟨hdigit, hpoint⟩
  | some e =>
    cases hc
    decide

/-- Behind the digits before the point stands no digit. -/
theorem noDigitFirst_tail (fraction : Option (List Char)) (exponent : Option Int)
    (hrest : NumberEnds rest) :
    NoDigitFirst (fractionChars fraction ++ (exponentChars exponent ++ rest)) := by
  cases fraction with
  | none => exact fun c hc => (head_exponentChars_append exponent hrest c hc).1
  | some ds => exact noDigitFirst_cons rfl _

/-- A number ends where no number goes on. -/
theorem scanNumber_chars {w : Written} (h : w.Proper) (hrest : NumberEnds rest) :
    scanNumber (w.chars ++ rest) = some (w.chars, rest) := by
  have hexponent := scanExponent_append w.exponent hrest
  have hbehind := head_exponentChars_append w.exponent hrest
  have hfraction := scanFraction_append h.fraction (fun c hc => (hbehind c hc).1)
    fun c hc => (hbehind c hc).2
  have hwhole := scanWhole_append h.whole h.leading
    (noDigitFirst_tail w.fraction w.exponent hrest)
  simp only [Written.chars, List.append_assoc]
  cases w.negative
  · obtain ⟨d, ds, hd, hdigit⟩ := h.whole.exists_cons
    rw [hd] at hwhole ⊢
    unfold scanNumber
    simp only [signChars, Bool.false_eq_true, if_false, List.nil_append, List.cons_append]
    split
    · cases ‹d :: (ds ++ _) = _›
      exact absurd hdigit (by decide)
    · simp only [← List.cons_append, hwhole, hfraction, hexponent, Option.bind_eq_bind,
        Option.bind_some, List.nil_append, List.append_assoc]
  · simp only [signChars, if_true, scanNumber, List.cons_append, List.nil_append, hwhole, hfraction,
      hexponent, Option.bind_eq_bind, Option.bind_some, List.append_assoc]

/-! ## The parts of a number -/

theorem readInt_exponent (e : Int) :
    readInt? ((if e < 0 then '-' else '+') :: Nat.toDigits 10 e.natAbs) = some e := by
  split_ifs with h <;> simp only [readInt?, splitSign, readNat?_toDigits]
  · exact congrArg some (show -(e.natAbs : Int) = e by omega)
  · exact congrArg some (show (e.natAbs : Int) = e by omega)

/-- A minus sign is all that tells a negative number. -/
theorem ofChars_minus {c : Char} (h : c ≠ '-') (cs : List Char) :
    Written.ofChars ('-' :: c :: cs) = { Written.ofChars (c :: cs) with negative := true } := by
  refine Eq.symm ?_
  unfold Written.ofChars
  simp only
  split
  · cases ‹c :: cs = _›
    exact absurd rfl h
  · rfl

/-- The parts of a number are found again. -/
theorem ofChars_chars {w : Written} (h : w.Proper) : Written.ofChars w.chars = w := by
  obtain ⟨d, ds, hd, hdigit⟩ := h.whole.exists_cons
  have hminus : d ≠ '-' := by
    rintro rfl
    exact absurd hdigit (by decide)
  have htail := noDigitFirst_tail w.fraction w.exponent numberEnds_nil
  have hend := noDigitFirst_tail none w.exponent numberEnds_nil
  rw [List.append_nil] at htail hend
  have htake := takeWhile_digits h.whole.2 htail
  have hdrop := dropWhile_digits h.whole.2 htail
  have hunsigned :
      Written.ofChars (w.whole ++ (fractionChars w.fraction ++ exponentChars w.exponent)) =
        { w with negative := false } := by
    have hfraction := h.fraction
    obtain ⟨negative, whole, fraction, exponent⟩ := w
    cases hd
    unfold Written.ofChars
    simp only [List.cons_append] at htake hdrop ⊢
    split
    · cases ‹d :: _ = _›
      exact absurd rfl hminus
    · simp only [htake, hdrop]
      cases fraction with
      | none => cases exponent with
        | none => rfl
        | some e => exact congrArg _ (readInt_exponent e)
      | some fs =>
        have htake := takeWhile_digits (hfraction fs rfl).2 hend
        have hdrop := dropWhile_digits (hfraction fs rfl).2 hend
        rw [fractionChars, List.nil_append] at htake hdrop
        simp only [fractionChars, List.cons_append, htake, hdrop]
        cases exponent with
        | none => rfl
        | some e => exact congrArg _ (readInt_exponent e)
  rw [Written.chars]
  cases hw : w.negative
  · rw [signChars, if_neg Bool.false_ne_true, List.nil_append, hunsigned, ← hw]
  · rw [hd] at hunsigned ⊢
    rw [signChars, if_pos rfl, List.singleton_append, List.cons_append, ofChars_minus hminus,
      ← List.cons_append, hunsigned, ← hw, ← hd]

end RecordGraph.Json
