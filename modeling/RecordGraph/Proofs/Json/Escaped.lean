import Mathlib.Tactic.SplitIfs
import RecordGraph.Json.Read
import RecordGraph.Proofs.Text.Hex

/-!
# Escaped texts

`Json.spelled_escape`: the escaped form of a text spells that text, and `Json.scanString_escape`: it
ends at the closing quote. Both are inductions on the characters, of which `EscapedAs` lists the
forms.
-/
namespace RecordGraph.Json

/-- The escaped forms of a character. -/
inductive EscapedAs (c : Char) : List Char → Prop where
  /-- The character itself. -/
  | self : c ≠ '"' → c ≠ '\\' → 0x20 ≤ c.toNat → EscapedAs c [c]
  /-- A letter behind a backslash. -/
  | letter {a : Char} : a ≠ 'u' → letterEscape? a = some c → EscapedAs c ['\\', a]
  /-- The digits of a control character. -/
  | digits : c.toNat < 0x20 →
    EscapedAs c ('\\' :: 'u' :: '0' :: '0' :: Hex.ofByte (UInt8.ofNat c.toNat))

theorem escapeChar_escapedAs (c : Char) : EscapedAs c (escapeChar c) := by
  unfold escapeChar
  split
  · exact .letter (by decide) rfl
  · exact .letter (by decide) rfl
  · exact .letter (by decide) rfl
  · exact .letter (by decide) rfl
  · exact .letter (by decide) rfl
  · exact .letter (by decide) rfl
  · exact .letter (by decide) rfl
  · split_ifs with h
    · exact .digits h
    · exact .self ‹_› ‹_› (Nat.not_lt.1 h)

theorem hexQuad_ofByte {n : Nat} (hn : n < 0x20) (rest : List Char) :
    hexQuad? ('0' :: '0' :: Hex.ofByte (UInt8.ofNat n) ++ rest) = some (n, rest) := by
  have hbyte : (UInt8.ofNat n).toNat = n := UInt8.toNat_ofNat_of_lt' (Nat.lt_trans hn (by decide))
  have hvalue : (((0 * 16 + 0) * 16 + n / 16) * 16 + n % 16 : Nat) = n := by omega
  simp only [Hex.ofByte, hbyte, List.cons_append, List.nil_append, hexQuad?,
    Hex.value_digit (n / 16) (by omega), Hex.value_digit (n % 16) (by omega),
    show Hex.value? '0' = some 0 from rfl, Option.bind_eq_bind, Option.bind_some, hvalue]

theorem unescape_escapedAs {c : Char} {w : List Char} (h : EscapedAs c w) (rest : List Char) :
    unescape? (w ++ rest) = (unescape? rest).map (c :: ·) := by
  cases h with
  | self hquote hback hprintable =>
    rw [List.singleton_append, unescape?]
    · exact fun _ _ _ _ _ h => absurd h hback
    · exact fun _ _ h => absurd h hback
  | @letter a hu hletter =>
    rw [List.cons_append, List.singleton_append, unescape?, hletter]
    · rfl
    · exact fun _ _ _ _ _ h => absurd h hu
  | digits hcontrol =>
    have hquad := hexQuad_ofByte hcontrol []
    rw [List.append_nil] at hquad
    rw [Hex.ofByte] at hquad ⊢
    simp only [List.cons_append, List.nil_append, unescape?, hquad, Option.bind_eq_bind,
      Option.bind_some]
    rw [if_neg (by omega), if_neg (by omega), Char.ofNat_toNat]

theorem unescape_flatMap (cs : List Char) : unescape? (cs.flatMap escapeChar) = some cs := by
  induction cs with
  | nil => rw [List.flatMap_nil, unescape?]
  | cons c cs ih =>
    rw [List.flatMap_cons, unescape_escapedAs (escapeChar_escapedAs c), ih, Option.map_some]

/-- The escaped form of a text spells it. -/
theorem spelled_escape (s : String) : spelled? (escape s) = some s := by
  rw [spelled?, escape, unescape_flatMap, Option.map_some, String.ofList_toList]

theorem scanString_escapedAs {c : Char} {w : List Char} (h : EscapedAs c w) (rest : List Char) :
    scanString (w ++ rest) = (scanString rest).map fun p => (w ++ p.1, p.2) := by
  cases h with
  | self hquote hback hprintable =>
    rw [List.singleton_append, scanString, if_neg (not_or.2 ⟨Nat.not_lt.2 hprintable, hback⟩)]
    · rfl
    · exact fun h => absurd h hquote
    · exact fun _ h => absurd h hback
    · exact fun _ _ h => absurd h hback
  | @letter a hu hletter =>
    rw [List.cons_append, List.singleton_append, scanString, hletter]
    · cases scanString rest <;> rfl
    · exact hu
  | digits hcontrol =>
    have hquad := hexQuad_ofByte hcontrol rest
    rw [Hex.ofByte] at hquad ⊢
    simp only [List.cons_append, List.nil_append] at hquad ⊢
    rw [scanString, hquad]
    cases scanString rest <;> rfl

theorem scanString_flatMap (cs rest : List Char) :
    scanString (cs.flatMap escapeChar ++ '"' :: rest) = some (cs.flatMap escapeChar, rest) := by
  induction cs with
  | nil => rw [List.flatMap_nil, List.nil_append, scanString]
  | cons c cs ih =>
    rw [List.flatMap_cons, List.append_assoc, scanString_escapedAs (escapeChar_escapedAs c), ih,
      Option.map_some]

/-- The escaped form of a text ends at the closing quote. -/
theorem scanString_escape (s : String) (rest : List Char) :
    scanString (escape s ++ '"' :: rest) = some (escape s, rest) :=
  scanString_flatMap _ _

end RecordGraph.Json
