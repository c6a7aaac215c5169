import RecordGraph.Proofs.Json.Escaped
import RecordGraph.Proofs.Json.Integers

/-!
# Documents, written and read

`Json.parse_render`: the text of a `Plain` document, whose numbers are written as such, is read back
as that document.

`Scans j` says that the characters of `j` are read as `j` wherever no number goes on, with fuel for
each character. Arrays and objects need it of their parts (`scanItems_chars`, `scanEntries_chars`),
and so every plain document has it (`Plain.scans`).
-/
namespace RecordGraph.Json

/-- A document whose numbers have proper parts, and whose texts and keys are escaped. -/
inductive Plain : Json → Prop where
  | null : Plain .null
  | bool (b : Bool) : Plain (.bool b)
  | number {w : Written} : w.Proper → Plain (.number w.chars)
  | text (s : String) : Plain (ofText s)
  | array {items : List Json} : (∀ j ∈ items, Plain j) → Plain (.array items)
  | object {entries : List (String × Json)} : (∀ e ∈ entries, Plain e.2) →
    Plain (ofEntries entries)

theorem Plain.int (i : Int) : Plain (ofInt i) := by
  rw [ofInt, toList_toString]
  exact .number (proper_integerParts i)

theorem ofEntries_eq (entries : List (String × Json)) :
    ofEntries entries = .object (entries.map fun e => (escape e.1, e.2)) := rfl

theorem itemChars_eq (items : List Json) : itemChars items = items.map chars := by
  induction items with
  | nil => rw [itemChars, List.map_nil]
  | cons j items ih => rw [itemChars, ih, List.map_cons]

/-- The characters of an entry. -/
def entryText (e : String × Json) : List Char := '"' :: escape e.1 ++ '"' :: ':' :: chars e.2

theorem chars_array (items : List Json) :
    chars (.array items) = '[' :: (separated (items.map chars) ++ [']']) := by
  rw [chars, itemChars_eq, List.cons_append]

theorem chars_ofEntries (entries : List (String × Json)) :
    chars (ofEntries entries) = '\x7b' :: (separated (entries.map entryText) ++ ['\x7d']) := by
  have h : entryChars (entries.map fun e => (escape e.1, e.2)) = entries.map entryText := by
    induction entries with
    | nil => rw [List.map_nil, entryChars, List.map_nil]
    | cons e entries ih => rw [List.map_cons, entryChars, ih, List.map_cons, entryText]
  rw [ofEntries_eq, chars, h, List.cons_append]

theorem skip_cons {c : Char} (h : isSpace c = false) (cs : List Char) :
    skip (c :: cs) = c :: cs := by
  rw [skip, List.dropWhile_cons, h, if_neg Bool.false_ne_true]

theorem not_isSpace_of_isDigit {c : Char} (h : Literal.isDigit c = true) : isSpace c = false := by
  rw [Bool.eq_false_iff]
  intro hspace
  simp only [isSpace, Bool.or_eq_true, beq_iff_eq] at hspace
  rcases hspace with ((rfl | rfl) | rfl) | rfl <;> exact absurd h (by decide)

/-- A document begins with a character that is neither blank nor the end of an array. -/
theorem Plain.exists_chars_eq_cons {j : Json} (h : Plain j) :
    ∃ c cs, chars j = c :: cs ∧ isSpace c = false ∧ c ≠ ']' := by
  cases h with
  | null => exact ⟨_, _, rfl, rfl, by decide⟩
  | bool b => cases b <;> exact ⟨_, _, rfl, rfl, by decide⟩
  | number hw =>
    obtain ⟨c, cs, h, hc⟩ := hw.exists_chars_eq_cons
    refine ⟨c, cs, h, ?_⟩
    rcases hc with rfl | hdigit
    · exact ⟨rfl, by decide⟩
    · exact ⟨not_isSpace_of_isDigit hdigit, by rintro rfl; exact absurd hdigit (by decide)⟩
  | text s => exact ⟨_, _, rfl, rfl, by decide⟩
  | array _ => exact ⟨_, _, chars_array _, rfl, by decide⟩
  | object _ => exact ⟨_, _, chars_ofEntries _, rfl, by decide⟩

/-- The characters of a document are read as that document, wherever no number goes on. -/
def Scans (j : Json) : Prop :=
  ∀ fuel rest, (chars j).length ≤ fuel → NumberEnds rest →
    scan fuel (chars j ++ rest) = some (j, rest)

theorem numberEnds_cons {c : Char} (hc : c = ',' ∨ c = ']' ∨ c = '\x7d') (cs : List Char) :
    NumberEnds (c :: cs) := by
  rintro _ ⟨⟩
  rcases hc with rfl | rfl | rfl <;> decide

theorem scan_number {c : Char} (hc : c = '-' ∨ Literal.isDigit c = true) (fuel : Nat)
    (cs : List Char) :
    scan (fuel + 1) (c :: cs) = (scanNumber (c :: cs)).map fun (n, rest) => (.number n, rest) := by
  have hspace : isSpace c = false := by
    rcases hc with rfl | hc
    · rfl
    · exact not_isSpace_of_isDigit hc
  have hne {d : Char} (hminus : d ≠ '-') (hdigit : Literal.isDigit d = false) : c ≠ d := by
    rintro rfl
    rcases hc with rfl | hc
    · exact hminus rfl
    · exact Bool.false_ne_true (hdigit.symm.trans hc)
  have hn : c ≠ 'n' := hne (by decide) rfl
  have ht : c ≠ 't' := hne (by decide) rfl
  have hf : c ≠ 'f' := hne (by decide) rfl
  have hquote : c ≠ '"' := hne (by decide) rfl
  have harray : c ≠ '[' := hne (by decide) rfl
  have hobject : c ≠ '{' := hne (by decide) rfl
  unfold scan
  rw [skip_cons hspace]
  split <;> simp_all

theorem scans_number {w : Written} (hw : w.Proper) : Scans (.number w.chars) := by
  intro fuel rest hfuel hrest
  obtain ⟨c, cs, h, hc⟩ := hw.exists_chars_eq_cons
  have hnumber := scanNumber_chars hw hrest
  obtain _ | fuel := fuel
  · rw [chars, h] at hfuel
    exact absurd hfuel (by simp)
  · rw [chars]
    rw [h, List.cons_append] at hnumber ⊢
    rw [scan_number hc, hnumber, Option.map_some]

theorem scans_text (s : String) : Scans (ofText s) := by
  intro fuel rest hfuel _
  obtain _ | fuel := fuel
  · exact absurd hfuel (by simp [ofText, chars])
  · have hstring := scanString_escape s rest
    simp only [ofText, chars, List.cons_append, List.append_assoc, List.nil_append]
    rw [scan, skip_cons rfl]
    simp only [hstring, Option.map_some]

/-- The items of an array are read up to its end. -/
theorem scanItems_chars : ∀ {items : List Json}, items ≠ [] → (∀ j ∈ items, Scans j) →
    ∀ fuel rest, (separated (items.map chars)).length < fuel →
      scanItems fuel (separated (items.map chars) ++ ']' :: rest) = some (items, rest)
  | [], hne, _, _, _, _ => absurd rfl hne
  | [j], _, hscans, fuel + 1, rest, hfuel => by
    have hj := hscans j List.mem_cons_self fuel (']' :: rest) (Nat.lt_succ_iff.1 hfuel)
      (numberEnds_cons (by decide) _)
    simp only [List.map_cons, List.map_nil, separated, scanItems, hj, Option.bind_eq_bind,
      Option.bind_some, skip_cons (show isSpace ']' = false from rfl)]
  | j :: k :: items, _, hscans, fuel + 1, rest, hfuel => by
    simp only [List.map_cons, separated, List.length_append, List.length_cons] at hfuel
    have hj := hscans j List.mem_cons_self fuel
      (',' :: (separated ((k :: items).map chars) ++ ']' :: rest)) (by omega)
      (numberEnds_cons (by decide) _)
    have hitems := scanItems_chars (List.cons_ne_nil k items)
      (fun i hi => hscans i (List.mem_cons_of_mem _ hi)) fuel rest (by
        rw [List.map_cons]
        omega)
    rw [List.map_cons, List.map_cons, separated, ← List.map_cons, List.append_assoc,
      List.cons_append, scanItems]
    · simp only [hj, Option.bind_eq_bind, Option.bind_some,
        skip_cons (show isSpace ',' = false from rfl), hitems, Option.map_some]
    · exact fun h => List.cons_ne_nil _ _ (List.map_eq_nil_iff.1 h)

/-- The entries of an object once one of them is read: that entry, and those behind it. -/
def scanBehind (fuel : Nat) (entry : List Char × Json) (cs : List Char) :
    Option (List (List Char × Json) × List Char) :=
  match skip cs with
  | ',' :: rest => (scanEntries fuel rest).map fun (entries, rest) => (entry :: entries, rest)
  | '\x7d' :: rest => some ([entry], rest)
  | _ => none

/-- An entry of an object is read up to what stands behind it. -/
theorem scanEntries_entry {e : String × Json} (h : Scans e.2) {fuel : Nat} {tail : List Char}
    (hfuel : (entryText e).length ≤ fuel) (hends : NumberEnds tail) :
    scanEntries (fuel + 1) (entryText e ++ tail) = scanBehind fuel (escape e.1, e.2) tail := by
  have hlength : (chars e.2).length ≤ fuel := by
    rw [entryText] at hfuel
    simp only [List.length_cons, List.length_append] at hfuel
    omega
  have hkey := scanString_escape e.1 (':' :: (chars e.2 ++ tail))
  have hvalue := h fuel tail hlength hends
  rw [entryText, List.cons_append, List.cons_append, List.append_assoc, List.cons_append,
    List.cons_append, scanEntries, skip_cons rfl]
  simp only [hkey, Option.bind_eq_bind, Option.bind_some,
    skip_cons (show isSpace ':' = false from rfl), hvalue]
  rfl

/-- The entries of an object are read up to its end. -/
theorem scanEntries_chars : ∀ {entries : List (String × Json)}, entries ≠ [] →
    (∀ e ∈ entries, Scans e.2) → ∀ fuel rest,
      (separated (entries.map entryText)).length < fuel →
        scanEntries fuel (separated (entries.map entryText) ++ '\x7d' :: rest)
          = some (entries.map fun (k, v) => (escape k, v), rest)
  | [], hne, _, _, _, _ => absurd rfl hne
  | [e], _, hscans, fuel + 1, rest, hfuel => by
    have he := scanEntries_entry (hscans e List.mem_cons_self) (Nat.lt_succ_iff.1 hfuel)
      (numberEnds_cons (c := '\x7d') (by decide) rest)
    rw [List.map_cons, List.map_nil, separated, he, scanBehind, skip_cons rfl]
    rfl
  | e :: g :: entries, _, hscans, fuel + 1, rest, hfuel => by
    simp only [List.map_cons, separated, List.length_append, List.length_cons] at hfuel
    have hshort : (entryText e).length ≤ fuel := by omega
    have he := scanEntries_entry (hscans e List.mem_cons_self) hshort
      (numberEnds_cons (c := ',') (by decide)
        (separated ((g :: entries).map entryText) ++ '\x7d' :: rest))
    have hentries := scanEntries_chars (List.cons_ne_nil g entries)
      (fun i hi => hscans i (List.mem_cons_of_mem _ hi)) fuel rest (by
        rw [List.map_cons]
        omega)
    rw [List.map_cons, List.map_cons, separated, ← List.map_cons, List.append_assoc,
      List.cons_append, he, scanBehind, skip_cons rfl]
    · change (scanEntries fuel _).map _ = _
      rw [hentries]
      rfl
    · exact fun h => List.cons_ne_nil _ _ (List.map_eq_nil_iff.1 h)

/-! ## Whole documents -/

theorem exists_separated_eq (part : List Char) (parts : List (List Char)) :
    ∃ tail, separated (part :: parts) = part ++ tail := by
  cases parts with
  | nil => exact ⟨[], by rw [separated, List.append_nil]⟩
  | cons other parts =>
    refine ⟨',' :: separated (other :: parts), ?_⟩
    rw [separated]
    simp

/-- The characters of a plain document are read as that document. -/
theorem Plain.scans {j : Json} (h : Plain j) : Scans j := by
  induction h with
  | null =>
    rintro (_ | fuel) rest hfuel -
    · exact absurd hfuel (by decide)
    · rfl
  | bool b =>
    cases b
    all_goals
      rintro (_ | fuel) rest hfuel -
      · exact absurd hfuel (by decide)
      · rfl
  | number hw => exact scans_number hw
  | text s => exact scans_text s
  | @array items hitems ih =>
    rintro (_ | fuel) rest hfuel -
    · exact absurd hfuel (by rw [chars_array]; simp)
    rw [chars_array, List.length_cons, List.length_append, List.length_singleton] at hfuel
    rw [chars_array, List.cons_append, List.append_assoc, List.singleton_append, scan,
      skip_cons rfl]
    cases items with
    | nil => rfl
    | cons j items =>
      have hread := scanItems_chars (List.cons_ne_nil j items) ih fuel rest (by omega)
      obtain ⟨c, cs, hc, hspace, hend⟩ := (hitems j List.mem_cons_self).exists_chars_eq_cons
      obtain ⟨tail, htail⟩ := exists_separated_eq (chars j) (items.map chars)
      rw [List.map_cons, htail, hc, List.cons_append, List.cons_append] at hread ⊢
      simp only [skip_cons hspace]
      split
      · cases ‹c :: _ = _›
        exact absurd rfl hend
      · rw [hread, Option.map_some]
  | @object entries hentries ih =>
    rintro (_ | fuel) rest hfuel -
    · exact absurd hfuel (by rw [chars_ofEntries]; simp)
    rw [chars_ofEntries, List.length_cons, List.length_append, List.length_singleton] at hfuel
    rw [chars_ofEntries, List.cons_append, List.append_assoc, List.singleton_append, scan,
      skip_cons rfl]
    cases entries with
    | nil => rfl
    | cons e entries =>
      have hread := scanEntries_chars (List.cons_ne_nil e entries) ih fuel rest (by omega)
      obtain ⟨tail, htail⟩ := exists_separated_eq (entryText e) (entries.map entryText)
      rw [List.map_cons, htail, entryText, List.cons_append, List.cons_append,
        List.cons_append] at hread ⊢
      simp only [skip_cons (show isSpace '"' = false from rfl)]
      change (scanEntries fuel _).map _ = _
      rw [hread]
      rfl

/-- The text of a plain document is read back as that document. -/
theorem parse_render {j : Json} (h : Plain j) : parse? j.render = some j := by
  have hscan := h.scans ((chars j).length + 1) [] (Nat.le_succ _) numberEnds_nil
  rw [List.append_nil] at hscan
  simp only [parse?, render, String.toList_ofList, hscan, Option.bind_eq_bind, Option.bind_some]
  rfl

end RecordGraph.Json
