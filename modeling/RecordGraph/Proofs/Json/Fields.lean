import Mathlib.Data.List.Nodup
import RecordGraph.Json.Fields
import RecordGraph.Proofs.Json.Escaped
import RecordGraph.Proofs.Json.Integers
import RecordGraph.Proofs.Json.Rendered

/-!
# Structured content, written and read

`ReadsAs read j a`: a reader finds `a` in the document `j`, at every depth that the levels of `j`
leave open. Records, lists and alternatives are read from what `ofEntries`, `.array` and `ofText`
make of them, part by part.

* `Within.record`: a record is read field by field (`Fields.Holds.required`,
  `Fields.Holds.nullable`).
* `readsAs_list`, `Within.variant`, `readsAs_name`: lists, alternatives and names.
-/
namespace RecordGraph.Json

variable {α β : Type} {depth : Nat}

/-! ## Plain documents -/

namespace Plain

theorem nat (n : Nat) : Plain (ofNat n) := .int n

theorem map {f : α → Json} {items : List α} (h : ∀ a ∈ items, Plain (f a)) :
    Plain (.array (items.map f)) := .array (List.forall_mem_map.2 h)

theorem ofOption {f : α → Json} (h : ∀ a, Plain (f a)) : ∀ o : Option α, Plain (ofOption f o)
  | none => .null
  | some a => h a

/-- A record with plain fields. -/
theorem record {entries : List (String × Json)} (h : entries.Forall fun e => Plain e.2) :
    Plain (ofEntries entries) := .object (List.forall_iff_forall_mem.1 h)

end Plain

/-! ## Levels of nesting -/

mutual

/-- The levels of nesting that a document opens. -/
def levels : Json → Nat
  | .array items => levelsAll items + 1
  | .object entries => levelsEntries entries + 1
  | _ => 0

def levelsAll : List Json → Nat
  | [] => 0
  | j :: rest => max j.levels (levelsAll rest)

def levelsEntries : List (List Char × Json) → Nat
  | [] => 0
  | (_, j) :: rest => max j.levels (levelsEntries rest)

end

theorem levels_lt_array {items : List Json} {j : Json} (h : j ∈ items) :
    j.levels < (Json.array items).levels := by
  rw [levels]
  refine Nat.lt_succ_of_le ?_
  induction h with
  | head => exact Nat.le_max_left _ _
  | tail _ _ ih => exact Nat.le_trans ih (Nat.le_max_right _ _)

theorem levels_lt_ofEntries {entries : List (String × Json)} {name : String} {j : Json}
    (h : (name, j) ∈ entries) : j.levels < (ofEntries entries).levels := by
  rw [ofEntries_eq, levels]
  refine Nat.lt_succ_of_le ?_
  induction h with
  | head => exact Nat.le_max_left _ _
  | tail _ _ ih => exact Nat.le_trans ih (Nat.le_max_right _ _)

/-! ## Lengths -/

theorem length_le_separated {parts : List (List Char)} {part : List Char} (h : part ∈ parts) :
    part.length ≤ (separated parts).length := by
  fun_induction separated parts with
  | case1 => exact absurd h List.not_mem_nil
  | case2 first => rw [List.mem_singleton.1 h]
  | case3 first rest _ ih =>
    rw [List.length_append, List.length_cons]
    rcases List.mem_cons.1 h with rfl | h
    · omega
    · have := ih h
      omega

theorem length_parts_le (parts : List (List Char)) :
    parts.length ≤ (separated parts).length + 1 := by
  fun_induction separated parts with
  | case1 => exact Nat.zero_le _
  | case2 first => exact Nat.le_add_left 1 _
  | case3 first rest _ ih =>
    rw [List.length_append, List.length_cons, List.length_cons]
    omega

/-- A document that is read at a depth, with fewer than `2 ^ 64` characters. -/
structure Within (depth : Nat) (j : Json) : Prop where
  levels_lt : j.levels < depth
  length_lt : j.chars.length < 2 ^ 64

/-- The items of an array are read a level below. -/
theorem Within.array {items : List Json} (h : (Json.array items).Within depth) :
    enter? depth = some (depth - 1) ∧ ∀ j ∈ items, j.Within (depth - 1) := by
  obtain ⟨hlevels, hlength⟩ := h
  rw [chars_array, List.length_cons, List.length_append] at hlength
  refine ⟨if_neg (by rw [levels] at hlevels; omega), fun j hj => ⟨?_, ?_⟩⟩
  · have := levels_lt_array hj
    omega
  · have := length_le_separated (List.mem_map_of_mem (f := chars) hj)
    omega

/-- The content of an object is read a level below. -/
theorem Within.ofEntries {entries : List (String × Json)}
    (h : (Json.ofEntries entries).Within depth) :
    enter? depth = some (depth - 1) ∧ ∀ e ∈ entries, e.2.Within (depth - 1) := by
  obtain ⟨hlevels, hlength⟩ := h
  rw [chars_ofEntries, List.length_cons, List.length_append] at hlength
  refine ⟨if_neg (by rw [Json.ofEntries, levels] at hlevels; omega), fun e he => ⟨?_, ?_⟩⟩
  · have := levels_lt_ofEntries he
    omega
  · have := length_le_separated (List.mem_map_of_mem (f := entryText) he)
    rw [entryText] at this
    simp only [List.length_cons, List.length_append] at this
    omega

theorem Within.length_items_lt {items : List Json} (h : (Json.array items).Within depth) :
    items.length < 2 ^ 64 := by
  have hlength := h.length_lt
  rw [chars_array, List.length_cons, List.length_append] at hlength
  have := length_parts_le (items.map chars)
  rw [List.length_map] at this
  omega

/-! ## Readers -/

/-- The reader finds `a` in the document, wherever its levels are open. -/
def ReadsAs (read : Reader α) (j : Json) (a : α) : Prop :=
  ∀ depth, j.Within depth → read depth j = some a

theorem readsAs_text (s : String) : ReadsAs readText (ofText s) s := fun _ _ => spelled_escape s

theorem readsAs_bool (b : Bool) : ReadsAs readBool (.bool b) b := fun _ _ => rfl

theorem readsAs_uint64 (u : UInt64) : ReadsAs readUInt64 (ofNat u.toNat) u := fun _ _ => by
  rw [readUInt64, uint64_ofNat u.toNat_lt, UInt64.ofNat_toNat]

/-- A list is read item by item. -/
theorem readsAs_list {read : Reader α} {f : α → Json} {items : List α}
    (h : ∀ a ∈ items, ReadsAs read (f a) a) :
    ReadsAs (readList read) (.array (items.map f)) items := fun depth hwithin => by
  obtain ⟨henter, hinside⟩ := hwithin.array
  rw [List.forall_mem_map] at hinside
  simp only [readList, henter, Option.bind_eq_bind, Option.bind_some]
  clear henter hwithin
  generalize depth - 1 = inside at hinside
  induction items with
  | nil => rfl
  | cons a items ih =>
    have ha := h a List.mem_cons_self inside (hinside a List.mem_cons_self)
    have hitems := ih (fun b hb => h b (List.mem_cons_of_mem _ hb))
      fun b hb => hinside b (List.mem_cons_of_mem _ hb)
    simp only [List.map_cons, List.mapM_cons, ha, hitems, Option.bind_eq_bind, Option.bind_some]
    rfl

theorem variant_ofEntries (name : String) (content : Json) :
    variant? depth (Json.ofEntries [(name, content)])
      = (enter? depth).map fun inside => (name, some content, inside) := by
  rw [Json.ofEntries, List.map_cons, List.map_nil]
  cases h : enter? depth <;>
    simp only [variant?, h, spelled_escape, Option.bind_eq_bind, Option.bind_none,
      Option.bind_some, Option.map_none, Option.map_some]

/-- An alternative is its name and its content. -/
theorem Within.variant {name : String} {content : Json}
    (h : (Json.ofEntries [(name, content)]).Within depth) :
    variant? depth (Json.ofEntries [(name, content)]) = some (name, some content, depth - 1) ∧
      content.Within (depth - 1) := by
  obtain ⟨henter, hinside⟩ := h.ofEntries
  rw [variant_ofEntries, henter]
  exact ⟨rfl, hinside _ List.mem_cons_self⟩

theorem variant_ofText (name : String) :
    variant? depth (ofText name) = some (name, none, depth) := by
  simp only [ofText, variant?, spelled_escape, Option.bind_eq_bind, Option.bind_some]

theorem readsAs_name {ofName? : String → Option α} {name : String} {a : α}
    (h : ofName? name = some a) : ReadsAs (readName ofName?) (ofText name) a := fun _ _ => by
  simp only [readName, variant_ofText, Option.bind_eq_bind, Option.bind_some, h]

/-! ## Records -/

/-- Entries with known names, no name twice, are all found. -/
theorem knownEntries_eq {names : List String} : ∀ {entries : List (String × Json)}
    (found : List (String × Json)), (∀ e ∈ entries, e.1 ∈ names) →
      ((found ++ entries).map Prod.fst).Nodup →
        knownEntries? names (entries.map fun (k, v) => (escape k, v)) found
          = some (found ++ entries)
  | [], found, _, _ => by rw [List.map_nil, knownEntries?, List.append_nil]
  | (k, v) :: entries, found, hknown, hnodup => by
    obtain ⟨hk, hrest⟩ := List.forall_mem_cons.1 hknown
    have hfresh : ¬ found.any (·.1 == k) = true := by
      simp only [List.any_eq_true, beq_iff_eq, not_exists, not_and]
      rintro ⟨k', v'⟩ hmem rfl
      rw [List.map_append, List.nodup_append] at hnodup
      exact hnodup.2.2 k' (List.mem_map_of_mem (f := Prod.fst) hmem) k' List.mem_cons_self rfl
    have ih := knownEntries_eq (found ++ [(k, v)]) hrest (by
      rwa [List.append_assoc, List.singleton_append])
    rw [List.map_cons, knownEntries?, spelled_escape]
    simp only [Option.bind_eq_bind, Option.bind_some]
    rw [if_neg (by simpa using hk), if_neg hfresh, ih, List.append_assoc, List.singleton_append]

/-- What was found in an object with these entries. -/
structure Fields.Holds (f : Fields) (entries : List (String × Json)) : Prop where
  found : f.found = entries
  nodup : (entries.map Prod.fst).Nodup
  within : ∀ e ∈ entries, e.2.Within f.depth

/-- An object has the fields that its keys name. -/
theorem fields_ofEntries (entries : List (String × Json))
    (hnodup : (entries.map Prod.fst).Nodup) :
    fields? (entries.map Prod.fst) depth (ofEntries entries)
      = (enter? depth).map fun inside => ⟨entries, false, inside⟩ := by
  have hknown := knownEntries_eq [] (fun e he => List.mem_map_of_mem (f := Prod.fst) he) hnodup
  rw [List.nil_append] at hknown
  rw [ofEntries, fields?]
  cases enter? depth <;>
    simp only [hknown, Option.bind_eq_bind, Option.bind_none, Option.bind_some, Option.map_none,
      Option.map_some]

/-- A record is read once its fields are. -/
theorem Within.record {entries : List (String × Json)} (h : (Json.ofEntries entries).Within depth)
    (hnodup : (entries.map Prod.fst).Nodup) {read : Fields → Option β} {b : β}
    (hread : ∀ f : Fields, f.Holds entries → read f = some b) :
    (fields? (entries.map Prod.fst) depth (Json.ofEntries entries)).bind read = some b := by
  obtain ⟨henter, hinside⟩ := h.ofEntries
  rw [fields_ofEntries _ hnodup, henter]
  exact hread _ ⟨rfl, hnodup, hinside⟩

namespace Fields.Holds

variable {f : Fields} {entries : List (String × Json)} {name : String} {j : Json}

theorem get_eq (h : f.Holds entries) (hmem : (name, j) ∈ entries) : f.get? name = some j := by
  rw [Fields.get?, h.found]
  obtain ⟨e, he⟩ : ∃ e, entries.find? (·.1 == name) = some e :=
    Option.isSome_iff_exists.1 (List.find?_isSome.2 ⟨_, hmem, by simp⟩)
  have hname : e.1 = name := by simpa using List.find?_some he
  have heq : e = (name, j) :=
    List.inj_on_of_nodup_map h.nodup (List.mem_of_find?_eq_some he) hmem hname
  rw [he, heq, Option.map_some]

/-- A field is read by its name, and then what stands behind it. -/
theorem required (h : f.Holds entries) {read : Reader α} {a : α} {next : α → Option β} {b : β}
    (hmem : (name, j) ∈ entries) (hread : ReadsAs read j a) (hnext : next a = some b) :
    (f.required name read).bind next = some b := by
  rw [Fields.required, h.get_eq hmem, Option.bind_eq_bind, Option.bind_some,
    hread _ (h.within _ hmem), Option.bind_some, hnext]

/-- A field that may be null is read by its name. -/
theorem nullable (h : f.Holds entries) {read : Reader α} {g : α → Json} {o : Option α}
    {next : Option α → Option β} {b : β} (hmem : (name, ofOption g o) ∈ entries)
    (hne : ∀ a, g a ≠ .null) (hread : ∀ a, ReadsAs read (g a) a) (hnext : next o = some b) :
    (f.nullable name read).bind next = some b := by
  suffices hfield : f.nullable name read = some o by rw [hfield, Option.bind_some, hnext]
  rw [Fields.nullable, h.get_eq hmem]
  cases o with
  | none => rfl
  | some a =>
    have ha := hread a _ (h.within _ hmem)
    have hnotNull := hne a
    rw [ofOption]
    generalize g a = j at ha hnotNull
    cases j with
    | null => exact absurd rfl hnotNull
    | _ => exact congrArg (Option.map some) ha

end Fields.Holds

end RecordGraph.Json
