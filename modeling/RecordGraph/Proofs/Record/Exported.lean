import RecordGraph.Proofs.JoinTree.Outputs
import RecordGraph.Proofs.Query.Load
import RecordGraph.Proofs.Schema.ColumnNames
import RecordGraph.Record.Export

/-!
# Exported records

A record is exported as one object of everything that it holds: its loaded columns by identifier,
its calculations and its loaded relations. Each of these three kinds gives names of its own, but
nothing keeps the kinds apart: a calculation may be called like a column, and a relation like both.
Of parts with one name only the last is left.

**Results.**
* `Unpacker.visit_tidy`, `Record.Built.child`: the calculations and relations of a loaded record
  are in order, at every place.
* `Record.Apart`, `Record.parts_nodup_iff`: the parts of an export have names of their own.
* `Record.Loaded.exported`: what stands under each name, and when no part is lost.
-/
namespace RecordGraph

/-! ## Objects in order -/

/-- The calculations of an object and of those below it are in order, each name once. -/
inductive Pending.Tidy : Pending → Prop where
  | intro {p : Pending} (calculations : p.calculations.Sorted)
      (children : ∀ objects ∈ p.children, ∀ q ∈ objects, q.Tidy) : p.Tidy

namespace Unpacker

mutual

/-- With a row added, objects stay in order. -/
theorem visit_tidy (row : Row) : ∀ (b : Branch) (objects : List Pending),
    (∀ p ∈ objects, p.Tidy) → ∀ p ∈ visit row b objects, p.Tidy
  | .node e children, objects, h, p, hp => by
    have hbelow := visitAll_tidy row children (children.map fun _ => []) fun objects hm q hq => by
      obtain ⟨_, -, rfl⟩ := List.mem_map.1 hm
      cases hq
    rw [visit] at hp
    split at hp
    · exact h p hp
    · simp only at hp
      cases hid : identity e row with
      | absent =>
        rw [hid] at hp
        exact h p hp
      | anonymous =>
        rw [hid] at hp
        rcases List.mem_append.1 hp with hp | hp
        · exact h p hp
        · obtain rfl := List.mem_singleton.1 hp
          exact .intro (NameMap.sorted_ofList _) hbelow
      | key k =>
        rw [hid] at hp
        rcases mem_merge hp with rfl | hp | ⟨q, hq, -, rfl⟩
        · exact .intro (NameMap.sorted_ofList _) hbelow
        · exact h p hp
        · obtain ⟨hcalculations, hchildren⟩ := h q hq
          exact .intro hcalculations (visitAll_tidy row children q.children hchildren)

theorem visitAll_tidy (row : Row) : ∀ (bs : List Branch) (lists : List (List Pending)),
    (∀ objects ∈ lists, ∀ p ∈ objects, p.Tidy) →
      ∀ objects ∈ visitAll row bs lists, ∀ p ∈ objects, p.Tidy
  | [], lists, h => by
    rw [visitAll]
    · exact h
    · intros
      contradiction
  | b :: bs, [], h => by
    rw [visitAll]
    · exact h
    · intros
      contradiction
  | b :: bs, objects :: rest, h => by
    rw [visitAll]
    intro objects' hm
    rcases List.mem_cons.1 hm with rfl | hm
    · exact visit_tidy row b objects (h objects List.mem_cons_self)
    · exact visitAll_tidy row bs rest (fun _ hr => h _ (List.mem_cons_of_mem _ hr)) objects' hm

end

theorem foldl_push_tidy (b : Branch) (rows : List Row) :
    ∀ p ∈ (rows.foldl push ⟨b, []⟩).objects, p.Tidy := by
  induction rows using List.reverseRecOn with
  | nil => exact fun _ hp => absurd hp List.not_mem_nil
  | append_singleton rows row ih =>
    rw [List.foldl_append]
    exact visit_tidy row _ _ ih

end Unpacker

/-- A record that is made of an object in order. -/
def Record.Built (r : Record) : Prop := ∃ b p, p.Tidy ∧ r = Unpacker.build b p

namespace Record

open Unpacker

theorem Built.calculations {r : Record} (h : r.Built) : r.calculations.Sorted := by
  obtain ⟨⟨e, children⟩, p, ⟨hcalculations, -⟩, rfl⟩ := h
  rw [build]
  exact hcalculations

theorem Built.slots {r : Record} (h : r.Built) : r.slots.Sorted := by
  obtain ⟨⟨e, children⟩, p, -, rfl⟩ := h
  rw [build]
  exact buildSlots_sorted NameMap.sorted_empty

/-- The records below a record that is built are built as well. -/
theorem Built.child {r : Record} (h : r.Built) {identifier : String} {i : Nat} {y : Record}
    (hy : r.child? identifier i = some y) : y.Built := by
  obtain ⟨⟨e, children⟩, p, ⟨-, hchildren⟩, rfl⟩ := h
  obtain ⟨slot, hs, hy⟩ := exists_slot_of_child? hy
  rw [build] at hs
  rcases buildSlots_cases hs with hs | ⟨b, objects, hm, -, hslot⟩
  · cases hs
  · obtain ⟨q, hq, rfl⟩ := List.mem_map.1 (Element.mem_of_slot? hslot (List.mem_of_getElem? hy))
    exact ⟨b, q, hchildren objects (List.of_mem_zip hm).2 q hq, rfl⟩

theorem Built.place {r : Record} (h : r.Built) {p : Place} {x : Record} (hx : r.at? p = some x) :
    x.Built := by
  induction p generalizing r with
  | nil =>
    cases hx
    exact h
  | cons step p ih =>
    obtain ⟨y, hy, hx⟩ := at?_cons_eq_some_iff.1 hx
    exact ih (h.child hy) hx

theorem Loaded.built {s : Schema} {g : Record} (h : g.Loaded s) : g.Built := by
  obtain ⟨q, t, rows, -, -, hg⟩ := h
  obtain ⟨p, hp, rfl⟩ := List.mem_map.1 hg
  exact ⟨_, p, foldl_push_tidy _ rows p hp, rfl⟩

end Record

/-! ## The parts of an export -/

/-- A loaded relation as a document: a record, none, or a list of records. -/
def Slot.toJson : Slot Record → Json
  | ⟨.one none, _⟩ => .null
  | ⟨.one (some r), _⟩ => r.toJson
  | ⟨.many rs, _⟩ => .array (rs.map Record.toJson)

namespace Record

theorem listToJson_eq (rs : List Record) : listToJson rs = rs.map toJson := by
  induction rs with
  | nil => rw [listToJson, List.map_nil]
  | cons r rest ih => rw [listToJson, ih, List.map_cons]

theorem slotEntries_eq (slots : List (String × Slot Record)) :
    slotEntries slots = slots.map fun e => (e.1, e.2.toJson) := by
  induction slots with
  | nil => rw [slotEntries, List.map_nil]
  | cons e rest ih =>
    obtain ⟨name, ⟨⟨_ | r⟩ | rs, modified⟩⟩ := e
    · rw [slotEntries, ih, List.map_cons, Slot.toJson]
    · rw [slotEntries, ih, List.map_cons, Slot.toJson]
    · rw [slotEntries, ih, List.map_cons, Slot.toJson, listToJson_eq]

/-- Everything that a record holds, under the names it is exported by. -/
def parts (r : Record) : List (String × Json) :=
  columnEntries r.table.columns r.values ++ r.calculations.entries.map (fun e => (e.1, e.2.toJson))
    ++ r.slots.entries.map fun e => (e.1, e.2.toJson)

theorem toJson_eq (r : Record) : r.toJson = .ofEntries (NameMap.ofList r.parts).entries := by
  obtain ⟨table, values, dirty, isNew, ⟨slots⟩, calculations⟩ := r
  rw [toJson, slotEntries_eq]
  rfl

/-- What the column with an identifier is exported as, if it is loaded. -/
def columnPart? (columns : List Column) (values : NameMap Value) (identifier : String) :
    Option Json :=
  (columns.find? (·.identifier == identifier)).bind fun c =>
    (values.find? c.name).map Value.toJson

/-- What is left under a name: the relation, or else the calculation, or else the column. -/
def part? (r : Record) (name : String) : Option Json :=
  ((r.slots.find? name).map Slot.toJson).or
    (((r.calculations.find? name).map Value.toJson).or (columnPart? r.table.columns r.values name))

/-- No loaded column is called like a calculation or a loaded relation, and no calculation like a
loaded relation. -/
structure Apart (r : Record) : Prop where
  calculation : ∀ c ∈ r.table.columns, r.values.contains c.name = true →
    r.calculations.contains c.identifier = false
  relation : ∀ c ∈ r.table.columns, r.values.contains c.name = true →
    r.slots.contains c.identifier = false
  both : ∀ name, r.calculations.contains name = true → r.slots.contains name = false

section

variable {r : Record}

theorem columnEntries_cons (c : Column) (columns : List Column) (values : NameMap Value) :
    columnEntries (c :: columns) values =
      ((values.find? c.name).map fun v => (c.identifier, v.toJson)).toList ++
        columnEntries columns values := by
  rw [columnEntries, columnEntries, List.filterMap_cons]
  cases values.find? c.name <;> rfl

/-- The parts of columns go by the identifiers of loaded columns. -/
theorem mem_columnEntries {columns : List Column} {values : NameMap Value} {name : String} :
    name ∈ (columnEntries columns values).map (·.1) ↔
      ∃ c ∈ columns, values.contains c.name = true ∧ c.identifier = name := by
  induction columns with
  | nil => simp [columnEntries]
  | cons c columns ih =>
    rw [columnEntries_cons, List.map_append, List.mem_append, ih, List.exists_mem_cons_iff,
      NameMap.contains]
    cases values.find? c.name with
    | none =>
      simp only [Option.map_none, Option.toList_none, List.map_nil, List.not_mem_nil, false_or,
        Option.isSome_none, Bool.false_eq_true, false_and]
    | some v =>
      simp only [Option.map_some, Option.toList_some, List.map_cons, List.map_nil,
        List.mem_singleton, Option.isSome_some, true_and]
      exact or_congr_left eq_comm

theorem columnEntries_nodup {columns : List Column} (h : (columns.map (·.identifier)).Nodup)
    (values : NameMap Value) : ((columnEntries columns values).map (·.1)).Nodup := by
  induction columns with
  | nil => exact List.nodup_nil
  | cons c columns ih =>
    obtain ⟨hne, hrest⟩ := List.nodup_cons.1 h
    rw [columnEntries_cons, List.map_append]
    cases values.find? c.name with
    | none => exact ih hrest
    | some v =>
      refine List.nodup_cons.2 ⟨fun hmem => ?_, ih hrest⟩
      obtain ⟨d, hd, -, heq⟩ := mem_columnEntries.1 hmem
      exact hne (List.mem_map.2 ⟨d, hd, heq⟩)

theorem lookup_columnEntries {columns : List Column} (h : (columns.map (·.identifier)).Nodup)
    (values : NameMap Value) (identifier : String) :
    (columnEntries columns values).lookup identifier = columnPart? columns values identifier := by
  induction columns with
  | nil => rfl
  | cons c columns ih =>
    obtain ⟨hne, hrest⟩ := List.nodup_cons.1 h
    rw [columnEntries_cons, List.lookup_append, ih hrest, columnPart?, columnPart?, List.find?_cons]
    by_cases heq : c.identifier = identifier
    · have hnone : columns.find? (·.identifier == identifier) = none :=
        List.find?_eq_none.2 fun d hd hid =>
          hne (List.mem_map.2 ⟨d, hd, (beq_iff_eq.1 hid).trans heq.symm⟩)
      rw [hnone, heq, beq_self_eq_true]
      cases hv : values.find? c.name with
      | none => simp [hv]
      | some v => simp [hv]
    · have hne' : (identifier == c.identifier) = false := beq_eq_false_iff_ne.2 (Ne.symm heq)
      rw [beq_eq_false_iff_ne.2 heq]
      cases values.find? c.name with
      | none => rfl
      | some v => simp [List.lookup_cons, hne']

variable (hcolumns : (r.table.columns.map (·.identifier)).Nodup)
  (hcalculations : r.calculations.Sorted) (hslots : r.slots.Sorted)
include hcolumns hcalculations hslots

/-- The parts have names of their own when the kinds are apart, and only then. -/
theorem parts_nodup_iff : (r.parts.map (·.1)).Nodup ↔ r.Apart := by
  have hnames {α : Type} (f : α → Json) (m : NameMap α) :
      (m.entries.map fun e => (e.1, f e.2)).map (·.1) = m.entries.map (·.1) := List.map_map
  rw [parts, List.map_append, List.map_append, hnames, hnames, List.nodup_append,
    List.nodup_append]
  constructor
  · rintro ⟨⟨-, -, hcalculation⟩, -, hrelation⟩
    have hloaded {c : Column} (hc : c ∈ r.table.columns) (hv : r.values.contains c.name = true) :
        c.identifier ∈ (columnEntries r.table.columns r.values).map (·.1) :=
      mem_columnEntries.2 ⟨c, hc, hv, rfl⟩
    refine ⟨fun c hc hv => ?_, fun c hc hv => ?_, fun name hname => ?_⟩ <;>
      refine Bool.eq_false_iff.2 fun hother => ?_
    · exact hcalculation _ (hloaded hc hv) _ (NameMap.contains_iff.1 hother) rfl
    · exact hrelation _ (List.mem_append_left _ (hloaded hc hv)) _ (NameMap.contains_iff.1 hother)
        rfl
    · exact hrelation _ (List.mem_append_right _ (NameMap.contains_iff.1 hname)) _
        (NameMap.contains_iff.1 hother) rfl
  · rintro ⟨hcalculation, hrelation, hboth⟩
    refine ⟨⟨columnEntries_nodup hcolumns _, hcalculations.nodup, ?_⟩, hslots.nodup, ?_⟩
    · rintro _ hname _ hk rfl
      obtain ⟨c, hc, hv, rfl⟩ := mem_columnEntries.1 hname
      exact Bool.eq_false_iff.1 (hcalculation c hc hv) (NameMap.contains_iff.2 hk)
    · rintro name hname _ hs rfl
      have hs := NameMap.contains_iff.2 hs
      rcases List.mem_append.1 hname with hname | hk
      · obtain ⟨c, hc, hv, rfl⟩ := mem_columnEntries.1 hname
        exact Bool.eq_false_iff.1 (hrelation c hc hv) hs
      · exact Bool.eq_false_iff.1 (hboth name (NameMap.contains_iff.2 hk)) hs

/-- Of parts with one name the last one is left. -/
theorem find?_parts (name : String) : (NameMap.ofList r.parts).find? name = r.part? name := by
  have hlookup {α : Type} (f : α → Json) {m : NameMap α} (hm : m.Sorted) :
      (m.entries.map fun e => (e.1, f e.2)).reverse.lookup name = (m.find? name).map f := by
    rw [NameMap.lookup_reverse (by rw [List.map_map]; exact hm.nodup), NameMap.lookup_map]
    rfl
  rw [NameMap.ofList, NameMap.find?_foldl_insert_eq, parts, List.reverse_append,
    List.reverse_append, List.lookup_append, List.lookup_append, hlookup _ hslots,
    hlookup _ hcalculations, NameMap.lookup_reverse (columnEntries_nodup hcolumns _),
    lookup_columnEntries hcolumns, part?]
  exact Option.or_none

end

/-- **What an export keeps.** A record anywhere in a loaded graph is exported as an object with one
entry for each name that it holds something under: the relation of that name, else the calculation,
else the column. These entries are all that the record holds if columns, calculations and relations
go by different names, and only then. -/
theorem Loaded.exported {d : SchemaDecl} {s : Schema} (hs : Schema.ofDeclaration d = .ok s)
    {g x : Record} (hg : g.Loaded s) {p : Place} (hx : g.at? p = some x) :
    ∃ m : NameMap Json, x.toJson = .ofEntries m.entries ∧ m.Sorted ∧
      (∀ name, m.find? name = x.part? name) ∧ (m.entries.Perm x.parts ↔ x.Apart) := by
  have hsound := Schema.ofDeclaration_sound hs
  have hcolumns := (hsound.sound _ (hg.untouched hsound hx).mem).identifiers_nodup
  have hbuilt := hg.built.place hx
  exact ⟨_, toJson_eq x, NameMap.sorted_ofList _,
    find?_parts hcolumns hbuilt.calculations hbuilt.slots,
    (NameMap.entries_ofList_perm_iff _).trans
      (parts_nodup_iff hcolumns hbuilt.calculations hbuilt.slots)⟩

end Record

/-! ## An invoice and its total -/

namespace Invoices

variable {column : String}

/-- The invoice that is loaded: the key 1, the column 7, the calculation 12. -/
def loaded (column : String) : Except Error (Schema × Query × Record) := do
  let s ← Schema.ofDeclaration (declaration column)
  let q ← query column s
  let db := Script.connection .sqlite
  match (q.load db (Library.answers [[.int 1, .int 7, .int 12]])).1 with
  | .ok [r] => .ok (s, q, r)
  | _ => .error (.recordNotFound q.description)

theorem loaded_cases {s : Schema} {q : Query} {r : Record} (h : loaded column = .ok (s, q, r)) :
    Schema.ofDeclaration (declaration column) = .ok s ∧ q.Over s ∧
      (q.load (Script.connection .sqlite) (Library.answers [[.int 1, .int 7, .int 12]])).1 =
        .ok [r] := by
  obtain ⟨s', hs, h⟩ := bind_eq_ok_iff.1 h
  obtain ⟨q', hq, h⟩ := bind_eq_ok_iff.1 h
  dsimp only at h
  split at h
  · rename_i r' hload
    cases h
    exact ⟨hs, query_over hq, hload⟩
  · cases h

/-- An amount beside the total: the export has all three parts of the invoice. -/
theorem amount_exported : ∃ (s : Schema) (g : Record) (m : NameMap Json),
    Schema.ofDeclaration (declaration "amount") = .ok s ∧ g.Loaded s ∧ g.at? [] = some g ∧
      g.toJson = .ofEntries m.entries ∧ m.entries.Perm g.parts ∧ g.parts.length = 3 := by
  obtain ⟨⟨s, q, g⟩, hloaded, hnodup, hlength⟩ := exists_ok_of_decide (x := loaded "amount")
    (P := fun x => (x.2.2.parts.map (·.1)).Nodup ∧ x.2.2.parts.length = 3) (by cbv)
  obtain ⟨hs, hq, hload⟩ := loaded_cases hloaded
  have hg : g.Loaded s := QueryOf.load_loaded hq (Prod.ext hload rfl) List.mem_cons_self
  have hsound := Schema.ofDeclaration_sound hs
  have hx : g.at? [] = some g := rfl
  have happart : g.Apart := (Record.parts_nodup_iff
    (hsound.sound _ (hg.untouched hsound hx).mem).identifiers_nodup hg.built.calculations
    hg.built.slots).1 hnodup
  obtain ⟨m, hm, -, -, hkept⟩ := hg.exported hs hx
  exact ⟨s, g, m, hs, hg, hx, hm, hkept.2 happart, hlength⟩

/-- A column `total` is lost: the export of the invoice has the calculation in its place. -/
theorem total_lost : ∃ (d : SchemaDecl) (s : Schema) (q : Query) (g : Record),
    Schema.ofDeclaration d = .ok s ∧ q.Over s ∧
      (q.load (Script.connection .sqlite) (Library.answers [[.int 1, .int 7, .int 12]])).1 =
        .ok [g] ∧ (∃ c ∈ g.table.columns, c.identifier = "total" ∧
          g.values.find? c.name = some (.int 7)) ∧
            g.calculations.find? "total" = some (.int 12) ∧
              g.toJson.render = "\x7b\"id\":1,\"total\":12\x7d" := by
  obtain ⟨⟨s, q, g⟩, hloaded, hcolumn, htotal, htext⟩ := exists_ok_of_decide (x := loaded "total")
    (P := fun x => (∃ c ∈ x.2.2.table.columns, c.identifier = "total" ∧
      x.2.2.values.find? c.name = some (.int 7)) ∧
        x.2.2.calculations.find? "total" = some (.int 12) ∧
          x.2.2.toJson.render = "\x7b\"id\":1,\"total\":12\x7d") (by cbv)
  obtain ⟨hs, hq, hload⟩ := loaded_cases hloaded
  exact ⟨_, s, q, g, hs, hq, hload, hcolumn, htotal, htext⟩

end Invoices

end RecordGraph
