import RecordGraph.Proofs.JoinTree.Outputs
import RecordGraph.Proofs.Record.Lossless

/-!
# The records of one row

One row gives at most one record of every element. It gives one of an element just when it gives
one of each element on the way there and the row has an object of the element: by its key, where a
key is read, or else by anything that the element shows. What an element shows is then found in the
record that the path of the element leads to.

An element that shows nothing and reads no key has no object in any row, and what is below it is
lost with it. Only queries that are grouped or distinct have such elements.

* `JoinTree.alone`: the records of an element that one row gives.
* `Record.reached`: the records that a path leads to.
* `JoinTree.nothing_lost`: every value is found where the elements on the way to it are.
* `Library.exists_label_lost`: a value behind an element that shows nothing.
-/
namespace RecordGraph

theorem Value.isNull_iff {v : Value} : v.isNull = true ↔ v = .null := by
  cases v <;> simp [isNull]

namespace Unpacker

/-- Without objects so far, a row gives each branch its own objects. -/
theorem visitAll_fresh (row : Row) (bs : List Branch) :
    visitAll row bs (bs.map fun _ => []) = bs.map fun b => visit row b [] := by
  induction bs with
  | nil => rfl
  | cons b bs ih => rw [List.map_cons, visitAll, ih, List.map_cons]

/-- The first row with an object of an element makes it. -/
theorem visit_fresh {row : Row} {e : Element} (children : List Branch)
    (hm : e.materialized = true) (hi : identity e row ≠ .absent) : ∃ key,
      visit row (.node e children) [] = [⟨key, e.valuesIn row, e.calculationsIn row,
        children.map fun b => visit row b []⟩] := by
  rw [visit, hm]
  simp only [Bool.not_true, Bool.false_eq_true, if_false, visitAll_fresh]
  cases hid : identity e row with
  | absent => exact absurd hid hi
  | anonymous => exact ⟨none, rfl⟩
  | key k => exact ⟨some k, rfl⟩

/-- The relations of an object are those of its branches that give objects. -/
theorem buildSlots_map (f : Branch → List Pending) : ∀ (bs : List Branch)
    (acc : NameMap (Slot Record)), buildSlots bs (bs.map f) acc =
      ((bs.filter (·.element.materialized)).filterMap fun b =>
        b.element.slot? ((f b).map (build b))).foldl (fun m s => m.insert s.1 s.2) acc
  | [], _ => rfl
  | b :: bs, acc => by
    rw [List.map_cons, buildSlots, buildSlots_map, attach_eq]
    by_cases hm : b.element.materialized = true
    · rw [if_pos hm, List.filter_cons, if_pos hm, List.filterMap_cons]
      cases b.element.slot? ((f b).map (build b)) <;> rfl
    · rw [if_neg hm, List.filter_cons, if_neg hm]

/-- A row has an object of an element by its key, or without one by what the element shows. -/
theorem identity_ne_absent {e : Element} {row : Row}
    (hkey : ∀ c, e.emittedKey? = some c → ∃ v, row.get? c.label = some v ∧ v ≠ .null)
    (hshown : e.emittedKey? = none → e.parent = none ∨ e.isEmptyIn row = false) :
    identity e row ≠ .absent := by
  cases he : e.emittedKey? with
  | some c =>
    obtain ⟨v, hv, hne⟩ := hkey c he
    obtain ⟨k, hk⟩ := Value.exists_key hne
    simp [identity, he, hv, hk]
  | none =>
    rcases hshown he with h | h <;> simp [identity, he, h]

end Unpacker

namespace Record

/-- The records one hop further. -/
def step (r : Record) : Hop → List Record
  | .table _ _ => []
  | .reference identifier | .reverse identifier | .manyMany identifier => r.related identifier

/-- The records that hops lead to. -/
def reached (r : Record) (hops : Path) : List Record :=
  hops.foldl (fun rs hop => rs.flatMap (·.step hop)) [r]

theorem reached_snoc (r : Record) (hops : Path) (hop : Hop) :
    r.reached (hops ++ [hop]) = (r.reached hops).flatMap (·.step hop) := by
  rw [reached, List.foldl_append]; rfl

theorem step_eq {r : Record} {relation : Relation} {hop : Hop} {identifier : String}
    (hh : relation.hop? = some hop) (hi : relation.identifier? = some identifier) :
    r.step hop = r.related identifier := by
  cases relation <;> cases hh <;> cases hi <;> rfl

end Record

namespace Output

/-- The element of an output. -/
def element : Output → Element
  | .column e _ => e
  | .calculation e _ => e

/-- An output is the key of its element. -/
def isKey : Output → Bool
  | .column _ c => c.column.primaryKey
  | .calculation _ _ => false

/-- What a record holds of an output. -/
def shownBy : Output → Record → Option Value
  | .column _ c, r => r.values.find? c.column.name
  | .calculation _ k, r => r.calculations.find? k.name

end Output

namespace JoinTree

/-- The records of an element that one row gives. -/
def alone (t : JoinTree) (row : Row) (e : Element) : List Record :=
  (Unpacker.visit row (t.branchAt e) []).map (Unpacker.build (t.branchAt e))

/-- The outputs with their values in a row. -/
def cells (t : JoinTree) (row : Row) : List (Output × Value) := t.outputs.zip row.values

/-- Where an element shows anything but null, the keys on the way there are not null. -/
def KeysShown (t : JoinTree) (row : Row) : Prop :=
  ∀ p ∈ t.cells row, p.2 ≠ .null → ∀ k ∈ t.cells row, k.1.isKey = true →
    k.1.element.path <+: p.1.element.path → k.2 ≠ .null

/-- Where an element shows anything but null, so does every element without a key on the way
there. -/
def WaysShown (t : JoinTree) (row : Row) : Prop :=
  ∀ p ∈ t.cells row, p.2 ≠ .null → ∀ a ∈ t.rest, a.path <+: p.1.element.path →
    a.emittedKey?.isNone = true → ∃ w ∈ t.cells row, w.1.element.path = a.path ∧ w.2 ≠ .null

instance (t : JoinTree) (row : Row) : Decidable (t.KeysShown row) :=
  inferInstanceAs (Decidable (∀ p ∈ t.cells row, p.2 ≠ .null → ∀ k ∈ t.cells row,
    k.1.isKey = true → k.1.element.path <+: p.1.element.path → k.2 ≠ .null))

instance (t : JoinTree) (row : Row) : Decidable (t.WaysShown row) :=
  inferInstanceAs (Decidable (∀ p ∈ t.cells row, p.2 ≠ .null → ∀ a ∈ t.rest,
    a.path <+: p.1.element.path → a.emittedKey?.isNone = true →
      ∃ w ∈ t.cells row, w.1.element.path = a.path ∧ w.2 ≠ .null))

variable {s : Schema} {lead : String} {q : Query} {t : JoinTree} {row : Row}

theorem mem_outputs {o : Output} : o ∈ t.outputs ↔ o.element ∈ t.elements ∧ match o with
    | .column e c => c ∈ e.emitted
    | .calculation e k => k ∈ e.calculations := by
  cases o <;> simp [outputs, Output.element]

/-- What is on the way to an output gives objects. -/
theorem compile_materialized {projection : Projection} (h : compile projection lead q = .ok t)
    {o : Output} (ho : o ∈ t.outputs) {a : Element} (ha : a ∈ t.elements)
    (hp : a.path <+: o.element.path) : a.materialized = true := by
  obtain ⟨r, keys, hr, -, -, ht⟩ := compile_cases h
  obtain ⟨_, -, -, hc, -⟩ := Reads.ofQuery?_adds hr
  obtain ⟨k, hk, rfl⟩ := (mem_elements ht).1 ha
  have hne := Reads.path_ne_nil hc hk
  obtain ⟨he, hshown⟩ := mem_outputs.1 ho
  obtain ⟨j, hj, hje⟩ := (mem_elements ht).1 he
  refine Reads.materialized_of_isPrefix hc ?_ hp hne
  cases o with
  | column e c =>
    obtain rfl : r.element lead keys j = e := hje
    obtain ⟨hc', hemitted⟩ := List.mem_filter.1 hshown
    obtain ⟨d, -, rfl⟩ := List.mem_map.1 hc'
    rcases Bool.or_eq_true_iff.1 hemitted with hsel | hkey
    · obtain ⟨x, hx, hx'⟩ := List.any_eq_true.1 hsel
      simp only [Bool.and_eq_true, beq_iff_eq] at hx'
      refine Reads.materialized_iff.2 (.inr (.inl ⟨x, hx, hx'.1.1, ?_⟩))
      rw [hx'.1.2]
      exact List.prefix_rfl
    · exact (Bool.and_eq_true_iff.1 hkey).2
  | calculation e k =>
    obtain rfl : r.element lead keys j = e := hje
    obtain ⟨d, hd, rfl⟩ := List.mem_map.1 hshown
    obtain ⟨hd, hpath⟩ := List.mem_filter.1 hd
    refine Reads.materialized_iff.2 (.inr (.inr ⟨d, hd, ?_⟩))
    rw [beq_iff_eq.1 hpath]
    exact List.prefix_rfl

/-! ## One row -/

section
variable (hl : t.Linked lead) {e : Element}
include hl

omit hl in
theorem records_singleton (row : Row) : Unpacker.records t [row] = t.alone row t.root := by
  have hroot : t.branch = t.branchAt t.root := rfl
  rw [Unpacker.records, List.foldl_cons, List.foldl_nil, Unpacker.push, Unpacker.finish,
    Unpacker.start, hroot, alone]

/-- The one record that a row gives of an element, with its relations. -/
theorem alone_eq (hm : e.materialized = true) (hi : Unpacker.identity e row ≠ .absent) :
    t.alone row e = [e.groupRecord [row] (((t.childrenOf e).filter (·.materialized)).filterMap
      fun c => c.slot? (t.alone row c))] := by
  rw [alone, branchAt_eq hl]
  obtain ⟨key, hv⟩ := Unpacker.visit_fresh ((t.childrenOf e).map t.branchAt) hm hi
  rw [hv, List.map_singleton, Unpacker.build, Unpacker.buildSlots_map]
  simp only [List.filter_map, List.filterMap_map, Function.comp_def, element_branchAt hl]
  rfl

end

/-- The record of an element is what the path of the element leads to. -/
theorem exists_reached (h : compile .objects lead q = .ok t) (hn : t.Named) {e : Element}
    (he : e ∈ t.elements) (hway : ∀ a ∈ t.elements, a.path <+: e.path →
      a.materialized = true ∧ Unpacker.identity a row ≠ .absent) :
    ∃ root ∈ Unpacker.records t [row], ∃ r ∈ root.reached e.path.tail, t.alone row e = [r] := by
  have hl := compile_linked h
  obtain ⟨rs, keys, hr, -, hroot, ht⟩ := compile_cases h
  obtain ⟨_, -, -, hc, -⟩ := Reads.ofQuery?_adds hr
  rw [records_singleton]
  -- from the root down
  induction hid : e.id using Nat.strongRecOn generalizing e with
  | ind n ih =>
    obtain ⟨hm, hi⟩ := hway e he List.prefix_rfl
    have halone := alone_eq hl hm hi
    rcases List.mem_cons.1 he with rfl | hrest
    · have htail : t.root.path.tail = [] := by
        have hlen : t.root.path.length = 1 := by rw [hroot]; exact hc.root_length
        exact List.length_eq_zero_iff.1 (by rw [List.length_tail, hlen])
      rw [halone, htail]
      exact ⟨_, List.mem_singleton_self _, _, List.mem_singleton_self _, rfl⟩
    · obtain ⟨p, hp, hpp, hlt, hop, hhop, hpath⟩ := hl.parent e hrest
      have hpne : p.path ≠ [] := by
        obtain ⟨j, hj, rfl⟩ := (mem_elements ht).1 hp
        exact Reads.path_ne_nil hc hj
      obtain ⟨root, hrm, x, hx, hxa⟩ := ih p.id (hid ▸ hlt) hp (fun a ha hap =>
        hway a ha (hap.trans (hpath ▸ List.prefix_append _ _))) rfl
      obtain ⟨hpm, hpi⟩ := hway p hp (hpath ▸ List.prefix_append _ _)
      have hchild : e ∈ t.childrenOf p := List.mem_filter.2 ⟨he, beq_iff_eq.2 hpp⟩
      obtain ⟨identifier, hident⟩ := exists_identifier hl hp hchild
      -- the parent's record has the slot of `e`, with the one record of `e`
      have hrelated : x.related identifier = t.alone row e := by
        rw [alone_eq hl hpm hpi] at hxa
        obtain rfl := List.singleton_inj.1 hxa
        have hslot := find?_slots hl hn hp (t.alone row) hchild hm hident
        rw [Record.related, Record.relation?, Element.groupRecord, hslot, halone]
        cases e.relation.isPlural <;> rfl
      refine ⟨root, hrm, _, ?_, halone⟩
      rw [hpath, List.tail_append_of_ne_nil hpne, Record.reached_snoc]
      refine List.mem_flatMap.2 ⟨x, hx, ?_⟩
      rw [Record.step_eq hhop hident, hrelated, halone]
      exact List.mem_singleton_self _

/-! ## What one row shows -/

/-- With different labels, what a row holds of an output is found under its label. -/
theorem get?_of_mem_cells (hrow : row.cells.map (·.1) = t.outputs.map Output.label)
    (hnd : (t.outputs.map Output.label).Nodup) {p : Output × Value} (hp : p ∈ t.cells row) :
    row.get? p.1.label = some p.2 := by
  obtain ⟨i, hi⟩ := List.getElem?_of_mem hp
  obtain ⟨ho, hv⟩ := List.getElem?_zip_eq_some.1 hi
  have hlabel : (t.outputs.map Output.label)[i]? = some p.1.label := by
    rw [List.getElem?_map, ho, Option.map_some]
  obtain ⟨v, hv', hget⟩ := Row.exists_at hrow hnd hlabel
  rw [hv] at hv'
  cases hv'
  exact hget

/-- Every output has a place in a row. -/
theorem exists_mem_cells (hrow : row.cells.map (·.1) = t.outputs.map Output.label) {o : Output}
    (ho : o ∈ t.outputs) : ∃ v, (o, v) ∈ t.cells row := by
  have hlen : t.outputs.length = row.values.length := by
    have := congrArg List.length hrow
    rw [List.length_map, List.length_map] at this
    rw [Row.values, List.length_map, this]
  obtain ⟨i, hi⟩ := List.getElem?_of_mem ho
  have hlt := (List.getElem?_eq_some_iff.1 hi).1
  exact ⟨row.values[i], List.mem_of_getElem? (i := i) (List.getElem?_zip_eq_some.2
    ⟨hi, List.getElem?_eq_getElem (hlen ▸ hlt)⟩)⟩

section
variable (h : compile .objects lead q = .ok t) (hnd : (t.outputs.map Output.label).Nodup)
  (hrow : row.cells.map (·.1) = t.outputs.map Output.label)
include h hnd hrow

/-- The row has an object of every element on the way to what it shows. -/
theorem identity_ne_absent_of_shown (hkeys : t.KeysShown row) (hways : t.WaysShown row)
    {p : Output × Value} (hp : p ∈ t.cells row) (hv : p.2 ≠ .null) {a : Element}
    (ha : a ∈ t.elements) (hap : a.path <+: p.1.element.path) :
    Unpacker.identity a row ≠ .absent := by
  refine Unpacker.identity_ne_absent (fun c hc => ?_) fun hnone => ?_
  · have hmem := List.mem_of_find?_eq_some hc
    obtain ⟨k, hk⟩ := exists_mem_cells hrow (mem_outputs.2 ⟨ha, hmem⟩ : .column a c ∈ t.outputs)
    have hprimary : c.column.primaryKey = true := by simpa using List.find?_some hc
    exact ⟨k, get?_of_mem_cells hrow hnd hk, hkeys p hp hv _ hk hprimary hap⟩
  · rcases List.mem_cons.1 ha with rfl | hrest
    · exact .inl (compile_linked h).root.2
    · refine .inr ?_
      obtain ⟨w, hw, hwp, hwv⟩ := hways p hp hv a hrest hap (by rw [hnone]; rfl)
      have hget := get?_of_mem_cells hrow hnd hw
      have hout := (List.of_mem_zip hw).1
      obtain ⟨he, hshown⟩ := mem_outputs.1 hout
      have hwa : w.1.element = a := List.inj_on_of_nodup_map (compile_nodup h) he ha hwp
      refine Bool.eq_false_iff.2 fun hempty => ?_
      rw [Element.isEmptyIn, List.all_eq_true] at hempty
      have hlabel : w.1.label ∈ a.emitted.map (·.label) ++ a.calculations.map (·.label) := by
        obtain ⟨o, v⟩ := w
        cases o with
        | column e c =>
          obtain rfl : e = a := hwa
          exact List.mem_append_left _ (List.mem_map_of_mem hshown)
        | calculation e k =>
          obtain rfl : e = a := hwa
          exact List.mem_append_right _ (List.mem_map_of_mem hshown)
      have hnull := hempty _ hlabel
      rw [hget] at hnull
      exact hwv (Value.isNull_iff.1 hnull)

end

/-- The record of an element holds what the row shows of it, if names settle what it is. -/
theorem shownBy_groupRecord {o : Output} (ho : o ∈ t.outputs)
    (hcolumns : (o.element.emitted.map (·.column.name)).Nodup)
    (hcalculations : (o.element.calculations.map (·.name)).Nodup) {v : Value}
    (hget : row.get? o.label = some v) (slots : List (String × Slot Record)) :
    o.shownBy (o.element.groupRecord [row] slots) = some v := by
  have hshown := (mem_outputs.1 ho).2
  cases o with
  | column e c => exact Element.find?_valuesIn hcolumns hshown hget
  | calculation e k => exact Element.find?_calculationsIn hcalculations hshown hget

theorem shownBy_alone (hn : t.Named) {o : Output} (ho : o ∈ t.outputs) {v : Value}
    (hget : row.get? o.label = some v) (slots : List (String × Slot Record)) :
    o.shownBy (o.element.groupRecord [row] slots) = some v :=
  have he := (mem_outputs.1 ho).1
  shownBy_groupRecord ho (hn.columns _ he) (hn.calculations _ he) hget slots

/-- Where whole objects are read, every element on the way to an output has a key. -/
theorem Keyed.waysShown (hk : t.Keyed) (h : compile .objects lead q = .ok t) (row : Row) :
    t.WaysShown row := by
  intro p hp _ a ha hap hnone
  have ha := List.mem_cons_of_mem t.root ha
  obtain ⟨c, hc, -⟩ := hk a ha (compile_materialized h (List.of_mem_zip hp).1 ha hap)
  rw [hc] at hnone
  cases hnone

/-- **Nothing is lost.** One row gives a record that holds each value which the row shows, where the
path of the value's element leads to: if labels are different, the keys on the way are not null,
and the elements without a key on the way show something themselves. -/
theorem nothing_lost {d : SchemaDecl} (hs : Schema.ofDeclaration d = .ok s) (hq : q.Over s)
    (h : compile .objects lead q = .ok t)
    (hrow : row.cells.map (·.1) = t.outputs.map Output.label) (hapart : t.NamesApart)
    (hkeys : t.KeysShown row) (hways : t.WaysShown row) :
    ∀ p ∈ t.cells row, p.2 ≠ .null → ∃ root ∈ Unpacker.records t [row],
      ∃ r ∈ root.reached p.1.element.path.tail, p.1.shownBy r = some p.2 := by
  intro p hp hv
  have hl := compile_linked h
  have hn := (compile_over hq h).named (Schema.ofDeclaration_sound hs) hl (compile_nodup h)
  have hnd := (labels_nodup_iff hq h).2 hapart
  have ho := (List.of_mem_zip hp).1
  have hway : ∀ a ∈ t.elements, a.path <+: p.1.element.path →
      a.materialized = true ∧ Unpacker.identity a row ≠ .absent := fun a ha hap =>
    ⟨compile_materialized h ho ha hap,
      identity_ne_absent_of_shown h hnd hrow hkeys hways hp hv ha hap⟩
  have he := (mem_outputs.1 ho).1
  obtain ⟨root, hroot, r, hr, halone⟩ := exists_reached h hn he hway
  obtain ⟨hm, hi⟩ := hway _ he List.prefix_rfl
  rw [alone_eq hl hm hi] at halone
  obtain rfl := List.singleton_inj.1 halone
  exact ⟨root, hroot, _, hr, shownBy_alone hn ho (get?_of_mem_cells hrow hnd hp) _⟩

end JoinTree

/-! ## Labels of tags, without keys -/

namespace Library

/-- The labels of all tags, distinct, with something else of the authors. -/
def labels (links : List Link) (s : Schema) : Except Error Query := do
  let authors ← node s []
  let shown ← node s links
  let label ← node s [.reverse "books", .manyMany "tags", .column "label"]
  .ok { QueryOf.all authors with selects := [shown, label], distinct := true }

def labelTree (links : List Link) : Except Error (Schema × Query × JoinTree) := do
  let s ← Schema.ofDeclaration declaration
  let q ← labels links s
  let t ← JoinTree.compile .objects "" q
  .ok (s, q, t)

/-- A row of the result. -/
def labelRow (t : JoinTree) (shown : String) : Row :=
  ⟨(t.outputs.map Output.label).zip [.text shown, .text "poetry"]⟩

/-- A check of the joins, if there are any. -/
def labelCheck (links : List Link) (check : JoinTree → Bool) : Bool :=
  match labelTree links with
  | .ok (_, _, t) => check t
  | .error _ => false

variable {links : List Link} {s : Schema} {q : Query} {t : JoinTree}

theorem labels_over (h : labels links s = .ok q) : q.Over s := by
  obtain ⟨authors, h1, h⟩ := bind_eq_ok_iff.1 h
  obtain ⟨shown, h2, h⟩ := bind_eq_ok_iff.1 h
  obtain ⟨label, h3, h⟩ := bind_eq_ok_iff.1 h
  cases h
  intro n hn
  simp only [QueryOf.nodes, QueryOf.all, List.map_nil, List.flatMap_nil, List.append_nil,
    List.nil_append, List.mem_cons, List.not_mem_nil, or_false] at hn
  rcases hn with rfl | rfl | rfl
  · exact node_over h1
  · exact node_over h2
  · exact node_over h3

theorem labelCheck_cases {check : JoinTree → Bool} (h : labelCheck links check = true) :
    ∃ s q t, Schema.ofDeclaration declaration = .ok s ∧ q.Over s ∧
      JoinTree.compile .objects "" q = .ok t ∧ check t = true := by
  unfold labelCheck at h
  split at h
  · rename_i s q t ht
    obtain ⟨s', h1, ht⟩ := bind_eq_ok_iff.1 ht
    obtain ⟨q', h2, ht⟩ := bind_eq_ok_iff.1 ht
    obtain ⟨t', h3, ht⟩ := bind_eq_ok_iff.1 ht
    cases ht
    exact ⟨s, q, t, h1, labels_over h2, h3, h⟩
  · cases h

/-- Beside the title of a book, the label of its tag is found. -/
theorem label_reached : ∃ s q t, Schema.ofDeclaration declaration = .ok s ∧ q.Over s ∧
    JoinTree.compile .objects "" q = .ok t ∧ (t.cells (labelRow t "Sea")).length = 2 ∧
      ∀ p ∈ t.cells (labelRow t "Sea"), p.2 ≠ .null →
        ∃ root ∈ Unpacker.records t [labelRow t "Sea"],
          ∃ r ∈ root.reached p.1.element.path.tail, p.1.shownBy r = some p.2 := by
  obtain ⟨s, q, t, hs, hq, ht, hcheck⟩ := labelCheck_cases (by cbv :
    labelCheck [.reverse "books", .column "title"] (fun t => decide
      (((labelRow t "Sea").cells.map (·.1) = t.outputs.map Output.label ∧ t.NamesApart) ∧
        (t.KeysShown (labelRow t "Sea") ∧ t.WaysShown (labelRow t "Sea")) ∧
          (t.cells (labelRow t "Sea")).length = 2)) = true)
  obtain ⟨⟨hrow, hapart⟩, ⟨hkeys, hways⟩, hlen⟩ := of_decide_eq_true hcheck
  exact ⟨s, q, t, hs, hq, ht, hlen, JoinTree.nothing_lost hs hq ht hrow hapart hkeys hways⟩

/-- A value of a row that none of the row's records shows where it belongs. -/
def lost (t : JoinTree) (row : Row) (p : Output × Value) : Bool :=
  p.2 != .null && (Unpacker.records t [row]).all fun root =>
    (root.reached p.1.element.path.tail).all fun r => p.1.shownBy r != some p.2

/-- Beside the name of an author, the label of a tag is lost: the book on the way to it shows
nothing. -/
theorem exists_label_lost : ∃ d s q t row, Schema.ofDeclaration d = .ok s ∧ q.Over s ∧
    JoinTree.compile .objects "" q = .ok t ∧
      (row.cells.map (·.1) = t.outputs.map Output.label ∧ t.NamesApart ∧ t.KeysShown row) ∧
        ∃ p ∈ t.cells row, p.2 ≠ .null ∧ ∀ root ∈ Unpacker.records t [row],
          ∀ r ∈ root.reached p.1.element.path.tail, p.1.shownBy r ≠ some p.2 := by
  obtain ⟨s, q, t, hs, hq, ht, hcheck⟩ := labelCheck_cases (by cbv :
    labelCheck [.column "name"] (fun t =>
      decide ((labelRow t "Ann").cells.map (·.1) = t.outputs.map Output.label ∧ t.NamesApart ∧
        t.KeysShown (labelRow t "Ann")) &&
          (t.cells (labelRow t "Ann")).any (lost t (labelRow t "Ann"))) = true)
  obtain ⟨hrow, hlost⟩ := Bool.and_eq_true_iff.1 hcheck
  obtain ⟨p, hp, hlost⟩ := List.any_eq_true.1 hlost
  simp only [lost, Bool.and_eq_true, bne_iff_ne, List.all_eq_true] at hlost
  exact ⟨declaration, s, q, t, labelRow t "Ann", hs, hq, ht, of_decide_eq_true hrow, p, hp, hlost⟩

end Library

end RecordGraph
