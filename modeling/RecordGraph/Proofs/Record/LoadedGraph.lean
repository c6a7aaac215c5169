import RecordGraph.Proofs.Record.Lossless
import RecordGraph.Proofs.Record.Places

/-!
# Loaded graphs

Whatever rows come in, and whether or not their keys are read, a record of a loaded graph stands for
a part of the rows: it shows the first of them, and all of them have its key. What stands below it
does so for parts of its own part.

**Results.**
* `Unpacker.StandsFor`: an object and the rows it stands for; `Unpacker.visit_standsFor` adds a row.
* `JoinTree.Loads`: a record that stands for rows, with what it shows and what its relations hold.
* `JoinTree.exists_loads`: so do the records of rows.
* `Record.Formed`: a loaded relation is one of the table, to one or to many as the table says.
-/
namespace RecordGraph

namespace Unpacker

mutual

/-- An object that shows the first of some rows, all of which have its key; one without a key stands
for one row. -/
def StandsFor : Branch → List Row → Pending → Prop
  | .node e children, rows, p =>
    (∃ row, rows.head? = some row ∧ p.values = e.valuesIn row) ∧
      ((∃ k, p.key = some k ∧ ∀ row ∈ rows, e.keyIn? row = some k) ∨
        p.key = none ∧ e.emittedKey? = none ∧ rows.length = 1) ∧
          AllStandFor children rows p.children

/-- The objects of every branch stand for some of the rows. -/
def AllStandFor : List Branch → List Row → List (List Pending) → Prop
  | b :: bs, rows, objects :: rest =>
    (∀ p ∈ objects, ∃ part, part ⊆ rows ∧ StandsFor b part p) ∧ AllStandFor bs rows rest
  | [], _, [] => True
  | _, _, _ => False

end

theorem AllStandFor.of_mem_zip : ∀ {bs : List Branch} {rows : List Row}
    {lists : List (List Pending)}, AllStandFor bs rows lists → ∀ {b objects},
      (b, objects) ∈ bs.zip lists → ∀ p ∈ objects, ∃ part, part ⊆ rows ∧ StandsFor b part p
  | b :: bs, rows, objects :: rest, h, b', objects', hm => by
    rw [AllStandFor] at h
    rcases List.mem_cons.1 hm with hm | hm
    · cases hm
      exact h.1
    · exact h.2.of_mem_zip hm

theorem allStandFor_nil (rows : List Row) : ∀ bs : List Branch,
    AllStandFor bs rows (bs.map fun _ => [])
  | [] => by rw [List.map_nil, AllStandFor]; trivial
  | b :: bs => by
    rw [List.map_cons, AllStandFor]
    exact ⟨fun _ hp => absurd hp List.not_mem_nil, allStandFor_nil rows bs⟩

/-- What identifies an object is the key that is read of it. -/
theorem keyIn?_of_identity {e : Element} {row : Row} {k : Key} (h : identity e row = .key k) :
    e.keyIn? row = some k := by
  unfold identity at h
  rw [Element.keyIn?]
  cases hc : e.emittedKey? with
  | none =>
    simp only [hc] at h
    split at h <;> cases h
  | some c =>
    simp only [hc] at h
    rw [Option.bind_some]
    cases hk : (row.get? c.label).bind Value.key? with
    | none =>
      simp only [hk] at h
      cases h
    | some k' =>
      simp only [hk] at h
      cases h
      rfl

theorem emittedKey?_of_identity {e : Element} {row : Row} (h : identity e row = .anonymous) :
    e.emittedKey? = none := by
  unfold identity at h
  cases hc : e.emittedKey? with
  | none => rfl
  | some c =>
    simp only [hc] at h
    split at h <;> cases h

theorem mem_merge {key : Key} {old : Pending → Pending} {fresh p : Pending} :
    ∀ {objects : List Pending}, p ∈ merge key old fresh objects →
      p = fresh ∨ p ∈ objects ∨ ∃ q ∈ objects, q.key = some key ∧ p = old q
  | [], h => .inl (List.mem_singleton.1 h)
  | q :: rest, h => by
    rw [merge] at h
    split at h
    · rename_i hq
      rcases List.mem_cons.1 h with rfl | h
      · exact .inr (.inr ⟨q, List.mem_cons_self, hq, rfl⟩)
      · exact .inr (.inl (List.mem_cons_of_mem _ h))
    · rcases List.mem_cons.1 h with rfl | h
      · exact .inr (.inl List.mem_cons_self)
      · rcases mem_merge h with h | h | ⟨q', hq', h⟩
        · exact .inl h
        · exact .inr (.inl (List.mem_cons_of_mem _ h))
        · exact .inr (.inr ⟨q', List.mem_cons_of_mem _ hq', h⟩)

mutual

/-- **One row more.** With a row added, the objects of a branch stand for some of all rows. -/
theorem visit_standsFor (row : Row) : ∀ (b : Branch) (rows : List Row) (objects : List Pending),
    (∀ p ∈ objects, ∃ part, part ⊆ rows ∧ StandsFor b part p) →
      ∀ p ∈ visit row b objects, ∃ part, part ⊆ rows ++ [row] ∧ StandsFor b part p
  | .node e children, rows, objects, h, p, hp => by
    have old : ∀ p ∈ objects, ∃ part, part ⊆ rows ++ [row] ∧ StandsFor (.node e children) part p :=
      fun p hp => (h p hp).imp fun _ hpart => ⟨List.subset_append_of_subset_left _ hpart.1, hpart.2⟩
    have hrow : [row] ⊆ rows ++ [row] := List.subset_append_right _ _
    have hbelow := visitAll_standsFor row children [] _ (allStandFor_nil [] children)
    rw [visit] at hp
    split at hp
    · exact old p hp
    · simp only at hp
      cases hid : identity e row with
      | absent =>
        rw [hid] at hp
        exact old p hp
      | anonymous =>
        rw [hid] at hp
        rcases List.mem_append.1 hp with hp | hp
        · exact old p hp
        · obtain rfl := List.mem_singleton.1 hp
          refine ⟨[row], hrow, ?_⟩
          rw [StandsFor]
          exact ⟨⟨row, rfl, rfl⟩, .inr ⟨rfl, emittedKey?_of_identity hid, rfl⟩, hbelow⟩
      | key k =>
        have hk := keyIn?_of_identity hid
        rw [hid] at hp
        rcases mem_merge hp with rfl | hp | ⟨q, hq, hqk, rfl⟩
        · refine ⟨[row], hrow, ?_⟩
          rw [StandsFor]
          exact ⟨⟨row, rfl, rfl⟩, .inl ⟨k, rfl, by simpa using hk⟩, hbelow⟩
        · exact old p hp
        · -- the row joins the part of the object with its key
          obtain ⟨part, hpart, hstands⟩ := h q hq
          rw [StandsFor] at hstands
          obtain ⟨⟨first, hfirst, hvalues⟩, hkey, hchildren⟩ := hstands
          refine ⟨part ++ [row], List.append_subset.2 ⟨List.subset_append_of_subset_left _ hpart,
            hrow⟩, ?_⟩
          rw [StandsFor]
          refine ⟨⟨first, by rw [List.head?_append, hfirst]; rfl, hvalues⟩, .inl ?_,
            visitAll_standsFor row children part q.children hchildren⟩
          rcases hkey with ⟨k', hk', hall⟩ | ⟨hnone, -⟩
          · obtain rfl : k = k' := Option.some.inj (hqk.symm.trans hk')
            refine ⟨k, hqk, fun row' hr => ?_⟩
            rcases List.mem_append.1 hr with hr | hr
            · exact hall row' hr
            · exact List.mem_singleton.1 hr ▸ hk
          · rw [hqk] at hnone
            cases hnone

theorem visitAll_standsFor (row : Row) : ∀ (bs : List Branch) (rows : List Row)
    (lists : List (List Pending)), AllStandFor bs rows lists →
      AllStandFor bs (rows ++ [row]) (visitAll row bs lists)
  | [], rows, [], _ => by
    rw [visitAll, AllStandFor]
    · trivial
    · intros
      contradiction
  | b :: bs, rows, objects :: rest, h => by
    rw [AllStandFor] at h
    rw [visitAll, AllStandFor]
    exact ⟨visit_standsFor row b rows objects h.1, visitAll_standsFor row bs rows rest h.2⟩

end

/-- The objects of rows stand for parts of them. -/
theorem foldl_push_standsFor (b : Branch) (rows : List Row) :
    (rows.foldl push ⟨b, []⟩).branch = b ∧
      ∀ p ∈ (rows.foldl push ⟨b, []⟩).objects, ∃ part, part ⊆ rows ∧ StandsFor b part p := by
  induction rows using List.reverseRecOn with
  | nil => exact ⟨rfl, fun p hp => by cases hp⟩
  | append_singleton rows row ih =>
    rw [List.foldl_append, List.foldl_cons, List.foldl_nil, push]
    refine ⟨ih.1, ?_⟩
    rw [ih.1]
    exact visit_standsFor row b rows _ ih.2

/-! ## The relations of an object -/

/-- A relation that is loaded is one of a branch. -/
theorem buildSlots_cases {identifier : String} {slot : Slot Record} :
    ∀ {bs : List Branch} {lists : List (List Pending)} {slots : NameMap (Slot Record)},
      (buildSlots bs lists slots).find? identifier = some slot →
        slots.find? identifier = some slot ∨ ∃ b objects, (b, objects) ∈ bs.zip lists ∧
          b.element.materialized = true ∧
            b.element.slot? (objects.map (build b)) = some (identifier, slot)
  | [], lists, slots, h => by
    rw [buildSlots] at h
    · exact .inl h
    · intros
      contradiction
  | b :: bs, [], slots, h => by
    rw [buildSlots] at h
    · exact .inl h
    · intros
      contradiction
  | b :: bs, objects :: rest, slots, h => by
    rw [buildSlots] at h
    rcases buildSlots_cases h with h | ⟨b', objects', hm, h⟩
    · rw [attach_eq] at h
      split at h
      · rename_i hmat
        cases hslot : b.element.slot? (objects.map (build b)) with
        | none =>
          rw [hslot] at h
          exact .inl h
        | some entry =>
          obtain ⟨name, slot'⟩ := entry
          simp only [hslot, Option.toList_some, List.foldl_cons, List.foldl_nil] at h
          by_cases hn : identifier = name
          · subst hn
            rw [NameMap.find?_insert_self] at h
            cases h
            exact .inr ⟨b, objects, List.mem_cons_self, hmat, hslot⟩
          · rw [NameMap.find?_insert_of_ne _ _ hn] at h
            exact .inl h
      · exact .inl h
    · exact .inr ⟨b', objects', List.mem_cons_of_mem _ hm, h⟩

theorem buildSlots_sorted : ∀ {bs : List Branch} {lists : List (List Pending)}
    {slots : NameMap (Slot Record)}, slots.Sorted → (buildSlots bs lists slots).Sorted
  | [], lists, slots, h => by
    rw [buildSlots]
    · exact h
    · intros
      contradiction
  | b :: bs, [], slots, h => by
    rw [buildSlots]
    · exact h
    · intros
      contradiction
  | b :: bs, objects :: rest, slots, h => by
    rw [buildSlots]
    refine buildSlots_sorted ?_
    unfold attach
    split
    · exact NameMap.sorted_insert h ..
    · exact h

end Unpacker

/-- What a slot leads to are records that it was made of. -/
theorem Element.mem_of_slot? {e : Element} {rs : List Record} {identifier : String}
    {slot : Slot Record} (h : e.slot? rs = some (identifier, slot)) {y : Record}
    (hy : y ∈ slot.related.toList) : y ∈ rs := by
  obtain ⟨name, -, heq⟩ := Option.map_eq_some_iff.1 h
  cases heq
  split at hy
  · exact hy
  · cases rs with
    | nil => cases hy
    | cons first rest =>
      obtain rfl := List.mem_singleton.1 hy
      exact List.mem_cons_self

namespace JoinTree

open Unpacker

variable {lead : String} {s : Schema} {t : JoinTree}

/-- A record of an element that stands for some rows. -/
def Loads (t : JoinTree) (rows : List Row) (e : Element) (r : Record) : Prop :=
  ∃ p, StandsFor (t.branchAt e) rows p ∧ r = build (t.branchAt e) p

namespace Loads

variable {rows : List Row} {e : Element} {r : Record}

section
variable (hl : t.Linked lead) (h : t.Loads rows e r)
include hl h

theorem row : r.table = e.table ∧ r.isNew = false ∧ r.dirty = .empty := by
  obtain ⟨p, -, rfl⟩ := h
  rw [branchAt_eq hl, build]
  exact ⟨rfl, rfl, rfl⟩

/-- The record shows the first of its rows. -/
theorem values : ∃ row ∈ rows, r.values = e.valuesIn row := by
  obtain ⟨p, hp, rfl⟩ := h
  rw [branchAt_eq hl] at hp ⊢
  rw [StandsFor] at hp
  obtain ⟨⟨row, hrow, hvalues⟩, -⟩ := hp
  exact ⟨row, List.mem_of_head? hrow, by rw [build]; exact hvalues⟩

/-- Its rows have one key, or there is only one. -/
theorem keyed : (∃ k, ∀ row ∈ rows, e.keyIn? row = some k) ∨
    e.emittedKey? = none ∧ rows.length = 1 := by
  obtain ⟨p, hp, -⟩ := h
  rw [branchAt_eq hl, StandsFor] at hp
  exact hp.2.1.imp (fun ⟨k, _, hk⟩ => ⟨k, hk⟩) And.right

theorem sorted : r.slots.Sorted := by
  obtain ⟨p, -, rfl⟩ := h
  rw [branchAt_eq hl, build]
  exact buildSlots_sorted NameMap.sorted_empty

/-- A loaded relation goes to a child that gives objects; its records stand for parts of the
rows. -/
theorem slot {identifier : String} {slot : Slot Record}
    (hs : r.slots.find? identifier = some slot) :
    ∃ c ∈ t.childrenOf e, c.materialized = true ∧ ∃ rs, c.slot? rs = some (identifier, slot) ∧
      ∀ y ∈ rs, ∃ part, part ⊆ rows ∧ t.Loads part c y := by
  obtain ⟨p, hp, rfl⟩ := h
  rw [branchAt_eq hl] at hp hs
  rw [build] at hs
  rw [StandsFor] at hp
  rcases buildSlots_cases hs with h | ⟨b, objects, hm, hmat, hslot⟩
  · cases h
  · obtain ⟨c, hc, rfl⟩ := List.mem_map.1 (List.of_mem_zip hm).1
    rw [element_branchAt hl] at hmat hslot
    refine ⟨c, hc, hmat, _, hslot, fun y hy => ?_⟩
    obtain ⟨q, hq, rfl⟩ := List.mem_map.1 hy
    obtain ⟨part, hpart, hstands⟩ := hp.2.2.of_mem_zip hm q hq
    exact ⟨part, hpart, q, hstands, rfl⟩

/-- No relation is replaced. -/
theorem settled {identifier : String} {slot : Slot Record}
    (hs : r.slots.find? identifier = some slot) : slot.modified = false := by
  obtain ⟨c, -, -, rs, hc, -⟩ := h.slot hl hs
  obtain ⟨_, -, heq⟩ := Option.map_eq_some_iff.1 hc
  cases heq
  rfl

theorem child {identifier : String} {i : Nat} {y : Record}
    (hy : r.child? identifier i = some y) :
    ∃ c ∈ t.childrenOf e, c.materialized = true ∧ c.relation.identifier? = some identifier ∧
      ∃ part, part ⊆ rows ∧ t.Loads part c y := by
  obtain ⟨slot, hs, hy⟩ := Record.exists_slot_of_child? hy
  obtain ⟨c, hc, hmat, rs, hslot, hrs⟩ := h.slot hl hs
  have hyrs := Element.mem_of_slot? hslot (List.mem_of_getElem? hy)
  obtain ⟨name, hname, hslot⟩ := Option.map_eq_some_iff.1 hslot
  cases hslot
  exact ⟨c, hc, hmat, hname, hrs y hyrs⟩

/-- At every place stands a record of an element. -/
theorem place {p : Place} {x : Record} (hx : r.at? p = some x) (he : e ∈ t.elements)
    (hm : e.materialized = true) : ∃ d ∈ t.elements, d.materialized = true ∧
      ∃ part, part ⊆ rows ∧ t.Loads part d x := by
  induction p generalizing r e rows with
  | nil =>
    cases hx
    exact ⟨e, he, hm, rows, List.Subset.refl _, h⟩
  | cons step p ih =>
    obtain ⟨identifier, i⟩ := step
    obtain ⟨y, hy, hx⟩ := Record.at?_cons_eq_some_iff.1 hx
    obtain ⟨c, hc, hcm, -, part, hpart, hyl⟩ := h.child hl hy
    obtain ⟨d, hd, hdm, part', hpart', hxl⟩ := ih hyl hx (mem_of_childrenOf hc).1 hcm
    exact ⟨d, hd, hdm, part', List.Subset.trans hpart' hpart, hxl⟩

end

end Loads

/-- **Loaded graphs.** The records of rows stand for some of the rows. -/
theorem exists_loads {rows : List Row} {r : Record} (h : r ∈ Unpacker.records t rows) :
    ∃ part, part ⊆ rows ∧ t.Loads part t.root r := by
  obtain ⟨hb, hall⟩ := foldl_push_standsFor t.branch rows
  rw [Unpacker.records, Unpacker.finish, Unpacker.start, hb] at h
  obtain ⟨p, hp, rfl⟩ := List.mem_map.1 h
  obtain ⟨part, hpart, hstands⟩ := hall p hp
  exact ⟨part, hpart, p, hstands, rfl⟩

end JoinTree

/-! ## Relations of the table -/

namespace Table

variable {t : Table} (h : t.Sound)
include h

theorem Sound.reference?_eq {r : Reference} (hr : r ∈ t.references) :
    t.reference? r.identifier = some r := by
  have hnd := h.relations
  rw [relationNames, List.nodup_append, List.nodup_append] at hnd
  exact find?_identifier hnd.1.1 hr

/-- A relation to the rows that refer to a row is no other relation. -/
theorem Sound.reverse?_eq {r : Reverse} (hr : r ∈ t.reverses) :
    t.reference? r.identifier = none ∧ t.reverse? r.identifier = some r := by
  have hnd := h.relations
  rw [relationNames, List.nodup_append, List.nodup_append] at hnd
  obtain ⟨⟨-, hreverses, hdisjoint⟩, -⟩ := hnd
  refine ⟨List.find?_eq_none.2 fun q hq hqr => ?_, find?_identifier hreverses hr⟩
  exact hdisjoint _ (List.mem_map_of_mem hq) _ (List.mem_map_of_mem hr) (beq_iff_eq.1 hqr)

theorem Sound.manyMany?_eq {m : ManyMany} (hm : m ∈ t.manyManys) :
    t.reference? m.identifier = none ∧ t.reverse? m.identifier = none ∧
      (t.manyMany? m.identifier).isSome = true := by
  have hnd := h.relations
  rw [relationNames, List.nodup_append] at hnd
  obtain ⟨-, -, hdisjoint⟩ := hnd
  refine ⟨List.find?_eq_none.2 fun q hq hqm => ?_, List.find?_eq_none.2 fun q hq hqm => ?_,
    List.find?_isSome.2 ⟨m, hm, beq_self_eq_true _⟩⟩
  · exact hdisjoint _ (List.mem_append_left _ (List.mem_map_of_mem hq)) _
      (List.mem_map_of_mem hm) (beq_iff_eq.1 hqm)
  · exact hdisjoint _ (List.mem_append_right _ (List.mem_map_of_mem hq)) _
      (List.mem_map_of_mem hm) (beq_iff_eq.1 hqm)

end Table

namespace Record

/-- A relation of the table is to one or to many as its kind is. -/
theorem isPlural?_of_mem {r : Record} (h : r.table.Sound) {relation : Relation}
    {identifier : String} (hmem : relation ∈ r.table.relations)
    (hname : relation.identifier? = some identifier) :
    r.isPlural? identifier = .ok relation.isPlural := by
  rw [isPlural?]
  rcases Table.mem_relations.1 hmem with ⟨q, hq, rfl⟩ | ⟨q, hq, rfl⟩ | ⟨q, hq, rfl⟩ <;> cases hname
  · rw [h.reference?_eq hq]
    rfl
  · obtain ⟨hnone, hsome⟩ := h.reverse?_eq hq
    simp only [hnone, hsome, Option.isSome_none, Bool.false_eq_true, if_false]
    rfl
  · obtain ⟨hnone, hnone', hsome⟩ := h.manyMany?_eq hq
    simp only [hnone, hnone', hsome, Option.isSome_none, Bool.false_eq_true, if_false, if_true]
    rfl

/-- What is known as a relation is one of the table, by its kind. -/
theorem isPlural?_cases {r : Record} {identifier : String} {b : Bool}
    (h : r.isPlural? identifier = .ok b) :
    (∃ q ∈ r.table.references, q.identifier = identifier ∧ b = false) ∨
      (∃ q ∈ r.table.reverses, q.identifier = identifier ∧ b = !q.unique) ∨
        ∃ m ∈ r.table.manyManys, m.identifier = identifier ∧ b = true := by
  rw [isPlural?] at h
  split at h
  · rename_i hsome
    obtain ⟨q, hq, hi⟩ := List.find?_isSome.1 hsome
    exact .inl ⟨q, hq, beq_iff_eq.1 hi, (Except.ok.inj h).symm⟩
  · split at h
    · rename_i q hq
      have hi : q.identifier = identifier := by simpa using List.find?_some hq
      exact .inr (.inl ⟨q, List.mem_of_find?_eq_some hq, hi, (Except.ok.inj h).symm⟩)
    · split at h
      · rename_i hsome
        obtain ⟨m, hm, hi⟩ := List.find?_isSome.1 hsome
        exact .inr (.inr ⟨m, hm, beq_iff_eq.1 hi, (Except.ok.inj h).symm⟩)
      · cases h

/-- Every loaded relation is one of the table, to one or to many as the table says. -/
def Formed (r : Record) : Prop := ∀ identifier slot,
  r.slots.find? identifier = some slot → r.isPlural? identifier = .ok slot.related.isMany

end Record

namespace JoinTree

variable {lead : String} {s : Schema} {t : JoinTree} {rows : List Row} {e : Element} {r : Record}

theorem Loads.formed (h : t.Loads rows e r) (hs : Schema.SoundTables s.tables)
    (hl : t.Linked lead) (ho : t.Over s) (he : e ∈ t.elements) : r.Formed := by
  intro identifier slot hslot
  obtain ⟨c, hc, -, rs, hc', -⟩ := h.slot hl hslot
  obtain ⟨name, hname, heq⟩ := Option.map_eq_some_iff.1 hc'
  cases heq
  obtain ⟨hcm, hcp⟩ := mem_of_childrenOf hc
  obtain ⟨hop, target, -, hrel, -⟩ := ho.relation?_eq hl he hcm hcp
  have hsound := hs.sound _ (Schema.mem_of_join? (ho.joins e he))
  have hmany : ∀ b : Bool, (if b then Related.many rs else .one rs.head?).isMany = b := by
    intro b
    cases b <;> rfl
  have htable : r.table = e.table := (h.row hl).1
  rw [hmany]
  exact Record.isPlural?_of_mem (htable ▸ hsound) (htable ▸ Table.relation?_mem hrel) hname

end JoinTree

end RecordGraph
