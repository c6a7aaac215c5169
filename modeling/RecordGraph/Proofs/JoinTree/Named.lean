import RecordGraph.Proofs.JoinTree.Labels
import RecordGraph.Proofs.JoinTree.ReadsOver
import RecordGraph.Proofs.Schema.Sound

/-!
# What names settle in a compiled tree

The elements of a query over a sound schema are what the schema has at their paths.

* `Reads.columnsOf_sorted`, `Reads.name_eq_of_place`: columns stand in the order of their table,
  where each has a place of its own.
* `JoinTree.Over`: no column and no calculation of an element comes twice.
* `JoinTree.Keyed`: every element that gives objects emits the key of its table.
* `JoinTree.Over.eq_of_identifier`: the children of an element have relations of different names.
-/
namespace RecordGraph

namespace Table

/-- What a hop leads to is a relation of the table, under the name in the hop. -/
theorem relation?_cases {t : Table} {hop : Hop} {relation : Relation} {name : String}
    (h : t.relation? hop = some (relation, name)) : relation.hop? = some hop ∧
      ((∃ r ∈ t.references, relation = .reference r ∧ name = r.target) ∨
        (∃ r ∈ t.reverses, relation = .reverse r ∧ name = r.source) ∨
          ∃ m ∈ t.manyManys, relation = .manyMany m ∧ name = m.target) := by
  cases hop with
  | table d n => cases h
  | reference i =>
    obtain ⟨r, hr, h⟩ := Option.map_eq_some_iff.1 h
    cases h
    have hi : r.identifier = i := by simpa using List.find?_some hr
    exact ⟨hi ▸ rfl, .inl ⟨r, List.mem_of_find?_eq_some hr, rfl, rfl⟩⟩
  | reverse i =>
    obtain ⟨r, hr, h⟩ := Option.map_eq_some_iff.1 h
    cases h
    have hi : r.identifier = i := by simpa using List.find?_some hr
    exact ⟨hi ▸ rfl, .inr (.inl ⟨r, List.mem_of_find?_eq_some hr, rfl, rfl⟩)⟩
  | manyMany i =>
    obtain ⟨m, hm, h⟩ := Option.map_eq_some_iff.1 h
    cases h
    have hi : m.identifier = i := by simpa using List.find?_some hm
    exact ⟨hi ▸ rfl, .inr (.inr ⟨m, List.mem_of_find?_eq_some hm, rfl, rfl⟩)⟩

/-- The relations that start from a table. -/
def relations (t : Table) : List Relation :=
  t.references.map .reference ++ t.reverses.map .reverse ++ t.manyManys.map .manyMany

theorem mem_relations {t : Table} {relation : Relation} : relation ∈ t.relations ↔
    (∃ r ∈ t.references, relation = .reference r) ∨ (∃ r ∈ t.reverses, relation = .reverse r) ∨
      ∃ m ∈ t.manyManys, relation = .manyMany m := by
  simp only [relations, List.mem_append, List.mem_map, or_assoc, eq_comm]

theorem relation?_mem {t : Table} {hop : Hop} {relation : Relation} {name : String}
    (h : t.relation? hop = some (relation, name)) : relation ∈ t.relations := by
  rcases (relation?_cases h).2 with ⟨r, hr, rfl, -⟩ | ⟨r, hr, rfl, -⟩ | ⟨m, hm, rfl, -⟩
  · exact mem_relations.2 (.inl ⟨r, hr, rfl⟩)
  · exact mem_relations.2 (.inr (.inl ⟨r, hr, rfl⟩))
  · exact mem_relations.2 (.inr (.inr ⟨m, hm, rfl⟩))

theorem map_identifier_relations (t : Table) :
    t.relations.map (·.identifier?) = t.relationNames.map some := by
  simp only [relations, relationNames, List.map_append, List.map_map]
  rfl

theorem Sound.relations_nodup {t : Table} (h : t.Sound) :
    (t.relations.map (·.identifier?)).Nodup := by
  rw [map_identifier_relations]
  exact h.relations.map fun _ _ => Option.some.inj

/-- The name of a relation settles it, and with it its kind. -/
theorem Sound.hop_eq {t : Table} (h : t.Sound) {a b : Hop} {ra rb : Relation} {na nb : String}
    (ha : t.relation? a = some (ra, na)) (hb : t.relation? b = some (rb, nb))
    (hi : ra.identifier? = rb.identifier?) : a = b := by
  obtain rfl : ra = rb :=
    List.inj_on_of_nodup_map h.relations_nodup (relation?_mem ha) (relation?_mem hb) hi
  exact Option.some.inj ((relation?_cases ha).1.symm.trans (relation?_cases hb).1)

end Table

namespace Reads

/-! ## The columns of a join -/

/-- Behind the columns so far, which have different names, come those whose names are new. -/
theorem foldl_distinct : ∀ (cs done : List Column), (done.map (·.name)).Nodup →
    let all := cs.foldl
      (fun done c => if done.any (·.name == c.name) then done else done ++ [c]) done
    (all.map (·.name)).Nodup ∧ (∀ c ∈ all, c ∈ done ∨ c ∈ cs) ∧
      ∀ c, c ∈ done ∨ c ∈ cs → ∃ d ∈ all, d.name = c.name
  | [], done, h => ⟨h, fun _ => .inl, fun c hc => ⟨c, by simpa using hc, rfl⟩⟩
  | c :: cs, done, h => by
    simp only [List.foldl_cons]
    split
    · rename_i hany
      obtain ⟨hnd, hmem, hall⟩ := foldl_distinct cs done h
      refine ⟨hnd, fun d hd => (hmem d hd).imp_right (List.mem_cons_of_mem _), fun d hd => ?_⟩
      rcases hd with hd | hd
      · exact hall d (.inl hd)
      · rcases List.mem_cons.1 hd with rfl | hd
        · obtain ⟨e, he, hn⟩ := List.any_eq_true.1 hany
          obtain ⟨f, hf, hfn⟩ := hall e (.inl he)
          exact ⟨f, hf, hfn.trans (beq_iff_eq.1 hn)⟩
        · exact hall d (.inr hd)
    · rename_i hany
      have hnew : ((done ++ [c]).map (·.name)).Nodup := by
        rw [List.map_append, List.nodup_append]
        refine ⟨h, by simp, ?_⟩
        rintro _ ha _ hb rfl
        obtain ⟨d, hd, hdn⟩ := List.mem_map.1 ha
        simp only [List.map_cons, List.map_nil, List.mem_singleton] at hb
        exact hany (List.any_eq_true.2 ⟨d, hd, by rw [beq_iff_eq, hdn, hb]⟩)
      obtain ⟨hnd, hmem, hall⟩ := foldl_distinct cs _ hnew
      refine ⟨hnd, fun d hd => ?_, fun d hd => hall d ?_⟩
      · have := hmem d hd
        simp only [List.mem_append, List.mem_cons, List.not_mem_nil, or_false] at this ⊢
        grind
      · simp only [List.mem_append, List.mem_cons, List.not_mem_nil, or_false] at hd ⊢
        grind

theorem distinctColumns_spec (cs : List Column) :
    ((distinctColumns cs).map (·.name)).Nodup ∧ (∀ c ∈ distinctColumns cs, c ∈ cs) ∧
      ∀ c ∈ cs, ∃ d ∈ distinctColumns cs, d.name = c.name := by
  obtain ⟨hnd, hmem, hall⟩ := foldl_distinct cs [] (by simp)
  exact ⟨hnd, fun c hc => (hmem c hc).resolve_left (by simp), fun c hc => hall c (.inr hc)⟩

theorem columnsOf_names (r : Reads) (keys : Bool) (j : Join) :
    ((r.columnsOf keys j).map (·.name)).Nodup := by
  unfold columnsOf
  rw [((List.mergeSort_perm _ _).map _).nodup_iff]
  exact (distinctColumns_spec _).1

theorem mem_of_mem_columnsOf {r : Reads} {keys : Bool} {j : Join} {c : Column}
    (h : c ∈ r.columnsOf keys j) : (∃ d ∈ r.columns, d.path = j.path ∧ d.column = c) ∨
      c = j.table.primaryKey ∨ j.table.lockColumn? = some c := by
  rw [columnsOf, List.mem_mergeSort] at h
  rcases List.mem_append.1 ((distinctColumns_spec _).2.1 c h) with h | h
  · obtain ⟨d, hd, rfl⟩ := List.mem_map.1 h
    obtain ⟨hd, hp⟩ := List.mem_filter.1 hd
    exact .inl ⟨d, hd, beq_iff_eq.1 hp, rfl⟩
  · split at h
    · rcases List.mem_cons.1 h with rfl | h
      · exact .inr (.inl rfl)
      · exact .inr (.inr (Option.mem_toList.1 h))
    · simp at h

theorem exists_key_columnsOf (r : Reads) (j : Join) :
    ∃ c ∈ r.columnsOf true j, c.name = j.table.primaryKey.name := by
  obtain ⟨d, hd, hn⟩ := (distinctColumns_spec (((r.columns.filter (·.path == j.path)).map
    (·.column)) ++ j.table.primaryKey :: j.table.lockColumn?.toList)).2.2 j.table.primaryKey
    (by simp)
  exact ⟨d, List.mem_mergeSort.2 hd, hn⟩

/-- The place of a column of the table. -/
theorem exists_place {t : Table} {c : Column} (hc : c ∈ t.columns) :
    ∃ (i : Nat) (hi : i < t.columns.length), place t c = i + 1 ∧ t.columns[i].name = c.name := by
  have hsome : (t.position? c.name).isSome := by
    rw [Table.position?, List.findIdx?_isSome, List.any_eq_true]
    exact ⟨c, hc, beq_self_eq_true _⟩
  obtain ⟨i, hi⟩ := Option.isSome_iff_exists.1 hsome
  obtain ⟨hlt, hn, -⟩ := List.findIdx?_eq_some_iff_getElem.1 hi
  exact ⟨i, hlt, by rw [place, hi]; rfl, beq_iff_eq.1 hn⟩

/-- What stands at the place of a column of the table goes by its name. -/
theorem name_eq_of_place {t : Table} {c d : Column} (hc : c ∈ t.columns)
    (h : place t d = place t c) : d.name = c.name := by
  obtain ⟨i, hi, hplace, hname⟩ := exists_place hc
  rw [hplace, place] at h
  cases hd : t.position? d.name with
  | none =>
    rw [hd] at h
    cases h
  | some k =>
    rw [hd] at h
    obtain rfl : k = i := Nat.succ.inj h
    obtain ⟨_, hn, -⟩ := List.findIdx?_eq_some_iff_getElem.1 hd
    exact (beq_iff_eq.1 hn).symm.trans hname

theorem place_congr {t : Table} {c d : Column} (h : c.name = d.name) : place t c = place t d := by
  rw [place, place, h]

/-- The columns of a join stand in the order of its table. -/
theorem columnsOf_sorted (r : Reads) (keys : Bool) (j : Join) :
    (r.columnsOf keys j).Pairwise fun c d => place j.table c ≤ place j.table d := by
  refine (List.pairwise_mergeSort (fun c d e => ?_) (fun c d => ?_) _).imp of_decide_eq_true
  · simp only [decide_eq_true_eq]
    exact Nat.le_trans
  · simpa using Nat.le_total _ _

/-- The columns of a join are columns of its table. -/
theorem columnsOf_mem {s : Schema} {r : Reads} (ho : r.Over s) {keys : Bool} {j : Join}
    (hj : j ∈ r.order) {c : Column} (hc : c ∈ r.columnsOf keys j) : c ∈ j.table.columns := by
  rcases mem_of_mem_columnsOf hc with ⟨d, hd, hp, rfl⟩ | rfl | hl
  · obtain ⟨rel, t, hjoin, hmem⟩ := ho.columns d hd
    rw [hp, ho.joins j (List.mem_cons.2 (mem_order.1 hj))] at hjoin
    cases hjoin
    exact hmem
  · exact j.table.primaryKey_mem
  · exact List.mem_of_find?_eq_some hl

end Reads

namespace JoinTree

/-- The elements of a tree are what the schema has at their paths. -/
structure Over (s : Schema) (t : JoinTree) : Prop where
  joins : ∀ e ∈ t.elements, s.join? e.path = some (e.relation, e.table)
  columns : ∀ e ∈ t.elements, ∀ c ∈ e.columns, c.column ∈ e.table.columns ∧
    c.label = e.label ++ "__" ++ c.column.name
  names : ∀ e ∈ t.elements, (e.columns.map (·.column.name)).Nodup
  calculations : ∀ e ∈ t.elements, (e.calculations.map (·.name)).Nodup

/-- Every element that gives objects emits the key of its table. -/
def Keyed (t : JoinTree) : Prop :=
  ∀ e ∈ t.elements, e.materialized = true → ∃ c, e.emittedKey? = some c ∧ c ∈ e.emitted ∧
    c.column = e.table.primaryKey

variable {s : Schema} {lead : String} {q : Query} {t : JoinTree}

theorem compile_over {projection : Projection} (hq : q.Over s)
    (h : compile projection lead q = .ok t) : t.Over s := by
  obtain ⟨r, keys, hr, -, -, ht⟩ := compile_cases h
  have ho := Reads.ofQuery?_over hq hr
  refine ⟨fun e he => ?_, fun e he => ?_, fun e he => ?_, fun e he => ?_⟩ <;>
    obtain ⟨j, hj, rfl⟩ := (mem_elements ht).1 he
  · exact ho.joins j (List.mem_cons.2 (Reads.mem_order.1 hj))
  · intro c hc
    obtain ⟨d, hd, rfl⟩ := List.mem_map.1 hc
    exact ⟨Reads.columnsOf_mem ho hj hd, rfl⟩
  · simpa [Reads.element, Function.comp_def] using r.columnsOf_names keys j
  · simp only [Reads.element, List.map_map, Function.comp_def]
    rw [List.nodup_iff_pairwise_ne, List.pairwise_map]
    refine (ho.calculations.filter _).imp_of_mem fun {a b} ha hb hab hn => hab ⟨?_, hn⟩
    rw [beq_iff_eq.1 (List.mem_filter.1 ha).2, beq_iff_eq.1 (List.mem_filter.1 hb).2]

/-- A query of whole objects identifies them. -/
theorem compile_keyed (hs : Schema.SoundTables s.tables) (hq : q.Over s) (hg : q.groupBys = [])
    (hd : q.distinct = false) (h : compile .objects lead q = .ok t) : t.Keyed := by
  obtain ⟨r, keys, hr, hkeys, -, ht⟩ := compile_cases h
  obtain rfl : keys = true := by rw [hkeys, hg, hd]; rfl
  have ho := Reads.ofQuery?_over hq hr
  intro e he hm
  obtain ⟨j, hj, rfl⟩ := (mem_elements ht).1 he
  have hsound : j.table.Sound :=
    hs.sound _ (Schema.mem_of_join? (ho.joins j (List.mem_cons.2 (Reads.mem_order.1 hj))))
  obtain ⟨d, hdm, hdn⟩ := r.exists_key_columnsOf j
  obtain rfl : d = j.table.primaryKey :=
    hsound.column_eq (Reads.columnsOf_mem ho hj hdm) j.table.primaryKey_mem hdn
  have hsome : (r.element lead true j).emittedKey?.isSome := by
    refine List.find?_isSome.2 ⟨_, List.mem_filter.2 ⟨List.mem_map_of_mem hdm, ?_⟩,
      j.table.primaryKey_primary⟩
    have hm' : r.materialized j.path = true := hm
    simp [j.table.primaryKey_primary, hm']
  obtain ⟨c, hc⟩ := Option.isSome_iff_exists.1 hsome
  have hmem := List.mem_of_find?_eq_some hc
  obtain ⟨c', hc', hce⟩ := List.mem_map.1 (List.mem_filter.1 hmem).1
  have hin : c.column ∈ j.table.columns := hce ▸ Reads.columnsOf_mem ho hj hc'
  have hpk : c.column.primaryKey = true := by simpa using List.find?_some hc
  exact ⟨c, hc, hmem, hsound.key _ hin hpk⟩

/-- A child of an element goes on from it by a relation of its table. -/
theorem Over.relation?_eq (ho : t.Over s) (hl : t.Linked lead) {e c : Element}
    (he : e ∈ t.elements) (hc : c ∈ t.elements) (hp : c.parent = some e.id) : ∃ hop name,
      c.path = e.path ++ [hop] ∧ e.table.relation? hop = some (c.relation, name) ∧
        s.table? name = some c.table := by
  have hrest : c ∈ t.rest := by
    refine (List.mem_cons.1 hc).resolve_left fun hroot => ?_
    rw [hroot, hl.root.2] at hp
    cases hp
  obtain ⟨p, hpm, hpp, -, hop, -, hpath⟩ := hl.parent c hrest
  obtain rfl : e = p := hl.eq_of_id he hpm (Option.some.inj (hp.symm.trans hpp))
  have hne : e.path ≠ [] := by
    intro h0
    have := ho.joins e he
    rw [h0] at this
    cases this
  have hj := ho.joins c hc
  rw [hpath, Schema.join?_snoc hne, ho.joins e he] at hj
  obtain ⟨name, hr, ht⟩ := Schema.hop?_eq_some hj
  exact ⟨hop, name, hpath, hr, ht⟩

/-- The children of an element have relations of different names. -/
theorem Over.eq_of_identifier (ho : t.Over s) (hs : Schema.SoundTables s.tables)
    (hl : t.Linked lead) (hn : (t.elements.map (·.path)).Nodup) {e c d : Element}
    (he : e ∈ t.elements) (hc : c ∈ t.elements) (hd : d ∈ t.elements)
    (hcp : c.parent = some e.id) (hdp : d.parent = some e.id)
    (hi : c.relation.identifier? = d.relation.identifier?) : c = d := by
  obtain ⟨a, _, hca, hra, -⟩ := ho.relation?_eq hl he hc hcp
  obtain ⟨b, _, hdb, hrb, -⟩ := ho.relation?_eq hl he hd hdp
  have hsound := hs.sound _ (Schema.mem_of_join? (ho.joins e he))
  obtain rfl := hsound.hop_eq hra hrb hi
  exact List.inj_on_of_nodup_map hn hc hd (hca.trans hdb.symm)

end JoinTree

end RecordGraph
