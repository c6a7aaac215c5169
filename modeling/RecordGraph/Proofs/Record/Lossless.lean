import Mathlib.Data.List.Forall2
import Mathlib.Data.List.Perm.Basic
import RecordGraph.Proofs.JoinTree.JoinedRows
import RecordGraph.Proofs.NameMap
import RecordGraph.Proofs.Record.GroupBy

/-!
# Nothing is lost and nothing comes twice

Joins multiply rows: siblings with each other, and whatever is joined only to be looked at with all
of them. The records of the joined rows still are those of the database: one for every row of the
root, and below each of them one for every row that is related to it.

* `Contents.Consistent`: what the keys of a database promise.
* `JoinTree.Depicts`: a record that is a row with everything below it.
* `JoinTree.Slice`: the joined rows with the same rows for an element's ancestors.
* `JoinTree.records_depict`: the records of the joined rows, in any order.
-/
namespace RecordGraph

/-- Keys tell rows apart, in the database and as identities of objects; and what refers to at most
one row does. -/
structure Contents.Consistent (eq : Equality) (db : Contents) (s : Schema) : Prop where
  key_ne_null : ∀ t ∈ s.tables, ∀ x ∈ db t.name, x t.primaryKey.name ≠ .null
  key_unique : ∀ t ∈ s.tables, (db t.name).Pairwise fun x y =>
    eq.holds (x t.primaryKey.name) (y t.primaryKey.name) = false
  key_distinct : ∀ t ∈ s.tables, (db t.name).Pairwise fun x y =>
    (x t.primaryKey.name).key? ≠ (y t.primaryKey.name).key?
  unique : ∀ t ∈ s.tables, ∀ r ∈ t.reverses, r.unique = true → (db r.source).Pairwise fun x y =>
    eq.holds (x r.column) (y r.column) = false

/-- The relation is one to many records. -/
def Related.isMany {ρ : Type} : Related ρ → Bool
  | .one _ => false
  | .many _ => true

/-- A saved and clean record with the values of a row. -/
structure Record.Shows (r : Record) (e : Element) (x : Tuple) : Prop where
  table : r.table = e.table
  saved : r.isNew = false
  clean : r.dirty = .empty
  values : ∀ c ∈ e.emitted, r.values.find? c.column.name = some (x c.column.name)

/-- A record with the relation to `c` loaded, to exactly some records. -/
def Record.Relates (r : Record) (c : Element) (rs : List Record) : Prop :=
  ∃ identifier slot, c.relation.identifier? = some identifier ∧
    r.slots.find? identifier = some slot ∧ slot.modified = false ∧
    slot.related.isMany = c.relation.isPlural ∧ slot.related.toList = rs

namespace JoinTree

/-- A record that is a row of an element: below it, for every child that gives objects, there is one
record for each related row. -/
inductive Depicts (eq : Equality) (db : Contents) (t : JoinTree) :
    Element → Tuple → Record → Prop where
  | mk {e : Element} {x : Tuple} {r : Record} (ys : Element → List Tuple)
      (rs : Element → List Record) : r.Shows e x →
      (∀ c ∈ t.childrenOf e, c.materialized = true → r.Relates c (rs c) ∧
        (ys c).Perm (Element.related eq db e c x) ∧ (ys c).length = (rs c).length) →
      (∀ c ∈ t.childrenOf e, c.materialized = true → ∀ p ∈ (ys c).zip (rs c),
        Depicts eq db t c p.1 p.2) → Depicts eq db t e x r

/-- The rows of some joined rows: `context` says which, by the elements before `e` alone, and `xs`
are the rows that stand in them for `e`. -/
structure Slice (eq : Equality) (db : Contents) (t : JoinTree) (e : Element)
    (context : Joined → Prop) (rows : List Row) (xs : List Tuple) : Prop where
  rows : ∀ row, row ∈ rows ↔ ∃ r ∈ t.source.joined eq db, context r ∧ t.rowOf r = row
  found : ∀ x, x ∈ xs ↔ ∃ r ∈ t.source.joined eq db, context r ∧ r e.label = some x
  frame : ∀ r r', context r → (∀ a ∈ t.elements, a.id < e.id → r' a.label = r a.label) → context r'
  nodup : xs.Nodup
  stored : ∀ x ∈ xs, x ∈ db e.table.name

end JoinTree

/-! ## Keys of rows -/

theorem Value.exists_key {v : Value} (h : v ≠ .null) : ∃ k, v.key? = some k := by
  cases v <;> first | exact absurd rfl h | exact ⟨_, rfl⟩

/-- A list of images, in another order, is the images of the list in another order. -/
theorem exists_perm_map_eq {α β : Type} {f : α → β} {l : List β} {xs : List α}
    (h : l.Perm (xs.map f)) : ∃ ys : List α, ys.Perm xs ∧ ys.map f = l := by
  have hpairs : List.Forall₂ (fun b a => f a = b) (xs.map f) xs := by
    rw [List.forall₂_map_left_iff]
    exact List.forall₂_same.2 fun _ _ => rfl
  obtain ⟨ys, hys, hperm⟩ := List.perm_comp_forall₂ h hpairs
  refine ⟨ys, hperm, ?_⟩
  clear hperm hpairs h
  induction hys with
  | nil => rfl
  | cons hb _ ih => rw [List.map_cons, hb, ih]

namespace Element

/-- The key of an element's row. -/
def keyOf (e : Element) (x : Tuple) : Key := ((x e.table.primaryKey.name).key?).getD default

theorem key?_eq_keyOf {e : Element} {x : Tuple} (h : x e.table.primaryKey.name ≠ .null) :
    (x e.table.primaryKey.name).key? = some (e.keyOf x) := by
  obtain ⟨k, hk⟩ := Value.exists_key h
  rw [keyOf, hk]
  rfl

theorem keys_nodup {e : Element} {xs : List Tuple}
    (hne : ∀ x ∈ xs, x e.table.primaryKey.name ≠ .null)
    (hdistinct : xs.Pairwise fun x y =>
      (x e.table.primaryKey.name).key? ≠ (y e.table.primaryKey.name).key?) :
    (xs.map e.keyOf).Nodup := by
  rw [List.nodup_iff_pairwise_ne, List.pairwise_map]
  refine hdistinct.imp_of_mem fun {x y} hx hy h hk => ?_
  rw [key?_eq_keyOf (hne x hx), key?_eq_keyOf (hne y hy), hk] at h
  exact h rfl

end Element

namespace JoinTree

variable {eq : Equality} {db : Contents} {s : Schema} {lead : String} {t : JoinTree}

section
variable (ho : t.Over s) (hdb : Contents.Consistent eq db s) {e : Element} (he : e ∈ t.elements)
include ho hdb he

theorem key?_eq {x : Tuple} (hx : x ∈ db e.table.name) :
    (x e.table.primaryKey.name).key? = some (e.keyOf x) :=
  Element.key?_eq_keyOf (hdb.key_ne_null _ (Schema.mem_of_join? (ho.joins e he)) x hx)

theorem keys_nodup : ((db e.table.name).map e.keyOf).Nodup :=
  have htable := Schema.mem_of_join? (ho.joins e he)
  Element.keys_nodup (hdb.key_ne_null _ htable) (hdb.key_distinct _ htable)

theorem rows_nodup : (db e.table.name).Nodup := (keys_nodup ho hdb he).of_map _

/-- A row is settled by its key. -/
theorem eq_of_keyOf {x y : Tuple} (hx : x ∈ db e.table.name) (hy : y ∈ db e.table.name)
    (h : e.keyOf x = e.keyOf y) : x = y :=
  List.inj_on_of_nodup_map (keys_nodup ho hdb he) hx hy h

end

/-- The key that a result row shows for an element. -/
theorem keyIn?_rowOf (hl : t.Linked lead) (ho : t.Over s) (hk : t.Keyed) {e : Element}
    (he : e ∈ t.elements) (hm : e.materialized = true) (r : Joined) :
    e.keyIn? (t.rowOf r) = (r e.label).bind fun x => (x e.table.primaryKey.name).key? := by
  obtain ⟨c, hc, hmem, hcol⟩ := hk e he hm
  rw [Element.keyIn?, hc, Option.bind_some, hl.get?_rowOf ho r he hmem, Option.bind_some, hcol]
  cases hx : r e.label with
  | none => simp [Joined.value, hx, Value.key?]
  | some x => simp [Joined.value, hx]

/-! ## Related rows -/

section
variable (hl : t.Linked lead) (ho : t.Over s) (hdb : Contents.Consistent eq db s) {e c : Element}
  (he : e ∈ t.elements) (hc : c ∈ t.childrenOf e)
include hl ho hdb he hc

omit hl ho hdb he in
theorem mem_of_childrenOf : c ∈ t.elements ∧ c.parent = some e.id := by
  obtain ⟨hm, hp⟩ := List.mem_filter.1 hc
  exact ⟨hm, beq_iff_eq.1 hp⟩

omit hl he in
theorem related_nodup (x : Tuple) : (Element.related eq db e c x).Nodup :=
  (rows_nodup ho hdb (mem_of_childrenOf hc).1).filter _

/-- A relation to one row finds one at most. -/
theorem related_length_le (hp : c.relation.isPlural = false) (x : Tuple) :
    (Element.related eq db e c x).length ≤ 1 := by
  obtain ⟨hcm, hcp⟩ := mem_of_childrenOf hc
  obtain ⟨hop, name, -, hrel, htable⟩ := ho.relation?_eq hl he hcm hcp
  have hsound := Schema.mem_of_join? (ho.joins c hcm)
  have hname : c.table.name = name := (Schema.find?_eq_some htable).2
  rcases (Table.relation?_cases hrel).2 with ⟨r, -, hr, -⟩ | ⟨r, hr, hrr, hn⟩ | ⟨m, -, hm, -⟩
  · simp only [Element.related, hr]
    exact eq.filter_length_le (hdb.key_unique _ hsound)
  · rw [hrr] at hp
    simp only [Element.related, hrr]
    rw [hname, hn]
    exact eq.filter_length_le (hdb.unique _ (Schema.mem_of_join? (ho.joins e he)) r hr
      (by simpa [Relation.isPlural] using hp))
  · rw [hm] at hp
    cases hp

end

/-! ## Slices -/

section
variable (hl : t.Linked lead) (ho : t.Over s) (hk : t.Keyed) (hdb : Contents.Consistent eq db s)
  {e : Element} (he : e ∈ t.elements) (hm : e.materialized = true)
  {context : Joined → Prop} {rows : List Row} {xs : List Tuple}
  (hs : Slice eq db t e context rows xs)
include hl ho hk hdb he hm hs

/-- The key of a stored row tells whether it is in a result row. -/
theorem Slice.keyIn?_eq_some_iff {x : Tuple} (hx : x ∈ xs) {r : Joined}
    (hr : r ∈ t.source.joined eq db) (hcontext : context r) :
    e.keyIn? (t.rowOf r) = some (e.keyOf x) ↔ r e.label = some x := by
  rw [keyIn?_rowOf hl ho hk he hm]
  constructor
  · intro h
    obtain ⟨y, hy, hkey⟩ := Option.bind_eq_some_iff.1 h
    have hys := hs.stored y ((hs.found y).2 ⟨r, hr, hcontext, hy⟩)
    rw [key?_eq ho hdb he hys] at hkey
    rw [hy, eq_of_keyOf ho hdb he hys (hs.stored x hx) (Option.some.inj hkey)]
  · intro h
    rw [h, Option.bind_some, key?_eq ho hdb he (hs.stored x hx)]

/-- The keys in the rows are those of the rows that stand for the element. -/
theorem Slice.keysIn_perm : (e.keysIn rows).Perm (xs.map e.keyOf) := by
  have hnd : (xs.map e.keyOf).Nodup := List.Nodup.map_on
    (fun x hx y hy h => eq_of_keyOf ho hdb he (hs.stored x hx) (hs.stored y hy) h) hs.nodup
  refine (List.perm_ext_iff_of_nodup (e.keysIn_nodup rows) hnd).2 fun k => ?_
  rw [e.mem_keysIn, List.mem_map]
  constructor
  · rintro ⟨row, hrow, hkey⟩
    obtain ⟨r, hr, hcontext, rfl⟩ := (hs.rows row).1 hrow
    have hbind := hkey
    rw [keyIn?_rowOf hl ho hk he hm] at hbind
    obtain ⟨x, hx, hxk⟩ := Option.bind_eq_some_iff.1 hbind
    have hxs := (hs.found x).2 ⟨r, hr, hcontext, hx⟩
    rw [key?_eq ho hdb he (hs.stored x hxs)] at hxk
    exact ⟨x, hxs, Option.some.inj hxk⟩
  · rintro ⟨x, hx, rfl⟩
    obtain ⟨r, hr, hcontext, hrx⟩ := (hs.found x).1 hx
    exact ⟨t.rowOf r, (hs.rows _).2 ⟨r, hr, hcontext, rfl⟩,
      (hs.keyIn?_eq_some_iff hl ho hk hdb he hm hx hr hcontext).2 hrx⟩

theorem Slice.mem_part {x : Tuple} (hx : x ∈ xs) (row : Row) :
    row ∈ e.part rows (e.keyOf x) ↔
      ∃ r ∈ t.source.joined eq db, (context r ∧ r e.label = some x) ∧ t.rowOf r = row := by
  rw [e.mem_part, hs.rows]
  constructor
  · rintro ⟨⟨r, hr, hcontext, rfl⟩, hkey⟩
    exact ⟨r, hr, ⟨hcontext, (hs.keyIn?_eq_some_iff hl ho hk hdb he hm hx hr hcontext).1 hkey⟩, rfl⟩
  · rintro ⟨r, hr, ⟨hcontext, hrx⟩, rfl⟩
    exact ⟨⟨r, hr, hcontext, rfl⟩,
      (hs.keyIn?_eq_some_iff hl ho hk hdb he hm hx hr hcontext).2 hrx⟩

/-- The part of a row is a slice for the children, whose rows are the related ones. -/
theorem Slice.child {x : Tuple} (hx : x ∈ xs) {c : Element} (hc : c ∈ t.childrenOf e) :
    Slice eq db t c (fun r => context r ∧ r e.label = some x) (e.part rows (e.keyOf x))
      (Element.related eq db e c x) := by
  obtain ⟨hcm, hcp⟩ := mem_of_childrenOf hc
  have hlt := (id_of_child hl hc).1
  refine ⟨hs.mem_part hl ho hk hdb he hm hx, fun y => ⟨fun hy => ?_, ?_⟩, ?_,
    related_nodup ho hdb hc x, fun y hy => (List.mem_filter.1 hy).1⟩
  · obtain ⟨r, hr, hcontext, hrx⟩ := (hs.found x).1 hx
    obtain ⟨r', hr', hy', hsame⟩ := hl.exists_joined hr he hcm hcp hrx hy
    have hcontext' := hs.frame r r' hcontext fun a ha hlt' => hsame a ha (Nat.lt_trans hlt' hlt)
    exact ⟨r', hr', ⟨hcontext', (hsame e he hlt).trans hrx⟩, hy'⟩
  · rintro ⟨r, hr, ⟨-, hrx⟩, hy⟩
    obtain ⟨x', hx', hrel⟩ := hl.related_of_joined hr he hcm hcp hy
    rw [hrx] at hx'
    exact Option.some.inj hx' ▸ hrel
  · rintro r r' ⟨hcontext, hrx⟩ hsame
    exact ⟨hs.frame r r' hcontext fun a ha hlt' => hsame a ha (Nat.lt_trans hlt' hlt),
      (hsame e he hlt).trans hrx⟩

/-- The record of a part shows its row. -/
theorem Slice.shows (hn : t.Named) {x : Tuple} (hx : x ∈ xs)
    (slots : List (String × Slot Record)) :
    (e.groupRecord (e.part rows (e.keyOf x)) slots).Shows e x := by
  refine ⟨rfl, rfl, rfl, fun c hc => ?_⟩
  obtain ⟨r, hr, hcontext, hrx⟩ := (hs.found x).1 hx
  have hne : e.part rows (e.keyOf x) ≠ [] := List.ne_nil_of_mem
    ((hs.mem_part hl ho hk hdb he hm hx _).2 ⟨r, hr, ⟨hcontext, hrx⟩, rfl⟩)
  obtain ⟨row, rest, hpart⟩ := List.exists_cons_of_ne_nil hne
  obtain ⟨r₁, -, ⟨-, hrx₁⟩, rfl⟩ :=
    (hs.mem_part hl ho hk hdb he hm hx row).1 (hpart ▸ List.mem_cons_self)
  have hentries : (e.emitted.filterMap fun c => ((t.rowOf r₁ :: rest).head?.bind
      (·.get? c.label)).map fun v => (c.column.name, v))
        = e.emitted.map fun c => (c.column.name, x c.column.name) := by
    rw [← List.filterMap_eq_map]
    refine List.filterMap_congr fun c hc => ?_
    simp [hl.get?_rowOf ho r₁ he hc, Joined.value, hrx₁]
  simp only [Element.groupRecord, Element.firstValues, hpart, hentries]
  refine NameMap.find?_ofList_of_mem ?_ (List.mem_map_of_mem hc)
  rw [List.map_map]
  exact hn.columns e he

end

/-! ## Records -/

section
variable (hl : t.Linked lead) (ho : t.Over s) (hn : t.Named) {e : Element} (he : e ∈ t.elements)
include hl hn he

/-- Each child that gives objects has a slot of its own. -/
theorem find?_slots (group : Element → List Record) {c : Element} (hc : c ∈ t.childrenOf e)
    (hcm : c.materialized = true) {identifier : String}
    (hi : c.relation.identifier? = some identifier) :
    (NameMap.ofList (((t.childrenOf e).filter (·.materialized)).filterMap fun c =>
      c.slot? (group c))).find? identifier =
        some ⟨if c.relation.isPlural then .many (group c) else .one (group c).head?, false⟩ := by
  refine NameMap.find?_ofList_of_mem ?_ (List.mem_filterMap.2
    ⟨c, List.mem_filter.2 ⟨hc, hcm⟩, by rw [Element.slot?, hi]; rfl⟩)
  rw [List.nodup_iff_pairwise_ne, List.pairwise_map, List.pairwise_filterMap]
  have hpair : (t.childrenOf e).Pairwise fun a b => a.id < b.id := hl.ids_pairwise.filter _
  refine (hpair.filter _).imp_of_mem fun {a b} ha hb hlt x hx y hy hxy => ?_
  obtain ⟨i, hai, rfl⟩ := Option.map_eq_some_iff.1 hx
  obtain ⟨k, hbk, rfl⟩ := Option.map_eq_some_iff.1 hy
  obtain rfl : i = k := hxy
  have hab := hn.relations e he a (List.mem_filter.1 ha).1 b (List.mem_filter.1 hb).1
    (hai.trans hbk.symm)
  exact Nat.lt_irrefl _ (hab ▸ hlt)

omit hn in
theorem exists_identifier {c : Element} (hc : c ∈ t.childrenOf e) :
    ∃ identifier, c.relation.identifier? = some identifier := by
  obtain ⟨hcm, hcp⟩ := mem_of_childrenOf hc
  have hroot := (hl.child_facts he hcm hcp).2.2.2.2
  cases hr : c.relation with
  | root => exact absurd hr hroot
  | _ => exact ⟨_, rfl⟩

end

/-- The groups of a slice are its rows with everything below them. -/
theorem Slice.depicts (hl : t.Linked lead) (ho : t.Over s) (hk : t.Keyed) (hn : t.Named)
    (hdb : Contents.Consistent eq db s) {e : Element} (he : e ∈ t.elements)
    (hm : e.materialized = true) {context : Joined → Prop} {rows : List Row} {xs : List Tuple}
    (hs : Slice eq db t e context rows xs) :
    ∃ ys : List Tuple, ys.Perm xs ∧
      List.Forall₂ (Depicts eq db t e) ys ((t.branchAt e).group rows) := by
  -- on how many numbers there are behind that of `e`
  induction hd : t.rest.length - e.id using Nat.strongRecOn generalizing e context rows xs with
  | ind n ih =>
    obtain ⟨ys, hperm, hkeys⟩ := exists_perm_map_eq (hs.keysIn_perm hl ho hk hdb he hm)
    refine ⟨ys, hperm, ?_⟩
    rw [group_branchAt hl, ← hkeys, List.map_map, List.forall₂_map_right_iff]
    refine List.forall₂_same.2 fun x hx => ?_
    have hx : x ∈ xs := hperm.mem_iff.1 hx
    have below : ∀ c, ∃ zs : List Tuple, c ∈ t.childrenOf e → c.materialized = true →
        zs.Perm (Element.related eq db e c x) ∧
          List.Forall₂ (Depicts eq db t c) zs ((t.branchAt c).group (e.part rows (e.keyOf x))) := by
      intro c
      by_cases hc : c ∈ t.childrenOf e ∧ c.materialized = true
      · have hid := id_of_child hl hc.1
        obtain ⟨zs, hzs⟩ := ih _ (by omega) (mem_of_childrenOf hc.1).1 hc.2
          (hs.child hl ho hk hdb he hm hx hc.1) rfl
        exact ⟨zs, fun _ _ => hzs⟩
      · exact ⟨[], fun h h' => absurd ⟨h, h'⟩ hc⟩
    choose zs hzs using below
    refine .mk zs (fun c => (t.branchAt c).group (e.part rows (e.keyOf x)))
      (hs.shows hl ho hk hdb he hm hn hx _) (fun c hc hcm => ?_) fun c hc hcm p hp => ?_
    · obtain ⟨hzperm, hz⟩ := hzs c hc hcm
      refine ⟨?_, hzperm, hz.length_eq⟩
      obtain ⟨identifier, hi⟩ := exists_identifier hl he hc
      refine ⟨identifier, _, hi, find?_slots hl hn he _ hc hcm hi, rfl, ?_, ?_⟩
      · cases c.relation.isPlural <;> rfl
      · cases hp : c.relation.isPlural with
        | true => rfl
        | false =>
          have hlen := related_length_le hl ho hdb he hc hp x
          rw [← hzperm.length_eq, hz.length_eq] at hlen
          simp only [Bool.false_eq_true, if_false]
          match hrs : (t.branchAt c).group (e.part rows (e.keyOf x)) with
          | [] => rfl
          | [_] => rfl
          | _ :: _ :: _ => rw [hrs, List.length_cons, List.length_cons] at hlen; omega
    · exact List.forall₂_zip (hzs c hc hcm).2 hp

/-- **No loss and no duplication.** Whatever the order of the joined rows, their records are one for
every row of the root table, with one record for every related row below each of them. -/
theorem records_depict {d : SchemaDecl} (hs : Schema.ofDeclaration d = .ok s) {q : Query}
    (hq : q.Over s) (hg : q.groupBys = []) (hd : q.distinct = false)
    (h : compile .objects lead q = .ok t) (hdb : Contents.Consistent eq db s) {rows : List Row}
    (hrows : rows.Perm ((t.source.joined eq db).map t.rowOf)) :
    ∃ xs : List Tuple, xs.Perm (db t.root.table.name) ∧
      xs.length = (Unpacker.records t rows).length ∧
        ∀ p ∈ xs.zip (Unpacker.records t rows), t.Depicts eq db t.root p.1 p.2 := by
  have hsound := Schema.ofDeclaration_sound hs
  have hl := compile_linked h
  have ho := compile_over hq h
  have hk := compile_keyed hsound hq hg hd h
  have hn := ho.named hsound hl (compile_nodup h)
  have hroot : t.root ∈ t.elements := List.mem_cons_self
  have hslice : Slice eq db t t.root (fun _ => True) rows (db t.root.table.name) := by
    refine ⟨fun row => ?_, fun x => ?_, fun _ _ _ _ => trivial, rows_nodup ho hdb hroot,
      fun _ hx => hx⟩
    · simp only [hrows.mem_iff, List.mem_map, true_and]
    · simp only [true_and]
      exact hl.root_joined x
  obtain ⟨xs, hperm, hxs⟩ := hslice.depicts hl ho hk hn hdb hroot (root_materialized h)
  rw [← records_eq_branchAt h hk] at hxs
  exact ⟨xs, hperm, hxs.length_eq, fun p hp => List.forall₂_zip hxs hp⟩

end JoinTree

namespace Library

/-- Two authors, of whom one has two books, with tags of which one is linked twice. -/
def contents : Contents
  | "authors" => [tuple [("id", .int 1), ("name", .text "Ann")],
      tuple [("id", .int 2), ("name", .text "Bob")]]
  | "books" => [
      tuple [("id", .int 1), ("title", .text "Sea"), ("author_id", .int 1), ("version", .int 1)],
      tuple [("id", .int 2), ("title", .text "Sky"), ("author_id", .int 1), ("version", .int 1)]]
  | "tags" => [tuple [("id", .int 1), ("label", .text "new")],
      tuple [("id", .int 2), ("label", .text "old")]]
  | "book_tags" => [tuple [("book_id", .int 1), ("tag_id", .int 1)],
      tuple [("book_id", .int 1), ("tag_id", .int 1)],
      tuple [("book_id", .int 1), ("tag_id", .int 2)]]
  | _ => []

theorem consistent {s : Schema} (h : Schema.ofDeclaration declaration = .ok s) :
    Contents.Consistent equality contents s := by
  have hall : (match Schema.ofDeclaration declaration with
      | .ok s => decide ((∀ t ∈ s.tables, ∀ x ∈ contents t.name, x t.primaryKey.name ≠ .null) ∧
          (∀ t ∈ s.tables, (contents t.name).Pairwise fun x y =>
            equality.holds (x t.primaryKey.name) (y t.primaryKey.name) = false) ∧
          (∀ t ∈ s.tables, (contents t.name).Pairwise fun x y =>
            (x t.primaryKey.name).key? ≠ (y t.primaryKey.name).key?) ∧
          ∀ t ∈ s.tables, ∀ r ∈ t.reverses, r.unique = true → (contents r.source).Pairwise
            fun x y => equality.holds (x r.column) (y r.column) = false)
      | .error _ => false) = true := by decide +kernel
  rw [h] at hall
  obtain ⟨h1, h2, h3, h4⟩ := of_decide_eq_true hall
  exact ⟨h1, h2, h3, h4⟩

end Library

theorem JoinTree.library_depicted : ∃ s q t, Library.tree = .ok (s, q, t) ∧ ∃ xs : List Tuple,
    xs.Perm (Library.contents t.root.table.name) ∧
      let rows := (t.source.joined Library.equality Library.contents).map t.rowOf
      xs.length = (Unpacker.records t rows).length ∧ ∀ p ∈ xs.zip (Unpacker.records t rows),
        t.Depicts Library.equality Library.contents t.root p.1 p.2 := by
  obtain ⟨s, q, t, h⟩ := Library.exists_tree
  obtain ⟨hs, hq, ht⟩ := Library.tree_cases h
  obtain ⟨-, hg, -, -, -, -, hd⟩ := Library.query_plain hq
  exact ⟨s, q, t, h, records_depict hs (Library.query_over hq) hg hd ht (Library.consistent hs)
    (List.Perm.refl _)⟩

end RecordGraph
