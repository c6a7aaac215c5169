import Mathlib.Data.List.Pairwise
import RecordGraph.Proofs.Record.Lossless
import RecordGraph.Proofs.Sql.Engine

/-!
# The rows of the root

Every joined row goes back to a row of the root. Where a tree joins at most one row everywhere, it
does so once for every row of the root; elsewhere the keys of the root tell how many there are.

**Results.**
* `JoinTree.Linked.joined_roots`: without joins to many rows, every row of the root is joined once.
* `JoinTree.Fits.holds_rootRef`: a database tells the rows of the root apart as their keys do.
* `JoinTree.Fits.keysIn_rowOf`: the keys that an unpacker finds are those of the rows of the root.
* `JoinTree.records_length`: as many records are made of rows as there are keys in them.
-/
namespace RecordGraph

/-! ## Joins to one row -/

namespace JoinClause

variable {eq : Equality} {db : Contents}

/-- Where at most one row meets the condition, a joined row goes on once. -/
theorem exists_join_eq {j : JoinClause} {r : Joined}
    (h : (j.candidates eq db r).length ≤ 1) : ∃ v, j.join eq db r = [r.set j.label v] ∧
      ∀ x, v = some x → x ∈ db j.table := by
  unfold join
  match hc : j.candidates eq db r with
  | [] => exact ⟨none, rfl, nofun⟩
  | [x] =>
    refine ⟨some x, rfl, ?_⟩
    rintro _ ⟨⟩
    have hx : x ∈ j.candidates eq db r := by rw [hc]; exact List.mem_singleton_self x
    exact (List.mem_filter.1 hx).1
  | _ :: _ :: _ => rw [hc, List.length_cons, List.length_cons] at h; omega

/-- Nothing meets a condition on a row that is not there. -/
theorem candidates_of_none {table label own start column : String} (h : start ≠ label) {r : Joined}
    (hr : r start = none) :
    candidates eq db ⟨table, label, ⟨label, own⟩, ⟨start, column⟩⟩ r = [] := by
  refine List.filter_eq_nil_iff.2 fun x _ hh => ?_
  rw [Joined.value_set_self, Joined.value_set_of_ne r _ h] at hh
  obtain ⟨y, hy, -⟩ := holds_value hh
  rw [hr] at hy
  cases hy

/-- What meets a condition on a row that is there. -/
theorem candidates_of_some {table label own start column : String} (h : start ≠ label) {r : Joined}
    {x : Tuple} (hr : r start = some x) :
    candidates eq db ⟨table, label, ⟨label, own⟩, ⟨start, column⟩⟩ r =
      (db table).filter fun y => eq.holds (y own) (x column) := by
  refine List.filter_congr fun y _ => ?_
  rw [Joined.value_set_self, Joined.value_set_of_ne r _ h]
  simp only [Joined.value, hr]

end JoinClause

/-- A relation to one row is joined in one step, which finds the rows that are related. -/
theorem Element.exists_joinClauses_eq (eq : Equality) (db : Contents) {p e : Element}
    (hp : p.label ∉ e.labels) (hroot : e.relation ≠ .root) (hone : e.relation.isPlural = false) :
    ∃ j, p.joinClauses e = [j] ∧ j.label = e.label ∧ j.table = e.table.name ∧
      ∀ r : Joined, j.candidates eq db r =
        (r p.label).elim [] (Element.related eq db p e) := by
  simp only [labels, List.mem_cons, List.not_mem_nil, or_false, not_or] at hp
  unfold joinClauses related
  cases hrel : e.relation with
  | root => exact absurd hrel hroot
  | manyMany m => rw [hrel] at hone; cases hone
  | reference ref =>
    refine ⟨_, rfl, rfl, rfl, fun r => ?_⟩
    cases hr : r p.label with
    | none => exact JoinClause.candidates_of_none hp.1 hr
    | some x => exact JoinClause.candidates_of_some hp.1 hr
  | reverse rev =>
    refine ⟨_, rfl, rfl, rfl, fun r => ?_⟩
    cases hr : r p.label with
    | none => exact JoinClause.candidates_of_none hp.1 hr
    | some x => exact JoinClause.candidates_of_some hp.1 hr

namespace JoinTree

/-- Contents as the joins of a tree expect them: the keys of the root tell its rows apart and are
not null, and a relation to one row finds one at most. -/
structure Fits (t : JoinTree) (eq : Equality) (db : Contents) : Prop where
  key_ne_null : ∀ x ∈ db t.root.table.name, x t.root.table.primaryKey.name ≠ .null
  key_unique : (db t.root.table.name).Pairwise fun x y =>
    eq.holds (x t.root.table.primaryKey.name) (y t.root.table.primaryKey.name) = false
  key_distinct : (db t.root.table.name).Pairwise fun x y =>
    (x t.root.table.primaryKey.name).key? ≠ (y t.root.table.primaryKey.name).key?
  single : ∀ p ∈ t.elements, ∀ e ∈ t.elements, e.parent = some p.id →
    e.relation.isPlural = false → ∀ x ∈ db p.table.name, (Element.related eq db p e x).length ≤ 1

variable {lead : String} {t : JoinTree} {eq : Equality} {db : Contents}

/-- What stands for some elements is in their tables. -/
def Stored (db : Contents) (es : List Element) (r : Joined) : Prop :=
  ∀ e ∈ es, ∀ x, r e.label = some x → x ∈ db e.table.name

section
variable (hl : t.Linked lead) (hplain : t.fansOut = false) (hfits : t.Fits eq db)
include hl hplain hfits

/-- An element is joined to the elements before it in one way. -/
theorem Linked.exists_extend_one {before after : List Element} {e : Element}
    (helements : t.elements = before ++ e :: after) (he : e ∈ t.rest) {r : Joined}
    (hr : Stored db before r) :
    ∃ r', JoinClause.extend eq db (t.clausesOf e) r = [r'] ∧ Stored db (before ++ [e]) r' := by
  have hmem : e ∈ t.elements := List.mem_cons_of_mem _ he
  obtain ⟨p, hp, hparent, hlt, -⟩ := hl.parent e he
  obtain ⟨-, -, hlabels, -, hroot⟩ := hl.child_facts hp hmem hparent
  have hone : e.relation.isPlural = false := by simpa using List.any_eq_false.1 hplain e hmem
  have hpair := hl.ids_pairwise
  rw [helements, List.pairwise_append] at hpair
  have hpb : p ∈ before := by
    rw [helements, List.mem_append, List.mem_cons] at hp
    rcases hp with hp | rfl | hp
    · exact hp
    · exact absurd hlt (Nat.lt_irrefl _)
    · exact absurd hlt (Nat.lt_asymm ((List.pairwise_cons.1 hpair.2.1).1 p hp))
  obtain ⟨j, hj, hjl, hjt, hcandidates⟩ :=
    Element.exists_joinClauses_eq eq db hlabels hroot hone
  have hlength : (j.candidates eq db r).length ≤ 1 := by
    rw [hcandidates]
    cases hx : r p.label with
    | none => exact Nat.zero_le 1
    | some x => exact hfits.single p hp e hmem hparent hone x (hr p hpb x hx)
  obtain ⟨v, hjoin, hv⟩ := JoinClause.exists_join_eq hlength
  refine ⟨r.set e.label v, ?_, fun a ha x hx => ?_⟩
  · rw [hl.clausesOf_eq hp hparent, hj, JoinClause.extend, hjoin, hjl, List.flatMap_singleton,
      JoinClause.extend]
  · rcases List.mem_append.1 ha with ha | ha
    · have hne : a.label ≠ e.label := fun h => by
        have hae := hl.eq_of_label (helements ▸ List.mem_append_left _ ha) hmem h
        exact Nat.lt_irrefl _ (hae ▸ hpair.2.2 a ha e List.mem_cons_self)
      rw [Joined.set_of_ne r v hne] at hx
      exact hr a ha x hx
    · obtain rfl := List.mem_singleton.1 ha
      rw [Joined.set_self] at hx
      exact hjt ▸ hv x hx

/-- So are all elements, one after the other. -/
theorem Linked.exists_extend_all : ∀ (after before : List Element) (r : Joined),
    t.elements = before ++ after → (∀ e ∈ after, e ∈ t.rest) → Stored db before r →
      ∃ r', JoinClause.extend eq db (after.flatMap t.clausesOf) r = [r']
  | [], _, r, _, _, _ => ⟨r, rfl⟩
  | e :: after, before, r, helements, hrest, hr => by
    obtain ⟨r₁, h₁, hr₁⟩ := hl.exists_extend_one hplain hfits helements
      (hrest e List.mem_cons_self) hr
    obtain ⟨r', h⟩ := exists_extend_all after (before ++ [e]) r₁
      (by rw [helements, List.append_assoc, List.singleton_append])
      (fun a ha => hrest a (List.mem_cons_of_mem _ ha)) hr₁
    exact ⟨r', by rw [List.flatMap_cons, JoinClause.extend_append, h₁, List.flatMap_singleton, h]⟩

/-- **Joins to one row.** Without joins to many rows, every row of the root is joined once. -/
theorem Linked.joined_roots :
    (t.source.joined eq db).map (· t.root.label) = (db t.root.table.name).map some := by
  have hone : ∀ x ∈ db t.root.table.name, (JoinClause.extend eq db t.source.joins
      (Joined.set (fun _ => none) t.root.label (some x))).map (· t.root.label) = [some x] := by
    intro x hx
    obtain ⟨r', hr'⟩ := hl.exists_extend_all hplain hfits t.rest [t.root]
      (Joined.set (fun _ => none) t.root.label (some x)) rfl (fun _ h => h) fun a ha y hy => by
        obtain rfl := List.mem_singleton.1 ha
        rw [Joined.set_self] at hy
        exact Option.some.inj hy ▸ hx
    rw [← source_joins] at hr'
    have hroot := hl.root_of_extend (hr' ▸ List.mem_singleton_self r')
    rw [hr', List.map_singleton, hroot]
  rw [From.joined, JoinClause.foldl_join_eq, List.flatMap_map, List.map_flatMap]
  exact (List.flatMap_congr hone).trans List.map_eq_flatMap.symm

end

/-! ## Keys of the root -/

/-- The key column of the root. -/
def rootRef (t : JoinTree) : ColumnRef := ⟨t.root.label, t.root.table.primaryKey.name⟩

/-- The key of the row that stands for the root. -/
def rootKey (t : JoinTree) (r : Joined) : Key := (r t.root.label).elim default t.root.keyOf

/-- A joined row shows the key of a row of the root. -/
theorem Linked.exists_rootKey (hl : t.Linked lead) {r : Joined} (hr : r ∈ t.source.joined eq db) :
    ∃ x ∈ db t.root.table.name, r.value t.rootRef = x t.root.table.primaryKey.name ∧
      t.rootKey r = t.root.keyOf x := by
  obtain ⟨x, hx, hrx⟩ := hl.root_of_joined hr
  exact ⟨x, hx, by simp only [Joined.value, rootRef, hrx], by rw [rootKey, hrx, Option.elim_some]⟩

namespace Fits

variable (hfits : t.Fits eq db)
include hfits

/-- Where rows of the root are joined once, so are their keys. -/
theorem rootKeys_nodup (hl : t.Linked lead) (hplain : t.fansOut = false) :
    ((t.source.joined eq db).map t.rootKey).Nodup := by
  have hkeys : (t.source.joined eq db).map t.rootKey =
      ((t.source.joined eq db).map (· t.root.label)).map (Option.elim · default t.root.keyOf) := by
    rw [List.map_map]
    rfl
  rw [hkeys, hl.joined_roots hplain hfits, List.map_map]
  exact Element.keys_nodup hfits.key_ne_null hfits.key_distinct

section
variable (hl : t.Linked lead) {r r' : Joined} (hr : r ∈ t.source.joined eq db)
  (hr' : r' ∈ t.source.joined eq db)
include hl hr

theorem rootRef_ne_null : r.value t.rootRef ≠ .null := by
  obtain ⟨x, hx, hv, -⟩ := hl.exists_rootKey hr
  exact hv ▸ hfits.key_ne_null x hx

include hr'

/-- A database tells the rows of the root apart as their keys do. -/
theorem holds_rootRef (hrefl : ∀ v, v ≠ .null → eq.holds v v = true) :
    eq.holds (r.value t.rootRef) (r'.value t.rootRef) = (t.rootKey r == t.rootKey r') := by
  obtain ⟨x, hx, hv, hk⟩ := hl.exists_rootKey hr
  obtain ⟨y, hy, hv', hk'⟩ := hl.exists_rootKey hr'
  rw [hv, hv', hk, hk']
  by_cases hxy : x = y
  · subst hxy
    rw [hrefl _ (hfits.key_ne_null x hx), beq_self_eq_true]
  · have hsymm : Std.Symm fun x y : Tuple => eq.holds (x t.root.table.primaryKey.name)
        (y t.root.table.primaryKey.name) = false := ⟨fun a b h => by
      rw [← Bool.not_eq_true] at h ⊢
      exact fun hba => h (eq.symm _ _ hba)⟩
    rw [hfits.key_unique.forall hx hy hxy, eq_comm, beq_eq_false_iff_ne]
    exact fun h => hxy (List.inj_on_of_nodup_map
      (Element.keys_nodup hfits.key_ne_null hfits.key_distinct) hx hy h)

end

/-- The keys that an unpacker finds are those of the rows of the root. -/
theorem keysIn_rowOf {s : Schema} (hl : t.Linked lead) (ho : t.Over s) (hk : t.Keyed)
    (hm : t.root.materialized = true) {rs : List Joined}
    (hrs : ∀ r ∈ rs, r ∈ t.source.joined eq db) :
    t.root.keysIn (rs.map t.rowOf) = (rs.map t.rootKey).eraseDups := by
  have hkeys : (rs.map t.rowOf).filterMap t.root.keyIn? = rs.map t.rootKey := by
    rw [List.filterMap_map, ← List.filterMap_eq_map]
    refine List.filterMap_congr fun r hr => ?_
    obtain ⟨x, hx, hrx⟩ := hl.root_of_joined (hrs r hr)
    rw [Function.comp_apply, Function.comp_apply,
      keyIn?_rowOf hl ho hk List.mem_cons_self hm, hrx, Option.bind_some,
      Element.key?_eq_keyOf (hfits.key_ne_null x hx), rootKey, hrx, Option.elim_some]
  rw [Element.keysIn, hkeys]

end Fits

/-- Consistent contents fit every tree over their schema. -/
theorem Fits.of_consistent {s : Schema} (hl : t.Linked lead) (ho : t.Over s)
    (hdb : Contents.Consistent eq db s) : t.Fits eq db where
  key_ne_null := hdb.key_ne_null _ (Schema.mem_of_join? (ho.joins t.root List.mem_cons_self))
  key_unique := hdb.key_unique _ (Schema.mem_of_join? (ho.joins t.root List.mem_cons_self))
  key_distinct := hdb.key_distinct _ (Schema.mem_of_join? (ho.joins t.root List.mem_cons_self))
  single p hp e he hparent hone x _ :=
    have hchild : e ∈ t.childrenOf p := List.mem_filter.2 ⟨he, beq_iff_eq.2 hparent⟩
    related_length_le hl ho hdb hp hchild hone x

/-- As many records are made of rows as there are keys of the root in them. -/
theorem records_length {projection : Projection} {q : Query} (h : compile projection lead q = .ok t)
    (hk : t.Keyed) (rows : List Row) :
    (Unpacker.records t rows).length = (t.root.keysIn rows).length := by
  rw [records_eq_branchAt h hk, group_branchAt (compile_linked h), List.length_map]

end JoinTree

end RecordGraph
