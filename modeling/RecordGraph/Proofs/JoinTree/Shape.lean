import Mathlib.Data.List.Nodup
import RecordGraph.Proofs.JoinTree.PathOrder
import RecordGraph.Proofs.Node.Over

/-!
# The shape of a compiled join tree

The elements of a `JoinTree` are the joins of a query in the order of their paths. That order is a
pre-order of the tree: an element comes before the elements below it, and these come together.

* `Reads.order_sorted`, `Reads.idOf_lt_iff`: numbers are ordered as paths are.
* `JoinTree.under_iff`: below an element are the elements whose paths go on from its own.
* `JoinTree.compile_shape`: what is joined, how it is numbered and linked, and what is found.
-/
namespace RecordGraph

namespace Reads

section
variable {r : Reads} (hc : r.Closed)

theorem order_perm (r : Reads) : r.order.Perm (r.root :: r.joins) := (List.mergeSort_perm ..).cons _

theorem mem_order {j : Join} : j ∈ r.order ↔ j = r.root ∨ j ∈ r.joins := by
  rw [(order_perm r).mem_iff, List.mem_cons]

theorem mem_paths_iff {p : Path} : p ∈ r.paths ↔ ∃ j ∈ r.order, j.path = p := by
  rw [paths, List.mem_map]; simp only [(order_perm r).mem_iff]

include hc

theorem order_nodup : (r.order.map (·.path)).Nodup :=
  ((order_perm r).map _).nodup_iff.2 hc.nodup

theorem path_ne_nil {j : Join} (hj : j ∈ r.order) : j.path ≠ [] := by
  rcases mem_order.1 hj with rfl | hj
  · have := hc.root_length
    intro h
    simp [h] at this
  · obtain ⟨start, hop, -, -, -, hp⟩ := hc.start_mem j hj
    simp [hp]

/-- All joins go on from the root. -/
theorem root_isPrefix {j : Join} (hj : j ∈ r.order) : r.root.path <+: j.path := by
  have hne := path_ne_nil hc hj
  have hin : j.path ∈ r.paths := mem_paths_iff.2 ⟨j, hj, rfl⟩
  have htake : j.path.take 1 ∈ r.paths :=
    hc.mem_of_isPrefix hin (List.take_prefix _ _) (by simpa using hne)
  have hlen : (j.path.take 1).length = 1 := by
    have := List.length_pos_iff.2 hne
    rw [List.length_take]; omega
  obtain ⟨k, hk, hpath⟩ := mem_paths_iff.1 htake
  rcases mem_order.1 hk with rfl | hk
  · exact hpath ▸ List.take_prefix _ _
  · obtain ⟨start, hop, -, hn, -, hp⟩ := hc.start_mem k hk
    have := List.length_pos_iff.2 hn
    rw [← hpath, hp, List.length_append, List.length_singleton] at hlen
    omega

/-- The joins are listed by strictly increasing paths. -/
theorem order_sorted : r.order.Pairwise fun a b => Path.compare a.path b.path = .lt := by
  have hnd := order_nodup hc
  rw [List.nodup_iff_pairwise_ne, List.pairwise_map] at hnd
  have hle : r.order.Pairwise fun a b => (Path.compare a.path b.path).isLE := by
    refine List.pairwise_cons.2 ⟨fun j hj => ?_, ?_⟩
    · have hp := root_isPrefix hc (mem_order.2 (.inr (List.mem_mergeSort.1 hj)))
      by_cases he : r.root.path = j.path
      · rw [he, Path.compare_self]; rfl
      · rw [Path.compare_of_isPrefix hp he]; rfl
    · refine List.pairwise_mergeSort ?_ ?_ _
      · exact fun a b c => Std.TransCmp.isLE_trans
      · intro a b
        rw [Path.compare_swap a.path b.path]
        cases Path.compare a.path b.path <;> rfl
  refine hle.imp₂ (fun a b hle hne => ?_) hnd
  rcases Ordering.isLE_iff_eq_lt_or_eq_eq.1 hle with h | h
  · exact h
  · exact absurd (Std.LawfulEqCmp.eq_of_compare h) hne

/-- The number of a join is its place. -/
theorem idOf_eq {i : Nat} {j : Join} (h : r.order[i]? = some j) : r.idOf j.path = i := by
  obtain ⟨hi, rfl⟩ := List.getElem?_eq_some_iff.1 h
  refine (List.findIdx_eq hi).2 ⟨by simp, fun k hk => ?_⟩
  have := List.pairwise_iff_getElem.1 (order_sorted hc) k i (by omega) hi hk
  rw [beq_eq_false_iff_ne]
  intro he
  rw [he, Path.compare_self] at this
  cases this

theorem getElem?_idOf {j : Join} (hj : j ∈ r.order) : r.order[r.idOf j.path]? = some j := by
  obtain ⟨i, hi⟩ := List.getElem?_of_mem hj
  rw [idOf_eq hc hi, hi]

theorem idOf_inj {a b : Join} (ha : a ∈ r.order) (hb : b ∈ r.order)
    (h : r.idOf a.path = r.idOf b.path) : a = b := by
  have := getElem?_idOf hc ha
  rw [h, getElem?_idOf hc hb] at this
  exact (Option.some.inj this).symm

/-- Numbers are ordered as paths are. -/
theorem idOf_lt_iff {a b : Join} (ha : a ∈ r.order) (hb : b ∈ r.order) :
    r.idOf a.path < r.idOf b.path ↔ Path.compare a.path b.path = .lt := by
  have key : ∀ {a b : Join}, a ∈ r.order → b ∈ r.order → r.idOf a.path < r.idOf b.path →
      Path.compare a.path b.path = .lt := by
    intro a b ha hb h
    obtain ⟨hi, hia⟩ := List.getElem?_eq_some_iff.1 (getElem?_idOf hc ha)
    obtain ⟨hj, hjb⟩ := List.getElem?_eq_some_iff.1 (getElem?_idOf hc hb)
    have := List.pairwise_iff_getElem.1 (order_sorted hc) _ _ hi hj h
    rwa [hia, hjb] at this
  refine ⟨key ha hb, fun h => ?_⟩
  rcases Nat.lt_trichotomy (r.idOf a.path) (r.idOf b.path) with hlt | heq | hgt
  · exact hlt
  · rw [idOf_inj hc ha hb heq, Path.compare_self] at h
    cases h
  · have := Std.OrientedCmp.gt_of_lt (key hb ha hgt)
    rw [this] at h
    cases h

theorem idOf_le_iff {a b : Join} (ha : a ∈ r.order) (hb : b ∈ r.order) :
    r.idOf a.path ≤ r.idOf b.path ↔ (Path.compare a.path b.path).isLE := by
  rw [← Nat.not_lt, idOf_lt_iff hc hb ha, Path.compare_swap a.path b.path]
  cases Path.compare a.path b.path <;> simp

end

theorem materialized_iff {r : Reads} {path : Path} : r.materialized path = true ↔
    path = r.root.path ∨ (∃ c ∈ r.columns, c.selected = true ∧ path <+: c.path) ∨
      ∃ d ∈ r.calculations, path <+: d.path := by
  simp [materialized, or_assoc]

/-- What is on the way to an element with objects gives objects. -/
theorem materialized_of_isPrefix {r : Reads} (hc : r.Closed) {path way : Path}
    (h : r.materialized path = true) (hw : way <+: path) (hne : way ≠ []) :
    r.materialized way = true := by
  rw [materialized_iff] at h ⊢
  rcases h with rfl | ⟨c, hcm, hs, hp⟩ | ⟨d, hdm, hp⟩
  · refine .inl (hw.eq_of_length_le ?_)
    rw [hc.root_length]
    exact List.length_pos_iff.2 hne
  · exact .inr (.inl ⟨c, hcm, hs, hw.trans hp⟩)
  · exact .inr (.inr ⟨d, hdm, hw.trans hp⟩)

end Reads

namespace JoinTree

/-- `t.Under a i`: the element numbered `i` is the one numbered `a`, or below it. -/
inductive Under (t : JoinTree) (a : Nat) : Nat → Prop where
  | self : Under t a a
  | child {e : Element} {p : Nat} : e ∈ t.elements → e.parent = some p → Under t a p →
      Under t a e.id

/-- The elements of a tree are numbered in pre-order and linked in both directions. -/
structure Linked (lead : String) (t : JoinTree) : Prop where
  numbered : ∀ (i : Nat) (e : Element), t.elements[i]? = some e →
    e.id = i ∧ e.label = lead ++ "t" ++ toString i
  root : t.root.relation = .root ∧ t.root.parent = none
  /-- An element goes on from its parent, which comes before it, by one hop. -/
  parent : ∀ e ∈ t.rest, ∃ p ∈ t.elements, e.parent = some p.id ∧ p.id < e.id ∧
    ∃ hop, e.relation.hop? = some hop ∧ e.path = p.path ++ [hop]
  /-- What is below an element comes right behind it. -/
  contiguous : ∀ e ∈ t.elements, ∀ i k, t.Under e.id k → e.id ≤ i → i ≤ k → t.Under e.id i
  children : ∀ e ∈ t.elements, ∀ i, i ∈ e.children ↔
    ∃ c ∈ t.elements, c.id = i ∧ c.parent = some e.id
  /-- The children of an element are listed by strictly increasing last hops. -/
  sorted : ∀ e ∈ t.elements, e.children.Pairwise fun i k => ∃ c d a b,
    t.element? i = some c ∧ t.element? k = some d ∧
      c.path = e.path ++ [a] ∧ d.path = e.path ++ [b] ∧ a.compare b = .lt

/-- A tree of the joins that a query needs. -/
structure Shaped (lead : String) (q : Query) (t : JoinTree) : Prop extends t.Linked lead where
  /-- There is an element for every way to a place that the query mentions, and for no other. -/
  joined : ∀ p, (∃ e ∈ t.elements, e.path = p) ↔ p ≠ [] ∧ ∃ full ∈ q.placesRead, p <+: full
  nodup : (t.elements.map (·.path)).Nodup
  find?_path : ∀ e ∈ t.elements, t.find? e.path = some e
  find?_none : ∀ p, (∀ e ∈ t.elements, e.path ≠ p) → t.find? p = none

/-- A compiled tree is made of what the query reads. -/
theorem compile_cases {projection : Projection} {lead : String} {q : Query} {t : JoinTree}
    (h : compile projection lead q = .ok t) :
    ∃ r keys, Reads.ofQuery? q = .ok r ∧
      keys = (projection == .objects && !(!q.groupBys.isEmpty) && !q.distinct) ∧
      t.root = r.element lead keys r.root ∧ t.elements = r.order.map (r.element lead keys) := by
  obtain ⟨r, hr, ht⟩ := bind_eq_ok_iff.1 h
  cases ht
  exact ⟨r, _, mapError_eq_ok_iff.1 hr, rfl, rfl, rfl⟩

/-- A query that cannot be compiled is an invalid one. -/
theorem compile_ok_or_invalid (projection : Projection) (lead : String) (q : Query) :
    (∃ t, compile projection lead q = .ok t) ∨
      ∃ fault, compile projection lead q = .error (.invalidQuery fault) := by
  cases h : Reads.ofQuery? q with
  | ok r => exact .inl ⟨_, by rw [compile, h]; rfl⟩
  | error fault => exact .inr ⟨fault, by rw [compile, h]; rfl⟩

section
variable {r : Reads} (hc : r.Closed) {lead : String} {keys : Bool} {t : JoinTree}
  (ht : t.elements = r.order.map (r.element lead keys))

include hc in
/-- The parent of an element is the join before its last hop. -/
theorem parent_eq_some_iff {j k : Join} (hj : j ∈ r.order) (hk : k ∈ r.order) :
    (r.element lead keys j).parent = some (r.idOf k.path) ↔ ∃ hop, j.path = k.path ++ [hop] := by
  have hne := Reads.path_ne_nil hc hk
  simp only [Reads.element]
  constructor
  · intro h
    split at h
    · simp at h
    · rename_i hlen
      have hjne : j.path ≠ [] := Reads.path_ne_nil hc hj
      have hin : j.path.dropLast ∈ r.paths := by
        refine hc.mem_of_isPrefix (Reads.mem_paths_iff.2 ⟨j, hj, rfl⟩) (List.dropLast_prefix _) ?_
        intro h0
        have := congrArg List.length h0
        rw [List.length_dropLast, List.length_nil] at this
        omega
      obtain ⟨m, hm, hmp⟩ := Reads.mem_paths_iff.1 hin
      rw [← hmp] at h
      obtain rfl := Reads.idOf_inj hc hm hk (Option.some.inj h)
      exact ⟨j.path.getLast hjne, by rw [hmp, List.dropLast_append_getLast]⟩
  · rintro ⟨hop, hp⟩
    have := List.length_pos_iff.2 hne
    rw [if_neg (by rw [hp, List.length_append, List.length_singleton]; omega), hp,
      List.dropLast_concat]

include ht

theorem mem_elements {e : Element} : e ∈ t.elements ↔ ∃ j ∈ r.order, r.element lead keys j = e := by
  rw [ht, List.mem_map]

include hc

theorem under_iff {a : Join} (ha : a ∈ r.order) {i : Nat} :
    t.Under (r.idOf a.path) i ↔ ∃ j ∈ r.order, r.idOf j.path = i ∧ a.path <+: j.path := by
  constructor
  · intro h
    induction h with
    | self => exact ⟨a, ha, rfl, List.prefix_rfl⟩
    | child he hp _ ih =>
      obtain ⟨k, hk, rfl, hak⟩ := ih
      obtain ⟨j, hj, rfl⟩ := (mem_elements ht).1 he
      obtain ⟨hop, hpath⟩ := (parent_eq_some_iff hc hj hk).1 hp
      exact ⟨j, hj, rfl, hpath ▸ hak.trans (List.prefix_append _ _)⟩
  · rintro ⟨j, hj, rfl, h⟩
    -- on the number of hops
    induction hn : j.path.length using Nat.strongRecOn generalizing j with
    | ind n ih =>
      by_cases he : a.path = j.path
      · rw [he]; exact .self
      · have hjr : j ∈ r.joins := by
          refine (Reads.mem_order.1 hj).resolve_left fun hroot => he ?_
          refine h.eq_of_length_le ?_
          have := List.length_pos_iff.2 (Reads.path_ne_nil hc ha)
          rw [hroot, hc.root_length]; omega
        obtain ⟨start, hop, hs, -, -, hp⟩ := hc.start_mem j hjr
        obtain ⟨k, hk, rfl⟩ := Reads.mem_paths_iff.1 hs
        have hak : a.path <+: k.path := by
          rw [hp] at h he
          exact (List.prefix_concat_iff.1 h).resolve_left he
        have hlen : k.path.length < n := by
          rw [← hn, hp, List.length_append, List.length_singleton]; omega
        exact .child ((mem_elements ht).2 ⟨j, hj, rfl⟩)
          ((parent_eq_some_iff hc hj hk).2 ⟨hop, hp⟩) (ih _ hlen k hk hak rfl)

/-- The elements are settled by their paths. -/
theorem elements_nodup : (t.elements.map (·.path)).Nodup := by
  rw [ht, List.map_map]; exact Reads.order_nodup hc

theorem find?_path {e : Element} (he : e ∈ t.elements) : t.find? e.path = some e := by
  cases h : t.find? e.path with
  | none => simpa using List.find?_eq_none.1 h e he
  | some e' =>
    have hp : e'.path = e.path := by simpa using List.find?_some h
    exact congrArg some
      (List.inj_on_of_nodup_map (elements_nodup hc ht) (List.mem_of_find?_eq_some h) he hp)

/-- The element with the number of a join is made of that join. -/
theorem element?_idOf {j : Join} (hj : j ∈ r.order) :
    t.element? (r.idOf j.path) = some (r.element lead keys j) := by
  cases h : t.element? (r.idOf j.path) with
  | none =>
    have := List.find?_eq_none.1 h _ ((mem_elements ht).2 ⟨j, hj, rfl⟩)
    exact absurd (beq_self_eq_true (r.idOf j.path)) this
  | some e =>
    have hid : e.id = r.idOf j.path := by simpa using List.find?_some h
    obtain ⟨k, hk, rfl⟩ := (mem_elements ht).1 (List.mem_of_find?_eq_some h)
    rw [Reads.idOf_inj hc hk hj hid]

omit ht in
/-- The children of a join go on from it by one hop, in the order of these hops. -/
theorem children_eq {j : Join} (hj : j ∈ r.order) : ∃ ks : List Join,
    r.children j.path = ks.map (fun k => r.idOf k.path) ∧
      (∀ k, k ∈ ks ↔ k ∈ r.order ∧ ∃ hop, k.path = j.path ++ [hop]) ∧
      ks.Pairwise fun k m => Path.compare k.path m.path = .lt := by
  refine ⟨_, rfl, fun k => ?_, (Reads.order_sorted hc).filter _⟩
  have hne := List.length_pos_iff.2 (Reads.path_ne_nil hc hj)
  simp only [List.mem_filter, Bool.and_eq_true, decide_eq_true_eq, beq_iff_eq]
  refine and_congr_right fun hk => ⟨?_, ?_⟩
  · rintro ⟨-, hp⟩
    exact ⟨k.path.getLast (Reads.path_ne_nil hc hk), by rw [← hp, List.dropLast_append_getLast]⟩
  · rintro ⟨hop, hp⟩
    rw [hp, List.length_append, List.length_singleton, List.dropLast_concat]
    exact ⟨by omega, rfl⟩

theorem linked_of_closed (hroot : t.root = r.element lead keys r.root)
    (hr : r.root.relation = .root) : t.Linked lead where
  numbered i e h := by
    rw [ht, List.getElem?_map, Option.map_eq_some_iff] at h
    obtain ⟨j, hj, rfl⟩ := h
    have hid := Reads.idOf_eq hc hj
    exact ⟨hid, by simp only [Reads.element, hid]⟩
  root := by
    rw [hroot]
    refine ⟨hr, if_pos ?_⟩
    exact Nat.le_of_eq hc.root_length
  parent e he := by
    have hrest : t.rest = (r.order.tail).map (r.element lead keys) := by
      have := congrArg List.tail ht
      rwa [← List.map_tail] at this
    rw [hrest] at he
    obtain ⟨j, hj, rfl⟩ := List.mem_map.1 he
    have hjr : j ∈ r.joins := List.mem_mergeSort.1 hj
    have hjo := Reads.mem_order.2 (.inr hjr)
    obtain ⟨start, hop, hs, -, hh, hp⟩ := hc.start_mem j hjr
    obtain ⟨k, hk, rfl⟩ := Reads.mem_paths_iff.1 hs
    refine ⟨_, (mem_elements ht).2 ⟨k, hk, rfl⟩, (parent_eq_some_iff hc hjo hk).2 ⟨hop, hp⟩,
      (Reads.idOf_lt_iff hc hk hjo).2 ?_, hop, hh, hp⟩
    exact Path.compare_of_isPrefix (hp ▸ List.prefix_append _ _) (by simp [hp])
  contiguous e he i k h hi hik := by
    obtain ⟨a, ha, rfl⟩ := (mem_elements ht).1 he
    obtain ⟨c, hcm, rfl, hac⟩ := (under_iff hc ht ha).1 h
    obtain ⟨hlt, -⟩ := List.getElem?_eq_some_iff.1 (Reads.getElem?_idOf hc hcm)
    have hb := List.getElem?_eq_getElem (Nat.lt_of_le_of_lt hik hlt)
    have hbm := List.mem_of_getElem? hb
    have hid := Reads.idOf_eq hc hb
    rw [← hid] at hi hik
    refine (under_iff hc ht ha).2 ⟨_, hbm, hid, ?_⟩
    exact Path.isPrefix_of_between hac ((Reads.idOf_le_iff hc ha hbm).1 hi)
      ((Reads.idOf_le_iff hc hbm hcm).1 hik)
  children e he i := by
    obtain ⟨j, hj, rfl⟩ := (mem_elements ht).1 he
    obtain ⟨ks, hks, hmem, -⟩ := children_eq hc hj
    have hch : (r.element lead keys j).children = ks.map fun k => r.idOf k.path := hks
    rw [hch, List.mem_map]
    constructor
    · rintro ⟨k, hk, rfl⟩
      obtain ⟨hk, hop⟩ := (hmem k).1 hk
      exact ⟨_, (mem_elements ht).2 ⟨k, hk, rfl⟩, rfl, (parent_eq_some_iff hc hk hj).2 hop⟩
    · rintro ⟨c, hcm, rfl, hp⟩
      obtain ⟨k, hk, rfl⟩ := (mem_elements ht).1 hcm
      exact ⟨k, (hmem k).2 ⟨hk, (parent_eq_some_iff hc hk hj).1 hp⟩, rfl⟩
  sorted e he := by
    obtain ⟨j, hj, rfl⟩ := (mem_elements ht).1 he
    obtain ⟨ks, hks, hmem, hsorted⟩ := children_eq hc hj
    have hch : (r.element lead keys j).children = ks.map fun k => r.idOf k.path := hks
    rw [hch, List.pairwise_map]
    refine hsorted.imp_of_mem fun {k m} hk hm hlt => ?_
    obtain ⟨hk, a, ha⟩ := (hmem k).1 hk
    obtain ⟨hm, b, hb⟩ := (hmem m).1 hm
    refine ⟨_, _, a, b, element?_idOf hc ht hk, element?_idOf hc ht hm, ha, hb, ?_⟩
    rwa [ha, hb, Path.compare_snoc] at hlt

end

theorem compile_linked {projection : Projection} {lead : String} {q : Query} {t : JoinTree}
    (h : compile projection lead q = .ok t) : t.Linked lead := by
  obtain ⟨r, keys, hr, -, hroot, ht⟩ := compile_cases h
  obtain ⟨table, -, hrr, hc, -⟩ := Reads.ofQuery?_adds hr
  exact linked_of_closed hc ht hroot (by rw [hrr])

theorem compile_nodup {projection : Projection} {lead : String} {q : Query} {t : JoinTree}
    (h : compile projection lead q = .ok t) : (t.elements.map (·.path)).Nodup := by
  obtain ⟨r, keys, hr, -, -, ht⟩ := compile_cases h
  obtain ⟨table, -, -, hc, -⟩ := Reads.ofQuery?_adds hr
  exact elements_nodup hc ht

/-- **Shape.** A compiled tree joins what its query mentions, numbered in pre-order and linked in
both directions. -/
theorem compile_shape {projection : Projection} {lead : String} {q : Query} {t : JoinTree}
    (h : compile projection lead q = .ok t) : t.Shaped lead q := by
  obtain ⟨r, keys, hr, -, -, ht⟩ := compile_cases h
  obtain ⟨table, -, -, hc, hp⟩ := Reads.ofQuery?_adds hr
  refine ⟨compile_linked h, fun p => ?_, compile_nodup h,
    fun e he => find?_path hc ht he, fun p hne => ?_⟩
  · rw [← hp, Reads.mem_paths_iff, ht]
    simp [Reads.element]
  · exact List.find?_eq_none.2 fun e he => by simpa using hne e he

theorem library_shape : ∃ s q t, Library.tree = .ok (s, q, t) ∧ t.Shaped "" q := by
  obtain ⟨s, q, t, h⟩ := Library.exists_tree
  exact ⟨s, q, t, h, compile_shape (Library.tree_cases h).2.2⟩

end JoinTree

end RecordGraph
