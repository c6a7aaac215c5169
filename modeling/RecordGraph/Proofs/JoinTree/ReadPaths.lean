import RecordGraph.JoinTree.Reads
import RecordGraph.Proofs.Outcome

/-!
# The paths that a query reads

`Query.placesRead` lists the places that a query mentions: its root, and every column, calculation
and table-like node in it, through the operands of operations and not into inner queries.
`Reads.ofQuery?` joins exactly the ways to these places.

* `Reads.Closed`: no path is joined twice, and what a join starts from is joined too.
* `Reads.Adds`: what one step of the walk adds; every function of the walk has its lemma.
* `Reads.ofQuery?_adds`: the whole walk.
-/
namespace RecordGraph

/-- The hop by which a relation goes on. -/
def Relation.hop? : Relation → Option Hop
  | .root => none
  | .reference r => some (.reference r.identifier)
  | .reverse r => some (.reverse r.identifier)
  | .manyMany m => some (.manyMany m.identifier)

namespace Node

/-- A relation by the node it starts from, what it is, and the table it leads to. -/
def link? : Node → Option (Node × Relation × Table)
  | .reference p r t => some (p, .reference r, t)
  | .reverse p r t => some (p, .reverse r, t)
  | .manyMany p m t => some (p, .manyMany m, t)
  | _ => none

theorem target?_of_link {n p : Node} {rel : Relation} {t : Table}
    (hl : n.link? = some (p, rel, t)) : n.target? = some t := by
  cases n <;> simp only [link?, Option.some.injEq, Prod.mk.injEq, reduceCtorEq] at hl
  all_goals
    obtain ⟨-, -, rfl⟩ := hl
    rfl

theorem sizeOf_lt_of_link {n p : Node} {rel : Relation} {t : Table}
    (hl : n.link? = some (p, rel, t)) : sizeOf p < sizeOf n := by
  cases n <;> simp only [link?, Option.some.injEq, Prod.mk.injEq, reduceCtorEq] at hl
  all_goals
    obtain ⟨rfl, -, -⟩ := hl
    simp; omega

mutual

/-- The places that a node mentions. -/
def placesRead : Node → List Path
  | .operation _ operands => placesReadAll operands
  | .value _ | .subquery _ => []
  | n => n.path?.toList

def placesReadAll : List Node → List Path
  | [] => []
  | n :: rest => n.placesRead ++ placesReadAll rest

end

/-- A relation's path is the path it starts from and one hop more. -/
theorem path?_of_link {n p : Node} {rel : Relation} {t : Table} {path : Path}
    (hl : n.link? = some (p, rel, t)) (hp : n.path? = some path) :
    ∃ start hop, p.path? = some start ∧ rel.hop? = some hop ∧ path = start ++ [hop] := by
  cases n <;> simp only [link?, Option.some.injEq, Prod.mk.injEq, reduceCtorEq] at hl
  all_goals
    obtain ⟨rfl, rfl, rfl⟩ := hl
    simp only [path?, Option.map_eq_some_iff] at hp
    obtain ⟨start, hs, rfl⟩ := hp
    exact ⟨start, _, hs, rfl, rfl⟩

/-- Every path starts at a table. -/
theorem path?_starts : ∀ {n : Node} {path : Path}, n.path? = some path →
    ∃ d t rest, path = .table d t :: rest
  | .table t, path, h => by
    simp only [path?, Option.some.injEq] at h; exact ⟨_, _, _, h.symm⟩
  | .column p _, path, h => path?_starts (n := p) h
  | .calculated p _, path, h => path?_starts (n := p) h
  | .reference p r _, path, h => by
    obtain ⟨start, hs, rfl⟩ := Option.map_eq_some_iff.1 h
    obtain ⟨d, t, rest, rfl⟩ := path?_starts hs
    exact ⟨d, t, _, List.cons_append⟩
  | .reverse p r _, path, h => by
    obtain ⟨start, hs, rfl⟩ := Option.map_eq_some_iff.1 h
    obtain ⟨d, t, rest, rfl⟩ := path?_starts hs
    exact ⟨d, t, _, List.cons_append⟩
  | .manyMany p r _, path, h => by
    obtain ⟨start, hs, rfl⟩ := Option.map_eq_some_iff.1 h
    obtain ⟨d, t, rest, rfl⟩ := path?_starts hs
    exact ⟨d, t, _, List.cons_append⟩
  | .operation _ _, _, h => by simp [path?] at h
  | .value _, _, h => by simp [path?] at h
  | .subquery _, _, h => by simp [path?] at h

/-- Nodes that mean the same are at the same place. -/
theorem path?_eq_of_alike : ∀ {a b : Node}, a.alike b = true → a.path? = b.path?
  | .table t, b, h => by
    cases b <;> simp only [alike, Bool.and_eq_true, beq_iff_eq, Bool.false_eq_true] at h
    simp [path?, h.1, h.2]
  | .column p _, b, h => by
    cases b <;> simp only [alike, Bool.and_eq_true, Bool.false_eq_true] at h
    simp only [path?, path?_eq_of_alike h.2]
  | .calculated p _, b, h => by
    cases b <;> simp only [alike, Bool.and_eq_true, Bool.false_eq_true] at h
    simp only [path?, path?_eq_of_alike h.2]
  | .reference p _ _, b, h => by
    cases b <;> simp only [alike, Bool.and_eq_true, beq_iff_eq, Bool.false_eq_true] at h
    simp only [path?, path?_eq_of_alike h.2, h.1.2]
  | .reverse p _ _, b, h => by
    cases b <;> simp only [alike, Bool.and_eq_true, beq_iff_eq, Bool.false_eq_true] at h
    simp only [path?, path?_eq_of_alike h.2, h.1.2]
  | .manyMany p _ _, b, h => by
    cases b <;> simp only [alike, Bool.and_eq_true, beq_iff_eq, Bool.false_eq_true] at h
    simp only [path?, path?_eq_of_alike h.2, h.1.2]
  | .operation _ _, b, h => by
    cases b <;> simp only [alike, Bool.false_eq_true] at h
    rfl
  | .value _, b, h => by
    cases b <;> simp only [alike, Bool.false_eq_true] at h
    rfl
  | .subquery _, b, h => by simp [alike] at h

theorem path?_ne_nil {n : Node} {path : Path} (h : n.path? = some path) : path ≠ [] := by
  obtain ⟨d, t, rest, rfl⟩ := path?_starts h
  exact List.cons_ne_nil _ _

end Node

/-- The nodes of a query, the root first. -/
def QueryOf.nodes (q : Query) : List Node :=
  q.root :: (q.groupBys ++ q.selects ++ q.conditions ++ q.orderBys.map (·.node) ++ q.having
    ++ q.calculations.flatMap fun c => [c.target, c.expression])

theorem QueryOf.sizeOf_lt_of_mem_nodes {q : Query} {n : Node} (h : n ∈ q.nodes) :
    sizeOf n < sizeOf q := by
  obtain ⟨root, selects, conditions, orderBys, groupBys, calculations, having, _, _, _, _⟩ := q
  have hmem : ∀ {ns : List Node}, n ∈ ns → sizeOf n < sizeOf ns := List.sizeOf_lt_of_mem
  simp only [nodes, List.mem_cons, List.mem_append, List.mem_map, List.mem_flatMap,
    List.not_mem_nil, or_false] at h
  simp only [QueryOf.mk.sizeOf_spec]
  rcases h with rfl | ((((h | h) | h) | ⟨sort, h, rfl⟩) | h) | ⟨k, h, hk⟩
  · omega
  · have := hmem h
    omega
  · have := hmem h
    omega
  · have := hmem h
    omega
  · have := List.sizeOf_lt_of_mem h
    have : sizeOf sort = 1 + sizeOf sort.node + sizeOf sort.descending := by cases sort; simp
    omega
  · have := hmem h
    omega
  · have := List.sizeOf_lt_of_mem h
    have : sizeOf k = 1 + sizeOf k.target + sizeOf k.name + sizeOf k.expression := by
      cases k; simp
    rcases hk with rfl | rfl <;> omega

/-- The places that a query mentions. -/
def QueryOf.placesRead (q : Query) : List Path := q.nodes.flatMap Node.placesRead

namespace Reads

/-- The paths that are joined, the root first. -/
def paths (r : Reads) : List Path := (r.root :: r.joins).map (·.path)

theorem join?_isSome_iff {r : Reads} {path : Path} : (r.join? path).isSome ↔ path ∈ r.paths := by
  simp only [join?, paths, List.find?_isSome, List.mem_map, beq_iff_eq]

theorem mem_of_join? {r : Reads} {path : Path} {j : Join} (h : r.join? path = some j) :
    j ∈ r.root :: r.joins ∧ j.path = path :=
  ⟨List.mem_of_find?_eq_some h, by simpa using List.find?_some h⟩

/-- The joins hang together: no path comes twice, and each goes on from another by the hop of its
relation. -/
structure Closed (r : Reads) : Prop where
  root_length : r.root.path.length = 1
  nodup : r.paths.Nodup
  start_mem : ∀ j ∈ r.joins, ∃ start hop, start ∈ r.paths ∧ start ≠ [] ∧
    j.relation.hop? = some hop ∧ j.path = start ++ [hop]

/-- The whole way to a joined path is joined. -/
theorem Closed.mem_of_isPrefix {r : Reads} (hc : r.Closed) {p q : Path} (hq : q ∈ r.paths)
    (hp : p <+: q) (hne : p ≠ []) : p ∈ r.paths := by
  -- on the number of hops in `q`
  induction hn : q.length using Nat.strongRecOn generalizing q with
  | ind n ih =>
    have hpos := List.length_pos_iff.2 hne
    simp only [paths, List.map_cons, List.mem_cons, List.mem_map] at hq
    rcases hq with rfl | ⟨j, hj, rfl⟩
    · have := hc.root_length
      rw [hp.eq_of_length_le (by omega)]
      exact List.mem_cons_self
    · obtain ⟨start, hop, hs, -, -, hpath⟩ := hc.start_mem j hj
      rw [hpath] at hp hn
      rcases List.prefix_concat_iff.1 hp with rfl | hp
      · exact hpath ▸ List.mem_cons_of_mem _ (List.mem_map_of_mem hj)
      · exact ih start.length (by simp at hn; omega) hs hp rfl

/-- `r'` is `r` with the ways to some places joined. -/
structure Adds (r r' : Reads) (places : List Path) : Prop where
  closed : r'.Closed
  root : r'.root = r.root
  mem_paths : ∀ p, p ∈ r'.paths ↔ p ∈ r.paths ∨ p ≠ [] ∧ ∃ full ∈ places, p <+: full

theorem Adds.refl {r : Reads} (hc : r.Closed) : Adds r r [] := ⟨hc, rfl, by simp⟩

theorem Adds.trans {r₁ r₂ r₃ : Reads} {places more : List Path} (h : Adds r₁ r₂ places)
    (h' : Adds r₂ r₃ more) : Adds r₁ r₃ (places ++ more) where
  closed := h'.closed
  root := h'.root.trans h.root
  mem_paths p := by
    rw [h'.mem_paths, h.mem_paths]
    simp only [List.mem_append]
    grind

/-- Only the joins count. -/
theorem Adds.congr {r r₁ r₂ : Reads} {places : List Path} (h : Adds r r₁ places)
    (hr : r₂.root = r₁.root) (hj : r₂.joins = r₁.joins) : Adds r r₂ places := by
  have hp : r₂.paths = r₁.paths := by rw [paths, paths, hr, hj]
  obtain ⟨hc, hroot, hm⟩ := h
  exact ⟨⟨hr ▸ hc.root_length, hp ▸ hc.nodup, by rw [hj, hp]; exact hc.start_mem⟩,
    hr.trans hroot, by rw [hp]; exact hm⟩

theorem ensure_eq_of_mem {r : Reads} {n : Node} {path : Path} (hp : n.path? = some path)
    (hm : path ∈ r.paths) : r.ensure n = .ok r := by
  unfold ensure
  simp only [hp, if_pos (join?_isSome_iff.2 hm)]

/-- What `ensure` does: nothing for a path that is joined already; else what the node starts from is
joined, and then the node. -/
theorem ensure_cases {r r' : Reads} {n : Node} (h : r.ensure n = .ok r') :
    ∃ path, n.path? = some path ∧ (path ∈ r.paths ∧ r' = r ∨
      path ∉ r.paths ∧ ∃ p rel t r₁, n.link? = some (p, rel, t) ∧ r.ensure p = .ok r₁ ∧
        r' = { r₁ with joins := r₁.joins ++ [⟨path, rel, t⟩] }) := by
  cases hp : n.path? with
  | none => unfold ensure at h; simp [hp] at h
  | some path =>
    refine ⟨path, rfl, ?_⟩
    by_cases hm : path ∈ r.paths
    · rw [ensure_eq_of_mem hp hm] at h
      exact .inl ⟨hm, by simpa using h.symm⟩
    · refine .inr ⟨hm, ?_⟩
      have hj : (r.join? path).isSome = false := by
        rw [← Bool.not_eq_true, join?_isSome_iff]; exact hm
      unfold ensure at h
      simp only [hp, hj, Bool.false_eq_true, if_false] at h
      cases n <;> simp only [reduceCtorEq] at h
      all_goals
        obtain ⟨r₁, h1, h2⟩ := bind_eq_ok_iff.1 h
        exact ⟨_, _, _, r₁, rfl, h1, by simpa using h2.symm⟩

/-- A join added behind the one it starts from. -/
theorem adds_join {r : Reads} (hc : r.Closed) {start : Path} {hop : Hop} (hs : start ∈ r.paths)
    (hn : start ≠ []) (hm : start ++ [hop] ∉ r.paths) {rel : Relation} (hr : rel.hop? = some hop)
    (t : Table) :
    Adds r { r with joins := r.joins ++ [⟨start ++ [hop], rel, t⟩] } [start ++ [hop]] := by
  have hpaths : ({ r with joins := r.joins ++ [⟨start ++ [hop], rel, t⟩] } : Reads).paths
      = r.paths ++ [start ++ [hop]] := by simp [paths]
  refine ⟨⟨hc.root_length, ?_, ?_⟩, rfl, ?_⟩
  · rw [hpaths]
    refine List.nodup_append.2 ⟨hc.nodup, by simp, ?_⟩
    intro x hx y hy he
    rw [List.mem_singleton.1 hy] at he
    exact hm (he ▸ hx)
  · intro j hj
    rw [hpaths]
    rcases List.mem_append.1 hj with hj | hj
    · obtain ⟨start', hop', hs', hrest⟩ := hc.start_mem j hj
      exact ⟨start', hop', List.mem_append_left _ hs', hrest⟩
    · rw [List.mem_singleton.1 hj]
      exact ⟨start, hop, List.mem_append_left _ hs, hn, hr, rfl⟩
  · intro p
    rw [hpaths]
    simp only [List.mem_append, List.mem_singleton, exists_eq_left]
    constructor
    · rintro (h | rfl)
      · exact .inl h
      · exact .inr ⟨by simp, List.prefix_rfl⟩
    · rintro (h | ⟨hne, h⟩)
      · exact .inl h
      · rcases List.prefix_concat_iff.1 h with rfl | h
        · exact .inr rfl
        · exact .inl (hc.mem_of_isPrefix hs h hne)

/-- `ensure` joins the way to a node. -/
theorem ensure_adds {r r' : Reads} (hc : r.Closed) {n : Node} (h : r.ensure n = .ok r') :
    ∃ path, n.path? = some path ∧ path ∈ r'.paths ∧ Adds r r' [path] := by
  -- on the chain of relations that ends in `n`
  obtain ⟨path, hp, ⟨hm, rfl⟩ | ⟨hm, p, rel, t, r₁, hl, h1, rfl⟩⟩ := ensure_cases h
  · refine ⟨path, hp, hm, hc, rfl, fun q => ⟨.inl, ?_⟩⟩
    rintro (hq | ⟨hne, full, hf, hq⟩)
    · exact hq
    · exact hc.mem_of_isPrefix (List.mem_singleton.1 hf ▸ hm) hq hne
  · have := Node.sizeOf_lt_of_link hl
    obtain ⟨start, hs, hm1, h1⟩ := ensure_adds hc h1
    obtain ⟨start', hop, hs', hr, rfl⟩ := Node.path?_of_link hl hp
    obtain rfl : start = start' := Option.some.inj (hs.symm.trans hs')
    have hne : start ≠ [] := Node.path?_ne_nil hs
    -- the joins on the way are shorter, so the node's own is still missing
    have hm' : start ++ [hop] ∉ r₁.paths := by
      rw [h1.mem_paths]
      rintro (hq | ⟨-, full, hf, hq⟩)
      · exact hm hq
      · have := (List.mem_singleton.1 hf ▸ hq).length_le
        rw [List.length_append, List.length_singleton] at this
        omega
    have h2 := adds_join h1.closed hm1 hne hm' hr t
    have hin := (h2.mem_paths (start ++ [hop])).2
      (.inr ⟨by simp, _, List.mem_singleton_self _, List.prefix_rfl⟩)
    refine ⟨_, hp, hin, h2.closed, h2.root.trans h1.root, fun q => ?_⟩
    rw [h2.mem_paths, h1.mem_paths]
    simp only [List.mem_singleton, exists_eq_left]
    constructor
    · rintro ((hq | ⟨hne, hq⟩) | hq)
      · exact .inl hq
      · exact .inr ⟨hne, hq.trans (List.prefix_append _ _)⟩
      · exact .inr hq
    · rintro (hq | hq)
      · exact .inl (.inl hq)
      · exact .inr hq
termination_by sizeOf n

/-! ## The functions of the walk -/

theorem read_cases {r r' : Reads} {n : Node} {selected : Bool} {columns : Table → List Column}
    (hc : r.Closed) (h : r.read n selected columns = .ok r') :
    ∃ r₁ path j, r.ensure n = .ok r₁ ∧ n.path? = some path ∧ r₁.join? path = some j ∧
      r' = { r₁ with
        columns := r₁.columns ++ (columns j.table).map fun c => ⟨path, c, selected⟩ } := by
  obtain ⟨r₁, h1, h2⟩ := bind_eq_ok_iff.1 h
  obtain ⟨path, hp, hm, -⟩ := ensure_adds hc h1
  obtain ⟨j, hj⟩ := Option.isSome_iff_exists.1 (join?_isSome_iff.2 hm)
  refine ⟨r₁, path, j, h1, hp, hj, ?_⟩
  simp only [hp, Option.bind_some, hj, (mem_of_join? hj).2, Except.ok.injEq] at h2
  exact h2.symm

theorem read_adds {r r' : Reads} {n : Node} {selected : Bool} {columns : Table → List Column}
    (hc : r.Closed) (h : r.read n selected columns = .ok r') : Adds r r' n.path?.toList := by
  obtain ⟨r₁, path, j, h1, hp, -, rfl⟩ := read_cases hc h
  obtain ⟨path', hp', -, ha⟩ := ensure_adds hc h1
  obtain rfl : path = path' := Option.some.inj (hp.symm.trans hp')
  rw [hp]
  exact ha.congr rfl rfl

mutual

theorem expression_adds {r r' : Reads} (hc : r.Closed) :
    ∀ {n : Node}, r.expression n = .ok r' → Adds r r' n.placesRead
  | .column p c, h => read_adds (n := p) hc (by rwa [expression] at h)
  | .calculated p name, h => by
    rw [expression] at h
    obtain ⟨r₁, h1, h2⟩ := bind_eq_ok_iff.1 h
    obtain ⟨path, hp, -, ha⟩ := ensure_adds hc h1
    cases h2
    simp only [Node.placesRead, Node.path?, hp, Option.toList_some]
    exact ha.congr rfl rfl
  | .operation op operands, h => by
    rw [expression] at h
    exact expressions_adds hc h
  | .value v, h => by
    simp only [expression, Except.ok.injEq] at h; exact h ▸ .refl hc
  | .subquery q, h => by
    simp only [expression, Except.ok.injEq] at h; exact h ▸ .refl hc
  | .table t, h => read_adds (n := .table t) hc (by rwa [expression] at h <;> simp)
  | .reference p rel t, h =>
    read_adds (n := .reference p rel t) hc (by rwa [expression] at h <;> simp)
  | .reverse p rel t, h =>
    read_adds (n := .reverse p rel t) hc (by rwa [expression] at h <;> simp)
  | .manyMany p rel t, h =>
    read_adds (n := .manyMany p rel t) hc (by rwa [expression] at h <;> simp)

theorem expressions_adds {r r' : Reads} (hc : r.Closed) :
    ∀ {ns : List Node}, r.expressions ns = .ok r' → Adds r r' (Node.placesReadAll ns)
  | [], h => by simp only [expressions, Except.ok.injEq] at h; exact h ▸ .refl hc
  | n :: rest, h => by
    rw [expressions] at h
    obtain ⟨r₁, h1, h2⟩ := bind_eq_ok_iff.1 h
    have ha := expression_adds hc h1
    exact ha.trans (expressions_adds ha.closed h2)

end

theorem placesReadAll_eq (ns : List Node) : Node.placesReadAll ns = ns.flatMap Node.placesRead := by
  induction ns with
  | nil => rfl
  | cons n rest ih => rw [Node.placesReadAll, ih, List.flatMap_cons]

/-- A walk over a list adds what its steps add. -/
theorem foldlM_adds {α : Type} {f : Reads → α → Except QueryFault Reads} {places : α → List Path}
    (hf : ∀ a r r', r.Closed → f r a = .ok r' → Adds r r' (places a)) :
    ∀ (as : List α) {r r' : Reads}, r.Closed → as.foldlM f r = .ok r' →
      Adds r r' (as.flatMap places)
  | [], r, r', hc, h => by rw [foldlM_nil_eq_ok_iff] at h; exact h ▸ .refl hc
  | a :: as, r, r', hc, h => by
    obtain ⟨r₁, h1, h2⟩ := foldlM_cons_eq_ok_iff.1 h
    have ha := hf a r r₁ hc h1
    exact ha.trans (foldlM_adds hf as ha.closed h2)

theorem groupBy_cases {r r' : Reads} {n : Node} (h : r.groupBy n = .ok r') :
    ∃ p c, n = .column p c ∧ r.read p true (fun _ => [c]) = .ok r' := by
  cases n <;> simp only [groupBy, reduceCtorEq] at h
  exact ⟨_, _, rfl, h⟩

theorem groupBy_adds (n : Node) (r r' : Reads) (hc : r.Closed) (h : r.groupBy n = .ok r') :
    Adds r r' n.placesRead := by
  obtain ⟨p, c, rfl, hr⟩ := groupBy_cases h
  exact read_adds (n := p) hc hr

theorem select_adds (n : Node) (r r' : Reads) (hc : r.Closed) (h : r.select n = .ok r') :
    Adds r r' n.placesRead := by
  cases n <;> simp only [select, Node.isTableLike, if_true, if_false, Bool.false_eq_true,
    reduceCtorEq] at h
  case column p c => exact read_adds (n := p) hc h
  all_goals exact read_adds hc h

theorem declare_cases {r r' : Reads} {c : Calculation Node} (h : r.declare c = .ok r') :
    ∃ r₁ r₂, c.target.isTableLike = true ∧ r.ensure c.target = .ok r₁ ∧
      r₁.expression c.expression = .ok r₂ ∧ (c.target.path? = none ∧ r' = r₂ ∨
        ∃ path, c.target.path? = some path ∧
          r₂.calculations.any (fun d => d.path == path && d.name == c.name) = false ∧
          r' = { r₂ with calculations := r₂.calculations ++ [⟨path, c.name, c.expression⟩] }) := by
  unfold declare at h
  by_cases ht : c.target.isTableLike
  · simp only [ht, Bool.not_true, Bool.false_eq_true, if_false] at h
    obtain ⟨r₁, h1, h⟩ := bind_eq_ok_iff.1 h
    obtain ⟨r₂, h2, h⟩ := bind_eq_ok_iff.1 h
    refine ⟨r₁, r₂, ht, h1, h2, ?_⟩
    cases hp : c.target.path? with
    | none => simp only [hp, Except.ok.injEq] at h; exact .inl ⟨rfl, h.symm⟩
    | some path =>
      simp only [hp] at h
      split at h
      · simp at h
      · rename_i hd
        exact .inr ⟨path, rfl, by simpa using hd, by simpa using h.symm⟩
  · simp [ht] at h

theorem declare_adds (c : Calculation Node) (r r' : Reads) (hc : r.Closed)
    (h : r.declare c = .ok r') :
    Adds r r' (c.target.placesRead ++ c.expression.placesRead) := by
  obtain ⟨r₁, r₂, ht, h1, h2, hr⟩ := declare_cases h
  obtain ⟨path, hp, -, ha⟩ := ensure_adds hc h1
  have hplaces : c.target.placesRead = [path] := by
    cases hn : c.target <;> simp_all [Node.isTableLike, Node.placesRead]
  rw [hplaces]
  have hb := ha.trans (expression_adds ha.closed h2)
  rcases hr with ⟨-, rfl⟩ | ⟨_, -, -, rfl⟩
  · exact hb
  · exact hb.congr rfl rfl

/-- In a grouped query the walk over what is selected changes nothing. -/
theorem selectGrouped_fold {groupBys : List Node} :
    ∀ (ns : List Node) {r r' : Reads}, ns.foldlM (selectGrouped groupBys) r = .ok r' →
      r' = r ∧ ∀ n ∈ ns, ∃ g ∈ groupBys, g.alike n = true
  | [], r, r', h => by rw [foldlM_nil_eq_ok_iff] at h; exact ⟨h.symm, by simp⟩
  | n :: ns, r, r', h => by
    obtain ⟨r₁, h1, h2⟩ := foldlM_cons_eq_ok_iff.1 h
    unfold selectGrouped at h1
    split at h1
    · rename_i hany
      cases h1
      obtain ⟨hr, hn⟩ := selectGrouped_fold ns h2
      refine ⟨hr, fun m hm => ?_⟩
      rcases List.mem_cons.1 hm with rfl | hm
      · simpa using hany
      · exact hn m hm
    · simp at h1

/-- What is there already need not be added. -/
theorem Adds.of_mem {r : Reads} (hc : r.Closed) {places : List Path}
    (h : ∀ p ∈ places, p ∈ r.paths) : Adds r r places where
  closed := hc
  root := rfl
  mem_paths p := by
    refine ⟨.inl, ?_⟩
    rintro (hp | ⟨hne, full, hf, hp⟩)
    · exact hp
    · exact hc.mem_of_isPrefix (h full hf) hp hne

/-- The walk of a query, step by step. -/
theorem ofQuery?_cases {q : Query} {r : Reads} (h : ofQuery? q = .ok r) :
    ∃ t r₁ r₂ r₃ r₄ r₅ r₆, q.root = .table t ∧
      q.groupBys.foldlM groupBy (start [.table t.database t.name] t) = .ok r₁ ∧
      q.selects.foldlM (if !q.groupBys.isEmpty then selectGrouped q.groupBys else select) r₁
        = .ok r₂ ∧
      (if q.selects.isEmpty && !(!q.groupBys.isEmpty) then r₂.selectAll q.root else .ok r₂)
        = .ok r₃ ∧
      r₃.expressions q.conditions = .ok r₄ ∧
      r₄.expressions (q.orderBys.map (·.node)) = .ok r₅ ∧
      r₅.expressions q.having = .ok r₆ ∧
      q.calculations.foldlM declare r₆ = .ok r ∧
      r.checkCalculated r.calculated = .ok () := by
  unfold ofQuery? at h
  cases hroot : q.root with
  | table t =>
    simp only [hroot] at h
    obtain ⟨r₁, h1, h⟩ := bind_eq_ok_iff.1 h
    obtain ⟨r₂, h2, h⟩ := bind_eq_ok_iff.1 h
    obtain ⟨r₃, h3, h⟩ := ite_bind_eq_ok_iff.1 h
    obtain ⟨r₄, h4, h⟩ := bind_eq_ok_iff.1 h
    obtain ⟨r₅, h5, h⟩ := bind_eq_ok_iff.1 h
    obtain ⟨r₆, h6, h⟩ := bind_eq_ok_iff.1 h
    obtain ⟨r₇, h7, h⟩ := bind_eq_ok_iff.1 h
    obtain ⟨⟨⟩, h8, h⟩ := bind_eq_ok_iff.1 h
    cases h
    exact ⟨t, r₁, r₂, r₃, r₄, r₅, r₆, rfl, h1, h2, h3, h4, h5, h6, h7, h8⟩
  | _ => simp [hroot] at h

theorem start_closed (d n : String) (t : Table) : (start [.table d n] t).Closed :=
  ⟨rfl, by simp [start, paths], by simp [start]⟩

/-- What is selected in a grouped query is where something it groups by is. -/
theorem selectGrouped_adds {groupBys ns : List Node} {r₀ r r' : Reads} (hc : r₀.Closed)
    (hg : groupBys.foldlM groupBy r₀ = .ok r) (h : ns.foldlM (selectGrouped groupBys) r = .ok r') :
    Adds r r' (ns.flatMap Node.placesRead) := by
  have ha := foldlM_adds groupBy_adds groupBys hc hg
  obtain ⟨rfl, hn⟩ := selectGrouped_fold ns h
  refine .of_mem ha.closed fun path hpath => ?_
  obtain ⟨n, hmem, hpath⟩ := List.mem_flatMap.1 hpath
  obtain ⟨g, hgm, halike⟩ := hn n hmem
  obtain ⟨p, c, rfl⟩ : ∃ p c, g = .column p c := by
    obtain ⟨r₁, r₂, h1⟩ := foldlM_step_of_mem hgm hg
    obtain ⟨p, c, rfl, -⟩ := groupBy_cases h1
    exact ⟨p, c, rfl⟩
  have hp := Node.path?_eq_of_alike halike
  have hplaces : n.placesRead = (Node.column p c).placesRead := by
    cases n <;> simp_all [Node.alike, Node.placesRead]
  rw [hplaces] at hpath
  refine (ha.mem_paths path).2 (.inr ⟨?_, path, List.mem_flatMap.2 ⟨_, hgm, hpath⟩,
    List.prefix_rfl⟩)
  exact Node.path?_ne_nil (Option.mem_toList.1 hpath)

/-- **What is joined.** A query joins its root and the ways to the places that it mentions. -/
theorem ofQuery?_adds {q : Query} {r : Reads} (h : ofQuery? q = .ok r) :
    ∃ t, q.root = .table t ∧ r.root = ⟨[.table t.database t.name], .root, t⟩ ∧ r.Closed ∧
      ∀ p, p ∈ r.paths ↔ p ≠ [] ∧ ∃ full ∈ q.placesRead, p <+: full := by
  obtain ⟨t, r₁, r₂, r₃, r₄, r₅, r₆, hroot, h1, h2, h3, h4, h5, h6, h7, -⟩ := ofQuery?_cases h
  have hs := start_closed t.database t.name t
  have a1 := foldlM_adds groupBy_adds _ hs h1
  have a2 : Adds r₁ r₂ (q.selects.flatMap Node.placesRead) := by
    split at h2
    · exact selectGrouped_adds hs h1 h2
    · exact foldlM_adds select_adds _ a1.closed h2
  have a12 := a1.trans a2
  have a3 : Adds r₂ r₃ [[.table t.database t.name]] := by
    split at h3
    · rw [hroot] at h3
      exact read_adds (n := .table t) a12.closed h3
    · cases h3
      refine .of_mem a12.closed fun p hp => (a12.mem_paths p).2 (.inl ?_)
      simpa [start, paths] using hp
  have a4 := expressions_adds (a12.trans a3).closed h4
  have a5 := expressions_adds a4.closed h5
  have a6 := expressions_adds a5.closed h6
  have a7 := foldlM_adds declare_adds _ a6.closed h7
  have all := (((((a12.trans a3).trans a4).trans a5).trans a6).trans a7)
  refine ⟨t, hroot, all.root, all.closed, fun p => ?_⟩
  rw [all.mem_paths]
  have hstart : p ∈ (start [.table t.database t.name] t).paths ↔
      p = [.table t.database t.name] := by
    simp [start, paths]
  have hplaces : ∀ full, full ∈ q.groupBys.flatMap Node.placesRead
      ++ q.selects.flatMap Node.placesRead ++ [[.table t.database t.name]]
      ++ Node.placesReadAll q.conditions ++ Node.placesReadAll (q.orderBys.map (·.node))
      ++ Node.placesReadAll q.having
      ++ q.calculations.flatMap (fun c => c.target.placesRead ++ c.expression.placesRead)
      ↔ full ∈ q.placesRead := by
    intro full
    simp only [QueryOf.placesRead, QueryOf.nodes, hroot, placesReadAll_eq, List.flatMap_cons,
      List.flatMap_append, List.flatMap_assoc, List.flatMap_nil, List.mem_append, List.append_nil,
      Node.placesRead, Node.path?, Option.toList_some, List.mem_singleton]
    grind
  simp only [hplaces, hstart]
  constructor
  · rintro (rfl | hp)
    · exact ⟨by simp, _, (hplaces _).1 (by simp), List.prefix_rfl⟩
    · exact hp
  · exact .inr

end Reads

end RecordGraph
