import RecordGraph.JoinTree.Basic
import RecordGraph.Node.Chain
import RecordGraph.Proofs.JoinTree.ReadPaths

/-!
# Nodes over a schema

A node is over a schema when every name in it was looked up there, link by link. What stands at a
path is then settled by the schema alone.

* `Node.Over`, `QueryOf.Over`: nodes, and queries of nodes, over a schema.
* `Schema.join?`: the relation and the table that a path leads to.
* `Node.Over.join?_eq`: a table-like node stands for what its path leads to.
-/
namespace RecordGraph

/-- A node whose names come from a schema. Inner queries are nodes of their own. -/
inductive Node.Over (s : Schema) : Node → Prop where
  | table {name : String} {s' : Schema} {n : Node} : s.chain name = .ok ⟨s', n⟩ → Over s n
  | link {n n' : Node} {l : Link} {s' : Schema} : Over s n →
      Chain.step ⟨s, n⟩ l = .ok ⟨s', n'⟩ → Over s n'
  | operation {op : Op} {operands : List Node} : (∀ n ∈ operands, Over s n) →
      Over s (.operation op operands)
  | value (v : Value) : Over s (.value v)
  | subquery (q : Query) : Over s (.subquery q)

/-- A query whose nodes are over a schema. -/
def QueryOf.Over (s : Schema) (q : Query) : Prop := ∀ n ∈ q.nodes, n.Over s

theorem Table.mem_of_column? {t : Table} {key : String} {c : Column}
    (h : t.column? key = some c) : c ∈ t.columns := by
  unfold column? at h
  cases hn : t.named? key with
  | none => rw [hn] at h; exact List.mem_of_find?_eq_some h
  | some d =>
    rw [hn] at h
    obtain rfl : d = c := Option.some.inj h
    exact List.mem_of_find?_eq_some hn

/-- What a hop from a table leads to: a relation of it, and the name of a table. -/
def Table.relation? (t : Table) : Hop → Option (Relation × String)
  | .table _ _ => none
  | .reference i => (t.reference? i).map fun r => (.reference r, r.target)
  | .reverse i => (t.reverse? i).map fun r => (.reverse r, r.source)
  | .manyMany i => (t.manyMany? i).map fun m => (.manyMany m, m.target)

namespace Schema

/-- One hop from a table. -/
def hop? (s : Schema) (t : Table) (hop : Hop) : Option (Relation × Table) :=
  (t.relation? hop).bind fun (relation, name) => (s.table? name).map (relation, ·)

/-- What a path leads to. -/
def join? (s : Schema) : Path → Option (Relation × Table)
  | .table _ name :: hops =>
    (s.table? name).bind fun t => hops.foldlM (fun start hop => s.hop? start.2 hop) (.root, t)
  | _ => none

/-- The last hop of a path starts from the table before it. -/
theorem join?_snoc {s : Schema} {path : Path} (h : path ≠ []) (hop : Hop) :
    s.join? (path ++ [hop]) = (s.join? path).bind fun start => s.hop? start.2 hop := by
  cases path with
  | nil => exact absurd rfl h
  | cons first hops =>
    cases first <;> simp only [List.cons_append, join?, Option.bind_none]
    simp only [List.foldlM_append, Option.bind_assoc]
    refine congrArg _ (funext fun t => ?_)
    simp only [bind, List.foldlM_cons, List.foldlM_nil, pure]
    refine congrArg _ (funext fun start => ?_)
    cases s.hop? start.2 hop <;> rfl

theorem hop?_eq_some {s : Schema} {t target : Table} {hop : Hop} {relation : Relation}
    (h : s.hop? t hop = some (relation, target)) :
    ∃ name, t.relation? hop = some (relation, name) ∧ s.table? name = some target := by
  obtain ⟨⟨rel, name⟩, hr, h⟩ := Option.bind_eq_some_iff.1 h
  obtain ⟨u, hu, h⟩ := Option.map_eq_some_iff.1 h
  cases h
  exact ⟨name, hr, hu⟩

/-- Paths lead to tables of the schema. -/
theorem mem_of_join? {s : Schema} {path : Path} {relation : Relation} {t : Table}
    (h : s.join? path = some (relation, t)) : t ∈ s.tables := by
  rcases List.eq_nil_or_concat path with rfl | ⟨start, hop, rfl⟩
  · cases h
  · rw [List.concat_eq_append] at h
    by_cases hs : start = []
    · subst hs
      cases hop <;> simp only [List.nil_append, join?, reduceCtorEq] at h
      obtain ⟨u, hu, h⟩ := Option.bind_eq_some_iff.1 h
      cases h
      exact List.mem_of_find?_eq_some hu
    · rw [join?_snoc hs] at h
      obtain ⟨_, -, h⟩ := Option.bind_eq_some_iff.1 h
      obtain ⟨_, -, ht⟩ := hop?_eq_some h
      exact List.mem_of_find?_eq_some ht

end Schema

namespace Chain

theorem table_eq_ok_iff {c : Chain} {t : Table} : c.table = .ok t ↔ c.node.target? = some t := by
  cases h : c.node <;> simp [table, h, Node.isTableLike, Node.target?, fail]

theorem requireTable_eq_ok_iff {s : Schema} {name : String} {t : Table} :
    s.requireTable name = .ok t ↔ s.table? name = some t := by
  unfold Schema.requireTable
  cases s.table? name <;> simp

/-- What a link adds: a column or a calculation of the table at hand, or a hop from it. -/
theorem step_cases {s : Schema} {n : Node} {l : Link} {c : Chain}
    (h : step ⟨s, n⟩ l = .ok c) : ∃ t, n.target? = some t ∧
      ((∃ column, column ∈ t.columns ∧ c.node = .column n column) ∨
        (∃ name, c.node = .calculated n name) ∨
        ∃ relation hop target, c.node.link? = some (n, relation, target) ∧
          relation.hop? = some hop ∧ s.hop? t hop = some (relation, target)) := by
  cases l with
  | column key =>
    obtain ⟨t, ht, h⟩ := bind_eq_ok_iff.1 h
    obtain ⟨column, hc, h⟩ := bind_eq_ok_iff.1 h
    cases h
    refine ⟨t, table_eq_ok_iff.1 ht, .inl ⟨column, ?_, rfl⟩⟩
    unfold Table.requireColumn at hc
    cases hcol : t.column? key with
    | none => simp only [hcol] at hc; cases hc
    | some found =>
      simp only [hcol, Except.ok.injEq] at hc
      exact hc ▸ Table.mem_of_column? hcol
  | calculated name =>
    obtain ⟨t, ht, h⟩ := bind_eq_ok_iff.1 h
    cases h
    exact ⟨t, table_eq_ok_iff.1 ht, .inr (.inl ⟨name, rfl⟩)⟩
  | reference identifier =>
    obtain ⟨t, ht, h⟩ := bind_eq_ok_iff.1 h
    refine ⟨t, table_eq_ok_iff.1 ht, .inr (.inr ?_)⟩
    cases hr : t.reference? identifier with
    | none => simp only [hr] at h; cases h
    | some r =>
      simp only [hr] at h
      obtain ⟨target, htarget, h⟩ := bind_eq_ok_iff.1 h
      cases h
      have hi : r.identifier = identifier := by simpa using List.find?_some hr
      refine ⟨.reference r, .reference identifier, target, rfl, by rw [← hi]; rfl, ?_⟩
      simp [Schema.hop?, Table.relation?, hr, requireTable_eq_ok_iff.1 htarget]
  | reverse identifier =>
    obtain ⟨t, ht, h⟩ := bind_eq_ok_iff.1 h
    refine ⟨t, table_eq_ok_iff.1 ht, .inr (.inr ?_)⟩
    cases hr : t.reverse? identifier with
    | none => simp only [hr] at h; cases h
    | some r =>
      simp only [hr] at h
      obtain ⟨target, htarget, h⟩ := bind_eq_ok_iff.1 h
      cases h
      have hi : r.identifier = identifier := by simpa using List.find?_some hr
      refine ⟨.reverse r, .reverse identifier, target, rfl, by rw [← hi]; rfl, ?_⟩
      simp [Schema.hop?, Table.relation?, hr, requireTable_eq_ok_iff.1 htarget]
  | manyMany identifier =>
    obtain ⟨t, ht, h⟩ := bind_eq_ok_iff.1 h
    refine ⟨t, table_eq_ok_iff.1 ht, .inr (.inr ?_)⟩
    obtain ⟨m, hm, h⟩ := bind_eq_ok_iff.1 h
    unfold Table.requireManyMany at hm
    cases hr : t.manyMany? identifier with
    | none => simp only [hr] at hm; cases hm
    | some m' =>
      simp only [hr, Except.ok.injEq] at hm
      obtain rfl := hm
      obtain ⟨target, htarget, h⟩ := bind_eq_ok_iff.1 h
      cases h
      have hi : m'.identifier = identifier := by simpa using List.find?_some hr
      refine ⟨.manyMany m', .manyMany identifier, target, rfl, by rw [← hi]; rfl, ?_⟩
      simp [Schema.hop?, Table.relation?, hr, requireTable_eq_ok_iff.1 htarget]

theorem step_schema {c c' : Chain} {l : Link} (h : step c l = .ok c') : c'.schema = c.schema := by
  cases l with
  | column key =>
    obtain ⟨_, -, h⟩ := bind_eq_ok_iff.1 h
    obtain ⟨_, -, h⟩ := bind_eq_ok_iff.1 h
    cases h; rfl
  | calculated name =>
    obtain ⟨_, -, h⟩ := bind_eq_ok_iff.1 h
    cases h; rfl
  | reference identifier =>
    obtain ⟨t, -, h⟩ := bind_eq_ok_iff.1 h
    cases hr : t.reference? identifier <;> simp only [hr] at h
    · cases h
    · obtain ⟨_, -, h⟩ := bind_eq_ok_iff.1 h
      cases h; rfl
  | reverse identifier =>
    obtain ⟨t, -, h⟩ := bind_eq_ok_iff.1 h
    cases hr : t.reverse? identifier <;> simp only [hr] at h
    · cases h
    · obtain ⟨_, -, h⟩ := bind_eq_ok_iff.1 h
      cases h; rfl
  | manyMany identifier =>
    obtain ⟨_, -, h⟩ := bind_eq_ok_iff.1 h
    obtain ⟨_, -, h⟩ := bind_eq_ok_iff.1 h
    obtain ⟨_, -, h⟩ := bind_eq_ok_iff.1 h
    cases h; rfl

end Chain

namespace Node

theorem chain_eq_ok_iff {s : Schema} {name : String} {c : Chain} :
    s.chain name = .ok c ↔ ∃ t, s.table? name = some t ∧ c = ⟨s, .table t⟩ := by
  rw [Schema.chain, bind_eq_ok_iff]
  simp only [Chain.requireTable_eq_ok_iff, Except.ok.injEq, eq_comm (b := c)]

namespace Over

variable {s : Schema}

theorem table?_eq {t : Table} (h : Over s (.table t)) : s.table? t.name = some t := by
  cases h with
  | @table name _ _ h =>
    obtain ⟨u, hu, h⟩ := chain_eq_ok_iff.1 h
    cases h
    have hname : t.name = name := by simpa using List.find?_some hu
    exact hname ▸ hu
  | link hn h =>
    obtain ⟨t, ht, ⟨c', hc, he⟩ | ⟨_, he⟩ | ⟨_, _, _, he, -⟩⟩ := Chain.step_cases h <;> cases he

theorem of_column {p : Node} {c : Column} (h : Over s (.column p c)) :
    Over s p ∧ ∃ t, p.target? = some t ∧ c ∈ t.columns := by
  cases h with
  | table h => obtain ⟨t, -, h⟩ := chain_eq_ok_iff.1 h; cases h
  | link hn h =>
    obtain ⟨t, ht, ⟨c', hc, he⟩ | ⟨_, he⟩ | ⟨_, _, _, he, -⟩⟩ := Chain.step_cases h
    · cases he; exact ⟨hn, t, ht, hc⟩
    · cases he
    · cases he

theorem of_calculated {p : Node} {name : String} (h : Over s (.calculated p name)) : Over s p := by
  cases h with
  | table h => obtain ⟨t, -, h⟩ := chain_eq_ok_iff.1 h; cases h
  | link hn h =>
    obtain ⟨t, ht, ⟨c', hc, he⟩ | ⟨_, he⟩ | ⟨_, _, _, he, -⟩⟩ := Chain.step_cases h
    · cases he
    · cases he; exact hn
    · cases he

theorem of_operation {op : Op} {operands : List Node} (h : Over s (.operation op operands)) :
    ∀ n ∈ operands, Over s n := by
  cases h with
  | table h => obtain ⟨t, -, h⟩ := chain_eq_ok_iff.1 h; cases h
  | link hn h =>
    obtain ⟨t, ht, ⟨c', hc, he⟩ | ⟨_, he⟩ | ⟨_, _, _, he, -⟩⟩ := Chain.step_cases h <;> cases he
  | operation h => exact h

theorem of_link {n p : Node} {relation : Relation} {target : Table}
    (hl : n.link? = some (p, relation, target)) (h : Over s n) :
    Over s p ∧ ∃ t hop, p.target? = some t ∧ relation.hop? = some hop ∧
      s.hop? t hop = some (relation, target) := by
  cases h with
  | table h => obtain ⟨t, -, h⟩ := chain_eq_ok_iff.1 h; cases h; cases hl
  | link hn h =>
    obtain ⟨t, ht, ⟨c', hc, he⟩ | ⟨_, he⟩ | ⟨_, hop, _, he, hhop, hh⟩⟩ := Chain.step_cases h
    · cases he; cases hl
    · cases he; cases hl
    · simp only [hl, Option.some.injEq, Prod.mk.injEq] at he
      obtain ⟨rfl, rfl, rfl⟩ := he
      exact ⟨hn, t, hop, ht, hhop, hh⟩
  | operation _ => cases hl
  | value _ => cases hl
  | subquery _ => cases hl

/-- The relation by which a node goes on. -/
def relation (n : Node) : Relation := (n.link?.map (·.2.1)).getD .root

/-- A table-like node stands for what its path leads to. -/
theorem join?_eq {n : Node} {t : Table} (h : Over s n) (ht : n.target? = some t) :
    ∃ path, n.path? = some path ∧ s.join? path = some (relation n, t) := by
  -- on the links of the chain
  induction h generalizing t with
  | table h =>
    have hn : Over s _ := .table h
    obtain ⟨u, -, h⟩ := chain_eq_ok_iff.1 h
    cases h
    cases ht
    exact ⟨_, rfl, by simp [Schema.join?, hn.table?_eq, pure, relation, link?]⟩
  | @link n n' l s' hn h ih =>
    obtain ⟨u, hu, ⟨c', hc, he⟩ | ⟨_, he⟩ | ⟨rel, hop, target, he, hhop, hh⟩⟩ := Chain.step_cases h
    · cases he; cases ht
    · cases he; cases ht
    · obtain ⟨path, hp, hj⟩ := ih hu
      have hpath : n'.path? = some (path ++ [hop]) := by
        simp only at he
        cases n' <;> simp only [link?, Option.some.injEq, Prod.mk.injEq, reduceCtorEq] at he
        all_goals
          obtain ⟨rfl, rfl, rfl⟩ := he
          cases hhop
          simp [path?, hp]
      refine ⟨_, hpath, ?_⟩
      have htt : t = target := by
        simp only at he
        cases n' <;> simp only [link?, Option.some.injEq, Prod.mk.injEq, reduceCtorEq] at he
        all_goals
          obtain ⟨rfl, rfl, rfl⟩ := he
          exact (Option.some.inj ht).symm
      rw [Schema.join?_snoc (path?_ne_nil hp), hj, Option.bind_some, hh, htt]
      simp only at he
      rw [relation, he]
      rfl
  | operation _ => cases ht
  | value _ => cases ht
  | subquery _ => cases ht

/-- Chains give nodes over their schema. -/
theorem of_follow {table : String} {links : List Link} {c : Chain}
    (h : Chain.follow s table links = .ok c) : Over s c.node := by
  obtain ⟨c₀, h0, h⟩ := bind_eq_ok_iff.1 h
  have hstart : c₀.schema = s ∧ Over s c₀.node := by
    obtain ⟨t, -, rfl⟩ := chain_eq_ok_iff.1 h0
    exact ⟨rfl, .table h0⟩
  refine (foldlM_keeps (P := fun c => c.schema = s ∧ Over s c.node) ?_ hstart h).2
  rintro l - ⟨_, n⟩ c' ⟨rfl, hn⟩ hstep
  exact ⟨Chain.step_schema hstep, .link hn hstep⟩

end Over

end Node

/-! ## A library

Authors have books, and books have tags: the schema and the query of the examples. -/

namespace Library

def key : ColumnDecl := ⟨"id", none, .autoPrimaryKey, .column, false, true, false, none⟩

def text (name : String) : ColumnDecl := ⟨name, none, .string, .column, false, false, false, none⟩

def declaration : SchemaDecl where
  database := "library"
  tables := [
    ⟨"authors", [key, text "name"], []⟩,
    ⟨"books", [key, text "title",
      ⟨"author_id", none, .int64, .column, true, false, false, none⟩,
      ⟨"version", none, .int64, .lock, false, false, false, none⟩],
      [⟨"author", "author_id", "authors", some "books"⟩]⟩,
    ⟨"tags", [key, text "label"], []⟩]
  associations := [⟨"book_tags", "books", "book_id", "tags", "tags", "tag_id", "books"⟩]

def node (s : Schema) (links : List Link) : Except Error Node :=
  (Chain.follow s "authors" links).map (·.node)

/-- The authors with their books and the tags of these, in the order of the authors' names as the
books tell them. -/
def query (s : Schema) : Except Error Query := do
  let authors ← node s []
  let name ← node s [.column "name"]
  let title ← node s [.reverse "books", .column "title"]
  let label ← node s [.reverse "books", .manyMany "tags", .column "label"]
  let writer ← node s [.reverse "books", .reference "author", .column "name"]
  .ok { QueryOf.all authors with
    selects := [name, title, label], orderBys := [Node.ascending writer] }

theorem node_over {s : Schema} {links : List Link} {n : Node} (h : node s links = .ok n) :
    n.Over s := by
  cases hc : Chain.follow s "authors" links with
  | error e => rw [node, hc] at h; cases h
  | ok c => rw [node, hc] at h; cases h; exact .of_follow hc

theorem query_over {s : Schema} {q : Query} (h : query s = .ok q) : q.Over s := by
  obtain ⟨authors, h1, h⟩ := bind_eq_ok_iff.1 h
  obtain ⟨name, h2, h⟩ := bind_eq_ok_iff.1 h
  obtain ⟨title, h3, h⟩ := bind_eq_ok_iff.1 h
  obtain ⟨label, h4, h⟩ := bind_eq_ok_iff.1 h
  obtain ⟨writer, h5, h⟩ := bind_eq_ok_iff.1 h
  cases h
  intro n hn
  simp only [QueryOf.nodes, QueryOf.all, Node.ascending, List.map_cons, List.map_nil,
    List.flatMap_nil, List.append_nil, List.nil_append, List.mem_cons, List.mem_append,
    List.not_mem_nil, or_false] at hn
  rcases hn with rfl | (rfl | rfl | rfl) | rfl
  · exact node_over h1
  · exact node_over h2
  · exact node_over h3
  · exact node_over h4
  · exact node_over h5

theorem query_plain {s : Schema} {q : Query} (h : query s = .ok q) :
    q.conditions = [] ∧ q.groupBys = [] ∧ q.calculations = [] ∧ q.having = [] ∧
      q.limit = none ∧ q.offset = none ∧ q.distinct = false := by
  obtain ⟨authors, -, h⟩ := bind_eq_ok_iff.1 h
  obtain ⟨name, -, h⟩ := bind_eq_ok_iff.1 h
  obtain ⟨title, -, h⟩ := bind_eq_ok_iff.1 h
  obtain ⟨label, -, h⟩ := bind_eq_ok_iff.1 h
  obtain ⟨writer, -, h⟩ := bind_eq_ok_iff.1 h
  cases h
  exact ⟨rfl, rfl, rfl, rfl, rfl, rfl, rfl⟩

/-- The joins of the query. -/
def tree : Except Error (Schema × Query × JoinTree) := do
  let s ← Schema.ofDeclaration declaration
  let q ← query s
  let t ← JoinTree.compile .objects "" q
  .ok (s, q, t)

theorem exists_tree : ∃ s q t, tree = .ok (s, q, t) := by
  obtain ⟨⟨s, q, t⟩, h⟩ := exists_ok_of_isOk (by decide +kernel : tree.isOk = true)
  exact ⟨s, q, t, h⟩

theorem tree_cases {s : Schema} {q : Query} {t : JoinTree} (h : tree = .ok (s, q, t)) :
    Schema.ofDeclaration declaration = .ok s ∧ query s = .ok q ∧
      JoinTree.compile .objects "" q = .ok t := by
  obtain ⟨s', h1, h⟩ := bind_eq_ok_iff.1 h
  obtain ⟨q', h2, h⟩ := bind_eq_ok_iff.1 h
  obtain ⟨t', h3, h⟩ := bind_eq_ok_iff.1 h
  cases h
  exact ⟨h1, h2, h3⟩

end Library

end RecordGraph
