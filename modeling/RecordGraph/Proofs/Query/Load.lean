import Mathlib
import RecordGraph.Connection.Script
import RecordGraph.Proofs.Connection.Run
import RecordGraph.Proofs.Record.LoadedGraph
import RecordGraph.Query.Run

/-!
# Loading

A query that loads feeds every row to an unpacker and closes the result, whatever happened.

**Results.**
* `Cursor.forEach_push`: what is fed are rows of the result.
* `QueryOf.load_cases`: what a query loads are the records of the rows that it was given, decoded;
  `QueryOf.load_run`: and of all of them, when none of them fails.
* `Record.Loaded.untouched`: in a loaded graph nothing is new, changed or replaced.
-/
namespace RecordGraph

/-- Rows that are fed to an unpacker are added to it, until one of them fails. -/
theorem Feed.each_push {σ : Type} (u : Unpacker) (s : σ) : ∀ feed : Feed Row,
    ∃ rows : List Row, (∀ row ∈ rows, .ok (some row) ∈ feed) ∧
      (feed.each (fun row => modify fun (u, s) => (u.push row, s) :
        Row → Session (Unpacker × σ) Unit) (u, s)).2 = (rows.foldl Unpacker.push u, s)
  | [] => ⟨[], by simp, rfl⟩
  | .error e :: rest => ⟨[], by simp, rfl⟩
  | .ok none :: rest => ⟨[], by simp, rfl⟩
  | .ok (some row) :: rest => by
    obtain ⟨rows, hrows, heq⟩ := each_push (u.push row) s rest
    refine ⟨row :: rows, fun r hr => ?_, heq⟩
    rcases List.mem_cons.1 hr with rfl | hr
    · exact List.mem_cons_self
    · exact List.mem_cons_of_mem _ (hrows r hr)

theorem Cursor.forEach_push {σ : Type} (db : Connection σ) (cursor : Cursor Row)
    (hopen : cursor.closed = false) (u : Unpacker) (s : σ) :
    ∃ rows : List Row, (∀ row ∈ rows, .ok (some row) ∈ cursor.feed) ∧
      (cursor.forEach (db.beside Unpacker) (fun row => modify fun (u, s) => (u.push row, s))
        (u, s)).2.1 = rows.foldl Unpacker.push u := by
  obtain ⟨rows, hrows, heq⟩ := Feed.each_push u s cursor.feed
  refine ⟨rows, hrows, ?_⟩
  have hfeed : (if cursor.closed then [] else cursor.feed) = cursor.feed := by simp [hopen]
  rw [forEach, drive, hfeed]
  let P : Unpacker × σ → Prop := fun us => us.1 = rows.foldl Unpacker.push u
  refine Session.bind_keeps (P := P) (congrArg Prod.fst heq) fun outcome us _ h1 => ?_
  refine Session.bind_keeps (P := P) ?_ fun closed us' _ h2 => h2
  simp only [Cursor.close, hopen]
  exact h1

/-- A cursor reads the rows of a result, decoded. -/
theorem Cursor.start_cases {σ : Type} {db : Connection σ} {operation : String} {c : Command}
    {columns : List ResultColumn} {s s' : σ} {cursor : Cursor Row}
    (h : Cursor.start db operation c columns s = (.ok cursor, s')) : ∃ result,
      db.query c s = (.ok result, s') ∧ cursor.closed = false ∧
        ∀ row, .ok (some row) ∈ cursor.feed → ∃ raw, .ok (some raw) ∈ result.reads ∧
          Row.decode operation (c.statement db.dialect) columns raw = .ok row := by
  obtain ⟨result, s₁, hq, h⟩ := Session.bind_eq_ok_iff.1 h
  cases h
  refine ⟨result, hq, rfl, fun row hr => ?_⟩
  obtain ⟨read, hread, heq⟩ := List.mem_map.1 hr
  match read, heq with
  | .ok (some raw), heq =>
    cases hd : Row.decode operation (c.statement db.dialect) columns raw with
    | error e =>
      simp only [hd] at heq
      cases heq
    | ok row' =>
      simp only [hd] at heq
      cases heq
      exact ⟨raw, hread, hd⟩

/-- **What is loaded** are the records of rows that the database returned, decoded. -/
theorem QueryOf.load_cases {σ : Type} {q : Query} {db : Connection σ} {s s' : σ}
    {records : List Record} (h : q.load db s = (.ok records, s')) : ∃ c result s₁ rows,
      q.compile db.dialect = .ok c ∧ db.query c.command s = (.ok result, s₁) ∧
        (∀ row ∈ rows, ∃ raw, .ok (some raw) ∈ result.reads ∧
          Row.decode "load" (c.statement db.dialect) c.columns raw = .ok row) ∧
            records = Unpacker.records c.tree rows := by
  obtain ⟨⟨c, cursor⟩, s₁, hstart, h⟩ := Session.bind_eq_ok_iff.1 h
  obtain ⟨c', s₀, hc, hstart⟩ := Session.bind_eq_ok_iff.1 hstart
  obtain ⟨hcompile, rfl⟩ := Prod.mk.inj hc
  obtain ⟨cursor', s₂, hcursor, hstart⟩ := Session.bind_eq_ok_iff.1 hstart
  cases hstart
  obtain ⟨result, hquery, hopen, hfeed⟩ := Cursor.start_cases hcursor
  obtain ⟨⟨⟨⟩, u⟩, s₃, hrun, h⟩ := Session.bind_eq_ok_iff.1 h
  cases h
  obtain ⟨rows, hrows, hu⟩ := Cursor.forEach_push db cursor hopen (Unpacker.start c.tree) s₁
  rw [Session.withState_eq_ok hrun] at hu
  exact ⟨c, result, s₁, rows, hcompile, hquery, fun row hr => hfeed row (hrows row hr),
    congrArg Unpacker.finish hu⟩

/-- A result that is open is read to the end or the first failure, and closed behind it. -/
theorem Cursor.forEach_open {σ α : Type} (db : Connection σ) (feed : Feed α)
    (closing : Except Error Unit) (f : α → Session σ Unit) (s : σ) :
    Cursor.forEach db ⟨feed, closing, false⟩ f s =
      let (outcome, s₁) := feed.each f s
      let (closed, s₂) := db.close closing s₁
      (Error.combine outcome closed, s₂) := by
  rw [forEach, drive]
  simp only [Bool.false_eq_true, if_false, Session.bind_run, Session.attempt, Session.lift_run,
    ExceptT.run, Session.ofExcept_run]
  rfl

/-- A result that can be closed is closed behind what is done with its items. -/
theorem Cursor.forEach_run {σ α : Type} (db : Connection σ) (feed : Feed α) (f : α → Session σ Unit)
    (s : σ) : Cursor.forEach db ⟨feed, .ok (), false⟩ f s =
      ((feed.each f s).1, (db.release (feed.each f s).2).2) := by
  rw [forEach_open]
  rcases feed.each f s with ⟨⟨e⟩ | ⟨⟩, s'⟩ <;> rfl

/-- Rows that come one by one are all added. -/
theorem Feed.each_push_ok {σ : Type} (s : σ) : ∀ (rows : List Row) (u : Unpacker),
    (Feed.each (fun row => modify fun (u, s) => (u.push row, s) :
      Row → Session (Unpacker × σ) Unit) (rows.map fun row => .ok (some row)) (u, s)) =
        (.ok (), (rows.foldl Unpacker.push u, s))
  | [], _ => rfl
  | row :: rows, u => each_push_ok s rows (u.push row)

/-- Rows that are decoded without a failure are the items of a cursor. -/
theorem Feed.mapM_decode {operation : String} {s : Statement} {columns : List ResultColumn}
    {raws : List (List Value)} {rows : List Row}
    (hrows : raws.map (Row.decode operation s columns) = rows.map .ok) :
    Feed.mapM (fun raw => (Row.decode operation s columns raw).map some)
      (raws.map fun raw => .ok (some raw)) = rows.map fun row => .ok (some row) := by
  have h := congrArg (List.map (Except.map some)) hrows
  rw [List.map_map, List.map_map] at h
  rw [Feed.mapM, List.map_map]
  exact h

/-- Rows that are read without a failure are loaded. -/
theorem QueryOf.load_run {σ : Type} {q : Query} {db : Connection σ} {c : Compiled} {s s₁ : σ}
    {raws : List (List Value)} {rows : List Row} (hc : q.compile db.dialect = .ok c)
    (hq : db.query c.command s = (.ok ⟨raws.map fun raw => .ok (some raw), .ok ()⟩, s₁))
    (hrows : raws.map (Row.decode "load" (c.statement db.dialect) c.columns) = rows.map .ok) :
    q.load db s = (.ok (Unpacker.records c.tree rows), (db.release s₁).2) := by
  have hfeed : Feed.mapM (fun raw =>
      (Row.decode "load" (c.command.statement db.dialect) c.columns raw).map some)
        (raws.map fun raw => .ok (some raw)) = rows.map fun row => .ok (some row) :=
    Feed.mapM_decode hrows
  have hstart : q.start db "load" s =
      (.ok (c, ⟨rows.map fun row => .ok (some row), .ok (), false⟩), s₁) := by
    simp only [start, Cursor.start, Session.bind_run, Session.ofExcept_run, Session.pure_run, hc,
      hq, hfeed]
  have hread := Feed.each_push_ok s₁ rows (Unpacker.start c.tree)
  have hrun : (Cursor.forEach (db.beside Unpacker) ⟨rows.map fun row => .ok (some row), .ok (),
      false⟩ fun row => modify fun (u, s) => (u.push row, s)) (Unpacker.start c.tree, s₁) =
        (.ok (), (rows.foldl Unpacker.push (Unpacker.start c.tree), (db.release s₁).2)) := by
    rw [Cursor.forEach_run, hread]
    rfl
  rw [load, Session.bind_run, hstart]
  simp only [Session.bind_run, Session.withState, hrun]
  rfl

/-- A query without expressions is compiled without resolving any. -/
theorem QueryOf.compile_of_plain {q : Query} (d : Dialect) (hc : q.conditions = [])
    (ho : q.orderBys = []) (hg : q.groupBys = []) (hcalc : q.calculations = [])
    (hh : q.having = []) : q.compile d = (do
      let tree ← JoinTree.compile .objects "" q
      let select ← (Clauses.select ⟨[], [], [], [], []⟩ q tree).run' 0
      .ok ⟨tree, select⟩) := by
  have hclauses : Node.clauses d q = ⟨[], [], [], [], []⟩ := by
    obtain ⟨⟩ := q
    simp only at hc ho hg hcalc hh
    subst hc ho hg hcalc hh
    rw [Node.clauses, Node.resolvers, Node.sortResolvers, Node.calculationResolvers]
  simp only [compile, select, hclauses]

/-! ## Loaded graphs -/

namespace Record

/-- A graph that is made of rows of a query. -/
def Loaded (s : Schema) (g : Record) : Prop := ∃ (q : Query) (t : JoinTree) (rows : List Row),
  q.Over s ∧ JoinTree.compile .objects "" q = .ok t ∧ g ∈ Unpacker.records t rows

/-- A row of a table of the schema, as it was loaded. -/
structure Untouched (s : Schema) (x : Record) : Prop where
  mem : x.table ∈ s.tables
  saved : x.isNew = false
  dirty : x.dirty = .empty
  settled : ∀ identifier slot, x.slots.find? identifier = some slot → slot.modified = false
  formed : x.Formed

end Record

namespace QueryOf

variable {σ : Type} {q : Query} {schema : Schema}

theorem compile_tree {d : Dialect} {c : Compiled} (h : q.compile d = .ok c) :
    JoinTree.compile .objects "" q = .ok c.tree := by
  obtain ⟨t, ht, h⟩ := bind_eq_ok_iff.1 h
  obtain ⟨select, -, h⟩ := bind_eq_ok_iff.1 h
  cases h
  exact ht

theorem load_loaded {db : Connection σ} {s s' : σ} {records : List Record} (hq : q.Over schema)
    (h : q.load db s = (.ok records, s')) {g : Record} (hg : g ∈ records) : g.Loaded schema := by
  obtain ⟨c, -, -, rows, hc, -, -, rfl⟩ := load_cases h
  exact ⟨q, c.tree, rows, hq, compile_tree hc, hg⟩

theorem get_loaded {db : Connection σ} {s s' : σ} {g : Record} (hq : q.Over schema)
    (h : q.get db s = (.ok g, s')) : g.Loaded schema := by
  obtain ⟨t, s₁, -, h⟩ := Session.bind_eq_ok_iff.1 h
  obtain ⟨records, s₂, hload, h⟩ := Session.bind_eq_ok_iff.1 h
  cases records with
  | nil => cases h
  | cons r rest =>
    cases h
    have hfirst : (q.first t).Over schema := by
      unfold first
      split
      · exact hq
      · exact hq
    exact load_loaded hfirst hload List.mem_cons_self

/-- So is what a cursor makes of one row. -/
theorem record?_loaded {d : Dialect} {c : Compiled} (hq : q.Over schema)
    (hc : q.compile d = .ok c) {row : Row} {g : Record} (h : c.record? row = some g) :
    g.Loaded schema :=
  ⟨q, c.tree, [row], hq, compile_tree hc, List.mem_of_head? h⟩

end QueryOf

/-- **Untouched graphs.** What stands in a loaded graph is as it was loaded. -/
theorem Record.Loaded.untouched {s : Schema} (hs : Schema.SoundTables s.tables) {g x : Record}
    (hg : g.Loaded s) {p : Place} (hx : g.at? p = some x) : x.Untouched s := by
  obtain ⟨q, t, rows, hq, ht, hg⟩ := hg
  have hl := JoinTree.compile_linked ht
  have ho := JoinTree.compile_over hq ht
  obtain ⟨part, -, hload⟩ := JoinTree.exists_loads hg
  obtain ⟨e, he, -, part', -, hload⟩ :=
    hload.place hl hx List.mem_cons_self (JoinTree.root_materialized ht)
  obtain ⟨htable, hsaved, hdirty⟩ := hload.row hl
  exact ⟨htable ▸ Schema.mem_of_join? (ho.joins e he), hsaved, hdirty,
    fun _ _ hslot => hload.settled hl hslot, hload.formed hs hl ho he⟩

/-! ## Books of the library -/

namespace Library

/-- The books with their authors. -/
def books (s : Schema) : Except Error Query := do
  let books ← Chain.follow s "books" []
  let author ← Chain.follow s "books" [.reference "author"]
  .ok { QueryOf.all books.node with selects := [books.node, author.node] }

/-- A result of one row. -/
def answer (raw : List Value) : Response := ⟨none, 1, none, some [raw], none, none⟩

/-- A result of some rows. -/
def answers (raws : List (List Value)) : Script :=
  Script.start [⟨none, 1, none, some raws, none, none⟩]

/-- The script once it has been asked for them. -/
def asked (c : Command) : Script := ⟨[], [.query (c.statement .sqlite)], 0, none, 0⟩

theorem answers_query (raws : List (List Value)) (c : Command) :
    (Script.connection .sqlite).query c (answers raws) =
      (.ok ⟨raws.map fun raw => .ok (some raw), .ok ()⟩, asked c) := rfl

/-- A book with its author, as the database returns them. -/
def bookRow : List Value := [.int 1, .text "Sea", .int 1, .int 1, .int 1, .text "Ann"]

/-- The one record that a query without expressions makes of a row. -/
def recordOf (query : Schema → Except Error Query) (raw : List Value) :
    Except Error (Schema × Query × Record) := do
  let s ← Schema.ofDeclaration declaration
  let q ← query s
  let tree ← JoinTree.compile .objects "" q
  let select ← (Clauses.select ⟨[], [], [], [], []⟩ q tree).run' 0
  let c : Compiled := ⟨tree, select⟩
  let row ← Row.decode "load" (c.statement .sqlite) c.columns raw
  match Unpacker.records tree [row] with
  | [r] => .ok (s, q, r)
  | _ => .error (.recordNotFound q.description)

/-- Such a query loads that record. -/
theorem recordOf_cases {query : Schema → Except Error Query} {raw : List Value} {s : Schema}
    {q : Query} {r : Record} (h : recordOf query raw = .ok (s, q, r)) :
    Schema.ofDeclaration declaration = .ok s ∧ query s = .ok q ∧
      (q.conditions = [] → q.orderBys = [] → q.groupBys = [] → q.calculations = [] →
        q.having = [] → ∃ s', q.load (Script.connection .sqlite) (Script.start [answer raw]) =
          (.ok [r], s')) := by
  obtain ⟨s', hs, h⟩ := bind_eq_ok_iff.1 h
  obtain ⟨q', hq, h⟩ := bind_eq_ok_iff.1 h
  obtain ⟨t, ht, h⟩ := bind_eq_ok_iff.1 h
  obtain ⟨select, hselect, h⟩ := bind_eq_ok_iff.1 h
  obtain ⟨row, hrow, h⟩ := bind_eq_ok_iff.1 h
  match hr : Unpacker.records t [row] with
  | [] =>
    simp only [hr] at h
    cases h
  | _ :: _ :: _ =>
    simp only [hr] at h
    cases h
  | [r'] =>
    simp only [hr] at h
    cases h
    refine ⟨hs, hq, fun hc ho hg hcalc hh => ?_⟩
    have hcompile : q.compile Dialect.sqlite = .ok ⟨t, select⟩ := by
      rw [QueryOf.compile_of_plain .sqlite hc ho hg hcalc hh]
      exact bind_eq_ok_iff.2 ⟨t, ht, bind_eq_ok_iff.2 ⟨select, hselect, rfl⟩⟩
    have hload := @QueryOf.load_run Script q (Script.connection .sqlite) ⟨t, select⟩
      (Script.start [answer raw]) _ [raw] [row] hcompile rfl (congrArg (fun row => [row]) hrow)
    rw [hr] at hload
    exact ⟨_, hload⟩

theorem books_over {s : Schema} {q : Query} (h : books s = .ok q) : q.Over s := by
  obtain ⟨books, h1, h⟩ := bind_eq_ok_iff.1 h
  obtain ⟨author, h2, h⟩ := bind_eq_ok_iff.1 h
  cases h
  intro n hn
  simp only [QueryOf.nodes, QueryOf.all, List.map_nil, List.flatMap_nil, List.append_nil,
    List.nil_append, List.mem_cons, List.not_mem_nil, or_false] at hn
  rcases hn with rfl | rfl | rfl
  · exact .of_follow h1
  · exact .of_follow h1
  · exact .of_follow h2

/-- The schema, and the book with its author. -/
def loadedBook : Except Error (Schema × Record) := do
  let s ← Schema.ofDeclaration declaration
  let authors ← s.requireTable "authors"
  let books ← s.requireTable "books"
  let author := Record.loaded authors (.ofList [("id", .int 1), ("name", .text "Ann")]) .empty
    .empty
  .ok (s, .loaded books (.ofList [("id", .int 1), ("title", .text "Sea"), ("author_id", .int 1),
    ("version", .int 1)]) .empty (.ofList [("author", ⟨.one (some author), false⟩)]))

theorem recordOf_books :
    (recordOf books bookRow).map (fun x => (x.1, x.2.2)) = loadedBook := by cbv

/-- The book is what the query of the books loads. -/
theorem loadedBook_cases {s : Schema} {g : Record} (h : loadedBook = .ok (s, g)) :
    Schema.ofDeclaration declaration = .ok s ∧ ∃ q, books s = .ok q ∧ q.Over s ∧ ∃ s',
      q.load (Script.connection .sqlite) (Script.start [answer bookRow]) = (.ok [g], s') := by
  rw [← recordOf_books] at h
  match hr : recordOf books bookRow with
  | .error e =>
    rw [hr] at h
    cases h
  | .ok (s', q, g') =>
    rw [hr] at h
    cases h
    obtain ⟨hs, hq, hload⟩ := recordOf_cases hr
    refine ⟨hs, q, hq, books_over hq, ?_⟩
    obtain ⟨books, -, hq⟩ := bind_eq_ok_iff.1 hq
    obtain ⟨author, -, hq⟩ := bind_eq_ok_iff.1 hq
    cases hq
    exact hload rfl rfl rfl rfl rfl

theorem loadedBook_loaded {s : Schema} {g : Record} (h : loadedBook = .ok (s, g)) : g.Loaded s := by
  obtain ⟨-, q, -, hq, s', hload⟩ := loadedBook_cases h
  exact QueryOf.load_loaded hq hload List.mem_cons_self

end Library

end RecordGraph
