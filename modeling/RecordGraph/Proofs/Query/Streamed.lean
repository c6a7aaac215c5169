import RecordGraph.Proofs.Query.Load
import RecordGraph.Proofs.Query.Resolvers
import RecordGraph.Proofs.Record.RowByRow

/-!
# Streaming, and loading the first

`QueryOf.loadCursor` makes a record of every row by itself, `QueryOf.load` of all rows together, and
`QueryOf.get` takes the first record of one row. A row without a key of the root has no record:
loading passes over it, but a stream ends there.

**Results.**
* `QueryOf.stream_run`: a stream gives the records of the rows before the first one without.
* `QueryOf.compile_limit`: a limit changes nothing else of a compiled query.
* `QueryOf.streamed_as_loaded`: where the rows without a key of the root come last, streaming gives
  what loading gives, and getting the first of it.
-/
namespace RecordGraph

variable {σ : Type}

/-- No row with an object of the root comes behind one without. -/
def Element.RootsFirst (e : Element) (rows : List Row) : Prop :=
  rows.Pairwise fun a b => e.rootIn a = false → e.rootIn b = false

instance (e : Element) (rows : List Row) : Decidable (e.RootsFirst rows) :=
  inferInstanceAs (Decidable (rows.Pairwise fun a b => e.rootIn a = false → e.rootIn b = false))

/-! ## The records of a stream -/

/-- What a row decodes to does not depend on where it is read. -/
theorem Row.decode_congr {operation operation' : String} {s s' : Statement}
    {columns : List ResultColumn} {raw : List Value} {row : Row}
    (h : Row.decode operation s columns raw = .ok row) :
    Row.decode operation' s' columns raw = .ok row := by
  unfold Row.decode at h ⊢
  split at h
  · cases h
  · rename_i hwidth
    rw [if_neg hwidth]
    exact h

theorem Row.map_decode_congr {operation operation' : String} {s s' : Statement}
    {columns : List ResultColumn} : ∀ {raws : List (List Value)} {rows : List Row},
      raws.map (Row.decode operation s columns) = rows.map .ok →
        raws.map (Row.decode operation' s' columns) = rows.map .ok
  | [], [], _ => rfl
  | _ :: _, _ :: _, h => by
    obtain ⟨hrow, hrest⟩ := List.cons.inj h
    rw [List.map_cons, List.map_cons, decode_congr hrow, map_decode_congr hrest]

namespace Compiled

variable {q : Query} {d : Dialect} {c : Compiled}

/-- The compiled query with another limit. -/
def limited (c : Compiled) (limit : Option UInt64) : Compiled :=
  { c with select := { c.select with limit } }

/-- The records of the rows before the first one without. -/
def streamed (c : Compiled) (rows : List Row) : List Record :=
  (rows.takeWhile fun row => (c.record? row).isSome).filterMap c.record?

theorem record?_eq (row : Row) : c.record? row = (c.tree.alone row c.tree.root).head? := by
  rw [record?, JoinTree.records_singleton]

theorem record?_isSome (hc : q.compile d = .ok c) (row : Row) :
    (c.record? row).isSome = c.tree.root.rootIn row := by
  have ht := QueryOf.compile_tree hc
  rw [record?_eq]
  cases hrow : c.tree.root.rootIn row with
  | false =>
    rw [JoinTree.alone_root_eq_nil (JoinTree.compile_linked ht) hrow]
    rfl
  | true =>
    obtain ⟨r, hr⟩ := JoinTree.exists_alone_root ht hrow
    rw [hr]
    rfl

/-- A load passes over the rows without a record. -/
theorem records_eq (hc : q.compile d = .ok c) {rows : List Row}
    (hapart : c.tree.root.KeysApart rows) :
    Unpacker.records c.tree rows = rows.filterMap c.record? := by
  have ht := QueryOf.compile_tree hc
  have hl := JoinTree.compile_linked ht
  rw [JoinTree.records_apart hl hapart, List.filterMap_eq_flatMap_toList]
  refine List.flatMap_congr fun row _ => ?_
  rw [record?_eq]
  cases hrow : c.tree.root.rootIn row with
  | false =>
    rw [JoinTree.alone_root_eq_nil hl hrow]
    rfl
  | true =>
    obtain ⟨r, hr⟩ := JoinTree.exists_alone_root ht hrow
    rw [hr]
    rfl

end Compiled

/-- A stream gives the records of the rows before the first one without. -/
theorem Feed.each_records (f : Record → Session σ Unit) (record? : Row → Option Record) :
    ∀ rows : List Row, Feed.each f (rows.map fun row => .ok (record? row)) =
      ((rows.takeWhile fun row => (record? row).isSome).filterMap record?).forM f
  | [] => rfl
  | row :: rows => by
    rw [List.map_cons, List.takeWhile_cons]
    cases hr : record? row with
    | none => rfl
    | some r =>
      rw [Feed.each, each_records f record? rows]
      simp only [Option.isSome_some, if_true, List.filterMap_cons, hr]
      rfl

/-- Where the rows without a record come last, these are all records. -/
theorem filterMap_takeWhile {f : α → Option β} : ∀ {as : List α},
    as.Pairwise (fun a b => (f a).isSome = false → (f b).isSome = false) →
      (as.takeWhile fun a => (f a).isSome).filterMap f = as.filterMap f
  | [], _ => rfl
  | a :: as, h => by
    obtain ⟨ha, has⟩ := List.pairwise_cons.1 h
    rw [List.takeWhile_cons]
    cases hf : f a with
    | none =>
      have hnone : ∀ b ∈ a :: as, f b = none := by
        intro b hb
        rcases List.mem_cons.1 hb with rfl | hb
        · exact hf
        · simpa [hf] using ha b hb
      rw [List.filterMap_eq_nil_iff.2 hnone]
      rfl
    | some b =>
      simp only [Option.isSome_some, if_true, List.filterMap_cons, hf]
      rw [filterMap_takeWhile has]

namespace QueryOf

variable {q : Query} {d : Dialect} {c : Compiled}

/-- A limit changes nothing else of a selection. -/
theorem select_limit (clauses : Clauses) (q : Query) (t : JoinTree) (limit : Option UInt64) :
    clauses.select { q with limit } t = (fun s => { s with limit }) <$> clauses.select q t := by
  unfold Clauses.select
  simp only [map_bind]
  refine congrArg _ (funext fun items => ?_)
  split
  · rfl
  · simp only [map_bind, map_pure]

/-- A limit changes nothing else of a compiled query. -/
theorem compile_limit (hc : q.compile d = .ok c) (limit : Option UInt64) :
    ({ q with limit } : Query).compile d = .ok (c.limited limit) := by
  obtain ⟨t, ht, hc⟩ := bind_eq_ok_iff.1 hc
  obtain ⟨select, hselect, hc⟩ := bind_eq_ok_iff.1 hc
  cases hc
  have hclauses : Node.clauses d { q with limit } = Node.clauses d q := by
    rw [Node.clauses_eq, Node.clauses_eq]
  refine bind_eq_ok_iff.2 ⟨t, ht, bind_eq_ok_iff.2 ⟨{ select with limit }, ?_, rfl⟩⟩
  rw [QueryOf.select, Emission.run'_eq] at hselect ⊢
  rw [hclauses, select_limit, StateT.run_map]
  cases hr : ((Node.clauses d q).select q t).run 0 with
  | error e =>
    rw [hr] at hselect
    cases hselect
  | ok p =>
    rw [hr] at hselect
    cases hselect
    rfl

variable {db : Connection σ} {s s₁ : σ} {raws : List (List Value)} {rows : List Row}

/-- Rows that are read without a failure are streamed. -/
theorem loadCursor_run (hc : q.compile db.dialect = .ok c) (hplain : c.tree.fansOut = false)
    (hq : db.query c.command s = (.ok ⟨raws.map fun raw => .ok (some raw), .ok ()⟩, s₁))
    (hrows : raws.map (Row.decode "load" (c.statement db.dialect) c.columns) = rows.map .ok) :
    q.loadCursor db s = (.ok ⟨rows.map fun row => .ok (c.record? row), .ok (), false⟩, s₁) := by
  have hfeed : Feed.mapM (fun raw =>
      (Row.decode "load_cursor" (c.command.statement db.dialect) c.columns raw).map some)
        (raws.map fun raw => .ok (some raw)) = rows.map fun row => .ok (some row) :=
    Feed.mapM_decode (Row.map_decode_congr hrows)
  have hrecords : Feed.mapM (fun row => .ok (c.record? row))
      (rows.map fun row => .ok (some row)) = rows.map fun row => .ok (c.record? row) := by
    rw [Feed.mapM, List.map_map]
    rfl
  simp only [loadCursor, Session.bind_run, Session.ofExcept_run, hc, hplain, Bool.false_eq_true,
    if_false, Cursor.start, hq, hfeed, Session.pure_run, Cursor.mapM, hrecords]

/-- What a stream hands on, before it closes the result. -/
theorem stream_run (hc : q.compile db.dialect = .ok c) (hplain : c.tree.fansOut = false)
    (hq : db.query c.command s = (.ok ⟨raws.map fun raw => .ok (some raw), .ok ()⟩, s₁))
    (hrows : raws.map (Row.decode "load" (c.statement db.dialect) c.columns) = rows.map .ok)
    (f : Record → Session σ Unit) :
    (q.loadCursor db >>= fun cursor => cursor.forEach db f) s =
      (((c.streamed rows).forM f s₁).1, (db.release ((c.streamed rows).forM f s₁).2).2) := by
  rw [Session.bind_run, loadCursor_run hc hplain hq hrows]
  dsimp only
  rw [Cursor.forEach_run, Feed.each_records, Compiled.streamed]

/-- The first of rows with different keys gives the first record, if rows without one come last. -/
theorem head?_records_take (hc : q.compile d = .ok c) (hapart : c.tree.root.KeysApart rows)
    (hfirst : c.tree.root.RootsFirst rows) :
    (Unpacker.records c.tree (rows.take 1)).head? = (Unpacker.records c.tree rows).head? := by
  rw [Compiled.records_eq hc hapart,
    Compiled.records_eq hc (hapart.sublist ((List.take_sublist 1 rows).filterMap _))]
  cases rows with
  | nil => rfl
  | cons row rows =>
    rw [List.take_succ_cons, List.take_zero]
    cases hr : c.record? row with
    | some r => simp only [List.filterMap_cons, hr, List.head?_cons]
    | none =>
      have hnone : ∀ other ∈ row :: rows, c.record? other = none := by
        intro other hother
        rcases List.mem_cons.1 hother with rfl | hother
        · exact hr
        · have hrow := (List.pairwise_cons.1 hfirst).1 other hother
          rw [← Compiled.record?_isSome hc, ← Compiled.record?_isSome hc, hr] at hrow
          simpa using hrow rfl
      rw [List.filterMap_eq_nil_iff.2 hnone]
      simp only [List.filterMap_cons, hr, List.filterMap_nil]

/-- Without a limit of its own, and without a join to many rows, the query for the first object is
limited to one row. -/
theorem get_run (hc : q.compile db.dialect = .ok c) (hplain : c.tree.fansOut = false)
    (hlimit : q.limit = none)
    (hq : db.query (c.limited (some 1)).command s =
      (.ok ⟨raws.map fun raw => .ok (some raw), .ok ()⟩, s₁))
    (hrows : raws.map (Row.decode "load" ((c.limited (some 1)).statement db.dialect) c.columns) =
      rows.map .ok) :
    q.get db s = (match (Unpacker.records c.tree rows).head? with
      | some r => .ok r
      | none => .error (.recordNotFound q.description), (db.release s₁).2) := by
  have hfirst : q.first c.tree = { q with limit := some 1 } := by
    rw [first, hplain, hlimit]
    rfl
  rw [get, Session.bind_run, Session.ofExcept_run, compile_tree hc]
  dsimp only
  rw [Session.bind_run, hfirst, load_run (compile_limit hc (some 1)) hq hrows]
  have htree : (c.limited (some 1)).tree = c.tree := rfl
  rw [htree]
  cases Unpacker.records c.tree rows <;> rfl

/-- **Streaming is loading.** The rows of a query that does not fan out have different keys of the
root, and those without a key come last. Then a stream hands on the records that a load gives, in
their order, and closes the result; and the query for the first object gives the first of them. -/
theorem streamed_as_loaded (hc : q.compile db.dialect = .ok c) (hplain : c.tree.fansOut = false)
    (hq : db.query c.command s = (.ok ⟨raws.map fun raw => .ok (some raw), .ok ()⟩, s₁))
    (hrows : raws.map (Row.decode "load" (c.statement db.dialect) c.columns) = rows.map .ok)
    (hapart : c.tree.root.KeysApart rows) (hfirst : c.tree.root.RootsFirst rows) :
    ∃ records : List Record, q.load db s = (.ok records, (db.release s₁).2) ∧
      (∀ f : Record → Session σ Unit, (q.loadCursor db >>= fun cursor => cursor.forEach db f) s =
        ((records.forM f s₁).1, (db.release (records.forM f s₁).2).2)) ∧
      (q.limit = none → ∃ first,
        ({ q with limit := some 1 } : Query).compile db.dialect = .ok first ∧
          ∀ s s₁, db.query first.command s =
              (.ok ⟨(raws.take 1).map fun raw => .ok (some raw), .ok ()⟩, s₁) →
            q.get db s = (match records.head? with
              | some r => .ok r
              | none => .error (.recordNotFound q.description), (db.release s₁).2)) := by
  refine ⟨Unpacker.records c.tree rows, load_run hc hq hrows, fun f => ?_, fun hlimit => ?_⟩
  · have hlast : rows.Pairwise fun a b =>
        (c.record? a).isSome = false → (c.record? b).isSome = false := by
      simp only [Compiled.record?_isSome hc]
      exact hfirst
    rw [stream_run hc hplain hq hrows, Compiled.streamed, filterMap_takeWhile hlast,
      ← Compiled.records_eq hc hapart]
  · refine ⟨c.limited (some 1), compile_limit hc (some 1), fun s s₁ hq₁ => ?_⟩
    have hone : (raws.take 1).map (Row.decode "load" ((c.limited (some 1)).statement db.dialect)
        c.columns) = (rows.take 1).map .ok := by
      rw [List.map_take, List.map_take, Row.map_decode_congr hrows]
    rw [get_run hc hplain hlimit hq₁ hone, head?_records_take hc hapart hfirst]

end QueryOf

/-! ## Books, one by one -/

namespace Library

/-- Rows of the books, with their query. -/
def bookRows (raws : List (List Value)) : Except Error (Query × Compiled × List Row) := do
  let s ← Schema.ofDeclaration declaration
  let q ← books s
  let c ← q.compile .sqlite
  let rows ← raws.mapM (Row.decode "load" (c.statement .sqlite) c.columns)
  .ok (q, c, rows)

/-- The second of the books. -/
def laterRow : List Value := [.int 2, .text "Sky", .int 1, .int 1, .int 1, .text "Ann"]

/-- A row without a book. -/
def keylessRow : List Value := [.null, .text "Sand", .int 1, .int 1, .int 1, .text "Ann"]

theorem bookRows_cases {raws : List (List Value)} {q : Query} {c : Compiled} {rows : List Row}
    (h : bookRows raws = .ok (q, c, rows)) :
    q.compile (Script.connection .sqlite).dialect = .ok c ∧ q.limit = none ∧
      raws.map (Row.decode "load" (c.statement (Script.connection .sqlite).dialect) c.columns) =
        rows.map .ok := by
  obtain ⟨s, -, h⟩ := bind_eq_ok_iff.1 h
  obtain ⟨q', hq, h⟩ := bind_eq_ok_iff.1 h
  obtain ⟨c', hc, h⟩ := bind_eq_ok_iff.1 h
  obtain ⟨rows', hrows, h⟩ := bind_eq_ok_iff.1 h
  cases h
  obtain ⟨books, -, hq⟩ := bind_eq_ok_iff.1 hq
  obtain ⟨author, -, hq⟩ := bind_eq_ok_iff.1 hq
  cases hq
  exact ⟨hc, rfl, mapM_eq_ok_iff.1 hrows⟩

/-- A check of the rows of the books. -/
def bookCheck (raws : List (List Value)) (check : Compiled → List Row → Bool) : Bool :=
  match bookRows raws with
  | .ok (_, c, rows) => !c.tree.fansOut && decide (c.tree.root.KeysApart rows) && check c rows
  | .error _ => false

theorem bookCheck_cases {raws : List (List Value)} {check : Compiled → List Row → Bool}
    (h : bookCheck raws check = true) : ∃ q c rows, bookRows raws = .ok (q, c, rows) ∧
      c.tree.fansOut = false ∧ c.tree.root.KeysApart rows ∧ check c rows = true := by
  unfold bookCheck at h
  split at h
  · rename_i q c rows hrows
    obtain ⟨h, hcheck⟩ := Bool.and_eq_true_iff.1 h
    obtain ⟨hplain, hapart⟩ := Bool.and_eq_true_iff.1 h
    exact ⟨q, c, rows, hrows, by simpa using hplain, of_decide_eq_true hapart, hcheck⟩
  · cases h

/-- Two books before a row without one: they are streamed as they are loaded. -/
theorem books_streamed : ∃ q c rows a b,
    bookRows [bookRow, laterRow, keylessRow] = .ok (q, c, rows) ∧
      (q.load (Script.connection .sqlite) (answers [bookRow, laterRow, keylessRow])).1 =
        .ok [a, b] ∧
      (∀ f : Record → Session Script Unit, ((q.loadCursor (Script.connection .sqlite) >>=
          fun cursor => cursor.forEach (Script.connection .sqlite) f)
            (answers [bookRow, laterRow, keylessRow])).1 = ([a, b].forM f (asked c.command)).1) ∧
      (q.get (Script.connection .sqlite) (answers [bookRow])).1 = .ok a := by
  obtain ⟨q, c, rows, h, hplain, hapart, hcheck⟩ := bookCheck_cases (by cbv :
    bookCheck [bookRow, laterRow, keylessRow] (fun c rows =>
      decide (c.tree.root.RootsFirst rows) && (Unpacker.records c.tree rows).length == 2) = true)
  obtain ⟨hfirst, hlength⟩ := Bool.and_eq_true_iff.1 hcheck
  obtain ⟨hc, hlimit, hrows⟩ := bookRows_cases h
  obtain ⟨records, hload, hstream, hget⟩ := QueryOf.streamed_as_loaded hc hplain
    (answers_query _ c.command) hrows hapart (of_decide_eq_true hfirst)
  have hrecords := hload.symm.trans (QueryOf.load_run hc (answers_query _ c.command) hrows)
  obtain rfl : records = Unpacker.records c.tree rows :=
    Except.ok.inj (congrArg Prod.fst hrecords)
  obtain ⟨a, b, hab⟩ := List.length_eq_two.1 (beq_iff_eq.1 hlength)
  rw [hab] at hload hstream hget
  obtain ⟨first, -, hget⟩ := hget hlimit
  exact ⟨q, c, rows, a, b, h, congrArg Prod.fst hload, fun f => by rw [hstream f],
    congrArg Prod.fst (hget _ _ (answers_query [bookRow] first.command))⟩

/-- A row without a book between two books: both books are loaded, but a stream ends at the row. -/
theorem exists_book_unstreamed : ∃ q c rows a b,
    bookRows [bookRow, keylessRow, laterRow] = .ok (q, c, rows) ∧ c.tree.fansOut = false ∧
      c.tree.root.KeysApart rows ∧
      (q.load (Script.connection .sqlite) (answers [bookRow, keylessRow, laterRow])).1 =
        .ok [a, b] ∧
      ∀ f : Record → Session Script Unit, ((q.loadCursor (Script.connection .sqlite) >>=
          fun cursor => cursor.forEach (Script.connection .sqlite) f)
            (answers [bookRow, keylessRow, laterRow])).1 = ([a].forM f (asked c.command)).1 := by
  obtain ⟨q, c, rows, h, hplain, hapart, hcheck⟩ := bookCheck_cases (by cbv :
    bookCheck [bookRow, keylessRow, laterRow] (fun c rows =>
      (Unpacker.records c.tree rows).length == 2 && (c.streamed rows).length == 1) = true)
  obtain ⟨hlength, hstreamed⟩ := Bool.and_eq_true_iff.1 hcheck
  obtain ⟨hc, -, hrows⟩ := bookRows_cases h
  have hload := QueryOf.load_run hc (answers_query _ c.command) hrows
  have hstream := QueryOf.stream_run hc hplain (answers_query _ c.command) hrows
  obtain ⟨a, b, hab⟩ := List.length_eq_two.1 (beq_iff_eq.1 hlength)
  obtain ⟨a', ha'⟩ := List.length_eq_one_iff.1 (beq_iff_eq.1 hstreamed)
  -- what is streamed is the start of what is loaded
  have hprefix : c.streamed rows <+: Unpacker.records c.tree rows := by
    rw [Compiled.records_eq hc hapart]
    exact (List.takeWhile_prefix _).filterMap _
  rw [hab, ha'] at hprefix
  obtain ⟨rfl, -⟩ := List.cons_prefix_cons.1 hprefix
  rw [hab] at hload
  rw [ha'] at hstream
  exact ⟨q, c, rows, a', b, h, hplain, hapart, congrArg Prod.fst hload,
    fun f => by rw [hstream f]⟩

end Library

end RecordGraph
