import RecordGraph.Proofs.Query.Load

/-!
# Results that are read step by step

What a query of a `Connection` reads is settled when it is sent. A `Driver` does not settle it: its
results are open, every read is an action on the state of the driver, and what comes next may depend
on that state. The terminal operations on queries are the same for both.

* `Driver.load`, `get`, `count`, `rows`, `records`, `insert`: the operations, read by read.
* `Connection.driver`: the driver of a connection.
* `Connection.driver_stepped`: with that driver, the operations do what they do on the connection.
-/
namespace RecordGraph

variable {σ α β : Type}

/-! ## Open results -/

/-- The rows of an open result, up to where all further reads give the end. -/
inductive Source (σ : Type) where
  | ended (read : StateM σ Unit)
  | more (read : Session σ (Option (List Value))) (rest : σ → Source σ)

/-- Reads the next row. -/
def Source.next : Source σ → StateM σ (Except Error (Option (List Value)) × Source σ)
  | .ended read => fun s => ((.ok none, .ended read), (read s).2)
  | .more read rest => fun s => (((read s).1, rest (read s).2), (read s).2)

/-- A result that a driver has opened. -/
structure OpenRows (σ : Type) where
  source : Source σ
  close : Session σ Unit

/-- A database whose results are read step by step. -/
structure Driver (σ : Type) where
  dialect : Dialect
  execute : Command → Session σ Nat
  query : Command → Session σ (OpenRows σ)
  lastInsertId : Session σ (Option Value)

/-- A result as it is read: every row is passed on to `item`. -/
structure Reader (σ α : Type) where
  rows : OpenRows σ
  item : List Value → Except Error (Option α)
  closed : Bool

/-- A read with its item passed on. -/
def passOn (f : α → Except Error (Option β)) : Except Error (Option α) → Except Error (Option β)
  | .ok (some a) => f a
  | .ok none => .ok none
  | .error e => .error e

/-- Feeds items to an action that carries a value along, up to the end or the first failure. -/
def Source.fold (item : List Value → Except Error (Option α)) (f : β → α → Session σ β) :
    Source σ → β → Session σ β
  | .ended read, b => fun s => (.ok b, (read s).2)
  | .more read rest, b => fun s =>
    match passOn item (read s).1 with
    | .error e => (.error e, (read s).2)
    | .ok none => (.ok b, (read s).2)
    | .ok (some a) => (f b a >>= fun b => fold item f (rest (read s).2) b) (read s).2

namespace Reader

/-- The reader with every item passed on to `f`. -/
def mapM (f : α → Except Error (Option β)) (r : Reader σ α) : Reader σ β :=
  ⟨r.rows, fun raw => passOn f (r.item raw), r.closed⟩

/-- The next item; none at the end, or after closing. -/
def next (r : Reader σ α) : StateM σ (Except Error (Option α) × Reader σ α) :=
  if r.closed then pure (.ok none, r)
  else do
    let (read, source) ← r.rows.source.next
    pure (passOn r.item read, { r with rows := { r.rows with source } })

/-- Closes the result, once. -/
def close (r : Reader σ α) : StateM σ (Except Error Unit × Reader σ α) :=
  if r.closed then pure (.ok (), r)
  else do
    let outcome ← r.rows.close.run
    pure (outcome, { r with closed := true })

/-- Drops the reader; a failure to close goes unnoticed. -/
def drop (r : Reader σ α) : StateM σ Unit := do
  let _ ← r.close

/-- Feeds every item to an action, then closes and drops the reader. -/
def fold (r : Reader σ α) (f : β → α → Session σ β) (b : β) : Session σ β := do
  let outcome ← ((if r.closed then pure b else r.rows.source.fold r.item f b)).attempt
  let (closed, r) ← Session.lift r.close
  Session.lift r.drop
  Session.ofExcept (Error.combine (outcome.map fun _ => ()) closed)
  Session.ofExcept outcome

end Reader

/-! ## Using a cursor by hand -/

inductive CursorUse where
  | next
  | close

/-- How a cursor ends. -/
inductive CursorEnd (σ α : Type) where
  | drop
  | forEach (f : α → Session σ Unit)

/-- Uses one after the other, with what each of them gives. -/
def useAll {γ δ : Type} (use : CursorUse → γ → StateM σ (δ × γ)) :
    List CursorUse → γ → StateM σ (List δ × γ)
  | [], c => pure ([], c)
  | u :: us, c => do
    let (given, c) ← use u c
    let (rest, c) ← useAll use us c
    pure (given :: rest, c)

def Reader.use : CursorUse → Reader σ α → StateM σ (Except Error (Option α) × Reader σ α)
  | .next, r => r.next
  | .close, r => do
    let (closed, r) ← r.close
    pure (closed.map fun _ => none, r)

def Reader.finish (r : Reader σ α) : CursorEnd σ α → Session σ Unit
  | .drop => Session.lift r.drop
  | .forEach f => r.fold (fun _ a => f a) ()

/-- A reader that is used by hand before it ends. -/
def Reader.run (r : Reader σ α) (uses : List CursorUse) (last : CursorEnd σ α) :
    Session σ (List (Except Error (Option α))) := do
  let (given, r) ← Session.lift (useAll Reader.use uses r)
  r.finish last
  pure given

/-! The same with a cursor of a connection. -/

def Cursor.use (db : Connection σ) :
    CursorUse → Cursor α → StateM σ (Except Error (Option α) × Cursor α)
  | .next, c => pure c.next
  | .close, c => do
    let (closed, c) ← c.close db
    pure (closed.map fun _ => none, c)

def Cursor.finish (db : Connection σ) (c : Cursor α) : CursorEnd σ α → Session σ Unit
  | .drop => Session.lift (c.drop db)
  | .forEach f => c.forEach db f

def Cursor.run (db : Connection σ) (c : Cursor α) (uses : List CursorUse) (last : CursorEnd σ α) :
    Session σ (List (Except Error (Option α))) := do
  let (given, c) ← Session.lift (useAll (Cursor.use db) uses c)
  c.finish db last
  pure given

/-! ## Terminal operations -/

namespace Driver

variable (d : Driver σ)

/-- Sends a query. `operation` names it in errors. -/
def start (operation : String) (c : Command) (columns : List ResultColumn) :
    Session σ (Reader σ Row) := do
  let rows ← d.query c
  let decode (raw : List Value) :=
    (Row.decode operation (c.statement d.dialect) columns raw).map some
  pure ⟨rows, decode, false⟩

/-- All objects that a query matches. -/
def load (q : Query) : Session σ (List Record) := do
  let c ← Session.ofExcept (q.compile d.dialect)
  let r ← d.start "load" c.command c.columns
  let u ← r.fold (fun u row => pure (u.push row)) (Unpacker.start c.tree)
  pure u.finish

/-- The first object that a query matches. -/
def get (q : Query) : Session σ Record := do
  let tree ← Session.ofExcept (JoinTree.compile .objects "" q)
  match ← d.load (q.first tree) with
  | r :: _ => pure r
  | [] => throw (.recordNotFound q.description)

/-- The number of objects that a query matches. -/
def count (q : Query) : Session σ Nat := do
  let counting ← Session.ofExcept (q.compileCount d.dialect)
  let r ← d.start "count" (.count counting) [.count]
  let n ← r.fold (fun _ row => pure (QueryOf.counted row)) (0 : Int64)
  pure n.toInt.toNat

/-- The rows of a result, read by hand before the cursor ends. -/
def rows (operation : String) (c : Command) (columns : List ResultColumn) (uses : List CursorUse)
    (last : CursorEnd σ Row) : Session σ (List (Except Error (Option Row))) := do
  let r ← d.start operation c columns
  r.run uses last

/-- The objects that a query matches, read by hand before the cursor ends. -/
def records (q : Query) (uses : List CursorUse) (last : CursorEnd σ Record) :
    Session σ (List (Except Error (Option Record))) := do
  let c ← Session.ofExcept (q.compile d.dialect)
  if c.tree.fansOut then throw (.invalidQuery .toManyStream)
  let r ← d.start "load_cursor" c.command c.columns
  (r.mapM fun row => .ok (c.record? row)).run uses last

/-- The first row of a result, which is closed behind it. -/
def firstRow (rows : OpenRows σ) : Session σ (Option (List Value)) := do
  let (first, _) ← Session.lift rows.source.next
  let closed ← rows.close.attempt
  match first, closed with
  | .ok row, .ok () => pure row
  | .error e, closed => throw (e.withCleanup closed)
  | .ok _, .error e => throw e

/-- Adds a row and gives the key that the database assigned, if it did. -/
def insert (table : Table) (fields : List Field) : Session σ (Option Value) := do
  let key := table.primaryKey
  let execute : Session σ Unit := do
    let _ ← d.execute (.insert table fields none)
  if Connection.assignsKey table fields then
    match d.dialect.insertStrategy with
    | .returning => do
      let rows ← d.query (.insert table fields (some key))
      match (← firstRow rows).bind List.head? with
      | some raw => do
        let v ← Session.ofExcept (key.receiver.decode key.name raw)
        pure (some v)
      | none => throw (.record (.noKeyReturned table.name))
    | .lastInsertId => do
      execute
      d.lastInsertId
  else do
    execute
    pure none

end Driver

/-! ## The driver of a connection -/

/-- Reads that are settled, one after the other. -/
def Source.ofFeed : Feed (List Value) → Source σ
  | [] => .ended (pure ())
  | read :: rest => .more (Session.ofExcept read) fun _ => ofFeed rest

namespace Connection

variable (db : Connection σ)

/-- The result as it is open. -/
def openRows (rows : Rows) : OpenRows σ := ⟨.ofFeed rows.reads, db.close rows.closing⟩

/-- The connection with results that are read step by step. -/
def driver : Driver σ where
  dialect := db.dialect
  execute := db.execute
  query c := do
    let rows ← db.query c
    pure (db.openRows rows)
  lastInsertId := db.lastInsertId

/-- The operations of a driver do what those on the connection do. -/
structure SteppedBy (d : Driver σ) : Prop where
  load : ∀ q, d.load q = q.load db
  get : ∀ q, d.get q = q.get db
  count : ∀ q, d.count q = q.count db
  rows : ∀ operation c columns uses last, d.rows operation c columns uses last = (do
    let cursor ← Cursor.start db operation c columns
    cursor.run db uses last)
  records : ∀ q uses last, d.records q uses last = (do
    let cursor ← QueryOf.loadCursor q db
    cursor.run db uses last)
  insert : ∀ table fields, d.insert table fields = db.insert table fields

end Connection

/-! ## Reading what is settled -/

/-- An open reader reads to the end or the first failure, and closes the result behind it. -/
theorem Reader.fold_run {r : Reader σ α} (hopen : r.closed = false) (f : β → α → Session σ β)
    (b : β) (s : σ) : r.fold f b s =
      let (outcome, s₁) := r.rows.source.fold r.item f b s
      let (closed, s₂) := r.rows.close s₁
      (Error.combine (outcome.map fun _ => ()) closed >>= fun _ => outcome, s₂) := by
  obtain ⟨rows, item, closed⟩ := r
  cases hopen
  have hclose : ∀ s₁, (⟨rows, item, false⟩ : Reader σ α).close s₁ =
      (((rows.close s₁).1, ⟨rows, item, true⟩), (rows.close s₁).2) := fun _ => rfl
  simp only [fold, Bool.false_eq_true, if_false, Session.bind_run, Session.attempt,
    Session.lift_run, ExceptT.run, hclose, Session.ofExcept_run]
  rcases rows.source.fold item f b s with ⟨outcome, s₁⟩
  dsimp only
  rcases rows.close s₁ with ⟨closed, s₂⟩
  dsimp only
  cases Error.combine (outcome.map fun _ => ()) closed <;> rfl

theorem Reader.fold_of_closed {r : Reader σ α} (hclosed : r.closed = true)
    (f : β → α → Session σ β) (b : β) (s : σ) : r.fold f b s = (.ok b, s) := by
  obtain ⟨rows, item, closed⟩ := r
  cases hclosed
  rfl

theorem Feed.mapM_eq (f : α → Except Error (Option β)) (feed : Feed α) :
    Feed.mapM f feed = feed.map (passOn f) := by
  refine List.map_congr_left fun read _ => ?_
  rcases read with e | _ | a <;> rfl

theorem Feed.mapM_mapM {γ : Type} (f : α → Except Error (Option β))
    (g : β → Except Error (Option γ)) (feed : Feed α) :
    Feed.mapM g (Feed.mapM f feed) = Feed.mapM (fun a => passOn g (f a)) feed := by
  simp only [mapM_eq, List.map_map]
  refine List.map_congr_left fun read _ => ?_
  rcases read with e | _ | a <;> rfl

/-- Items that are fed to an action. -/
theorem Source.fold_each (item : List Value → Except Error (Option α)) (f : α → Session σ Unit) :
    ∀ (reads : Feed (List Value)) (s : σ),
      (Source.ofFeed reads).fold item (fun _ a => f a) () s = (Feed.mapM item reads).each f s
  | [], s => rfl
  | read :: rest, s => by
    rw [ofFeed, fold, Feed.mapM_eq, List.map_cons, ← Feed.mapM_eq]
    simp only [Session.ofExcept_run]
    rcases passOn item read with e | _ | a
    · rfl
    · rfl
    · simp only [Feed.each, Session.bind_run]
      rcases f a s with ⟨e | ⟨⟩, s'⟩
      · rfl
      · exact fold_each item f rest s'

/-- Items that are fed to an action on a value beside the state. -/
theorem Source.fold_modify (item : List Value → Except Error (Option α)) (step : β → α → β)
    (s : σ) : ∀ (reads : Feed (List Value)) (b : β), ∃ outcome b',
      (Source.ofFeed reads).fold item (fun b a => pure (step b a)) b s = (outcome, s) ∧
        (Feed.mapM item reads).each (fun a => modify fun (b, s) => (step b a, s) :
          α → Session (β × σ) Unit) (b, s) = (outcome.map fun _ => (), (b', s)) ∧
          ∀ b'', outcome = .ok b'' → b'' = b'
  | [], b => ⟨.ok b, b, rfl, rfl, fun _ h => (Except.ok.inj h).symm⟩
  | read :: rest, b => by
    rw [ofFeed, fold, Feed.mapM_eq, List.map_cons, ← Feed.mapM_eq]
    simp only [Session.ofExcept_run]
    rcases passOn item read with e | _ | a
    · exact ⟨.error e, b, rfl, rfl, fun _ h => by cases h⟩
    · exact ⟨.ok b, b, rfl, rfl, fun _ h => (Except.ok.inj h).symm⟩
    · exact fold_modify item step s rest (step b a)

section
variable (db : Connection σ) (item : List Value → Except Error (Option α))
  (reads : Feed (List Value)) (closing : Except Error Unit)

/-- A settled result as a reader. -/
def Connection.reader (closed : Bool) : Reader σ α :=
  ⟨db.openRows ⟨reads, closing⟩, item, closed⟩

theorem Connection.reader_forEach (closed : Bool) (f : α → Session σ Unit) :
    (db.reader item reads closing closed).fold (fun _ a => f a) () =
      Cursor.forEach db ⟨Feed.mapM item reads, closing, closed⟩ f := by
  funext s
  cases closed with
  | true =>
    rw [Reader.fold_of_closed rfl]
    rfl
  | false =>
    rw [Reader.fold_run rfl, Cursor.forEach_open]
    simp only [reader, openRows, Source.fold_each]
    rcases (Feed.mapM item reads).each f s with ⟨e | ⟨⟩, s₁⟩
    · rfl
    · simp only
      rcases db.close closing s₁ with ⟨e | ⟨⟩, s₂⟩ <;> rfl

/-- What is carried along beside the state, and lost with a failure. -/
theorem Connection.reader_fold (step : β → α → β) (b : β) (s : σ) :
    Session.withState b (Cursor.forEach (db.beside β) ⟨Feed.mapM item reads, closing, false⟩
      fun a => modify fun (b, s) => (step b a, s)) s =
        let (outcome, s') :=
          (db.reader item reads closing false).fold (fun b a => pure (step b a)) b s
        (outcome.map fun b => ((), b), s') := by
  obtain ⟨outcome, b', hfold, heach, hb⟩ := Source.fold_modify item step s reads b
  rw [Session.withState, Cursor.forEach_open, Reader.fold_run rfl]
  simp only [reader, openRows]
  rw [heach, hfold]
  have hclose : (db.beside β).close closing (b', s) =
      ((db.close closing s).1, (b', (db.close closing s).2)) := rfl
  simp only [hclose]
  rcases outcome with e | b''
  · rfl
  · obtain rfl := hb b'' rfl
    rcases db.close closing s with ⟨e | ⟨⟩, s₂⟩ <;> rfl

/-- A use by hand leads to the same item and to the same rest. -/
theorem Connection.reader_use (u : CursorUse) (closed : Bool) (s : σ) :
    ∃ given reads' closed' s',
      Reader.use u (db.reader item reads closing closed) s
        = ((given, db.reader item reads' closing closed'), s') ∧
      Cursor.use db u ⟨Feed.mapM item reads, closing, closed⟩ s
        = ((given, ⟨Feed.mapM item reads', closing, closed'⟩), s') := by
  cases u with
  | next =>
    cases closed with
    | true => exact ⟨_, reads, true, s, rfl, rfl⟩
    | false =>
      cases reads with
      | nil => exact ⟨_, [], false, s, rfl, rfl⟩
      | cons read rest =>
        refine ⟨_, rest, false, s, rfl, ?_⟩
        rw [Feed.mapM_eq, List.map_cons, ← Feed.mapM_eq]
        rfl
  | close =>
    cases closed with
    | true => exact ⟨_, reads, true, s, rfl, rfl⟩
    | false => exact ⟨_, reads, true, _, rfl, rfl⟩

theorem Connection.reader_useAll : ∀ (us : List CursorUse) (reads : Feed (List Value))
    (closed : Bool) (s : σ), ∃ given reads' closed' s',
      useAll Reader.use us (db.reader item reads closing closed) s
        = ((given, db.reader item reads' closing closed'), s') ∧
      useAll (Cursor.use db) us ⟨Feed.mapM item reads, closing, closed⟩ s
        = ((given, ⟨Feed.mapM item reads', closing, closed'⟩), s')
  | [], reads, closed, s => ⟨[], reads, closed, s, rfl, rfl⟩
  | u :: us, reads, closed, s => by
    obtain ⟨g, reads₁, closed₁, s₁, hr, hc⟩ := reader_use db item reads closing u closed s
    obtain ⟨gs, reads₂, closed₂, s₂, hrs, hcs⟩ := reader_useAll us reads₁ closed₁ s₁
    refine ⟨g :: gs, reads₂, closed₂, s₂, ?_, ?_⟩
    · simp only [useAll, bind, StateT.bind, hr, hrs]
      rfl
    · simp only [useAll, bind, StateT.bind, hc, hcs]
      rfl

/-- By hand, and to the end. -/
theorem Connection.reader_run (closed : Bool) (us : List CursorUse) (last : CursorEnd σ α) :
    (db.reader item reads closing closed).run us last =
      Cursor.run db ⟨Feed.mapM item reads, closing, closed⟩ us last := by
  funext s
  obtain ⟨given, reads', closed', s', hr, hc⟩ := reader_useAll db item closing us reads closed s
  simp only [Reader.run, Cursor.run, Session.bind_run, Session.lift_run, hr, hc]
  cases last with
  | drop =>
    cases closed' <;> rfl
  | forEach f =>
    simp only [Reader.finish, Cursor.finish, reader_forEach]

end

namespace Connection

variable (db : Connection σ)

theorem driver_query (c : Command) (k : OpenRows σ → Session σ β) :
    db.driver.query c >>= k = db.query c >>= fun rows => k (db.openRows rows) := by
  simp only [driver, bind_assoc, pure_bind]

/-- What is done with a reader of the driver is done with a cursor of the connection. -/
theorem driver_start (operation : String) (c : Command) (columns : List ResultColumn)
    {k : Reader σ Row → Session σ β} {k' : Cursor Row → Session σ β}
    (h : ∀ item reads closing,
      k (db.reader item reads closing false) = k' ⟨Feed.mapM item reads, closing, false⟩) :
    db.driver.start operation c columns >>= k = Cursor.start db operation c columns >>= k' := by
  simp only [Driver.start, Cursor.start, bind_assoc, pure_bind, driver_query]
  exact bind_congr fun rows => h _ rows.reads rows.closing

theorem driver_load (q : Query) : db.driver.load q = q.load db := by
  simp only [Driver.load, QueryOf.load, QueryOf.start, bind_assoc]
  refine bind_congr fun c => ?_
  refine driver_start db _ _ _ fun item reads closing => ?_
  funext s
  simp only [Session.bind_run, Session.pure_run, db.reader_fold]
  rcases (db.reader item reads closing false).fold _ _ s with ⟨e | u, s'⟩ <;> rfl

theorem driver_count (q : Query) : db.driver.count q = q.count db := by
  refine bind_congr fun counting => ?_
  refine driver_start db _ _ _ fun item reads closing => ?_
  funext s
  have hfold := db.reader_fold item reads closing (fun _ row => QueryOf.counted row) (0 : Int64) s
  simp only [Session.bind_run]
  rw [hfold]
  rcases (db.reader item reads closing false).fold _ _ s with ⟨e | n, s'⟩ <;> rfl

theorem driver_firstRow (rows : Rows) : Driver.firstRow (db.openRows rows) = db.firstRow rows := by
  rcases rows with ⟨_ | ⟨read, rest⟩, closing⟩ <;> rfl

theorem driver_insert (table : Table) (fields : List Field) :
    db.driver.insert table fields = db.insert table fields := by
  unfold Driver.insert Connection.insert
  split
  · rw [show db.driver.dialect = db.dialect from rfl]
    cases db.dialect.insertStrategy with
    | returning =>
      refine (db.driver_query _ _).trans (bind_congr fun rows => ?_)
      exact congrArg (· >>= _) (db.driver_firstRow rows)
    | lastInsertId => rfl
  · rfl

/-- **Step by step.** Where reads are settled when a query is sent, reading them one by one does the
same. -/
theorem driver_stepped : db.SteppedBy db.driver where
  load := db.driver_load
  get q := by
    refine bind_congr fun tree => ?_
    exact congrArg (· >>= _) (db.driver_load (q.first tree))
  count := db.driver_count
  rows operation c columns uses last := by
    refine driver_start db _ _ _ fun item reads closing => ?_
    exact db.reader_run item reads closing false uses last
  records q uses last := by
    simp only [Driver.records, QueryOf.loadCursor, bind_assoc]
    refine bind_congr fun c => ?_
    by_cases hfans : c.tree.fansOut = true
    · simp only [hfans, if_true]
      rfl
    simp only [hfans, if_false, bind_assoc, pure_bind, Bool.false_eq_true]
    refine driver_start db _ _ _ fun item reads closing => ?_
    rw [Cursor.mapM, Feed.mapM_mapM]
    exact db.reader_run _ reads closing false uses last
  insert := db.driver_insert

end Connection

end RecordGraph
