import RecordGraph.Proofs.Query.Stepwise

/-!
# Every result is closed once

A driver may answer whatever it likes, and every call to it may fail. The driver beside a list of
what happened to its results shows that each of the terminal operations opens at most one result,
and closes an opened one exactly once, with no read behind it.

* `Driver.traced`: the driver beside the list of calls.
* `Passed`: the calls that lead a reader from open or closed to open or closed; `Passed.trans`.
* `Source.fold_traced`, `Reader.useAll_traced`: what reading to the end and reading by hand call.
* `results_closed_once`: for every driver, all operations close what they open, once; and on the
  driver of a connection they are the operations on that connection.
-/
namespace RecordGraph

variable {σ α β : Type}

/-! ## Calls -/

/-- What happens to results. -/
inductive ResultCall where
  | opened
  /-- A query that fails opens nothing. -/
  | refused
  | read
  | closed
  deriving DecidableEq

/-- No query, one that fails, or one whose result is read and then closed. -/
def ClosedOnce (calls : List ResultCall) : Prop :=
  calls = [] ∨ calls = [.refused] ∨ ∃ n, calls = .opened :: (List.replicate n .read ++ [.closed])

/-- An action beside the list of calls, which is one of them. -/
def noted (call : ResultCall) (x : Session σ α) : Session (List ResultCall × σ) α := fun cs =>
  ((x cs.2).1, (cs.1 ++ [call], (x cs.2).2))

def Source.traced : Source σ → Source (List ResultCall × σ)
  | .ended read => .ended fun cs => ((read cs.2).1, (cs.1 ++ [.read], (read cs.2).2))
  | .more read rest => .more (noted .read read) fun cs => (rest cs.2).traced

def OpenRows.traced (rows : OpenRows σ) : OpenRows (List ResultCall × σ) where
  source := rows.source.traced
  close := noted .closed rows.close

/-- The driver beside a list of what happened to its results, the last call at the end. -/
def Driver.traced (d : Driver σ) : Driver (List ResultCall × σ) where
  dialect := d.dialect
  execute c := (d.execute c).onSecond
  query c := fun cs =>
    match d.query c cs.2 with
    | (.ok rows, s) => (.ok rows.traced, (cs.1 ++ [.opened], s))
    | (.error e, s) => (.error e, (cs.1 ++ [.refused], s))
  lastInsertId := d.lastInsertId.onSecond

def Reader.traced (r : Reader σ α) : Reader (List ResultCall × σ) α :=
  ⟨r.rows.traced, r.item, r.closed⟩

/-- An end that leaves the calls alone. -/
def CursorEnd.traced : CursorEnd σ α → CursorEnd (List ResultCall × σ) α
  | .drop => .drop
  | .forEach f => .forEach fun a => (f a).onSecond

/-- The operation on a traced driver does what it does on the driver, and makes such calls. -/
def Calls (P : List ResultCall → Prop) (x' : Session (List ResultCall × σ) α) (x : Session σ α) :
    Prop :=
  ∀ calls s, ∃ more, P more ∧ x' (calls, s) = ((x s).1, (calls ++ more, (x s).2))

/-- All terminal operations close what they open, once. -/
structure Driver.ClosesOnce (d : Driver σ) : Prop where
  load : ∀ q, Calls ClosedOnce (d.traced.load q) (d.load q)
  get : ∀ q, Calls ClosedOnce (d.traced.get q) (d.get q)
  count : ∀ q, Calls ClosedOnce (d.traced.count q) (d.count q)
  rows : ∀ operation c columns uses last, Calls ClosedOnce
    (d.traced.rows operation c columns uses last.traced) (d.rows operation c columns uses last)
  records : ∀ q uses last, Calls ClosedOnce
    (d.traced.records q uses last.traced) (d.records q uses last)
  insert : ∀ table fields, Calls ClosedOnce (d.traced.insert table fields) (d.insert table fields)

/-! ## Quiet parts -/

/-- The action makes no calls. -/
abbrev Quiet (x' : Session (List ResultCall × σ) α) (x : Session σ α) : Prop := Calls (· = []) x' x

theorem quiet_pure (a : α) : Quiet (pure a : Session (List ResultCall × σ) α) (pure a) :=
  fun calls _ => ⟨[], rfl, by rw [List.append_nil]; rfl⟩

theorem quiet_throw (e : Error) : Quiet (throw e : Session (List ResultCall × σ) α) (throw e) :=
  fun calls _ => ⟨[], rfl, by rw [List.append_nil]; rfl⟩

theorem quiet_ofExcept (x : Except Error α) :
    Quiet (Session.ofExcept x : Session (List ResultCall × σ) α) (Session.ofExcept x) :=
  fun calls _ => ⟨[], rfl, by rw [List.append_nil]; rfl⟩

theorem quiet_onSecond (x : Session σ α) : Quiet x.onSecond x :=
  fun calls _ => ⟨[], rfl, by rw [List.append_nil]; rfl⟩

namespace Calls

variable {P : List ResultCall → Prop} {x' : Session (List ResultCall × σ) α} {x : Session σ α}
  {g' : α → Session (List ResultCall × σ) β} {g : α → Session σ β}

theorem mono {Q : List ResultCall → Prop} (hx : Calls P x' x) (h : ∀ calls, P calls → Q calls) :
    Calls Q x' x := by
  intro calls s
  obtain ⟨more, hmore, hrun⟩ := hx calls s
  exact ⟨more, h more hmore, hrun⟩

/-- What comes behind makes no calls. -/
theorem bind_quiet (hx : Calls P x' x) (hg : ∀ a, Quiet (g' a) (g a)) :
    Calls P (x' >>= g') (x >>= g) := by
  intro calls s
  obtain ⟨more, hmore, hrun⟩ := hx calls s
  refine ⟨more, hmore, ?_⟩
  rw [Session.bind_run, Session.bind_run, hrun]
  rcases x s with ⟨e | a, s'⟩
  · rfl
  · obtain ⟨_, rfl, hrest⟩ := hg a (calls ++ more) s'
    simpa using hrest

/-- What comes before makes no calls. -/
theorem quiet_bind (hx : Quiet x' x) (hnil : P []) (hg : ∀ a, Calls P (g' a) (g a)) :
    Calls P (x' >>= g') (x >>= g) := by
  intro calls s
  obtain ⟨_, rfl, hrun⟩ := hx calls s
  rw [List.append_nil] at hrun
  rcases hres : x s with ⟨e | a, s'⟩
  · refine ⟨[], hnil, ?_⟩
    rw [Session.bind_run, Session.bind_run, hrun, hres, List.append_nil]
  · obtain ⟨more, hmore, hrest⟩ := hg a calls s'
    refine ⟨more, hmore, ?_⟩
    rw [Session.bind_run, Session.bind_run, hrun, hres]
    exact hrest

end Calls

/-! ## Reading and closing -/

/-- The calls that lead a result from being closed or not to being closed or not. -/
def Passed : Bool → Bool → List ResultCall → Prop
  | true, true, calls => calls = []
  | true, false, _ => False
  | false, false, calls => ∃ n, calls = List.replicate n .read
  | false, true, calls => ∃ n, calls = List.replicate n .read ++ [.closed]

theorem Passed.refl (closed : Bool) : Passed closed closed [] := by
  cases closed
  · exact ⟨0, rfl⟩
  · rfl

theorem Passed.trans {calls calls' : List ResultCall} : ∀ {a b c : Bool},
    Passed a b calls → Passed b c calls' → Passed a c (calls ++ calls')
  | true, true, _, h, h' => by
    obtain rfl := h
    exact h'
  | true, false, _, h, _ => h.elim
  | false, true, false, _, h' => h'.elim
  | false, true, true, h, h' => by
    obtain ⟨n, rfl⟩ := h
    obtain rfl := h'
    exact ⟨n, List.append_nil _⟩
  | false, false, false, h, h' => by
    obtain ⟨n, rfl⟩ := h
    obtain ⟨m, rfl⟩ := h'
    exact ⟨n + m, List.replicate_append_replicate⟩
  | false, false, true, h, h' => by
    obtain ⟨n, rfl⟩ := h
    obtain ⟨m, rfl⟩ := h'
    refine ⟨n + m, ?_⟩
    rw [← List.append_assoc, List.replicate_append_replicate]

theorem Source.next_traced (source : Source σ) (calls : List ResultCall) (s : σ) :
    source.traced.next (calls, s) = (((source.next s).1.1, (source.next s).1.2.traced),
      (calls ++ [.read], (source.next s).2)) := by
  cases source <;> rfl

/-- Reading to the end only reads. -/
theorem Source.fold_traced (item : List Value → Except Error (Option α))
    {f' : β → α → Session (List ResultCall × σ) β} {f : β → α → Session σ β}
    (hf : ∀ b a, Quiet (f' b a) (f b a)) (source : Source σ) : ∀ b,
      Calls (Passed false false) (source.traced.fold item f' b) (source.fold item f b) := by
  induction source with
  | ended read => exact fun b calls s => ⟨[.read], ⟨1, rfl⟩, rfl⟩
  | more read rest ih =>
    intro b calls s
    rw [traced, fold, fold]
    simp only [noted]
    rcases passOn item (read s).1 with e | _ | a
    · exact ⟨[.read], ⟨1, rfl⟩, rfl⟩
    · exact ⟨[.read], ⟨1, rfl⟩, rfl⟩
    · have hrest : Calls (Passed false false)
          (f' b a >>= fun b => (rest (read s).2).traced.fold item f' b)
          (f b a >>= fun b => (rest (read s).2).fold item f b) :=
        Calls.quiet_bind (hf b a) (.refl false) fun b => ih (read s).2 b
      obtain ⟨more, hmore, hrun⟩ := hrest (calls ++ [.read]) (read s).2
      refine ⟨[.read] ++ more, Passed.trans (b := false) ⟨1, rfl⟩ hmore, ?_⟩
      rw [← List.append_assoc]
      exact hrun

namespace Reader

/-- The use of a traced reader does what it does to the reader, and leads it on. -/
def Leads {δ : Type} (r : Reader σ α)
    (x' : StateM (List ResultCall × σ) (δ × Reader (List ResultCall × σ) α))
    (x : StateM σ (δ × Reader σ α)) : Prop :=
  ∀ calls s, ∃ more, Passed r.closed (x s).1.2.closed more ∧
    x' (calls, s) = (((x s).1.1, (x s).1.2.traced), (calls ++ more, (x s).2))

variable (r : Reader σ α)

theorem next_traced : r.Leads r.traced.next r.next := by
  intro calls s
  obtain ⟨⟨source, close⟩, item, closed⟩ := r
  cases closed with
  | true => exact ⟨[], rfl, by rw [List.append_nil]; rfl⟩
  | false => cases source <;> exact ⟨[.read], ⟨1, rfl⟩, rfl⟩

theorem close_closed (s : σ) : (r.close s).1.2.closed = true := by
  obtain ⟨rows, item, closed⟩ := r
  cases closed <;> rfl

theorem close_traced : r.Leads r.traced.close r.close := by
  intro calls s
  obtain ⟨rows, item, closed⟩ := r
  cases closed with
  | true => exact ⟨[], rfl, by rw [List.append_nil]; rfl⟩
  | false => exact ⟨[.closed], ⟨0, rfl⟩, rfl⟩

theorem use_traced (u : CursorUse) : r.Leads (r.traced.use u) (r.use u) := by
  cases u with
  | next => exact r.next_traced
  | close =>
    intro calls s
    obtain ⟨more, hmore, hrun⟩ := r.close_traced calls s
    refine ⟨more, hmore, ?_⟩
    simp only [use, bind, StateT.bind, hrun]
    rfl

/-- By hand, each use goes on from where the one before it has led. -/
theorem useAll_traced : ∀ (us : List CursorUse) (r : Reader σ α),
    r.Leads (useAll use us r.traced) (useAll use us r)
  | [], r => fun calls s => ⟨[], .refl _, by rw [List.append_nil]; rfl⟩
  | u :: us, r => by
    intro calls s
    obtain ⟨more, hmore, hrun⟩ := r.use_traced u calls s
    obtain ⟨more', hmore', hruns⟩ := useAll_traced us (r.use u s).1.2 (calls ++ more) (r.use u s).2
    refine ⟨more ++ more', hmore.trans hmore', ?_⟩
    rw [List.append_assoc] at hruns
    simp only [useAll, bind, StateT.bind, hrun, hruns]
    rfl

/-- To the end, and closed behind it. -/
theorem fold_traced {f' : β → α → Session (List ResultCall × σ) β} {f : β → α → Session σ β}
    (hf : ∀ b a, Quiet (f' b a) (f b a)) (b : β) :
    Calls (Passed r.closed true) (r.traced.fold f' b) (r.fold f b) := by
  intro calls s
  cases hclosed : r.closed with
  | true =>
    refine ⟨[], rfl, ?_⟩
    rw [fold_of_closed (r := r.traced) hclosed, fold_of_closed hclosed, List.append_nil]
  | false =>
    obtain ⟨more, hmore, hrun⟩ := Source.fold_traced r.item hf r.rows.source b calls s
    refine ⟨more ++ [.closed], hmore.trans ⟨0, rfl⟩, ?_⟩
    rw [fold_run (r := r.traced) hclosed, fold_run hclosed]
    simp only [traced, OpenRows.traced, hrun, noted, List.append_assoc]
    rfl

theorem finish_traced (last : CursorEnd σ α) :
    Calls (Passed r.closed true) (r.traced.finish last.traced) (r.finish last) := by
  cases last with
  | drop =>
    intro calls s
    obtain ⟨more, hmore, hrun⟩ := r.close_traced calls s
    rw [r.close_closed] at hmore
    refine ⟨more, hmore, ?_⟩
    simp only [CursorEnd.traced, finish, drop, Session.lift_run, bind, StateT.bind, hrun]
    rfl
  | forEach f => exact r.fold_traced (fun _ a => quiet_onSecond (f a)) ()

/-- By hand, and to the end. -/
theorem run_traced (us : List CursorUse) (last : CursorEnd σ α) :
    Calls (Passed r.closed true) (r.traced.run us last.traced) (r.run us last) := by
  intro calls s
  obtain ⟨more, hmore, hrun⟩ := useAll_traced us r calls s
  have hfinish := ((useAll use us r s).1.2.finish_traced last).bind_quiet
    fun _ => quiet_pure (useAll use us r s).1.1
  obtain ⟨more', hmore', hrest⟩ := hfinish (calls ++ more) (useAll use us r s).2
  refine ⟨more ++ more', hmore.trans hmore', ?_⟩
  rw [List.append_assoc] at hrest
  simp only [run, Session.bind_run, Session.lift_run, hrun]
  simpa only [Session.bind_run] using hrest

end Reader

/-! ## Terminal operations -/

namespace Driver

variable (d : Driver σ)

/-- A result that is closed behind everything makes the calls of its opening, its reads and its
closing. -/
theorem query_traced (c : Command)
    {k' : OpenRows (List ResultCall × σ) → Session (List ResultCall × σ) β}
    {k : OpenRows σ → Session σ β}
    (hk : ∀ rows : OpenRows σ, Calls (Passed false true) (k' rows.traced) (k rows)) :
    Calls ClosedOnce (d.traced.query c >>= k') (d.query c >>= k) := by
  intro calls s
  simp only [Session.bind_run, traced]
  rcases d.query c s with ⟨e | rows, s'⟩
  · exact ⟨[.refused], .inr (.inl rfl), rfl⟩
  · obtain ⟨more, ⟨n, hn⟩, hrun⟩ := hk rows (calls ++ [.opened]) s'
    refine ⟨.opened :: more, .inr (.inr ⟨n, by rw [hn]⟩), ?_⟩
    rw [List.append_assoc] at hrun
    exact hrun

theorem start_traced (operation : String) (c : Command) (columns : List ResultColumn)
    {k' : Reader (List ResultCall × σ) Row → Session (List ResultCall × σ) β}
    {k : Reader σ Row → Session σ β}
    (hk : ∀ r : Reader σ Row, r.closed = false → Calls (Passed false true) (k' r.traced) (k r)) :
    Calls ClosedOnce (d.traced.start operation c columns >>= k')
      (d.start operation c columns >>= k) := by
  simp only [start, bind_assoc, pure_bind]
  exact d.query_traced c fun rows => hk ⟨rows, _, false⟩ rfl

theorem load_traced (q : Query) : Calls ClosedOnce (d.traced.load q) (d.load q) := by
  refine (quiet_ofExcept (q.compile d.dialect)).quiet_bind (.inl rfl) fun c => ?_
  refine d.start_traced "load" _ _ fun r hr => ?_
  have hfold := r.fold_traced (fun u row => quiet_pure (Unpacker.push u row))
    (Unpacker.start c.tree)
  rw [hr] at hfold
  exact hfold.bind_quiet fun u => quiet_pure u.finish

theorem count_traced (q : Query) : Calls ClosedOnce (d.traced.count q) (d.count q) := by
  refine (quiet_ofExcept (q.compileCount d.dialect)).quiet_bind (.inl rfl) fun counting => ?_
  refine d.start_traced "count" _ _ fun r hr => ?_
  have hfold := r.fold_traced (fun _ row => quiet_pure (QueryOf.counted row)) (0 : Int64)
  rw [hr] at hfold
  exact hfold.bind_quiet fun n => quiet_pure n.toInt.toNat

/-- One row is read, whatever that gives. -/
theorem firstRow_traced (rows : OpenRows σ) :
    Calls (Passed false true) (firstRow rows.traced) (firstRow rows) := by
  intro calls s
  refine ⟨[.read] ++ [.closed], ⟨1, rfl⟩, ?_⟩
  rw [← List.append_assoc]
  simp only [firstRow, OpenRows.traced, Session.bind_run, Session.lift_run, Session.attempt,
    ExceptT.run, Source.next_traced, noted]
  rcases rows.source.next s with ⟨⟨first, rest⟩, s₁⟩
  dsimp only
  rcases rows.close s₁ with ⟨closed, s₂⟩
  rcases first with e | row
  · rfl
  · rcases closed with e | ⟨⟩ <;> rfl

theorem insert_traced (table : Table) (fields : List Field) :
    Calls ClosedOnce (d.traced.insert table fields) (d.insert table fields) := by
  have hexecute : Quiet (do let _ ← d.traced.execute (.insert table fields none))
      (do let _ ← d.execute (.insert table fields none)) :=
    (quiet_onSecond (d.execute (.insert table fields none))).bind_quiet fun _ => quiet_pure ()
  have hnone : ∀ calls : List ResultCall, calls = [] → ClosedOnce calls := fun _ h => .inl h
  unfold insert
  split
  · rw [show d.traced.dialect = d.dialect from rfl]
    cases d.dialect.insertStrategy with
    | returning =>
      refine d.query_traced _ fun rows => (firstRow_traced rows).bind_quiet fun row => ?_
      cases row.bind List.head? with
      | none => exact quiet_throw _
      | some raw =>
        have hdecode := quiet_ofExcept (σ := σ)
          (table.primaryKey.receiver.decode table.primaryKey.name raw)
        exact hdecode.bind_quiet fun v => quiet_pure (some v)
    | lastInsertId =>
      exact (hexecute.bind_quiet fun _ => quiet_onSecond d.lastInsertId).mono hnone
  · exact (hexecute.bind_quiet fun _ => quiet_pure none).mono hnone

/-- **Closed once**, by every terminal operation on every driver. -/
theorem closesOnce : d.ClosesOnce where
  load := d.load_traced
  get q := by
    refine (quiet_ofExcept (JoinTree.compile .objects "" q)).quiet_bind (.inl rfl) fun tree => ?_
    refine (d.load_traced (q.first tree)).bind_quiet fun records => ?_
    cases records with
    | nil => exact quiet_throw _
    | cons r rest => exact quiet_pure r
  count := d.count_traced
  rows operation c columns uses last := by
    refine d.start_traced operation c columns fun r hr => ?_
    have hrun := r.run_traced uses last
    rwa [hr] at hrun
  records q uses last := by
    refine (quiet_ofExcept (q.compile d.dialect)).quiet_bind (.inl rfl) fun c => ?_
    by_cases hfans : c.tree.fansOut = true
    · simp only [hfans, if_true]
      exact (quiet_throw _).mono fun calls h => .inl h
    · simp only [hfans, if_false, Bool.false_eq_true]
      refine d.start_traced "load_cursor" _ _ fun r hr => ?_
      have hrun := (r.mapM fun row => .ok (c.record? row)).run_traced uses last
      rwa [show (r.mapM fun row => .ok (c.record? row)).closed = false from hr] at hrun
  insert := d.insert_traced

end Driver

/-- **Results are closed once.** On every driver, whatever it answers and whichever call fails, each
terminal operation opens at most one result; one that is opened is closed exactly once, and not read
behind that. On the driver of a connection they are the operations on the connection. -/
theorem results_closed_once : (∀ d : Driver σ, d.ClosesOnce) ∧
    ∀ db : Connection σ, db.SteppedBy db.driver :=
  ⟨Driver.closesOnce, Connection.driver_stepped⟩

end RecordGraph
