import RecordGraph.Proofs.Record.Written

/-!
# What is sent for which record

A connection can note every command that it is sent, with the place of the record that the command
is for and whether it was accepted. A graph that is saved with such connections, one for each place,
leaves a list of all that was sent.

**Results.**
* `Record.sent`: what saving a graph sends.
* `Record.save_logged`: that is what any connection is sent that keeps a list.
* `Record.write_posted`: a write sends one statement at most, an insertion for a new record.
* `Record.relinkAll_posted`: what is sent for the links of a record.
* `Record.Action.Step.posts`: only writes and links send anything.
-/
namespace RecordGraph

/-- A command that was sent for the record at a place. -/
structure Entry where
  place : Place
  command : Command
  /-- The database did it. -/
  accepted : Bool

namespace Entry

/-- A row of its own was written for the record at a place. -/
def writes (p : Place) (e : Entry) : Bool :=
  decide (e.place = p) && match e.command with
    | .insert .. | .update .. => true
    | _ => false

/-- The row of the record at a place was added. -/
def inserts (p : Place) (e : Entry) : Bool :=
  decide (e.place = p) && e.accepted && match e.command with
    | .insert .. => true
    | _ => false

end Entry

/-- The session leaves the first of two states alone. -/
def Session.Quiet {τ σ α : Type} (x : Session (τ × σ) α) : Prop := ∀ t, (x t).2.1 = t.1

namespace Session.Quiet

variable {τ σ α β : Type}

theorem bind {x : Session (τ × σ) α} {f : α → Session (τ × σ) β} (hx : Quiet x)
    (hf : ∀ a, Quiet (f a)) : Quiet (x >>= f) := fun t =>
  Session.bind_keeps (P := fun t' : τ × σ => t'.1 = t.1) (hx t) fun a t' _ h => (hf a t').trans h

theorem pure (a : α) : Quiet (Pure.pure a : Session (τ × σ) α) := fun _ => rfl

theorem throw (e : Error) : Quiet (MonadExcept.throw e : Session (τ × σ) α) := fun _ => rfl

theorem ofExcept (x : Except Error α) : Quiet (Session.ofExcept x : Session (τ × σ) α) :=
  fun _ => rfl

theorem attempt {x : Session (τ × σ) α} (hx : Quiet x) : Quiet x.attempt := hx

end Session.Quiet

namespace Connection

variable {σ : Type} (db : Connection σ)

/-- The database beside a list of what it was sent, for the record at a place. -/
def traced (p : Place) : Connection (List Entry × σ) where
  dialect := db.dialect
  execute c := fun (sent, s) =>
    ((db.execute c s).1, (sent ++ [⟨p, c, (db.execute c s).1.isOk⟩], (db.execute c s).2))
  query c := fun (sent, s) =>
    ((db.query c s).1, (sent ++ [⟨p, c, (db.query c s).1.isOk⟩], (db.query c s).2))
  release := stateOnSecond db.release
  lastInsertId := db.lastInsertId.onSecond
  nextVersion previous := stateOnSecond (db.nextVersion previous)
  freshUuid := stateOnSecond db.freshUuid
  freshUlid := stateOnSecond db.freshUlid

theorem traced_over (p : Place) : (db.traced p).Over Prod.snd db where
  dialect := rfl
  execute _ _ := rfl
  query _ _ := rfl
  release _ := rfl
  lastInsertId _ := rfl
  nextVersion _ _ := rfl
  freshUuid _ := rfl
  freshUlid _ := rfl

/-- The commands of what was sent, beside the state. -/
def commands (t : List Entry × σ) : List Command × σ := (t.1.map (·.command), t.2)

theorem traced_logged (p : Place) : (db.traced p).Over commands db.logged where
  dialect := rfl
  execute c t := by simp [commands, traced, logged]
  query c t := by simp [commands, traced, logged]
  release _ := rfl
  lastInsertId _ := rfl
  nextVersion _ _ := rfl
  freshUuid _ := rfl
  freshUlid _ := rfl

open Session (Quiet)

theorem traced_firstRow (p : Place) (rows : Rows) : Quiet ((db.traced p).firstRow rows) := by
  have hclose : Quiet ((db.traced p).close rows.closing) :=
    .bind (fun _ => rfl) fun _ => .ofExcept _
  refine hclose.attempt.bind fun closed => ?_
  split
  · exact .pure _
  · exact .throw _
  · exact .throw _

theorem traced_run (p : Place) (c : Command) (sent : List Entry) (s : σ) :
    (db.traced p).run c (sent, s) =
      ((db.run c s).1, (sent ++ [⟨p, c, (db.run c s).1.isOk⟩], (db.run c s).2)) := by
  rw [run, run, Session.bind_run, Session.bind_run, traced]
  simp only
  rcases db.execute c s with ⟨e | n, s'⟩ <;> rfl

theorem run_isOk (c : Command) (s : σ) : (db.run c s).1.isOk = (db.execute c s).1.isOk := by
  rw [run, Session.bind_run]
  rcases db.execute c s with ⟨e | n, s'⟩ <;> rfl

/-- What was sent first, where nothing is sent behind it. -/
theorem bind_quiet {α β : Type} {x : Session (List Entry × σ) α}
    {f : α → Session (List Entry × σ) β} {sent : List Entry} {s : σ} {e : Entry}
    (hx : (x (sent, s)).2.1 = sent ++ [e]) (hf : ∀ a, Quiet (f a)) :
    ((x >>= f) (sent, s)).2.1 = sent ++ [e] := by
  rw [Session.bind_run]
  rcases hrun : x (sent, s) with ⟨err | a, t⟩
  · rw [hrun] at hx
    exact hx
  · rw [hrun] at hx
    exact (hf a t).trans hx

/-- The database takes a new row. -/
def accepts (table : Table) (fields : List Field) (s : σ) : Bool :=
  match assignsKey table fields, db.dialect.insertStrategy with
  | true, .returning => (db.query (.insert table fields (some table.primaryKey)) s).1.isOk
  | _, _ => (db.execute (.insert table fields none) s).1.isOk

theorem accepts_of_insert {table : Table} {fields : List Field} {key : Option Value} {s s' : σ}
    (h : db.insert table fields s = (.ok key, s')) : db.accepts table fields s = true := by
  have hrun : ∀ {c : Command} {s₁ : σ}, db.run c s = (.ok (), s₁) →
      (db.execute c s).1.isOk = true := by
    intro c s₁ h
    rw [← run_isOk, h]
    rfl
  unfold insert at h
  unfold accepts
  cases hassigns : assignsKey table fields with
  | true =>
    rw [if_pos hassigns] at h
    cases hstrategy : db.dialect.insertStrategy with
    | returning =>
      rw [hstrategy] at h
      obtain ⟨rows, s₁, hquery, -⟩ := Session.bind_eq_ok_iff.1 h
      simp only [hquery]
      rfl
    | lastInsertId =>
      rw [hstrategy] at h
      obtain ⟨⟨⟩, s₁, h, -⟩ := Session.bind_eq_ok_iff.1 h
      exact hrun h
  | false =>
    rw [if_neg (by simp [hassigns])] at h
    obtain ⟨⟨⟩, s₁, h, -⟩ := Session.bind_eq_ok_iff.1 h
    exact hrun h

/-- Adding a row sends one command. -/
theorem traced_insert (p : Place) (table : Table) (fields : List Field) (t : List Entry × σ) :
    ∃ returning, ((db.traced p).insert table fields t).2.1 =
      t.1 ++ [⟨p, .insert table fields returning, (db.traced p).accepts table fields t⟩] := by
  have hrun : ∀ c, ((db.traced p).run c t).2.1 =
      t.1 ++ [⟨p, c, ((db.traced p).execute c t).1.isOk⟩] := by
    intro c
    rw [traced_run, run_isOk]
    rfl
  unfold insert accepts
  cases assignsKey table fields with
  | true =>
    rw [if_pos rfl]
    cases (db.traced p).dialect.insertStrategy with
    | returning =>
      refine ⟨_, bind_quiet rfl fun rows => (db.traced_firstRow p rows).bind fun row => ?_⟩
      split
      · exact (Quiet.ofExcept _).bind fun _ => .pure _
      · exact .throw _
    | lastInsertId => exact ⟨_, bind_quiet (hrun _) fun _ _ => rfl⟩
  | false =>
    rw [if_neg Bool.false_ne_true]
    exact ⟨_, bind_quiet (hrun _) fun _ => .pure _⟩

end Connection

namespace Record

variable {σ : Type} (db : Connection σ)

/-! ## Saving -/

/-- What saving a graph sends, record by record. -/
def sent (g : Record) (s : σ) : List Entry := (runPlan db.traced g.plan (g, ([], s))).2.2.1

variable {g : Record} (hnames : ∀ p x, g.at? p = some x → x.table.relationNames.Nodup)
include hnames

/-- Saving with a list of what is sent. -/
theorem runPlan_traced (s : σ) : runPlan db.traced g.plan (g, ([], s)) =
    ((save db (g, s)).1, ((save db (g, s)).2.1, (sent db g s, (save db (g, s)).2.2))) := by
  have hover := runPlan_over (fun p => db.traced_over p) g.plan (g, ([], s))
  rw [save_eq_run db hnames]
  rw [shown, Prod.map_apply, id] at hover
  rw [hover, sent]
  rfl

/-- **What is sent** is what a connection gets that keeps a list. -/
theorem save_logged (s : σ) : save db.logged (g, ([], s)) = ((save db (g, s)).1,
    ((save db (g, s)).2.1, ((sent db g s).map (·.command), (save db (g, s)).2.2))) := by
  have hover := runPlan_over (fun p => db.traced_logged p) g.plan (g, ([], s))
  rw [runPlan_traced db hnames] at hover
  rw [save_eq_run db.logged hnames]
  exact hover

omit hnames

/-! ## What one action sends -/

/-- What was sent to write a record: one statement at most, for a new record its insertion. -/
structure Posted (p : Place) (y : Record) (o : Except Error Unit) (new : List Entry) : Prop where
  place : ∀ e ∈ new, e.place = p
  once : new.length ≤ 1
  insert : y.isNew = true → ∀ e ∈ new, ∃ fields returning,
    e.command = .insert y.table fields returning
  update : y.isNew = false → ∀ e ∈ new, ∃ set guard, e.command = .update y.table set guard
  accepted : y.isNew = true → o = .ok () → ∃ e ∈ new, e.accepted = true

theorem prepare_traced (p : Place) (y : Record) (sent : List Entry) (s : σ) :
    (prepare (db.traced p) y (sent, s)).2.1 = sent := by
  have hkey : (withKey (db.traced p) y (sent, s)).2.1 = sent := by
    unfold withKey
    split
    · split <;> rfl
    · rfl
  have hversion : ∀ r t, (withVersion (db.traced p) r t).2.1 = t.1 := by
    intro r t
    unfold withVersion
    split <;> rfl
  rw [prepare, hversion, hkey]

/-- A new record is sent once, as it was prepared. -/
theorem insert_sent (p : Place) (y : Record) (sent : List Entry) (s : σ) : ∃ returning,
    (insert (db.traced p) (y, (sent, s))).2.2.1 = sent ++
      [⟨p, .insert y.table (prepare (db.traced p) y (sent, s)).1.insertFields returning,
        (db.traced p).accepts y.table (prepare (db.traced p) y (sent, s)).1.insertFields
          (prepare (db.traced p) y (sent, s)).2⟩] := by
  obtain ⟨returning, hsent⟩ := db.traced_insert p y.table
    (prepare (db.traced p) y (sent, s)).1.insertFields (prepare (db.traced p) y (sent, s)).2
  rw [prepare_traced] at hsent
  refine ⟨returning, ?_⟩
  rw [insert_run, ← hsent]
  rcases (db.traced p).insert y.table (prepare (db.traced p) y (sent, s)).1.insertFields
    (prepare (db.traced p) y (sent, s)).2 with ⟨e | key, t⟩
  · rfl
  · simp only
    cases (prepare (db.traced p) y (sent, s)).1.taken key <;> rfl

/-- A row that was added was accepted. -/
theorem accepts_of_ok {db : Connection σ} {y : Record} {s : σ}
    (h : (insert db (y, s)).1 = .ok ()) :
    db.accepts y.table (prepare db y s).1.insertFields (prepare db y s).2 = true := by
  rw [insert_run] at h
  rcases hinsert : db.insert y.table (prepare db y s).1.insertFields (prepare db y s).2 with
    ⟨e | key, s'⟩
  · rw [hinsert] at h
    cases h
  · exact db.accepts_of_insert hinsert

theorem insert_posted (p : Place) {y : Record} (hnew : y.isNew = true) (sent : List Entry) (s : σ) :
    ∃ new, (insert (db.traced p) (y, (sent, s))).2.2.1 = sent ++ new ∧
      Posted p y (insert (db.traced p) (y, (sent, s))).1 new := by
  obtain ⟨returning, hsent⟩ := insert_sent db p y sent s
  refine ⟨_, hsent, fun e he => ?place, Nat.le_refl 1, fun _ e he => ?insert, fun h => ?update,
    fun _ ho => ⟨_, List.mem_singleton_self _, accepts_of_ok ho⟩⟩
  case place => rw [List.mem_singleton.1 he]
  case insert =>
    rw [List.mem_singleton.1 he]
    exact ⟨_, _, rfl⟩
  case update =>
    rw [hnew] at h
    cases h

/-- A guarded write sends its statement. -/
theorem guarded_posted (p : Place) (c : Command) (e : Error) (f : Record → Record) (y : Record)
    (sent : List Entry) (s : σ) : ∃ accepted, ((do
      let touched ← ((db.traced p).execute c).onSecond
      if touched = 0 then throw e
      Saving.change f : Saving (List Entry × σ) Unit) (y, (sent, s))).2.2.1 =
        sent ++ [⟨p, c, accepted⟩] := by
  refine ⟨(db.execute c s).1.isOk, ?_⟩
  simp only [Session.bind_run, Session.onSecond_run, Connection.traced]
  rcases db.execute c s with ⟨e' | touched, s'⟩
  · rfl
  · by_cases ht : touched = 0
    · simp only [ht, if_true]
      rfl
    · simp only [ht, if_false]
      rfl

theorem update_posted (p : Place) {y : Record} (hnew : y.isNew = false) (sent : List Entry)
    (s : σ) : ∃ new, (update (db.traced p) (y, (sent, s))).2.2.1 = sent ++ new ∧
      Posted p y (update (db.traced p) (y, (sent, s))).1 new := by
  have hnone : ∀ o, Posted p y o [] := fun o =>
    ⟨by simp, by simp, by simp, by simp, fun h => by rw [hnew] at h; cases h⟩
  have hone : ∀ o set guard accepted, Posted p y o [⟨p, .update y.table set guard, accepted⟩] :=
    fun o set guard accepted => ⟨by simp, Nat.le_refl 1, fun h => (by rw [hnew] at h; cases h),
      fun _ e he => ⟨set, guard, by rw [List.mem_singleton.1 he]⟩,
      fun h => by rw [hnew] at h; cases h⟩
  rw [update, Saving.record_bind, Session.bind_run, Session.ofExcept_run]
  cases y.guardFields with
  | error e => exact ⟨[], (List.append_nil _).symm, hnone _⟩
  | ok guard =>
    simp only
    split
    · exact ⟨[], (List.append_nil _).symm, hnone _⟩
    · cases y.table.lockColumn? with
      | none =>
        obtain ⟨accepted, h⟩ := guarded_posted db p (.update y.table y.updateFields guard) y.lost
          clean y sent s
        exact ⟨_, h, hone _ _ _ accepted⟩
      | some lock =>
        simp only
        rw [Session.bind_run, Session.ofExcept_run]
        cases y.version lock with
        | error e => exact ⟨[], (List.append_nil _).symm, hnone _⟩
        | ok previous =>
          simp only
          rw [Session.bind_run, Session.lift_run, stateOnSecond_run]
          obtain ⟨accepted, h⟩ := guarded_posted db p (.update y.table (y.updateFields ++
            [⟨lock, .int (db.nextVersion (some previous) s).1⟩]) guard) y.lost
              (fun r => (r.put lock.name (.int (db.nextVersion (some previous) s).1)).clean) y sent
                (db.nextVersion (some previous) s).2
          exact ⟨_, h, hone _ _ _ accepted⟩

/-- An update that succeeds has sent the changed columns. -/
theorem update_sent {db : Connection σ} {p : Place} {y : Record} {sent : List Entry} {s : σ}
    (hok : (update (db.traced p) (y, (sent, s))).1 = .ok ()) (hset : y.updateFields ≠ []) :
    ∃ set guard accepted, (update (db.traced p) (y, (sent, s))).2.2.1 =
      sent ++ [⟨p, .update y.table set guard, accepted⟩] ∧ y.updateFields ⊆ set := by
  rw [update, Saving.record_bind, Session.bind_run, Session.ofExcept_run] at hok ⊢
  cases hguard : y.guardFields with
  | error e =>
    rw [hguard] at hok
    cases hok
  | ok guard =>
    rw [hguard] at hok
    simp only at hok ⊢
    rw [if_neg (by simpa using hset)] at hok ⊢
    cases hlock : y.table.lockColumn? with
    | none =>
      obtain ⟨accepted, h⟩ := guarded_posted db p (.update y.table y.updateFields guard) y.lost
        clean y sent s
      exact ⟨_, _, accepted, h, List.Subset.refl _⟩
    | some lock =>
      rw [hlock] at hok
      simp only at hok ⊢
      rw [Session.bind_run, Session.ofExcept_run] at hok ⊢
      cases hversion : y.version lock with
      | error e =>
        rw [hversion] at hok
        cases hok
      | ok previous =>
        simp only
        rw [Session.bind_run, Session.lift_run, stateOnSecond_run]
        obtain ⟨accepted, h⟩ := guarded_posted db p (.update y.table (y.updateFields ++
          [⟨lock, .int (db.nextVersion (some previous) s).1⟩]) guard) y.lost
            (fun r => (r.put lock.name (.int (db.nextVersion (some previous) s).1)).clean) y sent
              (db.nextVersion (some previous) s).2
        exact ⟨_, _, accepted, h, List.subset_append_left _ _⟩

/-- **What a write sends.** -/
theorem write_posted (p : Place) (y : Record) (sent : List Entry) (s : σ) :
    ∃ new, (write (db.traced p) (y, (sent, s))).2.2.1 = sent ++ new ∧
      Posted p y (write (db.traced p) (y, (sent, s))).1 new := by
  rw [write, Saving.record_bind]
  split
  · rename_i hnew
    exact insert_posted db p hnew sent s
  · rename_i hnew
    have hnew : y.isNew = false := by simpa using hnew
    split
    · exact update_posted db p hnew sent s
    · exact ⟨[], (List.append_nil _).symm, by simp, by simp, by simp, by simp,
        fun h => by rw [hnew] at h; cases h⟩

/-- The command is one for the links of a row. -/
inductive Linking (a : ManyMany) (key : Value) : Command → Prop where
  | unlinkAll : Linking a key (.unlinkAll a key)
  | link (target : Value) : Linking a key (.link a key target)

/-- What is sent for the links of a record, up to a failure. -/
theorem forM_link_posted (p : Place) (a : ManyMany) (key : Value) :
    ∀ (targets : List Record) (sent : List Entry) (s : σ), ∃ new,
      (targets.forM (fun target => (db.traced p).run (.link a key target.key)) (sent, s)).2.1 =
        sent ++ new ∧ (∀ e ∈ new, e.place = p ∧ Linking a key e.command) ∧
        ((targets.forM (fun target => (db.traced p).run (.link a key target.key)) (sent, s)).1 =
          .ok () → new = targets.map fun target => ⟨p, .link a key target.key, true⟩)
  | [], sent, s => ⟨[], (List.append_nil _).symm, by simp, fun _ => rfl⟩
  | target :: targets, sent, s => by
    rw [List.forM, Session.bind_run, Connection.traced_run]
    rcases db.run (.link a key target.key) s with ⟨e | ⟨⟩, s'⟩
    · refine ⟨_, rfl, fun e he => ?_, fun h => by cases h⟩
      rw [List.mem_singleton.1 he]
      exact ⟨rfl, .link _⟩
    · obtain ⟨new, hsent, hnew, hok⟩ := forM_link_posted p a key targets
        (sent ++ [⟨p, .link a key target.key, true⟩]) s'
      refine ⟨⟨p, .link a key target.key, true⟩ :: new, ?_, fun e he => ?_, fun h => ?_⟩
      · exact hsent.trans (List.append_cons ..).symm
      · rcases List.mem_cons.1 he with rfl | he
        · exact ⟨rfl, .link _⟩
        · exact hnew e he
      · rw [hok h, List.map_cons]

/-- **What is sent for the links** of a record: that they are dropped, then each of them. -/
theorem relinkAll_posted (p : Place) (a : ManyMany) (key : Value) (targets : List Record)
    (sent : List Entry) (s : σ) : ∃ new,
      (relinkAll (db.traced p) a key targets (sent, s)).2.1 = sent ++ new ∧
        (∀ e ∈ new, e.place = p ∧ Linking a key e.command) ∧
          ((relinkAll (db.traced p) a key targets (sent, s)).1 = .ok () → new =
            ⟨p, .unlinkAll a key, true⟩ :: targets.map fun target =>
              ⟨p, .link a key target.key, true⟩) := by
  rw [relinkAll, Session.bind_run, Connection.traced_run]
  rcases db.run (.unlinkAll a key) s with ⟨e | ⟨⟩, s'⟩
  · refine ⟨_, rfl, fun e he => ?_, fun h => by cases h⟩
    rw [List.mem_singleton.1 he]
    exact ⟨rfl, .unlinkAll⟩
  · obtain ⟨new, hsent, hnew, hok⟩ := forM_link_posted db p a key targets
      (sent ++ [⟨p, .unlinkAll a key, true⟩]) s'
    refine ⟨⟨p, .unlinkAll a key, true⟩ :: new, ?_, fun e he => ?_, fun h => ?_⟩
    · exact hsent.trans (List.append_cons ..).symm
    · rcases List.mem_cons.1 he with rfl | he
      · exact ⟨rfl, .unlinkAll⟩
      · exact hnew e he
    · rw [hok h]

/-- What an action has sent: writes and links do, the others send nothing. -/
inductive Action.Posts : Action → Record → Except Error Unit → List Entry → Prop where
  | write {p y o new} : Posted p y o new → Posts (.write p) y o new
  | link {p a y o new} : (∀ e ∈ new, e.place = p ∧ Linking a y.key e.command) →
      (o = .ok () → new = ⟨p, .unlinkAll a y.key, true⟩ ::
        (y.related a.identifier).map fun target => ⟨p, .link a y.key target.key, true⟩) →
          Posts (.link p a) y o new
  | none {a y o} : (∀ p, a ≠ .write p) → (∀ p relation, a ≠ .link p relation) → Posts a y o []

/-- **What an action sends.** -/
theorem Action.Step.posts {a : Action} {g y z : Record} {o : Except Error Unit} {q : Place}
    {sent : List Entry} {s : σ} {t : List Entry × σ}
    (h : Action.Step db.traced a (g, (sent, s)) o q y z t) :
    ∃ new, t.1 = sent ++ new ∧ a.Posts y o new := by
  cases h with
  | refer => exact ⟨[], (List.append_nil _).symm, .none (by simp) (by simp)⟩
  | forget => exact ⟨[], (List.append_nil _).symm, .none (by simp) (by simp)⟩
  | follow => exact ⟨[], (List.append_nil _).symm, .none (by simp) (by simp)⟩
  | write =>
    obtain ⟨new, hsent, hnew⟩ := write_posted db q y sent s
    exact ⟨new, hsent, .write hnew⟩
  | @link _ _ _ _ a =>
    obtain ⟨new, hsent, hnew, hok⟩ := relinkAll_posted db q a y.key (y.related a.identifier) sent s
    exact ⟨new, hsent, .link hnew hok⟩
  | settle => exact ⟨[], (List.append_nil _).symm, .none (by simp) (by simp)⟩

end Record

end RecordGraph
