import RecordGraph.Proofs.Connection.Run

/-!
# Later states

A database may do what it likes, but what all of its operations keep, every use of it keeps.

* `Connection.Later`: one state comes after another.
* `Connection.insert_ages`: adding a row only goes on to later states.
* `Connection.logged`: a database beside a list of what it was sent, which is never forgotten.
-/
namespace RecordGraph

namespace Connection

variable {σ τ α β : Type}

/-- No operation of the database ends what holds of its state. -/
structure Keeps (db : Connection σ) (P : σ → Prop) : Prop where
  execute : ∀ c s, P s → P (db.execute c s).2
  query : ∀ c s, P s → P (db.query c s).2
  release : ∀ s, P s → P (db.release s).2
  lastInsertId : ∀ s, P s → P (db.lastInsertId s).2
  nextVersion : ∀ previous s, P s → P (db.nextVersion previous s).2
  freshUuid : ∀ s, P s → P (db.freshUuid s).2
  freshUlid : ∀ s, P s → P (db.freshUlid s).2

/-- A state that comes after another one. -/
def Later (db : Connection σ) (s s' : σ) : Prop := ∀ P, db.Keeps P → P s → P s'

/-- The session only goes on to later states. -/
def Ages (db : Connection σ) (x : Session σ α) : Prop := ∀ s, db.Later s (x s).2

variable {db : Connection σ}

theorem Later.refl (s : σ) : db.Later s s := fun _ _ h => h

theorem Later.trans {s s' s'' : σ} (h : db.Later s s') (h' : db.Later s' s'') : db.Later s s'' :=
  fun P hP hs => h' P hP (h P hP hs)

/-- What holds on at later states is kept. -/
theorem keeps_of_later {P : σ → Prop} (h : ∀ s s', db.Later s s' → P s → P s') : db.Keeps P where
  execute c s := h s _ fun _ hP => hP.execute c s
  query c s := h s _ fun _ hP => hP.query c s
  release s := h s _ fun _ hP => hP.release s
  lastInsertId s := h s _ fun _ hP => hP.lastInsertId s
  nextVersion previous s := h s _ fun _ hP => hP.nextVersion previous s
  freshUuid s := h s _ fun _ hP => hP.freshUuid s
  freshUlid s := h s _ fun _ hP => hP.freshUlid s

namespace Ages

theorem bind {x : Session σ α} {f : α → Session σ β} (hx : db.Ages x) (hf : ∀ a, db.Ages (f a)) :
    db.Ages (x >>= f) := fun s =>
  Session.bind_keeps (P := fun s' => db.Later s s') (hx s) fun a s' _ h => h.trans (hf a s')

theorem pure (a : α) : db.Ages (Pure.pure a : Session σ α) := fun s => .refl s

theorem throw (e : Error) : db.Ages (MonadExcept.throw e : Session σ α) := fun s => .refl s

theorem ofExcept (x : Except Error α) : db.Ages (Session.ofExcept x) := fun s => .refl s

theorem attempt {x : Session σ α} (hx : db.Ages x) : db.Ages x.attempt := hx

theorem execute (c : Command) : db.Ages (db.execute c) := fun s _ hP hs => hP.execute c s hs

theorem query (c : Command) : db.Ages (db.query c) := fun s _ hP hs => hP.query c s hs

theorem run (c : Command) : db.Ages (db.run c) := (execute c).bind fun _ => .pure _

theorem lastInsertId : db.Ages db.lastInsertId := fun s _ hP hs => hP.lastInsertId s hs

theorem close (closing : Except Error Unit) : db.Ages (db.close closing) :=
  bind (fun s _ hP hs => hP.release s hs) fun _ => .ofExcept _

theorem firstRow (rows : Rows) : db.Ages (db.firstRow rows) := by
  refine (close rows.closing).attempt.bind fun closed => ?_
  split
  · exact .pure _
  · exact .throw _
  · exact .throw _

end Ages

/-- Adding a row only goes on to later states. -/
theorem insert_ages (table : Table) (fields : List Field) : db.Ages (db.insert table fields) := by
  unfold insert
  dsimp only
  split
  · split
    · refine (Ages.query _).bind fun rows => (Ages.firstRow rows).bind fun row => ?_
      split
      · exact (Ages.ofExcept _).bind fun _ => .pure _
      · exact .throw _
    · exact (Ages.run _).bind fun _ => .lastInsertId
  · exact (Ages.run _).bind fun _ => .pure _

/-! ## What was sent -/

/-- The database beside a list of the commands that were sent, the last one at the end. -/
def logged (db : Connection σ) : Connection (List Command × σ) where
  dialect := db.dialect
  execute c := fun (sent, s) => ((db.execute c s).1, (sent ++ [c], (db.execute c s).2))
  query c := fun (sent, s) => ((db.query c s).1, (sent ++ [c], (db.query c s).2))
  release := stateOnSecond db.release
  lastInsertId := db.lastInsertId.onSecond
  nextVersion previous := stateOnSecond (db.nextVersion previous)
  freshUuid := stateOnSecond db.freshUuid
  freshUlid := stateOnSecond db.freshUlid

/-- What was sent stays sent. -/
theorem logged_keeps (db : Connection σ) (c : Command) : db.logged.Keeps fun s => c ∈ s.1 where
  execute _ _ h := List.mem_append_left _ h
  query _ _ h := List.mem_append_left _ h
  release _ h := h
  lastInsertId _ h := h
  nextVersion _ _ h := h
  freshUuid _ h := h
  freshUlid _ h := h

end Connection

end RecordGraph
