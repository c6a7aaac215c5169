import RecordGraph.Proofs.Connection.Later

/-!
# Connections that know more

A connection may keep more in its state than another and do the same otherwise: a list of what it
was sent, for one. Whatever uses the two does the same with both.

* `Session.Over`: a session that does what another does, on a state of which `f` shows a part.
* `Connection.Over`: a connection all of whose operations do.
* `Connection.Over.insert`: adding a row does.
-/
namespace RecordGraph

variable {σ τ α β : Type}

/-- `x'` does what `x` does, on a state of which `f` shows a part. -/
def Session.Over (f : τ → σ) (x' : Session τ α) (x : Session σ α) : Prop :=
  ∀ t, x (f t) = ((x' t).1, f (x' t).2)

/-- The same of an action that cannot fail. -/
def stateOver (f : τ → σ) (x' : StateM τ α) (x : StateM σ α) : Prop :=
  ∀ t, x (f t) = ((x' t).1, f (x' t).2)

namespace Session.Over

variable {f : τ → σ}

theorem bind {x' : Session τ α} {x : Session σ α} {g' : α → Session τ β} {g : α → Session σ β}
    (hx : Over f x' x) (hg : ∀ a, Over f (g' a) (g a)) : Over f (x' >>= g') (x >>= g) := by
  intro t
  rw [bind_run, bind_run, hx t]
  rcases x' t with ⟨e | a, t'⟩
  · rfl
  · exact hg a t'

theorem pure (a : α) : Over f (Pure.pure a) (Pure.pure a) := fun _ => rfl

theorem throw (e : Error) : Over f (MonadExcept.throw e : Session τ α) (MonadExcept.throw e) :=
  fun _ => rfl

theorem ofExcept (x : Except Error α) : Over f (Session.ofExcept x) (Session.ofExcept x) :=
  fun _ => rfl

theorem lift {x' : StateM τ α} {x : StateM σ α} (h : stateOver f x' x) :
    Over f (Session.lift x') (Session.lift x) := by
  intro t
  rw [lift_run, lift_run, h t]

theorem attempt {x' : Session τ α} {x : Session σ α} (h : Over f x' x) :
    Over f x'.attempt x.attempt := lift h

theorem forM {g' : α → Session τ Unit} {g : α → Session σ Unit} (h : ∀ a, Over f (g' a) (g a)) :
    ∀ as : List α, Over f (as.forM g') (as.forM g)
  | [] => .pure ()
  | a :: as => (h a).bind fun _ => forM h as

end Session.Over

namespace Connection

/-- All operations of `db'` do what those of `db` do. -/
structure Over (f : τ → σ) (db' : Connection τ) (db : Connection σ) : Prop where
  dialect : db'.dialect = db.dialect
  execute : ∀ c, Session.Over f (db'.execute c) (db.execute c)
  query : ∀ c, Session.Over f (db'.query c) (db.query c)
  release : stateOver f db'.release db.release
  lastInsertId : Session.Over f db'.lastInsertId db.lastInsertId
  nextVersion : ∀ previous, stateOver f (db'.nextVersion previous) (db.nextVersion previous)
  freshUuid : stateOver f db'.freshUuid db.freshUuid
  freshUlid : stateOver f db'.freshUlid db.freshUlid

namespace Over

variable {f : τ → σ} {db' : Connection τ} {db : Connection σ} (h : db'.Over f db)
include h

theorem run (c : Command) : Session.Over f (db'.run c) (db.run c) :=
  (h.execute c).bind fun _ => .pure _

theorem close (closing : Except Error Unit) :
    Session.Over f (db'.close closing) (db.close closing) :=
  .bind (.lift h.release) fun _ => .ofExcept _

theorem firstRow (rows : Rows) : Session.Over f (db'.firstRow rows) (db.firstRow rows) := by
  refine .bind (h.close rows.closing).attempt fun closed => ?_
  split
  · exact .pure _
  · exact .throw _
  · exact .throw _

theorem insert (table : Table) (fields : List Field) :
    Session.Over f (db'.insert table fields) (db.insert table fields) := by
  unfold Connection.insert
  dsimp only
  rw [h.dialect]
  split
  · split
    · refine (h.query _).bind fun rows => (h.firstRow rows).bind fun row => ?_
      split
      · exact (Session.Over.ofExcept _).bind fun _ => .pure _
      · exact .throw _
    · exact (h.run _).bind fun _ => h.lastInsertId
  · exact (h.run _).bind fun _ => .pure _

end Over

end Connection

end RecordGraph
