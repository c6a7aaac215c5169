import RecordGraph.Connection.Basic

/-!
# Transactions

A `Transaction` is open until it is committed or rolled back; one that is dropped while it is open
is rolled back.

* `Connection.transaction`: an action that takes effect as a whole or not at all.
-/
namespace RecordGraph

/-- A transaction on a connection. -/
structure Transaction where
  state : TransactionState
  deriving DecidableEq, Repr

namespace Transaction

def start (db : Connection σ) : Session σ Transaction := do
  db.run .begin
  pure ⟨.active⟩

/-- Commits. The transaction is over even if that fails. -/
def commit (db : Connection σ) (t : Transaction) : StateM σ (Except Error Unit × Transaction) :=
  match t.state with
  | .active => do
    let outcome ← (db.run .commit).run
    pure (outcome, ⟨.committed⟩)
  | state => pure (.error (.transaction (.cannotCommit state)), t)

/-- Rolls back, unless the transaction is over. -/
def rollback (db : Connection σ) (t : Transaction) : StateM σ (Except Error Unit × Transaction) :=
  match t.state with
  | .active => do
    let outcome ← (db.run .rollback).run
    pure (outcome, ⟨.rolledBack⟩)
  | _ => pure (.ok (), t)

/-- Drops the transaction; a failure to roll back goes unnoticed. -/
def drop (db : Connection σ) (t : Transaction) : StateM σ Unit := do
  let _ ← t.rollback db

end Transaction

/-- Runs an action in a transaction: commits after a success, rolls back after a failure. -/
def Connection.transaction (db : Connection σ) (x : Session σ α) : Session σ α := do
  let t ← Transaction.start db
  match ← x.attempt with
  | .ok a => do
    let (outcome, _) ← Session.lift (t.commit db)
    Session.ofExcept outcome
    pure a
  | .error e => do
    let (outcome, _) ← Session.lift (t.rollback db)
    throw (e.withCleanup outcome)

end RecordGraph
