import RecordGraph.Connection.Basic
import RecordGraph.Version

/-!
# Scripted connections

A connection that plays back a list of responses and notes what it is asked. Once the list is used
up, everything succeeds. Insertions that are told nothing else get the keys 1, 2, 3, …

* `Script.connection`: the connection over the state of a script.
-/
namespace RecordGraph

/-- What one command is answered. -/
structure Response where
  /-- The command fails. -/
  failure : Option (Statement → Error)
  /-- The number of rows touched. -/
  touched : Nat
  /-- The key that is reported for the insertion; without one, the next number. -/
  id : Option (Option Value)
  /-- The rows of the result; without them, an insertion gives the next number. -/
  rows : Option (List (List Value))
  /-- A read that fails, by how many come before it. -/
  failingRead : Option (Nat × Error)
  closeError : Option Error

/-- The answer of a script that is used up. -/
def Response.success : Response := ⟨none, 1, none, none, none, none⟩

/-- A call that a script notes. -/
inductive Call where
  | execute (s : Statement)
  | query (s : Statement)
  | lastInsertId
  | close
  deriving DecidableEq

/-- The state of a scripted connection. -/
structure Script where
  responses : List Response
  log : List Call
  /-- Insertions numbered so far. -/
  inserted : Nat
  lastId : Option Value
  /-- Keys made up so far. -/
  drawn : Nat

namespace Script

def start (responses : List Response) : Script := ⟨responses, [], 0, none, 0⟩

def note (c : Call) : StateM Script Unit := modify fun s => { s with log := s.log ++ [c] }

/-- The next response. -/
def respond : StateM Script Response := do
  let s ← get
  match s.responses with
  | [] => pure .success
  | r :: rest => do
    set { s with responses := rest }
    pure r

/-- The number of the next insertion. -/
def nextNumber : StateM Script Value := modifyGet fun s =>
  let n : Nat := s.inserted + 1
  (.int (Int64.ofInt n), { s with inserted := n })

def draw : StateM Script (BitVec 128) := modifyGet fun s =>
  let n := s.drawn + 1
  (Connection.madeUpKey n, { s with drawn := n })

def setLastId (v : Option Value) : StateM Script Unit := modify fun s => { s with lastId := v }

/-- A failing read among the reads of a result. -/
def withFailure (rows : Feed (List Value)) : Option (Nat × Error) → Feed (List Value)
  | none => rows
  | some (n, e) =>
    rows.take n ++ List.replicate (n - rows.length) (.ok none) ++ .error e :: rows.drop n

def execute (d : Dialect) (c : Command) : Session Script Nat := do
  let statement := c.statement d
  Session.lift (note (.execute statement))
  let r ← Session.lift respond
  match r.failure with
  | some failure => throw (failure statement)
  | none => do
    match r.id with
    | some id => Session.lift (setLastId id)
    | none =>
      if c.isInsert then
        let n ← Session.lift nextNumber
        Session.lift (setLastId (some n))
    pure r.touched

def query (d : Dialect) (c : Command) : Session Script Rows := do
  let statement := c.statement d
  Session.lift (note (.query statement))
  let r ← Session.lift respond
  match r.failure with
  | some failure => throw (failure statement)
  | none => do
    let rows ← match r.rows with
      | some rows => pure rows
      | none =>
        if c.isInsert then do
          let n ← Session.lift nextNumber
          pure [[n]]
        else pure []
    pure {
      reads := withFailure (rows.map fun row => .ok (some row)) r.failingRead
      closing := match r.closeError with
        | some e => .error e
        | none => .ok () }

/-- The connection of a script. -/
def connection (d : Dialect) : Connection Script where
  dialect := d
  execute := execute d
  query := query d
  release := note .close
  lastInsertId := do
    Session.lift (note .lastInsertId)
    let s ← get
    pure s.lastId
  nextVersion previous := pure ((Versions.fresh .increment).after 0 previous)
  freshUuid := do
    let n ← draw
    pure ⟨n⟩
  freshUlid := draw

end Script

end RecordGraph
