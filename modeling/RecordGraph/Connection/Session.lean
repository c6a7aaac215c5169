import RecordGraph.Error

/-!
# Sessions

A `Session σ α` is a use of a database whose state is `σ`: it gives a result or an error, and in
both cases the state it leaves behind. What was done before an error stays done.
-/
namespace RecordGraph

/-- An action on a state, which may fail half-way. -/
abbrev Session (σ : Type) := ExceptT Error (StateM σ)

namespace Session

/-- An action that cannot fail. -/
def lift (x : StateM σ α) : Session σ α := ExceptT.lift x

def ofExcept (x : Except Error α) : Session σ α := ExceptT.mk (pure x)

/-- The outcome of an action. -/
def attempt (x : Session σ α) : Session σ (Except Error α) := lift x.run

/-- An action on the second of two states. -/
def onSecond (x : Session σ α) : Session (τ × σ) α := fun (t, s) =>
  let (outcome, s) := x s
  (outcome, (t, s))

/-- An action with a state of its own, which starts at `init` and is lost when it fails. -/
def withState (init : τ) (x : Session (τ × σ) α) : Session σ (α × τ) := fun s =>
  let (outcome, (t, s)) := x (init, s)
  (outcome.map fun a => (a, t), s)

end Session

/-- An action on the second of two states. -/
def stateOnSecond (x : StateM σ α) : StateM (τ × σ) α := fun (t, s) =>
  let (a, s) := x s
  (a, (t, s))

end RecordGraph
