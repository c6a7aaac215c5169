/-!
# Versions

A lock column counts the writes of a row. A strategy gives the version that a write leaves behind:
one more than the version before it, or the time in microseconds, which never stands still.
Versions at the end of their range stay there.

* `Versions.next`: the next version, and the strategy after it.
-/
namespace RecordGraph

/-- How versions go on. -/
inductive VersionKind where
  | clock
  | increment
  deriving DecidableEq, Repr, Inhabited

namespace VersionKind

def all : List VersionKind := [.clock, .increment]

def name : VersionKind → String
  | .clock => "clock"
  | .increment => "increment"

def ofName? (s : String) : Option VersionKind := all.find? (·.name == s)

end VersionKind

/-- A strategy and the last version that it gave. -/
structure Versions where
  kind : VersionKind
  last : Int64
  deriving Repr

namespace Versions

/-- A strategy that has given no version. -/
def fresh (kind : VersionKind) : Versions := ⟨kind, 0⟩

/-- One more; the greatest number stays. -/
def succ (v : Int64) : Int64 := if v = Int64.maxValue then v else v + 1

def later (a b : Int64) : Int64 := if a.toInt < b.toInt then b else a

/-- The version after `previous` at the time `now`. -/
def after (v : Versions) (now : Int64) (previous : Option Int64) : Int64 :=
  match v.kind with
  | .increment => match previous with
    | some p => succ p
    | none => 1
  | .clock =>
    let floor := match previous with
      | some p => later now (succ p)
      | none => now
    later floor (succ v.last)

/-- The next version, and the strategy after it. -/
def next (v : Versions) (now : Int64) (previous : Option Int64) : Int64 × Versions :=
  let given := v.after now previous
  (given, { v with last := given })

end Versions

end RecordGraph
