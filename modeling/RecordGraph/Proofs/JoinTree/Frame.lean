import Mathlib.Data.List.Basic
import RecordGraph.Query.Resolution

/-!
# The frame of a join tree

Which columns a query emits depends on what it is compiled for, its joins do not. The frame of a
tree leaves columns and calculations out: what is joined, and where a node is found, is all in it.

**Results.**
* `JoinTree.compile_frame`: the trees of one query have one frame.
* `JoinTree.source_frame`, `JoinTree.elementFor_frame`: the FROM clause, and where nodes are found.
-/
namespace RecordGraph

/-- The element without what is read of it. -/
def Element.frame (e : Element) : Element := { e with columns := [], calculations := [] }

namespace JoinTree

/-- The tree without what is read of its elements. -/
def frame (t : JoinTree) : JoinTree :=
  { t with root := t.root.frame, rest := t.rest.map Element.frame }

/-- What a query is compiled for does not change its joins. -/
theorem compile_frame (projection projection' : Projection) (lead : String) (q : Query) :
    (compile projection lead q).map frame = (compile projection' lead q).map frame := by
  unfold compile
  cases Reads.ofQuery? q with
  | error e => rfl
  | ok r =>
    refine congrArg Except.ok ?_
    simp only [frame, List.map_map]
    rfl

theorem elements_frame (t : JoinTree) : t.frame.elements = t.elements.map Element.frame := rfl

theorem find?_frame (t : JoinTree) (path : Path) :
    t.frame.find? path = (t.find? path).map Element.frame := by
  rw [find?, find?, elements_frame, List.find?_map]
  rfl

theorem element?_frame (t : JoinTree) (id : Nat) :
    t.frame.element? id = (t.element? id).map Element.frame := by
  rw [element?, element?, elements_frame, List.find?_map]
  rfl

/-- The FROM clause is that of the frame. -/
theorem source_frame (t : JoinTree) : t.frame.source = t.source := by
  have hparent (e : Element) : e.frame.parent.bind t.frame.element? =
      (e.parent.bind t.element?).map Element.frame := by
    rw [Option.map_bind]
    exact congrArg e.parent.bind (funext (element?_frame t))
  refine congrArg (From.mk t.root.table.name t.root.label) ?_
  rw [frame, List.flatMap_map]
  refine List.flatMap_congr fun e _ => ?_
  rw [← frame, hparent]
  cases e.parent.bind t.element? <;> rfl

theorem fansOut_frame (t : JoinTree) : t.frame.fansOut = t.fansOut := by
  rw [fansOut, fansOut, elements_frame, List.any_map]
  rfl

/-- A node is found at the same place. -/
theorem elementFor_frame (t : JoinTree) (n : Node) :
    t.frame.elementFor n = (t.elementFor n).map Element.frame := by
  unfold elementFor
  cases n.path? with
  | none => rfl
  | some path =>
    rw [Option.bind_some, Option.bind_some, find?_frame]
    cases t.find? path <;> rfl

end JoinTree

end RecordGraph
