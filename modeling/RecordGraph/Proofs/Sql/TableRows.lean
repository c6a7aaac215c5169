import RecordGraph.Proofs.Locking.Store

/-!
# The rows of a table after a command

A command changes the rows of the table that it names. Links are rows of an association table: one
with the keys of both sides.

**Results.**
* `Command.rowsOf`: the rows of a table after a command.
* `ManyMany.linkedWith_relinked`: dropping the links of a row and adding others leaves it with
  these, in their order.
-/
namespace RecordGraph

/-- The row that links two keys. -/
def ManyMany.row (a : ManyMany) (key target : Value) : Tuple := fun column =>
  if column = a.ownColumn then key else if column = a.targetColumn then target else .null

/-- What the row with a key is linked with, in the order of the links. -/
def ManyMany.linkedWith (a : ManyMany) (eq : Equality) (key : Value) (rows : List Tuple) :
    List Value :=
  (rows.filter fun row => eq.holds (row a.ownColumn) key).map (· a.targetColumn)

/-- The rows of the table with this name after a command. -/
def Command.rowsOf (eq : Equality) (name : String) (rows : List Tuple) : Command → List Tuple
  | .insert table fields _ =>
    if table.name = name then rows ++ [Locking.assign fields fun _ => .null] else rows
  | .update table set guard =>
    if table.name = name then
      rows.map fun row => if Locking.meets eq guard row then Locking.assign set row else row
    else rows
  | .delete table guard =>
    if table.name = name then rows.filter fun row => !Locking.meets eq guard row else rows
  | .unlinkAll a key =>
    if a.association = name then rows.filter fun row => !eq.holds (row a.ownColumn) key else rows
  | .link a key target => if a.association = name then rows ++ [a.row key target] else rows
  | .dropTable table => if table = name then [] else rows
  | .select _ | .count _ | .createTable _ | .createAssociation .. | .begin | .commit | .rollback =>
    rows

/-- The rows of a table after commands, one after the other. -/
def Command.rowsAfter (eq : Equality) (name : String) (rows : List Tuple) (sent : List Command) :
    List Tuple := sent.foldl (fun rows c => c.rowsOf eq name rows) rows

theorem Command.rowsAfter_append (eq : Equality) (name : String) (rows : List Tuple)
    (sent new : List Command) : rowsAfter eq name rows (sent ++ new) =
      rowsAfter eq name (rowsAfter eq name rows sent) new := List.foldl_append ..

/-- Commands that are not for the table leave its rows alone. -/
theorem Command.rowsAfter_eq_self {eq : Equality} {name : String} {sent : List Command}
    (h : ∀ c ∈ sent, ∀ rows, c.rowsOf eq name rows = rows) (rows : List Tuple) :
    rowsAfter eq name rows sent = rows := by
  induction sent with
  | nil => rfl
  | cons c sent ih =>
    rw [rowsAfter, List.foldl_cons, h c List.mem_cons_self, ← rowsAfter]
    exact ih fun d hd => h d (List.mem_cons_of_mem _ hd)

section
variable {eq : Equality} {a : ManyMany}

theorem rowsAfter_links (key : Value) (targets : List Value) (rows : List Tuple) :
    Command.rowsAfter eq a.association rows (targets.map (.link a key)) =
      rows ++ targets.map (a.row key) := by
  induction targets generalizing rows with
  | nil => simp [Command.rowsAfter]
  | cons target targets ih =>
    rw [List.map_cons, Command.rowsAfter, List.foldl_cons, ← Command.rowsAfter, ih]
    simp [Command.rowsOf]

/-- **Links written anew** are what the row is linked with. -/
theorem ManyMany.linkedWith_relinked (hne : a.ownColumn ≠ a.targetColumn) {key : Value}
    (hkey : eq.holds key key = true) (targets : List Value) (rows : List Tuple) :
    a.linkedWith eq key (Command.rowsAfter eq a.association rows
      (.unlinkAll a key :: targets.map (.link a key))) = targets := by
  have hown : ∀ target, a.row key target a.ownColumn = key := fun target => if_pos rfl
  have htarget : ∀ target, a.row key target a.targetColumn = target := by
    intro target
    rw [row, if_neg hne.symm, if_pos rfl]
  rw [Command.rowsAfter, List.foldl_cons, ← Command.rowsAfter, rowsAfter_links, linkedWith,
    List.filter_append, Command.rowsOf, if_pos rfl]
  have hold : ((rows.filter fun row => !eq.holds (row a.ownColumn) key).filter
      fun row => eq.holds (row a.ownColumn) key) = [] := by
    simp [List.filter_filter]
  have hnew : ((targets.map (a.row key)).filter fun row => eq.holds (row a.ownColumn) key) =
      targets.map (a.row key) := by
    refine List.filter_eq_self.2 fun row hrow => ?_
    obtain ⟨target, -, rfl⟩ := List.mem_map.1 hrow
    rw [hown, hkey]
  rw [hold, hnew, List.nil_append, List.map_map]
  exact (List.map_congr_left fun target _ => htarget target).trans (List.map_id targets)

end

end RecordGraph
