import RecordGraph.Proofs.Record.SaveSteps

/-!
# Places in a graph of records

A record with its related records, and theirs in turn, is a graph. A `Place` in it is a path of
relations and positions; `Record.at?` is the record that stands there, `Record.putAt` the graph with
another record put there.

**Results.**
* `NameMap.find?_modify`, `Record.related_setRelated`: what changing a related record does.
* `Record.at?_putAt_append`, `Record.at?_putAt_of_not_isPrefix`: what putting a record does to the
  places at and below it, and to all others.
* `Saving.below_run`: an action on a record below another is one on the record at that place.
* `Record.length_lt_depth_of_at?`: no place is as deep as the graph.
-/
namespace RecordGraph

/-- Where a record is in a graph: the relations that lead to it, and the positions in them. -/
abbrev Place := List (String × Nat)

/-! ## Changing an entry of a map -/

namespace NameMap

variable {α : Type}

theorem find?_modify (m : NameMap α) (name : String) (f : α → α) (other : String) :
    (m.modify name f).find? other =
      if other = name then (m.find? other).map f else m.find? other := by
  obtain ⟨entries⟩ := m
  simp only [modify, find?]
  induction entries with
  | nil => simp
  | cons e rest ih =>
    obtain ⟨n, v⟩ := e
    rw [List.map_cons, List.lookup_cons, List.lookup_cons]
    cases hn : other == n with
    | false =>
      simp only
      exact ih
    | true =>
      have hn : other = n := by simpa using hn
      subst hn
      by_cases h : other = name
      · simp [h]
      · simp [h]

theorem find?_modify_self (m : NameMap α) (name : String) (f : α → α) :
    (m.modify name f).find? name = (m.find? name).map f := by
  rw [find?_modify, if_pos rfl]

theorem find?_modify_of_ne (m : NameMap α) {name other : String} (f : α → α) (h : other ≠ name) :
    (m.modify name f).find? other = m.find? other := by
  rw [find?_modify, if_neg h]

theorem contains_insert {m : NameMap α} {name other : String} (value : α)
    (h : m.contains other = true) : (m.insert name value).contains other = true := by
  rw [contains] at h ⊢
  by_cases hn : other = name
  · rw [hn, find?_insert_self, Option.isSome_some]
  · rw [find?_insert_of_ne m value hn, h]

theorem contains_insert_of_ne (m : NameMap α) {name other : String} (value : α)
    (h : other ≠ name) : (m.insert name value).contains other = m.contains other := by
  rw [contains, contains, find?_insert_of_ne m value h]

end NameMap

theorem Related.toList_set {ρ : Type} (related : Related ρ) (i : Nat) (r : ρ) :
    (related.set i r).toList = related.toList.set i r := by
  cases related with
  | one record =>
    cases record with
    | none => rfl
    | some old => cases i <;> rfl
  | many records => rfl

namespace Record

/-! ## What the changes of a record leave alone -/

theorem assign_cases (r : Record) (name : String) (v : Value) :
    r.assign name v = r ∨ r.assign name v =
      { r with values := r.values.insert name v, dirty := r.dirty.insert name () } := by
  unfold assign
  split
  · exact .inl rfl
  · exact .inr rfl

@[simp] theorem assign_table (r : Record) (name : String) (v : Value) :
    (r.assign name v).table = r.table := by
  rcases r.assign_cases name v with h | h <;> rw [h]

@[simp] theorem assign_isNew (r : Record) (name : String) (v : Value) :
    (r.assign name v).isNew = r.isNew := by
  rcases r.assign_cases name v with h | h <;> rw [h]

@[simp] theorem assign_slots (r : Record) (name : String) (v : Value) :
    (r.assign name v).slots = r.slots := by
  rcases r.assign_cases name v with h | h <;> rw [h]

theorem assign_of_holds {r : Record} {name : String} {v : Value} (h : r.holds name v = true) :
    r.assign name v = r := if_pos h

/-- Assigning a column leaves the others alone. -/
theorem find?_assign_of_ne {r : Record} {name other : String} (v : Value) (h : other ≠ name) :
    (r.assign name v).values.find? other = r.values.find? other := by
  rcases r.assign_cases name v with hr | hr <;> rw [hr]
  exact NameMap.find?_insert_of_ne _ v h

theorem relink_cases (r : Record) (column : String) (key : Value) (modified : Bool) :
    r.relink column key modified = r ∨ r.relink column key modified = r.assign column key := by
  unfold relink
  split
  · exact .inr rfl
  · exact .inl rfl

@[simp] theorem relink_table (r : Record) (column : String) (key : Value) (modified : Bool) :
    (r.relink column key modified).table = r.table := by
  rcases r.relink_cases column key modified with h | h <;> rw [h]
  exact assign_table ..

@[simp] theorem relink_isNew (r : Record) (column : String) (key : Value) (modified : Bool) :
    (r.relink column key modified).isNew = r.isNew := by
  rcases r.relink_cases column key modified with h | h <;> rw [h]
  exact assign_isNew ..

@[simp] theorem relink_slots (r : Record) (column : String) (key : Value) (modified : Bool) :
    (r.relink column key modified).slots = r.slots := by
  rcases r.relink_cases column key modified with h | h <;> rw [h]
  exact assign_slots ..

/-- A foreign key that says so already is left as it is. -/
theorem relink_of_holds {r : Record} {column : String} {key : Value} (modified : Bool)
    (h : r.holds column key = true) : r.relink column key modified = r := by
  rcases r.relink_cases column key modified with hr | hr <;> rw [hr]
  exact assign_of_holds h

theorem find?_relink_of_ne {r : Record} {column other : String} (key : Value) (modified : Bool)
    (h : other ≠ column) :
    (r.relink column key modified).values.find? other = r.values.find? other := by
  rcases r.relink_cases column key modified with hr | hr <;> rw [hr]
  exact find?_assign_of_ne key h

/-- What was changed stays changed. -/
theorem dirty_assign {r : Record} {name other : String} (v : Value)
    (h : r.dirty.contains other = true) : (r.assign name v).dirty.contains other = true := by
  rcases r.assign_cases name v with hr | hr <;> rw [hr]
  · exact h
  · exact NameMap.contains_insert () h

theorem dirty_relink {r : Record} {other : String} (column : String) (key : Value)
    (modified : Bool) (h : r.dirty.contains other = true) :
    (r.relink column key modified).dirty.contains other = true := by
  rcases r.relink_cases column key modified with hr | hr <;> rw [hr]
  · exact h
  · exact dirty_assign key h

theorem dirty_relink_of_ne {r : Record} {column other : String} (key : Value) (modified : Bool)
    (h : other ≠ column) :
    (r.relink column key modified).dirty.contains other = r.dirty.contains other := by
  rcases r.relink_cases column key modified with hr | hr <;> rw [hr]
  rcases r.assign_cases column key with hr | hr <;> rw [hr]
  exact NameMap.contains_insert_of_ne _ () h

/-- The key is settled by the value of the key column. -/
theorem key_congr {a b : Record} (ht : a.table = b.table)
    (hv : a.values.find? a.table.primaryKey.name = b.values.find? a.table.primaryKey.name) :
    a.key = b.key := by
  rw [key, key, ← ht, hv]

/-! ## Related records -/

theorem related_eq {r : Record} {identifier : String} {slot : Slot Record}
    (h : r.slots.find? identifier = some slot) : r.related identifier = slot.related.toList := by
  simp [related, relation?, h]

theorem related_eq_nil {r : Record} {identifier : String} (h : r.slots.find? identifier = none) :
    r.related identifier = [] := by
  simp [related, relation?, h]

theorem related_congr {a b : Record} {identifier : String}
    (h : a.slots.find? identifier = b.slots.find? identifier) :
    a.related identifier = b.related identifier := by
  simp only [related, relation?, h]

theorem related_setRelated (r : Record) (identifier : String) (i : Nat) (child : Record) :
    (r.setRelated identifier i child).related identifier = (r.related identifier).set i child := by
  simp only [related, relation?, setRelated, NameMap.find?_modify_self]
  cases r.slots.find? identifier with
  | none => rfl
  | some slot => exact Related.toList_set ..

theorem related_setRelated_of_ne (r : Record) {identifier other : String} (i : Nat)
    (child : Record) (h : other ≠ identifier) :
    (r.setRelated identifier i child).related other = r.related other :=
  related_congr (NameMap.find?_modify_of_ne _ _ h)

theorem related_settle (r : Record) (identifier other : String) :
    (r.settle identifier).related other = r.related other := by
  simp only [related, relation?, settle, NameMap.find?_modify]
  split
  · cases r.slots.find? other <;> rfl
  · rfl

/-- The i-th record of a relation. -/
def child? (r : Record) (identifier : String) (i : Nat) : Option Record :=
  (r.related identifier)[i]?

/-- A related record stands in a relation that is loaded. -/
theorem exists_slot_of_child? {r c : Record} {identifier : String} {i : Nat}
    (h : r.child? identifier i = some c) :
    ∃ slot, r.slots.find? identifier = some slot ∧ slot.related.toList[i]? = some c := by
  rw [child?] at h
  cases hs : r.slots.find? identifier with
  | none =>
    rw [related_eq_nil hs] at h
    cases h
  | some slot =>
    rw [related_eq hs] at h
    exact ⟨slot, rfl, h⟩

theorem child?_setRelated_self {r : Record} {identifier : String} {i : Nat} {old : Record}
    (h : r.child? identifier i = some old) (child : Record) :
    (r.setRelated identifier i child).child? identifier i = some child := by
  have hlt := (List.getElem?_eq_some_iff.1 h).1
  rw [child?, related_setRelated, List.getElem?_set_self hlt]

theorem child?_setRelated_of_ne {r : Record} {identifier other : String} {i k : Nat}
    (child : Record) (h : (other, k) ≠ (identifier, i)) :
    (r.setRelated identifier i child).child? other k = r.child? other k := by
  by_cases ho : other = identifier
  · subst ho
    have hk : i ≠ k := fun hik => h (by rw [hik])
    rw [child?, related_setRelated, List.getElem?_set_ne hk, child?]
  · rw [child?, related_setRelated_of_ne r i child ho, child?]

/-! ## Places -/

/-- The record at a place. -/
def at? : Place → Record → Option Record
  | [], r => some r
  | (identifier, i) :: p, r => (r.child? identifier i).bind (at? p)

/-- The graph with a record put at a place, if something stands there. -/
def putAt : Place → Record → Record → Record
  | [], _, y => y
  | (identifier, i) :: p, r, y =>
    match r.child? identifier i with
    | none => r
    | some child => r.setRelated identifier i (child.putAt p y)

theorem at?_cons_eq_some_iff {r : Record} {identifier : String} {i : Nat} {p : Place}
    {x : Record} : r.at? ((identifier, i) :: p) = some x ↔
      ∃ child, r.child? identifier i = some child ∧ child.at? p = some x := Option.bind_eq_some_iff

theorem at?_append (p q : Place) (r : Record) : r.at? (p ++ q) = (r.at? p).bind (at? q) := by
  induction p generalizing r with
  | nil => rfl
  | cons step p ih =>
    obtain ⟨identifier, i⟩ := step
    rw [List.cons_append, at?, at?, Option.bind_assoc]
    exact congrArg _ (funext fun child => ih child)

/-- The records that a record at a place is related to stand behind it. -/
theorem at?_concat {r x : Record} {p : Place} (h : r.at? p = some x) (identifier : String)
    (i : Nat) : r.at? (p ++ [(identifier, i)]) = x.child? identifier i := by
  rw [at?_append, h, Option.bind_some, at?]
  cases x.child? identifier i <;> rfl

theorem child?_of_one {r u : Record} {identifier : String} {slot : Slot Record}
    (h : r.slots.find? identifier = some slot) (hu : slot.related = .one (some u)) :
    r.child? identifier 0 = some u := by
  rw [child?, related_eq h, hu]
  rfl

theorem putAt_cons {r : Record} {identifier : String} {i : Nat} {p : Place} {child : Record}
    (h : r.child? identifier i = some child) (y : Record) :
    r.putAt ((identifier, i) :: p) y = r.setRelated identifier i (child.putAt p y) := by
  rw [putAt]
  simp only [h]

/-- At and below the place of a record that is put somewhere, its own graph stands. -/
theorem at?_putAt_append {q : Place} {r old : Record} (h : r.at? q = some old) (y : Record)
    (p : Place) : (r.putAt q y).at? (q ++ p) = y.at? p := by
  induction q generalizing r with
  | nil => rfl
  | cons step q ih =>
    obtain ⟨identifier, i⟩ := step
    obtain ⟨child, hc, h⟩ := at?_cons_eq_some_iff.1 h
    rw [putAt_cons hc, List.cons_append, at?, child?_setRelated_self hc]
    exact ih h

/-- Nothing but what is related was changed. -/
structure SameRow (a b : Record) : Prop where
  table : b.table = a.table
  values : b.values = a.values
  dirty : b.dirty = a.dirty
  isNew : b.isNew = a.isNew

theorem SameRow.refl (r : Record) : r.SameRow r := ⟨rfl, rfl, rfl, rfl⟩

theorem SameRow.trans {a b c : Record} (h : a.SameRow b) (h' : b.SameRow c) : a.SameRow c :=
  ⟨h'.table.trans h.table, h'.values.trans h.values, h'.dirty.trans h.dirty, h'.isNew.trans h.isNew⟩

theorem sameRow_setRelated (r : Record) (identifier : String) (i : Nat) (child : Record) :
    r.SameRow (r.setRelated identifier i child) := ⟨rfl, rfl, rfl, rfl⟩

theorem sameRow_settle (r : Record) (identifier : String) : r.SameRow (r.settle identifier) :=
  ⟨rfl, rfl, rfl, rfl⟩

/-- Elsewhere stand the same rows. -/
theorem at?_putAt_of_not_isPrefix {q : Place} {r : Record} (y : Record) {p : Place}
    (hqp : ¬q <+: p) {x : Record} (h : r.at? p = some x) :
    ∃ x', (r.putAt q y).at? p = some x' ∧ x.SameRow x' := by
  induction q generalizing r p with
  | nil => exact absurd List.nil_prefix hqp
  | cons step q ih =>
    obtain ⟨identifier, i⟩ := step
    cases hc : r.child? identifier i with
    | none =>
      have hr : r.putAt ((identifier, i) :: q) y = r := by
        rw [putAt]
        simp only [hc]
      exact ⟨x, hr.symm ▸ h, .refl x⟩
    | some child =>
      rw [putAt_cons hc]
      cases p with
      | nil =>
        cases h
        exact ⟨_, rfl, sameRow_setRelated ..⟩
      | cons other p =>
        obtain ⟨name, k⟩ := other
        obtain ⟨c, hcx, hx⟩ := at?_cons_eq_some_iff.1 h
        by_cases hstep : (name, k) = (identifier, i)
        · cases hstep
          obtain rfl : child = c := Option.some.inj (hc.symm.trans hcx)
          have hq : ¬q <+: p := fun hq => hqp ((List.prefix_cons_inj _).2 hq)
          obtain ⟨x', hx', hsame⟩ := ih hq hx
          exact ⟨x', at?_cons_eq_some_iff.2 ⟨_, child?_setRelated_self hc _, hx'⟩, hsame⟩
        · refine ⟨x, at?_cons_eq_some_iff.2 ⟨c, ?_, hx⟩, .refl x⟩
          rw [child?_setRelated_of_ne _ hstep, hcx]

/-! ## Depth -/

theorem depth_le_listDepth {c : Record} : ∀ {rs : List Record}, c ∈ rs → c.depth ≤ listDepth rs
  | r :: rs, h => by
    rw [listDepth]
    rcases List.mem_cons.1 h with rfl | h
    · exact Nat.le_max_left ..
    · exact Nat.le_trans (depth_le_listDepth h) (Nat.le_max_right ..)

theorem depth_le_slotsDepth {c : Record} {name : String} {slot : Slot Record}
    (hc : c ∈ slot.related.toList) :
    ∀ {slots : List (String × Slot Record)}, (name, slot) ∈ slots → c.depth ≤ slotsDepth slots
  | (n, ⟨.one none, m⟩) :: rest, h => by
    rw [slotsDepth]
    rcases List.mem_cons.1 h with h | h
    · cases h
      cases hc
    · exact depth_le_slotsDepth hc h
  | (n, ⟨.one (some r), m⟩) :: rest, h => by
    rw [slotsDepth]
    rcases List.mem_cons.1 h with h | h
    · cases h
      obtain rfl : c = r := by simpa [Related.toList] using hc
      exact Nat.le_max_left ..
    · exact Nat.le_trans (depth_le_slotsDepth hc h) (Nat.le_max_right ..)
  | (n, ⟨.many rs, m⟩) :: rest, h => by
    rw [slotsDepth]
    rcases List.mem_cons.1 h with h | h
    · cases h
      exact Nat.le_trans (depth_le_listDepth hc) (Nat.le_max_left ..)
    · exact Nat.le_trans (depth_le_slotsDepth hc h) (Nat.le_max_right ..)

/-- A related record is less deep. -/
theorem depth_lt_of_child? {r c : Record} {identifier : String} {i : Nat}
    (h : r.child? identifier i = some c) : c.depth < r.depth := by
  obtain ⟨slot, hs, hc⟩ := exists_slot_of_child? h
  obtain ⟨before, after, he, -⟩ := List.lookup_eq_some_iff.1 hs
  obtain ⟨table, values, dirty, isNew, ⟨slots⟩, calculations⟩ := r
  have hmem : (identifier, slot) ∈ slots := by
    rw [show slots = before ++ (identifier, slot) :: after from he]
    exact List.mem_append_right _ List.mem_cons_self
  rw [depth]
  exact Nat.lt_succ_of_le (depth_le_slotsDepth (List.mem_of_getElem? hc) hmem)

/-- No place is as deep as the graph. -/
theorem length_lt_depth_of_at? {p : Place} {r x : Record} (h : r.at? p = some x) :
    p.length < r.depth := by
  induction p generalizing r with
  | nil =>
    obtain ⟨table, values, dirty, isNew, ⟨slots⟩, calculations⟩ := r
    rw [depth]
    exact Nat.succ_pos _
  | cons step p ih =>
    obtain ⟨identifier, i⟩ := step
    obtain ⟨child, hc, hx⟩ := at?_cons_eq_some_iff.1 h
    have hlen := ih hx
    have hdepth := depth_lt_of_child? hc
    rw [List.length_cons]
    omega

end Record

/-! ## Actions on related records -/

namespace Saving

variable {σ α : Type}

theorem onRelated_run {r child : Record} {identifier : String} {i : Nat}
    (h : r.child? identifier i = some child) (x : Saving σ Unit) (s : σ) :
    onRelated identifier i x (r, s) =
      ((x (child, s)).1, (r.setRelated identifier i (x (child, s)).2.1, (x (child, s)).2.2)) := by
  have h' : (r.related identifier)[i]? = some child := h
  simp only [onRelated, h']
  rfl

theorem onRelated_run_none {r : Record} {identifier : String} {i : Nat}
    (h : r.child? identifier i = none) (x : Saving σ Unit) (s : σ) :
    onRelated identifier i x (r, s) = (.ok (), (r, s)) := by
  have h' : (r.related identifier)[i]? = none := h
  simp only [onRelated, h']

/-- An action below a record is one on the record at the place. -/
theorem below_run {p : Place} {r y : Record} (h : r.at? p = some y) (x : Session (Record × σ) α)
    (s : σ) : below p x (r, s) =
      ((x (y, s)).1.map some, (r.putAt p (x (y, s)).2.1, (x (y, s)).2.2)) := by
  induction p generalizing r with
  | nil =>
    cases h
    simp only [below, ExceptT.map, ExceptT.mk, bind, StateT.bind]
    rcases x (y, s) with ⟨e | a, r', s'⟩ <;> rfl
  | cons step p ih =>
    obtain ⟨identifier, i⟩ := step
    obtain ⟨child, hc, h⟩ := Record.at?_cons_eq_some_iff.1 h
    have hc' : (r.related identifier)[i]? = some child := hc
    simp only [below, hc', Record.putAt_cons hc]
    rw [ih h]

end Saving

end RecordGraph
