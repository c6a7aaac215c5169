import RecordGraph.Query.Resolution

/-!
# What a FROM clause means

The tables of a database are lists of rows, and a joined row has for each label of a statement a row
of its table or none. A `LEFT JOIN` goes on from a joined row with every row that meets its
condition; where there is none, it goes on once, without a row.

* `From.joined`: the joined rows of a clause.
* `JoinClause.mem_extend_append`, `exists_extend`, `extend_of_notMem`: joins one after the other.
* `Element.related`: the rows of a relation, and `Element.related_of_extend`,
  `Element.extend_of_related`: that the joins of an element find these.
-/
namespace RecordGraph

/-- A row of a table, by column names. -/
abbrev Tuple := String → Value

/-- The rows of every table. -/
abbrev Contents := String → List Tuple

/-- How a database compares values for equality. Null is equal to nothing. -/
structure Equality where
  holds : Value → Value → Bool
  symm : ∀ a b, holds a b = true → holds b a = true
  trans : ∀ a b c, holds a b = true → holds b c = true → holds a c = true
  null : ∀ v, holds .null v = false
  int : ∀ i j, holds (.int i) (.int j) = decide (i = j)

/-- Of rows whose values differ, at most one has a value that is equal to `w`. -/
theorem Equality.filter_length_le (eq : Equality) {v : Tuple → Value} {w : Value}
    {xs : List Tuple} (h : xs.Pairwise fun x y => eq.holds (v x) (v y) = false) :
    (xs.filter fun y => eq.holds (v y) w).length ≤ 1 := by
  have hall := h.filter fun y => eq.holds (v y) w
  have hmem : ∀ y ∈ xs.filter fun y => eq.holds (v y) w, eq.holds (v y) w = true :=
    fun y hy => (List.mem_filter.1 hy).2
  match hys : xs.filter fun y => eq.holds (v y) w with
  | [] => simp
  | [_] => simp
  | y :: z :: ys =>
    rw [hys, List.pairwise_cons] at hall
    have hyz := eq.trans _ _ _ (hmem y (by simp [hys])) (eq.symm _ _ (hmem z (by simp [hys])))
    rw [hall.1 z List.mem_cons_self] at hyz
    cases hyz

/-- The rows that the labels of a statement stand for; null values stand where there is none. -/
abbrev Joined := String → Option Tuple

namespace Joined

def value (r : Joined) (ref : ColumnRef) : Value :=
  match r ref.label with
  | some x => x ref.column
  | none => .null

def set (r : Joined) (label : String) (x : Option Tuple) : Joined := fun l =>
  if l = label then x else r l

@[simp] theorem set_self (r : Joined) (label : String) (x : Option Tuple) :
    r.set label x label = x := if_pos rfl

theorem set_of_ne (r : Joined) {label l : String} (x : Option Tuple) (h : l ≠ label) :
    r.set label x l = r l := if_neg h

theorem value_set_self (r : Joined) (label column : String) (x : Tuple) :
    (r.set label (some x)).value ⟨label, column⟩ = x column := by
  simp [value]

theorem value_set_of_ne (r : Joined) {label : String} {ref : ColumnRef} (x : Option Tuple)
    (h : ref.label ≠ label) : (r.set label x).value ref = r.value ref := by
  simp only [value, set_of_ne r x h]

end Joined

section
variable (eq : Equality) (db : Contents)

namespace JoinClause

/-- The rows that meet the condition of a join. -/
def candidates (j : JoinClause) (r : Joined) : List Tuple :=
  (db j.table).filter fun x =>
    eq.holds ((r.set j.label (some x)).value j.own) ((r.set j.label (some x)).value j.other)

/-- A joined row goes on with every candidate, or without a row. -/
def join (j : JoinClause) (r : Joined) : List Joined :=
  if (j.candidates eq db r).isEmpty then [r.set j.label none]
  else (j.candidates eq db r).map fun x => r.set j.label (some x)

/-- A joined row goes on through joins, one after the other. -/
def extend : List JoinClause → Joined → List Joined
  | [], r => [r]
  | j :: js, r => (j.join eq db r).flatMap (extend js)

end JoinClause

/-- The joined rows of a FROM clause. -/
def From.joined (f : From) : List Joined :=
  f.joins.foldl (fun rows j => rows.flatMap (j.join eq db))
    ((db f.table).map fun x => Joined.set (fun _ => none) f.label (some x))

end

namespace JoinClause

variable {eq : Equality} {db : Contents}

theorem join_ne_nil (eq : Equality) (db : Contents) (j : JoinClause) (r : Joined) :
    j.join eq db r ≠ [] := by
  unfold join
  split
  · simp
  · rename_i h
    simpa using h

theorem mem_join_some {j : JoinClause} {r r' : Joined} (h : r' ∈ j.join eq db r) {x : Tuple}
    (hx : r' j.label = some x) : x ∈ j.candidates eq db r := by
  unfold join at h
  split at h
  · rw [List.mem_singleton.1 h, Joined.set_self] at hx
    cases hx
  · obtain ⟨y, hy, rfl⟩ := List.mem_map.1 h
    rw [Joined.set_self] at hx
    cases hx
    exact hy

theorem set_mem_join {j : JoinClause} {r : Joined} {x : Tuple} (h : x ∈ j.candidates eq db r) :
    r.set j.label (some x) ∈ j.join eq db r := by
  unfold join
  rw [if_neg (by simpa using List.ne_nil_of_mem h)]
  exact List.mem_map_of_mem h

/-- A join changes nothing but its own label. -/
theorem join_of_ne {j : JoinClause} {r r' : Joined} (h : r' ∈ j.join eq db r) {l : String}
    (hl : l ≠ j.label) : r' l = r l := by
  unfold join at h
  split at h
  · rw [List.mem_singleton.1 h, Joined.set_of_ne r _ hl]
  · obtain ⟨x, -, rfl⟩ := List.mem_map.1 h
    exact Joined.set_of_ne r _ hl

/-- A value equal to one of a joined row is equal to one of a row in it. -/
theorem holds_value {v : Value} {r : Joined} {ref : ColumnRef}
    (h : eq.holds v (r.value ref) = true) :
    ∃ x, r ref.label = some x ∧ eq.holds v (x ref.column) = true := by
  unfold Joined.value at h
  cases hx : r ref.label with
  | none =>
    simp only [hx] at h
    have hnull := eq.null v
    rw [eq.symm _ _ h] at hnull
    cases hnull
  | some x => exact ⟨x, rfl, by simpa only [hx] using h⟩

section
variable {table label own start column : String} (h : start ≠ label) {r r' : Joined} {x : Tuple}
include h

/-- A row is joined on a row that has an equal value. -/
theorem holds_of_mem_join (hr : r' ∈ join eq db ⟨table, label, ⟨label, own⟩, ⟨start, column⟩⟩ r)
    (hx : r' label = some x) : x ∈ db table ∧
      ∃ z, r start = some z ∧ eq.holds (x own) (z column) = true := by
  obtain ⟨hmem, hh⟩ := List.mem_filter.1 (mem_join_some hr hx)
  rw [Joined.value_set_self, Joined.value_set_of_ne r _ h] at hh
  exact ⟨hmem, holds_value hh⟩

/-- A row that has an equal value is joined. -/
theorem set_mem_join_of_holds (hx : x ∈ db table) {z : Tuple} (hz : r start = some z)
    (hh : eq.holds (x own) (z column) = true) :
    r.set label (some x) ∈ join eq db ⟨table, label, ⟨label, own⟩, ⟨start, column⟩⟩ r := by
  refine set_mem_join (List.mem_filter.2 ⟨hx, ?_⟩)
  rw [Joined.value_set_self, Joined.value_set_of_ne r _ h]
  simpa only [Joined.value, hz] using hh

end

theorem foldl_join_eq (js : List JoinClause) (rows : List Joined) :
    js.foldl (fun rows j => rows.flatMap (j.join eq db)) rows = rows.flatMap (extend eq db js) := by
  induction js generalizing rows with
  | nil => simp [extend]
  | cons j js ih => rw [List.foldl_cons, ih, List.flatMap_assoc]; rfl

theorem extend_append (js ks : List JoinClause) (r : Joined) :
    extend eq db (js ++ ks) r = (extend eq db js r).flatMap (extend eq db ks) := by
  induction js generalizing r with
  | nil => rw [List.nil_append, extend, List.flatMap_singleton]
  | cons j js ih =>
    rw [List.cons_append, extend, extend, List.flatMap_assoc]
    exact congrArg (List.flatMap · _) (funext ih)

theorem mem_extend_append {js ks : List JoinClause} {r r' : Joined} :
    r' ∈ extend eq db (js ++ ks) r ↔ ∃ m ∈ extend eq db js r, r' ∈ extend eq db ks m := by
  rw [extend_append, List.mem_flatMap]

/-- No joined row is lost on the way. -/
theorem exists_extend (eq : Equality) (db : Contents) (js : List JoinClause) (r : Joined) :
    ∃ r', r' ∈ extend eq db js r := by
  induction js generalizing r with
  | nil => exact ⟨r, List.mem_singleton_self r⟩
  | cons j js ih =>
    obtain ⟨m, hm⟩ := List.exists_mem_of_ne_nil _ (join_ne_nil eq db j r)
    obtain ⟨r', hr⟩ := ih m
    exact ⟨r', List.mem_flatMap.2 ⟨m, hm, hr⟩⟩

theorem extend_of_notMem {js : List JoinClause} {r r' : Joined} (h : r' ∈ extend eq db js r)
    {l : String} (hl : l ∉ js.map (·.label)) : r' l = r l := by
  induction js generalizing r with
  | nil => rw [List.mem_singleton.1 h]
  | cons j js ih =>
    rw [List.map_cons, List.mem_cons, not_or] at hl
    obtain ⟨m, hm, hr⟩ := List.mem_flatMap.1 h
    rw [ih hr hl.2, join_of_ne hm hl.1]

end JoinClause

theorem From.mem_joined {eq : Equality} {db : Contents} {f : From} {r : Joined} :
    r ∈ f.joined eq db ↔ ∃ x ∈ db f.table,
      r ∈ JoinClause.extend eq db f.joins (Joined.set (fun _ => none) f.label (some x)) := by
  rw [From.joined, JoinClause.foldl_join_eq, List.flatMap_map, List.mem_flatMap]

/-! ## The rows of a relation -/

namespace Element

/-- The rows that a relation leads to from a row of `parent`. -/
def related (eq : Equality) (db : Contents) (parent e : Element) (x : Tuple) : List Tuple :=
  let parentKey := x parent.table.primaryKey.name
  (db e.table.name).filter fun y =>
    let key := y e.table.primaryKey.name
    match e.relation with
    | .root => false
    | .reference r => eq.holds key (x r.column)
    | .reverse r => eq.holds (y r.column) parentKey
    | .manyMany m => (db m.association).any fun link =>
      eq.holds (link m.ownColumn) parentKey && eq.holds key (link m.targetColumn)

/-- The labels of an element and of its association table. -/
def labels (e : Element) : List String := [e.label, e.associationLabel]

variable {eq : Equality} {db : Contents} {parent e : Element}

theorem mem_labels_of_joinClauses {l : String}
    (h : l ∈ (parent.joinClauses e).map (·.label)) : l ∈ e.labels := by
  unfold joinClauses at h
  simp only [labels]
  cases hr : e.relation <;> simp_all [or_comm]

section
variable (hp : parent.label ∉ e.labels) (ha : e.associationLabel ≠ e.label)
include hp ha

/-- A row that the joins of an element find is related. -/
theorem related_of_extend {r r' : Joined}
    (h : r' ∈ JoinClause.extend eq db (parent.joinClauses e) r) (hn : e.relation ≠ .root)
    {y : Tuple} (hy : r' e.label = some y) :
    ∃ x, r parent.label = some x ∧ y ∈ related eq db parent e x := by
  simp only [labels, List.mem_cons, List.not_mem_nil, or_false, not_or] at hp
  simp only [related, List.mem_filter]
  unfold joinClauses at h
  cases hrel : e.relation with
  | root => exact absurd hrel hn
  | reference ref =>
    simp only [hrel, JoinClause.extend, List.mem_flatMap, List.mem_singleton] at h
    obtain ⟨_, hr, rfl⟩ := h
    obtain ⟨hmem, x, hx, hh⟩ := JoinClause.holds_of_mem_join hp.1 hr hy
    exact ⟨x, hx, hmem, hh⟩
  | reverse rev =>
    simp only [hrel, JoinClause.extend, List.mem_flatMap, List.mem_singleton] at h
    obtain ⟨_, hr, rfl⟩ := h
    obtain ⟨hmem, x, hx, hh⟩ := JoinClause.holds_of_mem_join hp.1 hr hy
    exact ⟨x, hx, hmem, hh⟩
  | manyMany m =>
    simp only [hrel, JoinClause.extend, List.mem_flatMap, List.mem_singleton] at h
    obtain ⟨r₁, hlink, _, hr, rfl⟩ := h
    obtain ⟨hmem, link, hl, hkey⟩ := JoinClause.holds_of_mem_join ha hr hy
    obtain ⟨hlmem, x, hx, hown⟩ := JoinClause.holds_of_mem_join hp.2 hlink hl
    refine ⟨x, hx, hmem, List.any_eq_true.2 ⟨link, hlmem, ?_⟩⟩
    rw [hown, hkey]; rfl

/-- The joins of an element find every related row. -/
theorem extend_of_related {r : Joined} {x y : Tuple} (hx : r parent.label = some x)
    (hy : y ∈ related eq db parent e x) :
    ∃ r' ∈ JoinClause.extend eq db (parent.joinClauses e) r, r' e.label = some y := by
  simp only [labels, List.mem_cons, List.not_mem_nil, or_false, not_or] at hp
  simp only [related, List.mem_filter] at hy
  obtain ⟨hmem, hy⟩ := hy
  unfold joinClauses
  cases hrel : e.relation with
  | root => simp [hrel] at hy
  | reference ref =>
    simp only [hrel] at hy
    have hr := JoinClause.set_mem_join_of_holds hp.1 hmem hx hy
    exact ⟨_, by simpa [JoinClause.extend] using hr, Joined.set_self ..⟩
  | reverse rev =>
    simp only [hrel] at hy
    have hr := JoinClause.set_mem_join_of_holds hp.1 hmem hx hy
    exact ⟨_, by simpa [JoinClause.extend] using hr, Joined.set_self ..⟩
  | manyMany m =>
    simp only [hrel] at hy
    obtain ⟨link, hlmem, hy⟩ := List.any_eq_true.1 hy
    rw [Bool.and_eq_true] at hy
    have hlink := JoinClause.set_mem_join_of_holds hp.2 hlmem hx hy.1
    have hr := JoinClause.set_mem_join_of_holds ha hmem
      (Joined.set_self r e.associationLabel (some link)) hy.2
    refine ⟨(r.set e.associationLabel (some link)).set e.label (some y), ?_, Joined.set_self ..⟩
    simp only [JoinClause.extend, List.mem_flatMap, List.mem_singleton]
    exact ⟨_, hlink, _, hr, rfl⟩

end

end Element

/-! ## Rows of the library -/

namespace Library

/-- A row of some values, null in all other columns. -/
def tuple (fields : List (String × Value)) : Tuple := fun c => (fields.lookup c).getD .null

/-- Values are equal when they are the same and not null. -/
def equality : Equality where
  holds a b := !a.isNull && a == b
  symm a b h := by
    simp only [Bool.and_eq_true, beq_iff_eq] at h ⊢
    exact h.2 ▸ ⟨h.1, rfl⟩
  trans a b c h h' := by
    simp only [Bool.and_eq_true, beq_iff_eq] at h h' ⊢
    exact ⟨h.1, h.2.trans h'.2⟩
  null v := rfl
  int i j := by simp [Value.isNull, Bool.beq_eq_decide_eq]

end Library

end RecordGraph
