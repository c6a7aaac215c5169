import RecordGraph.Proofs.Sql.LeftJoin

/-!
# What a database answers

The joined rows that meet the conditions of a selection, in its order, are cut to its page; where
only different rows are kept, that happens before. Grouped selections are not evaluated here.

* `Engine.rows`, `SelectOf.page`: the joined rows of a selection, and the part that it takes.
* `Engine.number`: the number that a count gives.
* `Engine.answer_distinct_length`, `Engine.tally_countDistinct`: counts of different values, by
  whatever tells them apart.
-/
namespace RecordGraph

/-- How a database evaluates selections over its contents. A value that is not null is equal to
itself. -/
structure Engine where
  eq : Equality
  refl : ∀ v, v ≠ .null → eq.holds v v = true
  db : Contents
  /-- The value of an expression in a joined row. -/
  value : Joined → Expr → Value
  value_column : ∀ r ref, value r (.column ref) = r.value ref
  /-- The values of conditions that hold. -/
  isTrue : Value → Bool
  /-- Joined rows in the order of some expressions. -/
  sort : List (SortItem Expr) → List Joined → List Joined
  sort_perm : ∀ sorts rows, (sort sorts rows).Perm rows

/-- What a selection takes of what it found. -/
def SelectOf.page {α : Type} (s : Select) (xs : List α) : List α :=
  let rest := xs.drop ((s.offset.map UInt64.toNat).getD 0)
  match s.limit with
  | some limit => rest.take limit.toNat
  | none => rest

namespace Engine

variable (E : Engine)

/-- The joined rows that meet the conditions of a selection. -/
def matching (s : Select) : List Joined :=
  (s.source.joined E.eq E.db).filter fun r => s.conditions.all fun e => E.isTrue (E.value r e)

/-- The same in the order of the selection. -/
def rows (s : Select) : List Joined := E.sort s.orderBys (E.matching s)

/-- Values that count as one where only different ones are kept. -/
def same (v w : Value) : Bool := E.eq.holds v w || v.isNull && w.isNull

/-- Rows of such values. -/
def sameAll : List Value → List Value → Bool
  | [], [] => true
  | v :: vs, w :: ws => E.same v w && sameAll vs ws
  | _, _ => false

/-- The result of a selection that groups nothing. -/
def answer (s : Select) : List (List Value) :=
  let shown := (E.rows s).map fun r => s.items.map fun item => E.value r item.expr
  s.page (if s.distinct then shown.eraseDupsBy E.sameAll else shown)

/-- What an expression counts in joined rows. -/
def tally (rows : List Joined) : Expr → Option Nat
  | .apply .countAll [] => some rows.length
  | .apply .countDistinct [e] =>
    some (((rows.map (E.value · e)).filter (!·.isNull)).eraseDupsBy E.eq.holds).length
  | _ => none

/-- The number that a count gives, if it counts something. -/
def number : Counting → Option Nat
  | .direct s => match s.items with
    | [item] => E.tally (E.matching s) item.expr
    | _ => none
  | .derived s => some (E.answer s).length

end Engine

/-! ## Pages -/

namespace SelectOf

variable {α β : Type} (s : Select)

theorem page_map (f : α → β) (xs : List α) : s.page (xs.map f) = (s.page xs).map f := by
  unfold page
  cases s.limit <;> simp only [List.map_take, List.map_drop]

theorem page_length_congr {xs : List α} {ys : List β} (h : xs.length = ys.length) :
    (s.page xs).length = (s.page ys).length := by
  unfold page
  cases s.limit <;> simp only [List.length_take, List.length_drop, h]

theorem page_sublist (xs : List α) : (s.page xs).Sublist xs := by
  unfold page
  cases s.limit with
  | none => exact List.drop_sublist _ _
  | some limit => exact (List.take_sublist _ _).trans (List.drop_sublist _ _)

theorem page_of_none (hl : s.limit = none) (ho : s.offset = none) (xs : List α) :
    s.page xs = xs := by
  simp only [page, hl, ho, Option.map_none, Option.getD_none, List.drop_zero]

end SelectOf

/-! ## Different values -/

/-- Different values are counted by keys that tell them apart in the same way. -/
theorem length_eraseDupsBy_map {α β γ : Type} [BEq γ] {f : α → β} {key : α → γ}
    {r : β → β → Bool} : ∀ {as : List α}, (∀ a ∈ as, ∀ b ∈ as, r (f a) (f b) = (key a == key b)) →
      ((as.map f).eraseDupsBy r).length = (as.map key).eraseDups.length
  | [], _ => rfl
  | a :: as, h => by
    have hrest : ∀ b ∈ as.filter fun b => !key b == key a, b ∈ a :: as := fun b hb =>
      List.mem_cons_of_mem _ (List.mem_filter.1 hb).1
    have hvalues : (as.map f).filter (fun b => decide (r b (f a) = false)) =
        (as.filter fun b => !key b == key a).map f := by
      rw [List.filter_map]
      refine congrArg _ (List.filter_congr fun b hb => ?_)
      rw [Function.comp_apply, h b (List.mem_cons_of_mem _ hb) a List.mem_cons_self]
      cases key b == key a <;> rfl
    have hkeys : (as.map key).filter (fun b => !b == key a) =
        (as.filter fun b => !key b == key a).map key := List.filter_map
    rw [List.map_cons, List.map_cons, List.eraseDupsBy_cons, List.eraseDups_cons, hvalues, hkeys,
      List.length_cons, List.length_cons,
      length_eraseDupsBy_map fun b hb c hc => h b (hrest b hb) c (hrest c hc)]
termination_by as => as.length
decreasing_by
  have := List.length_filter_le (fun b => !key b == key a) as
  simp only [List.length_cons]
  omega

namespace Engine

variable {E : Engine} {κ : Type} [BEq κ] {key : Joined → κ} {e : Expr}

theorem rows_perm (E : Engine) (s : Select) : (E.rows s).Perm (E.matching s) := E.sort_perm _ _

theorem same_of_ne_null {v w : Value} (h : v ≠ .null) : E.same v w = E.eq.holds v w := by
  have hv : v.isNull = false := by
    cases v with
    | null => exact absurd rfl h
    | _ => rfl
  rw [same, hv, Bool.false_and, Bool.or_false]

/-- Different values of one expression, as the rows of a selection. -/
theorem answer_distinct_length {s : Select} (hd : s.distinct = true) (hi : s.items = [⟨e, none⟩])
    (h : ∀ r ∈ E.rows s, ∀ r' ∈ E.rows s,
      E.same (E.value r e) (E.value r' e) = (key r == key r')) :
    (E.answer s).length = (s.page ((E.rows s).map key).eraseDups).length := by
  have hvalues : ((E.rows s).map fun r => s.items.map fun item => E.value r item.expr) =
      (E.rows s).map fun r => [E.value r e] := by rw [hi]; rfl
  rw [answer, hvalues, if_pos hd]
  refine s.page_length_congr (length_eraseDupsBy_map fun r hr r' hr' => ?_)
  rw [sameAll, sameAll, Bool.and_true, h r hr r' hr']

/-- Different values of one expression, counted. -/
theorem tally_countDistinct {rows : List Joined} (hne : ∀ r ∈ rows, E.value r e ≠ .null)
    (h : ∀ r ∈ rows, ∀ r' ∈ rows,
      E.eq.holds (E.value r e) (E.value r' e) = (key r == key r')) :
    E.tally rows (.apply .countDistinct [e]) = some (rows.map key).eraseDups.length := by
  have hfilter : (rows.map (E.value · e)).filter (!·.isNull) = rows.map (E.value · e) := by
    refine List.filter_eq_self.2 (List.forall_mem_map.2 fun r hr => ?_)
    cases hv : E.value r e with
    | null => exact absurd hv (hne r hr)
    | _ => rfl
  rw [tally, hfilter, length_eraseDupsBy_map h]

end Engine

end RecordGraph
