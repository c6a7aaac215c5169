import RecordGraph.Proofs.JoinTree.NamesRead

/-!
# Why a query is refused

* `Reads.ofQuery?_walks`: the walk of a query expands nothing, so it never refuses a query because
  of a calculation that goes on forever.
* `Reads.calculations_apart`: the calculations of a query that is not refused have different names,
  or different places.
-/
namespace RecordGraph

/-- A step ends in no other error. -/
def Refuses {ε α : Type} (bad : ε → Prop) (x : Except ε α) : Prop := ∀ e, x = .error e → bad e

namespace Refuses

variable {ε α β : Type} {bad : ε → Prop}

theorem ok (a : α) : Refuses bad (.ok a : Except ε α) := fun _ h => nomatch h

theorem error {e : ε} (h : bad e) : Refuses bad (.error e : Except ε α) := by
  rintro _ ⟨⟩
  exact h

theorem bind {x : Except ε α} {f : α → Except ε β} (hx : Refuses bad x)
    (hf : ∀ a, Refuses bad (f a)) : Refuses bad (x >>= f) := by
  intro e h
  cases x with
  | error e' => exact hx e (congrArg Except.error (Except.error.inj h))
  | ok a => exact hf a e h

theorem foldlM {f : β → α → Except ε β} : ∀ {as : List α} {b : β},
    (∀ a ∈ as, ∀ b, Refuses bad (f b a)) → Refuses bad (as.foldlM f b)
  | [], b, _ => .ok b
  | a :: as, b, h => by
    rw [List.foldlM_cons]
    exact .bind (h a List.mem_cons_self b) fun b' =>
      foldlM fun x hx => h x (List.mem_cons_of_mem _ hx)

end Refuses

/-- A calculation that is needed to expand itself. -/
def QueryFault.IsEndless : QueryFault → Prop
  | .endlessCalculation _ => True
  | _ => False

namespace Reads

/-- No step of the walk expands a calculation. -/
abbrev Walks (x : Except QueryFault Reads) : Prop := Refuses (¬·.IsEndless) x

theorem ensure_walks (n : Node) (r : Reads) : Walks (r.ensure n) := by
  unfold ensure
  split
  · exact .error id
  · split
    · exact .ok r
    · split
      · exact .error id
      · rename_i parent relation target _
        exact .bind (ensure_walks parent r) fun _ => .ok _
      · rename_i parent relation target _
        exact .bind (ensure_walks parent r) fun _ => .ok _
      · rename_i parent relation target _
        exact .bind (ensure_walks parent r) fun _ => .ok _
      · exact .error id

theorem read_walks (r : Reads) (n : Node) (selected : Bool) (columns : Table → List Column) :
    Walks (r.read n selected columns) := by
  refine .bind (ensure_walks n r) fun r' => ?_
  split <;> exact .ok _

mutual

theorem expression_walks (r : Reads) : ∀ n : Node, Walks (r.expression n)
  | .column p c => by rw [expression]; exact read_walks _ _ _ _
  | .calculated p name => by
    rw [expression]
    exact .bind (ensure_walks p r) fun _ => .ok _
  | .operation op operands => by rw [expression]; exact expressions_walks r operands
  | .value v => by rw [expression]; exact .ok _
  | .subquery q => by rw [expression]; exact .ok _
  | .table t => by rw [expression] <;> first | exact read_walks _ _ _ _ | simp
  | .reference p rel t => by rw [expression] <;> first | exact read_walks _ _ _ _ | simp
  | .reverse p rel t => by rw [expression] <;> first | exact read_walks _ _ _ _ | simp
  | .manyMany p rel t => by rw [expression] <;> first | exact read_walks _ _ _ _ | simp

theorem expressions_walks (r : Reads) : ∀ ns : List Node, Walks (r.expressions ns)
  | [] => by rw [expressions]; exact .ok _
  | n :: rest => by
    rw [expressions]
    exact .bind (expression_walks r n) fun r' => expressions_walks r' rest

end

theorem groupBy_walks (r : Reads) (n : Node) : Walks (r.groupBy n) := by
  unfold groupBy
  split
  · exact read_walks _ _ _ _
  · exact .error id

theorem select_walks (r : Reads) (n : Node) : Walks (r.select n) := by
  unfold select
  split
  · exact read_walks _ _ _ _
  · split
    · exact read_walks _ _ _ _
    · exact .error id

theorem selectGrouped_walks (groupBys : List Node) (r : Reads) (n : Node) :
    Walks (r.selectGrouped groupBys n) := by
  unfold selectGrouped
  split
  · exact .ok _
  · exact .error id

theorem declare_walks (r : Reads) (k : Calculation Node) : Walks (r.declare k) := by
  unfold declare
  split
  · exact .error id
  · refine .bind (ensure_walks k.target r) fun r₁ => .bind (expression_walks r₁ _) fun r₂ => ?_
    split
    · exact .ok _
    · split
      · exact .error id
      · exact .ok _

theorem checkCalculated_refuses (r : Reads) : ∀ refs : List (Path × String),
    Refuses (¬·.IsEndless) (r.checkCalculated refs)
  | [] => .ok _
  | (path, name) :: rest => by
    unfold checkCalculated
    split
    · exact checkCalculated_refuses r rest
    · exact .error id

/-- The walk of a query never goes on forever in a calculation. -/
theorem ofQuery?_walks (q : Query) : Walks (ofQuery? q) := by
  have hrest : ∀ r₃ : Reads, Walks (do
      let r ← r₃.expressions q.conditions
      let r ← r.expressions (q.orderBys.map (·.node))
      let r ← r.expressions q.having
      let r ← q.calculations.foldlM declare r
      r.checkCalculated r.calculated
      .ok r) := fun r₃ =>
    .bind (expressions_walks r₃ _) fun r₄ => .bind (expressions_walks r₄ _) fun r₅ =>
      .bind (expressions_walks r₅ _) fun r₆ => .bind (.foldlM fun k _ r => declare_walks r k)
        fun r₇ => .bind (checkCalculated_refuses r₇ _) fun _ => .ok _
  unfold ofQuery?
  split
  · refine .bind (.foldlM fun n _ r => groupBy_walks r n) fun r₁ => ?_
    refine .bind (.foldlM fun n _ r => ?_) fun r₂ => ?_
    · split
      · exact selectGrouped_walks _ r n
      · exact select_walks r n
    · dsimp only
      split
      · exact .bind (read_walks _ _ _ _) hrest
      · exact hrest r₂
  · exact .error id

/-- **Declarations.** No two calculations of a query are under one name at one place. -/
theorem calculations_apart {q : Query} {r : Reads} (h : ofQuery? q = .ok r) :
    r.calculations.Pairwise Declared.Apart := by
  obtain ⟨_, _, _, _, _, _, r₆, -, -, -, -, -, -, -, h7, -⟩ := ofQuery?_cases h
  have hrecalls := foldlM_recalls (fun _ _ _ _ h => declare_recalls h) h7
  have hbefore : r₆.calculations = [] := by
    have hall := hrecalls.calculations
    rw [(ofQuery?_recalls h).2, QueryOf.noted_calculations_eq, (Noted.all_eq _).2.2.2] at hall
    exact List.append_left_eq_self.1 hall.symm
  refine foldlM_keeps (P := fun r => r.calculations.Pairwise Declared.Apart)
    (fun k _ r r' hr hk => ?_) (hbefore ▸ .nil) h7
  obtain ⟨r₁, r₂, -, h1, h2, hcases⟩ := declare_cases hk
  have hkept : r₂.calculations = r.calculations := by
    rw [(expression_recalls h2).calculations, Node.noted_calculations, List.append_nil,
      (ensure_recalls h1).calculations]
    exact List.append_nil _
  rcases hcases with ⟨-, rfl⟩ | ⟨path, -, hnew, rfl⟩
  · exact hkept ▸ hr
  · refine List.pairwise_append.2 ⟨hkept ▸ hr, List.pairwise_singleton _ _, fun a ha b hb => ?_⟩
    rw [List.mem_singleton.1 hb]
    rintro ⟨hp, hname⟩
    have := List.any_eq_false.1 hnew a ha
    simp [hp, hname] at this

end Reads

end RecordGraph
