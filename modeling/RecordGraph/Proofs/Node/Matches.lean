import Mathlib.Data.List.Forall2
import Mathlib.Data.List.Nodup
import Mathlib.Data.List.Zip
import RecordGraph.Proofs.Node.Over
import RecordGraph.Proofs.Schema.Sound

/-!
# Nodes that match

Two nodes that were built apart may mean the same. `Node.alike` compares them name by name; an
inner query is only alike to itself.

**Results.**
* `Node.Matches`: nodes that may stand for one another, through the operands of operations.
* `Node.eq_of_path?`: over a schema, tables and relations at one place are equal.
* `Node.eq_of_alike`: and so are chains that are alike.
* `Node.Matches.cases_over`: so nodes over a schema that match differ only in constants and below
  operators.
-/
namespace RecordGraph

theorem Value.same_comm (v w : Value) : v.same w = w.same v := by
  have hne : ∀ {a b : Value}, (a == b) = (b == a) := Bool.beq_comm
  cases v with
  | float x =>
    cases w with
    | float y => simp only [Value.same, Binary64.eqv, Bool.and_comm, Bool.beq_comm]
    | _ => exact hne
  | _ => cases w <;> exact hne

namespace Node

theorem samePlace_comm (a b : Node) : samePlace a b = samePlace b a := by
  simp only [samePlace, Bool.beq_comm]

mutual

theorem alike_comm : ∀ a b : Node, a.alike b = b.alike a
  | .table t, b => by
    cases b <;> simp only [alike, Bool.beq_comm]
  | .column p c, b => by
    cases b <;> simp only [alike]
    rename_i q d
    rw [samePlace_comm, alike_comm p q, Bool.beq_comm (a := c.identifier)]
  | .reference p r t, b => by
    cases b <;> simp only [alike]
    rename_i q s u
    rw [samePlace_comm, alike_comm p q, Bool.beq_comm (a := r.identifier)]
  | .reverse p r t, b => by
    cases b <;> simp only [alike]
    rename_i q s u
    rw [samePlace_comm, alike_comm p q, Bool.beq_comm (a := r.identifier)]
  | .manyMany p r t, b => by
    cases b <;> simp only [alike]
    rename_i q s u
    rw [samePlace_comm, alike_comm p q, Bool.beq_comm (a := r.identifier)]
  | .calculated p x, b => by
    cases b <;> simp only [alike]
    rename_i q y
    rw [samePlace_comm, alike_comm p q, Bool.beq_comm (a := x)]
  | .operation f xs, b => by
    cases b <;> simp only [alike]
    rename_i g ys
    rw [allAlike_comm xs ys, Bool.beq_comm (a := f)]
  | .value v, b => by
    cases b <;> simp only [alike]
    exact Value.same_comm ..
  | .subquery q, b => by
    cases b <;> simp only [alike]

theorem allAlike_comm : ∀ xs ys : List Node, allAlike xs ys = allAlike ys xs
  | [], ys => by cases ys <;> simp only [allAlike]
  | a :: as, ys => by
    cases ys <;> simp only [allAlike]
    rename_i b bs
    rw [alike_comm a b, allAlike_comm as bs]

end

theorem allAlike_iff : ∀ {xs ys : List Node},
    allAlike xs ys = true ↔ List.Forall₂ (fun a b => a.alike b = true) xs ys
  | [], ys => by cases ys <;> simp [allAlike]
  | a :: as, ys => by cases ys <;> simp [allAlike, allAlike_iff]

/-- Nodes that may stand for one another: one node, nodes that are alike, or one operator over
operands that match. -/
inductive Matches : Node → Node → Prop where
  | refl (n : Node) : Matches n n
  | alike {a b : Node} : a.alike b = true → Matches a b
  | operation {op : Op} {xs ys : List Node} : xs.length = ys.length →
      (∀ p ∈ xs.zip ys, Matches p.1 p.2) → Matches (.operation op xs) (.operation op ys)

theorem Matches.symm {a b : Node} (h : a.Matches b) : b.Matches a := by
  induction h with
  | refl n => exact .refl n
  | alike h => exact .alike (alike_comm .. ▸ h)
  | operation hlen _ ih =>
    refine .operation hlen.symm fun p hp => ?_
    refine ih p.swap ?_
    rw [← List.zip_swap]
    exact List.mem_map.2 ⟨p, hp, rfl⟩

/-! ## Matching over a schema -/

namespace Over

variable {s : Schema}

/-- A calculation is looked for at a table-like node. -/
theorem of_calculated_target {p : Node} {name : String} (h : Over s (.calculated p name)) :
    Over s p ∧ ∃ t, p.target? = some t := by
  cases h with
  | table h => obtain ⟨t, -, h⟩ := chain_eq_ok_iff.1 h; cases h
  | link hn h =>
    obtain ⟨t, ht, ⟨c', hc, he⟩ | ⟨_, he⟩ | ⟨_, _, _, he, -⟩⟩ := Chain.step_cases h
    · cases he
    · cases he; exact ⟨hn, t, ht⟩
    · cases he

/-- The table of a node is one of the schema's. -/
theorem target?_mem {n : Node} {t : Table} (h : Over s n) (ht : n.target? = some t) :
    t ∈ s.tables := by
  obtain ⟨path, -, hj⟩ := h.join?_eq ht
  exact Schema.mem_of_join? hj

end Over

variable {s : Schema}

/-- Relations from one node that have one name are one relation. -/
theorem eq_of_links {n m p : Node} {a b : Relation} {t u : Table} (hn : n.Over s) (hm : m.Over s)
    (hnl : n.link? = some (p, a, t)) (hml : m.link? = some (p, b, u)) (hop : a.hop? = b.hop?) :
    a = b ∧ t = u := by
  obtain ⟨-, v, hop₁, hv, ha, ht⟩ := hn.of_link hnl
  obtain ⟨-, w, hop₂, hw, hb, hu⟩ := hm.of_link hml
  obtain rfl : v = w := Option.some.inj (hv.symm.trans hw)
  obtain rfl : hop₁ = hop₂ := Option.some.inj (ha.symm.trans (hop.trans hb))
  exact Prod.mk.inj (Option.some.inj (ht.symm.trans hu))

theorem target?_cases {n : Node} {t : Table} (h : n.target? = some t) :
    n = table t ∨ ∃ p relation, n.link? = some (p, relation, t) := by
  cases n <;> cases h
  · exact .inl rfl
  all_goals exact .inr ⟨_, _, rfl⟩

theorem link?_inj {n m p : Node} {relation : Relation} {t : Table}
    (hn : n.link? = some (p, relation, t)) (hm : m.link? = some (p, relation, t)) : n = m := by
  cases n <;> cases hn <;> cases m <;> cases hm <;> rfl

/-- Tables and relations are settled by the way to them. -/
theorem eq_of_path? {n m : Node} {t u : Table} {path : Path} (hn : n.Over s) (hm : m.Over s)
    (ht : n.target? = some t) (hu : m.target? = some u) (hnp : n.path? = some path)
    (hmp : m.path? = some path) : n = m := by
  -- from the last hop on
  rcases target?_cases ht with rfl | ⟨p, a, hnl⟩ <;>
    rcases target?_cases hu with rfl | ⟨q, b, hml⟩
  · cases hnp
    simp only [path?, Option.some.injEq, List.cons.injEq, Hop.table.injEq, and_true] at hmp
    have htu := hm.table?_eq
    rw [hmp.2, hn.table?_eq] at htu
    rw [Option.some.inj htu]
  · cases hnp
    obtain ⟨start, hop, hstart, -, heq⟩ := path?_of_link hml hmp
    exact absurd (List.append_eq_singleton_iff.1 heq.symm) (by simp [path?_ne_nil hstart])
  · cases hmp
    obtain ⟨start, hop, hstart, -, heq⟩ := path?_of_link hnl hnp
    exact absurd (List.append_eq_singleton_iff.1 heq.symm) (by simp [path?_ne_nil hstart])
  · obtain ⟨start, hop, hstart, ha, rfl⟩ := path?_of_link hnl hnp
    obtain ⟨start', hop', hstart', hb, heq⟩ := path?_of_link hml hmp
    obtain ⟨rfl, hhop⟩ := List.append_inj' heq rfl
    cases hhop
    obtain ⟨hp, v, -, hv, -⟩ := hn.of_link hnl
    obtain ⟨hq, w, -, hw, -⟩ := hm.of_link hml
    obtain rfl := eq_of_path? hp hq hv hw hstart hstart'
    obtain ⟨rfl, rfl⟩ := eq_of_links hn hm hnl hml (ha.trans hb.symm)
    exact link?_inj hnl hml
termination_by sizeOf n
decreasing_by exact sizeOf_lt_of_link hnl

/-- So nodes that are alike are equal, if rows come from them. -/
theorem eq_of_alike_of_target {n m : Node} {t : Table} (hn : n.Over s) (hm : m.Over s)
    (h : n.alike m = true) (ht : n.target? = some t) : n = m := by
  obtain ⟨path, hnp, -⟩ := hn.join?_eq ht
  obtain ⟨u, hu⟩ : ∃ u, m.target? = some u := by
    cases n <;> cases ht <;> cases m <;> first | exact ⟨_, rfl⟩ | cases h
  exact eq_of_path? hn hm ht hu hnp (path?_eq_of_alike h ▸ hnp)

/-- So are columns: a table has one column under an identifier. -/
theorem eq_of_alike_column (hs : Schema.SoundTables s.tables) {p q : Node} {c d : Column}
    (hn : (column p c).Over s) (hm : (column q d).Over s)
    (h : (column p c).alike (column q d) = true) : column p c = column q d := by
  simp only [alike, Bool.and_eq_true, beq_iff_eq] at h
  obtain ⟨hp, t, ht, hc⟩ := hn.of_column
  obtain ⟨hq, u, hu, hd⟩ := hm.of_column
  obtain rfl := eq_of_alike_of_target hp hq h.2 ht
  obtain rfl : t = u := Option.some.inj (ht.symm.trans hu)
  have hnd : (t.columns.map (·.identifier)).Nodup := by
    rw [List.nodup_iff_pairwise_ne, List.pairwise_map]
    exact (hs.sound t (hp.target?_mem ht)).columns.imp fun h => h.2
  rw [List.inj_on_of_nodup_map hnd hc hd h.1.2]

/-- Over a schema, nodes that are alike differ only in constants and below operators. -/
theorem eq_of_alike (hs : Schema.SoundTables s.tables) {n m : Node} (hn : n.Over s)
    (hm : m.Over s) (h : n.alike m = true) : n = m ∨ (∃ op xs ys, n = .operation op xs ∧
      m = .operation op ys ∧ allAlike xs ys = true) ∨ ∃ v w, n = .value v ∧ m = .value w := by
  cases n with
  | table t => exact .inl (eq_of_alike_of_target hn hm h rfl)
  | reference p r t => exact .inl (eq_of_alike_of_target hn hm h rfl)
  | reverse p r t => exact .inl (eq_of_alike_of_target hn hm h rfl)
  | manyMany p r t => exact .inl (eq_of_alike_of_target hn hm h rfl)
  | column p c =>
    cases m <;> try cases h
    exact .inl (eq_of_alike_column hs hn hm h)
  | calculated p x =>
    cases m <;> simp only [alike, Bool.and_eq_true, beq_iff_eq, Bool.false_eq_true] at h
    obtain ⟨hp, t, ht⟩ := hn.of_calculated_target
    obtain rfl := eq_of_alike_of_target hp hm.of_calculated h.2 ht
    exact .inl (by rw [h.1.2])
  | operation f xs =>
    cases m <;> simp only [alike, Bool.and_eq_true, beq_iff_eq, Bool.false_eq_true] at h
    exact .inr (.inl ⟨f, xs, _, rfl, by rw [h.1], h.2⟩)
  | value v =>
    cases m <;> simp only [alike, Bool.false_eq_true] at h
    exact .inr (.inr ⟨v, _, rfl, rfl⟩)
  | subquery q => simp [alike] at h

/-- Over a schema, nodes that match differ only in constants and below operators. -/
theorem Matches.cases_over (hs : Schema.SoundTables s.tables) {n m : Node} (hn : n.Over s)
    (hm : m.Over s) (h : n.Matches m) : n = m ∨ (∃ op xs ys, n = .operation op xs ∧
      m = .operation op ys ∧ List.Forall₂ Matches xs ys) ∨ ∃ v w, n = .value v ∧ m = .value w := by
  cases h with
  | refl => exact .inl rfl
  | alike h =>
    rcases eq_of_alike hs hn hm h with he | ⟨op, xs, ys, hx, hy, hall⟩ | hv
    · exact .inl he
    · exact .inr (.inl ⟨op, xs, ys, hx, hy, (allAlike_iff.1 hall).imp fun _ _ => .alike⟩)
    · exact .inr (.inr hv)
  | operation hlen h =>
    exact .inr (.inl ⟨_, _, _, rfl, rfl, List.forall₂_iff_zip.2 ⟨hlen, fun hp => h _ hp⟩⟩)

end Node

end RecordGraph
