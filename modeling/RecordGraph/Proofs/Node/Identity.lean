import RecordGraph.Proofs.Node.Matches

/-!
# What a node stands for

Steps from a table lead to rows, to a column or to a calculation. `Node.alike` compares two such
nodes link by link, with the tables they were resolved to; a tree of joins only looks at the way to
them. Over one schema both come to the same.

**Results.**
* `Node.Reached`: the nodes that steps from a table lead to.
* `Node.Named`: what such a node names at its place.
* `Node.Reached.eq_of_named`: the place and the name settle the node.
* `Node.alike_iff_named`: so nodes are alike exactly when their places and names are equal, and
  nodes that are alike are found at the same element of every tree.
-/
namespace RecordGraph

namespace Node

/-- What a node names at its place. -/
inductive Named where
  /-- The rows of a table or relation. -/
  | rows
  | column (identifier : String)
  | calculation (name : String)
  deriving DecidableEq, Repr

/-- What a node names; expressions name nothing. -/
def named? : Node → Option Named
  | .table _ | .reference .. | .reverse .. | .manyMany .. => some .rows
  | .column _ c => some (.column c.identifier)
  | .calculated _ name => some (.calculation name)
  | .operation .. | .value .. | .subquery .. => none

/-- Steps from some table of the schema lead to the node. -/
def Reached (s : Schema) (n : Node) : Prop :=
  ∃ table links c, Chain.follow s table links = .ok c ∧ c.node = n

theorem named?_eq_rows_iff {n : Node} : n.named? = some .rows ↔ ∃ t, n.target? = some t := by
  cases n <;> simp [named?, target?]

theorem named?_isSome_of_step {c c' : Chain} {l : Link} (h : c.step l = .ok c') :
    c'.node.named?.isSome := by
  obtain ⟨_, -, ⟨_, -, he⟩ | ⟨_, he⟩ | ⟨_, _, target, he, -⟩⟩ := Chain.step_cases h
  · rw [he]; rfl
  · rw [he]; rfl
  · have hrows : c'.node.named? = some .rows := by
      cases hn : c'.node <;> rw [hn] at he <;> cases he <;> rfl
    rw [hrows]
    rfl

/-- A node with a place is alike to itself. -/
theorem alike_self : ∀ {n : Node}, n.path?.isSome → n.alike n = true
  | .table _, _ => by simp [alike]
  | .column p _, h | .calculated p _, h => by
    simpa [alike, samePlace] using alike_self (n := p) h
  | .reference p _ _, h | .reverse p _ _, h | .manyMany p _ _, h => by
    simp only [path?, Option.isSome_map] at h
    simpa [alike, samePlace] using alike_self h
  | .operation .., h | .value _, h | .subquery _, h => by cases h

namespace Reached

variable {s : Schema} {n m : Node}

theorem over_schema : Reached s n → n.Over s := by
  rintro ⟨_, _, c, h, rfl⟩
  exact .of_follow h

/-- Every step leads to something with a name. -/
theorem named (hn : Reached s n) : n.named?.isSome := by
  obtain ⟨table, links, c, h, rfl⟩ := hn
  obtain ⟨c₀, h₀, h⟩ := bind_eq_ok_iff.1 h
  obtain ⟨t, -, rfl⟩ := chain_eq_ok_iff.1 h₀
  exact foldlM_keeps (P := fun c => c.node.named?.isSome)
    (fun _ _ _ _ _ hstep => named?_isSome_of_step hstep) rfl h

/-- The place of a node over a schema is that of the rows it belongs to. -/
theorem exists_path (hn : Reached s n) : n.path?.isSome := by
  have hplace : ∀ {p : Node}, p.Over s → (∃ t, p.target? = some t) → p.path?.isSome := by
    rintro p hp ⟨t, ht⟩
    obtain ⟨path, hpath, -⟩ := hp.join?_eq ht
    rw [hpath]
    rfl
  have hover := hn.over_schema
  have hnamed := hn.named
  cases n with
  | table t => rfl
  | reference p r t => exact hplace hover ⟨t, rfl⟩
  | reverse p r t => exact hplace hover ⟨t, rfl⟩
  | manyMany p m t => exact hplace hover ⟨t, rfl⟩
  | column p c =>
    obtain ⟨hp, t, ht, -⟩ := hover.of_column
    exact hplace (p := p) hp ⟨t, ht⟩
  | calculated p name =>
    obtain ⟨hp, ht⟩ := hover.of_calculated_target
    exact hplace (p := p) hp ht
  | operation => cases hnamed
  | value => cases hnamed
  | subquery => cases hnamed

/-- Rows at one place are one node. -/
theorem eq_of_rows (hn : n.Over s) (hm : m.Over s) (hrows : ∃ t, n.target? = some t)
    (hrows' : ∃ t, m.target? = some t) (hpath : n.path? = m.path?) : n = m := by
  obtain ⟨t, ht⟩ := hrows
  obtain ⟨u, hu⟩ := hrows'
  obtain ⟨path, hnp, -⟩ := hn.join?_eq ht
  exact eq_of_path? hn hm ht hu hnp (hpath ▸ hnp)

variable (hs : Schema.SoundTables s.tables) (hn : Reached s n) (hm : Reached s m)
include hs hn hm

/-- Nodes that are alike are equal. -/
theorem eq_of_alike (h : n.alike m = true) : n = m := by
  have hnamed := hn.named
  rcases Node.eq_of_alike hs hn.over_schema hm.over_schema h with
    heq | ⟨_, _, _, rfl, -⟩ | ⟨_, _, rfl, -⟩
  · exact heq
  · cases hnamed
  · cases hnamed

/-- The place and the name settle the node. -/
theorem eq_of_named (hname : n.named? = m.named?) (hpath : n.path? = m.path?) : n = m := by
  have hover := hn.over_schema
  have hover' := hm.over_schema
  obtain ⟨name, hname'⟩ := Option.isSome_iff_exists.1 hn.named
  cases name with
  | rows =>
    exact eq_of_rows hover hover' (named?_eq_rows_iff.1 hname')
      (named?_eq_rows_iff.1 (hname ▸ hname')) hpath
  | column identifier =>
    cases n <;> cases hname'
    cases m <;> simp only [named?, reduceCtorEq, Option.some.injEq, Named.column.injEq] at hname
    rename_i p c q d
    obtain ⟨hp, t, ht, -⟩ := hover.of_column
    obtain ⟨hq, u, hu, -⟩ := hover'.of_column
    obtain rfl : p = q := eq_of_rows hp hq ⟨t, ht⟩ ⟨u, hu⟩ hpath
    refine eq_of_alike_column hs hover hover' ?_
    have hself := alike_self hm.exists_path
    simp only [alike, Bool.and_eq_true, beq_self_eq_true] at hself
    simp [alike, samePlace, kind, tableName?, database?, table?, hname, hself.2]
  | calculation name =>
    cases n <;> cases hname'
    cases m <;> simp only [named?, reduceCtorEq, Option.some.injEq, Named.calculation.injEq] at hname
    rename_i p q _
    obtain ⟨hp, ht⟩ := hover.of_calculated_target
    obtain ⟨hq, hu⟩ := hover'.of_calculated_target
    obtain rfl : p = q := eq_of_rows hp hq ht hu hpath
    rw [hname]

theorem alike_iff_eq : n.alike m = true ↔ n = m := by
  refine ⟨hn.eq_of_alike hs hm, ?_⟩
  rintro rfl
  exact alike_self hn.exists_path

end Reached

/-- **Alike is: the same name at the same place.** Over a schema that was accepted, every node that
steps from a table lead to has a place and a name. Two of them are alike exactly when both are
equal; this is an equivalence; and nodes that are alike are found at the same element of a tree of
joins, or refused by it in the same words. -/
theorem alike_iff_named {d : SchemaDecl} {s : Schema} (hs : Schema.ofDeclaration d = .ok s) :
    (∀ n, Reached s n → n.path?.isSome ∧ n.named?.isSome) ∧
    (∀ n m, Reached s n → Reached s m →
      (n.alike m = true ↔ n.named? = m.named? ∧ n.path? = m.path?)) ∧
    Equivalence (fun n m : { n : Node // Reached s n } => n.1.alike m.1 = true) ∧
    ∀ n m, Reached s n → Reached s m → n.alike m = true →
      ∀ t : JoinTree, t.elementFor n = t.elementFor m := by
  have ht := Schema.ofDeclaration_sound hs
  refine ⟨fun n hn => ⟨hn.exists_path, hn.named⟩, fun n m hn hm => ?_, ?_,
    fun n m hn hm h t => ?_⟩
  · constructor
    · intro h
      rw [hn.eq_of_alike ht hm h]
      exact ⟨rfl, rfl⟩
    · rintro ⟨hname, hpath⟩
      exact (hn.alike_iff_eq ht hm).2 (hn.eq_of_named ht hm hname hpath)
  · refine ⟨fun n => alike_self n.2.exists_path, fun h => alike_comm .. ▸ h, ?_⟩
    intro a b c hab hbc
    rwa [a.2.eq_of_alike ht b.2 hab]
  · rw [hn.eq_of_alike ht hm h]

end Node

namespace Library

theorem node_reached {s : Schema} {links : List Link} {n : Node} (h : node s links = .ok n) :
    n.Reached s := by
  cases hc : Chain.follow s "authors" links with
  | error e => rw [node, hc] at h; cases h
  | ok c => rw [node, hc] at h; cases h; exact ⟨_, _, c, hc, rfl⟩

/-- The name of the authors, and the name of the author of their books. -/
def names : Except Error (Schema × Node × Node) := do
  let s ← Schema.ofDeclaration declaration
  let name ← node s [.column "name"]
  let writer ← node s [.reverse "books", .reference "author", .column "name"]
  .ok (s, name, writer)

theorem exists_names : ∃ x, names = .ok x ∧
    x.2.1.named? = x.2.2.named? ∧ x.2.1.path? ≠ x.2.2.path? :=
  exists_ok_of_decide (by decide +kernel)

end Library

namespace Node

/-- One column of one table at two places: the nodes are not alike. -/
theorem writer_not_alike : ∃ s name writer, Library.names = .ok (s, name, writer) ∧
    name.named? = writer.named? ∧ name.path? ≠ writer.path? ∧ name.alike writer = false := by
  obtain ⟨⟨s, name, writer⟩, h, hname, hpath⟩ := Library.exists_names
  obtain ⟨s', hs, h'⟩ := bind_eq_ok_iff.1 h
  obtain ⟨n, hn, h'⟩ := bind_eq_ok_iff.1 h'
  obtain ⟨m, hm, h'⟩ := bind_eq_ok_iff.1 h'
  cases h'
  refine ⟨s, name, writer, h, hname, hpath, Bool.eq_false_iff.2 fun halike => hpath ?_⟩
  exact ((alike_iff_named hs).2.1 name writer (Library.node_reached hn)
    (Library.node_reached hm) |>.1 halike).2

end Node

end RecordGraph
