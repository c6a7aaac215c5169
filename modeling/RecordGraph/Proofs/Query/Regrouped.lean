import RecordGraph.Proofs.JoinTree.Labels
import RecordGraph.Proofs.Node.Matches
import RecordGraph.Proofs.Query.Resolvers
import RecordGraph.Proofs.Sql.Spelled

/-!
# Formulas over the joins of a query

A formula over columns of joined tables is an expression of a query. Its text tells everything of
it but the grouping of operations that bring no parentheses.

**Results.**
* `Formula.resolver_node`: a formula becomes the same formula over the columns of joined tables.
* `JoinTree.refOf_inj`: different columns become different columns of joined tables.
* `Formula.texts_tell`: so formulas have one text if they are regrouped to one; comparisons and
  ranges whose last operand brings parentheses are told apart.
* `Formula.exists_confused`: a comparison behind a comparison is read as the first operand of it.
-/
namespace RecordGraph

/-- A column of a table or of a relation. -/
structure ColumnNode where
  parent : Node
  column : Column

def ColumnNode.node (k : ColumnNode) : Node := .column k.parent k.column

/-- A node as such a column, if it is one. -/
def ColumnNode.of? : Node → Option ColumnNode
  | .column p c => some ⟨p, c⟩
  | _ => none

theorem ColumnNode.exists_of_isSome {n : Node} (h : (of? n).isSome = true) :
    ∃ k : ColumnNode, n = k.node := by
  cases n with
  | column p c => exact ⟨⟨p, c⟩, rfl⟩
  | _ => cases h

namespace Formula

mutual

/-- A formula as an expression of a query. -/
def node : Formula ColumnNode → Node
  | column k => k.node
  | compare c a b => .operation c.op [a.node, b.node]
  | nullTest isNull a => .operation (nullTestOp isNull) [a.node]
  | between a low high => .operation .between [a.node, low.node, high.node]
  | negate a => .operation .not [a.node]
  | arithmetic o a b => .operation o.op [a.node, b.node]
  | chain c a b rest => .operation c.op (a.node :: b.node :: nodes rest)

def nodes : List (Formula ColumnNode) → List Node
  | [] => []
  | f :: rest => f.node :: nodes rest

end

theorem node_ne_value (f : Formula ColumnNode) (v : Value) : f.node ≠ .value v := by
  cases f <;> rw [node] <;> exact nofun

end Formula

/-! ## Operators over resolved operands -/

/-- Operators that become nothing else, whatever their operands are. -/
theorem PairForm.of_plain {op : Op} {a b : Node} (ha : ∀ v, a ≠ .value v) (hb : ∀ v, b ≠ .value v)
    (hop : patternOf? op "" = none) : PairForm.of op a b = .plain := by
  have hnull {n : Node} (h : ∀ v, n ≠ .value v) : n.isNullValue = false := by
    cases n with
    | value v => exact absurd rfl (h v)
    | _ => rfl
  unfold PairForm.of
  rw [hnull ha, hnull hb]
  cases b with
  | value v => exact absurd rfl (hb v)
  | _ => cases nullTest? op <;> simp [hop]

namespace Node

variable {d : Dialect} {sc : Scope}

/-- A node becomes an expression, and no inner query is numbered. -/
def Becomes (d : Dialect) (sc : Scope) (n : Node) (e : Expr) : Prop := n.resolver d sc = pure e

theorem mapM_becomes {ns : List Node} {es : List Expr}
    (h : List.Forall₂ (Becomes d sc) ns es) : (ns.map (resolver d)).mapM (· sc) = pure es := by
  induction h with
  | nil => rfl
  | cons hn _ ih =>
    rw [List.map_cons, List.mapM_cons, hn, pure_bind, ih, pure_bind]

theorem counted_eq {op : Op} {args : List Expr} (h : op.takes args.length = true) :
    counted d op args = pure (.apply op args) := by
  rw [counted, Dialect.checkCount, if_pos (by rw [Dialect.takes, h, Bool.or_true])]
  rfl

/-- An operation over operands that become expressions. -/
theorem Becomes.operation {op : Op} {ns : List Node} {es : List Expr}
    (h : List.Forall₂ (Becomes d sc) ns es) (hv : ∀ n ∈ ns, ∀ v, n ≠ .value v)
    (hop : PairForm.patternOf? op "" = none) (hcount : op.takes ns.length = true) :
    (Node.operation op ns).Becomes d sc (.apply op es) := by
  rw [h.length_eq] at hcount
  by_cases hlen : ns.length = 2
  · obtain ⟨a, b, rfl⟩ := List.length_eq_two.1 hlen
    match es, h with
    | [x, y], .cons ha (.cons hb .nil) =>
      have hplain := PairForm.of_plain (hv a (by simp)) (hv b (by simp)) hop
      rw [Becomes, resolver, hplain]
      simp only
      rw [ha, hb, pure_bind, pure_bind, counted_eq hcount]
  · rw [Becomes, resolver_operation hlen, mapM_becomes h, pure_bind, counted_eq hcount]

end Node

namespace Formula

variable {d : Dialect} {sc : Scope} {r : ColumnNode → ColumnRef}

theorem mem_nodes_ne_value {fs : List (Formula ColumnNode)} :
    ∀ n ∈ nodes fs, ∀ v, n ≠ .value v := by
  induction fs with
  | nil => intro n hn; rw [nodes] at hn; cases hn
  | cons f fs ih =>
    rw [nodes]
    exact List.forall_mem_cons.2 ⟨f.node_ne_value, ih⟩

mutual

/-- **Formulas.** Where its columns become columns of joined tables, a formula becomes the formula
over these. -/
theorem node_becomes : ∀ {f : Formula ColumnNode},
    (∀ k, f.Has k → k.node.Becomes d sc (.column (r k))) → f.node.Becomes d sc (f.map r).expr
  | column k, h => by
    rw [node, map, expr]
    exact h k (has_column.2 rfl)
  | compare c a b, h => by
    have ha := node_becomes fun k hk => h k (has_compare.2 (.inl hk))
    have hb := node_becomes fun k hk => h k (has_compare.2 (.inr hk))
    rw [node, map, expr]
    exact .operation (.cons ha (.cons hb .nil)) (by simp [node_ne_value]) (by cases c <;> rfl)
      (by cases c <;> rfl)
  | nullTest isNull a, h => by
    have ha := node_becomes fun k hk => h k (has_nullTest.2 hk)
    rw [node, map, expr]
    exact .operation (.cons ha .nil) (by simp [node_ne_value]) (by cases isNull <;> rfl)
      (by cases isNull <;> rfl)
  | between a low high, h => by
    have ha := node_becomes fun k hk => h k (has_between.2 (.inl hk))
    have hlow := node_becomes fun k hk => h k (has_between.2 (.inr (.inl hk)))
    have hhigh := node_becomes fun k hk => h k (has_between.2 (.inr (.inr hk)))
    rw [node, map, expr]
    exact .operation (.cons ha (.cons hlow (.cons hhigh .nil))) (by simp [node_ne_value]) rfl rfl
  | negate a, h => by
    have ha := node_becomes fun k hk => h k (has_negate.2 hk)
    rw [node, map, expr]
    exact .operation (.cons ha .nil) (by simp [node_ne_value]) rfl rfl
  | arithmetic o a b, h => by
    have ha := node_becomes fun k hk => h k (has_arithmetic.2 (.inl hk))
    have hb := node_becomes fun k hk => h k (has_arithmetic.2 (.inr hk))
    rw [node, map, expr]
    exact .operation (.cons ha (.cons hb .nil)) (by simp [node_ne_value]) (by cases o <;> rfl)
      (by cases o <;> rfl)
  | chain c a b rest, h => by
    have ha := node_becomes fun k hk => h k (has_chain.2 (.inl hk))
    have hb := node_becomes fun k hk => h k (has_chain.2 (.inr (.inl hk)))
    have hrest := nodes_become fun f hf k hk => h k (has_chain.2 (.inr (.inr ⟨f, hf, hk⟩)))
    rw [node, map, expr]
    refine .operation (.cons ha (.cons hb hrest)) ?_ (by cases c <;> rfl) (by cases c <;> rfl)
    simpa [node_ne_value] using mem_nodes_ne_value

theorem nodes_become : ∀ {fs : List (Formula ColumnNode)},
    (∀ f ∈ fs, ∀ k, f.Has k → k.node.Becomes d sc (.column (r k))) →
      List.Forall₂ (Node.Becomes d sc) (nodes fs) (exprs (mapAll r fs))
  | [], _ => by
    rw [nodes, mapAll, exprs]
    exact .nil
  | f :: fs, h => by
    rw [nodes, mapAll, exprs]
    exact .cons (node_becomes (h f List.mem_cons_self))
      (nodes_become fun g hg => h g (List.mem_cons_of_mem _ hg))

end

end Formula

/-! ## Columns of joined tables -/

namespace JoinTree

/-- A column over a schema, at a place that is joined. -/
structure HasColumn (t : JoinTree) (s : Schema) (k : ColumnNode) : Prop where
  inSchema : k.node.Over s
  joined : ∃ e ∈ t.elements, k.parent.path? = some e.path

/-- The column of a joined table that a column becomes. -/
def refOf (t : JoinTree) (k : ColumnNode) : ColumnRef where
  label := match t.elementFor k.node with
    | .ok e => e.label
    | .error _ => ""
  column := k.column.name

variable {s : Schema} {t : JoinTree} {k k' : ColumnNode}

/-- A column of the joins is found at its element. -/
theorem HasColumn.elementFor {lead : String} {q : Query} (hk : t.HasColumn s k)
    (ht : t.Shaped lead q) : ∃ e ∈ t.elements, k.parent.path? = some e.path ∧
      t.elementFor k.node = .ok e := by
  obtain ⟨e, he, hpath⟩ := hk.joined
  refine ⟨e, he, hpath, ?_⟩
  rw [JoinTree.elementFor, ColumnNode.node, Node.path?, hpath, Option.bind_some, ht.find?_path e he]

theorem HasColumn.becomes {lead : String} {q : Query} (hk : t.HasColumn s k)
    (ht : t.Shaped lead q) (d : Dialect) {sc : Scope} (hsc : sc.tree = t) :
    k.node.Becomes d sc (.column (t.refOf k)) := by
  obtain ⟨e, -, -, he⟩ := hk.elementFor ht
  rw [Node.Becomes, refOf, he]
  unfold ColumnNode.node at he ⊢
  simp only [Node.resolver, Node.found, hsc, he]
  rfl

/-- Different columns become different columns of joined tables. -/
theorem refOf_inj {lead : String} {q : Query} (hs : Schema.SoundTables s.tables)
    (ht : t.Shaped lead q) (hk : t.HasColumn s k) (hk' : t.HasColumn s k')
    (h : t.refOf k = t.refOf k') : k = k' := by
  obtain ⟨e, he, hpath, hfound⟩ := hk.elementFor ht
  obtain ⟨e', he', hpath', hfound'⟩ := hk'.elementFor ht
  simp only [refOf, hfound, hfound', ColumnRef.mk.injEq] at h
  obtain rfl := ht.eq_of_label he he' h.1
  obtain ⟨hp, u, hu, hc⟩ := hk.inSchema.of_column
  obtain ⟨hp', u', hu', hc'⟩ := hk'.inSchema.of_column
  have hparent := Node.eq_of_path? hp hp' hu hu' hpath hpath'
  rw [← hparent, hu] at hu'
  cases hu'
  have hcolumn := (hs.sound u (hp.target?_mem hu)).column_eq hc hc' h.2
  cases k
  cases k'
  rw [ColumnNode.mk.injEq]
  exact ⟨hparent, hcolumn⟩

/-- A column that a query reads is one of its joins. -/
theorem HasColumn.of_mem {lead : String} {q : Query} (hq : q.Over s) (ht : t.Shaped lead q)
    (h : k.node ∈ q.nodes) : t.HasColumn s k := by
  obtain ⟨hp, u, hu, -⟩ := (hq _ h).of_column
  obtain ⟨path, hpath, -⟩ := hp.join?_eq hu
  have hread : path ∈ q.placesRead := by
    refine List.mem_flatMap.2 ⟨_, h, ?_⟩
    rw [ColumnNode.node, Node.placesRead, Node.path?, hpath]
    · exact List.mem_singleton_self path
    all_goals exact nofun
  obtain ⟨e, he, rfl⟩ := (ht.joined path).2 ⟨Node.path?_ne_nil hpath, path, hread, List.prefix_rfl⟩
  exact ⟨hq _ h, e, he, hpath⟩

end JoinTree

namespace Library

/-- The query selects columns. -/
theorem selects_columns {s : Schema} {q : Query} {t : JoinTree} (h : tree = .ok (s, q, t)) :
    ∃ a b c : ColumnNode, q.selects = [a.node, b.node, c.node] := by
  have hall : (tree.map fun x => x.2.1.selects.map fun n => (ColumnNode.of? n).isSome).toOption =
      some [true, true, true] := by decide +kernel
  rw [h] at hall
  obtain ⟨n₁, rest, hselects, h₁, hrest⟩ := List.map_eq_cons_iff.1 (Option.some.inj hall)
  obtain ⟨n₂, rest, rfl, h₂, hrest⟩ := List.map_eq_cons_iff.1 hrest
  obtain ⟨n₃, rest, rfl, h₃, hrest⟩ := List.map_eq_cons_iff.1 hrest
  obtain rfl := List.map_eq_nil_iff.1 hrest
  obtain ⟨a, rfl⟩ := ColumnNode.exists_of_isSome h₁
  obtain ⟨b, rfl⟩ := ColumnNode.exists_of_isSome h₂
  obtain ⟨c, rfl⟩ := ColumnNode.exists_of_isSome h₃
  exact ⟨a, b, c, hselects⟩

theorem exists_columns : ∃ s q t, tree = .ok (s, q, t) ∧ ∃ a b c : ColumnNode,
    q.selects = [a.node, b.node, c.node] ∧ ∀ k ∈ [a, b, c], t.HasColumn s k := by
  obtain ⟨s, q, t, h⟩ := exists_tree
  obtain ⟨a, b, c, hselects⟩ := selects_columns h
  obtain ⟨-, hq, ht⟩ := tree_cases h
  refine ⟨s, q, t, h, a, b, c, hselects, fun k hk => ?_⟩
  refine .of_mem (query_over hq) (JoinTree.compile_shape ht) ?_
  have hmem : k.node ∈ q.selects := by
    rw [hselects]
    exact List.mem_map_of_mem hk
  simp [QueryOf.nodes, hmem]

end Library

/-! ## Texts -/

namespace Formula

/-- **Texts.** Formulas over the columns of a query's joins become expressions. These have one text
if the formulas are regrouped to one, so formulas that are not regrouped are told apart. -/
theorem texts_tell {decl : SchemaDecl} {s : Schema} (hs : Schema.ofDeclaration decl = .ok s)
    {projection : Projection} {lead : String} {q : Query} {t : JoinTree}
    (ht : JoinTree.compile projection lead q = .ok t) {d : Dialect} {sc : Scope} (hsc : sc.tree = t)
    {f g : Formula ColumnNode} (hf : ∀ k, f.Has k → t.HasColumn s k)
    (hg : ∀ k, g.Has k → t.HasColumn s k) :
    ∃ x y, f.node.Becomes d sc x ∧ g.node.Becomes d sc y ∧
      (x.text d = y.text d ↔ f.regrouped = g.regrouped) ∧
      (f.Grouped → g.Grouped → f.node ≠ g.node → x.text d ≠ y.text d) := by
  have hshaped := JoinTree.compile_shape ht
  have htexts : (f.map t.refOf).expr.text d = (g.map t.refOf).expr.text d ↔
      f.regrouped = g.regrouped :=
    text_map_eq_iff fun k k' hk hk' =>
      JoinTree.refOf_inj (Schema.ofDeclaration_sound hs) hshaped (hf k hk) (hg k' hk')
  refine ⟨_, _, node_becomes fun k hk => (hf k hk).becomes hshaped d hsc,
    node_becomes fun k hk => (hg k hk).becomes hshaped d hsc, htexts, fun hfg hgg hne heq => hne ?_⟩
  rw [← hfg.regrouped_eq, htexts.1 heq, hgg.regrouped_eq]

/-- A comparison of comparisons is told from one whose last operand is in parentheses. -/
theorem library_told : ∃ s q t, Library.tree = .ok (s, q, t) ∧ ∃ a b c : ColumnNode,
    q.selects = [a.node, b.node, c.node] ∧ ∀ (d : Dialect) (expand : Path → String → Emission Expr),
      ∃ x y, (compare .eq (compare .eq (column a) (column b)) (column c)).node.Becomes
          d ⟨t, expand⟩ x ∧
        (compare .eq (column a) (negate (compare .eq (column b) (column c)))).node.Becomes
          d ⟨t, expand⟩ y ∧
        x.text d ≠ y.text d := by
  obtain ⟨s, q, t, h, a, b, c, hselects, hcolumns⟩ := Library.exists_columns
  obtain ⟨hs, -, ht⟩ := Library.tree_cases h
  refine ⟨s, q, t, h, a, b, c, hselects, fun d expand => ?_⟩
  have hscope : Scope.tree ⟨t, expand⟩ = t := rfl
  obtain ⟨x, y, hx, hy, -, htold⟩ := texts_tell hs ht (d := d) hscope
    (f := compare .eq (compare .eq (column a) (column b)) (column c))
    (g := compare .eq (column a) (negate (compare .eq (column b) (column c))))
    (fun k hk => hcolumns k (by simpa [has_compare, has_column, or_assoc] using hk))
    (fun k hk => hcolumns k (by simpa [has_compare, has_negate, has_column] using hk))
  refine ⟨x, y, hx, hy, htold ?_ ?_ ?_⟩
  · exact .compare _ (.compare _ (.column a) (.column b) rfl) (.column c) rfl
  · exact .compare _ (.column a) (.negate (.compare _ (.column b) (.column c) rfl)) rfl
  · simp [node, ColumnNode.node]

/-- A comparison that is the last operand of another one has the text of one that is the first. -/
theorem exists_confused : ∃ s q t, Library.tree = .ok (s, q, t) ∧ ∃ a b c : ColumnNode,
    q.selects = [a.node, b.node, c.node] ∧
      (compare .eq (compare .eq (column a) (column b)) (column c)).node ≠
        (compare .eq (column a) (compare .eq (column b) (column c))).node ∧
      ∀ (d : Dialect) (expand : Path → String → Emission Expr),
        ∃ x y, (compare .eq (compare .eq (column a) (column b)) (column c)).node.Becomes
            d ⟨t, expand⟩ x ∧
          (compare .eq (column a) (compare .eq (column b) (column c))).node.Becomes
            d ⟨t, expand⟩ y ∧
          x.text d = y.text d := by
  obtain ⟨s, q, t, h, a, b, c, hselects, hcolumns⟩ := Library.exists_columns
  obtain ⟨-, -, ht⟩ := Library.tree_cases h
  refine ⟨s, q, t, h, a, b, c, hselects, by simp [node, ColumnNode.node], fun d expand => ?_⟩
  have hbecomes {f : Formula ColumnNode} (hf : ∀ k, f.Has k → k ∈ [a, b, c]) :
      f.node.Becomes d ⟨t, expand⟩ (f.map t.refOf).expr :=
    node_becomes fun k hk => (hcolumns k (hf k hk)).becomes (JoinTree.compile_shape ht) d rfl
  refine ⟨_, _, hbecomes fun k hk => ?_, hbecomes fun k hk => ?_, text_eq_iff.2 ?_⟩
  · simpa [has_compare, has_column, or_assoc] using hk
  · simpa [has_compare, has_column] using hk
  · simp only [map]
    exact (regrouped_compare ..).symm

end Formula

end RecordGraph
