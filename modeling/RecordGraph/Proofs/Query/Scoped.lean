import Mathlib
import RecordGraph.Proofs.JoinTree.JoinedRows
import RecordGraph.Proofs.Node.Over
import RecordGraph.Proofs.Query.Resolvers
import RecordGraph.Proofs.Sql.Scoping
import RecordGraph.Query.Run

/-!
# The statements of a query are scoped

The labels of a query come from the numbers of its joins. Those of an inner query start with its own
number, and the numbers go on through everything that is written: a calculation that is expanded
twice brings its inner queries along twice, under different numbers.

**Results.**
* `JoinTree.Linked.source_nodup`, `JoinTree.Linked.source_ordered`: the FROM clause of a tree.
* `Placed`: what is written between two numbers, and how such parts go together.
* `Node.resolver_scoped`: a node is written into the selection of its scope.
* `QueryOf.statements_scoped`: a statement introduces every label once, and refers to the tables of
  its own selections.
-/
namespace RecordGraph

/-! ## The FROM clause of a tree -/

namespace Element

variable {parent e : Element}

theorem joinClauses_ordered {before : List String} (h : parent.label ∈ before) :
    JoinClause.Ordered before (parent.joinClauses e) := by
  unfold joinClauses
  cases e.relation <;> simp [JoinClause.Ordered, h]

theorem label_mem_joinClauses (h : e.relation ≠ .root) :
    e.label ∈ (parent.joinClauses e).map (·.label) := by
  unfold joinClauses
  cases hr : e.relation with
  | root => exact absurd hr h
  | _ => simp

theorem joinClauses_nodup (h : e.associationLabel ≠ e.label) :
    ((parent.joinClauses e).map (·.label)).Nodup := by
  unfold joinClauses
  cases e.relation <;> simp [h]

end Element

namespace JoinTree

variable {lead : String} {t : JoinTree}

theorem mem_labels_of_clausesOf {e : Element} {l : String}
    (h : l ∈ (t.clausesOf e).map (·.label)) : l ∈ e.labels := by
  unfold clausesOf at h
  split at h
  · exact Element.mem_labels_of_joinClauses h
  · simp at h

theorem source_labels (t : JoinTree) : t.source.labels =
    t.root.label :: t.rest.flatMap fun e => (t.clausesOf e).map (·.label) := by
  rw [From.labels, source_joins, List.map_flatMap]
  rfl

section
variable (hl : t.Linked lead)
include hl

theorem Linked.labels_disjoint {a b : Element} (ha : a ∈ t.elements) (hb : b ∈ t.elements)
    (hne : a ≠ b) : List.Disjoint a.labels b.labels := by
  intro l hla hlb
  simp only [Element.labels, List.mem_cons, List.not_mem_nil, or_false] at hla
  rcases hla with rfl | rfl
  · exact hl.label_notMem ha hb hne hlb
  · simp only [Element.labels, List.mem_cons, List.not_mem_nil, or_false] at hlb
    rcases hlb with h | h
    · exact hl.associationLabel_ne ha hb h
    · refine hne (hl.eq_of_label ha hb ?_)
      have h := congrArg String.toList h
      simp only [Element.associationLabel, String.toList_append, List.append_cancel_right_eq] at h
      exact String.toList_injective h

theorem Linked.elements_nodup : t.elements.Nodup :=
  List.nodup_iff_pairwise_ne.2 (hl.ids_pairwise.imp fun h he => Nat.ne_of_lt h (congrArg _ he))

/-- A FROM clause introduces every label once. -/
theorem Linked.source_nodup : t.source.labels.Nodup := by
  have hnodup := hl.elements_nodup
  rw [elements, List.nodup_cons] at hnodup
  rw [source_labels, List.nodup_cons, List.nodup_flatMap]
  refine ⟨fun hmem => ?_, fun e he => ?_, ?_⟩
  · obtain ⟨e, he, hle⟩ := List.mem_flatMap.1 hmem
    refine hl.label_notMem List.mem_cons_self (List.mem_cons_of_mem _ he) ?_
      (mem_labels_of_clausesOf hle)
    rintro rfl
    exact hnodup.1 he
  · unfold clausesOf
    have he := List.mem_cons_of_mem t.root he
    split
    · exact Element.joinClauses_nodup (hl.associationLabel_ne he he)
    · exact List.nodup_nil
  · refine hnodup.2.imp_of_mem fun {a b} ha hb hne => ?_
    refine List.disjoint_of_subset_left (fun _ => mem_labels_of_clausesOf) ?_
    refine List.disjoint_of_subset_right (fun _ => mem_labels_of_clausesOf) ?_
    exact hl.labels_disjoint (List.mem_cons_of_mem _ ha) (List.mem_cons_of_mem _ hb) hne

/-- The joins of an element and those behind it refer to what comes before them. -/
theorem Linked.clauses_ordered : ∀ (after before : List Element) (seen : List String),
    t.elements = before ++ after → (∀ e ∈ after, e ∈ t.rest) → (∀ a ∈ before, a.label ∈ seen) →
      JoinClause.Ordered seen (after.flatMap t.clausesOf)
  | [], _, _, _, _, _ => trivial
  | e :: after, before, seen, hsplit, hrest, hseen => by
    have he := hrest e List.mem_cons_self
    obtain ⟨p, hp, hparent, hlt, hop, hhop, -⟩ := hl.parent e he
    have hpair := hl.ids_pairwise
    rw [hsplit, List.pairwise_append, List.pairwise_cons] at hpair
    -- elements are listed by their numbers, so the parent is not behind
    have hbefore : p ∈ before := by
      rw [hsplit, List.mem_append, List.mem_cons] at hp
      rcases hp with hp | rfl | hp
      · exact hp
      · exact absurd hlt (Nat.lt_irrefl _)
      · exact absurd hlt (Nat.lt_asymm (hpair.2.1.1 p hp))
    have hroot : e.relation ≠ .root := by
      intro h
      rw [h] at hhop
      cases hhop
    have hpt : p ∈ t.elements := hsplit ▸ List.mem_append_left _ hbefore
    rw [List.flatMap_cons, hl.clausesOf_eq hpt hparent]
    refine (Element.joinClauses_ordered (hseen p hbefore)).append ?_
    refine Linked.clauses_ordered after (before ++ [e]) _ (by simp [hsplit])
      (fun a ha => hrest a (List.mem_cons_of_mem _ ha)) fun a ha => ?_
    rcases List.mem_append.1 ha with ha | ha
    · exact List.mem_append_left _ (hseen a ha)
    · rw [List.mem_singleton.1 ha]
      exact List.mem_append_right _ (Element.label_mem_joinClauses hroot)

/-- Every join of a FROM clause refers to a table before it. -/
theorem Linked.source_ordered : t.source.Ordered := by
  refine hl.clauses_ordered t.rest [t.root] _ rfl (fun _ he => he) fun a ha => ?_
  rw [List.mem_singleton.1 ha]
  exact List.mem_cons_self

theorem Linked.label_mem_source {e : Element} (he : e ∈ t.elements) :
    e.label ∈ t.source.labels := by
  rw [source_labels]
  rcases List.mem_cons.1 he with rfl | he
  · exact List.mem_cons_self
  · obtain ⟨p, hp, hparent, -, hop, hhop, -⟩ := hl.parent e he
    refine List.mem_cons_of_mem _ (List.mem_flatMap.2 ⟨e, he, ?_⟩)
    rw [hl.clausesOf_eq hp hparent]
    refine Element.label_mem_joinClauses fun h => ?_
    rw [h] at hhop
    cases hhop

/-- The labels of a FROM clause start with the lead of its tree. -/
theorem Linked.exists_of_mem_source {l : String} (h : l ∈ t.source.labels) :
    ∃ tail, l = lead ++ "t" ++ tail := by
  have hlabels : ∀ e ∈ t.elements, l ∈ e.labels → ∃ tail, l = lead ++ "t" ++ tail := by
    intro e he hle
    simp only [Element.labels, List.mem_cons, List.not_mem_nil, or_false] at hle
    rcases hle with rfl | rfl
    · exact ⟨_, hl.label_eq he⟩
    · exact ⟨toString e.id ++ "_a", by rw [Element.associationLabel, hl.label_eq he,
        String.append_assoc]⟩
  rw [source_labels] at h
  rcases List.mem_cons.1 h with rfl | h
  · exact hlabels _ List.mem_cons_self List.mem_cons_self
  · obtain ⟨e, he, hle⟩ := List.mem_flatMap.1 h
    exact hlabels e (List.mem_cons_of_mem _ he) (mem_labels_of_clausesOf hle)

end

end JoinTree

/-! ## Numbers of inner queries -/

/-- The lead of an inner query's labels. -/
def innerLead (number : Nat) : String := "s" ++ toString number

theorem innerLead_inj {k m : Nat} {a b : String}
    (h : innerLead k ++ "t" ++ a = innerLead m ++ "t" ++ b) : k = m := by
  have hdigits : ∀ n : Nat, 't' ∉ (toString n).toList := by
    intro n hmem
    rw [Nat.toString_eq_ofList_toDigits, String.toList_ofList] at hmem
    exact absurd (Nat.isDigit_of_mem_toDigits (by decide) (by decide) hmem) (by decide)
  have h := congrArg String.toList h
  simp only [innerLead, String.toList_append, List.append_assoc, List.append_cancel_left_eq] at h
  exact toString_nat_inj (String.toList_injective
    (append_separator_inj (hdigits k) (hdigits m) h).1)

/-- Labels of the inner queries with numbers from `n` up to `m`, every label once. -/
structure Numbered (n m : Nat) (ls : List String) : Prop where
  le : n ≤ m
  nodup : ls.Nodup
  number : ∀ l ∈ ls, ∃ k tail, n ≤ k ∧ k < m ∧ l = innerLead k ++ "t" ++ tail

namespace Numbered

variable {n k m : Nat} {ls ms : List String}

theorem nil (n : Nat) : Numbered n n [] := ⟨Nat.le_refl n, List.nodup_nil, by simp⟩

theorem append (hl : Numbered n k ls) (hm : Numbered k m ms) : Numbered n m (ls ++ ms) where
  le := Nat.le_trans hl.le hm.le
  nodup := by
    refine List.nodup_append.2 ⟨hl.nodup, hm.nodup, ?_⟩
    rintro a ha b hb rfl
    obtain ⟨i, tail, -, hi, rfl⟩ := hl.number a ha
    obtain ⟨j, tail', hj, -, he⟩ := hm.number _ hb
    have := innerLead_inj he
    omega
  number l hmem := by
    have := hl.le
    have := hm.le
    rcases List.mem_append.1 hmem with h | h
    · obtain ⟨i, tail, hi, hi', he⟩ := hl.number l h
      exact ⟨i, tail, hi, by omega, he⟩
    · obtain ⟨i, tail, hi, hi', he⟩ := hm.number l h
      exact ⟨i, tail, by omega, hi', he⟩

/-- The labels of a tree's own tables, under the number that it takes. -/
theorem source {t : JoinTree} (hl : t.Linked (innerLead n)) :
    Numbered n (n + 1) t.source.labels where
  le := Nat.le_succ n
  nodup := hl.source_nodup
  number l h := by
    obtain ⟨tail, rfl⟩ := hl.exists_of_mem_source h
    exact ⟨n, tail, Nat.le_refl n, Nat.lt_succ_self n, rfl⟩

end Numbered

/-! ## What is written -/

/-- Expressions of one selection that are written while the numbers go from `n` to `m`. -/
structure Placed (f : From) (n m : Nat) (es : List Expr) : Prop where
  numbered : Numbered n m (es.flatMap Expr.labels)
  inScope : ∀ e ∈ es, e.Scoped f

namespace Placed

variable {f : From} {n k m : Nat} {es es' : List Expr} {e : Expr}

theorem nil (f : From) (n : Nat) : Placed f n n [] := ⟨.nil n, by simp⟩

theorem append (h : Placed f n k es) (h' : Placed f k m es') : Placed f n m (es ++ es') where
  numbered := by
    rw [List.flatMap_append]
    exact h.numbered.append h'.numbered
  inScope := List.forall_mem_append.2 ⟨h.inScope, h'.inScope⟩

theorem column {ref : ColumnRef} (h : ref.label ∈ f.labels) (n : Nat) :
    Placed f n n [.column ref] where
  numbered := by simpa [Expr.labels] using Numbered.nil n
  inScope := by simpa using Expr.Scoped.column h

theorem param (f : From) (v : Value) (n : Nat) : Placed f n n [.param v] where
  numbered := by simpa [Expr.labels] using Numbered.nil n
  inScope := by simpa using Expr.Scoped.param

theorem parens (h : Placed f n m [e]) : Placed f n m [.parens e] where
  numbered := by simpa [Expr.labels] using h.numbered
  inScope := by simpa using (h.inScope e List.mem_cons_self).parens

theorem apply (op : Op) (h : Placed f n m es) : Placed f n m [.apply op es] where
  numbered := by simpa [Expr.labels, Expr.labelsAll_eq] using h.numbered
  inScope := by simpa using Expr.Scoped.apply h.inScope

/-- A selection inside an expression takes a number before what is written in it. -/
theorem rows {t : JoinTree} (hl : t.Linked (innerLead n)) {s : Select} (hs : s.source = t.source)
    (h : Placed s.source (n + 1) m s.expressions) : Placed f n m [.rows s] where
  numbered := by
    have hlabels : [Expr.rows s].flatMap Expr.labels
        = t.source.labels ++ s.expressions.flatMap Expr.labels := by
      rw [← hs, ← s.labels_eq, List.flatMap_singleton, Expr.labels]
      rfl
    rw [hlabels]
    exact (Numbered.source hl).append h.numbered
  inScope := by
    simpa using Expr.Scoped.rows (hs ▸ hl.source_ordered) h.inScope

end Placed

namespace Emission

variable {α β : Type} {f : From}

theorem run_bind_eq_ok {x : Emission α} {g : α → Emission β} {n m : Nat} {b : β} :
    (x >>= g).run n = .ok (b, m) ↔ ∃ a k, x.run n = .ok (a, k) ∧ (g a).run k = .ok (b, m) := by
  rw [StateT.run_bind, bind_eq_ok_iff]
  constructor
  · rintro ⟨⟨a, k⟩, h, h'⟩
    exact ⟨a, k, h, h'⟩
  · rintro ⟨a, k, h, h'⟩
    exact ⟨⟨a, k⟩, h, h'⟩

/-- What comes out of an emission are expressions of a selection with this FROM clause. -/
def Places (f : From) (exprs : α → List Expr) (x : Emission α) : Prop :=
  ∀ n a m, x.run n = .ok (a, m) → Placed f n m (exprs a)

theorem Places.mapM {exprs : α → List Expr} {g : β → Emission α} : ∀ {bs : List β},
    (∀ b ∈ bs, Places f exprs (g b)) → Places f (·.flatMap exprs) (bs.mapM g)
  | [], _, n, as, m, h => by
    cases h
    exact .nil f n
  | b :: bs, hg, n, as, m, h => by
    rw [List.mapM_cons] at h
    obtain ⟨a, k, hb, h⟩ := run_bind_eq_ok.1 h
    obtain ⟨rest, k', hbs, h⟩ := run_bind_eq_ok.1 h
    cases h
    exact (hg b List.mem_cons_self n a k hb).append
      (Places.mapM (fun c hc => hg c (List.mem_cons_of_mem _ hc)) k rest _ hbs)

end Emission

open Emission (Places run_bind_eq_ok)

/-- A scope of joins, in which calculations are expressions. -/
structure Scope.Sound (s : Scope) : Prop where
  linked : ∃ lead, s.tree.Linked lead
  expand : ∀ path name, Places s.tree.source ([·]) (s.expand path name)

/-- A node is written as an expression of the selection of its scope. -/
def Resolver.Scoped (x : Resolver) : Prop := ∀ s, Scope.Sound s → Places s.tree.source ([·]) (x s)

/-- So are all nodes of a query. -/
structure Clauses.Scoped (c : Clauses) : Prop where
  conditions : ∀ x ∈ c.conditions, Resolver.Scoped x
  groupBys : ∀ x ∈ c.groupBys, Resolver.Scoped x
  having : ∀ x ∈ c.having, Resolver.Scoped x
  orderBys : ∀ x ∈ c.orderBys, Resolver.Scoped x.expr
  calculations : ∀ x ∈ c.calculations, Resolver.Scoped x.2

namespace Node

variable {s : Scope}

theorem found_places (hs : s.Sound) {n : Node} {column : Table → String} :
    Places s.tree.source ([·]) (found s n column) := by
  intro k x m h
  obtain ⟨e, k', he, h⟩ := run_bind_eq_ok.1 h
  cases hf : s.tree.elementFor n with
  | error err => rw [hf] at he; cases he
  | ok e' =>
    rw [hf] at he
    cases he
    cases h
    obtain ⟨lead, hl⟩ := hs.linked
    exact .column (hl.label_mem_source (JoinTree.elementFor_cases hf).1) k

end Node

namespace Clauses

variable {c : Clauses} (hc : c.Scoped) {lead : String} {t : JoinTree} (hl : t.Linked lead)

include hc hl

/-- Every expansion of a calculation is written anew. -/
theorem expand_places : ∀ (fuel : Nat) (path : Path) (name : String),
    Places t.source ([·]) (c.expand t fuel path name)
  | 0, _, _ => fun _ _ _ h => nomatch h
  | fuel + 1, path, name => by
    rw [expand]
    cases hfound : c.calculations.lookup (some path, name) with
    | none => exact fun _ _ _ h => nomatch h
    | some x =>
      obtain ⟨before, after, hsplit, -⟩ := List.lookup_eq_some_iff.1 hfound
      have hmem : ((some path, name), x) ∈ c.calculations := by simp [hsplit]
      exact hc.calculations _ hmem ⟨t, c.expand t fuel⟩ ⟨⟨lead, hl⟩, expand_places fuel⟩

theorem scope_sound : Scope.Sound (c.scope t) := ⟨⟨lead, hl⟩, expand_places hc hl _⟩

theorem item_places {o : Output} (ho : o ∈ t.outputs) :
    Places t.source (fun i => [i.expr]) (item (c.scope t) o) := by
  intro n i m h
  rcases List.mem_append.1 ho with ho | ho
  · obtain ⟨e, he, ho⟩ := List.mem_flatMap.1 ho
    obtain ⟨column, -, rfl⟩ := List.mem_map.1 ho
    cases h
    exact .column (hl.label_mem_source he) n
  · obtain ⟨e, -, ho⟩ := List.mem_flatMap.1 ho
    obtain ⟨calculation, -, rfl⟩ := List.mem_map.1 ho
    obtain ⟨x, k, hx, h⟩ := run_bind_eq_ok.1 h
    cases h
    exact (scope_sound hc hl).expand _ _ n x m hx

theorem resolved_places {xs : List Resolver} (hxs : ∀ x ∈ xs, Resolver.Scoped x) :
    Places t.source (·.flatMap ([·])) (xs.mapM (· (c.scope t))) :=
  .mapM fun x hx => hxs x hx _ (scope_sound hc hl)

theorem sorts_places :
    Places t.source (·.flatMap fun i => [i.expr]) (c.sorts (c.scope t)) := by
  refine .mapM fun x hx => ?_
  intro n i m h
  obtain ⟨e, k, he, h⟩ := run_bind_eq_ok.1 h
  cases h
  exact hc.orderBys x hx _ (scope_sound hc hl) n e m he

/-- A selection is written clause by clause. -/
theorem select_places {q : Query} {n m : Nat} {s : Select}
    (h : (c.select q t).run n = .ok (s, m)) :
    s.source = t.source ∧ Placed s.source n m s.expressions := by
  unfold select at h
  obtain ⟨items, n₁, hitems, h⟩ := run_bind_eq_ok.1 h
  split at h
  · obtain ⟨_, _, h, -⟩ := run_bind_eq_ok.1 h
    cases h
  obtain ⟨conditions, n₂, hconditions, h⟩ := run_bind_eq_ok.1 h
  obtain ⟨groupBys, n₃, hgroupBys, h⟩ := run_bind_eq_ok.1 h
  obtain ⟨having, n₄, hhaving, h⟩ := run_bind_eq_ok.1 h
  obtain ⟨orderBys, n₅, horderBys, h⟩ := run_bind_eq_ok.1 h
  cases h
  have hi := Places.mapM (fun o ho => item_places hc hl ho) n items n₁ hitems
  have hw := resolved_places hc hl hc.conditions n₁ conditions n₂ hconditions
  have hg := resolved_places hc hl hc.groupBys n₂ groupBys n₃ hgroupBys
  have hh := resolved_places hc hl hc.having n₃ having n₄ hhaving
  have ho := sorts_places hc hl n₄ orderBys m horderBys
  have hplaced := (((hi.append hw).append hg).append hh).append ho
  refine ⟨rfl, ?_⟩
  simpa [SelectOf.expressions, ← List.map_eq_flatMap] using hplaced

omit hl in
/-- The selection of an inner query has labels of its own. -/
theorem inner_places {q : Query} {n m : Nat} {s : Select} (h : (c.inner q).run n = .ok (s, m))
    (f : From) : Placed f n m [.rows s] := by
  unfold inner at h
  obtain ⟨number, n₁, hnumber, h⟩ := run_bind_eq_ok.1 h
  cases hnumber
  obtain ⟨_, n₂, hset, h⟩ := run_bind_eq_ok.1 h
  cases hset
  obtain ⟨t, n₃, ht, h⟩ := run_bind_eq_ok.1 h
  cases hcompiled : JoinTree.compile .selected ("s" ++ toString n) q with
  | error err => rw [hcompiled] at ht; cases ht
  | ok t' =>
    rw [hcompiled] at ht
    cases ht
    dsimp only at h
    split at h
    · obtain ⟨_, _, h, -⟩ := run_bind_eq_ok.1 h
      cases h
    have hl := JoinTree.compile_linked hcompiled
    obtain ⟨hsource, hplaced⟩ := select_places hc hl h
    exact .rows hl hsource hplaced

end Clauses

namespace Node

variable {d : Dialect}

theorem clauses_scoped {q : Query} (h : ∀ n ∈ q.nodes, Resolver.Scoped (n.resolver d)) :
    (clauses d q).Scoped := by
  simp only [QueryOf.nodes, List.mem_append, List.mem_map, List.mem_cons, List.mem_flatMap,
    List.not_mem_nil, or_false] at h
  rw [clauses_eq]
  constructor <;> simp only [List.forall_mem_map] <;> grind

theorem counted_cases {op : Op} {args : List Expr} {n m : Nat} {e : Expr}
    (h : (counted d op args).run n = .ok (e, m)) : e = .apply op args ∧ n = m := by
  obtain ⟨_, k, hcount, h⟩ := run_bind_eq_ok.1 h
  cases h
  cases hok : d.checkCount op args.length with
  | error err => rw [hok] at hcount; cases hcount
  | ok _ =>
    rw [hok] at hcount
    cases hcount
    exact ⟨rfl, rfl⟩

theorem operation_scoped {op : Op} {operands : List Node}
    (h : ∀ a ∈ operands, Resolver.Scoped (a.resolver d)) :
    Resolver.Scoped ((operation op operands).resolver d) := by
  intro s hs n e m he
  by_cases hlen : operands.length = 2
  · obtain ⟨a, b, rfl⟩ := List.length_eq_two.1 hlen
    have ha := h a (by simp) s hs
    have hb := h b (by simp) s hs
    rw [resolver] at he
    dsimp only at he
    split at he
    · obtain ⟨x, k, hx, he⟩ := run_bind_eq_ok.1 he
      cases he
      exact (ha n x m hx).apply _
    · obtain ⟨x, k, hx, he⟩ := run_bind_eq_ok.1 he
      cases he
      exact (hb n x m hx).apply _
    · obtain ⟨x, k, hx, he⟩ := run_bind_eq_ok.1 he
      cases he
      exact ((ha n x m hx).append (.param _ _ m)).apply op
    · cases he
    · obtain ⟨x, k, hx, he⟩ := run_bind_eq_ok.1 he
      obtain ⟨y, k', hy, he⟩ := run_bind_eq_ok.1 he
      obtain ⟨rfl, rfl⟩ := counted_cases he
      exact ((ha n x k hx).append (hb k y k' hy)).apply op
  · rw [resolver_operation hlen] at he
    obtain ⟨args, k, hargs, he⟩ := run_bind_eq_ok.1 he
    obtain ⟨rfl, rfl⟩ := counted_cases he
    have hplaced := Places.mapM (List.forall_mem_map.2 fun a ha => h a ha s hs) n args k hargs
    simpa using hplaced.apply op

/-- **Nodes.** A node is written into the selection of its scope, whatever inner queries it brings
along. -/
theorem resolver_scoped (d : Dialect) : ∀ n : Node, Resolver.Scoped (n.resolver d)
  | .column p c => by
    rw [resolver]
    exact fun s hs => found_places hs
  | .calculated p name => by
    rw [resolver]
    intro s hs n e m h
    obtain ⟨a, k, ha, h⟩ := run_bind_eq_ok.1 h
    cases hfound : s.tree.elementFor (.calculated p name) with
    | error err => rw [hfound] at ha; cases ha
    | ok a' =>
      rw [hfound] at ha
      cases ha
      obtain ⟨x, k', hx, h⟩ := run_bind_eq_ok.1 h
      cases h
      exact (hs.expand _ _ n x m hx).parens
  | .value v => by
    rw [resolver]
    intro s hs n e m h
    cases h
    exact .param _ v n
  | .subquery q => by
    rw [resolver]
    intro s hs n e m h
    obtain ⟨inner, k, hinner, h⟩ := run_bind_eq_ok.1 h
    cases h
    have hscoped : (clauses d q).Scoped :=
      clauses_scoped fun a ha => resolver_scoped d a
    exact Clauses.inner_places hscoped hinner _
  | .operation op operands => operation_scoped fun a ha => resolver_scoped d a
  | .table t => by
    rw [resolver]
    exact fun s hs => found_places hs
  | .reference p r t => by
    rw [resolver]
    exact fun s hs => found_places hs
  | .reverse p r t => by
    rw [resolver]
    exact fun s hs => found_places hs
  | .manyMany p r t => by
    rw [resolver]
    exact fun s hs => found_places hs
termination_by n => sizeOf n
decreasing_by
  · have := QueryOf.sizeOf_lt_of_mem_nodes ha
    simp only [Node.subquery.sizeOf_spec]
    omega
  · have := List.sizeOf_lt_of_mem ha
    simp only [Node.operation.sizeOf_spec]
    omega

end Node

/-! ## Whole statements -/

/-- The outermost labels start with no number, and are those of no inner query. -/
theorem Placed.statement {t : JoinTree} (hl : t.Linked "") {s : Select} (hs : s.source = t.source)
    {n m : Nat} (h : Placed s.source n m s.expressions) :
    s.labels.Nodup ∧ s.Scoped ∧ Counting.derivedName ∉ s.labels := by
  have hinner : ∀ l ∈ s.expressions.flatMap Expr.labels, ∃ tail, l = "s" ++ tail := by
    intro l hl
    obtain ⟨k, tail, -, -, rfl⟩ := h.numbered.number l hl
    exact ⟨toString k ++ "t" ++ tail, by simp only [innerLead, String.append_assoc]⟩
  have houter : ∀ l ∈ s.source.labels, ∃ tail, l = "t" ++ tail := by
    intro l hmem
    obtain ⟨tail, rfl⟩ := hl.exists_of_mem_source (hs ▸ hmem)
    exact ⟨tail, by rw [String.empty_append]⟩
  rw [SelectOf.labels_eq, List.nodup_append, List.mem_append, not_or]
  refine ⟨⟨hs ▸ hl.source_nodup, h.numbered.nodup, ?_⟩, ⟨hs ▸ hl.source_ordered, h.inScope⟩, ?_, ?_⟩
  · rintro a ha b hb rfl
    obtain ⟨tail, rfl⟩ := houter a ha
    obtain ⟨tail', he⟩ := hinner _ hb
    have he := congrArg String.toList he
    simp at he
  · intro hmem
    obtain ⟨tail, he⟩ := houter _ hmem
    have he := congrArg String.toList he
    simp [Counting.derivedName] at he
  · intro hmem
    obtain ⟨tail, he⟩ := hinner _ hmem
    have he := congrArg String.toList he
    simp [Counting.derivedName] at he

theorem Emission.run'_eq_ok_iff {α : Type} {x : Emission α} {n : Nat} {a : α} :
    x.run' n = .ok a ↔ ∃ m, x.run n = .ok (a, m) := by
  rw [Emission.run'_eq]
  cases x.run n with
  | error err =>
    constructor
    · intro h
      cases h
    · rintro ⟨m, h⟩
      cases h
  | ok p =>
    constructor
    · intro h
      cases h
      exact ⟨p.2, rfl⟩
    · rintro ⟨m, h⟩
      cases h
      rfl

namespace QueryOf

variable {q : Query} {d : Dialect} {t : JoinTree}

theorem select_placed (hl : t.Linked "") {s : Select} (h : q.select t d = .ok s) :
    s.source = t.source ∧ ∃ m, Placed s.source 0 m s.expressions := by
  obtain ⟨m, h⟩ := Emission.run'_eq_ok_iff.1 h
  have hc : (Node.clauses d q).Scoped := Node.clauses_scoped fun n _ => Node.resolver_scoped d n
  obtain ⟨hs, hplaced⟩ := Clauses.select_places hc hl h
  exact ⟨hs, m, hplaced⟩

theorem counting_placed (hl : t.Linked "") {c : Counting} (h : q.counting t d = .ok c) :
    ∃ s m, (c = .direct s ∨ c = .derived s) ∧ s.source = t.source ∧
      Placed s.source 0 m s.expressions := by
  have hc : (Node.clauses d q).Scoped := Node.clauses_scoped fun n _ => Node.resolver_scoped d n
  have hkey : ∀ n, Placed t.source n n
      [.column ⟨t.root.label, t.root.table.primaryKey.name⟩] :=
    Placed.column (hl.label_mem_source List.mem_cons_self)
  obtain ⟨m, h⟩ := Emission.run'_eq_ok_iff.1 h
  split at h
  · obtain ⟨s, k, hs, h⟩ := run_bind_eq_ok.1 h
    cases h
    obtain ⟨hs, hplaced⟩ := Clauses.select_places hc hl hs
    exact ⟨s, m, .inr rfl, hs, hplaced⟩
  · obtain ⟨conditions, n₁, hconditions, h⟩ := run_bind_eq_ok.1 h
    have hw := Clauses.resolved_places hc hl hc.conditions 0 conditions n₁ hconditions
    split at h
    · obtain ⟨orderBys, n₂, horderBys, h⟩ := run_bind_eq_ok.1 h
      cases h
      have ho := Clauses.sorts_places hc hl n₁ orderBys m horderBys
      refine ⟨_, m, .inr rfl, rfl, ?_⟩
      simpa [SelectOf.expressions, ← List.map_eq_flatMap] using ((hkey 0).append hw).append ho
    · cases h
      refine ⟨_, m, .inl rfl, rfl, ?_⟩
      have hcount : Placed t.source 0 0 [if t.fansOut then
          .apply .countDistinct [.column ⟨t.root.label, t.root.table.primaryKey.name⟩]
          else .apply .countAll []] := by
        split
        · exact (hkey 0).apply _
        · exact (Placed.nil _ 0).apply _
      simpa [SelectOf.expressions, ← List.map_eq_flatMap] using hcount.append hw

/-- **Scoping.** A statement of a query introduces every label once, at any depth; every column of a
selection belongs to a table of that selection's own FROM clause, and every join compares a column
of its own table with one of a table before it. -/
theorem statements_scoped (q : Query) (d : Dialect) :
    (∀ c, q.compile d = .ok c → c.select.labels.Nodup ∧ c.select.Scoped) ∧
      ∀ c, q.compileCount d = .ok c → c.labels.Nodup ∧ c.Scoped := by
  constructor
  · intro c h
    obtain ⟨t, ht, h⟩ := bind_eq_ok_iff.1 h
    obtain ⟨s, hs, h⟩ := bind_eq_ok_iff.1 h
    cases h
    have hl := JoinTree.compile_linked ht
    obtain ⟨hsource, m, hplaced⟩ := select_placed hl hs
    obtain ⟨hnodup, hscoped, -⟩ := hplaced.statement hl hsource
    exact ⟨hnodup, hscoped⟩
  · intro c h
    obtain ⟨t, ht, h⟩ := bind_eq_ok_iff.1 h
    have hl := JoinTree.compile_linked ht
    obtain ⟨s, m, hc, hsource, hplaced⟩ := counting_placed hl h
    obtain ⟨hnodup, hscoped, hname⟩ := hplaced.statement hl hsource
    rcases hc with rfl | rfl
    · exact ⟨hnodup, hscoped⟩
    · exact ⟨List.nodup_cons.2 ⟨hname, hnodup⟩, hscoped⟩

end QueryOf

namespace Library

/-- The authors of books about crimes, who are listed in a calculation, with the tags of all their
books. -/
def listed (s : Schema) : Except Error Query := do
  let authors ← node s []
  let label ← node s [.reverse "books", .manyMany "tags", .column "label"]
  let books ← s.chain "books"
  let writer ← Chain.follow s "books" [.column "author_id"]
  let tag ← Chain.follow s "books" [.manyMany "tags", .column "label"]
  let crimes : Query := { QueryOf.all books.node with
    selects := [writer.node], conditions := [.operation .eq [tag.node, .value (.text "crime")]] }
  .ok { QueryOf.all authors with
    selects := [label], conditions := [.calculated authors "listed"]
    calculations := [⟨authors, "listed", .operation .isIn [authors, .subquery crimes]⟩] }

/-- The labels of the listed authors, and of their count. -/
def listedLabels : Except Error (List String × List String) := do
  let s ← Schema.ofDeclaration declaration
  let q ← listed s
  let c ← q.compile .sqlite
  let n ← q.compileCount .sqlite
  .ok (c.select.labels, n.labels)

/-- The listed authors are selected and are the condition: the books about crimes are written twice,
under numbers of their own. -/
theorem listed_statements : ∃ s q c n, Schema.ofDeclaration declaration = .ok s ∧
    listed s = .ok q ∧ q.compile .sqlite = .ok c ∧ q.compileCount .sqlite = .ok n ∧
      c.select.labels = ["t0", "t1", "t2_a", "t2", "s0t0", "s0t1_a", "s0t1", "s1t0", "s1t1_a",
        "s1t1"] ∧
      n.labels = ["t0", "t1", "t2_a", "t2", "s0t0", "s0t1_a", "s0t1"] ∧
      (c.select.labels.Nodup ∧ c.select.Scoped) ∧ n.labels.Nodup ∧ n.Scoped := by
  have hlabels : listedLabels = .ok (["t0", "t1", "t2_a", "t2", "s0t0", "s0t1_a", "s0t1", "s1t0",
      "s1t1_a", "s1t1"], ["t0", "t1", "t2_a", "t2", "s0t0", "s0t1_a", "s0t1"]) := by cbv
  obtain ⟨s, hs, h⟩ := bind_eq_ok_iff.1 hlabels
  obtain ⟨q, hq, h⟩ := bind_eq_ok_iff.1 h
  obtain ⟨c, hc, h⟩ := bind_eq_ok_iff.1 h
  obtain ⟨n, hn, h⟩ := bind_eq_ok_iff.1 h
  obtain ⟨hselect, hcount⟩ := Prod.mk.inj (Except.ok.inj h)
  exact ⟨s, q, c, n, hs, hq, hc, hn, hselect, hcount,
    (QueryOf.statements_scoped q .sqlite).1 c hc, (QueryOf.statements_scoped q .sqlite).2 n hn⟩

end Library

end RecordGraph
