import RecordGraph.Proofs.Node.Inner
import RecordGraph.Proofs.Query.Expanded
import RecordGraph.Proofs.Sql.Operands

/-!
# Operand counts of what is emitted

An expression that is emitted holds no operation with a count of operands that its operator does not
take, and its text holds every operand; what is left out or replaced is said by `Op.Keeps`. The one
operator that a dialect writes whatever its operands are is SQLite's current time.

**Results.**
* `Node.operation_fails_of_count`: an operation with a count that the dialect does not let pass is
  not emitted.
* `QueryOf.Reaches.takes`: nor is anything that it stands in, or that refers to it by a calculation.
* `Node.InFull.of_gives`: the operands in the text, at any depth.
* `Node.resolver_dialect`: dialects that let the same counts pass emit the same.
* `QueryOf.operands_counted`: all of it, for an expression of a query that compiles.
-/
namespace RecordGraph

open Emission (Fails)

namespace Emission

variable {α β : Type}

/-- A result that an emission comes to, at some number of the next inner query. -/
def Gives (x : Emission α) (a : α) : Prop := ∃ k k', x.run k = .ok (a, k')

theorem Gives.not_fails {x : Emission α} {a : α} (h : x.Gives a) : ¬x.Fails := by
  intro hfails
  obtain ⟨k, k', h⟩ := h
  obtain ⟨err, herr⟩ := hfails k
  rw [h] at herr
  cases herr

/-- What gives no result fails. -/
theorem Fails.of_gives {x : Emission α} (h : ∀ a, ¬x.Gives a) : x.Fails := by
  intro k
  cases hx : x.run k with
  | ok p => exact absurd ⟨k, p.2, hx⟩ (h p.1)
  | error err => exact ⟨err, rfl⟩

/-- What follows matters only for the results that there are. -/
theorem bind_congr_of_gives {x : Emission α} {f g : α → Emission β}
    (h : ∀ a, x.Gives a → f a = g a) : (x >>= f) = x >>= g := by
  funext k
  show (x >>= f).run k = (x >>= g).run k
  rw [StateT.run_bind, StateT.run_bind]
  cases hx : x.run k with
  | ok p => exact congrFun (h p.1 ⟨k, p.2, hx⟩) p.2
  | error err => rfl

theorem gives_pure (a : α) : (pure a : Emission α).Gives a := ⟨0, 0, rfl⟩

theorem Gives.of_pure {a b : α} (h : (pure a : Emission α).Gives b) : b = a := by
  obtain ⟨k, k', h⟩ := h
  cases h
  rfl

theorem Gives.of_bind {x : Emission α} {f : α → Emission β} {b : β} (h : (x >>= f).Gives b) :
    ∃ a, x.Gives a ∧ (f a).Gives b := by
  obtain ⟨k, k', h⟩ := h
  rw [StateT.run_bind] at h
  obtain ⟨⟨a, k₁⟩, ha, hb⟩ := bind_eq_ok_iff.1 h
  exact ⟨a, ⟨k, k₁, ha⟩, k₁, k', hb⟩

theorem Gives.of_lift_bind {x : Except Error α} {f : α → Emission β} {b : β}
    (h : (liftM x >>= f).Gives b) : ∃ a, x = .ok a ∧ (f a).Gives b := by
  cases x with
  | ok a => exact ⟨a, rfl, h⟩
  | error err =>
    obtain ⟨k, k', h⟩ := h
    cases h

theorem Gives.of_mapM {f : α → Emission β} : ∀ {as : List α} {bs : List β},
    (as.mapM f).Gives bs → List.Forall₂ (fun a b => (f a).Gives b) as bs
  | [], bs, h => by
    rw [List.mapM_nil] at h
    rw [h.of_pure]
    exact .nil
  | a :: as, bs, h => by
    rw [List.mapM_cons] at h
    obtain ⟨b, hb, h⟩ := h.of_bind
    obtain ⟨bs', hbs, h⟩ := h.of_bind
    rw [h.of_pure]
    exact .cons hb (of_mapM hbs)

end Emission

/-! ## What becomes of two operands -/

namespace PairForm

theorem nullTest?_cases {op test : Op} (h : nullTest? op = some test) :
    op = .eq ∧ test = .isNull ∨ op = .ne ∧ test = .isNotNull := by
  cases op with
  | eq => exact .inl ⟨rfl, (Option.some_inj.1 h).symm⟩
  | ne => exact .inr ⟨rfl, (Option.some_inj.1 h).symm⟩
  | _ => cases h

theorem searches_of_patternOf? {op : Op} {text pattern : String}
    (h : patternOf? op text = some pattern) :
    op = .startsWith ∨ op = .endsWith ∨ op = .contains := by
  cases op with
  | startsWith => exact .inl rfl
  | endsWith => exact .inr (.inl rfl)
  | contains => exact .inr (.inr rfl)
  | _ => cases h

/-- A null test, a pattern, an error, or both operands. -/
theorem of_cases (op : Op) (a b : Node) :
    (∃ test ofFirst, of op a b = .nullTest test ofFirst ∧ nullTest? op = some test ∧
        (if ofFirst then b else a).isNullValue = true) ∨
      (∃ text pattern, of op a b = .pattern pattern ∧ b = .value (.text text) ∧
        patternOf? op text = some pattern) ∨
      of op a b = .needsText ∨ of op a b = .plain := by
  unfold of
  split
  · rename_i test htest hb
    exact .inl ⟨test, true, rfl, htest, hb⟩
  · rename_i test htest _ ha
    exact .inl ⟨test, false, rfl, htest, ha⟩
  · right
    split
    · split
      · rename_i text _ _ _ pattern hpattern
        exact .inl ⟨text, pattern, rfl, rfl, hpattern⟩
      · exact .inr (.inr rfl)
    · split
      · exact .inr (.inl rfl)
      · exact .inr (.inr rfl)

end PairForm

/-- The operands that an operation keeps: all of them, but for null beside a comparison, the subject
of an empty list, and what SQLite's current time is given; a searched text becomes a pattern. -/
inductive Op.Keeps (d : Dialect) : Op → List Node → List Node → Prop where
  | all (op : Op) (operands : List Node) : Keeps d op operands operands
  | null {op : Op} {a b c : Node} (hop : op = .eq ∨ op = .ne)
    (hnull : b.isNullValue = true ∧ c = a ∨ a.isNullValue = true ∧ c = b) : Keeps d op [a, b] [c]
  | subject {op : Op} (hop : op = .isIn ∨ op = .notIn) (a : Node) : Keeps d op [a] []
  | pattern {op : Op} {text pattern : String} (h : PairForm.patternOf? op text = some pattern)
    (a : Node) : Keeps d op [a, .value (.text text)] [a, .value (.text pattern)]
  | clock {op : Op} (h : d.IgnoresOperands op) (operands : List Node) : Keeps d op operands []

/-! ## Operations -/

namespace Node

variable {d : Dialect} {s : Scope} {op : Op} {operands : List Node} {es : List Expr} {e : Expr}

/-- What is emitted of an operation: of the operands that are kept, one after the other. -/
structure Applies (d : Dialect) (s : Scope) (op : Op) (operands : List Node) (e : Expr)
    (kept : List Node) (es : List Expr) : Prop where
  takes : op.takes operands.length = true ∨ d.IgnoresOperands op
  keeps : op.Keeps d operands kept
  gives : List.Forall₂ (fun n x => (n.resolver d s).Gives x) kept es
  inOrder : Sql.InOrder (es.map (Expr.sql d)) (e.sql d)

/-- All operands are resolved, and counted. -/
theorem exists_applies_of_counted
    (hes : List.Forall₂ (fun n x => (n.resolver d s).Gives x) operands es)
    (h : (counted d op es).Gives e) : ∃ kept es, Applies d s op operands e kept es := by
  obtain ⟨_, hcount, h⟩ := Emission.Gives.of_lift_bind h
  obtain rfl := h.of_pure
  have hcount : d.takes op es.length = true := by
    by_contra hfalse
    rw [Dialect.checkCount, if_neg hfalse] at hcount
    cases hcount
  rw [Dialect.takes_iff, ← hes.length_eq] at hcount
  by_cases hignores : d.IgnoresOperands op
  · exact ⟨[], [], hcount, .clock hignores operands, .nil, .nil _⟩
  have htakes := hcount.resolve_right hignores
  by_cases hdrops : op.DropsSubject operands.length
  · obtain ⟨hop, hlen⟩ := hdrops
    obtain ⟨a, rfl⟩ := List.length_eq_one_iff.1 hlen
    exact ⟨[], [], .inl htakes, .subject hop a, .nil, .nil _⟩
  · refine ⟨operands, es, .inl htakes, .all op operands, hes, Expr.inOrder_apply d ?_ ?_⟩
    · rwa [← hes.length_eq]
    · rwa [← hes.length_eq]

/-- A comparison with null keeps the other operand. -/
theorem exists_applies_of_null {a b c : Node} {test : Op}
    (hnull : b.isNullValue = true ∧ c = a ∨ a.isNullValue = true ∧ c = b)
    (htest : PairForm.nullTest? op = some test)
    (h : (c.resolver d s >>= fun x => pure (Expr.apply test [x])).Gives e) :
    ∃ kept es, Applies d s op [a, b] e kept es := by
  obtain ⟨x, hx, h⟩ := h.of_bind
  obtain rfl := h.of_pure
  refine ⟨[c], [x], ?_, ?_, .cons hx .nil, ?_⟩
  all_goals rcases PairForm.nullTest?_cases htest with ⟨rfl, rfl⟩ | ⟨rfl, rfl⟩
  · exact .inl rfl
  · exact .inl rfl
  · exact .null (.inl rfl) hnull
  · exact .null (.inr rfl) hnull
  all_goals
    refine Expr.inOrder_apply d rfl ?_
    rintro ⟨hop, -⟩
    rcases hop with hop | hop <;> cases hop

/-- **Operations.** What is emitted of an operation holds its operands. -/
theorem exists_applies (h : ((operation op operands).resolver d s).Gives e) :
    ∃ kept es, Applies d s op operands e kept es := by
  by_cases hlen : operands.length = 2
  · obtain ⟨a, b, rfl⟩ := List.length_eq_two.1 hlen
    rw [resolver] at h
    dsimp only at h
    rcases PairForm.of_cases op a b with ⟨test, ofFirst, hform, htest, hnull⟩ |
      ⟨text, pattern, hform, rfl, hpattern⟩ | hform | hform
    · rw [hform] at h
      cases ofFirst with
      | true => exact exists_applies_of_null (.inl ⟨hnull, rfl⟩) htest h
      | false => exact exists_applies_of_null (.inr ⟨hnull, rfl⟩) htest h
    · rw [hform] at h
      obtain ⟨x, hx, h⟩ := h.of_bind
      obtain rfl := h.of_pure
      have htakes : op.takes 2 = true := by
        rcases PairForm.searches_of_patternOf? hpattern with rfl | rfl | rfl <;> rfl
      have hvalue : ((value (.text pattern)).resolver d s).Gives (.param (.text pattern)) := by
        rw [resolver]
        exact Emission.gives_pure _
      refine ⟨_, [x, .param (.text pattern)], .inl htakes, .pattern hpattern a,
        .cons hx (.cons hvalue .nil), Expr.inOrder_apply d htakes ?_⟩
      rintro ⟨-, hcount⟩
      cases hcount
    · rw [hform] at h
      exact absurd (.throw _) h.not_fails
    · rw [hform] at h
      obtain ⟨x, hx, h⟩ := h.of_bind
      obtain ⟨y, hy, h⟩ := h.of_bind
      exact exists_applies_of_counted (.cons hx (.cons hy .nil)) h
  · rw [resolver_operation hlen] at h
    obtain ⟨es, hes, h⟩ := h.of_bind
    have hes := hes.of_mapM
    rw [List.forall₂_map_left_iff] at hes
    exact exists_applies_of_counted hes h

/-- An operation with a count that the dialect does not let pass comes to no result. -/
theorem operation_fails_of_count (h : d.takes op operands.length = false) :
    Fails ((operation op operands).resolver d s) := by
  refine .of_gives fun e he => ?_
  obtain ⟨kept, es, happlies⟩ := exists_applies he
  rw [Dialect.takes_iff.2 happlies.takes] at h
  cases h

theorem Within.fails {n m : Node} (hw : m.Within n) (h : Fails (m.resolver d s)) :
    Fails (n.resolver d s) := by
  induction hw with
  | self => exact h
  | operand hmem _ ih => exact operation_fails hmem ih

end Node

/-! ## Calculations -/

/-- A node stands in an expression, or in that of a calculation that the expression refers to. -/
inductive QueryOf.Reaches (q : Query) : Node → Node → Prop where
  | within {n m : Node} : m.Within n → Reaches q n m
  | calculation {n m p : Node} {path : Path} {k : Calculation Node} :
    (Node.calculated p k.name).Within n → p.path? = some path → k ∈ q.calculations →
      k.target.path? = some path → Reaches q k.expression m → Reaches q n m

/-- What comes to no result in any scope lets nothing come to one that reaches it. -/
theorem QueryOf.Reaches.fails {q : Query} {n m : Node} (hr : q.Reaches n m)
    {projection : Projection} {lead : String} {t : JoinTree} {d : Dialect}
    (ht : JoinTree.compile projection lead q = .ok t) (hm : ∀ s, Fails (m.resolver d s)) :
    ∀ depth, Fails (n.resolver d ⟨t, (Node.clauses d q).expand t depth⟩) := by
  induction hr with
  | within hw => exact fun depth => hw.fails (hm _)
  | @calculation n m p path k hw hp hk htarget _ ih =>
    intro depth
    refine Node.resolver_fails hw fun path' hp' => ?_
    obtain rfl : path = path' := Option.some_inj.1 (hp.symm.trans hp')
    cases depth with
    | zero => exact .throw _
    | succ depth =>
      obtain ⟨k', hk', htarget', hname, hlookup⟩ :=
        Node.lookup_calculations (d := d) ⟨k, hk, htarget, rfl⟩
      rw [← QueryOf.expression_eq ht hk hk' htarget htarget' hname.symm] at hlookup
      show Fails ((Node.clauses d q).expand t (depth + 1) path k.name)
      rw [Clauses.expand, hlookup]
      exact ih hm depth

/-! ## Texts -/

/-- A text that holds a node in full: a column or the key of a table under a label, an argument, the
rows of an inner query, the expression of a calculation, or the operands that an operation keeps. -/
inductive Node.InFull (d : Dialect) (q : Query) (t : JoinTree) : Node → Sql → Prop where
  | column {p : Node} {c : Column} {e : Element} (he : t.elementFor (.column p c) = .ok e) :
    InFull d q t (.column p c) (Sql.qualified e.label c.name)
  | key {n : Node} {e : Element} (hn : n.isTableLike = true) (he : t.elementFor n = .ok e) :
    InFull d q t n (Sql.qualified e.label e.table.primaryKey.name)
  | value (v : Value) : InFull d q t (.value v) (Sql.param v)
  | subquery (inner : Query) (s : Select) : InFull d q t (.subquery inner) (s.sql d).parens
  | calculated {p : Node} {e : Element} {k : Calculation Node} {text : Sql}
    (he : t.elementFor (.calculated p k.name) = .ok e) (hk : k ∈ q.calculations)
    (htarget : k.target.path? = some e.path) (h : InFull d q t k.expression text) :
    InFull d q t (.calculated p k.name) text.parens
  | operation {op : Op} {operands kept : List Node} {pieces : List Sql} {text : Sql}
    (hkeeps : op.Keeps d operands kept) (h : List.Forall₂ (InFull d q t) kept pieces)
    (horder : Sql.InOrder pieces text) : InFull d q t (.operation op operands) text

section

variable {d : Dialect} {q : Query} {t : JoinTree}

/-- What is found for a column or for the rows of a node. -/
theorem Node.exists_element_of_found {n : Node} {column : Table → String} {s : Scope} {x : Expr}
    (h : (Node.found s n column).Gives x) :
    ∃ e, s.tree.elementFor n = .ok e ∧ x = .column ⟨e.label, column e.table⟩ := by
  obtain ⟨e, he, h⟩ := Emission.Gives.of_lift_bind h
  exact ⟨e, he, h.of_pure⟩

theorem Node.InFull.of_gives_value {v : Value} {s : Scope} {x : Expr}
    (h : ((Node.value v).resolver d s).Gives x) : (Node.value v).InFull d q t (x.sql d) := by
  rw [Node.resolver] at h
  obtain rfl := h.of_pure
  rw [Expr.sql]
  exact .value v

/-- What an operation keeps is in full where its operands are. -/
theorem Op.Keeps.inFull {op : Op} {operands kept : List Node} (hkeeps : op.Keeps d operands kept)
    {s : Scope} {es : List Expr} (hes : List.Forall₂ (fun n x => (n.resolver d s).Gives x) kept es)
    (h : ∀ n ∈ operands, ∀ x, (n.resolver d s).Gives x → n.InFull d q t (x.sql d)) :
    List.Forall₂ (Node.InFull d q t) kept (es.map (Expr.sql d)) := by
  have hfull : ∀ n ∈ kept, ∀ x, (n.resolver d s).Gives x → n.InFull d q t (x.sql d) := by
    intro n hn
    cases hkeeps with
    | all => exact h n hn
    | null _ hnull =>
      obtain rfl := List.mem_singleton.1 hn
      rcases hnull with ⟨-, rfl⟩ | ⟨-, rfl⟩
      · exact h _ List.mem_cons_self
      · exact h _ (List.mem_cons_of_mem _ List.mem_cons_self)
    | subject | clock => cases hn
    | pattern _ a =>
      rcases List.mem_cons.1 hn with rfl | hn
      · exact h _ List.mem_cons_self
      · obtain rfl := List.mem_singleton.1 hn
        exact fun x hx => .of_gives_value hx
  rw [List.forall₂_map_right_iff]
  exact ((List.forall₂_and_left _ _).2 ⟨hfull, hes⟩).imp fun n x h => h.1 x h.2

/-- Where calculations are in full, so is a node that refers to them. -/
theorem Node.InFull.of_gives {expand : Path → String → Emission Expr}
    (hexpand : ∀ path name x, (expand path name).Gives x → ∃ k ∈ q.calculations,
      k.target.path? = some path ∧ k.name = name ∧ k.expression.InFull d q t (x.sql d)) (n : Node) :
    ∀ x, (n.resolver d ⟨t, expand⟩).Gives x → n.InFull d q t (x.sql d) := by
  induction n using Node.inner_induction with
  | step n ih =>
    intro x h
    cases n with
    | column p c =>
      rw [Node.resolver] at h
      obtain ⟨e, he, rfl⟩ := Node.exists_element_of_found h
      rw [Expr.sql]
      exact .column he
    | calculated p name =>
      rw [Node.resolver] at h
      obtain ⟨e, he, h⟩ := Emission.Gives.of_lift_bind h
      obtain ⟨y, hy, h⟩ := h.of_bind
      obtain rfl := h.of_pure
      obtain ⟨k, hk, htarget, rfl, hfull⟩ := hexpand _ _ _ hy
      rw [Expr.sql]
      exact .calculated he hk htarget hfull
    | value v => exact .of_gives_value h
    | subquery inner =>
      rw [Node.resolver] at h
      obtain ⟨select, -, h⟩ := h.of_bind
      obtain rfl := h.of_pure
      rw [Expr.sql]
      exact .subquery inner select
    | operation op operands =>
      obtain ⟨kept, es, happlies⟩ := Node.exists_applies h
      exact .operation happlies.keeps (happlies.keeps.inFull happlies.gives ih) happlies.inOrder
    | table _ | reference _ _ _ | reverse _ _ _ | manyMany _ _ _ =>
      rw [Node.resolver] at h
      obtain ⟨e, he, rfl⟩ := Node.exists_element_of_found h
      rw [Expr.sql]
      exact .key rfl he

/-- A calculation is expanded in full, whatever depth is left. -/
theorem Clauses.exists_inFull_of_gives : ∀ (depth : Nat) (path : Path) (name : String) (x : Expr),
    ((Node.clauses d q).expand t depth path name).Gives x → ∃ k ∈ q.calculations,
      k.target.path? = some path ∧ k.name = name ∧ k.expression.InFull d q t (x.sql d)
  | 0, _, _, _, h => absurd (.throw _) h.not_fails
  | depth + 1, path, name, x, h => by
    rw [Clauses.expand] at h
    cases hlookup : (Node.clauses d q).calculations.lookup (some path, name) with
    | none =>
      rw [hlookup] at h
      exact absurd (.throw _) h.not_fails
    | some resolve =>
      rw [hlookup] at h
      obtain ⟨k, hk, htarget, hname, hfound⟩ : ∃ k ∈ q.calculations,
          k.target.path? = some path ∧ k.name = name ∧ k.expression.resolver d = resolve := by
        obtain ⟨before, after, heq, -⟩ := List.lookup_eq_some_iff.1 hlookup
        have hmem : ((some path, name), resolve) ∈ (Node.clauses d q).calculations := by
          rw [heq]
          exact List.mem_append_right _ List.mem_cons_self
        rw [Node.clauses_calculations] at hmem
        obtain ⟨k, hk, hpair⟩ := List.mem_map.1 hmem
        obtain ⟨hkey, hfound⟩ := Prod.mk.inj hpair
        obtain ⟨htarget, hname⟩ := Prod.mk.inj hkey
        exact ⟨k, hk, htarget, hname, hfound⟩
      subst hfound
      exact ⟨k, hk, htarget, hname,
        .of_gives (Clauses.exists_inFull_of_gives depth) k.expression x h⟩

end

/-! ## Dialects -/

/-- A node is another one, or stands anywhere in it, in a query inside it too. -/
inductive Node.Inside (n : Node) : Node → Prop where
  | self : Inside n n
  | inner {p m : Node} : p ∈ m.inner → Inside n p → Inside n m

section

variable {d d' : Dialect}

theorem Node.clauses_dialect {q : Query} (h : ∀ n ∈ q.nodes, n.resolver d = n.resolver d') :
    clauses d q = clauses d' q := by
  obtain ⟨-, hgroupBys, -, hconditions, horderBys, hhaving, hcalculations⟩ :=
    QueryOf.forall_mem_nodes.1 h
  have hsorts : ∀ sort ∈ q.orderBys, (⟨sort.node.resolver d, sort.descending⟩ : SortItem Resolver) =
      ⟨sort.node.resolver d', sort.descending⟩ := fun sort hsort => by rw [horderBys sort hsort]
  have hexpressions : ∀ k ∈ q.calculations, ((k.target.path?, k.name), k.expression.resolver d) =
      ((k.target.path?, k.name), k.expression.resolver d') := fun k hk => by
    rw [(hcalculations k hk).2]
  rw [clauses_eq, clauses_eq, List.map_congr_left hconditions, List.map_congr_left hgroupBys,
    List.map_congr_left hhaving, List.map_congr_left hsorts, List.map_congr_left hexpressions]

/-- Dialects that let the same counts pass emit the same. -/
theorem Node.resolver_dialect (n : Node) (h : ∀ op operands, (operation op operands).Inside n →
    d.takes op operands.length = d'.takes op operands.length) : n.resolver d = n.resolver d' := by
  induction n using Node.inner_induction with
  | step n ih =>
    have hinner : ∀ p ∈ n.inner, p.resolver d = p.resolver d' := fun p hp =>
      ih p hp fun op operands hinside => h op operands (.inner hp hinside)
    cases n with
    | operation op operands =>
      have hcounted : ∀ es : List Expr, es.length = operands.length →
          counted d op es = counted d' op es := by
        intro es hes
        rw [counted, counted, Dialect.checkCount, Dialect.checkCount, hes, h op operands .self]
      by_cases hlen : operands.length = 2
      · obtain ⟨a, b, rfl⟩ := List.length_eq_two.1 hlen
        have ha := hinner a (by simp [inner])
        have hb := hinner b (by simp [inner])
        funext s
        rw [resolver, resolver]
        dsimp only
        have hpair : ∀ x y, counted d op [x, y] = counted d' op [x, y] := fun x y =>
          hcounted [x, y] rfl
        simp only [ha, hb, hpair]
      · funext s
        have hall : operands.map (resolver d) = operands.map (resolver d') :=
          List.map_congr_left hinner
        rw [resolver_operation hlen, resolver_operation hlen, hall]
        refine Emission.bind_congr_of_gives fun es hes => hcounted es ?_
        rw [← hes.of_mapM.length_eq, List.length_map]
    | subquery q => rw [resolver, resolver, clauses_dialect hinner]
    | _ => rw [resolver, resolver]

/-- All dialects let the same counts pass, but for SQLite's current time. -/
theorem Dialect.takes_eq {op : Op} {count : Nat}
    (h : op = .now → count ≠ 0 → d ≠ .sqlite ∧ d' ≠ .sqlite) :
    d.takes op count = d'.takes op count := by
  rw [Bool.eq_iff_iff, takes_iff, takes_iff]
  by_cases hclock : op = .now ∧ count = 0
  · obtain ⟨rfl, rfl⟩ := hclock
    exact iff_of_true (.inl rfl) (.inl rfl)
  · have hnone : ¬d.IgnoresOperands op ∧ ¬d'.IgnoresOperands op := by
      by_cases hnow : op = .now
      · obtain ⟨hd, hd'⟩ := h hnow fun hcount => hclock ⟨hnow, hcount⟩
        exact ⟨fun hi => hd hi.1, fun hi => hd' hi.1⟩
      · exact ⟨fun hi => hnow hi.2, fun hi => hnow hi.2⟩
    rw [or_iff_left hnone.1, or_iff_left hnone.2]

end

namespace QueryOf

/-- **Operand counts.** An expression that is emitted holds no operation with a count that its
operator does not take, at any depth and in the calculations that it refers to, and its text holds
it in full. Dialects emit the same and refuse the same. Only operands of the current time are
neither counted nor written by SQLite. -/
theorem operands_counted {projection : Projection} {lead : String} {q : Query} {t : JoinTree}
    (ht : JoinTree.compile projection lead q = .ok t) (d : Dialect) (n : Node) :
    (∀ k k' x, (n.resolver d ((Node.clauses d q).scope t)).run k = .ok (x, k') →
      (∀ op operands, q.Reaches n (.operation op operands) →
        op.takes operands.length = true ∨ d = .sqlite ∧ op = .now) ∧
      n.InFull d q t (x.sql d)) ∧
    ∀ d', (∀ m ∈ n :: q.nodes, ∀ operands, (Node.operation .now operands).Inside m →
        operands ≠ [] → d ≠ .sqlite ∧ d' ≠ .sqlite) →
      n.resolver d ((Node.clauses d q).scope t) = n.resolver d' ((Node.clauses d' q).scope t) := by
  constructor
  · intro k k' x h
    have hgives : (n.resolver d ((Node.clauses d q).scope t)).Gives x := ⟨k, k', h⟩
    constructor
    · intro op operands hreaches
      by_contra hcount
      have hrefused : d.takes op operands.length = false :=
        Bool.eq_false_iff.2 fun htakes => hcount (Dialect.takes_iff.1 htakes)
      exact hgives.not_fails
        (hreaches.fails ht (fun _ => Node.operation_fails_of_count hrefused) _)
    · exact .of_gives (Clauses.exists_inFull_of_gives _) n x hgives
  · intro d' hclock
    have hresolver : ∀ m ∈ n :: q.nodes, m.resolver d = m.resolver d' := fun m hm =>
      m.resolver_dialect fun op operands hinside => Dialect.takes_eq fun hop hcount => by
        subst hop
        exact hclock m hm operands hinside fun hnil => hcount (by rw [hnil, List.length_nil])
    rw [hresolver n List.mem_cons_self,
      Node.clauses_dialect fun m hm => hresolver m (List.mem_cons_of_mem _ hm)]

end QueryOf

/-! ## The library -/

namespace Library

/-- The condition on the authors with more than two rows. -/
def prolificCondition (authors : Node) : Node :=
  .operation .gt [.calculated authors "double", .value (.int 2)]

/-- What SQLite gets of it. -/
def prolificEmission : Except Error ((Node × Node × JoinTree) × Expr × Nat) := do
  let (authors, tags, t) ← prolificTree
  let x ← ((prolificCondition authors).resolver .sqlite
    ((Node.clauses .sqlite (prolific authors)).scope t)).run 0
  .ok ((authors, tags, t), x)

theorem prolificTree_cases {authors tags : Node} {t : JoinTree}
    (h : prolificTree = .ok (authors, tags, t)) :
    JoinTree.compile .objects "" (prolific authors) = .ok t := by
  obtain ⟨s, -, h⟩ := bind_eq_ok_iff.1 h
  obtain ⟨a, -, h⟩ := bind_eq_ok_iff.1 h
  obtain ⟨b, -, h⟩ := bind_eq_ok_iff.1 h
  obtain ⟨t', ht, h⟩ := bind_eq_ok_iff.1 h
  obtain ⟨rfl, -, rfl⟩ : a.node = authors ∧ b.node = tags ∧ t' = t := by simpa using h
  exact ht

/-- The condition is emitted, and so the sum in its calculation has two operands. -/
theorem prolific_counted : ∃ authors t x k',
    JoinTree.compile .objects "" (prolific authors) = .ok t ∧
    ((prolificCondition authors).resolver .sqlite
      ((Node.clauses .sqlite (prolific authors)).scope t)).run 0 = .ok (x, k') ∧
    (∀ op operands, (prolific authors).Reaches (prolificCondition authors)
        (.operation op operands) →
      op.takes operands.length = true ∨ Dialect.sqlite = .sqlite ∧ op = .now) ∧
    (prolificCondition authors).InFull .sqlite (prolific authors) t (x.sql .sqlite) := by
  obtain ⟨⟨⟨authors, tags, t⟩, x, k'⟩, h⟩ :=
    exists_ok_of_isOk (by decide +kernel : prolificEmission.isOk = true)
  obtain ⟨⟨authors', tags', t'⟩, htree, h⟩ := bind_eq_ok_iff.1 h
  obtain ⟨p, hx, h⟩ := bind_eq_ok_iff.1 h
  cases h
  have ht := prolificTree_cases htree
  obtain ⟨hcounts, hfull⟩ :=
    (QueryOf.operands_counted ht .sqlite (prolificCondition authors)).1 0 k' x hx
  exact ⟨authors, t, x, k', ht, hx, hcounts, hfull⟩

/-- The current time with an operand is emitted for SQLite without it, and refused by all other
dialects, in a query that compiles. -/
theorem clock_operand_ignored : ∃ authors t,
    JoinTree.compile .objects "" (prolific authors) = .ok t ∧ Op.now.takes 1 = false ∧
    (let n := Node.operation .now [.value (.int 1)]
    (n.resolver .sqlite ((Node.clauses .sqlite (prolific authors)).scope t)).run 0 =
        .ok (.apply .now [.param (.int 1)], 0) ∧
      ((Expr.apply .now [.param (.int 1)]).sql .sqlite).params = [] ∧
      ∀ d, d ≠ .sqlite → (n.resolver d ((Node.clauses d (prolific authors)).scope t)).run 0 =
        .error (.invalidQuery (.operandCount .now 1))) := by
  obtain ⟨authors, tags, t, h, -⟩ := exists_prolificTree
  refine ⟨_, t, prolificTree_cases h, rfl, ?_, by decide, fun d hd => ?_⟩
  · rw [Node.resolver_operation (by decide)]
    rfl
  · rw [Node.resolver_operation (by decide)]
    cases d with
    | sqlite => exact absurd rfl hd
    | postgresql | mysql | ansi => rfl

end Library

end RecordGraph
