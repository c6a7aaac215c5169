import Mathlib
import RecordGraph.Proofs.JoinTree.Outline
import RecordGraph.Proofs.Node.Over
import RecordGraph.Proofs.Query.Resolvers
import RecordGraph.Proofs.Sql.Parameters
import RecordGraph.Query.Run

/-!
# Values never become text

Whatever the values of a query are, its statement has the same text: two queries of the same shape
are resolved node by node in the same way, and differ in the arguments only. Where a text is
searched for, its argument is a pattern made from it.

**Results.**
* `Emission.Agree`: two emissions that agree, at every number of the next inner query.
* `Node.resolver_alike`: corresponding nodes are written alike, in scopes that are alike.
* `Clauses.select_agree`, `Clauses.inner_agree`: so are the selections of corresponding queries.
* `QueryOf.values_stay_arguments`: the statements of two queries of the same shape.
-/
namespace RecordGraph

open Node (Parallel)

variable {R W : Value → Value → Prop} {d : Dialect}

/-! ## Emissions that agree -/

namespace Emission

variable {α β α' β' : Type} {S : α → β → Prop} {S' : α' → β' → Prop}

/-- At every number, both emissions end in an error, or in related results and at one number. -/
def Agree (S : α → β → Prop) (x : Emission α) (y : Emission β) : Prop :=
  ∀ n, RecordGraph.Agree (fun p p' => S p.1 p'.1 ∧ p.2 = p'.2) (x.run n) (y.run n)

namespace Agree

theorem pure {a : α} {b : β} (h : S a b) : Agree S (pure a) (pure b) := fun _ => .ok ⟨h, rfl⟩

theorem throw (e e' : Error) : Agree S (throw e : Emission α) (throw e' : Emission β) :=
  fun _ => .error e e'

theorem lift {x : Except Error α} {y : Except Error β} (h : RecordGraph.Agree S x y) :
    Agree S (liftM x : Emission α) (liftM y : Emission β) := by
  intro n
  cases h with
  | ok h => exact .ok ⟨h, rfl⟩
  | error e e' => exact .error e e'

theorem get : Agree Eq (get : Emission Nat) (MonadState.get : Emission Nat) :=
  fun _ => .ok ⟨rfl, rfl⟩

theorem set (n : Nat) : Agree Eq (set n : Emission Unit) (MonadStateOf.set n : Emission Unit) :=
  fun _ => .ok ⟨rfl, rfl⟩

theorem bind {x : Emission α} {y : Emission β} {f : α → Emission α'} {g : β → Emission β'}
    (hx : Agree S x y) (hf : ∀ a b, S a b → Agree S' (f a) (g b)) :
    Agree S' (x >>= f) (y >>= g) := by
  intro n
  rw [StateT.run_bind, StateT.run_bind]
  exact (hx n).bind fun ⟨a, k⟩ ⟨b, k'⟩ ⟨h, hk⟩ => by
    cases hk
    exact hf a b h k

theorem mapM {f : α' → Emission α} {g : β' → Emission β} :
    ∀ {as : List α'} {bs : List β'}, List.Forall₂ (fun a b => Agree S (f a) (g b)) as bs →
      Agree (List.Forall₂ S) (as.mapM f) (bs.mapM g)
  | [], [], _ => by
    rw [List.mapM_nil, List.mapM_nil]
    exact pure .nil
  | _ :: _, _ :: _, .cons h hrest => by
    rw [List.mapM_cons, List.mapM_cons]
    exact h.bind fun _ _ h => (mapM hrest).bind fun _ _ hs => pure (.cons h hs)

/-- The results agree, whatever the numbers are in the end. -/
theorem run' {x : Emission α} {y : Emission β} (h : Agree S x y) (n : Nat) :
    RecordGraph.Agree S (x.run' n) (y.run' n) := by
  have h := h n
  rw [run'_eq, run'_eq]
  generalize x.run n = out, y.run n = out' at h
  cases h with
  | ok h => exact .ok h.1
  | error e e' => exact .error e e'

end Agree

end Emission

/-! ## What is written of a value -/

/-- Values that are written of related values: the values themselves, or the patterns by which
related texts are searched for. -/
inductive Written (R : Value → Value → Prop) : Value → Value → Prop where
  | self {v v' : Value} : R v v' → Written R v v'
  | pattern {s s' p p' : String} (op : Op) : R (.text s) (.text s') →
    PairForm.patternOf? op s = some p → PairForm.patternOf? op s' = some p' →
    Written R (.text p) (.text p')

namespace PairForm

/-- The same becomes of two operations. -/
inductive Alike (R : Value → Value → Prop) : PairForm → PairForm → Prop where
  | nullTest (test : Op) (ofFirst : Bool) :
    Alike R (.nullTest test ofFirst) (.nullTest test ofFirst)
  | pattern {p p' : String} : Written R (.text p) (.text p') → Alike R (.pattern p) (.pattern p')
  | needsText : Alike R .needsText .needsText
  | plain : Alike R .plain .plain

theorem patternOf?_isSome (op : Op) (text : String) :
    (patternOf? op text).isSome = op.searches := by
  cases op <;> rfl

/-- What becomes of an operation that is no null test. -/
def ofSearch (op : Op) (b : Node) : PairForm :=
  match b with
  | .value (.text text) => match patternOf? op text with
    | some p => .pattern p
    | none => .plain
  | _ => if (patternOf? op "").isSome then .needsText else .plain

theorem ofSearch_of_isText {op : Op} {b : Node} (h : b.isText = false) :
    ofSearch op b = if op.searches then .needsText else .plain := by
  unfold ofSearch
  split
  · cases h
  · rw [patternOf?_isSome]

theorem ofSearch_text {op : Op} {text : String} (h : op.searches = false) :
    ofSearch op (.value (.text text)) = .plain := by
  have hnone : patternOf? op text = none := by
    rw [← Option.not_isSome_iff_eq_none, patternOf?_isSome, h]
    exact Bool.false_ne_true
  simp only [ofSearch, hnone]

theorem ofSearch_alike {op : Op} {b b' : Node} (hb : Parallel R b b')
    (hsearch : op.searches = true → b.isText = b'.isText) :
    Alike R (ofSearch op b) (ofSearch op b') := by
  cases hs : op.searches with
  | false =>
    have hplain (b : Node) : ofSearch op b = .plain := by
      cases ht : b.isText with
      | false => rw [ofSearch_of_isText ht, hs, if_neg Bool.false_ne_true]
      | true =>
        obtain ⟨text, rfl⟩ := Node.exists_text_of_isText ht
        exact ofSearch_text hs
    rw [hplain, hplain]
    exact .plain
  | true =>
    have hsame := hsearch hs
    cases ht : b.isText with
    | false =>
      rw [ofSearch_of_isText ht, ofSearch_of_isText (hsame ▸ ht), hs]
      exact .needsText
    | true =>
      obtain ⟨text, rfl⟩ := Node.exists_text_of_isText ht
      obtain ⟨text', rfl⟩ := Node.exists_text_of_isText (hsame ▸ ht)
      obtain ⟨p, hp⟩ := Option.isSome_iff_exists.1 ((patternOf?_isSome op text).trans hs)
      obtain ⟨p', hp'⟩ := Option.isSome_iff_exists.1 ((patternOf?_isSome op text').trans hs)
      cases hb with
      | value hv =>
        simp only [ofSearch, hp, hp']
        exact .pattern (.pattern op hv hp hp')

/-- What becomes of an operation depends on which operands are null, and on whether a text is
searched for. -/
theorem of_alike {op : Op} {a a' b b' : Node} (ha : Parallel R a a') (hb : Parallel R b b')
    (hsearch : op.searches = true → b.isText = b'.isText) :
    Alike R (PairForm.of op a b) (PairForm.of op a' b') := by
  unfold PairForm.of
  rw [ha.isNullValue_eq, hb.isNullValue_eq]
  split
  · exact .nullTest _ true
  · exact .nullTest _ false
  · exact ofSearch_alike hb hsearch

end PairForm

/-! ## Nodes in scopes that are alike -/

/-- Scopes of trees with one outline, in which calculations are written alike. -/
structure Scope.Alike (W : Value → Value → Prop) (d : Dialect) (s s' : Scope) : Prop where
  tree : s.tree.outline = s'.tree.outline
  expand : ∀ path name, Emission.Agree (Expr.Alike W d) (s.expand path name) (s'.expand path name)

/-- Resolvers that write alike expressions in scopes that are alike. -/
def Resolver.Alike (W : Value → Value → Prop) (d : Dialect) (f f' : Resolver) : Prop :=
  ∀ s s', Scope.Alike W d s s' → Emission.Agree (Expr.Alike W d) (f s) (f' s')

/-- Clauses whose resolvers are alike one by one. -/
structure Clauses.Alike (W : Value → Value → Prop) (d : Dialect) (c c' : Clauses) : Prop where
  conditions : List.Forall₂ (Resolver.Alike W d) c.conditions c'.conditions
  groupBys : List.Forall₂ (Resolver.Alike W d) c.groupBys c'.groupBys
  having : List.Forall₂ (Resolver.Alike W d) c.having c'.having
  orderBys : List.Forall₂ (fun o o' => Resolver.Alike W d o.expr o'.expr ∧
    o.descending = o'.descending) c.orderBys c'.orderBys
  calculations : List.Forall₂ (fun k k' => k.1 = k'.1 ∧ Resolver.Alike W d k.2 k'.2)
    c.calculations c'.calculations

namespace Clauses

variable {c c' : Clauses} {t t' : JoinTree} {q q' : Query}

/-- Under one place and name, alike calculations have alike expressions. -/
theorem lookup_alike {ks ks' : List ((Option Path × String) × Resolver)}
    (h : List.Forall₂ (fun k k' => k.1 = k'.1 ∧ Resolver.Alike W d k.2 k'.2) ks ks')
    (key : Option Path × String) :
    Option.Rel (Resolver.Alike W d) (ks.lookup key) (ks'.lookup key) := by
  induction h with
  | nil => exact .none
  | @cons k k' _ _ hk _ ih =>
    obtain ⟨name, f⟩ := k
    obtain ⟨name', f'⟩ := k'
    obtain ⟨rfl, hf⟩ : name = name' ∧ _ := hk
    rw [List.lookup_cons, List.lookup_cons]
    cases key == name with
    | true => exact .some hf
    | false => exact ih

theorem expand_agree (hc : Alike W d c c') (ht : t.outline = t'.outline) : ∀ (fuel : Nat)
    (path : Path) (name : String),
      Emission.Agree (Expr.Alike W d) (c.expand t fuel path name) (c'.expand t' fuel path name)
  | 0, path, name => .throw _ _
  | fuel + 1, path, name => by
    unfold expand
    have h := lookup_alike hc.calculations (some path, name)
    generalize c.calculations.lookup (some path, name) = f,
      c'.calculations.lookup (some path, name) = f' at h
    cases h with
    | none => exact .throw _ _
    | some h => exact h _ _ ⟨ht, expand_agree hc ht fuel⟩

theorem scope_alike (hc : Alike W d c c') (ht : t.outline = t'.outline) :
    Scope.Alike W d (c.scope t) (c'.scope t') := by
  refine ⟨ht, ?_⟩
  rw [scope, scope, hc.calculations.length_eq]
  exact expand_agree hc ht _

theorem item_agree {s s' : Scope} (hs : Scope.Alike W d s s') {o o' : Output}
    (ho : o.outline = o'.outline) :
    Emission.Agree (SelectItem.Alike W d) (item s o) (item s' o') := by
  cases o with
  | column e c =>
    cases o' with
    | calculation => cases ho
    | column e' c' =>
      obtain ⟨he, rfl⟩ := Output.column.inj ho
      rw [item, item, Element.label_eq_of_outline he]
      exact .pure ⟨.column _, rfl⟩
  | calculation e k =>
    cases o' with
    | column => cases ho
    | calculation e' k' =>
      obtain ⟨he, hk⟩ := Output.calculation.inj ho
      obtain ⟨hname, hlabel, -⟩ := CalculationOutput.mk.inj hk
      rw [item, item, Element.path_eq_of_outline he, hname, hlabel]
      exact (hs.expand _ _).bind fun _ _ he => .pure ⟨he, rfl⟩

theorem sorts_agree (hc : Alike W d c c') {s s' : Scope} (hs : Scope.Alike W d s s') :
    Emission.Agree (List.Forall₂ (SortItem.Alike W d)) (c.sorts s) (c'.sorts s') :=
  .mapM (hc.orderBys.imp fun _ _ ⟨ho, hdescending⟩ =>
    (ho s s' hs).bind fun _ _ he => .pure ⟨he, hdescending⟩)

theorem resolved_agree {fs fs' : List Resolver} (h : List.Forall₂ (Resolver.Alike W d) fs fs')
    {s s' : Scope} (hs : Scope.Alike W d s s') :
    Emission.Agree (List.Forall₂ (Expr.Alike W d)) (fs.mapM (· s)) (fs'.mapM (· s')) :=
  .mapM (h.imp fun _ _ hf => hf s s' hs)

/-- The selections of corresponding queries are written alike. -/
theorem select_agree (hc : Alike W d c c') (hq : q.limit = q'.limit ∧ q.offset = q'.offset ∧
    q.distinct = q'.distinct ∧ q.forUpdate = q'.forUpdate) (ht : t.outline = t'.outline) :
    Emission.Agree (SelectOf.Alike W d) (c.select q t) (c'.select q' t') := by
  obtain ⟨hlimit, hoffset, hdistinct, hlocked⟩ := hq
  have hs := scope_alike hc ht
  have hsource : t.source = t'.source := by
    rw [← JoinTree.source_outline t, ht, JoinTree.source_outline]
  unfold select
  refine Emission.Agree.bind (S := List.Forall₂ (SelectItem.Alike W d))
    (.mapM ((JoinTree.outputs_forall₂ ht).imp fun _ _ ho => item_agree hs ho))
    fun items items' hitems => ?_
  dsimp only
  rw [isEmpty_eq_of_forall₂ hitems]
  split
  · exact (Emission.Agree.throw (S := fun _ _ => False) _ _).bind fun _ _ h => h.elim
  · refine (resolved_agree hc.conditions hs).bind fun _ _ hconditions => ?_
    refine (resolved_agree hc.groupBys hs).bind fun _ _ hgroupBys => ?_
    refine (resolved_agree hc.having hs).bind fun _ _ hhaving => ?_
    refine (sorts_agree hc hs).bind fun _ _ horderBys => ?_
    rw [hlimit, hoffset, hdistinct, hlocked, hsource]
    exact .pure (.mk _ _ _ _ _ hitems hconditions hgroupBys hhaving horderBys)

/-- So are the selections of corresponding inner queries, under the same number. -/
theorem inner_agree (hc : Alike W d c c') (hq : q.Paired (Parallel R) q') :
    Emission.Agree (SelectOf.Alike W d) (c.inner q) (c'.inner q') := by
  refine Emission.Agree.get.bind fun number number' hnumber => ?_
  obtain rfl : number = number' := hnumber
  refine (Emission.Agree.set (number + 1)).bind fun _ _ _ => ?_
  refine (Emission.Agree.lift (JoinTree.compile_agree hq _ _)).bind fun t t' ht => ?_
  dsimp only
  rw [(JoinTree.outputs_forall₂ ht).length_eq]
  split
  · exact (Emission.Agree.throw (S := fun _ _ => False) _ _).bind fun _ _ h => h.elim
  · exact select_agree hc hq.frame ht

end Clauses

namespace Node

variable {s s' : Scope}

theorem found_agree {n n' : Node} (hn : Parallel R n n') (hs : Scope.Alike W d s s')
    (column : Table → String) :
    Emission.Agree (Expr.Alike W d) (found s n column) (found s' n' column) := by
  refine (Emission.Agree.lift (JoinTree.elementFor_agree hs.tree hn)).bind fun e e' he => ?_
  rw [Element.label_eq_of_outline he, Element.table_eq_of_outline he]
  exact .pure (.column _)

theorem counted_agree (op : Op) {es es' : List Expr} (h : List.Forall₂ (Expr.Alike W d) es es') :
    Emission.Agree (Expr.Alike W d) (counted d op es) (counted d op es') := by
  have hcount : RecordGraph.Agree (fun _ _ => True) (d.checkCount op es.length)
      (d.checkCount op es'.length) := by
    rw [h.length_eq]
    unfold Dialect.checkCount
    split
    · exact .ok trivial
    · exact .error _ _
  exact (Emission.Agree.lift hcount).bind fun _ _ _ => .pure (.apply op h)

/-- An operation over two operands. -/
theorem pair_alike (op : Op) {a a' b b' : Node} (ha : Parallel R a a') (hb : Parallel R b b')
    (hsearch : op.searches = true → b.isText = b'.isText)
    (hra : Resolver.Alike (Written R) d (a.resolver d) (a'.resolver d))
    (hrb : Resolver.Alike (Written R) d (b.resolver d) (b'.resolver d)) :
    Resolver.Alike (Written R) d ((operation op [a, b]).resolver d)
      ((operation op [a', b']).resolver d) := by
  intro s s' hs
  have hform := PairForm.of_alike ha hb hsearch
  rw [resolver, resolver]
  dsimp only
  generalize PairForm.of op a b = form, PairForm.of op a' b' = form' at hform
  cases hform with
  | nullTest test ofFirst =>
    cases ofFirst with
    | true => exact (hra s s' hs).bind fun _ _ hx => .pure (.apply test (.cons hx .nil))
    | false => exact (hrb s s' hs).bind fun _ _ hx => .pure (.apply test (.cons hx .nil))
  | pattern hp =>
    exact (hra s s' hs).bind fun _ _ hx => .pure (.apply op (.cons hx (.cons (.param hp) .nil)))
  | needsText => exact .throw _ _
  | plain =>
    exact (hra s s' hs).bind fun _ _ hx => (hrb s s' hs).bind fun _ _ hy =>
      counted_agree op (.cons hx (.cons hy .nil))

theorem operation_alike {op : Op} {xs xs' : List Node} (hxs : List.Forall₂ (Parallel R) xs xs')
    (hsearch : op.searches = true → xs[1]?.map isText = xs'[1]?.map isText)
    (hr : List.Forall₂ (fun x x' => Resolver.Alike (Written R) d (x.resolver d) (x'.resolver d))
      xs xs') :
    Resolver.Alike (Written R) d ((operation op xs).resolver d)
      ((operation op xs').resolver d) := by
  by_cases hlen : xs.length = 2
  · match xs, xs', hxs, hr with
    | [_, _], [_, _], .cons ha (.cons hb .nil), .cons hra (.cons hrb .nil) =>
      exact pair_alike op ha hb (fun h => Option.some.inj (hsearch h)) hra hrb
  · intro s s' hs
    rw [resolver_operation hlen, resolver_operation (hxs.length_eq ▸ hlen)]
    have hmap := List.forall₂_map_left_iff.2 (List.forall₂_map_right_iff.2 hr)
    exact (Clauses.resolved_agree hmap hs).bind fun _ _ h => counted_agree op h

/-- The clauses of paired queries are alike when the resolvers of their nodes are. -/
theorem clauses_alike {q q' : Query} (h : q.Paired
    (fun n n' => Parallel R n n' ∧ Resolver.Alike W d (n.resolver d) (n'.resolver d)) q') :
    Clauses.Alike W d (clauses d q) (clauses d q') := by
  obtain ⟨-, hgroupBys, -, hconditions, horderBys, hhaving, hcalculations⟩ := h.lists
  rw [clauses_eq, clauses_eq]
  exact {
    conditions := List.rel_map (fun _ _ h => h.2) hconditions
    groupBys := List.rel_map (fun _ _ h => h.2) hgroupBys
    having := List.rel_map (fun _ _ h => h.2) hhaving
    orderBys := List.rel_map (fun _ _ ⟨_, h⟩ => ⟨h.2, rfl⟩) horderBys
    calculations := List.rel_map (fun _ _ ⟨_, ht, he⟩ => ⟨by rw [ht.1.path?_eq], he.2⟩)
      hcalculations }

/-- Corresponding nodes are written alike. -/
theorem resolver_alike : ∀ {n n' : Node}, Parallel R n n' →
    Resolver.Alike (Written R) d (n.resolver d) (n'.resolver d)
  | _, _, .table t => fun s s' hs => by
    simp only [resolver]
    exact found_agree (R := R) (.table t) hs _
  | _, _, .reference r t hp => fun s s' hs => by
    simp only [resolver]
    exact found_agree (.reference r t hp) hs _
  | _, _, .reverse r t hp => fun s s' hs => by
    simp only [resolver]
    exact found_agree (.reverse r t hp) hs _
  | _, _, .manyMany m t hp => fun s s' hs => by
    simp only [resolver]
    exact found_agree (.manyMany m t hp) hs _
  | _, _, .column c hp => fun s s' hs => by
    simp only [resolver]
    exact found_agree (.column c hp) hs _
  | _, _, .calculated name hp => fun s s' hs => by
    simp only [resolver]
    refine (Emission.Agree.lift (JoinTree.elementFor_agree hs.tree (.calculated name hp))).bind
      fun e e' he => ?_
    rw [Element.path_eq_of_outline he]
    exact (hs.expand _ _).bind fun _ _ hx => .pure hx.parens
  | _, _, .value hv _ => fun s s' hs => by
    simp only [resolver]
    exact .pure (.param (.self hv))
  | .subquery q, .subquery q', .subquery hq => fun s s' hs => by
    simp only [resolver]
    refine (Clauses.inner_agree (clauses_alike (hq.imp_zip fun p hz hp => ⟨hp, ?_⟩)) hq).bind
      fun _ _ hrows => .pure (.rows hrows)
    have := QueryOf.sizeOf_lt_of_mem_nodes (List.of_mem_zip hz).1
    exact resolver_alike hp
  | _, _, .operation hs hsearch => by
    refine operation_alike hs hsearch ((forall₂_and_mem_zip hs).imp fun _ _ h => ?_)
    have := List.sizeOf_lt_of_mem (List.of_mem_zip h.2).1
    exact resolver_alike h.1
termination_by n => sizeOf n

end Node

/-! ## Whole statements -/

/-- The statements of corresponding queries are written alike. -/
theorem QueryOf.compile_agree {q q' : Query} (h : q.Paired (Parallel R) q') (d : Dialect) :
    Agree (fun c c' => Sql.Alike (Written R) (c.command.sql d) (c'.command.sql d))
      (q.compile d) (q'.compile d) := by
  refine (JoinTree.compile_agree h .objects "").bind fun t t' ht => ?_
  have hclauses : Clauses.Alike (Written R) d (Node.clauses d q) (Node.clauses d q') :=
    Node.clauses_alike (h.imp_zip fun _ _ hn => ⟨hn, Node.resolver_alike hn⟩)
  exact ((Clauses.select_agree hclauses h.frame ht).run' 0).bind fun _ _ hs => .ok hs

/-- Where an argument comes from: a value of the query by its number, and the operator that
searches for it, if one does. -/
structure ArgumentSource where
  number : Nat
  search : Option Op

/-- The argument that is written of the values of a query. -/
def ArgumentSource.read? (s : ArgumentSource) (values : List Value) : Option Value :=
  match s.search, values[s.number]? with
  | none, v => v
  | some op, some (.text text) => (PairForm.patternOf? op text).map .text
  | some _, _ => none

theorem Written.exists_source {vs vs' : List Value} {v v' : Value} (h : Written
    (fun v v' => ∃ i : Nat, vs[i]? = some v ∧ vs'[i]? = some v') v v') :
    ∃ s : ArgumentSource, s.read? vs = some v ∧ s.read? vs' = some v' := by
  cases h with
  | self h =>
    obtain ⟨i, hv, hv'⟩ := h
    exact ⟨⟨i, none⟩, hv, hv'⟩
  | pattern op h hp hp' =>
    obtain ⟨i, hs, hs'⟩ := h
    refine ⟨⟨i, some op⟩, ?_, ?_⟩
    · simp only [ArgumentSource.read?, hs, hp, Option.map_some]
    · simp only [ArgumentSource.read?, hs', hp', Option.map_some]

theorem exists_sources {vs vs' args args' : List Value} (h : List.Forall₂ (Written
    fun v v' => ∃ i : Nat, vs[i]? = some v ∧ vs'[i]? = some v') args args') :
    ∃ sources : List ArgumentSource, args.map some = sources.map (·.read? vs) ∧
      args'.map some = sources.map (·.read? vs') := by
  induction h with
  | nil => exact ⟨[], rfl, rfl⟩
  | cons hv _ ih =>
    obtain ⟨source, hs, hs'⟩ := hv.exists_source
    obtain ⟨sources, hsources, hsources'⟩ := ih
    refine ⟨source :: sources, ?_, ?_⟩
    · rw [List.map_cons, List.map_cons, hs, hsources]
    · rw [List.map_cons, List.map_cons, hs', hsources']

/-- **Values never become text.** Of two queries that differ in nothing but what their values are,
one compiles exactly when the other does, and then both statements have the same text. Their
arguments come from the same values, place by place. -/
theorem QueryOf.values_stay_arguments {q q' : Query} (h : q.SameShape q') (d : Dialect) :
    ((∃ c, q.compile d = .ok c) ↔ ∃ c', q'.compile d = .ok c') ∧
      ∀ c c', q.compile d = .ok c → q'.compile d = .ok c' →
        (c.statement d).sql = (c'.statement d).sql ∧
          ∃ sources : List ArgumentSource,
            (c.statement d).args.map some = sources.map (·.read? q.values) ∧
              (c'.statement d).args.map some = sources.map (·.read? q'.values) := by
  have hagree := compile_agree h.enumerated d
  refine ⟨hagree.exists_ok_iff, fun c c' hc hc' => ?_⟩
  rw [hc, hc'] at hagree
  have halike := hagree.of_ok
  exact ⟨halike.render_sql d, exists_sources (halike.render_args d)⟩

namespace Library

/-- The writers of the books of a later version. -/
def written (book writer current : Chain) (version : Value) : Query :=
  { QueryOf.all book.node with
    selects := [writer.node], conditions := [.operation .gt [current.node, .value version]] }

/-- The authors whose names start with a text, and who wrote a book of a later version. -/
def searched (s : Schema) (start : String) (version : Value) : Except Error Query := do
  let authors ← node s []
  let id ← node s [.column "id"]
  let name ← node s [.column "name"]
  let book ← Chain.follow s "books" []
  let writer ← Chain.follow s "books" [.column "author_id"]
  let current ← Chain.follow s "books" [.column "version"]
  .ok { QueryOf.all authors with
    conditions := [.operation .startsWith [name, .value (.text start)],
      .operation .isIn [id, .subquery (written book writer current version)]] }

/-- Searches for different texts and versions have one shape. -/
theorem searched_sameShape {s : Schema} {start start' : String} {version version' : Value}
    {q q' : Query} (h : searched s start version = .ok q) (h' : searched s start' version' = .ok q')
    (hnull : version.isNull = version'.isNull) : q.SameShape q' := by
  have hself (n : Node) : Parallel (fun _ _ => True) n n := .refl (fun _ => trivial) n
  unfold searched at h h'
  obtain ⟨authors, hauthors, h⟩ := bind_eq_ok_iff.1 h
  obtain ⟨id, hid, h⟩ := bind_eq_ok_iff.1 h
  obtain ⟨name, hname, h⟩ := bind_eq_ok_iff.1 h
  obtain ⟨book, hbook, h⟩ := bind_eq_ok_iff.1 h
  obtain ⟨writer, hwriter, h⟩ := bind_eq_ok_iff.1 h
  obtain ⟨current, hcurrent, h⟩ := bind_eq_ok_iff.1 h
  rw [hauthors, hid, hname, hbook, hwriter, hcurrent] at h'
  cases h
  cases h'
  -- only the text and the version differ
  have hname : Parallel (fun _ _ => True) (.operation .startsWith [name, .value (.text start)])
      (.operation .startsWith [name, .value (.text start')]) :=
    .operation (.cons (hself _) (.cons (.value trivial rfl) .nil)) fun _ => rfl
  have hversion : Parallel (fun _ _ => True) (.operation .gt [current.node, .value version])
      (.operation .gt [current.node, .value version']) :=
    .operation (.cons (hself _) (.cons (.value trivial hnull) .nil)) fun h => nomatch h
  have hwritten : QueryOf.Paired (Parallel fun _ _ => True) (written book writer current version)
      (written book writer current version') :=
    ⟨_, _, _, _, hself _, .cons (hself _) .nil, .cons hversion .nil, .nil, .nil, .nil, .nil⟩
  exact ⟨_, _, _, _, hself _, .nil, .cons hname (.cons (.operation (.cons (hself _)
    (.cons (.subquery hwritten) .nil)) fun h => nomatch h) .nil), .nil, .nil, .nil, .nil⟩

/-- The arguments of a search. -/
def searchedArgs (start : String) (version : Value) (d : Dialect) : Except Error (List Value) := do
  let s ← Schema.ofDeclaration declaration
  let q ← searched s start version
  let c ← q.compile d
  .ok (c.statement d).args

theorem searchedArgs_cases {start : String} {version : Value} {d : Dialect} {args : List Value}
    (h : searchedArgs start version d = .ok args) : ∃ s q c,
      Schema.ofDeclaration declaration = .ok s ∧ searched s start version = .ok q ∧
        q.compile d = .ok c ∧ (c.statement d).args = args := by
  obtain ⟨s, hs, h⟩ := bind_eq_ok_iff.1 h
  obtain ⟨q, hq, h⟩ := bind_eq_ok_iff.1 h
  obtain ⟨c, hc, h⟩ := bind_eq_ok_iff.1 h
  exact ⟨s, q, c, hs, hq, hc, Except.ok.inj h⟩

/-- A search for a text with a wildcard in it has the text of any other search. -/
theorem searched_same_text : ∃ s q q' c c', Schema.ofDeclaration declaration = .ok s ∧
    searched s "A" (.int 1) = .ok q ∧ searched s "50%" (.uint 7) = .ok q' ∧
      q.compile .mysql = .ok c ∧ q'.compile .mysql = .ok c' ∧
        (c.statement .mysql).args = [.text "A%", .int 1] ∧
          (c'.statement .mysql).args = [.text "50\\%%", .uint 7] ∧
            (c.statement .mysql).sql = (c'.statement .mysql).sql := by
  obtain ⟨s, q, c, hs, hq, hc, hargs⟩ := searchedArgs_cases
    (by cbv : searchedArgs "A" (.int 1) .mysql = .ok [.text "A%", .int 1])
  obtain ⟨s', q', c', hs', hq', hc', hargs'⟩ := searchedArgs_cases
    (by cbv : searchedArgs "50%" (.uint 7) .mysql = .ok [.text "50\\%%", .uint 7])
  obtain rfl : s = s' := Except.ok.inj (hs.symm.trans hs')
  have hsame := QueryOf.values_stay_arguments (searched_sameShape hq hq' rfl) .mysql
  exact ⟨s, q, q', c, c', hs, hq, hq', hc, hc', hargs, hargs', (hsame.2 c c' hc hc').1⟩

end Library

end RecordGraph
