import Mathlib.Data.List.Perm.Subperm
import Mathlib.Logic.Relation
import RecordGraph.Proofs.JoinTree.NamesRead
import RecordGraph.Proofs.JoinTree.Shape
import RecordGraph.Proofs.Query.Resolvers

/-!
# The names of a compiled query are found

The joins of a query are settled before anything of it is written. What the query names is then
looked up in them, node by node, and calculations are expanded where they are referred to.

**Results.**
* `Emission.FailsOnly`: the errors that an emission may end in, step by step.
* `Node.resolver_failsOnly`: a node that finds its names fails on nothing else.
* `Clauses.expand_failsOnly`: calculations that do not go round are expanded to their ends.
* `QueryOf.names_settled`: a query that compiles finds what it names.
-/
namespace RecordGraph

namespace Emission

variable {bad : Error → Prop} {α β : Type}

/-- An emission ends in no other error. -/
def FailsOnly (bad : Error → Prop) (x : Emission α) : Prop :=
  ∀ n err, x.run n = .error err → bad err

namespace FailsOnly

theorem imp {bad' : Error → Prop} {x : Emission α} (h : FailsOnly bad x)
    (hbad : ∀ err, bad err → bad' err) : FailsOnly bad' x :=
  fun n err he => hbad err (h n err he)

theorem pure (a : α) : FailsOnly bad (Pure.pure a : Emission α) := fun _ _ h => nomatch h

theorem throw {err : Error} (h : bad err) : FailsOnly bad (MonadExcept.throw err : Emission α) := by
  intro n err' he
  cases he
  exact h

theorem bind {x : Emission α} {f : α → Emission β} (hx : FailsOnly bad x)
    (hf : ∀ a, FailsOnly bad (f a)) : FailsOnly bad (x >>= f) := by
  intro n err h
  rw [StateT.run_bind] at h
  cases hr : x.run n with
  | error e =>
    rw [hr] at h
    cases h
    exact hx n _ hr
  | ok p =>
    rw [hr] at h
    exact hf p.1 p.2 err h

/-- What follows a step without effect may rely on its result. -/
theorem lift_bind {x : Except Error α} {f : α → Emission β} (hx : ∀ err, x = .error err → bad err)
    (hf : ∀ a, x = .ok a → FailsOnly bad (f a)) : FailsOnly bad (liftM x >>= f) := by
  cases x with
  | ok a => exact hf a rfl
  | error e =>
    intro n err h
    cases h
    exact hx _ rfl

theorem mapM {f : α → Emission β} : ∀ {as : List α}, (∀ a ∈ as, FailsOnly bad (f a)) →
    FailsOnly bad (as.mapM f)
  | [], _ => by rw [List.mapM_nil]; exact .pure _
  | a :: as, h => by
    rw [List.mapM_cons]
    exact .bind (h a List.mem_cons_self) fun b =>
      .bind (mapM fun c hc => h c (List.mem_cons_of_mem _ hc)) fun bs => .pure _

theorem of_run' {x : Emission α} (hx : FailsOnly bad x) {n : Nat} {err : Error}
    (h : x.run' n = .error err) : bad err := by
  rw [Emission.run'_eq] at h
  cases hr : x.run n with
  | error e =>
    rw [hr] at h
    cases h
    exact hx n err hr
  | ok p =>
    rw [hr] at h
    cases h

end FailsOnly

end Emission

/-- An error of a name that is not found, or of a calculation that needs itself. -/
def Error.IsNameFault : Error → Prop
  | .invalidQuery (.notInQuery _) | .invalidQuery (.unknownCalculation _)
  | .invalidQuery (.endlessCalculation _) => True
  | _ => False

namespace Node

open Emission (FailsOnly)

/-- A scope has what an expression names. Inner queries may fail as they do. -/
structure FoundIn (bad : Error → Prop) (d : Dialect) (s : Scope) (m : Node) : Prop where
  names : ∀ n : Node, n.Within m → n.isName = true → ∃ e, s.tree.elementFor n = .ok e
  calculations : ∀ p name e, (calculated p name).Within m →
    s.tree.elementFor (calculated p name) = .ok e → FailsOnly bad (s.expand e.path name)
  queries : ∀ q : Query, (subquery q).Within m → FailsOnly bad ((clauses d q).inner q)

theorem FoundIn.operand {bad : Error → Prop} {d : Dialect} {s : Scope} {op : Op}
    {operands : List Node} (h : FoundIn bad d s (operation op operands)) {m : Node}
    (hm : m ∈ operands) : FoundIn bad d s m where
  names n hn := h.names n (.operand hm hn)
  calculations p name e hn := h.calculations p name e (.operand hm hn)
  queries q hn := h.queries q (.operand hm hn)

variable {bad : Error → Prop} {d : Dialect} {s : Scope}

theorem found_failsOnly {n : Node} {column : Table → String}
    (h : ∃ e, s.tree.elementFor n = .ok e) : FailsOnly bad (found s n column) := by
  obtain ⟨e, he⟩ := h
  exact .lift_bind (fun err herr => nomatch he.symm.trans herr) fun _ _ => .pure _

theorem counted_failsOnly (hbad : ∀ err : Error, ¬err.IsNameFault → bad err) (op : Op)
    (args : List Expr) : FailsOnly bad (counted d op args) := by
  refine .lift_bind (fun err herr => ?_) fun _ _ => .pure _
  unfold Dialect.checkCount at herr
  split at herr
  · cases herr
  · cases herr
    exact hbad _ id

theorem operation_failsOnly (hbad : ∀ err : Error, ¬err.IsNameFault → bad err) {op : Op}
    {operands : List Node} (h : ∀ m ∈ operands, FailsOnly bad (m.resolver d s)) :
    FailsOnly bad ((operation op operands).resolver d s) := by
  by_cases hlen : operands.length = 2
  · obtain ⟨a, b, rfl⟩ := List.length_eq_two.1 hlen
    have ha := h a (by simp)
    have hb := h b (by simp)
    rw [resolver]
    dsimp only
    split
    · exact ha.bind fun _ => .pure _
    · exact hb.bind fun _ => .pure _
    · exact ha.bind fun _ => .pure _
    · exact .throw (hbad _ id)
    · exact ha.bind fun _ => hb.bind fun _ => counted_failsOnly hbad op _
  · rw [resolver_operation hlen]
    exact .bind (.mapM (List.forall_mem_map.2 h)) fun _ => counted_failsOnly hbad op _

/-- **Names.** A node that finds its names fails on nothing else. -/
theorem resolver_failsOnly (hbad : ∀ err : Error, ¬err.IsNameFault → bad err) (m : Node)
    (h : FoundIn bad d s m) : FailsOnly bad (m.resolver d s) := by
  cases m with
  | column p c =>
    rw [resolver]
    exact found_failsOnly (h.names _ .self rfl)
  | calculated p name =>
    rw [resolver]
    obtain ⟨e, he⟩ := h.names _ .self rfl
    refine .lift_bind (fun err herr => ?_) fun e' he' => ?_
    · cases he.symm.trans herr
    · exact .bind (h.calculations p name e' .self he') fun _ => .pure _
  | value v =>
    rw [resolver]
    exact .pure _
  | subquery q =>
    rw [resolver]
    exact .bind (h.queries q .self) fun _ => .pure _
  | operation op operands =>
    exact operation_failsOnly hbad fun m hm => resolver_failsOnly hbad m (h.operand hm)
  | table t =>
    rw [resolver]
    exact found_failsOnly (h.names _ .self rfl)
  | reference p r t =>
    rw [resolver]
    exact found_failsOnly (h.names _ .self rfl)
  | reverse p r t =>
    rw [resolver]
    exact found_failsOnly (h.names _ .self rfl)
  | manyMany p r t =>
    rw [resolver]
    exact found_failsOnly (h.names _ .self rfl)

end Node

namespace QueryOf

/-- A query declares a calculation, by its place and name. -/
def Declares (q : Query) (key : Path × String) : Prop :=
  ∃ k ∈ q.calculations, k.target.path? = some key.1 ∧ k.name = key.2

/-- The places and names of the calculations of a query. -/
def keys (q : Query) : List (Path × String) :=
  q.calculations.filterMap fun k => k.target.path?.map (·, k.name)

theorem mem_keys_iff {q : Query} {key : Path × String} : key ∈ q.keys ↔ q.Declares key := by
  simp only [keys, Declares, List.mem_filterMap, Option.map_eq_some_iff]
  refine exists_congr fun k => and_congr_right fun _ => ?_
  constructor
  · rintro ⟨path, hp, rfl⟩
    exact ⟨hp, rfl⟩
  · rintro ⟨hp, hname⟩
    exact ⟨key.1, hp, by rw [hname]⟩

theorem length_keys_le (q : Query) : q.keys.length ≤ q.calculations.length :=
  List.length_filterMap_le ..

/-- The expression of a calculation refers to another one. -/
def RefersTo (q : Query) (a b : Path × String) : Prop :=
  ∃ k ∈ q.calculations, k.target.path? = some a.1 ∧ k.name = a.2 ∧
    ∃ p : Node, (Node.calculated p b.2).Within k.expression ∧ p.path? = some b.1

/-- No calculation is needed to expand itself. -/
def Acyclic (q : Query) : Prop := ∀ a, ¬Relation.TransGen q.RefersTo a a

/-- Calculations under way: different ones, each of which needs the next one. -/
structure UnderWay (q : Query) (above : List (Path × String)) (key : Path × String) : Prop where
  nodup : above.Nodup
  declared : ∀ b ∈ above, q.Declares b
  refers : ∀ b ∈ above, Relation.TransGen q.RefersTo b key
  key : q.Declares key

namespace UnderWay

variable {q : Query} {above : List (Path × String)} {key key' : Path × String}

theorem start (h : q.Declares key) : q.UnderWay [] key := ⟨List.nodup_nil, by simp, by simp, h⟩

/-- There are fewer calculations above one than there are calculations. -/
theorem length_lt (hacyclic : q.Acyclic) (h : q.UnderWay above key) :
    above.length < q.calculations.length := by
  have hkeys : key :: above ⊆ q.keys :=
    List.cons_subset.2 ⟨mem_keys_iff.2 h.key, fun b hb => mem_keys_iff.2 (h.declared b hb)⟩
  have hnew : (key :: above).Nodup :=
    List.nodup_cons.2 ⟨fun hm => hacyclic _ (h.refers _ hm), h.nodup⟩
  exact Nat.le_trans (hnew.subperm hkeys).length_le q.length_keys_le

theorem step (hacyclic : q.Acyclic) (h : q.UnderWay above key) (hstep : q.RefersTo key key')
    (hd : q.Declares key') : q.UnderWay (key :: above) key' where
  nodup := List.nodup_cons.2 ⟨fun hm => hacyclic _ (h.refers _ hm), h.nodup⟩
  declared := List.forall_mem_cons.2 ⟨h.key, h.declared⟩
  refers := List.forall_mem_cons.2 ⟨.single hstep, fun b hb => (h.refers b hb).tail hstep⟩
  key := hd

end UnderWay

/-- Where a name is not found, the query has an inner query that fails so. -/
def InnerFault (q : Query) (d : Dialect) (err : Error) : Prop :=
  err.IsNameFault → ∃ (inner : Query) (number : Nat), q.Mentions (.subquery inner) ∧
    ((Node.clauses d inner).inner inner).run number = .error err

end QueryOf

open Emission (FailsOnly)

section
variable {projection : Projection} {lead : String} {q : Query} {t : JoinTree}
  (h : JoinTree.compile projection lead q = .ok t) {d : Dialect}

include h

namespace JoinTree

/-- **Found.** What a query names is found at the element that is joined for it. -/
theorem compile_found {n : Node} (hm : q.Mentions n) (hn : n.isName = true) :
    ∃ e ∈ t.elements, t.elementFor n = .ok e ∧ n.path? = some e.path := by
  obtain ⟨r, keys, hr, -, -, ht⟩ := compile_cases h
  obtain ⟨_, -, -, hc, -⟩ := Reads.ofQuery?_adds hr
  obtain ⟨j, hj, hp⟩ := Reads.exists_join_of_name hr hm hn
  have he := (mem_elements ht).2 ⟨j, hj, rfl⟩
  refine ⟨_, he, ?_, hp⟩
  have hfind : n.path?.bind t.find? = some (r.element lead keys j) := by
    rw [hp]
    exact find?_path hc ht he
  rw [elementFor, hfind]

theorem compile_declares {e : Element} (he : e ∈ t.elements) {k : CalculationOutput}
    (hk : k ∈ e.calculations) : q.Declares (e.path, k.name) := by
  obtain ⟨r, keys, hr, -, -, ht⟩ := compile_cases h
  obtain ⟨j, hj, rfl⟩ := (mem_elements ht).1 he
  obtain ⟨d, hd, rfl⟩ := List.mem_map.1 hk
  obtain ⟨hd, hp⟩ := List.mem_filter.1 hd
  obtain ⟨k, hk, htarget, hname, -⟩ := (Reads.mem_calculations_iff hr).1 hd
  exact ⟨k, hk, htarget.trans (congrArg some (beq_iff_eq.1 hp)), hname⟩

/-- A calculation that the query refers to is one of the element where it is looked for. -/
theorem compile_calculation {p : Node} {name : String} (hm : q.Mentions (.calculated p name))
    {e : Element} (he : e ∈ t.elements) (hp : p.path? = some e.path) :
    ∃ k ∈ e.calculations, k.name = name := by
  obtain ⟨r, keys, hr, -, -, ht⟩ := compile_cases h
  obtain ⟨j, hj, rfl⟩ := (mem_elements ht).1 he
  obtain ⟨d, hd, hp', rfl⟩ := Reads.declared_of_mentions hr hm
  have hpath : d.path = j.path := Option.some.inj (hp'.symm.trans hp)
  exact ⟨_, List.mem_map_of_mem (List.mem_filter.2 ⟨hd, beq_iff_eq.2 hpath⟩), rfl⟩

theorem compile_declares_of_mentions {p : Node} {name : String} {path : Path}
    (hm : q.Mentions (.calculated p name)) (hp : p.path? = some path) :
    q.Declares (path, name) := by
  obtain ⟨r, keys, hr, -, -, ht⟩ := compile_cases h
  obtain ⟨d, hd, hp', hname⟩ := Reads.declared_of_mentions hr hm
  cases hp.symm.trans hp'
  obtain ⟨k, hk, htarget, hkname, -⟩ := (Reads.mem_calculations_iff hr).1 hd
  exact ⟨k, hk, htarget, hkname.trans hname⟩

end JoinTree

/-- A scope of the compiled joins has what a node of the query names, if it expands the calculations
that the node refers to. -/
theorem foundIn_of_compile {expand : Path → String → Emission Expr} {m : Node} (hm : m ∈ q.nodes)
    (hexpand : ∀ p name path, (Node.calculated p name).Within m → p.path? = some path →
      FailsOnly (q.InnerFault d) (expand path name)) :
    Node.FoundIn (q.InnerFault d) d ⟨t, expand⟩ m where
  names n hw hn := by
    obtain ⟨e, -, he, -⟩ := JoinTree.compile_found h ⟨m, hm, hw⟩ hn
    exact ⟨e, he⟩
  calculations p name e hw he :=
    hexpand p name e.path hw (JoinTree.elementFor_cases (n := .calculated p name) he).2
  queries inner hw := fun number _ herr _ => ⟨inner, number, ⟨m, hm, hw⟩, herr⟩

/-- **Expansion.** Where calculations do not go round, as many expansions as there are calculations
come to an end: those that are under way are different. -/
theorem expand_failsOnly (hacyclic : q.Acyclic) : ∀ (n : Nat) {above : List (Path × String)}
    {path : Path} {name : String}, q.UnderWay above (path, name) →
    q.calculations.length ≤ above.length + n →
      FailsOnly (q.InnerFault d) ((Node.clauses d q).expand t n path name)
  | 0, above, path, name, hway, hlen => absurd (hway.length_lt hacyclic) (Nat.not_lt.2 hlen)
  | n + 1, above, path, name, hway, hlen => by
    obtain ⟨k, hk, htarget, hname, hlookup⟩ := Node.lookup_calculations (d := d) hway.key
    have hmem : k.expression ∈ q.nodes := QueryOf.mem_nodes_of_expression
      (List.mem_append_right _ (List.mem_map_of_mem hk))
    rw [Clauses.expand, hlookup]
    refine Node.resolver_failsOnly (fun err hn hf => absurd hf hn) k.expression
      (foundIn_of_compile h hmem fun p name' path' hw hp => ?_)
    refine expand_failsOnly hacyclic n (hway.step hacyclic ⟨k, hk, htarget, hname, p, hw, hp⟩
      (JoinTree.compile_declares_of_mentions h ⟨_, hmem, hw⟩ hp)) ?_
    rw [List.length_cons]
    omega

variable (hacyclic : q.Acyclic)

include hacyclic

/-- A declared calculation is expanded. -/
theorem scope_failsOnly {path : Path} {name : String} (hd : q.Declares (path, name)) :
    FailsOnly (q.InnerFault d) (((Node.clauses d q).scope t).expand path name) := by
  refine expand_failsOnly h hacyclic _ (.start hd) ?_
  rw [Node.clauses_calculations, List.length_map, List.length_nil, Nat.zero_add]

/-- The nodes of the query are resolved. -/
theorem resolver_settled {n : Node} (hn : n ∈ q.nodes) :
    FailsOnly (q.InnerFault d) (n.resolver d ((Node.clauses d q).scope t)) := by
  refine Node.resolver_failsOnly (fun err hn hf => absurd hf hn) n ?_
  exact foundIn_of_compile h hn fun p name path hw hp =>
    scope_failsOnly h hacyclic (JoinTree.compile_declares_of_mentions h ⟨n, hn, hw⟩ hp)

theorem list_settled {xs : List Resolver} {ns : List Node} (hxs : xs = ns.map (Node.resolver d))
    (hns : ∀ n ∈ ns, n ∈ q.nodes) :
    FailsOnly (q.InnerFault d) (xs.mapM (· ((Node.clauses d q).scope t))) := by
  subst hxs
  exact .mapM (List.forall_mem_map.2 fun n hn => resolver_settled h hacyclic (hns n hn))

theorem conditions_settled : FailsOnly (q.InnerFault d)
    ((Node.clauses d q).conditions.mapM (· ((Node.clauses d q).scope t))) :=
  list_settled h hacyclic (Node.clauses_conditions d q) fun n hn => by simp [QueryOf.nodes, hn]

theorem sorts_settled :
    FailsOnly (q.InnerFault d) ((Node.clauses d q).sorts ((Node.clauses d q).scope t)) := by
  unfold Clauses.sorts
  rw [Node.clauses_orderBys]
  refine .mapM (List.forall_mem_map.2 fun sort hs => .bind (resolver_settled h hacyclic ?_)
    fun _ => .pure _)
  simp only [QueryOf.nodes, List.mem_cons, List.mem_append, List.mem_map]
  exact .inr (.inl (.inl (.inr ⟨sort, hs, rfl⟩)))

theorem item_settled {o : Output} (ho : o ∈ t.outputs) :
    FailsOnly (q.InnerFault d) (Clauses.item ((Node.clauses d q).scope t) o) := by
  cases o with
  | column e c => exact .pure _
  | calculation e c =>
    obtain ⟨he, hc⟩ : e ∈ t.elements ∧ c ∈ e.calculations := by simpa [JoinTree.outputs] using ho
    exact .bind (scope_failsOnly h hacyclic (JoinTree.compile_declares h he hc)) fun _ => .pure _

theorem select_settled (q' : Query) :
    FailsOnly (q.InnerFault d) ((Node.clauses d q).select q' t) := by
  have hgroupBys := list_settled h hacyclic (Node.clauses_groupBys d q) fun n hn => by
    simp [QueryOf.nodes, hn]
  have hhaving := list_settled h hacyclic (Node.clauses_having d q) fun n hn => by
    simp [QueryOf.nodes, hn]
  unfold Clauses.select
  refine .bind (.mapM fun o ho => item_settled h hacyclic ho) fun items => ?_
  have hrest := (conditions_settled h hacyclic (d := d)).bind fun conditions =>
    hgroupBys.bind fun groupBys => hhaving.bind fun having =>
      (sorts_settled h hacyclic).bind fun orderBys => FailsOnly.pure (α := Select) {
        distinct := q'.distinct, items, source := t.source, conditions, groupBys, having, orderBys
        limit := q'.limit, offset := q'.offset, locked := q'.forUpdate }
  split
  · exact .bind (.throw fun hf => hf.elim) fun _ => hrest
  · exact hrest

theorem select_fails {err : Error} (herr : q.select t d = .error err) : q.InnerFault d err :=
  (select_settled h hacyclic q).of_run' herr

theorem counting_fails {err : Error} (herr : q.counting t d = .error err) :
    q.InnerFault d err := by
  refine FailsOnly.of_run' ?_ herr
  split
  · exact (select_settled h hacyclic _).bind fun _ => .pure _
  · refine (conditions_settled h hacyclic).bind fun conditions => ?_
    split
    · exact (sorts_settled h hacyclic).bind fun _ => .pure _
    · exact .pure _

end

namespace QueryOf

/-- A name of the query starts from another table than its root. -/
def Strays (q : Query) : Prop := ∃ n database table hops, q.Mentions n ∧
  n.path? = some (.table database table :: hops) ∧ q.root.path? ≠ some [.table database table]

/-- The query refers to a calculation that it does not declare where it looks for it. -/
def Misses (q : Query) : Prop := ∃ p name, q.Mentions (.calculated p name) ∧
  ∀ k ∈ q.calculations, k.name = name → k.target.path? ≠ p.path?

variable {q : Query}

theorem Strays.not_compiled (h : q.Strays) {projection : Projection} {lead : String}
    {t : JoinTree} : JoinTree.compile projection lead q ≠ .ok t := by
  intro ht
  obtain ⟨n, database, table, hops, hm, hp, hroot⟩ := h
  obtain ⟨r, keys, hr, -⟩ := JoinTree.compile_cases ht
  obtain ⟨root, hqr, hrr, hc, -⟩ := Reads.ofQuery?_adds hr
  obtain ⟨j, hj, hjp⟩ := Reads.exists_join_of_path hr hm hp
  -- every join goes on from the root
  have hprefix := Reads.root_isPrefix hc hj
  rw [hrr, hjp] at hprefix
  obtain ⟨_, hcons⟩ := hprefix
  cases hcons
  exact hroot (by rw [hqr]; rfl)

theorem Misses.not_compiled (h : q.Misses) {projection : Projection} {lead : String}
    {t : JoinTree} : JoinTree.compile projection lead q ≠ .ok t := by
  intro ht
  obtain ⟨p, name, hm, hnone⟩ := h
  obtain ⟨e, -, -, hp⟩ := JoinTree.compile_found ht hm rfl
  obtain ⟨k, hk, htarget, hname⟩ := JoinTree.compile_declares_of_mentions ht hm hp
  exact hnone k hk hname (htarget.trans hp.symm)

/-- **Names are settled by compiling.** A query that names what does not start from its root, or
refers to a calculation that is not declared, is invalid. A query that compiles finds everything
that it names at the element of its path; if no calculation goes round, nothing that it names is
missing when it is written, outside its inner queries. -/
theorem names_settled (q : Query) (projection : Projection) (lead : String) :
    (q.Strays ∨ q.Misses →
      ∃ fault, JoinTree.compile projection lead q = .error (.invalidQuery fault)) ∧
    ∀ t, JoinTree.compile projection lead q = .ok t →
      (∀ n, q.Mentions n → n.isName = true → ∃ e ∈ t.elements, t.elementFor n = .ok e ∧
        n.path? = some e.path ∧
          ∀ p name, n = .calculated p name → ∃ k ∈ e.calculations, k.name = name) ∧
      (q.Acyclic → ∀ d err, q.select t d = .error err ∨ q.counting t d = .error err →
        q.InnerFault d err) := by
  refine ⟨fun h => (JoinTree.compile_ok_or_invalid projection lead q).resolve_left ?_,
    fun t ht => ⟨fun n hm hn => ?_, fun hacyclic d err herr => ?_⟩⟩
  · rintro ⟨t, ht⟩
    rcases h with h | h
    · exact h.not_compiled ht
    · exact h.not_compiled ht
  · obtain ⟨e, he, hfound, hp⟩ := JoinTree.compile_found ht hm hn
    refine ⟨e, he, hfound, hp, ?_⟩
    rintro p name rfl
    exact JoinTree.compile_calculation ht hm he hp
  · rcases herr with herr | herr
    · exact select_fails ht hacyclic herr
    · exact counting_fails ht hacyclic herr

end QueryOf

/-! ## The library -/

namespace Library

/-- The authors with more than two rows, by a calculation that doubles another one. -/
def prolific (authors : Node) : Query where
  root := authors
  selects := []
  conditions := [.operation .gt [.calculated authors "double", .value (.int 2)]]
  orderBys := []
  groupBys := []
  calculations := [⟨authors, "total", .operation .countAll []⟩,
    ⟨authors, "double", .operation .add [.calculated authors "total", .calculated authors "total"]⟩]
  having := []
  limit := none
  offset := none
  distinct := false
  forUpdate := false

theorem prolific_acyclic (authors : Node) : (prolific authors).Acyclic := by
  have hrefers : ∀ a b, (prolific authors).RefersTo a b → a.2 = "double" ∧ b.2 = "total" := by
    rintro a b ⟨k, hk, -, hname, p, hw, -⟩
    rw [← hname]
    simp only [prolific, List.mem_cons, List.not_mem_nil, or_false] at hk
    rcases hk with rfl | rfl
    · rcases hw with - | ⟨hm, -⟩
      cases hm
    · rcases hw with - | ⟨hm, hw⟩
      simp only [List.mem_cons, List.not_mem_nil, or_false, or_self] at hm
      subst hm
      exact ⟨rfl, (Node.calculated.inj (hw.eq rfl)).2⟩
  have htrans : ∀ a b, Relation.TransGen (prolific authors).RefersTo a b →
      a.2 = "double" ∧ b.2 = "total" := by
    intro a b h
    induction h with
    | single h => exact hrefers _ _ h
    | tail _ h ih => exact ⟨ih.1, (hrefers _ _ h).2⟩
  intro a h
  obtain ⟨hd, ht⟩ := htrans a a h
  rw [hd] at ht
  exact absurd ht (by decide)

/-- The table of the authors, that of the tags, and the joins of the query. -/
def prolificTree : Except Error (Node × Node × JoinTree) := do
  let s ← Schema.ofDeclaration declaration
  let authors ← s.chain "authors"
  let tags ← s.chain "tags"
  let t ← JoinTree.compile .objects "" (prolific authors.node)
  .ok (authors.node, tags.node, t)

/-- Whether the tables are two. -/
def prolificApart : Bool :=
  match prolificTree with
  | .ok (.table authors, .table tags, _) => authors.name != tags.name
  | _ => false

theorem exists_prolificTree : ∃ authors tags t,
    prolificTree = .ok (.table authors, .table tags, t) ∧ authors.name ≠ tags.name := by
  have hok : prolificApart = true := by decide +kernel
  unfold prolificApart at hok
  split at hok
  · rename_i authors tags t h
    exact ⟨authors, tags, t, h, bne_iff_ne.1 hok⟩
  · cases hok

/-- The query of the prolific authors; the same query without its calculations, and with a condition
on a table that it does not start from. -/
theorem prolific_names : ∃ authors tags t,
    JoinTree.compile .objects "" (prolific (.table authors)) = .ok t ∧
      (∀ d err, (prolific (.table authors)).select t d = .error err →
        (prolific (.table authors)).InnerFault d err) ∧
      (∃ fault, JoinTree.compile .objects "" { prolific (.table authors) with calculations := [] }
        = .error (.invalidQuery fault)) ∧
      ∃ fault, JoinTree.compile .objects "" { prolific (.table authors) with
        conditions := [.table tags] } = .error (.invalidQuery fault) := by
  obtain ⟨authors, tags, t, h, hne⟩ := exists_prolificTree
  obtain ⟨s, -, h⟩ := bind_eq_ok_iff.1 h
  obtain ⟨a, -, h⟩ := bind_eq_ok_iff.1 h
  obtain ⟨b, -, h⟩ := bind_eq_ok_iff.1 h
  obtain ⟨t', ht, h⟩ := bind_eq_ok_iff.1 h
  obtain ⟨ha, hb, rfl⟩ : a.node = .table authors ∧ b.node = .table tags ∧ t' = t := by
    simpa using h
  rw [ha] at ht
  refine ⟨authors, tags, t', ht, fun d err herr => ?_, ?_, ?_⟩
  · exact ((QueryOf.names_settled _ .objects "").2 t' ht).2 (prolific_acyclic _) d err (.inl herr)
  · refine (QueryOf.names_settled _ .objects "").1 (.inr ⟨.table authors, "double", ?_, ?_⟩)
    · refine ⟨.operation .gt [.calculated (.table authors) "double", .value (.int 2)], ?_,
        .operand List.mem_cons_self .self⟩
      simp [QueryOf.nodes, prolific]
    · intro _ hk
      cases hk
  · refine (QueryOf.names_settled _ .objects "").1
      (.inl ⟨.table tags, tags.database, tags.name, [], ?_, rfl, ?_⟩)
    · exact ⟨_, by simp [QueryOf.nodes, prolific], .self⟩
    · simp [prolific, Node.path?, hne]

end Library

end RecordGraph
