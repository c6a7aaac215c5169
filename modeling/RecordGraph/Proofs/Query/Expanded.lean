import Mathlib.Data.List.Pairwise
import RecordGraph.Proofs.JoinTree.Refused
import RecordGraph.Proofs.Query.NamesFound

/-!
# Calculations that are expanded

A calculation is expanded wherever it is referred to, and so are those that its expression refers
to. Compiling a query checks that they are declared, not that they come to an end: calculations that
go round are expanded forever, and are found out when the query is written.

**Results.**
* `Clauses.expand_eq`: where calculations do not go round, nothing changes when they may be expanded
  deeper.
* `QueryOf.inner_ends`: nor is an inner query expanded forever.
* `QueryOf.expand_fails`: a calculation that goes round never gets an expression.
* `QueryOf.emission_ends`: what ends of a query that compiles, and what does not.
-/
namespace RecordGraph

namespace Emission

variable {α β : Type}

/-- An emission that comes to no result, whatever was emitted before. -/
def Fails (x : Emission α) : Prop := ∀ n, ∃ err, x.run n = .error err

namespace Fails

theorem throw (err : Error) : Fails (MonadExcept.throw err : Emission α) := fun _ => ⟨err, rfl⟩

theorem bind_left {x : Emission α} (hx : Fails x) (f : α → Emission β) : Fails (x >>= f) := by
  intro n
  obtain ⟨err, h⟩ := hx n
  exact ⟨err, by rw [StateT.run_bind, h]; rfl⟩

theorem bind_right (x : Emission α) {f : α → Emission β} (hf : ∀ a, Fails (f a)) :
    Fails (x >>= f) := by
  intro n
  cases h : x.run n with
  | error err => exact ⟨err, by rw [StateT.run_bind, h]; rfl⟩
  | ok p =>
    obtain ⟨err, he⟩ := hf p.1 p.2
    exact ⟨err, by rw [StateT.run_bind, h]; exact he⟩

theorem lift_bind {x : Except Error α} {f : α → Emission β} (hf : ∀ a, x = .ok a → Fails (f a)) :
    Fails (liftM x >>= f) := by
  cases x with
  | ok a => exact hf a rfl
  | error err => exact fun _ => ⟨err, rfl⟩

theorem mapM {f : α → Emission β} {a : α} : ∀ {as : List α}, a ∈ as → Fails (f a) →
    Fails (as.mapM f)
  | b :: as, ha, h => by
    rw [List.mapM_cons]
    rcases List.mem_cons.1 ha with rfl | ha
    · exact h.bind_left _
    · exact .bind_right _ fun _ => (mapM ha h).bind_left _

theorem run' {x : Emission α} (hx : Fails x) (n : Nat) : ∃ err, x.run' n = .error err := by
  obtain ⟨err, h⟩ := hx n
  exact ⟨err, by rw [Emission.run'_eq, h]; rfl⟩

end Fails

theorem lift_bind_congr {x : Except Error α} {f g : α → Emission β}
    (h : ∀ a, x = .ok a → f a = g a) : (liftM x >>= f) = liftM x >>= g := by
  cases x with
  | ok a =>
    funext n
    exact congrFun (h a rfl) n
  | error err => rfl

theorem mapM_congr {f g : α → Emission β} : ∀ {as : List α}, (∀ a ∈ as, f a = g a) →
    as.mapM f = as.mapM g
  | [], _ => by rw [List.mapM_nil, List.mapM_nil]
  | a :: as, h => by
    rw [List.mapM_cons, List.mapM_cons, h a List.mem_cons_self,
      mapM_congr fun x hx => h x (List.mem_cons_of_mem _ hx)]

end Emission

open Emission (Fails FailsOnly)

namespace PairForm

/-- An operand that is left out is null. -/
theorem isNullValue_of_nullTest {op test : Op} {a b : Node} {ofFirst : Bool}
    (h : of op a b = .nullTest test ofFirst) :
    (if ofFirst then b else a).isNullValue = true := by
  unfold of at h
  split at h
  · rename_i hb
    cases h
    exact hb
  · rename_i ha
    cases h
    exact ha
  · split at h
    · split at h <;> cases h
    · split at h <;> cases h

/-- What becomes a pattern is a value. -/
theorem exists_value_of_pattern {op : Op} {a b : Node} {text : String}
    (h : of op a b = .pattern text) : ∃ v, b = .value v := by
  unfold of at h
  split at h
  · cases h
  · cases h
  · split at h
    · exact ⟨_, rfl⟩
    · split at h <;> cases h

end PairForm

namespace Node

variable {d : Dialect}

/-! ## What a node is resolved to -/

/-- A node is resolved by what is found, and by the calculations in it. -/
theorem resolver_ext {s s' : Scope} (hfound : found s = found s') (m : Node)
    (hcalculated : ∀ p name, (calculated p name).Within m →
      (calculated p name).resolver d s = (calculated p name).resolver d s') :
    m.resolver d s = m.resolver d s' := by
  cases m with
  | calculated p name => exact hcalculated p name .self
  | operation op operands =>
    have hoperands : ∀ m ∈ operands, m.resolver d s = m.resolver d s' := fun m hm =>
      resolver_ext hfound m fun p name hw => hcalculated p name (.operand hm hw)
    by_cases hlen : operands.length = 2
    · obtain ⟨a, b, rfl⟩ := List.length_eq_two.1 hlen
      rw [resolver]
      dsimp only
      rw [hoperands a (by simp), hoperands b (by simp)]
    · have hresolved : (operands.map (resolver d)).mapM (· s) =
          (operands.map (resolver d)).mapM (· s') :=
        Emission.mapM_congr (List.forall_mem_map.2 hoperands)
      rw [resolver_operation hlen, resolver_operation hlen, hresolved]
  | _ => simp only [resolver, hfound]

/-- In one tree, a node is resolved by the calculations in it. -/
theorem resolver_congr {tree : JoinTree} {expand expand' : Path → String → Emission Expr} (m : Node)
    (h : ∀ p name path, (calculated p name).Within m → p.path? = some path →
      expand path name = expand' path name) :
    m.resolver d ⟨tree, expand⟩ = m.resolver d ⟨tree, expand'⟩ := by
  have hfound : found ⟨tree, expand⟩ = found ⟨tree, expand'⟩ := rfl
  refine resolver_ext hfound m fun p name hw => ?_
  rw [resolver]
  refine Emission.lift_bind_congr fun e he => ?_
  have hp : p.path? = some e.path := (JoinTree.elementFor_cases (n := .calculated p name) he).2
  exact congrArg (· >>= _) (h p name e.path hw hp)

/-- An operation comes to no result if one of its operands comes to none. -/
theorem operation_fails {s : Scope} {op : Op} {operands : List Node} {m : Node}
    (hm : m ∈ operands) (h : Fails (m.resolver d s)) :
    Fails ((operation op operands).resolver d s) := by
  -- a value is resolved to itself
  have hvalue : ∀ v, m ≠ .value v := by
    rintro v rfl
    obtain ⟨err, he⟩ := h 0
    rw [resolver] at he
    cases he
  have hnull : m.isNullValue = false := by
    rw [← Bool.not_eq_true]
    intro hn
    unfold isNullValue at hn
    split at hn
    · exact hvalue _ rfl
    · cases hn
  by_cases hlen : operands.length = 2
  · obtain ⟨a, b, rfl⟩ := List.length_eq_two.1 hlen
    have hab : m = a ∨ m = b := by simpa using hm
    rw [resolver]
    dsimp only
    split
    · rename_i hform
      have hb := PairForm.isNullValue_of_nullTest hform
      rcases hab with rfl | rfl
      · exact h.bind_left _
      · exact absurd hb (by simp [hnull])
    · rename_i hform
      have ha := PairForm.isNullValue_of_nullTest hform
      rcases hab with rfl | rfl
      · exact absurd ha (by simp [hnull])
      · exact h.bind_left _
    · rename_i hform
      obtain ⟨v, hb⟩ := PairForm.exists_value_of_pattern hform
      rcases hab with rfl | rfl
      · exact h.bind_left _
      · exact absurd hb (hvalue v)
    · exact .throw _
    · rcases hab with rfl | rfl
      · exact h.bind_left _
      · exact .bind_right _ fun _ => h.bind_left _
  · rw [resolver_operation hlen]
    exact (Fails.mapM (List.mem_map_of_mem hm) h).bind_left _

/-- Nor does a node that refers to a calculation that comes to none. -/
theorem resolver_fails {s : Scope} {p m : Node} {name : String}
    (hw : (calculated p name).Within m)
    (h : ∀ path, p.path? = some path → Fails (s.expand path name)) :
    Fails (m.resolver d s) := by
  induction hw with
  | self =>
    rw [resolver]
    exact .lift_bind fun e he => (h e.path (JoinTree.elementFor_cases he).2).bind_left _
  | operand hm _ ih => exact operation_fails hm ih

end Node

/-! ## Calculations that come to an end -/

namespace QueryOf

/-- Neither in the query nor in one inside it, at any depth, do calculations go round. -/
inductive Ends : Query → Prop where
  | mk {q : Query} : q.Acyclic → (∀ inner : Query, q.Mentions (.subquery inner) → Ends inner) →
      Ends q

end QueryOf

/-- An error of a calculation that is needed to expand itself. -/
def Error.IsEndless : Error → Prop
  | .invalidQuery fault => fault.IsEndless
  | _ => False

theorem Error.IsEndless.isNameFault {err : Error} (h : err.IsEndless) : err.IsNameFault := by
  cases err with
  | invalidQuery fault =>
    cases fault with
    | endlessCalculation name => trivial
    | _ => exact h.elim
  | _ => exact h.elim

/-- Compiling expands nothing. -/
theorem JoinTree.compile_walks {projection : Projection} {lead : String} {q : Query} {err : Error}
    (h : JoinTree.compile projection lead q = .error err) : ¬err.IsEndless := by
  cases hr : Reads.ofQuery? q with
  | ok r =>
    rw [compile, hr] at h
    cases h
  | error fault =>
    rw [compile, hr] at h
    cases h
    exact Reads.ofQuery?_walks q fault hr

section
variable {projection : Projection} {lead : String} {q : Query} {t : JoinTree}
  (h : JoinTree.compile projection lead q = .ok t) {d : Dialect}

include h

/-- **Depth.** As many expansions as there are calculations are enough, where these do not go
round: with more of them, everything is expanded to the same. -/
theorem expand_eq (hacyclic : q.Acyclic) : ∀ (n m : Nat) {above : List (Path × String)}
    {path : Path} {name : String}, q.UnderWay above (path, name) →
    q.calculations.length ≤ above.length + n → q.calculations.length ≤ above.length + m →
      (Node.clauses d q).expand t n path name = (Node.clauses d q).expand t m path name
  | 0, _, above, path, name, hway, hn, _ => absurd (hway.length_lt hacyclic) (Nat.not_lt.2 hn)
  | _ + 1, 0, above, path, name, hway, _, hm => absurd (hway.length_lt hacyclic) (Nat.not_lt.2 hm)
  | n + 1, m + 1, above, path, name, hway, hn, hm => by
    obtain ⟨k, hk, htarget, hname, hlookup⟩ := Node.lookup_calculations (d := d) hway.key
    have hmem : k.expression ∈ q.nodes := QueryOf.mem_nodes_of_expression
      (List.mem_append_right _ (List.mem_map_of_mem hk))
    rw [Clauses.expand, Clauses.expand, hlookup]
    refine Node.resolver_congr k.expression fun p name' path' hw hp => ?_
    refine expand_eq hacyclic n m (hway.step hacyclic ⟨k, hk, htarget, hname, p, hw, hp⟩
      (JoinTree.compile_declares_of_mentions h ⟨_, hmem, hw⟩ hp)) ?_ ?_
    · rw [List.length_cons]
      omega
    · rw [List.length_cons]
      omega

/-- Nothing changes for the nodes of a query when calculations may be expanded deeper. -/
theorem resolver_expand_eq (hacyclic : q.Acyclic) {n : Node} (hn : n ∈ q.nodes) {depth : Nat}
    (hdepth : q.calculations.length ≤ depth) :
    n.resolver d ⟨t, (Node.clauses d q).expand t depth⟩ =
      n.resolver d ((Node.clauses d q).scope t) := by
  refine Node.resolver_congr n fun p name path hw hp => ?_
  have hd := JoinTree.compile_declares_of_mentions h ⟨n, hn, hw⟩ hp
  refine expand_eq h hacyclic _ _ (.start hd) (by simpa using hdepth) ?_
  rw [Node.clauses_calculations, List.length_map, List.length_nil, Nat.zero_add]

end

namespace QueryOf

variable {d : Dialect}

/-- Where inner queries are not expanded forever, neither is what they stand in. -/
theorem InnerFault.ends {q : Query} (h : ∀ inner : Query, q.Mentions (.subquery inner) →
    FailsOnly (¬·.IsEndless) ((Node.clauses d inner).inner inner)) {err : Error}
    (herr : q.InnerFault d err) : ¬err.IsEndless := by
  intro hendless
  obtain ⟨inner, number, hm, hrun⟩ := herr hendless.isNameFault
  exact h inner hm number err hrun hendless

theorem inner_ends {q : Query} (hq : q.Ends) :
    FailsOnly (¬·.IsEndless) ((Node.clauses d q).inner q) := by
  induction hq with
  | @mk q hacyclic _ ih =>
    refine .bind (fun _ _ h => nomatch h) fun number => .bind (fun _ _ h => nomatch h) fun _ => ?_
    refine .lift_bind (fun err h => JoinTree.compile_walks h) fun tree htree => ?_
    have hselect : FailsOnly (¬·.IsEndless) ((Node.clauses d q).select q tree) :=
      (select_settled htree hacyclic q).imp fun err herr => herr.ends ih
    dsimp only
    split
    · exact .bind (.throw id) fun _ => hselect
    · exact hselect

/-! ## Calculations that go round -/

section
variable {projection : Projection} {lead : String} {q : Query} {t : JoinTree}
  (h : JoinTree.compile projection lead q = .ok t)

include h

/-- Under a place and a name there is one expression. -/
theorem expression_eq {k k' : Calculation Node} (hk : k ∈ q.calculations)
    (hk' : k' ∈ q.calculations) {path : Path} (hp : k.target.path? = some path)
    (hp' : k'.target.path? = some path) (hname : k.name = k'.name) :
    k.expression = k'.expression := by
  obtain ⟨r, -, hr, -⟩ := JoinTree.compile_cases h
  have hd := (Reads.mem_calculations_iff hr (d := ⟨path, k.name, k.expression⟩)).2
    ⟨k, hk, hp, rfl, rfl⟩
  have hd' := (Reads.mem_calculations_iff hr (d := ⟨path, k.name, k'.expression⟩)).2
    ⟨k', hk', hp', hname.symm, rfl⟩
  have : Std.Symm Declared.Apart := ⟨fun _ _ hab hba => hab ⟨hba.1.symm, hba.2.symm⟩⟩
  by_contra hne
  exact (Reads.calculations_apart hr).forall hd hd'
    (fun he => hne (congrArg Declared.expression he)) ⟨rfl, rfl⟩

/-- **Going round.** A calculation that is needed to expand itself gets no expression, however deep
it is expanded. -/
theorem expand_fails : ∀ (depth : Nat) {a : Path × String},
    Relation.TransGen q.RefersTo a a → Fails ((Node.clauses d q).expand t depth a.1 a.2)
  | 0, _, _ => .throw _
  | depth + 1, a, ha => by
    -- the calculation after this one goes round, too
    obtain ⟨b, hab, hba⟩ := Relation.TransGen.head'_iff.1 ha
    have hb : Relation.TransGen q.RefersTo b b := Relation.TransGen.tail' hba hab
    obtain ⟨k, hk, hp, hname, p, hw, hpath⟩ := hab
    obtain ⟨k', hk', hp', hname', hlookup⟩ := Node.lookup_calculations (d := d) ⟨k, hk, hp, hname⟩
    rw [Clauses.expand, hlookup, ← expression_eq h hk hk' hp hp' (hname.trans hname'.symm)]
    refine Node.resolver_fails hw fun path hpb => ?_
    rw [hpath] at hpb
    cases hpb
    exact expand_fails depth hb

/-- A query with a calculation that goes round is never written. -/
theorem select_fails_of_round {a : Path × String} (ha : Relation.TransGen q.RefersTo a a) :
    ∃ err, q.select t d = .error err := by
  obtain ⟨b, -, k, hk, -, -, p, hw, hp⟩ := Relation.TransGen.tail'_iff.1 ha
  have hm : q.Mentions (.calculated p a.2) := ⟨k.expression, QueryOf.mem_nodes_of_expression
    (List.mem_append_right _ (List.mem_map_of_mem hk)), hw⟩
  obtain ⟨e, he, -, hpath⟩ := JoinTree.compile_found h hm rfl
  have hea : a.1 = e.path := Option.some.inj (hp.symm.trans hpath)
  obtain ⟨c, hc, hname⟩ := JoinTree.compile_calculation h hm he hpath
  have hout : Output.calculation e c ∈ t.outputs :=
    List.mem_append_right _ (List.mem_flatMap.2 ⟨e, he, List.mem_map_of_mem hc⟩)
  have hitem : Fails (Clauses.item ((Node.clauses d q).scope t) (.calculation e c)) := by
    have hexpand := expand_fails h (Node.clauses d q).calculations.length (d := d) ha
    rw [hea, ← hname] at hexpand
    exact hexpand.bind_left _
  exact Fails.run' ((Fails.mapM hout hitem).bind_left _) 0

end

/-- **Emission.** Of a query that compiles, everything is written to its end where calculations do
not go round, neither in the query nor inside it: nothing is lost by bounding the depth of expansion
with their number, and nothing is expanded forever. A calculation that goes round compiles as well,
but gets no expression at any depth, nor does a node that refers to it, and the query is never
written. -/
theorem emission_ends (q : Query) {projection : Projection} {lead : String} {t : JoinTree}
    (h : JoinTree.compile projection lead q = .ok t) (d : Dialect) :
    (q.Ends →
      (∀ n ∈ q.nodes,
        (∀ depth, q.calculations.length ≤ depth →
          n.resolver d ⟨t, (Node.clauses d q).expand t depth⟩ =
            n.resolver d ((Node.clauses d q).scope t)) ∧
        FailsOnly (¬·.IsEndless) (n.resolver d ((Node.clauses d q).scope t))) ∧
      ∀ err, q.select t d = .error err ∨ q.counting t d = .error err → ¬err.IsEndless) ∧
    ∀ a, Relation.TransGen q.RefersTo a a →
      (∀ depth, Fails ((Node.clauses d q).expand t depth a.1 a.2) ∧
        ∀ n p, (Node.calculated p a.2).Within n → p.path? = some a.1 →
          Fails (n.resolver d ⟨t, (Node.clauses d q).expand t depth⟩)) ∧
      ∃ err, q.select t d = .error err := by
  refine ⟨fun hq => ?_, fun a ha => ⟨fun depth => ⟨expand_fails h depth ha, ?_⟩,
    select_fails_of_round h ha⟩⟩
  · obtain ⟨hacyclic, hinner⟩ := hq
    have hends : ∀ inner : Query, q.Mentions (.subquery inner) →
        FailsOnly (¬·.IsEndless) ((Node.clauses d inner).inner inner) :=
      fun inner hm => inner_ends (hinner inner hm)
    refine ⟨fun n hn => ⟨fun depth hdepth => resolver_expand_eq h hacyclic hn hdepth,
      (resolver_settled h hacyclic hn).imp fun err herr => herr.ends hends⟩, fun err herr => ?_⟩
    rcases herr with herr | herr
    · exact (select_fails h hacyclic herr).ends hends
    · exact (counting_fails h hacyclic herr).ends hends
  · intro n p hw hp
    refine Node.resolver_fails hw fun path hpath => ?_
    rw [hp] at hpath
    cases hpath
    exact expand_fails h depth ha

end QueryOf

/-! ## The library -/

namespace Library

/-- The authors, with two calculations that each need the other. -/
def circular (authors : Node) : Query :=
  { QueryOf.all authors with calculations :=
    [⟨authors, "ahead", .calculated authors "behind"⟩,
      ⟨authors, "behind", .calculated authors "ahead"⟩] }

/-- The schema, the table of the authors, and the joins of the query. -/
def circularTree : Except Error (Schema × Node × JoinTree) := do
  let s ← Schema.ofDeclaration declaration
  let authors ← s.chain "authors"
  let t ← JoinTree.compile .objects "" (circular authors.node)
  .ok (s, authors.node, t)

theorem exists_circularTree : ∃ s authors t, circularTree = .ok (s, authors, t) := by
  obtain ⟨⟨s, authors, t⟩, h⟩ := exists_ok_of_isOk (by decide +kernel : circularTree.isOk = true)
  exact ⟨s, authors, t, h⟩

theorem circularTree_cases {s : Schema} {authors : Node} {t : JoinTree}
    (h : circularTree = .ok (s, authors, t)) : Schema.ofDeclaration declaration = .ok s ∧
      (∃ c, s.chain "authors" = .ok c ∧ c.node = authors) ∧
      (∃ u, authors = .table u) ∧ JoinTree.compile .objects "" (circular authors) = .ok t := by
  obtain ⟨s', hs, h⟩ := bind_eq_ok_iff.1 h
  obtain ⟨c, hc, h⟩ := bind_eq_ok_iff.1 h
  obtain ⟨t', ht, h⟩ := bind_eq_ok_iff.1 h
  cases h
  obtain ⟨u, -, hu⟩ := bind_eq_ok_iff.1 hc
  cases hu
  exact ⟨hs, ⟨_, hc, rfl⟩, ⟨u, rfl⟩, ht⟩

theorem circular_nodes (authors : Node) : (circular authors).nodes = [authors, authors,
    .calculated authors "behind", authors, .calculated authors "ahead"] := rfl

theorem circular_over {s : Schema} {c : Chain} (h : s.chain "authors" = .ok c) :
    (circular c.node).Over s := by
  obtain ⟨u, hu, hc⟩ := bind_eq_ok_iff.1 h
  cases hc
  have hroot : (Node.table u).Over s := .table h
  have hcalculated (name : String) : (Node.calculated (.table u) name).Over s :=
    have hstep : Chain.step ⟨s, .table u⟩ (.calculated name) =
      .ok ⟨s, .calculated (.table u) name⟩ := rfl
    .link hroot hstep
  intro n hn
  rw [circular_nodes] at hn
  simp only [List.mem_cons, List.not_mem_nil, or_false] at hn
  rcases hn with rfl | rfl | rfl | rfl | rfl
  · exact hroot
  · exact hroot
  · exact hcalculated "behind"
  · exact hroot
  · exact hcalculated "ahead"

theorem circular_refers (u : Table) {a b : String}
    (h : a = "ahead" ∧ b = "behind" ∨ a = "behind" ∧ b = "ahead") :
    (circular (.table u)).RefersTo ([.table u.database u.name], a)
      ([.table u.database u.name], b) := by
  rcases h with ⟨rfl, rfl⟩ | ⟨rfl, rfl⟩
  · exact ⟨_, List.mem_cons_self, rfl, rfl, _, .self, rfl⟩
  · exact ⟨_, List.mem_cons_of_mem _ List.mem_cons_self, rfl, rfl, _, .self, rfl⟩

theorem circular_round (u : Table) : Relation.TransGen (circular (.table u)).RefersTo
    ([.table u.database u.name], "ahead") ([.table u.database u.name], "ahead") :=
  .tail (.single (circular_refers u (.inl ⟨rfl, rfl⟩))) (circular_refers u (.inr ⟨rfl, rfl⟩))

/-- Each of the two is expanded to the other one. -/
theorem circular_expand {u : Table} {t : JoinTree}
    (h : JoinTree.compile .objects "" (circular (.table u)) = .ok t) {a b : String}
    (hab : a = "ahead" ∧ b = "behind" ∨ a = "behind" ∧ b = "ahead") (d : Dialect) (n : Nat) :
    (Node.clauses d (circular (.table u))).expand t (n + 1) [.table u.database u.name] a =
      (Node.clauses d (circular (.table u))).expand t n [.table u.database u.name] b >>=
        fun expr => pure (.parens expr) := by
  have hk : ⟨.table u, a, .calculated (.table u) b⟩ ∈ (circular (.table u)).calculations := by
    rcases hab with ⟨rfl, rfl⟩ | ⟨rfl, rfl⟩ <;> simp [circular]
  obtain ⟨k, hk', hp, hname, hlookup⟩ := Node.lookup_calculations (d := d) ⟨_, hk, rfl, rfl⟩
  rw [← QueryOf.expression_eq h hk hk' rfl hp hname.symm] at hlookup
  have hm : (circular (.table u)).Mentions (.calculated (.table u) b) := by
    refine ⟨_, ?_, .self⟩
    rw [circular_nodes]
    rcases hab with ⟨-, rfl⟩ | ⟨-, rfl⟩ <;> simp
  obtain ⟨e, -, he, hp⟩ := JoinTree.compile_found h hm rfl
  have hpath : e.path = [.table u.database u.name] := (Option.some.inj hp).symm
  rw [Clauses.expand, hlookup]
  dsimp only
  rw [Node.resolver]
  dsimp only
  rw [he, ← hpath]
  rfl

theorem circular_endless {u : Table} {t : JoinTree}
    (h : JoinTree.compile .objects "" (circular (.table u)) = .ok t) (d : Dialect) :
    ∀ (n : Nat) {a b : String}, (a = "ahead" ∧ b = "behind" ∨ a = "behind" ∧ b = "ahead") →
      ∀ number, ∃ err, err.IsEndless ∧ ((Node.clauses d (circular (.table u))).expand t n
        [.table u.database u.name] a).run number = .error err
  | 0, a, b, _, _ => ⟨.invalidQuery (.endlessCalculation a), trivial, rfl⟩
  | n + 1, a, b, hab, number => by
    obtain ⟨err, hendless, herr⟩ := circular_endless h d n (a := b) (b := a) (by tauto) number
    refine ⟨err, hendless, ?_⟩
    rw [circular_expand h hab, StateT.run_bind, herr]
    rfl

/-- The query of the prolific authors has no query inside it. -/
theorem prolific_plain (u : Table) (inner : Query) :
    ¬(prolific (.table u)).Mentions (.subquery inner) := by
  rintro ⟨m, hm, hw⟩
  have hnodes : (prolific (.table u)).nodes = [.table u,
      .operation .gt [.calculated (.table u) "double", .value (.int 2)], .table u,
      .operation .countAll [], .table u, .operation .add
        [.calculated (.table u) "total", .calculated (.table u) "total"]] := rfl
  have hname : ∀ n : Node, n.isName = true → ¬(Node.subquery inner).Within n := by
    intro n hn h
    have heq := h.eq hn
    subst heq
    cases hn
  rw [hnodes] at hm
  simp only [List.mem_cons, List.not_mem_nil, or_false] at hm
  rcases hm with rfl | rfl | rfl | rfl | rfl | rfl
  · exact hname _ rfl hw
  · rcases hw with - | ⟨hm, hw⟩
    simp only [List.mem_cons, List.not_mem_nil, or_false] at hm
    rcases hm with rfl | rfl
    · exact hname _ rfl hw
    · cases hw
  · exact hname _ rfl hw
  · rcases hw with - | ⟨hm, -⟩
    cases hm
  · exact hname _ rfl hw
  · rcases hw with - | ⟨hm, hw⟩
    simp only [List.mem_cons, List.not_mem_nil, or_false, or_self] at hm
    subst hm
    exact hname _ rfl hw

end Library

namespace QueryOf

/-- The query of the prolific authors is written to its end, although one of its calculations refers
to the other one. -/
theorem library_emission : ∃ u t,
    JoinTree.compile .objects "" (Library.prolific (.table u)) = .ok t ∧
      (Library.prolific (.table u)).Ends ∧
      ∀ d err, (Library.prolific (.table u)).select t d = .error err → ¬err.IsEndless := by
  obtain ⟨u, tags, t, h, -⟩ := Library.exists_prolificTree
  obtain ⟨s, -, h⟩ := bind_eq_ok_iff.1 h
  obtain ⟨a, -, h⟩ := bind_eq_ok_iff.1 h
  obtain ⟨b, -, h⟩ := bind_eq_ok_iff.1 h
  obtain ⟨t', ht, h⟩ := bind_eq_ok_iff.1 h
  obtain ⟨ha, -, rfl⟩ : a.node = .table u ∧ b.node = .table tags ∧ t' = t := by simpa using h
  rw [ha] at ht
  have hends : (Library.prolific (.table u)).Ends := by
    exact .mk (Library.prolific_acyclic _) fun inner hm => (Library.prolific_plain u inner hm).elim
  exact ⟨u, t', ht, hends, fun d err herr =>
    ((emission_ends _ ht d).1 hends).2 err (.inl herr)⟩

/-- A query whose two calculations each need the other compiles over its schema, and neither ever
gets an expression: expanding it ends only where the depth is bounded. -/
theorem exists_endless : ∃ s q t a, Schema.ofDeclaration Library.declaration = .ok s ∧ q.Over s ∧
    JoinTree.compile .objects "" q = .ok t ∧ Relation.TransGen q.RefersTo a a ∧
    ∀ d depth number, ∃ err, err.IsEndless ∧
      ((Node.clauses d q).expand t depth a.1 a.2).run number = .error err := by
  obtain ⟨s, authors, t, h⟩ := Library.exists_circularTree
  obtain ⟨hs, ⟨c, hc, rfl⟩, ⟨u, hu⟩, ht⟩ := Library.circularTree_cases h
  have hover := Library.circular_over hc
  rw [hu] at ht hover
  exact ⟨s, _, t, _, hs, hover, ht, Library.circular_round u, fun d depth number =>
    Library.circular_endless ht d depth (.inl ⟨rfl, rfl⟩) number⟩

end QueryOf

end RecordGraph
