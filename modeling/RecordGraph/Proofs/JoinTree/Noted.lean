import RecordGraph.Proofs.JoinTree.ReadsOver
import RecordGraph.Proofs.JoinTree.Shape
import RecordGraph.Proofs.Node.Matches

/-!
# What the walk of a query notes

The walk appends to what it noted before. What it appends for a node is settled by the node alone,
and so is whether it can: the node has to be of the right shape and to start from the root, and a
calculation must not be declared twice. A `Noted` is all of that.

**Results.**
* `Node.noted`, `QueryOf.noted`: what is noted of an expression, and of a whole query.
* `Reads.Notes`: a step of the walk notes something, and succeeds when that fits.
* `Reads.Notes.bind`, `Reads.Notes.foldlM`: so do chains and walks over lists.
* `Reads.exists_ofQuery?_iff`, `Reads.ofQuery?_notes`: the walk of a whole query.
-/
namespace RecordGraph

/-- Declarations of different calculations. -/
def Declared.Apart (a b : Declared) : Prop := ¬(a.path = b.path ∧ a.name = b.name)

/-- What a step of the walk notes. -/
structure Noted where
  /-- The nodes have the shape that is asked for. -/
  allowed : Prop
  places : List Path
  columns : List ColumnRead
  calculated : List (Path × String)
  calculations : List Declared

namespace Noted

def nothing : Noted := ⟨True, [], [], [], []⟩

/-- What is noted of a node that cannot stand where it does. -/
def refused : Noted := ⟨False, [], [], [], []⟩

/-- One after the other. -/
def and (a b : Noted) : Noted where
  allowed := a.allowed ∧ b.allowed
  places := a.places ++ b.places
  columns := a.columns ++ b.columns
  calculated := a.calculated ++ b.calculated
  calculations := a.calculations ++ b.calculations

/-- What is noted along a list. -/
def all (f : α → Noted) : List α → Noted
  | [] => nothing
  | a :: as => (f a).and (all f as)

variable {f : α → Noted}

theorem all_allowed : ∀ {as : List α}, (all f as).allowed ↔ ∀ a ∈ as, (f a).allowed
  | [] => by simp [all, nothing]
  | a :: as => by rw [all, List.forall_mem_cons, ← all_allowed]; rfl

/-- What is noted along a list is noted at its entries. -/
theorem all_eq (as : List α) : (all f as).places = as.flatMap (fun a => (f a).places) ∧
    (all f as).columns = as.flatMap (fun a => (f a).columns) ∧
    (all f as).calculated = as.flatMap (fun a => (f a).calculated) ∧
    (all f as).calculations = as.flatMap fun a => (f a).calculations := by
  induction as with
  | nil => exact ⟨rfl, rfl, rfl, rfl⟩
  | cons a as ih =>
    obtain ⟨hp, hc, hcd, hcs⟩ := ih
    simp only [all, and, hp, hc, hcd, hcs, List.flatMap_cons, and_self]

/-- The way to a node. -/
def way (n : Node) : Noted := { nothing with places := n.path?.toList }

/-- Columns of the table that a node stands for. -/
def read (n : Node) (selected : Bool) (columns : Table → List Column) : Noted :=
  { way n with
    columns := n.path?.toList.flatMap fun path =>
      (n.target?.map columns).getD [] |>.map fun c => ⟨path, c, selected⟩ }

end Noted

namespace Node

mutual

/-- What is noted of an expression. -/
def noted : Node → Noted
  | .column p c => .read p false fun _ => [c]
  | .calculated p name =>
    { Noted.way p with calculated := p.path?.toList.map fun path => (path, name) }
  | .operation _ operands => notedAll operands
  | .value _ | .subquery _ => .nothing
  | n => .read n false fun t => [t.primaryKey]

def notedAll : List Node → Noted
  | [] => .nothing
  | n :: rest => n.noted.and (notedAll rest)

end

theorem notedAll_eq (ns : List Node) : notedAll ns = Noted.all noted ns := by
  induction ns with
  | nil => rfl
  | cons n rest ih => rw [notedAll, ih, Noted.all]

/-- What is noted of a node to group by. -/
def notedGroupBy : Node → Noted
  | .column p c => .read p true fun _ => [c]
  | _ => .refused

/-- What is noted of a node to select. -/
def notedSelect (n : Node) : Noted :=
  match n with
  | .column p c => .read p true fun _ => [c]
  | n => if n.isTableLike then .read n true (·.columns) else .refused

/-- What is noted of a node that is selected in a grouped query. -/
def notedGrouped (groupBys : List Node) (n : Node) : Noted :=
  { Noted.nothing with allowed := groupBys.any (·.alike n) = true }

/-- What is selected in a grouped query adds nothing. -/
theorem all_notedGrouped (groupBys ns : List Node) :
    (Noted.all (notedGrouped groupBys) ns).places = [] ∧
      (Noted.all (notedGrouped groupBys) ns).columns = [] ∧
      (Noted.all (notedGrouped groupBys) ns).calculated = [] := by
  obtain ⟨hp, hc, hcd, -⟩ := Noted.all_eq (f := notedGrouped groupBys) ns
  rw [hp, hc, hcd]
  exact ⟨List.flatMap_eq_nil_iff.2 fun _ _ => rfl, List.flatMap_eq_nil_iff.2 fun _ _ => rfl,
    List.flatMap_eq_nil_iff.2 fun _ _ => rfl⟩

mutual

/-- Expressions declare nothing. -/
theorem noted_calculations : ∀ n : Node, n.noted.calculations = []
  | .column p c => by rw [noted]; rfl
  | .calculated p name => by rw [noted]; rfl
  | .operation op operands => by rw [noted]; exact notedAll_calculations operands
  | .value v => by rw [noted]; rfl
  | .subquery q => by rw [noted]; rfl
  | .table t => by rw [noted] <;> first | rfl | simp
  | .reference p r t => by rw [noted] <;> first | rfl | simp
  | .reverse p r t => by rw [noted] <;> first | rfl | simp
  | .manyMany p r t => by rw [noted] <;> first | rfl | simp

theorem notedAll_calculations : ∀ ns : List Node, (notedAll ns).calculations = []
  | [] => by rw [notedAll]; rfl
  | n :: rest => by
    rw [notedAll, Noted.and, noted_calculations n, notedAll_calculations rest]
    rfl

end

end Node

/-- What is noted of a calculation. -/
def Calculation.noted (c : Calculation Node) : Noted :=
  if c.target.isTableLike then
    ((Noted.way c.target).and c.expression.noted).and
      { Noted.nothing with
        calculations := c.target.path?.toList.map fun path => ⟨path, c.name, c.expression⟩ }
  else .refused

/-- What is noted of a query. -/
def QueryOf.noted (q : Query) : Noted :=
  ((((((Noted.all Node.notedGroupBy q.groupBys).and
    (Noted.all (if !q.groupBys.isEmpty then Node.notedGrouped q.groupBys else Node.notedSelect)
      q.selects)).and
    (if q.selects.isEmpty && !(!q.groupBys.isEmpty) then .read q.root true (·.columns)
      else .nothing)).and
    (Noted.all Node.noted q.conditions)).and
    (Noted.all Node.noted (q.orderBys.map (·.node)))).and
    (Noted.all Node.noted q.having)).and
    (Noted.all Calculation.noted q.calculations)

/-- What a query declares is what its calculations declare. -/
theorem QueryOf.noted_calculations_eq (q : Query) : q.noted.calculations =
    q.calculations.flatMap fun c => c.noted.calculations := by
  have hexprs : ∀ ns, (Noted.all Node.noted ns).calculations = [] := by
    intro ns
    rw [← Node.notedAll_eq, Node.notedAll_calculations]
  have hgroup : (Noted.all Node.notedGroupBy q.groupBys).calculations = [] := by
    rw [(Noted.all_eq _).2.2.2, List.flatMap_eq_nil_iff]
    intro n _
    cases n <;> rfl
  have hselect : (Noted.all (if !q.groupBys.isEmpty then Node.notedGrouped q.groupBys
      else Node.notedSelect) q.selects).calculations = [] := by
    rw [(Noted.all_eq _).2.2.2, List.flatMap_eq_nil_iff]
    intro n _
    split
    · rfl
    · cases n <;> rfl
  have hroot : (if q.selects.isEmpty && !(!q.groupBys.isEmpty) then
      Noted.read q.root true (·.columns) else .nothing).calculations = [] := by
    split <;> rfl
  simp only [QueryOf.noted, Noted.and, hexprs, hgroup, hselect, hroot, List.nil_append]
  exact (Noted.all_eq _).2.2.2

/-- The nodes of a query over a schema are over it, list by list. -/
structure QueryOf.Parts (s : Schema) (q : Query) : Prop where
  root : q.root.Over s
  groupBys : ∀ n ∈ q.groupBys, n.Over s
  selects : ∀ n ∈ q.selects, n.Over s
  conditions : ∀ n ∈ q.conditions, n.Over s
  orderBys : ∀ n ∈ q.orderBys.map (·.node), n.Over s
  having : ∀ n ∈ q.having, n.Over s
  targets : ∀ c ∈ q.calculations, c.target.Over s
  expressions : ∀ c ∈ q.calculations, c.expression.Over s

theorem QueryOf.Over.parts {s : Schema} {q : Query} (hq : q.Over s) : q.Parts s := by
  have hnodes : ∀ n ∈ q.nodes, n.Over s := hq
  simp only [QueryOf.nodes, List.mem_cons, List.mem_append, List.mem_flatMap, or_imp,
    forall_and, forall_eq] at hnodes
  obtain ⟨hor, ⟨⟨⟨⟨hog, hos⟩, hoc⟩, hoo⟩, hoh⟩, hocalc⟩ := hnodes
  exact ⟨hor, hog, hos, hoc, hoo, hoh, fun c hc => hocalc _ ⟨c, hc, by simp⟩,
    fun c hc => hocalc _ ⟨c, hc, by simp⟩⟩

/-- What can be noted where the walk stands. -/
structure Noted.Fits (n : Noted) (r : Reads) : Prop where
  allowed : n.allowed
  rooted : ∀ p ∈ n.places, r.root.path <+: p
  calculations : (r.calculations ++ n.calculations).Pairwise Declared.Apart

/-- `r'` is `r` with something noted. -/
structure Noted.Adds (n : Noted) (r r' : Reads) : Prop where
  root : r'.root = r.root
  columns : r'.columns = r.columns ++ n.columns
  calculated : r'.calculated = r.calculated ++ n.calculated
  calculations : r'.calculations = r.calculations ++ n.calculations

/-- What has the right shape and starts from the root fits if it declares nothing. -/
theorem Noted.Fits.of_undeclared {s : Schema} {r : Reads} (ho : r.Over s) {n : Noted}
    (ha : n.allowed) (hr : ∀ p ∈ n.places, r.root.path <+: p) (hn : n.calculations = []) :
    n.Fits r := by
  refine ⟨ha, hr, ?_⟩
  rw [hn, List.append_nil]
  exact ho.calculations

/-- Nothing noted. -/
theorem Noted.Adds.of_nothing {r : Reads} {n : Noted} (hc : n.columns = [])
    (hcd : n.calculated = []) (hcs : n.calculations = []) : n.Adds r r :=
  ⟨rfl, by rw [hc, List.append_nil], by rw [hcd, List.append_nil], by rw [hcs, List.append_nil]⟩

namespace Reads

variable {s : Schema}

/-- A step of the walk notes `n`, and succeeds exactly where that fits. -/
structure Notes (s : Schema) (f : Reads → Except QueryFault Reads) (n : Noted) : Prop where
  succeeds : ∀ r : Reads, r.Over s → n.Fits r → ∃ r', f r = .ok r'
  adds : ∀ r r' : Reads, r.Over s → f r = .ok r' → r'.Over s ∧ n.Fits r ∧ n.Adds r r'

/-- Steps that differ in nothing where the walk stands. -/
theorem Notes.congr {f g : Reads → Except QueryFault Reads} {n : Noted} (h : Notes s f n)
    (hfg : ∀ r, g r = f r) : Notes s g n := by
  obtain rfl : g = f := funext hfg
  exact h

theorem Notes.nothing : Notes s .ok .nothing where
  succeeds r _ _ := ⟨r, rfl⟩
  adds r r' ho h := by
    cases h
    exact ⟨ho, .of_undeclared ho trivial (by simp [Noted.nothing]) rfl, .of_nothing rfl rfl rfl⟩

theorem Notes.refused {f : Reads → Except QueryFault Reads} (h : ∀ r r', f r ≠ .ok r') :
    Notes s f .refused where
  succeeds _ _ hfit := hfit.allowed.elim
  adds r r' _ hf := absurd hf (h r r')

/-- A chain of two steps notes what they note. -/
theorem Notes.bind {f g : Reads → Except QueryFault Reads} {n m : Noted} (hf : Notes s f n)
    (hg : Notes s g m) : Notes s (fun r => f r >>= g) (n.and m) where
  succeeds r ho hfit := by
    have hcalc : (r.calculations ++ n.calculations ++ m.calculations).Pairwise Declared.Apart := by
      rw [List.append_assoc]
      exact hfit.calculations
    have hn : n.Fits r := ⟨hfit.allowed.1, fun p hp => hfit.rooted p (List.mem_append_left _ hp),
      (List.pairwise_append.1 hcalc).1⟩
    obtain ⟨r₁, h1⟩ := hf.succeeds r ho hn
    obtain ⟨ho1, -, ha⟩ := hf.adds r r₁ ho h1
    have hm : m.Fits r₁ := by
      refine ⟨hfit.allowed.2, fun p hp => ?_, ?_⟩
      · rw [ha.root]
        exact hfit.rooted p (List.mem_append_right _ hp)
      · rw [ha.calculations]
        exact hcalc
    obtain ⟨r₂, h2⟩ := hg.succeeds r₁ ho1 hm
    exact ⟨r₂, bind_eq_ok_iff.2 ⟨r₁, h1, h2⟩⟩
  adds r r' ho h := by
    obtain ⟨r₁, h1, h2⟩ := bind_eq_ok_iff.1 h
    obtain ⟨ho1, hn, ha⟩ := hf.adds r r₁ ho h1
    obtain ⟨ho2, hm, hb⟩ := hg.adds r₁ r' ho1 h2
    refine ⟨ho2, ⟨⟨hn.allowed, hm.allowed⟩, fun p hp => ?_, ?_⟩,
      ⟨hb.root.trans ha.root, ?_, ?_, ?_⟩⟩
    · rcases List.mem_append.1 hp with hp | hp
      · exact hn.rooted p hp
      · exact ha.root ▸ hm.rooted p hp
    · have := hm.calculations
      rwa [ha.calculations, List.append_assoc] at this
    · rw [hb.columns, ha.columns, List.append_assoc]; rfl
    · rw [hb.calculated, ha.calculated, List.append_assoc]; rfl
    · rw [hb.calculations, ha.calculations, List.append_assoc]; rfl

/-- A walk over a list notes what its steps note. -/
theorem Notes.foldlM {α : Type} {f : Reads → α → Except QueryFault Reads} {note : α → Noted} :
    ∀ {as : List α}, (∀ a ∈ as, Notes s (f · a) (note a)) →
      Notes s (fun r => as.foldlM f r) (Noted.all note as)
  | [], _ => Notes.nothing
  | a :: as, h => by
    have hrest := Notes.foldlM fun b hb => h b (List.mem_cons_of_mem _ hb)
    exact ((h a List.mem_cons_self).bind hrest).congr fun r => List.foldlM_cons ..

/-! ## The functions of the walk -/

/-- A way that starts from the root can be joined. -/
theorem exists_ensure {r : Reads} (hc : r.Closed) {n : Node} {t : Table} (hn : n.Over s)
    (ht : n.target? = some t) {path : Path} (hp : n.path? = some path)
    (hroot : r.root.path <+: path) : ∃ r', r.ensure n = .ok r' := by
  -- on the chain of relations that ends in `n`
  unfold ensure
  simp only [hp]
  by_cases hj : (r.join? path).isSome
  · exact ⟨r, by rw [if_pos hj]⟩
  · rw [if_neg hj]
    have hlink : ∀ {p : Node} {rel : Relation} {u : Table}, n.link? = some (p, rel, u) →
        ∃ r', r.ensure p = .ok r' := by
      intro p rel u hl
      have := Node.sizeOf_lt_of_link hl
      obtain ⟨hpo, v, -, hv, -, -⟩ := hn.of_link hl
      obtain ⟨start, hop, hs, -, rfl⟩ := Node.path?_of_link hl hp
      have hlen := List.length_pos_iff.2 (Node.path?_ne_nil hs)
      refine exists_ensure hc hpo hv hs ?_
      exact List.prefix_of_prefix_length_le hroot (List.prefix_append start [hop])
        (by rw [hc.root_length]; omega)
    cases n with
    | table u =>
      -- the only path of one hop that starts from the root is the root's
      cases hp
      refine absurd (join?_isSome_iff.2 ?_) hj
      rw [← hroot.eq_of_length (by rw [hc.root_length]; rfl)]
      exact List.mem_cons_self
    | reference p rel u =>
      obtain ⟨r', hr⟩ := hlink rfl
      exact ⟨_, bind_eq_ok_iff.2 ⟨r', hr, rfl⟩⟩
    | reverse p rel u =>
      obtain ⟨r', hr⟩ := hlink rfl
      exact ⟨_, bind_eq_ok_iff.2 ⟨r', hr, rfl⟩⟩
    | manyMany p rel u =>
      obtain ⟨r', hr⟩ := hlink rfl
      exact ⟨_, bind_eq_ok_iff.2 ⟨r', hr, rfl⟩⟩
    | _ => cases ht
termination_by sizeOf n

/-- Joining touches nothing else. -/
theorem ensure_keeps {r r' : Reads} {n : Node} (h : r.ensure n = .ok r') :
    r'.root = r.root ∧ r'.columns = r.columns ∧ r'.calculated = r.calculated ∧
      r'.calculations = r.calculations := by
  obtain ⟨path, hp, ⟨-, rfl⟩ | ⟨-, p, rel, t, r₁, hl, h1, rfl⟩⟩ := ensure_cases h
  · exact ⟨rfl, rfl, rfl, rfl⟩
  · have := Node.sizeOf_lt_of_link hl
    have hkeeps := ensure_keeps h1
    exact hkeeps
termination_by sizeOf n

theorem ensure_notes {n : Node} {t : Table} (hn : n.Over s) (ht : n.target? = some t) :
    Notes s (·.ensure n) (.way n) where
  succeeds r ho hfit := by
    obtain ⟨path, hp, -⟩ := hn.join?_eq ht
    refine exists_ensure ho.toClosed hn ht hp (hfit.rooted path ?_)
    simp [Noted.way, hp]
  adds r r' ho h := by
    have ho' := ensure_over ho hn h
    obtain ⟨hr, hcols, hcalcd, hcalcs⟩ := ensure_keeps h
    obtain ⟨path, hp, hm, -⟩ := ensure_adds ho.toClosed h
    obtain ⟨j, hj, rfl⟩ := mem_paths_iff.1 hm
    refine ⟨ho', .of_undeclared ho trivial (fun p hpm => ?_) rfl, ⟨hr, ?_, ?_, ?_⟩⟩
    · obtain rfl : p = j.path := by simpa [Noted.way, hp] using hpm
      exact hr ▸ root_isPrefix ho'.toClosed hj
    · simp [hcols, Noted.way, Noted.nothing]
    · simp [hcalcd, Noted.way, Noted.nothing]
    · simp [hcalcs, Noted.way, Noted.nothing]

theorem read_notes {n : Node} {t : Table} (hn : n.Over s) (ht : n.target? = some t)
    (selected : Bool) {columns : Table → List Column} (hcols : ∀ c ∈ columns t, c ∈ t.columns) :
    Notes s (·.read n selected columns) (.read n selected columns) := by
  obtain ⟨path, hp, hjoin⟩ := hn.join?_eq ht
  have hway := ensure_notes hn ht
  refine ⟨fun r ho hfit => ?_, fun r r' ho h => ?_⟩
  · obtain ⟨r₁, h1⟩ := hway.succeeds r ho ⟨trivial, hfit.rooted, hfit.calculations⟩
    obtain ⟨path', hp', hm, -⟩ := ensure_adds ho.toClosed h1
    obtain rfl : path = path' := Option.some.inj (hp.symm.trans hp')
    obtain ⟨j, hj⟩ := Option.isSome_iff_exists.1 (join?_isSome_iff.2 hm)
    exact ⟨_, bind_eq_ok_iff.2 ⟨r₁, h1, by simp only [hp, Option.bind_some, hj]; rfl⟩⟩
  · have ho' := read_over ho hn ht hcols h
    obtain ⟨r₁, path', j, h1, hp', hj, rfl⟩ := read_cases ho.toClosed h
    obtain rfl : path = path' := Option.some.inj (hp.symm.trans hp')
    obtain ⟨ho1, hfit, hadds⟩ := hway.adds r r₁ ho h1
    have htable : j.table = t := by
      obtain ⟨hjm, hjp⟩ := mem_of_join? hj
      have := ho1.joins j hjm
      rw [hjp, hjoin] at this
      exact (Prod.mk.inj (Option.some.inj this)).2.symm
    refine ⟨ho', ⟨trivial, hfit.rooted, hfit.calculations⟩, ⟨hadds.root, ?_, hadds.calculated,
      hadds.calculations⟩⟩
    have h1cols := hadds.columns
    simp only [Noted.way, Noted.nothing, List.append_nil] at h1cols
    simp [Noted.read, hp, ht, h1cols, htable]

theorem read_column_notes {p : Node} {c : Column} (hn : (Node.column p c).Over s)
    (selected : Bool) :
    Notes s (·.read p selected fun _ => [c]) (.read p selected fun _ => [c]) := by
  obtain ⟨hp, t, ht, hc⟩ := hn.of_column
  exact read_notes hp ht selected (by simpa using hc)

theorem read_key_notes {n : Node} {t : Table} (hn : n.Over s) (ht : n.target? = some t) :
    Notes s (·.read n false fun t => [t.primaryKey]) (.read n false fun t => [t.primaryKey]) :=
  read_notes hn ht false (by simpa using t.primaryKey_mem)

theorem calculated_notes {p : Node} {name : String} (hn : (Node.calculated p name).Over s) :
    Notes s (·.expression (.calculated p name)) (Node.calculated p name).noted := by
  obtain ⟨hp, t, ht⟩ := hn.of_calculated_target
  obtain ⟨path, hpath, -⟩ := hp.join?_eq ht
  have hway := ensure_notes hp ht
  refine ⟨fun r ho hfit => ?_, fun r r' ho h => ?_⟩
  · rw [Node.noted] at hfit
    obtain ⟨r₁, h1⟩ := hway.succeeds r ho ⟨trivial, hfit.rooted, hfit.calculations⟩
    exact ⟨_, by rw [expression]; exact bind_eq_ok_iff.2 ⟨r₁, h1, rfl⟩⟩
  · have ho' := expression_over ho hn h
    rw [expression] at h
    obtain ⟨r₁, h1, h2⟩ := bind_eq_ok_iff.1 h
    obtain ⟨-, hfit, hadds⟩ := hway.adds r r₁ ho h1
    cases h2
    refine ⟨ho', ?_, ?_⟩
    · rw [Node.noted]
      exact ⟨trivial, hfit.rooted, hfit.calculations⟩
    · rw [Node.noted]
      refine ⟨hadds.root, hadds.columns, ?_, hadds.calculations⟩
      have hc := hadds.calculated
      simp only [Noted.way, Noted.nothing, List.append_nil] at hc
      simp [hpath, hc]

mutual

theorem expression_notes : ∀ {n : Node}, n.Over s → Notes s (·.expression n) n.noted
  | .column p c, hn => by
    rw [Node.noted]
    exact (read_column_notes hn false).congr fun r => by rw [expression]
  | .calculated p name, hn => calculated_notes hn
  | .operation op operands, hn => by
    rw [Node.noted]
    exact (expressions_notes hn.of_operation).congr fun r => by rw [expression]
  | .value v, _ => by
    rw [Node.noted]
    exact Notes.nothing.congr fun r => by rw [expression]
  | .subquery q, _ => by
    rw [Node.noted]
    exact Notes.nothing.congr fun r => by rw [expression]
  | .table t, hn => by
    rw [Node.noted] <;> try simp
    exact (read_key_notes hn rfl).congr fun r => by rw [expression] <;> simp
  | .reference p rel t, hn => by
    rw [Node.noted] <;> try simp
    exact (read_key_notes hn rfl).congr fun r => by rw [expression] <;> simp
  | .reverse p rel t, hn => by
    rw [Node.noted] <;> try simp
    exact (read_key_notes hn rfl).congr fun r => by rw [expression] <;> simp
  | .manyMany p rel t, hn => by
    rw [Node.noted] <;> try simp
    exact (read_key_notes hn rfl).congr fun r => by rw [expression] <;> simp

theorem expressions_notes : ∀ {ns : List Node}, (∀ n ∈ ns, n.Over s) →
    Notes s (·.expressions ns) (Node.notedAll ns)
  | [], _ => by
    rw [Node.notedAll]
    exact Notes.nothing.congr fun r => by rw [expressions]
  | n :: rest, h => by
    rw [Node.notedAll]
    have hrest := expressions_notes fun m hm => h m (List.mem_cons_of_mem _ hm)
    exact ((expression_notes (h n List.mem_cons_self)).bind hrest).congr fun r => by
      rw [expressions]

end

theorem groupBy_notes {n : Node} (hn : n.Over s) : Notes s (·.groupBy n) n.notedGroupBy := by
  cases n with
  | column p c => exact read_column_notes hn true
  | _ => exact .refused fun r r' h => by cases h

theorem selectAll_notes {n : Node} {t : Table} (hn : n.Over s) (ht : n.target? = some t) :
    Notes s (·.selectAll n) (.read n true (·.columns)) :=
  read_notes hn ht true fun _ hc => hc

theorem select_notes {n : Node} (hn : n.Over s) : Notes s (·.select n) n.notedSelect := by
  cases n with
  | column p c => exact read_column_notes hn true
  | table t => exact selectAll_notes hn rfl
  | reference p r t => exact selectAll_notes hn rfl
  | reverse p r t => exact selectAll_notes hn rfl
  | manyMany p r t => exact selectAll_notes hn rfl
  | _ => exact .refused fun r r' h => by cases h

theorem selectGrouped_notes (groupBys : List Node) (n : Node) :
    Notes s (selectGrouped groupBys · n) (n.notedGrouped groupBys) where
  succeeds r _ hfit := ⟨r, if_pos hfit.allowed⟩
  adds r r' ho h := by
    unfold selectGrouped at h
    split at h
    · rename_i hany
      cases h
      refine ⟨ho, .of_undeclared ho hany ?_ rfl, .of_nothing rfl rfl rfl⟩
      simp [Node.notedGrouped, Noted.nothing]
    · cases h

theorem declare_notes {c : Calculation Node} (ht : c.target.Over s) (he : c.expression.Over s) :
    Notes s (·.declare c) c.noted := by
  cases hlike : c.target.isTableLike with
  | false =>
    rw [Calculation.noted, hlike, if_neg Bool.false_ne_true]
    refine .refused fun r r' h => ?_
    obtain ⟨_, _, htrue, -⟩ := declare_cases h
    exact Bool.false_ne_true (hlike.symm.trans htrue)
  | true =>
    rw [Calculation.noted, hlike, if_pos rfl]
    obtain ⟨t, htt⟩ : ∃ t, c.target.target? = some t := by
      cases hc : c.target <;> simp_all [Node.isTableLike, Node.target?]
    obtain ⟨path, hp, -⟩ := ht.join?_eq htt
    simp only [hp, Option.toList_some, List.map_cons, List.map_nil]
    have hchain := (ensure_notes ht htt).bind (expression_notes he)
    refine ⟨fun r ho hfit => ?_, fun r r' ho h => ?_⟩
    · have hcalc := hfit.calculations
      simp only [Noted.and, Noted.way, Noted.nothing, Node.noted_calculations,
        List.nil_append] at hcalc
      obtain ⟨hcalc, -, hnew⟩ := List.pairwise_append.1 hcalc
      obtain ⟨r₂, h2⟩ := hchain.succeeds r ho (.of_undeclared ho hfit.allowed.1
        (fun p hpm => hfit.rooted p (List.mem_append_left _ hpm)) (Node.noted_calculations _))
      obtain ⟨-, -, hadds⟩ := hchain.adds r r₂ ho h2
      obtain ⟨r₁, h1, h2⟩ := bind_eq_ok_iff.1 h2
      have hsame : r₂.calculations = r.calculations := by
        rw [hadds.calculations]
        simp only [Noted.and, Noted.way, Noted.nothing, Node.noted_calculations, List.append_nil]
      have hany : r₂.calculations.any (fun d => d.path == path && d.name == c.name) = false := by
        refine List.any_eq_false.2 fun d hd => ?_
        have := hnew d (hsame ▸ hd) _ (List.mem_singleton_self _)
        simpa [Declared.Apart] using this
      refine ⟨{ r₂ with calculations := r₂.calculations ++ [⟨path, c.name, c.expression⟩] }, ?_⟩
      rw [declare, hlike]
      refine bind_eq_ok_iff.2 ⟨r₁, h1, bind_eq_ok_iff.2 ⟨r₂, h2, ?_⟩⟩
      simp only [hp, hany, Bool.false_eq_true, if_false]
    · have ho' := declare_over ho ht he h
      obtain ⟨r₁, r₂, -, h1, h2, ⟨hnone, -⟩ | ⟨path', hp', -, rfl⟩⟩ := declare_cases h
      · rw [hp] at hnone
        cases hnone
      · obtain rfl : path = path' := Option.some.inj (hp.symm.trans hp')
        obtain ⟨-, hfit, hadds⟩ := hchain.adds r r₂ ho (bind_eq_ok_iff.2 ⟨r₁, h1, h2⟩)
        have hsame := hadds.calculations
        simp only [Noted.and, Noted.way, Noted.nothing, Node.noted_calculations, List.append_nil]
          at hsame
        refine ⟨ho', ⟨⟨hfit.allowed, trivial⟩, fun p hpm => ?_, ?_⟩, ⟨hadds.root, ?_, ?_, ?_⟩⟩
        · refine hfit.rooted p ?_
          simpa [Noted.and, Noted.nothing] using hpm
        · have hcalc : (r₂.calculations ++ [_]).Pairwise Declared.Apart := ho'.calculations
          rw [hsame] at hcalc
          simpa only [Noted.and, Noted.way, Noted.nothing, Node.noted_calculations, List.nil_append]
            using hcalc
        · simpa [Noted.and, Noted.nothing] using hadds.columns
        · simpa [Noted.and, Noted.nothing] using hadds.calculated
        · simp only [Noted.and, Noted.way, Noted.nothing, Node.noted_calculations, List.nil_append,
            hsame]

/-! ## The whole walk -/

/-- What a query notes before the calculations that it refers to are looked up. -/
def walk (q : Query) (r : Reads) : Except QueryFault Reads := do
  let r ← q.groupBys.foldlM groupBy r
  let r ← q.selects.foldlM
    (if !q.groupBys.isEmpty then selectGrouped q.groupBys else select) r
  let r ← (if q.selects.isEmpty && !(!q.groupBys.isEmpty) then r.selectAll q.root else .ok r :
    Except QueryFault Reads)
  let r ← r.expressions q.conditions
  let r ← r.expressions (q.orderBys.map (·.node))
  let r ← r.expressions q.having
  q.calculations.foldlM declare r

theorem walk_notes {q : Query} (hq : q.Over s) {t : Table} (hroot : q.root.target? = some t) :
    Notes s (walk q) q.noted := by
  have p := hq.parts
  have h1 : Notes s (fun r => q.groupBys.foldlM groupBy r) _ :=
    Notes.foldlM fun n hn => groupBy_notes (p.groupBys n hn)
  have h2 : Notes s (fun r => q.selects.foldlM
      (if !q.groupBys.isEmpty then selectGrouped q.groupBys else select) r)
      (Noted.all (if !q.groupBys.isEmpty then Node.notedGrouped q.groupBys else Node.notedSelect)
        q.selects) := by
    refine Notes.foldlM fun n hn => ?_
    split
    · exact selectGrouped_notes q.groupBys n
    · exact select_notes (p.selects n hn)
  have h3 : Notes s (fun r => if q.selects.isEmpty && !(!q.groupBys.isEmpty) then
      r.selectAll q.root else .ok r)
      (if q.selects.isEmpty && !(!q.groupBys.isEmpty) then .read q.root true (·.columns)
        else .nothing) := by
    split
    · exact selectAll_notes p.root hroot
    · exact Notes.nothing
  have h4 := expressions_notes p.conditions
  have h5 := expressions_notes p.orderBys
  have h6 := expressions_notes p.having
  have h7 : Notes s (fun r => q.calculations.foldlM declare r) _ :=
    Notes.foldlM fun c hc => declare_notes (p.targets c hc) (p.expressions c hc)
  have hall := (((((h1.bind h2).bind h3).bind h4).bind h5).bind h6).bind h7
  simp only [Node.notedAll_eq] at hall
  refine hall.congr fun r => ?_
  simp only [walk, bind_assoc]

/-- Every calculation that is referred to is declared. -/
theorem checkCalculated_eq_ok_iff {r : Reads} : ∀ {refs : List (Path × String)},
    r.checkCalculated refs = .ok () ↔
      ∀ p ∈ refs, ∃ d ∈ r.calculations, d.path = p.1 ∧ d.name = p.2
  | [] => by simp [checkCalculated]
  | (path, name) :: rest => by
    rw [checkCalculated, List.forall_mem_cons]
    split
    · rename_i hany
      rw [checkCalculated_eq_ok_iff]
      have : ∃ d ∈ r.calculations, d.path = path ∧ d.name = name := by simpa using hany
      exact ⟨fun h => ⟨this, h⟩, fun h => h.2⟩
    · rename_i hany
      have : ¬∃ d ∈ r.calculations, d.path = path ∧ d.name = name := by simpa using hany
      exact ⟨fun h => (nomatch h), fun h => absurd h.1 this⟩

theorem ofQuery?_eq_ok_iff {q : Query} {t : Table} (hroot : q.root = .table t) {r : Reads} :
    ofQuery? q = .ok r ↔ walk q (start [.table t.database t.name] t) = .ok r ∧
      r.checkCalculated r.calculated = .ok () := by
  constructor
  · intro h
    obtain ⟨t', r₁, r₂, r₃, r₄, r₅, r₆, hroot', h1, h2, h3, h4, h5, h6, h7, h8⟩ := ofQuery?_cases h
    cases hroot.symm.trans hroot'
    refine ⟨?_, h8⟩
    exact bind_eq_ok_iff.2 ⟨r₁, h1, bind_eq_ok_iff.2 ⟨r₂, h2, bind_eq_ok_iff.2 ⟨r₃, h3,
      bind_eq_ok_iff.2 ⟨r₄, h4, bind_eq_ok_iff.2 ⟨r₅, h5, bind_eq_ok_iff.2 ⟨r₆, h6, h7⟩⟩⟩⟩⟩⟩
  · rintro ⟨h, h8⟩
    obtain ⟨r₁, h1, h⟩ := bind_eq_ok_iff.1 h
    obtain ⟨r₂, h2, h⟩ := bind_eq_ok_iff.1 h
    obtain ⟨r₃, h3, h⟩ := bind_eq_ok_iff.1 h
    obtain ⟨r₄, h4, h⟩ := bind_eq_ok_iff.1 h
    obtain ⟨r₅, h5, h⟩ := bind_eq_ok_iff.1 h
    obtain ⟨r₆, h6, h7⟩ := bind_eq_ok_iff.1 h
    unfold ofQuery?
    simp only [hroot]
    exact bind_eq_ok_iff.2 ⟨r₁, h1, bind_eq_ok_iff.2 ⟨r₂, h2, ite_bind_eq_ok_iff.2 ⟨r₃,
      hroot ▸ h3, bind_eq_ok_iff.2 ⟨r₄, h4, bind_eq_ok_iff.2 ⟨r₅, h5, bind_eq_ok_iff.2 ⟨r₆, h6,
        bind_eq_ok_iff.2 ⟨r, h7, bind_eq_ok_iff.2 ⟨(), h8, rfl⟩⟩⟩⟩⟩⟩⟩⟩

/-- What a query notes can be noted of it from its root on, and every calculation that it refers to
is declared. -/
def Sees (q : Query) (t : Table) : Prop :=
  q.noted.Fits (start [.table t.database t.name] t) ∧
    ∀ p ∈ q.noted.calculated, ∃ d ∈ q.noted.calculations, d.path = p.1 ∧ d.name = p.2

/-- **When a query can be read.** -/
theorem exists_ofQuery?_iff {q : Query} (hq : q.Over s) {t : Table} (hroot : q.root = .table t) :
    (∃ r, ofQuery? q = .ok r) ↔ Sees q t := by
  have hnotes := walk_notes hq (congrArg Node.target? hroot)
  have hor : (Node.table t).Over s := hroot ▸ hq.parts.root
  have hs : (start [.table t.database t.name] t).Over s := start_over hor.table?_eq
  constructor
  · rintro ⟨r, h⟩
    obtain ⟨hw, hcheck⟩ := (ofQuery?_eq_ok_iff hroot).1 h
    obtain ⟨-, hfit, hadds⟩ := hnotes.adds _ r hs hw
    refine ⟨hfit, ?_⟩
    rw [checkCalculated_eq_ok_iff, hadds.calculated, hadds.calculations] at hcheck
    exact hcheck
  · rintro ⟨hfit, hcheck⟩
    obtain ⟨r, hw⟩ := hnotes.succeeds _ hs hfit
    obtain ⟨-, -, hadds⟩ := hnotes.adds _ r hs hw
    refine ⟨r, (ofQuery?_eq_ok_iff hroot).2 ⟨hw, ?_⟩⟩
    rw [checkCalculated_eq_ok_iff, hadds.calculated, hadds.calculations]
    exact hcheck

/-- **What a query notes.** -/
theorem ofQuery?_notes {q : Query} (hq : q.Over s) {r : Reads} (h : ofQuery? q = .ok r) :
    r.columns = q.noted.columns ∧ r.calculations = q.noted.calculations := by
  obtain ⟨t, -, -, -, -, -, -, hroot, -⟩ := ofQuery?_cases h
  have hnotes := walk_notes hq (congrArg Node.target? hroot)
  have hor : (Node.table t).Over s := hroot ▸ hq.parts.root
  obtain ⟨-, -, hadds⟩ := hnotes.adds _ r (start_over hor.table?_eq)
    ((ofQuery?_eq_ok_iff hroot).1 h).1
  exact ⟨hadds.columns, hadds.calculations⟩

end Reads

end RecordGraph
