import RecordGraph.Proofs.JoinTree.Frame
import RecordGraph.Proofs.JoinTree.Rearranged
import RecordGraph.Proofs.JoinTree.RootRows
import RecordGraph.Proofs.Query.Expanded
import RecordGraph.Proofs.Query.Load
import RecordGraph.Proofs.Query.Scoped

/-!
# Objects are counted as they are loaded

A query is counted over the joined rows that it is loaded from: what a count reads is compiled
without the keys that identify objects, but with the same joins, conditions and order. A count takes
the page of the different keys of the root. What is loaded is made of the page of the joined rows,
one record for every key in it.

**Results.**
* `Node.resolver_frame`, `QueryOf.resolver_scope`: nodes are resolved by the frame of the joins.
* `QueryOf.compileCount_eq`: the count of a query that compiles, from its selection.
* `Engine.number_counting`: the number that a database gives.
* `QueryOf.count_as_loaded`: as many records are loaded, unless a page is cut out of repeated keys.
* `Library.exists_miscounted`: of such a page one record is loaded, and two are counted.
-/
namespace RecordGraph

open Emission (run_bind_eq_ok run'_eq_ok_iff)

/-! ## Nodes in trees of one frame -/

namespace Node

variable {d : Dialect} {t : JoinTree} {expand : Path → String → Emission Expr}

theorem found_frame : found ⟨t.frame, expand⟩ = found ⟨t, expand⟩ := by
  funext n column
  unfold found
  dsimp only
  rw [JoinTree.elementFor_frame]
  cases t.elementFor n <;> rfl

/-- A node is resolved by the frame of the joins. -/
theorem resolver_frame (m : Node) : m.resolver d ⟨t.frame, expand⟩ = m.resolver d ⟨t, expand⟩ := by
  refine resolver_ext found_frame m fun p name _ => ?_
  rw [resolver]
  dsimp only
  rw [JoinTree.elementFor_frame]
  cases t.elementFor (.calculated p name) <;> rfl

end Node

namespace QueryOf

variable {q : Query} {d : Dialect} {t t' : JoinTree}

theorem expand_frame (q : Query) (d : Dialect) (t : JoinTree) : ∀ depth,
    (Node.clauses d q).expand t.frame depth = (Node.clauses d q).expand t depth
  | 0 => rfl
  | depth + 1 => by
    funext path name
    rw [Clauses.expand, Clauses.expand, expand_frame q d t depth]
    cases hfound : (Node.clauses d q).calculations.lookup (some path, name) with
    | none => rfl
    | some x =>
      obtain ⟨before, after, hsplit, -⟩ := List.lookup_eq_some_iff.1 hfound
      have hmem : ((some path, name), x) ∈ (Node.clauses d q).calculations := by simp [hsplit]
      rw [Node.clauses_calculations] at hmem
      obtain ⟨k, -, hk⟩ := List.mem_map.1 hmem
      rw [← (Prod.mk.inj hk).2]
      exact Node.resolver_frame k.expression

/-- In trees of one frame, a node is resolved alike. -/
theorem resolver_scope (ht : t.frame = t'.frame) (n : Node) :
    n.resolver d ((Node.clauses d q).scope t) = n.resolver d ((Node.clauses d q).scope t') := by
  unfold Clauses.scope
  rw [← Node.resolver_frame, ← expand_frame, ht, expand_frame, Node.resolver_frame]

theorem conditions_scope (ht : t.frame = t'.frame) :
    (Node.clauses d q).conditions.mapM (· ((Node.clauses d q).scope t)) =
      (Node.clauses d q).conditions.mapM (· ((Node.clauses d q).scope t')) := by
  refine Emission.mapM_congr fun x hx => ?_
  rw [Node.clauses_conditions] at hx
  obtain ⟨n, -, rfl⟩ := List.mem_map.1 hx
  exact resolver_scope ht n

theorem sorts_scope (ht : t.frame = t'.frame) :
    (Node.clauses d q).sorts ((Node.clauses d q).scope t) =
      (Node.clauses d q).sorts ((Node.clauses d q).scope t') := by
  refine Emission.mapM_congr fun x hx => ?_
  rw [Node.clauses_orderBys] at hx
  obtain ⟨sort, -, rfl⟩ := List.mem_map.1 hx
  dsimp only
  rw [resolver_scope ht]

end QueryOf

/-! ## The statement of a count -/

/-- A selection emits columns only, so that it takes no numbers before its conditions. -/
theorem Clauses.item_run {c : Clauses} (hc : c.calculations = []) {t : JoinTree} {o : Output}
    {n m : Nat} {i : SelectItem Expr} (h : (item (c.scope t) o).run n = .ok (i, m)) : n = m := by
  cases o with
  | column e k =>
    cases h
    rfl
  | calculation e k =>
    rw [scope, hc] at h
    cases h

theorem Emission.mapM_run_fixed {α β : Type} {f : α → Emission β}
    (hf : ∀ a n b m, (f a).run n = .ok (b, m) → n = m) : ∀ {as : List α} {n : Nat} {bs : List β}
      {m : Nat}, (as.mapM f).run n = .ok (bs, m) → n = m
  | [], _, _, _, h => by
    cases h
    rfl
  | a :: as, n, bs, m, h => by
    rw [List.mapM_cons] at h
    obtain ⟨b, k, ha, h⟩ := run_bind_eq_ok.1 h
    obtain ⟨bs', k', has, h⟩ := run_bind_eq_ok.1 h
    cases h
    exact (hf a n b k ha).trans (mapM_run_fixed hf has)

/-- A query that gives every object of its root once: its rows are not merged, and it calculates
nothing. -/
structure QueryOf.Plain (q : Query) : Prop where
  groupBys : q.groupBys = []
  distinct : q.distinct = false
  having : q.having = []
  calculations : q.calculations = []

/-- The statement that counts what a query selects. -/
def Compiled.counting (c : Compiled) : Counting :=
  let key : Expr := .column c.tree.rootRef
  let s : Select :=
    { c.select with distinct := false, groupBys := [], having := [], locked := false }
  if c.select.limit.isSome || c.select.offset.isSome then
    .derived { s with distinct := true, items := [⟨key, none⟩] }
  else
    let count : Expr := if c.tree.fansOut then .apply .countDistinct [key] else .apply .countAll []
    .direct { s with
      items := [⟨count, some Counting.name⟩], orderBys := [], limit := none, offset := none }

namespace QueryOf

variable {q : Query} {d : Dialect} {c : Compiled}

/-- What a query selects that is not grouped and calculates nothing. -/
theorem select_cases (hq : q.Plain) {t : JoinTree} {s : Select} (h : q.select t d = .ok s) :
    ∃ items conditions n orderBys m,
      ((Node.clauses d q).conditions.mapM (· ((Node.clauses d q).scope t)) :
        Emission (List Expr)).run 0 = .ok (conditions, n) ∧
      ((Node.clauses d q).sorts ((Node.clauses d q).scope t)).run n = .ok (orderBys, m) ∧
      s = { distinct := false, items, source := t.source, conditions, groupBys := [], having := []
            orderBys, limit := q.limit, offset := q.offset, locked := q.forUpdate } := by
  obtain ⟨m, h⟩ := run'_eq_ok_iff.1 h
  unfold Clauses.select at h
  obtain ⟨items, n₁, hitems, h⟩ := run_bind_eq_ok.1 h
  split at h
  · obtain ⟨_, _, h, -⟩ := run_bind_eq_ok.1 h
    cases h
  obtain ⟨conditions, n₂, hconditions, h⟩ := run_bind_eq_ok.1 h
  rw [Node.clauses_groupBys, Node.clauses_having, hq.groupBys, hq.having] at h
  obtain ⟨groupBys, n₃, hgroupBys, h⟩ := run_bind_eq_ok.1 h
  cases hgroupBys
  obtain ⟨having, n₄, hhaving, h⟩ := run_bind_eq_ok.1 h
  cases hhaving
  obtain ⟨orderBys, n₅, horderBys, h⟩ := run_bind_eq_ok.1 h
  cases h
  have hcalculations : (Node.clauses d q).calculations = [] := by
    rw [Node.clauses_calculations, hq.calculations, List.map_nil]
  obtain rfl := Emission.mapM_run_fixed
    (fun _ _ _ _ => Clauses.item_run hcalculations) hitems
  exact ⟨items, conditions, n₂, orderBys, m, hconditions, horderBys, by rw [hq.distinct]; rfl⟩

/-- What is counted over joins of the same frame. -/
theorem counting_eq (hq : q.Plain) {t t' : JoinTree} (hframe : t'.frame = t.frame)
    (hgrouped : t'.grouped = false) {s : Select} (h : q.select t d = .ok s) :
    q.counting t' d = .ok (Compiled.counting ⟨t, s⟩) := by
  have hsource : t'.source = t.source := by
    rw [← JoinTree.source_frame, hframe, JoinTree.source_frame]
  have hfans : t'.fansOut = t.fansOut := by
    rw [← JoinTree.fansOut_frame, hframe, JoinTree.fansOut_frame]
  have hkey : t'.rootRef = t.rootRef := by
    have h := congrArg JoinTree.rootRef hframe
    exact h
  obtain ⟨items, conditions, n, orderBys, m, hconditions, horderBys, rfl⟩ := select_cases hq h
  rw [← conditions_scope hframe] at hconditions
  rw [← sorts_scope hframe] at horderBys
  simp only [counting, hq.distinct, hgrouped, Bool.or_self, Bool.false_eq_true, if_false, hsource,
    hfans, ← JoinTree.rootRef.eq_def, hkey]
  by_cases hpaged : (q.limit.isSome || q.offset.isSome) = true
  · refine run'_eq_ok_iff.2 ⟨m, run_bind_eq_ok.2 ⟨conditions, n, hconditions, ?_⟩⟩
    rw [if_pos hpaged, Compiled.counting, if_pos hpaged]
    exact run_bind_eq_ok.2 ⟨orderBys, m, horderBys, rfl⟩
  · refine run'_eq_ok_iff.2 ⟨n, run_bind_eq_ok.2 ⟨conditions, n, hconditions, ?_⟩⟩
    rw [if_neg hpaged, Compiled.counting, if_neg hpaged]
    rfl

/-- **The count of a query** has the joins, the conditions and the page of its selection. -/
theorem compileCount_eq (hq : q.Plain) (hc : q.compile d = .ok c) :
    q.compileCount d = .ok c.counting := by
  obtain ⟨t, ht, hc⟩ := bind_eq_ok_iff.1 hc
  obtain ⟨s, hselect, hc⟩ := bind_eq_ok_iff.1 hc
  cases hc
  have h := JoinTree.compile_frame .selected .objects "" q
  rw [ht] at h
  cases ht' : JoinTree.compile .selected "" q with
  | error e =>
    rw [ht'] at h
    cases h
  | ok t' =>
    rw [ht'] at h
    have hgrouped : t'.grouped = false := by
      rw [JoinTree.compile_grouped ht', hq.groupBys]
      rfl
    exact bind_eq_ok_iff.2 ⟨t', ht', counting_eq hq (Except.ok.inj h) hgrouped hselect⟩

/-- A query is selected from its joins, with its page. -/
theorem compile_page (hq : q.Plain) (hc : q.compile d = .ok c) :
    c.select.source = c.tree.source ∧ c.select.limit = q.limit ∧ c.select.offset = q.offset := by
  obtain ⟨t, -, hc⟩ := bind_eq_ok_iff.1 hc
  obtain ⟨s, hselect, hc⟩ := bind_eq_ok_iff.1 hc
  cases hc
  obtain ⟨items, conditions, n, orderBys, m, -, -, rfl⟩ := select_cases hq hselect
  exact ⟨rfl, rfl, rfl⟩

end QueryOf

/-! ## The number of a count -/

namespace Engine

variable {E : Engine} {c : Compiled} {lead : String}

section
variable (hsource : c.select.source = c.tree.source) (hl : c.tree.Linked lead)
  (hfits : c.tree.Fits E.eq E.db)

include hsource

theorem mem_joined {r : Joined} (hr : r ∈ E.rows c.select) :
    r ∈ c.tree.source.joined E.eq E.db :=
  hsource ▸ (List.mem_filter.1 ((E.rows_perm c.select).mem_iff.1 hr)).1

include hl hfits

/-- Where nothing fans out, no key of the root is repeated. -/
theorem rootKeys_nodup (hplain : c.tree.fansOut = false) :
    ((E.rows c.select).map c.tree.rootKey).Nodup := by
  have hnodup := hfits.rootKeys_nodup hl hplain
  rw [← hsource] at hnodup
  exact ((E.rows_perm c.select).map _).nodup_iff.2 (hnodup.sublist (List.filter_sublist.map _))

/-- The keys of the root are values that are told apart as keys. -/
theorem value_rootRef {r r' : Joined} (hr : r ∈ E.rows c.select) (hr' : r' ∈ E.rows c.select) :
    E.value r (.column c.tree.rootRef) ≠ .null ∧
      E.eq.holds (E.value r (.column c.tree.rootRef)) (E.value r' (.column c.tree.rootRef)) =
        (c.tree.rootKey r == c.tree.rootKey r') := by
  rw [E.value_column, E.value_column]
  exact ⟨hfits.rootRef_ne_null hl (mem_joined hsource hr),
    hfits.holds_rootRef hl (mem_joined hsource hr) (mem_joined hsource hr') E.refl⟩

/-- **What is counted** is the page of the different keys of the root. -/
theorem number_counting : E.number c.counting =
    some (c.select.page ((E.rows c.select).map c.tree.rootKey).eraseDups).length := by
  have hmem {r : Joined} (hr : r ∈ E.matching c.select) : r ∈ E.rows c.select :=
    (E.rows_perm c.select).mem_iff.2 hr
  unfold Compiled.counting
  split
  · refine congrArg some (answer_distinct_length rfl rfl fun r hr r' hr' => ?_)
    obtain ⟨hne, hholds⟩ := value_rootRef hsource hl hfits hr hr'
    rw [same_of_ne_null hne, hholds]
  · rename_i hpage
    obtain ⟨hlimit, hoffset⟩ : c.select.limit = none ∧ c.select.offset = none := by
      simpa using hpage
    rw [c.select.page_of_none hlimit hoffset]
    change E.tally (E.matching c.select) (if c.tree.fansOut then _ else _) = _
    cases hplain : c.tree.fansOut with
    | true =>
      have hkeys : ((E.matching c.select).map c.tree.rootKey).eraseDups.Perm
          ((E.rows c.select).map c.tree.rootKey).eraseDups :=
        eraseDups_perm ((E.rows_perm c.select).map _).symm
      rw [if_pos rfl, tally_countDistinct
        (fun r hr => (value_rootRef hsource hl hfits (hmem hr) (hmem hr)).1)
        fun r hr r' hr' => (value_rootRef hsource hl hfits (hmem hr) (hmem hr')).2,
        hkeys.length_eq]
    | false =>
      rw [if_neg Bool.false_ne_true, eraseDups_of_nodup (rootKeys_nodup hsource hl hfits hplain),
        List.length_map, (E.rows_perm c.select).length_eq]
      rfl

end

end Engine

/-! ## Counting and loading -/

/-- What is different on a page is the page of what is different, where there is no page or nothing
is repeated. -/
theorem SelectOf.eraseDups_page {α : Type} [BEq α] [LawfulBEq α] (s : Select) {as : List α}
    (h : s.limit.isSome ∨ s.offset.isSome → as.Nodup) :
    (s.page as).eraseDups = s.page as.eraseDups := by
  by_cases hpage : s.limit.isSome ∨ s.offset.isSome
  · have has := h hpage
    rw [eraseDups_of_nodup has, eraseDups_of_nodup (has.sublist (s.page_sublist as))]
  · obtain ⟨hlimit, hoffset⟩ : s.limit = none ∧ s.offset = none := by simpa using hpage
    rw [s.page_of_none hlimit hoffset, s.page_of_none hlimit hoffset]

namespace QueryOf

variable {σ : Type} {q : Query} {db : Connection σ} {s s₁ : σ}

/-- The number that a database gives is what a count returns. -/
theorem count_run {counting : Counting} {n : Nat} (hc : q.compileCount db.dialect = .ok counting)
    (hn : n < 2 ^ 63) (hq : db.query (.count counting) s =
      (.ok ⟨[.ok (some [.int (Int64.ofNat n)])], .ok ()⟩, s₁)) :
    q.count db s = (.ok n, (db.release s₁).2) := by
  have hrow : Row.decode "count" ((Command.count counting).statement db.dialect) [.count]
      [.int (Int64.ofNat n)] = .ok ⟨[(Counting.name, .int (Int64.ofNat n))]⟩ := by
    have hvalue : ResultColumn.count.decode (.int (Int64.ofNat n)) =
        .ok (.int (Int64.ofInt (Int64.ofNat n).toInt)) := rfl
    rw [Int64.ofInt_toInt] at hvalue
    simp only [Row.decode, List.length_singleton, ne_eq, not_true_eq_false, if_false,
      List.zip_cons_cons, List.zip_nil_right, List.mapM_cons, List.mapM_nil, hvalue]
    rfl
  have hstart : Cursor.start db "count" (.count counting) [.count] s =
      (.ok ⟨[.ok (some ⟨[(Counting.name, .int (Int64.ofNat n))]⟩)], .ok (), false⟩, s₁) := by
    simp only [Cursor.start, Session.bind_run, hq, Feed.mapM, List.map_singleton, hrow]
    rfl
  have htoNat : (Int64.ofNat n).toInt.toNat = n := by
    rw [Int64.toInt_ofNat_of_lt hn, Int.toNat_natCast]
  simp only [count, Session.bind_run, Session.ofExcept_run, hc, hstart, Session.withState,
    Cursor.forEach_run]
  exact congrArg (fun n => (Except.ok n, (db.release s₁).2)) htoNat

/-- **Counting and loading.** Over contents that fit its joins, a query that groups and calculates
nothing is counted by a statement whose number is the length of the page of the different keys of
its root, and that number is what the count returns. What is loaded of the page of the joined rows
are as many records as there are different keys in that page. The two numbers are one, unless a page
is cut out of joined rows that repeat a key. -/
theorem count_as_loaded {decl : SchemaDecl} {schema : Schema}
    (hs : Schema.ofDeclaration decl = .ok schema) (hover : q.Over schema) (hq : q.Plain)
    {c : Compiled} (hc : q.compile db.dialect = .ok c) (E : Engine)
    (hfits : c.tree.Fits E.eq E.db) :
    let rows := E.rows c.select
    ∃ counting n, q.compileCount db.dialect = .ok counting ∧ E.number counting = some n ∧
      n = (c.select.page (rows.map c.tree.rootKey).eraseDups).length ∧
      (∀ s s₁, n < 2 ^ 63 → db.query (.count counting) s =
          (.ok ⟨[.ok (some [.int (Int64.ofNat n)])], .ok ()⟩, s₁) →
        ∃ s₂, q.count db s = (.ok n, s₂)) ∧
      ∀ (raws : List (List Value)) s s₁, db.query c.command s =
          (.ok ⟨raws.map fun raw => .ok (some raw), .ok ()⟩, s₁) →
        raws.map (Row.decode "load" (c.statement db.dialect) c.columns) =
          ((c.select.page rows).map c.tree.rowOf).map .ok →
        ∃ records s₂, q.load db s = (.ok records, s₂) ∧
          records.length = ((c.select.page rows).map c.tree.rootKey).eraseDups.length ∧
          ((q.limit.isSome ∨ q.offset.isSome → c.tree.fansOut = true →
            (rows.map c.tree.rootKey).Nodup) → records.length = n) := by
  intro rows
  have ht := compile_tree hc
  have hl := JoinTree.compile_linked ht
  have ho := JoinTree.compile_over hover ht
  have hk := JoinTree.compile_keyed (Schema.ofDeclaration_sound hs) hover hq.groupBys hq.distinct ht
  obtain ⟨hsource, hlimit, hoffset⟩ := compile_page hq hc
  have hcount := compileCount_eq hq hc
  refine ⟨_, _, hcount, Engine.number_counting hsource hl hfits, rfl,
    fun s s₁ hn hquery => ⟨_, count_run hcount hn hquery⟩, fun raws s s₁ hquery hrows =>
      ⟨_, _, load_run hc hquery hrows, ?_⟩⟩
  have hlength : (Unpacker.records c.tree ((c.select.page rows).map c.tree.rowOf)).length =
      ((c.select.page rows).map c.tree.rootKey).eraseDups.length := by
    rw [JoinTree.records_length ht hk, hfits.keysIn_rowOf hl ho hk (JoinTree.root_materialized ht)
      fun r hr => Engine.mem_joined hsource ((c.select.page_sublist rows).subset hr)]
  refine ⟨hlength, fun hpage => ?_⟩
  have hnodup : c.select.limit.isSome ∨ c.select.offset.isSome →
      (rows.map c.tree.rootKey).Nodup := by
    rw [hlimit, hoffset]
    intro h
    cases hplain : c.tree.fansOut with
    | true => exact hpage h hplain
    | false => exact Engine.rootKeys_nodup hsource hl hfits hplain
  rw [hlength, ← SelectOf.page_map, SelectOf.eraseDups_page _ hnodup]

end QueryOf

/-! ## The shelves of the library -/

namespace Library

/-- A database that reads columns and keeps rows as they come. -/
def engine : Engine where
  eq := equality
  refl v h := by
    cases v with
    | null => exact absurd rfl h
    | _ => simp [equality, Value.isNull]
  db := contents
  value
    | r, .column ref => r.value ref
    | _, _ => .null
  value_column _ _ := rfl
  isTrue _ := true
  sort _ rows := rows
  sort_perm _ rows := .refl rows

/-- The names of the authors with the titles of their books. -/
def shelves (limit : Option UInt64) (s : Schema) : Except Error Query := do
  let authors ← node s []
  let name ← node s [.column "name"]
  let title ← node s [.reverse "books", .column "title"]
  .ok { QueryOf.all authors with selects := [name, title], limit }

def shelved (limit : Option UInt64) : Except Error (Schema × Query × Compiled) := do
  let s ← Schema.ofDeclaration declaration
  let q ← shelves limit s
  let c ← q.compile .sqlite
  .ok (s, q, c)

/-- The joined rows, as a database returns them. -/
def shelfRows : List (List Value) :=
  [[.int 1, .text "Ann", .int 1, .text "Sea", .int 1],
    [.int 1, .text "Ann", .int 2, .text "Sky", .int 1],
    [.int 2, .text "Bob", .null, .null, .null]]

/-- Some rows are those of the page. -/
def ShowsPage (limit : Option UInt64) (raws : List (List Value)) : Prop :=
  (shelved limit).map (fun (_, _, c) =>
      raws.map (Row.decode "load" (c.statement .sqlite) c.columns)) =
    (shelved limit).map fun (_, _, c) =>
      ((c.select.page (engine.rows c.select)).map c.tree.rowOf).map .ok

/-- The number that the count gives, and the number of records that the page makes. -/
def shelfNumbers (limit : Option UInt64) : Except Error (Option Nat × Nat) := do
  let (_, q, c) ← shelved limit
  let counting ← q.compileCount .sqlite
  let page := (c.select.page (engine.rows c.select)).map c.tree.rowOf
  .ok (engine.number counting, (Unpacker.records c.tree page).length)

theorem shelves_cases {limit : Option UInt64} {s : Schema} {q : Query}
    (h : shelves limit s = .ok q) : q.Over s ∧ q.Plain ∧ q.limit = limit ∧ q.offset = none := by
  obtain ⟨authors, h1, h⟩ := bind_eq_ok_iff.1 h
  obtain ⟨name, h2, h⟩ := bind_eq_ok_iff.1 h
  obtain ⟨title, h3, h⟩ := bind_eq_ok_iff.1 h
  cases h
  refine ⟨fun n hn => ?_, ⟨rfl, rfl, rfl, rfl⟩, rfl, rfl⟩
  simp only [QueryOf.nodes, QueryOf.all, List.map_nil, List.flatMap_nil, List.append_nil,
    List.nil_append, List.mem_cons, List.not_mem_nil, or_false] at hn
  rcases hn with rfl | rfl | rfl
  · exact node_over h1
  · exact node_over h2
  · exact node_over h3

/-- The shelves on a page, what the database counts on it, and the rows that it returns of it. -/
structure Shelved (limit : Option UInt64) (raws : List (List Value)) (n : Nat) (s : Schema)
    (q : Query) (c : Compiled) (counting : Counting) : Prop where
  declared : Schema.ofDeclaration declaration = .ok s
  inSchema : q.Over s
  plain : q.Plain
  limited : q.limit = limit
  unshifted : q.offset = none
  compiled : q.compile (Script.connection .sqlite).dialect = .ok c
  fits : c.tree.Fits engine.eq engine.db
  counted : q.compileCount (Script.connection .sqlite).dialect = .ok counting
  number : engine.number counting = some n
  shown : raws.map (Row.decode "load" (c.statement .sqlite) c.columns) =
    ((c.select.page (engine.rows c.select)).map c.tree.rowOf).map .ok

theorem exists_shelved {limit : Option UInt64} {raws : List (List Value)} {n m : Nat}
    (hrows : ShowsPage limit raws) (h : shelfNumbers limit = .ok (some n, m)) :
    ∃ s q c counting, Shelved limit raws n s q c counting ∧ (Unpacker.records c.tree
      ((c.select.page (engine.rows c.select)).map c.tree.rowOf)).length = m := by
  obtain ⟨⟨s, q, c⟩, hshelved, h⟩ := bind_eq_ok_iff.1 h
  obtain ⟨counting, hcounting, h⟩ := bind_eq_ok_iff.1 h
  obtain ⟨hn, hm⟩ := Prod.mk.inj (Except.ok.inj h)
  rw [ShowsPage, hshelved] at hrows
  obtain ⟨s', hs, hshelved⟩ := bind_eq_ok_iff.1 hshelved
  obtain ⟨q', hshelves, hshelved⟩ := bind_eq_ok_iff.1 hshelved
  obtain ⟨c', hc, hshelved⟩ := bind_eq_ok_iff.1 hshelved
  cases hshelved
  obtain ⟨hover, hplain, hlimit, hoffset⟩ := shelves_cases hshelves
  have ht := QueryOf.compile_tree hc
  have hfits : c.tree.Fits engine.eq engine.db :=
    .of_consistent (JoinTree.compile_linked ht) (JoinTree.compile_over hover ht) (consistent hs)
  exact ⟨s, q, c, counting, ⟨hs, hover, hplain, hlimit, hoffset, hc, hfits, hcounting, hn,
    Except.ok.inj hrows⟩, hm⟩

/-- Both authors are counted, and both are loaded of the three rows of the shelves. -/
theorem shelves_counted : ∃ s q c counting, Shelved none shelfRows 2 s q c counting ∧
    (∃ s₂, q.count (Script.connection .sqlite) (answers [[.int 2]]) = (.ok 2, s₂)) ∧
    ∃ records s₂, q.load (Script.connection .sqlite) (answers shelfRows) = (.ok records, s₂) ∧
      records.length = 2 := by
  obtain ⟨s, q, c, counting, h, -⟩ := exists_shelved
    (by unfold ShowsPage; cbv : ShowsPage none shelfRows)
    (by cbv : shelfNumbers none = .ok (some 2, 2))
  obtain ⟨counting', n, hcounting, hn, -, hcount, hload⟩ :=
    QueryOf.count_as_loaded h.declared h.inSchema h.plain h.compiled engine h.fits
  obtain rfl : counting = counting' := Except.ok.inj (h.counted.symm.trans hcounting)
  obtain rfl : 2 = n := Option.some.inj (h.number.symm.trans hn)
  obtain ⟨records, s₂, hrecords, -, hlength⟩ :=
    hload shelfRows _ _ (answers_query shelfRows c.command) h.shown
  exact ⟨s, q, c, counting, h,
    hcount _ _ (by decide) (answers_query [[.int 2]] (.count counting)),
    records, s₂, hrecords, hlength (by simp [h.limited, h.unshifted])⟩

/-- On a page of two rows both authors are counted, but one is loaded: both rows are of the first
author. -/
theorem exists_miscounted : ∃ s q c counting record s₂,
    Shelved (some 2) (shelfRows.take 2) 2 s q c counting ∧
      q.load (Script.connection .sqlite) (answers (shelfRows.take 2)) = (.ok [record], s₂) := by
  obtain ⟨s, q, c, counting, h, hlength⟩ := exists_shelved
    (by unfold ShowsPage; cbv : ShowsPage (some 2) (shelfRows.take 2))
    (by cbv : shelfNumbers (some 2) = .ok (some 2, 1))
  have hload := QueryOf.load_run h.compiled (answers_query _ c.command) h.shown
  obtain ⟨record, hrecord⟩ := List.length_eq_one_iff.1 hlength
  rw [hrecord] at hload
  exact ⟨s, q, c, counting, record, _, h, hload⟩

end Library

end RecordGraph
