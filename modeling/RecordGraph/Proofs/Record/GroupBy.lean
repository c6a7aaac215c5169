import Mathlib.Data.List.Induction
import RecordGraph.Proofs.JoinTree.Named
import RecordGraph.Record.Unpack

/-!
# Folding rows is grouping them

The records of an element are one for every key in the rows at hand, in the order in which the keys
first appear. The rows with one key are a part; the first of a part gives the values, and the
records below are those of the part.

* `JoinTree.GroupsBy`: what it is to group rows in this way, level by level.
* `Unpacker.visit_pendings`: one row more, on what is there of the rows before it.
* `JoinTree.records_eq_group`: the records of rows are their groups.
-/
namespace RecordGraph

namespace Element

/-- The key that an element's row is found under; none where the joined key is null. -/
def keyIn? (e : Element) (row : Row) : Option Key :=
  e.emittedKey?.bind fun c => (row.get? c.label).bind Value.key?

/-- The keys in rows, in the order of their first appearance. -/
def keysIn (e : Element) (rows : List Row) : List Key := (rows.filterMap e.keyIn?).eraseDups

/-- The rows with a key. -/
def part (e : Element) (rows : List Row) (k : Key) : List Row :=
  rows.filter fun row => e.keyIn? row == some k

/-- The column values that the first row shows. -/
def firstValues (e : Element) (rows : List Row) : NameMap Value :=
  .ofList (e.emitted.filterMap fun c =>
    (rows.head?.bind (·.get? c.label)).map fun v => (c.column.name, v))

/-- The calculations that the first row shows. -/
def firstCalculations (e : Element) (rows : List Row) : NameMap Value :=
  .ofList (e.calculations.filterMap fun c =>
    (rows.head?.bind (·.get? c.label)).map fun v => (c.name, v))

/-- The relation to an element, as it is loaded with some records. -/
def slot? (c : Element) (records : List Record) : Option (String × Slot Record) :=
  c.relation.identifier?.map fun identifier =>
    (identifier, ⟨if c.relation.isPlural then .many records else .one records.head?, false⟩)

/-- The saved and clean record of a part, with its relations. -/
def groupRecord (e : Element) (part : List Row) (slots : List (String × Slot Record)) : Record where
  table := e.table
  values := e.firstValues part
  dirty := .empty
  isNew := false
  slots := .ofList slots
  calculations := e.firstCalculations part

end Element

namespace JoinTree

def childrenOf (t : JoinTree) (e : Element) : List Element :=
  t.elements.filter fun c => c.parent == some e.id

/-- `group` gives one record for every key of an element in rows, whose relations are the groups of
its part. -/
def GroupsBy (t : JoinTree) (group : Element → List Row → List Record) : Prop :=
  ∀ e ∈ t.elements, ∀ rows, group e rows = (e.keysIn rows).map fun k =>
    e.groupRecord (e.part rows k) (((t.childrenOf e).filter (·.materialized)).filterMap fun c =>
      c.slot? (group c (e.part rows k)))

end JoinTree

/-! ## Keys and parts -/

theorem eraseDups_concat {α : Type} [BEq α] [LawfulBEq α] (as : List α) (a : α) :
    (as ++ [a]).eraseDups = if a ∈ as then as.eraseDups else as.eraseDups ++ [a] := by
  rw [List.eraseDups_append]
  split
  · rename_i h
    rw [List.removeAll, List.filter_cons_of_neg (by simpa using h)]
    simp
  · rename_i h
    rw [List.removeAll, List.filter_cons_of_pos (by simpa using h)]
    simp [List.eraseDups_cons]

theorem nodup_eraseDups {α : Type} [BEq α] [LawfulBEq α] (as : List α) : as.eraseDups.Nodup := by
  induction as using List.reverseRecOn with
  | nil => exact List.nodup_nil
  | append_singleton as a ih =>
    rw [eraseDups_concat]
    split
    · exact ih
    · rename_i h
      refine List.nodup_append.2 ⟨ih, by simp, ?_⟩
      rintro _ hx _ hy rfl
      rw [List.mem_singleton] at hy
      exact h (hy ▸ List.mem_eraseDups.1 hx)

theorem eraseDups_of_nodup {α : Type} [BEq α] [LawfulBEq α] {as : List α} (h : as.Nodup) :
    as.eraseDups = as := by
  induction as using List.reverseRecOn with
  | nil => rfl
  | append_singleton as a ih =>
    obtain ⟨has, -, hdisjoint⟩ := List.nodup_append.1 h
    have ha : a ∉ as := fun ha => hdisjoint a ha a List.mem_cons_self rfl
    rw [eraseDups_concat, if_neg ha, ih has]

theorem eraseDups_perm {α : Type} [BEq α] [LawfulBEq α] {as bs : List α} (h : as.Perm bs) :
    as.eraseDups.Perm bs.eraseDups :=
  (List.perm_ext_iff_of_nodup (nodup_eraseDups as) (nodup_eraseDups bs)).2 fun _ => by
    rw [List.mem_eraseDups, List.mem_eraseDups, h.mem_iff]

namespace Element

variable (e : Element)

theorem mem_keysIn {rows : List Row} {k : Key} :
    k ∈ e.keysIn rows ↔ ∃ row ∈ rows, e.keyIn? row = some k := by
  rw [keysIn, List.mem_eraseDups, List.mem_filterMap]

theorem keysIn_nodup (rows : List Row) : (e.keysIn rows).Nodup := nodup_eraseDups _

theorem mem_part {rows : List Row} {k : Key} {row : Row} :
    row ∈ e.part rows k ↔ row ∈ rows ∧ e.keyIn? row = some k := by
  rw [part, List.mem_filter, beq_iff_eq]

theorem part_ne_nil {rows : List Row} {k : Key} (h : k ∈ e.keysIn rows) : e.part rows k ≠ [] := by
  obtain ⟨row, hr, hk⟩ := e.mem_keysIn.1 h
  exact List.ne_nil_of_mem (e.mem_part.2 ⟨hr, hk⟩)

theorem part_eq_nil {rows : List Row} {k : Key} (h : k ∉ e.keysIn rows) : e.part rows k = [] := by
  refine List.eq_nil_iff_forall_not_mem.2 fun row hr => h ?_
  exact e.mem_keysIn.2 ⟨row, e.mem_part.1 hr⟩

theorem keysIn_concat (rows : List Row) (row : Row) : e.keysIn (rows ++ [row]) =
    match e.keyIn? row with
    | none => e.keysIn rows
    | some k => if k ∈ e.keysIn rows then e.keysIn rows else e.keysIn rows ++ [k] := by
  rw [keysIn, List.filterMap_append]
  cases hk : e.keyIn? row with
  | none => simp [hk, keysIn]
  | some k =>
    simp only [List.filterMap_cons, hk, List.filterMap_nil, eraseDups_concat, keysIn,
      List.mem_eraseDups]

theorem part_concat_self {rows : List Row} {row : Row} {k : Key} (h : e.keyIn? row = some k) :
    e.part (rows ++ [row]) k = e.part rows k ++ [row] := by
  simp [part, h]

theorem part_concat_of_ne {rows : List Row} {row : Row} {k : Key} (h : e.keyIn? row ≠ some k) :
    e.part (rows ++ [row]) k = e.part rows k := by
  simp [part, h]

theorem firstValues_append {rows : List Row} (h : rows ≠ []) (more : List Row) :
    e.firstValues (rows ++ more) = e.firstValues rows := by
  rw [firstValues, List.head?_append_of_ne_nil _ h, ← firstValues]

theorem firstCalculations_append {rows : List Row} (h : rows ≠ []) (more : List Row) :
    e.firstCalculations (rows ++ more) = e.firstCalculations rows := by
  rw [firstCalculations, List.head?_append_of_ne_nil _ h, ← firstCalculations]

theorem firstValues_singleton (row : Row) : e.firstValues [row] = e.valuesIn row := rfl

theorem firstCalculations_singleton (row : Row) :
    e.firstCalculations [row] = e.calculationsIn row := rfl

end Element

namespace Branch

/-! ## Objects and groups of a branch -/

/-- Every element that gives objects has a key. -/
inductive Keyed : Branch → Prop where
  | node {e : Element} {children : List Branch} :
      (e.materialized = true → e.emittedKey?.isSome = true) → (∀ b ∈ children, Keyed b) →
      Keyed (.node e children)

mutual

/-- What is there of a branch after some rows. -/
def pendings : Branch → List Row → List Pending
  | .node e children, rows =>
    if e.materialized then
      (e.keysIn rows).map fun k =>
        ⟨some k, e.firstValues (e.part rows k), e.firstCalculations (e.part rows k),
          pendingsAll children (e.part rows k)⟩
    else []

def pendingsAll : List Branch → List Row → List (List Pending)
  | [], _ => []
  | b :: bs, rows => b.pendings rows :: pendingsAll bs rows

end

mutual

/-- The groups of a branch. -/
def group : Branch → List Row → List Record
  | .node e children, rows =>
    (e.keysIn rows).map fun k => e.groupRecord (e.part rows k) (slots children (e.part rows k))

/-- The relations to the groups of branches. -/
def slots : List Branch → List Row → List (String × Slot Record)
  | [], _ => []
  | b :: bs, rows =>
    if b.element.materialized then (b.element.slot? (b.group rows)).toList ++ slots bs rows
    else slots bs rows

end

theorem slots_eq (bs : List Branch) (rows : List Row) : slots bs rows =
    (bs.filter (·.element.materialized)).filterMap fun b => b.element.slot? (b.group rows) := by
  induction bs with
  | nil => rfl
  | cons b bs ih =>
    rw [slots, ih]
    by_cases hm : b.element.materialized = true
    · simp only [hm, if_true, List.filter_cons, List.filterMap_cons]
      cases b.element.slot? (b.group rows) <;> rfl
    · simp only [hm, if_false, List.filter_cons, Bool.false_eq_true]

end Branch

namespace Unpacker

open Branch

/-- A row with a key belongs to the object of that key. -/
theorem identity_eq {e : Element} (h : e.emittedKey?.isSome = true) (row : Row) :
    identity e row = match e.keyIn? row with
      | some k => .key k
      | none => .absent := by
  obtain ⟨c, hc⟩ := Option.isSome_iff_exists.1 h
  cases hkey : (row.get? c.label).bind Value.key? with
  | none => simp [identity, Element.keyIn?, hc, hkey]
  | some k => simp [identity, Element.keyIn?, hc, hkey]

/-- A row goes to the object of its key, or makes it. -/
theorem merge_map {f : Key → Pending} (hf : ∀ k, (f k).key = some k) (k : Key)
    (old : Pending → Pending) (fresh : Pending) : ∀ {keys : List Key}, keys.Nodup →
      merge k old fresh (keys.map f) =
        if k ∈ keys then keys.map fun i => if i = k then old (f i) else f i
        else keys.map f ++ [fresh]
  | [], _ => rfl
  | i :: keys, h => by
    obtain ⟨hi, h⟩ := List.nodup_cons.1 h
    simp only [List.map_cons, merge, hf, Option.some.injEq, List.mem_cons]
    by_cases hik : i = k
    · subst hik
      have hrest : ∀ j ∈ keys, (if j = i then old (f j) else f j) = f j := fun j hj =>
        if_neg (by rintro rfl; exact hi hj)
      rw [if_pos rfl, if_pos (.inl rfl), if_pos rfl, List.map_congr_left hrest]
    · rw [if_neg hik, if_neg hik, merge_map hf k old fresh h]
      by_cases hk : k ∈ keys
      · rw [if_pos hk, if_pos (.inr hk)]
      · rw [if_neg hk, if_neg (not_or.2 ⟨fun h => hik h.symm, hk⟩), List.cons_append]

theorem visitAll_pendingsAll {row : Row} {rows : List Row} : ∀ {bs : List Branch},
    (∀ b ∈ bs, visit row b (b.pendings rows) = b.pendings (rows ++ [row])) →
      visitAll row bs (pendingsAll bs rows) = pendingsAll bs (rows ++ [row])
  | [], _ => rfl
  | b :: bs, h => by
    rw [pendingsAll, pendingsAll, visitAll, h b List.mem_cons_self,
      visitAll_pendingsAll fun c hc => h c (List.mem_cons_of_mem _ hc)]

theorem pendings_nil : ∀ b : Branch, b.pendings [] = []
  | .node e children => by
    rw [pendings]
    split <;> rfl

theorem pendingsAll_nil (bs : List Branch) : pendingsAll bs [] = bs.map fun _ => [] := by
  induction bs with
  | nil => rfl
  | cons b bs ih => rw [pendingsAll, ih, pendings_nil, List.map_cons]

/-- **One row more.** On what is there of some rows, a row makes what is there of all of them. -/
theorem visit_pendings {b : Branch} (hb : b.Keyed) (rows : List Row) (row : Row) :
    visit row b (b.pendings rows) = b.pendings (rows ++ [row]) := by
  -- on the elements below
  induction hb generalizing rows with
  | @node e children he _ ih =>
    have hall : ∀ part, visitAll row children (pendingsAll children part)
        = pendingsAll children (part ++ [row]) :=
      fun part => visitAll_pendingsAll fun b hb => ih b hb part
    rw [visit, pendings, pendings]
    by_cases hm : e.materialized = true
    · simp only [hm, Bool.not_true, Bool.false_eq_true, if_false, if_true, identity_eq (he hm),
        e.keysIn_concat]
      cases hk : e.keyIn? row with
      | none =>
        refine List.map_congr_left fun k _ => ?_
        rw [e.part_concat_of_ne (by simp [hk])]
      | some k =>
        simp only
        rw [merge_map (fun _ => rfl) k _ _ (e.keysIn_nodup rows)]
        have hother : ∀ i, i ≠ k → e.part (rows ++ [row]) i = e.part rows i := fun i hi =>
          e.part_concat_of_ne (by simpa [hk] using fun h => hi h.symm)
        by_cases hmem : k ∈ e.keysIn rows
        · rw [if_pos hmem, if_pos hmem]
          refine List.map_congr_left fun i _ => ?_
          by_cases hi : i = k
          · subst hi
            have hne := e.part_ne_nil hmem
            rw [if_pos rfl, e.part_concat_self hk, e.firstValues_append hne,
              e.firstCalculations_append hne, hall]
          · rw [if_neg hi, hother i hi]
        · rw [if_neg hmem, if_neg hmem, List.map_append]
          refine congrArg₂ _ (List.map_congr_left fun i hi => ?_) ?_
          · rw [hother i fun h => hmem (h ▸ hi)]
          · have hpart : e.part (rows ++ [row]) k = [row] := by
              rw [e.part_concat_self hk, e.part_eq_nil hmem, List.nil_append]
            have hnew := hall []
            rw [pendingsAll_nil, List.nil_append] at hnew
            rw [List.map_singleton, hpart, hnew, e.firstValues_singleton,
              e.firstCalculations_singleton]
    · simp [hm]

/-- What is there after rows is settled by all of them together. -/
theorem foldl_push {b : Branch} (hb : b.Keyed) (rows : List Row) :
    rows.foldl push ⟨b, []⟩ = ⟨b, b.pendings rows⟩ := by
  induction rows using List.reverseRecOn with
  | nil => rw [pendings_nil]; rfl
  | append_singleton rows row ih =>
    rw [List.foldl_append, ih, List.foldl_cons, List.foldl_nil, push, visit_pendings hb]

/-- A relation is attached as its slot says. -/
theorem attach_eq (slots : NameMap (Slot Record)) (e : Element) (records : List Record) :
    attach slots e records = if e.materialized then
      (e.slot? records).toList.foldl (fun m s => m.insert s.1 s.2) slots else slots := by
  unfold attach Element.slot?
  cases e.materialized <;> cases e.relation.identifier? <;> rfl

mutual

theorem build_pendings : ∀ (b : Branch) (rows : List Row), b.element.materialized = true →
    (b.pendings rows).map (build b) = b.group rows
  | .node e children, rows, hm => by
    have hm' : e.materialized = true := hm
    rw [pendings, group, if_pos hm', List.map_map]
    refine List.map_congr_left fun k _ => ?_
    rw [Function.comp_apply, build, buildSlots_pendingsAll]
    rfl

theorem buildSlots_pendingsAll : ∀ (bs : List Branch) (rows : List Row)
    (acc : NameMap (Slot Record)), buildSlots bs (pendingsAll bs rows) acc =
      (slots bs rows).foldl (fun m s => m.insert s.1 s.2) acc
  | [], _, _ => rfl
  | b :: bs, rows, acc => by
    rw [pendingsAll, buildSlots, buildSlots_pendingsAll, attach_eq, Branch.slots]
    by_cases hm : b.element.materialized = true
    · rw [if_pos hm, if_pos hm, List.foldl_append, build_pendings b rows hm]
    · rw [if_neg hm, if_neg hm]

end

/-- The records of rows are the groups of the branch. -/
theorem finish_foldl_push {b : Branch} (hb : b.Keyed) (hm : b.element.materialized = true)
    (rows : List Row) : (rows.foldl push ⟨b, []⟩).finish = b.group rows := by
  rw [foldl_push hb, finish, build_pendings b rows hm]

end Unpacker

namespace JoinTree

/-! ## The tree as a branch -/

variable {lead : String} {t : JoinTree}

/-- An element with everything below it. -/
def branchAt (t : JoinTree) (e : Element) : Branch := Branch.grow t.rest t.rest.length e

section
variable (hl : t.Linked lead)
include hl

theorem childrenOf_eq (e : Element) :
    t.childrenOf e = t.rest.filter fun c => c.parent == some e.id := by
  rw [childrenOf, elements, List.filter_cons_of_neg (by simp [hl.root.2])]

/-- Children have greater numbers, and there are no more numbers than elements. -/
theorem id_of_child {e c : Element} (hc : c ∈ t.childrenOf e) :
    e.id < c.id ∧ c.id ≤ t.rest.length := by
  obtain ⟨hm, hp⟩ := List.mem_filter.1 hc
  have hp : c.parent = some e.id := by simpa using hp
  obtain ⟨i, hi⟩ := List.getElem?_of_mem hm
  have hlen := (List.getElem?_eq_some_iff.1 hi).1
  have hid := (hl.numbered i c hi).1
  rw [childrenOf_eq hl] at hc
  obtain ⟨p, -, hpp, hlt, -⟩ := hl.parent c (List.mem_filter.1 hc).1
  have hpe : p.id = e.id := Option.some.inj (hpp.symm.trans hp)
  rw [elements, List.length_cons] at hlen
  omega

/-- A branch that is deep enough is the whole branch. -/
theorem grow_eq : ∀ (n m : Nat) (e : Element), t.rest.length ≤ e.id + n →
    t.rest.length ≤ e.id + m → Branch.grow t.rest n e = Branch.grow t.rest m e := by
  have leaf : ∀ e : Element, t.rest.length ≤ e.id →
      (t.rest.filter fun c => c.parent == some e.id) = [] := by
    intro e he
    rw [← childrenOf_eq hl]
    refine List.eq_nil_iff_forall_not_mem.2 fun c hc => ?_
    have := id_of_child hl hc
    omega
  intro n
  induction n with
  | zero =>
    intro m e hn _
    cases m with
    | zero => rfl
    | succ m => rw [Branch.grow, Branch.grow, leaf e hn, List.map_nil]
  | succ n ih =>
    intro m e hn hm
    cases m with
    | zero => rw [Branch.grow, Branch.grow, leaf e hm, List.map_nil]
    | succ m =>
      rw [Branch.grow, Branch.grow]
      refine congrArg _ (List.map_congr_left fun c hc => ?_)
      rw [← childrenOf_eq hl] at hc
      have := id_of_child hl hc
      exact ih m c (by omega) (by omega)

/-- Below an element are the branches of its children. -/
theorem branchAt_eq (e : Element) :
    t.branchAt e = .node e ((t.childrenOf e).map t.branchAt) := by
  rw [branchAt, grow_eq hl _ (t.rest.length + 1) e (by omega) (by omega), Branch.grow,
    childrenOf_eq hl]
  rfl

theorem element_branchAt (e : Element) : (t.branchAt e).element = e := by
  rw [branchAt_eq hl]; rfl

theorem branchAt_keyed (hk : t.Keyed) {e : Element} (he : e ∈ t.elements) :
    (t.branchAt e).Keyed := by
  -- on how many numbers there are behind that of `e`
  induction hn : t.rest.length - e.id using Nat.strongRecOn generalizing e with
  | ind n ih =>
    rw [branchAt_eq hl]
    refine .node (fun hm => ?_) fun b hb => ?_
    · obtain ⟨c, hc, -⟩ := hk e he hm
      exact Option.isSome_iff_exists.2 ⟨c, hc⟩
    · obtain ⟨c, hc, rfl⟩ := List.mem_map.1 hb
      have := id_of_child hl hc
      exact ih _ (by omega) (List.mem_filter.1 hc).1 rfl

theorem group_branchAt (e : Element) (rows : List Row) : (t.branchAt e).group rows =
    (e.keysIn rows).map fun k => e.groupRecord (e.part rows k)
      (((t.childrenOf e).filter (·.materialized)).filterMap fun c =>
        c.slot? ((t.branchAt c).group (e.part rows k))) := by
  rw [branchAt_eq hl, Branch.group]
  simp only [Branch.slots_eq, List.filter_map, List.filterMap_map, Function.comp_def,
    element_branchAt hl]

theorem groupsBy_branchAt : t.GroupsBy fun e => (t.branchAt e).group :=
  fun e _ rows => group_branchAt hl e rows

/-- There is but one way to group. -/
theorem GroupsBy.eq_group {group : Element → List Row → List Record} (hg : t.GroupsBy group)
    {e : Element} (he : e ∈ t.elements) (rows : List Row) :
    group e rows = (t.branchAt e).group rows := by
  induction hn : t.rest.length - e.id using Nat.strongRecOn generalizing e rows with
  | ind n ih =>
    rw [hg e he, group_branchAt hl]
    refine List.map_congr_left fun k _ => congrArg _ (List.filterMap_congr fun c hc => ?_)
    have hc := (List.mem_filter.1 hc).1
    have := id_of_child hl hc
    rw [ih _ (by omega) (List.mem_filter.1 hc).1 _ rfl]

end

/-- Names settle what is in a record: columns, calculations and relations have names of their
own. -/
structure Named (t : JoinTree) : Prop where
  columns : ∀ e ∈ t.elements, (e.emitted.map (·.column.name)).Nodup
  calculations : ∀ e ∈ t.elements, (e.calculations.map (·.name)).Nodup
  relations : ∀ e ∈ t.elements, ∀ c ∈ t.childrenOf e, ∀ d ∈ t.childrenOf e,
    c.relation.identifier? = d.relation.identifier? → c = d

theorem root_materialized {projection : Projection} {q : Query}
    (h : compile projection lead q = .ok t) : t.root.materialized = true := by
  obtain ⟨r, keys, -, -, hroot, -⟩ := compile_cases h
  simp [hroot, Reads.element, Reads.materialized]

theorem Over.named {s : Schema} (hs : Schema.SoundTables s.tables) (ho : t.Over s)
    (hl : t.Linked lead) (hn : (t.elements.map (·.path)).Nodup) : t.Named where
  columns e he := (ho.names e he).sublist (List.filter_sublist.map _)
  calculations := ho.calculations
  relations e he c hc d hd hi := by
    obtain ⟨hc, hcp⟩ := List.mem_filter.1 hc
    obtain ⟨hd, hdp⟩ := List.mem_filter.1 hd
    exact ho.eq_of_identifier hs hl hn he hc hd (beq_iff_eq.1 hcp) (beq_iff_eq.1 hdp) hi

theorem records_eq_branchAt {projection : Projection} {q : Query}
    (h : compile projection lead q = .ok t) (hk : t.Keyed) (rows : List Row) :
    Unpacker.records t rows = (t.branchAt t.root).group rows := by
  have hl := compile_linked h
  refine Unpacker.finish_foldl_push (branchAt_keyed hl hk List.mem_cons_self) ?_ rows
  rw [element_branchAt hl]
  exact root_materialized h

/-- **Folding is grouping.** The records of rows, in any order, are the groups of the root: one
record for every key, level by level. -/
theorem records_eq_group {d : SchemaDecl} {s : Schema} (hs : Schema.ofDeclaration d = .ok s)
    {q : Query} (hq : q.Over s) (hg : q.groupBys = []) (hd : q.distinct = false)
    (h : compile .objects lead q = .ok t) :
    t.Keyed ∧ t.Named ∧ (∃ group, t.GroupsBy group) ∧ ∀ group, t.GroupsBy group →
      ∀ rows, Unpacker.records t rows = group t.root rows := by
  have hsound := Schema.ofDeclaration_sound hs
  have hl := compile_linked h
  have hk := compile_keyed hsound hq hg hd h
  refine ⟨hk, (compile_over hq h).named hsound hl (compile_nodup h),
    ⟨_, groupsBy_branchAt hl⟩, fun group hgroup rows => ?_⟩
  rw [records_eq_branchAt h hk, hgroup.eq_group hl List.mem_cons_self]

theorem library_groups : ∃ s q t, Library.tree = .ok (s, q, t) ∧
    t.Keyed ∧ t.Named ∧ (∃ group, t.GroupsBy group) ∧ ∀ group, t.GroupsBy group →
      ∀ rows, Unpacker.records t rows = group t.root rows := by
  obtain ⟨s, q, t, h⟩ := Library.exists_tree
  obtain ⟨hs, hq, ht⟩ := Library.tree_cases h
  obtain ⟨-, hg, -, -, -, -, hd⟩ := Library.query_plain hq
  exact ⟨s, q, t, h, records_eq_group hs (Library.query_over hq) hg hd ht⟩

end JoinTree

end RecordGraph
