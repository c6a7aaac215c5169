import Mathlib.Data.List.Perm.Basic
import RecordGraph.Proofs.JoinTree.Named
import RecordGraph.Proofs.JoinTree.Noted

/-!
# Queries that differ in arrangement only

A query lists nodes. The order of its lists, nodes that come twice, and which of several matching
nodes stands in them do not count: queries that differ in that only compile to the same elements,
or neither of them compiles.

**Results.**
* `QueryOf.Rearranges`: queries that differ in arrangement only.
* `Noted.Within`: what is noted of one query is noted of the other.
* `Reads.Like`: what two queries read is the same up to order.
* `JoinTree.compile_rearranged`: the compiled trees agree.
-/
namespace RecordGraph

/-! ## Lists up to order -/

/-- Lists that are related one by one after a permutation. -/
def Shuffled (R : α → β → Prop) (as : List α) (bs : List β) : Prop :=
  ∃ cs, as.Perm cs ∧ List.Forall₂ R cs bs

namespace Shuffled

variable {R : α → β → Prop} {as : List α} {bs : List β}

theorem symm {S : β → α → Prop} (hRS : ∀ a b, R a b → S b a) (h : Shuffled R as bs) :
    Shuffled S bs as := by
  obtain ⟨cs, hperm, hall⟩ := h
  obtain ⟨ds, hds, hperm'⟩ := List.perm_comp_forall₂ hperm hall
  exact ⟨ds, hperm'.symm, (hds.imp hRS).flip⟩

theorem exists_left (h : Shuffled R as bs) {b : β} (hb : b ∈ bs) : ∃ a ∈ as, R a b := by
  obtain ⟨cs, hperm, hall⟩ := h
  obtain ⟨i, hi, rfl⟩ := List.mem_iff_getElem.1 hb
  have hlen := hall.length_eq
  exact ⟨cs[i], hperm.mem_iff.2 (List.getElem_mem _), hall.get (by omega) hi⟩

theorem exists_right (h : Shuffled R as bs) {a : α} (ha : a ∈ as) : ∃ b ∈ bs, R a b :=
  (h.symm (S := fun b a => R a b) fun _ _ => id).exists_left ha

/-- What is made of related entries is related. -/
theorem flatMap {γ δ : Type} {S : γ → δ → Prop} {f : α → List γ} {g : β → List δ}
    (h : Shuffled R as bs) (hfg : ∀ a ∈ as, ∀ b ∈ bs, R a b → List.Forall₂ S (f a) (g b)) :
    Shuffled S (as.flatMap f) (bs.flatMap g) := by
  obtain ⟨cs, hperm, hall⟩ := h
  refine ⟨cs.flatMap f, hperm.flatMap_right f, ?_⟩
  have hmem : ∀ c ∈ cs, c ∈ as := fun c hc => hperm.mem_iff.2 hc
  clear hperm
  induction hall with
  | nil => exact .nil
  | @cons a b cs bs hab _ ih =>
    rw [List.flatMap_cons, List.flatMap_cons]
    refine List.rel_append (hfg a (hmem a List.mem_cons_self) b List.mem_cons_self hab) (ih ?_ ?_)
    · exact fun x hx y hy => hfg x hx y (List.mem_cons_of_mem _ hy)
    · exact fun c hc => hmem c (List.mem_cons_of_mem _ hc)

/-- What related entries have in common is the same up to order. -/
theorem map_perm {γ : Type} {f : α → γ} {g : β → γ} (h : Shuffled R as bs)
    (hfg : ∀ a b, R a b → f a = g b) : (as.map f).Perm (bs.map g) := by
  obtain ⟨cs, hperm, hall⟩ := h
  refine (hperm.map f).trans (List.Perm.of_eq ?_)
  clear hperm
  induction hall with
  | nil => rfl
  | cons hab _ ih => rw [List.map_cons, List.map_cons, hfg _ _ hab, ih]

end Shuffled

/-! ## Rearranged queries -/

/-- Lists that hold matching nodes, in any order and any number of times. -/
structure Node.SameNodes (ns ms : List Node) : Prop where
  left : ∀ n ∈ ns, ∃ m ∈ ms, n.Matches m
  right : ∀ m ∈ ms, ∃ n ∈ ns, m.Matches n

/-- Calculations of one name whose nodes match. -/
structure Calculation.Matches (c d : Calculation Node) : Prop where
  target : c.target.Matches d.target
  name : c.name = d.name
  expression : c.expression.Matches d.expression

/-- Queries that differ in the order of their lists, in how often a node is repeated, and in which
of several matching nodes they hold. Where the sorts point, and how many rows are asked for, is left
open. -/
structure QueryOf.Rearranges (q q' : Query) : Prop where
  root : q.root.Matches q'.root
  selects : Node.SameNodes q.selects q'.selects
  conditions : Node.SameNodes q.conditions q'.conditions
  orderBys : Node.SameNodes (q.orderBys.map (·.node)) (q'.orderBys.map (·.node))
  groupBys : Node.SameNodes q.groupBys q'.groupBys
  having : Node.SameNodes q.having q'.having
  calculations : Shuffled Calculation.Matches q.calculations q'.calculations
  distinct : q.distinct = q'.distinct

namespace Node.SameNodes

theorem symm {ns ms : List Node} (h : SameNodes ns ms) : SameNodes ms ns := ⟨h.right, h.left⟩

theorem isEmpty_eq {ns ms : List Node} (h : SameNodes ns ms) : ns.isEmpty = ms.isEmpty := by
  cases ns with
  | nil =>
    cases ms with
    | nil => rfl
    | cons m ms =>
      obtain ⟨n, hn, -⟩ := h.right m List.mem_cons_self
      cases hn
  | cons n ns =>
    cases ms with
    | nil =>
      obtain ⟨m, hm, -⟩ := h.left n List.mem_cons_self
      cases hm
    | cons m ms => rfl

end Node.SameNodes

theorem Calculation.Matches.symm {c d : Calculation Node} (h : c.Matches d) : d.Matches c :=
  ⟨h.target.symm, h.name.symm, h.expression.symm⟩

theorem QueryOf.Rearranges.symm {q q' : Query} (h : q.Rearranges q') : q'.Rearranges q where
  root := h.root.symm
  selects := h.selects.symm
  conditions := h.conditions.symm
  orderBys := h.orderBys.symm
  groupBys := h.groupBys.symm
  having := h.having.symm
  calculations := h.calculations.symm fun _ _ => Calculation.Matches.symm
  distinct := h.distinct.symm

/-! ## What is noted of them -/

/-- All that is noted is noted in `m` too. -/
structure Noted.Within (n m : Noted) : Prop where
  allowed : m.allowed → n.allowed
  places : n.places ⊆ m.places
  columns : n.columns ⊆ m.columns
  calculated : n.calculated ⊆ m.calculated

namespace Noted.Within

theorem of_eq {n m : Noted} (h : n = m) : n.Within m := by
  subst h
  exact ⟨id, fun _ => id, fun _ => id, fun _ => id⟩

theorem and {a b c d : Noted} (h : a.Within b) (h' : c.Within d) : (a.and c).Within (b.and d) where
  allowed hbd := ⟨h.allowed hbd.1, h'.allowed hbd.2⟩
  places := List.append_subset.2 ⟨List.subset_append_of_subset_left _ h.places,
    List.subset_append_of_subset_right _ h'.places⟩
  columns := List.append_subset.2 ⟨List.subset_append_of_subset_left _ h.columns,
    List.subset_append_of_subset_right _ h'.columns⟩
  calculated := List.append_subset.2 ⟨List.subset_append_of_subset_left _ h.calculated,
    List.subset_append_of_subset_right _ h'.calculated⟩

end Noted.Within

namespace Noted

variable {f : α → Noted}

theorem Within.all {as bs : List α} (h : ∀ a ∈ as, ∃ b ∈ bs, (f a).Within (f b)) :
    (all f as).Within (all f bs) := by
  obtain ⟨hp, hc, hcd, -⟩ := all_eq (f := f) as
  obtain ⟨hp', hc', hcd', -⟩ := all_eq (f := f) bs
  refine ⟨fun hbs => all_allowed.2 fun a ha => ?_, ?_, ?_, ?_⟩
  · obtain ⟨b, hb, hab⟩ := h a ha
    exact hab.allowed (all_allowed.1 hbs b hb)
  · rw [hp, hp']
    intro x hx
    obtain ⟨a, ha, hx⟩ := List.mem_flatMap.1 hx
    obtain ⟨b, hb, hab⟩ := h a ha
    exact List.mem_flatMap.2 ⟨b, hb, hab.places hx⟩
  · rw [hc, hc']
    intro x hx
    obtain ⟨a, ha, hx⟩ := List.mem_flatMap.1 hx
    obtain ⟨b, hb, hab⟩ := h a ha
    exact List.mem_flatMap.2 ⟨b, hb, hab.columns hx⟩
  · rw [hcd, hcd']
    intro x hx
    obtain ⟨a, ha, hx⟩ := List.mem_flatMap.1 hx
    obtain ⟨b, hb, hab⟩ := h a ha
    exact List.mem_flatMap.2 ⟨b, hb, hab.calculated hx⟩

end Noted

namespace Node

variable {s : Schema}

/-- The same is noted of matching expressions. -/
theorem Matches.noted_eq (hs : Schema.SoundTables s.tables) {n m : Node} (hn : n.Over s)
    (hm : m.Over s) (h : n.Matches m) : n.noted = m.noted := by
  -- on the size of the expression
  rcases h.cases_over hs hn hm with rfl | ⟨op, xs, ys, rfl, rfl, hall⟩ | ⟨v, w, rfl, rfl⟩
  · rfl
  · have hsize : ∀ p ∈ xs.zip ys, sizeOf p.1 < sizeOf (Node.operation op xs) := by
      intro p hp
      have := List.sizeOf_lt_of_mem (List.of_mem_zip hp).1
      simp only [Node.operation.sizeOf_spec]
      omega
    have hnoted : List.Forall₂ (fun a b => a.noted = b.noted) xs ys := by
      refine List.forall₂_iff_zip.2 ⟨hall.length_eq, fun {a b} hab => ?_⟩
      have := hsize _ hab
      obtain ⟨ha, hb⟩ := List.of_mem_zip hab
      exact Matches.noted_eq hs (hn.of_operation a ha) (hm.of_operation b hb)
        ((List.forall₂_iff_zip.1 hall).2 hab)
    rw [noted, noted]
    clear hsize hn hm h hall
    induction hnoted with
    | nil => rfl
    | cons h _ ih => rw [notedAll, notedAll, h, ih]
  · rw [noted, noted]
termination_by sizeOf n

mutual

/-- The places of what is noted are the places that are read. -/
theorem noted_places : ∀ n : Node, n.noted.places = n.placesRead
  | .column p c => by rw [noted, placesRead] <;> first | rfl | simp
  | .calculated p name => by rw [noted, placesRead] <;> first | rfl | simp
  | .operation op operands => by rw [noted, placesRead]; exact notedAll_places operands
  | .value v => by rw [noted, placesRead]; rfl
  | .subquery q => by rw [noted, placesRead]; rfl
  | .table t => by rw [noted, placesRead] <;> first | rfl | simp
  | .reference p r t => by rw [noted, placesRead] <;> first | rfl | simp
  | .reverse p r t => by rw [noted, placesRead] <;> first | rfl | simp
  | .manyMany p r t => by rw [noted, placesRead] <;> first | rfl | simp

theorem notedAll_places : ∀ ns : List Node, (notedAll ns).places = placesReadAll ns
  | [] => by rw [notedAll, placesReadAll]; rfl
  | n :: rest => by
    rw [notedAll, placesReadAll, ← noted_places n, ← notedAll_places rest]
    rfl

end

/-- A node that matches a table, a column or a relation is that node. -/
theorem Matches.eq_of_place (hs : Schema.SoundTables s.tables) {n m : Node} (hn : n.Over s)
    (hm : m.Over s) (h : n.Matches m) (hp : n.path?.isSome) : n = m := by
  rcases h.cases_over hs hn hm with he | ⟨op, xs, ys, rfl, -, -⟩ | ⟨v, w, rfl, -⟩
  · exact he
  · cases hp
  · cases hp

/-- The same is noted of matching nodes to group by. -/
theorem Matches.notedGroupBy_eq (hs : Schema.SoundTables s.tables) {n m : Node} (hn : n.Over s)
    (hm : m.Over s) (h : n.Matches m) : n.notedGroupBy = m.notedGroupBy := by
  rcases h.cases_over hs hn hm with rfl | ⟨op, xs, ys, rfl, rfl, -⟩ | ⟨v, w, rfl, rfl⟩
  · rfl
  · rfl
  · rfl

theorem Matches.notedSelect_eq (hs : Schema.SoundTables s.tables) {n m : Node} (hn : n.Over s)
    (hm : m.Over s) (h : n.Matches m) : n.notedSelect = m.notedSelect := by
  rcases h.cases_over hs hn hm with rfl | ⟨op, xs, ys, rfl, rfl, -⟩ | ⟨v, w, rfl, rfl⟩
  · rfl
  · rfl
  · rfl

/-- In a grouped query what is selected is grouped by. -/
theorem notedGrouped_allowed (hs : Schema.SoundTables s.tables) {groupBys groupBys' : List Node}
    (hg : ∀ g ∈ groupBys, g.Over s) (hg' : ∀ g ∈ groupBys', g.Over s)
    (hsame : SameNodes groupBys' groupBys) {n m : Node} (hn : n.Over s) (hm : m.Over s)
    (h : n.Matches m) (hcols : ∀ g ∈ groupBys', g.notedGroupBy.allowed)
    (ha : (m.notedGrouped groupBys').allowed) : (n.notedGrouped groupBys).allowed := by
  obtain ⟨g', hmem', halike⟩ := List.any_eq_true.1 (show groupBys'.any (·.alike m) = true from ha)
  obtain ⟨g, hmem, hmatch⟩ := hsame.left g' hmem'
  -- a node to group by is a column, which is settled by its names
  obtain ⟨p, c, rfl⟩ : ∃ p c, g' = .column p c := by
    have := hcols g' hmem'
    cases g' with
    | column p c => exact ⟨p, c, rfl⟩
    | _ => exact this.elim
  have hcol := hg' _ hmem'
  obtain ⟨hp, t, ht, -⟩ := hcol.of_column
  obtain ⟨path, hpath, -⟩ := hp.join?_eq ht
  have hplace : (Node.column p c).path?.isSome := by rw [path?, hpath]; rfl
  obtain rfl := hmatch.eq_of_place hs hcol (hg g hmem) hplace
  obtain rfl := (Matches.alike halike).eq_of_place hs hcol hm hplace
  obtain rfl := h.symm.eq_of_place hs hm hn hplace
  exact List.any_eq_true.2 ⟨_, hmem, halike⟩

end Node

/-- The same is noted of matching calculations, but for the expressions themselves. -/
theorem Calculation.Matches.noted_within {s : Schema} (hs : Schema.SoundTables s.tables)
    {c d : Calculation Node} (hct : c.target.Over s) (hdt : d.target.Over s)
    (hce : c.expression.Over s) (hde : d.expression.Over s) (h : c.Matches d) :
    c.noted.Within d.noted := by
  have he := h.expression.noted_eq hs hce hde
  rcases h.target.cases_over hs hct hdt with ht | ⟨op, xs, ys, hx, hy, -⟩ | ⟨v, w, hv, hw⟩
  · rw [Calculation.noted, Calculation.noted, ht, he]
    split
    · exact .and (.of_eq rfl) ⟨id, fun _ => id, fun _ => id, fun _ => id⟩
    · exact .of_eq rfl
  · rw [Calculation.noted, Calculation.noted, hx, hy]
    exact .of_eq rfl
  · rw [Calculation.noted, Calculation.noted, hv, hw]
    exact .of_eq rfl

/-- Declarations of one calculation by matching expressions. -/
structure Declared.Matches (a b : Declared) : Prop where
  path : a.path = b.path
  name : a.name = b.name
  expression : a.expression.Matches b.expression

theorem Calculation.Matches.declared {s : Schema} (hs : Schema.SoundTables s.tables)
    {c d : Calculation Node} (hct : c.target.Over s) (hdt : d.target.Over s) (h : c.Matches d) :
    List.Forall₂ Declared.Matches c.noted.calculations d.noted.calculations := by
  rcases h.target.cases_over hs hct hdt with ht | ⟨op, xs, ys, hx, hy, -⟩ | ⟨v, w, hv, hw⟩
  · rw [Calculation.noted, Calculation.noted, ht]
    split
    · simp only [Noted.and, Noted.way, Noted.nothing, Node.noted_calculations, List.nil_append]
      cases d.target.path? with
      | none => exact .nil
      | some path => exact .cons ⟨rfl, h.name, h.expression⟩ .nil
    · exact .nil
  · rw [Calculation.noted, Calculation.noted, hx, hy]
    exact .nil
  · rw [Calculation.noted, Calculation.noted, hv, hw]
    exact .nil

namespace QueryOf.Rearranges

variable {s : Schema} (hs : Schema.SoundTables s.tables) {q q' : Query} (hq : q.Over s)
  (hq' : q'.Over s) (h : q.Rearranges q')

include hs hq hq' h

/-- Whatever is noted of a query is noted of its rearrangements. -/
theorem noted_within : q.noted.Within q'.noted := by
  have p := hq.parts
  have p' := hq'.parts
  have hexprs : ∀ {ns ms : List Node}, (∀ n ∈ ns, n.Over s) → (∀ m ∈ ms, m.Over s) →
      Node.SameNodes ns ms → (Noted.all Node.noted ns).Within (Noted.all Node.noted ms) := by
    intro ns ms hns hms hsame
    refine .all fun n hn => ?_
    obtain ⟨m, hm, hnm⟩ := hsame.left n hn
    exact ⟨m, hm, .of_eq (hnm.noted_eq hs (hns n hn) (hms m hm))⟩
  have hgroup : (Noted.all Node.notedGroupBy q.groupBys).Within
      (Noted.all Node.notedGroupBy q'.groupBys) := by
    refine .all fun n hn => ?_
    obtain ⟨m, hm, hnm⟩ := h.groupBys.left n hn
    exact ⟨m, hm, .of_eq (hnm.notedGroupBy_eq hs (p.groupBys n hn) (p'.groupBys m hm))⟩
  have hselect : ((Noted.all Node.notedGroupBy q.groupBys).and
      (Noted.all (if !q.groupBys.isEmpty then Node.notedGrouped q.groupBys else Node.notedSelect)
        q.selects)).Within ((Noted.all Node.notedGroupBy q'.groupBys).and
      (Noted.all (if !q'.groupBys.isEmpty then Node.notedGrouped q'.groupBys else Node.notedSelect)
        q'.selects)) := by
    rw [h.groupBys.isEmpty_eq]
    split
    · obtain ⟨hp, hc, hcd⟩ := Node.all_notedGrouped q.groupBys q.selects
      refine ⟨fun ha => ⟨hgroup.allowed ha.1, Noted.all_allowed.2 fun n hn => ?_⟩, ?_, ?_, ?_⟩
      · obtain ⟨m, hm, hnm⟩ := h.selects.left n hn
        exact Node.notedGrouped_allowed hs p.groupBys p'.groupBys h.groupBys.symm (p.selects n hn)
          (p'.selects m hm) hnm (Noted.all_allowed.1 ha.1) (Noted.all_allowed.1 ha.2 m hm)
      · exact List.append_subset.2 ⟨List.subset_append_of_subset_left _ hgroup.places,
          by rw [hp]; exact List.nil_subset _⟩
      · exact List.append_subset.2 ⟨List.subset_append_of_subset_left _ hgroup.columns,
          by rw [hc]; exact List.nil_subset _⟩
      · exact List.append_subset.2 ⟨List.subset_append_of_subset_left _ hgroup.calculated,
          by rw [hcd]; exact List.nil_subset _⟩
    · refine hgroup.and (.all fun n hn => ?_)
      obtain ⟨m, hm, hnm⟩ := h.selects.left n hn
      exact ⟨m, hm, .of_eq (hnm.notedSelect_eq hs (p.selects n hn) (p'.selects m hm))⟩
  have hroot : Noted.Within
      (if q.selects.isEmpty && !(!q.groupBys.isEmpty) then .read q.root true (·.columns)
        else .nothing)
      (if q'.selects.isEmpty && !(!q'.groupBys.isEmpty) then .read q'.root true (·.columns)
        else .nothing) := by
    rw [h.groupBys.isEmpty_eq, h.selects.isEmpty_eq]
    split
    · refine .of_eq ?_
      rcases h.root.cases_over hs p.root p'.root with he | ⟨op, xs, ys, hx, hy, -⟩ | ⟨v, w, hv, hw⟩
      · rw [he]
      · rw [hx, hy]; rfl
      · rw [hv, hw]; rfl
    · exact .of_eq rfl
  have hcalc : (Noted.all Calculation.noted q.calculations).Within
      (Noted.all Calculation.noted q'.calculations) := by
    refine .all fun c hc => ?_
    obtain ⟨d, hd, hcd⟩ := h.calculations.exists_right hc
    exact ⟨d, hd, hcd.noted_within hs (p.targets c hc) (p'.targets d hd) (p.expressions c hc)
      (p'.expressions d hd)⟩
  exact ((((hselect.and hroot).and (hexprs p.conditions p'.conditions h.conditions)).and
    (hexprs p.orderBys p'.orderBys h.orderBys)).and
    (hexprs p.having p'.having h.having)).and hcalc

/-- The same calculations are declared. -/
theorem declared : Shuffled Declared.Matches q.noted.calculations q'.noted.calculations := by
  have p := hq.parts
  have p' := hq'.parts
  rw [QueryOf.noted_calculations_eq, QueryOf.noted_calculations_eq]
  exact h.calculations.flatMap fun c hc d hd hcd =>
    hcd.declared hs (p.targets c hc) (p'.targets d hd)

/-- Matching roots are one table. -/
theorem root_eq {t : Table} (hroot : q.root = .table t) : q'.root = .table t := by
  rw [← hroot]
  refine (h.root.eq_of_place hs hq.parts.root hq'.parts.root ?_).symm
  rw [hroot]
  rfl

/-- A query can be read if one of its rearrangements can. -/
theorem sees {t : Table} (hsees : Reads.Sees q' t) : Reads.Sees q t := by
  obtain ⟨hfit, hcheck⟩ := hsees
  have hwithin := h.noted_within hs hq hq'
  have hdecl := h.declared hs hq hq'
  refine ⟨⟨hwithin.allowed hfit.allowed, fun p hp => hfit.rooted p (hwithin.places hp), ?_⟩, ?_⟩
  · -- different calculations have different places and names
    have hnames : ∀ ds : List Declared, ds.Pairwise Declared.Apart ↔
        (ds.map fun d => (d.path, d.name)).Nodup := by
      intro ds
      rw [List.nodup_iff_pairwise_ne, List.pairwise_map]
      simp only [ne_eq, Prod.mk.injEq]
      rfl
    have hcalc := hfit.calculations
    simp only [Reads.start, List.nil_append] at hcalc ⊢
    rw [hnames] at hcalc ⊢
    exact (hdecl.map_perm fun a b hab => by rw [hab.path, hab.name]).nodup_iff.2 hcalc
  · intro p hp
    obtain ⟨d, hd, hpath, hname⟩ := hcheck p (hwithin.calculated hp)
    obtain ⟨e, he, hed⟩ := hdecl.exists_left hd
    exact ⟨e, he, hed.path.trans hpath, hed.name.trans hname⟩

end QueryOf.Rearranges

/-! ## What two queries read -/

namespace Reads

/-- A column is settled by its place. -/
theorem eq_of_place {t : Table} (ht : t.Sound) {c d : Column} (hc : c ∈ t.columns)
    (hd : d ∈ t.columns) (h : place t c = place t d) : c = d :=
  ht.column_eq hc hd (name_eq_of_place hd h)

/-- What is read is the same up to order, and calculations up to matching expressions. -/
structure Like (r r' : Reads) : Prop where
  root : r.root = r'.root
  paths : ∀ p, p ∈ r.paths ↔ p ∈ r'.paths
  columns : ∀ c, c ∈ r.columns ↔ c ∈ r'.columns
  calculations : Shuffled Declared.Matches r.calculations r'.calculations

/-- Rearranged queries read the same. -/
theorem like_of_rearranges {s : Schema} (hs : Schema.SoundTables s.tables) {q q' : Query}
    (hq : q.Over s) (hq' : q'.Over s) (h : q.Rearranges q') {r r' : Reads}
    (hr : ofQuery? q = .ok r) (hr' : ofQuery? q' = .ok r') : r.Like r' := by
  have hplaces : ∀ {a b : Query}, a.Over s → b.Over s → a.Rearranges b →
      a.placesRead ⊆ b.placesRead := by
    intro a b ha hb hab path hpath
    obtain ⟨n, hn, hpath⟩ := List.mem_flatMap.1 hpath
    obtain ⟨m, hm, hnm⟩ : ∃ m ∈ b.nodes, n.Matches m := by
      simp only [QueryOf.nodes, List.mem_cons, List.mem_append, List.mem_flatMap,
        List.not_mem_nil, or_false] at hn ⊢
      rcases hn with rfl | ((((hn | hn) | hn) | hn) | hn) | ⟨c, hc, rfl | rfl⟩
      · exact ⟨_, .inl rfl, hab.root⟩
      · obtain ⟨m, hm, hnm⟩ := hab.groupBys.left n hn
        exact ⟨m, by simp only [hm, true_or, or_true], hnm⟩
      · obtain ⟨m, hm, hnm⟩ := hab.selects.left n hn
        exact ⟨m, by simp only [hm, true_or, or_true], hnm⟩
      · obtain ⟨m, hm, hnm⟩ := hab.conditions.left n hn
        exact ⟨m, by simp only [hm, true_or, or_true], hnm⟩
      · obtain ⟨m, hm, hnm⟩ := hab.orderBys.left n hn
        exact ⟨m, by simp only [hm, true_or, or_true], hnm⟩
      · obtain ⟨m, hm, hnm⟩ := hab.having.left n hn
        exact ⟨m, by simp only [hm, true_or, or_true], hnm⟩
      · obtain ⟨d, hd, hcd⟩ := hab.calculations.exists_right hc
        exact ⟨_, .inr (.inr ⟨d, hd, .inl rfl⟩), hcd.target⟩
      · obtain ⟨d, hd, hcd⟩ := hab.calculations.exists_right hc
        exact ⟨_, .inr (.inr ⟨d, hd, .inr rfl⟩), hcd.expression⟩
    refine List.mem_flatMap.2 ⟨m, hm, ?_⟩
    rw [← Node.noted_places] at hpath ⊢
    rwa [← hnm.noted_eq hs (ha n hn) (hb m hm)]
  obtain ⟨t, hroot, hrt, -, hpaths⟩ := ofQuery?_adds hr
  obtain ⟨t', hroot', hrt', -, hpaths'⟩ := ofQuery?_adds hr'
  obtain ⟨hcols, hcalcs⟩ := ofQuery?_notes hq hr
  obtain ⟨hcols', hcalcs'⟩ := ofQuery?_notes hq' hr'
  have hw := h.noted_within hs hq hq'
  have hw' := h.symm.noted_within hs hq' hq
  refine ⟨?_, fun p => ?_, fun c => ?_, ?_⟩
  · cases hroot'.symm.trans (h.root_eq hs hq hq' hroot)
    rw [hrt, hrt']
  · rw [hpaths, hpaths']
    refine and_congr_right fun _ => ⟨?_, ?_⟩
    · rintro ⟨full, hf, hp⟩
      exact ⟨full, hplaces hq hq' h hf, hp⟩
    · rintro ⟨full, hf, hp⟩
      exact ⟨full, hplaces hq' hq h.symm hf, hp⟩
  · rw [hcols, hcols']
    exact ⟨fun hc => hw.columns hc, fun hc => hw'.columns hc⟩
  · rw [hcalcs, hcalcs']
    exact h.declared hs hq hq'

section

variable {s : Schema} {r r' : Reads} (ho : r.Over s) (ho' : r'.Over s) (h : r.Like r')

include ho ho' h

/-- The joins are listed alike. -/
theorem order_eq : r.order = r'.order := by
  have hmem : ∀ {a b : Reads}, a.Over s → b.Over s → (∀ p, p ∈ a.paths → p ∈ b.paths) →
      ∀ j ∈ a.order, j ∈ b.order := by
    intro a b ha hb hab j hj
    obtain ⟨k, hk, hkj⟩ := mem_paths_iff.1 (hab _ (mem_paths_iff.2 ⟨j, hj, rfl⟩))
    -- what is joined at a path is settled by the schema
    have hjoin := ha.joins j (List.mem_cons.2 (mem_order.1 hj))
    rw [← hkj, hb.joins k (List.mem_cons.2 (mem_order.1 hk))] at hjoin
    obtain ⟨hrel, htable⟩ := Prod.mk.inj (Option.some.inj hjoin)
    have hjk : j = k := by
      cases j
      cases k
      simp only at hkj hrel htable
      rw [hkj, hrel, htable]
    exact hjk ▸ hk
  have hperm : r.order.Perm r'.order := by
    refine (List.perm_ext_iff_of_nodup ?_ ?_).2 fun j => ⟨?_, ?_⟩
    · exact (order_nodup ho.toClosed).of_map _
    · exact (order_nodup ho'.toClosed).of_map _
    · exact hmem ho ho' (fun p => (h.paths p).1) j
    · exact hmem ho' ho (fun p => (h.paths p).2) j
  refine List.Perm.eq_of_pairwise ?_ (order_sorted ho.toClosed) (order_sorted ho'.toClosed) hperm
  intro a b _ _ hab hba
  rw [Path.compare_swap, hab] at hba
  cases hba

theorem idOf_eq_of_like (path : Path) : r.idOf path = r'.idOf path := by
  rw [idOf, idOf, order_eq ho ho' h]

theorem children_eq_of_like (path : Path) : r.children path = r'.children path := by
  simp only [children, order_eq ho ho' h, idOf_eq_of_like ho ho' h]

omit ho ho' in
theorem materialized_eq (path : Path) : r.materialized path = r'.materialized path := by
  have hcols : r.columns.any (fun c => c.selected && path.isPrefixOf c.path)
      = r'.columns.any (fun c => c.selected && path.isPrefixOf c.path) := by
    rw [Bool.eq_iff_iff, List.any_eq_true, List.any_eq_true]
    simp only [h.columns]
  have hcalcs : r.calculations.any (fun d => path.isPrefixOf d.path)
      = r'.calculations.any (fun d => path.isPrefixOf d.path) := by
    rw [Bool.eq_iff_iff, List.any_eq_true, List.any_eq_true]
    constructor
    · rintro ⟨d, hd, hp⟩
      obtain ⟨e, he, hde⟩ := h.calculations.exists_right hd
      exact ⟨e, he, hde.path ▸ hp⟩
    · rintro ⟨e, he, hp⟩
      obtain ⟨d, hd, hde⟩ := h.calculations.exists_left he
      exact ⟨d, hd, hde.path ▸ hp⟩
  rw [materialized, materialized, h.root, hcols, hcalcs]

omit ho ho' in
theorem isSelected_eq (path : Path) (c : Column) : r.isSelected path c = r'.isSelected path c := by
  rw [isSelected, isSelected, Bool.eq_iff_iff, List.any_eq_true, List.any_eq_true]
  simp only [h.columns]

/-- The columns of a join are the same, in the order of its table. -/
theorem columnsOf_eq (hs : Schema.SoundTables s.tables) (keys : Bool) {j : Join}
    (hj : j ∈ r.order) : r.columnsOf keys j = r'.columnsOf keys j := by
  have hj' : j ∈ r'.order := order_eq ho ho' h ▸ hj
  have hsound : j.table.Sound :=
    hs.sound _ (Schema.mem_of_join? (ho.joins j (List.mem_cons.2 (mem_order.1 hj))))
  have hread : ∀ {a b : Reads}, (∀ c, c ∈ a.columns → c ∈ b.columns) → a.Over s → b.Over s →
      j ∈ a.order → j ∈ b.order → ∀ c ∈ a.columnsOf keys j, c ∈ b.columnsOf keys j := by
    intro a b hab ha hb hja hjb c hc
    have hin := columnsOf_mem ha hja hc
    have hall : c ∈ ((b.columns.filter (·.path == j.path)).map (·.column)) ++
        (if keys then j.table.primaryKey :: j.table.lockColumn?.toList else []) := by
      rw [columnsOf, List.mem_mergeSort] at hc
      rcases List.mem_append.1 ((distinctColumns_spec _).2.1 c hc) with hc | hc
      · obtain ⟨d, hd, rfl⟩ := List.mem_map.1 hc
        obtain ⟨hd, hp⟩ := List.mem_filter.1 hd
        exact List.mem_append_left _ (List.mem_map_of_mem (List.mem_filter.2 ⟨hab d hd, hp⟩))
      · exact List.mem_append_right _ hc
    obtain ⟨d, hd, hdc⟩ := (distinctColumns_spec _).2.2 c hall
    have hd' : d ∈ b.columnsOf keys j := List.mem_mergeSort.2 hd
    obtain rfl : d = c := hsound.column_eq (columnsOf_mem hb hjb hd') hin hdc
    exact hd'
  have hperm : (r.columnsOf keys j).Perm (r'.columnsOf keys j) := by
    refine (List.perm_ext_iff_of_nodup ?_ ?_).2 fun c => ⟨?_, ?_⟩
    · exact (columnsOf_names r keys j).of_map _
    · exact (columnsOf_names r' keys j).of_map _
    · exact hread (fun c => (h.columns c).1) ho ho' hj hj' c
    · exact hread (fun c => (h.columns c).2) ho' ho hj' hj c
  refine List.Perm.eq_of_pairwise (fun c d hc hd hle hge => ?_) (r.columnsOf_sorted keys j)
    (r'.columnsOf_sorted keys j) hperm
  -- two columns of a table have different places in it
  exact eq_of_place hsound (columnsOf_mem ho hj hc) (columnsOf_mem ho' hj' hd)
    (Nat.le_antisymm hle hge)

end

end Reads

/-! ## The compiled trees -/

/-- Calculations of one name and label, by matching expressions. -/
structure CalculationOutput.Agrees (a b : CalculationOutput) : Prop where
  name : a.name = b.name
  label : a.label = b.label
  expression : a.expression.Matches b.expression

/-- Elements that are the same up to the order of their calculations. -/
structure Element.Agrees (a b : Element) : Prop where
  id : a.id = b.id
  path : a.path = b.path
  relation : a.relation = b.relation
  table : a.table = b.table
  parent : a.parent = b.parent
  children : a.children = b.children
  label : a.label = b.label
  columns : a.columns = b.columns
  materialized : a.materialized = b.materialized
  calculations : Shuffled CalculationOutput.Agrees a.calculations b.calculations

/-- Trees whose elements agree one by one. -/
structure JoinTree.Agrees (a b : JoinTree) : Prop where
  elements : List.Forall₂ Element.Agrees a.elements b.elements
  grouped : a.grouped = b.grouped

namespace JoinTree

/-- The elements of one join agree. -/
theorem element_agrees {s : Schema} (hs : Schema.SoundTables s.tables) {r r' : Reads}
    (ho : r.Over s) (ho' : r'.Over s) (h : r.Like r') (lead : String) (keys : Bool) {j : Join}
    (hj : j ∈ r.order) : (r.element lead keys j).Agrees (r'.element lead keys j) := by
  have hid := Reads.idOf_eq_of_like ho ho' h
  refine ⟨hid _, rfl, rfl, rfl, ?_, Reads.children_eq_of_like ho ho' h _, ?_, ?_,
    Reads.materialized_eq h _, ?_⟩
  · simp only [Reads.element, hid]
  · simp only [Reads.element, hid]
  · simp only [Reads.element, hid, Reads.columnsOf_eq ho ho' h hs keys hj, Reads.isSelected_eq h,
      Reads.materialized_eq h]
  · obtain ⟨ds, hperm, hall⟩ := h.calculations
    refine ⟨_, (hperm.filter _).map _, ?_⟩
    have hpath : ∀ a b : Declared, a.Matches b →
        ((a.path == j.path) = true ↔ (b.path == j.path) = true) := by
      intro a b hab
      rw [hab.path]
    have hfilter : List.Forall₂ Declared.Matches (ds.filter (·.path == j.path))
        (r'.calculations.filter (·.path == j.path)) := List.rel_filter (fun a b => hpath a b) hall
    refine List.forall₂_map_left_iff.2 (List.forall₂_map_right_iff.2 (hfilter.imp ?_))
    intro a b hab
    exact ⟨hab.name, by rw [hid, hab.name], hab.expression⟩

theorem compile_grouped {projection : Projection} {lead : String} {q : Query} {t : JoinTree}
    (h : compile projection lead q = .ok t) : t.grouped = !q.groupBys.isEmpty := by
  obtain ⟨r, -, h⟩ := bind_eq_ok_iff.1 h
  cases h
  rfl

/-- **Arrangement does not count.** Of two queries that differ in arrangement only, one compiles if
the other does, and then their trees agree. -/
theorem compile_rearranged {d : SchemaDecl} {s : Schema} (hd : Schema.ofDeclaration d = .ok s)
    {q q' : Query} (hq : q.Over s) (hq' : q'.Over s) (h : q.Rearranges q')
    (projection : Projection) (lead : String) :
    ((∃ t, compile projection lead q = .ok t) ↔ ∃ t, compile projection lead q' = .ok t) ∧
      ∀ t t', compile projection lead q = .ok t → compile projection lead q' = .ok t' →
        t.Agrees t' := by
  have hs := Schema.ofDeclaration_sound hd
  refine ⟨?_, fun t t' ht ht' => ?_⟩
  · have hone : ∀ {a b : Query}, a.Over s → b.Over s → a.Rearranges b →
        (∃ t, compile projection lead b = .ok t) → ∃ t, compile projection lead a = .ok t := by
      rintro a b ha hb hab ⟨t, ht⟩
      obtain ⟨r, -, hr, -⟩ := compile_cases ht
      obtain ⟨table, hroot, -⟩ := Reads.ofQuery?_adds hr
      have hroot' := hab.symm.root_eq hs hb ha hroot
      have hsees := (Reads.exists_ofQuery?_iff hb hroot).1 ⟨r, hr⟩
      obtain ⟨r', hr'⟩ := (Reads.exists_ofQuery?_iff ha hroot').2 (hab.sees hs ha hb hsees)
      exact ⟨_, bind_eq_ok_iff.2 ⟨r', mapError_eq_ok_iff.2 hr', rfl⟩⟩
    exact ⟨hone hq' hq h.symm, hone hq hq' h⟩
  · obtain ⟨r, keys, hr, hkeys, -, hel⟩ := compile_cases ht
    obtain ⟨r', keys', hr', hkeys', -, hel'⟩ := compile_cases ht'
    have ho := Reads.ofQuery?_over hq hr
    have ho' := Reads.ofQuery?_over hq' hr'
    have hlike := Reads.like_of_rearranges hs hq hq' h hr hr'
    have horder := Reads.order_eq ho ho' hlike
    obtain rfl : keys = keys' := by rw [hkeys, hkeys', h.groupBys.isEmpty_eq, h.distinct]
    refine ⟨?_, by rw [compile_grouped ht, compile_grouped ht', h.groupBys.isEmpty_eq]⟩
    rw [hel, hel', horder, List.forall₂_map_left_iff, List.forall₂_map_right_iff]
    exact List.forall₂_same.2 fun j hj =>
      element_agrees hs ho ho' hlike lead keys (horder ▸ hj)

/-- Selecting everything twice, the second time in reverse, is a rearrangement. -/
theorem rearranges_selects (q : Query) :
    q.Rearranges { q with selects := q.selects ++ q.selects.reverse } := by
  have hsame : ∀ ns : List Node, Node.SameNodes ns ns :=
    fun ns => ⟨fun n hn => ⟨n, hn, .refl n⟩, fun n hn => ⟨n, hn, .refl n⟩⟩
  refine ⟨.refl _, ⟨fun n hn => ⟨n, List.mem_append_left _ hn, .refl n⟩, fun n hn => ?_⟩, hsame _,
    hsame _, hsame _, hsame _, ⟨_, .refl _, ?_⟩, rfl⟩
  · refine ⟨n, ?_, .refl n⟩
    rcases List.mem_append.1 hn with hn | hn
    · exact hn
    · exact List.mem_reverse.1 hn
  · exact List.forall₂_same.2 fun c _ => ⟨.refl _, rfl, .refl _⟩

/-- The query of the library once more, with everything selected twice. -/
theorem library_rearranged : ∃ s q t t', Schema.ofDeclaration Library.declaration = .ok s ∧
    Library.query s = .ok q ∧ compile .objects "" q = .ok t ∧
    compile .objects "" { q with selects := q.selects ++ q.selects.reverse } = .ok t' ∧
    t.Agrees t' := by
  obtain ⟨s, q, t, h⟩ := Library.exists_tree
  obtain ⟨hs, hquery, ht⟩ := Library.tree_cases h
  have hq := Library.query_over hquery
  have hq' : QueryOf.Over s { q with selects := q.selects ++ q.selects.reverse } := by
    intro n hn
    refine hq n ?_
    simp only [QueryOf.nodes, List.mem_cons, List.mem_append, List.mem_reverse, or_self] at hn ⊢
    exact hn
  obtain ⟨hiff, hagrees⟩ := compile_rearranged hs hq hq' (rearranges_selects q) .objects ""
  obtain ⟨t', ht'⟩ := hiff.1 ⟨t, ht⟩
  exact ⟨s, q, t, t', hs, hquery, ht, ht', hagrees t t' ht ht'⟩

end JoinTree

end RecordGraph
