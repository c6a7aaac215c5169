import RecordGraph.Proofs.Record.PlanOrder

/-!
# What the actions of a plan do

An action of a plan puts one record into the graph: the one whose row it changes, or the one whose
relation it settles. All other records stay, and what they are related to keeps its shape.

**Results.**
* `Record.Action.Step`: what an action does, by its kind.
* `Record.Action.run_step`: an action of a plan does so, however far the graph is saved.
* `Record.Action.Step.exists_at?`: what becomes of the record at any place.
* `Record.runPlan_induct`, `Record.runPlan_along`: along a plan, up to its end or to a failure.
-/
namespace RecordGraph

namespace NameMap

/-- A change of an entry leaves the names in order. -/
theorem Sorted.modify {α : Type} {m : NameMap α} (h : m.Sorted) (name : String) (f : α → α) :
    (m.modify name f).Sorted := List.pairwise_map.2 h

end NameMap

namespace Record

/-! ## Another record at a place -/

theorem Follows.trans {x y z : Record} (h : x.Follows y) (h' : y.Follows z) : x.Follows z where
  table := h'.table.trans h.table
  shape identifier := (h'.shape identifier).trans (h.shape identifier)
  modified identifier old slot ho hs hm := by
    obtain ⟨between, hb, -, hbm⟩ := h'.slot hs
    exact h.modified identifier old between ho hb (hbm hm)

/-- `z` has the related records of `y`, each relation being as it was or settled. -/
structure Reworked (y z : Record) : Prop where
  follows : y.Follows z
  sorted : y.slots.Sorted → z.slots.Sorted
  related : ∀ identifier, z.related identifier = y.related identifier

theorem Reworked.of_slots {y z : Record} (ht : z.table = y.table) (hs : z.slots = y.slots) :
    y.Reworked z where
  follows := (Follows.refl y).of_slots ht hs
  sorted h := hs ▸ h
  related _ := related_congr (by rw [hs])

theorem Reworked.settle (y : Record) (identifier : String) : y.Reworked (y.settle identifier) where
  follows := (Follows.refl y).modify (fun _ => rfl) fun _ hm => by cases hm
  sorted h := h.modify _ _
  related other := related_settle y identifier other

theorem Reworked.at?_cons {y z : Record} (h : y.Reworked z) (step : String × Nat) (p : Place) :
    z.at? (step :: p) = y.at? (step :: p) := by
  obtain ⟨identifier, i⟩ := step
  rw [at?, at?, child?, child?, h.related]

/-- A relation counts as replaced, if it is loaded. -/
def modified? (r : Record) (identifier : String) : Option Bool :=
  (r.slots.find? identifier).map (·.modified)

theorem modified?_settle (r : Record) {identifier other : String} (h : other ≠ identifier) :
    (r.settle identifier).modified? other = r.modified? other := by
  rw [modified?, settle, NameMap.find?_modify_of_ne _ _ h]
  rfl

/-- What a change below a record leaves of it. -/
theorem putAt_below (y : Record) {q : Place} (hq : q ≠ []) (z : Record) :
    y.SameRow (y.putAt q z) ∧ y.Follows (y.putAt q z) ∧
      (y.slots.Sorted → (y.putAt q z).slots.Sorted) ∧
        ∀ identifier, (y.putAt q z).modified? identifier = y.modified? identifier := by
  obtain ⟨⟨identifier, i⟩, q, rfl⟩ := List.exists_cons_of_ne_nil hq
  cases hc : y.child? identifier i with
  | none =>
    have hy : y.putAt ((identifier, i) :: q) z = y := by
      rw [putAt]
      simp only [hc]
    rw [hy]
    exact ⟨.refl y, .refl y, id, fun _ => rfl⟩
  | some c =>
    rw [putAt_cons hc]
    refine ⟨sameRow_setRelated .., (Follows.refl y).modify (fun _ => Related.shape_set ..)
      fun _ hm => hm, fun h => h.modify _ _, fun other => ?_⟩
    rw [modified?, setRelated, NameMap.find?_modify]
    split
    · rw [Option.map_map]
      rfl
    · rfl

/-- Places that do not lie one below the other. -/
theorem at?_putAt_of_apart {p q : Place} {g : Record} (z : Record) (hpq : ¬p <+: q)
    (hqp : ¬q <+: p) : (g.putAt q z).at? p = g.at? p := by
  induction q generalizing g p with
  | nil => exact absurd List.nil_prefix hqp
  | cons step q ih =>
    obtain ⟨identifier, i⟩ := step
    cases p with
    | nil => exact absurd List.nil_prefix hpq
    | cons other p =>
      obtain ⟨name, k⟩ := other
      cases hc : g.child? identifier i with
      | none =>
        rw [putAt]
        simp only [hc]
      | some c =>
        rw [putAt_cons hc, at?, at?]
        by_cases hstep : (name, k) = (identifier, i)
        · cases hstep
          rw [child?_setRelated_self hc, hc]
          exact ih (fun h => hpq ((List.prefix_cons_inj _).2 h))
            fun h => hqp ((List.prefix_cons_inj _).2 h)
        · rw [child?_setRelated_of_ne _ hstep]

/-- The record at a place `p` when another one is put at the place `q`: it is that one, it stays, or
it stands above that one. -/
theorem at?_putAt_split {g old z : Record} {p q : Place} (hq : g.at? q = some old)
    (hz : old.Reworked z) {y : Record} (hy : g.at? p = some y) :
    p = q ∧ y = old ∧ (g.putAt q z).at? p = some z ∨ p ≠ q ∧ ((g.putAt q z).at? p = some y ∨
      ∃ rest, rest ≠ [] ∧ (g.putAt q z).at? p = some (y.putAt rest z)) := by
  by_cases hqp : q <+: p
  · obtain ⟨rest, rfl⟩ := hqp
    cases rest with
    | nil =>
      rw [List.append_nil] at hy ⊢
      exact .inl ⟨rfl, Option.some.inj (hy.symm.trans hq), at?_putAt_self hq z⟩
    | cons step rest =>
      refine .inr ⟨fun h => absurd (congrArg List.length h) (by simp), .inl ?_⟩
      rw [at?_putAt_append hq, hz.at?_cons]
      rwa [at?_append, hq] at hy
  · have hne : p ≠ q := fun h => hqp (h ▸ List.prefix_rfl)
    by_cases hpq : p <+: q
    · obtain ⟨rest, rfl⟩ := hpq
      refine .inr ⟨hne, .inr ⟨rest, fun h => hne (by rw [h, List.append_nil]), ?_⟩⟩
      rw [putAt_append hy]
      exact at?_putAt_self hy _
    · exact .inr ⟨hne, .inl ((at?_putAt_of_apart z hpq hqp).trans hy)⟩

/-- What becomes of the record at a place `p` when another one is put at the place `q`. -/
theorem exists_at?_putAt {g old z : Record} {p q : Place} (hq : g.at? q = some old)
    (hz : old.Reworked z) {y : Record} (hy : g.at? p = some y) :
    ∃ y', (g.putAt q z).at? p = some y' ∧ y.Follows y' ∧ (y.slots.Sorted → y'.slots.Sorted) ∧
      (p = q → y = old ∧ y' = z) ∧ (p ≠ q → y.SameRow y') := by
  rcases at?_putAt_split hq hz hy with ⟨hpq, rfl, h⟩ | ⟨hne, h | ⟨rest, hrest, h⟩⟩
  · exact ⟨z, h, hz.follows, hz.sorted, fun _ => ⟨rfl, rfl⟩, fun hne => absurd hpq hne⟩
  · exact ⟨y, h, .refl y, id, fun hpq => absurd hpq hne, fun _ => .refl y⟩
  · obtain ⟨hrow, hf, hs, -⟩ := putAt_below y hrest z
    exact ⟨_, h, hf, hs, fun hpq => absurd hpq hne, fun _ => hrow⟩

/-- A relation that counts as replaced does so as long as its own record stays. -/
theorem modified_putAt {g old z : Record} {p q : Place} (hq : g.at? q = some old)
    (hz : old.Reworked z) {y y' : Record} (hy : g.at? p = some y)
    (hy' : (g.putAt q z).at? p = some y') (hne : p ≠ q) (identifier : String) :
    y'.modified? identifier = y.modified? identifier := by
  rcases at?_putAt_split hq hz hy with ⟨hpq, -⟩ | ⟨-, h | ⟨rest, hrest, h⟩⟩
  · exact absurd hpq hne
  · rw [Option.some.inj (hy'.symm.trans h)]
  · rw [Option.some.inj (hy'.symm.trans h)]
    exact (putAt_below y hrest z).2.2.2 identifier

/-! ## One action -/

variable {σ : Type}

/-- The links of a row are written anew. -/
def relinkAll (db : Connection σ) (relation : ManyMany) (key : Value) (targets : List Record) :
    Session σ Unit := do
  db.run (.unlinkAll relation key)
  targets.forM fun target => db.run (.link relation key target.key)

theorem onSecond_forM {τ α : Type} (f : α → Session σ Unit) (t : τ) :
    ∀ (as : List α) (s : σ), (as.forM fun a => (f a).onSecond) (t, s) =
      ((as.forM f s).1, (t, (as.forM f s).2))
  | [], _ => rfl
  | a :: as, s => by
    rw [List.forM, List.forM, Session.bind_run, Session.bind_run, Session.onSecond_run]
    rcases f a s with ⟨e | ⟨⟩, s'⟩
    · rfl
    · exact onSecond_forM f t as s'

/-- What is done to the record once its links are written. -/
def relinked (y : Record) (identifier : String) : Except Error Unit → Record
  | .ok () => y.settle identifier
  | .error _ => y

theorem link_act (db : Connection σ) (p : Place) (a : ManyMany) (y : Record) (s : σ) :
    (Action.link p a).act db (y, s) =
      let x := relinkAll db a y.key (y.related a.identifier) s
      (x.1, (y.relinked a.identifier x.1, x.2)) := by
  rw [Action.act, Saving.record_bind, relinkAll]
  simp only [Session.bind_run, Session.onSecond_run]
  rcases db.run (.unlinkAll a y.key) s with ⟨e | ⟨⟩, s₁⟩
  · rfl
  · simp only [onSecond_forM]
    rcases (y.related a.identifier).forM (fun target => db.run (.link a y.key target.key)) s₁ with
      ⟨e | ⟨⟩, s₂⟩ <;> rfl

namespace Action

/-- An action in a graph: its outcome, and which record `z` comes in the place of which record. -/
inductive Step (db : Place → Connection σ) :
    Action → Record × σ → Except Error Unit → Place → Record → Record → σ → Prop where
  | refer {g y u : Record} {s : σ} {p : Place} {a : Reference} {modified : Bool} :
      g.at? p = some y → g.at? (p ++ [(a.identifier, 0)]) = some u →
        Step db (.refer p a modified) (g, s) (.ok ()) p y (y.relink a.column u.key modified) s
  | forget {g y : Record} {s : σ} {p : Place} {a : Reference} : g.at? p = some y →
      Step db (.forget p a) (g, s) (.ok ()) p y (y.relink a.column .null true) s
  | follow {g y c : Record} {s : σ} {p : Place} {a : Reverse} {i : Nat} {modified : Bool} :
      g.at? p = some y → g.at? (p ++ [(a.identifier, i)]) = some c →
        Step db (.follow p a i modified) (g, s) (.ok ()) (p ++ [(a.identifier, i)]) c
          (c.relink a.column y.key modified) s
  | write {g y : Record} {s : σ} {p : Place} : g.at? p = some y →
      Step db (.write p) (g, s) (Record.write (db p) (y, s)).1 p y
        (Record.write (db p) (y, s)).2.1 (Record.write (db p) (y, s)).2.2
  | link {g y : Record} {s : σ} {p : Place} {a : ManyMany} : g.at? p = some y →
      Step db (.link p a) (g, s) (relinkAll (db p) a y.key (y.related a.identifier) s).1 p y
        (y.relinked a.identifier (relinkAll (db p) a y.key (y.related a.identifier) s).1)
        (relinkAll (db p) a y.key (y.related a.identifier) s).2
  | settle {g y : Record} {s : σ} {p : Place} {identifier : String} : g.at? p = some y →
      Step db (.settle p identifier) (g, s) (.ok ()) p y (y.settle identifier) s

variable {db : Place → Connection σ} {a : Action} {g y z : Record} {s s' : σ}
  {o : Except Error Unit} {q : Place}

/-- An action does to the graph what it does to the record at its place. -/
theorem run_eq (hy : g.at? a.place = some y) : a.run db (g, s) =
    ((a.act (db a.place) (y, s)).1,
      (g.putAt a.place (a.act (db a.place) (y, s)).2.1, (a.act (db a.place) (y, s)).2.2)) := by
  rw [run, Session.bind_run, Saving.below_run hy]
  rcases a.act (db a.place) (y, s) with ⟨e | ⟨⟩, y', s'⟩ <;> rfl

variable (db) in
/-- What is to be done for a record is done, however far it is saved. -/
theorem run_step {p : Place} {x : Record} (hown : Own p x a) (hx : x.Follows y)
    (hy : g.at? p = some y) (s : σ) : ∃ o q old z s', Step db a (g, s) o q old z s' ∧
      a.run db (g, s) = (o, (g.putAt q z, s')) := by
  cases hown with
  | @refer b slot u hb hslot hu =>
    have hshape := hx.shape b.identifier
    rw [hslot] at hshape
    obtain ⟨slot', hs, hshape⟩ := Option.map_eq_some_iff.1 hshape
    obtain ⟨v, hv⟩ := Related.shape_eq_one (hshape.trans (congrArg Related.shape hu))
    have hone : y.one? b.identifier = some v := by
      simp only [one?, relation?, hs, Option.map_some, hv]
    have hat : g.at? (p ++ [(b.identifier, 0)]) = some v :=
      (at?_concat hy ..).trans (child?_of_one hs hv)
    refine ⟨_, _, _, _, _, .refer hy hat, ?_⟩
    rw [run_eq (a := .refer p b slot.modified) hy]
    simp only [act, Saving.change, hone, place]
  | forget =>
    exact ⟨_, _, _, _, _, .forget hy, run_eq (a := .forget p _) hy⟩
  | @follow b slot i c hb hslot hc =>
    have hsome := hx.isSome_child? b.identifier i
    rw [hc] at hsome
    obtain ⟨v, hv⟩ := Option.isSome_iff_exists.1 hsome
    have hat : g.at? (p ++ [(b.identifier, i)]) = some v := (at?_concat hy ..).trans hv
    refine ⟨_, _, _, _, _, .follow hy hat, ?_⟩
    rw [run_eq (a := .follow p b i slot.modified) hy, act, Saving.record_bind,
      Saving.onRelated_run hv, putAt_append hy, putAt_cons hv]
    rfl
  | write =>
    exact ⟨_, _, _, _, _, .write hy, run_eq (a := .write p) hy⟩
  | @link b slot hb hslot hm =>
    refine ⟨_, _, _, _, _, .link hy, ?_⟩
    rw [run_eq (a := .link p b) hy, place, link_act]
  | settle hslot hkind =>
    exact ⟨_, _, _, _, _, .settle hy, run_eq (a := .settle p _) hy⟩

namespace Step

variable (h : Step db a (g, s) o q y z s')
include h

theorem at? : g.at? q = some y := by
  cases h with
  | refer hy _ => exact hy
  | forget hy => exact hy
  | follow _ hc => exact hc
  | write hy => exact hy
  | link hy => exact hy
  | settle hy => exact hy

theorem reworked : y.Reworked z := by
  cases h with
  | refer _ _ => exact .of_slots (relink_table ..) (relink_slots ..)
  | forget _ => exact .of_slots (relink_table ..) (relink_slots ..)
  | follow _ _ => exact .of_slots (relink_table ..) (relink_slots ..)
  | write _ =>
    obtain ⟨ht, hs, -⟩ := write_frames (db q) (y, s)
    exact .of_slots ht hs
  | link _ =>
    unfold relinked
    split
    · exact .settle ..
    · exact .of_slots rfl rfl
  | settle _ => exact .settle ..

/-- Rows are changed at the target only. -/
theorem sameRow (ht : a.target ≠ some q) : y.SameRow z := by
  cases h with
  | refer _ _ => exact absurd rfl ht
  | forget _ => exact absurd rfl ht
  | follow _ _ => exact absurd rfl ht
  | write _ => exact absurd rfl ht
  | link _ =>
    unfold relinked
    split
    · exact sameRow_settle ..
    · exact .refl _
  | settle _ => exact sameRow_settle ..

/-- Only a write makes a record saved. -/
theorem isNew_eq (hw : a ≠ .write q) : z.isNew = y.isNew := by
  cases h with
  | refer _ _ => exact relink_isNew ..
  | forget _ => exact relink_isNew ..
  | follow _ _ => exact relink_isNew ..
  | write _ => exact absurd rfl hw
  | link _ =>
    unfold relinked
    split <;> rfl
  | settle _ => rfl

theorem eq_of_target {p : Place} (ht : a.target = some p) : p = q := by
  cases h <;> first | exact (Option.some.inj ht).symm | cases ht

/-- What becomes of the record at a place. -/
theorem exists_at? {p : Place} {x : Record} (hx : g.at? p = some x) :
    ∃ x', (g.putAt q z).at? p = some x' ∧ x.Follows x' ∧ (x.slots.Sorted → x'.slots.Sorted) ∧
      (p = q → x = y ∧ x' = z) ∧ (a.target ≠ some p → x.SameRow x') := by
  obtain ⟨x', hx', hf, hs, heq, hrow⟩ := exists_at?_putAt h.at? h.reworked hx
  refine ⟨x', hx', hf, hs, heq, fun ht => ?_⟩
  by_cases hpq : p = q
  · obtain ⟨rfl, rfl⟩ := heq hpq
    exact h.sameRow (hpq ▸ ht)
  · exact hrow hpq

/-- Whether a relation counts as replaced is changed by what settles it. -/
theorem modified_stays {p : Place} {x x' : Record} (hx : g.at? p = some x)
    (hx' : (g.putAt q z).at? p = some x') {identifier : String} (hs : a ≠ .settle p identifier)
    (hl : ∀ relation, a = .link p relation → relation.identifier = identifier → o ≠ .ok ()) :
    x'.modified? identifier = x.modified? identifier := by
  by_cases hpq : p = q
  · subst hpq
    obtain rfl : z = x' := Option.some.inj ((at?_putAt_self h.at? z).symm.trans hx')
    obtain rfl : x = y := Option.some.inj (hx.symm.trans h.at?)
    have hslots : ∀ {w : Record}, w.slots = x.slots → w.modified? identifier =
        x.modified? identifier := fun hw => by rw [modified?, hw, modified?]
    cases h with
    | refer _ _ => exact hslots (relink_slots ..)
    | forget _ => exact hslots (relink_slots ..)
    | follow _ _ => exact hslots (relink_slots ..)
    | write _ => exact hslots (write_frames _ (x, s)).2.1
    | @link _ _ _ _ relation =>
      have hne := hl relation rfl
      unfold relinked
      split
      · rename_i ho
        exact modified?_settle x fun hi => hne hi.symm ho
      · rfl
    | settle _ => exact modified?_settle x fun hi => hs (by rw [hi])
  · exact modified_putAt h.at? h.reworked hx hx' hpq identifier

/-- Only its write makes the record at a place saved. -/
theorem isNew_stays {p : Place} {x x' : Record} (hx : g.at? p = some x)
    (hx' : (g.putAt q z).at? p = some x') (hw : a ≠ .write p) : x'.isNew = x.isNew := by
  obtain ⟨x₁, hx₁, -, -, heq, hrow⟩ := h.exists_at? hx
  obtain rfl : x₁ = x' := Option.some.inj (hx₁.symm.trans hx')
  by_cases ht : a.target = some p
  · obtain rfl := h.eq_of_target ht
    obtain ⟨rfl, rfl⟩ := heq rfl
    exact h.isNew_eq hw
  · exact (hrow ht).isNew

end Step

end Action

/-! ## Many actions -/

variable {db : Place → Connection σ}

/-- Every record of `g₀` stands in `g`, in the course of being saved; where its write is not among
the actions that were done, it is as new as before. -/
def Underway (g₀ : Record) (done : List Action) (g : Record) : Prop :=
  ∀ p x, g₀.at? p = some x → ∃ y, g.at? p = some y ∧ x.Follows y ∧
    (x.slots.Sorted → y.slots.Sorted) ∧ (.write p ∉ done → y.isNew = x.isNew)

theorem Underway.start (g : Record) : g.Underway [] g :=
  fun _ x hx => ⟨x, hx, .refl x, id, fun _ => rfl⟩

theorem Underway.follows {g₀ g : Record} {done : List Action} (h : g₀.Underway done g) {p : Place}
    {x y : Record} (hx : g₀.at? p = some x) (hy : g.at? p = some y) : x.Follows y := by
  obtain ⟨y', hy', hf, -⟩ := h p x hx
  obtain rfl : y = y' := Option.some.inj (hy.symm.trans hy')
  exact hf

/-- There are no other records. -/
theorem Underway.exists_at? {g₀ g : Record} {done : List Action} (h : g₀.Underway done g)
    {p : Place} {y : Record} (hy : g.at? p = some y) : ∃ x, g₀.at? p = some x := by
  have hfollows : ∀ p x, g₀.at? p = some x → ∃ y, g.at? p = some y ∧ x.Follows y := by
    intro p x hx
    obtain ⟨y, hy, hf, -⟩ := h p x hx
    exact ⟨y, hy, hf⟩
  obtain ⟨x, hx, -⟩ := exists_follows_of_at? hfollows hy
  exact ⟨x, hx⟩

variable (db) in
/-- An action of the plan is done, and the records are in the course of being saved behind it. -/
theorem Underway.run {g₀ g : Record} {done : List Action} (h : g₀.Underway done g) {a : Action}
    (ha : a ∈ g₀.plan) (s : σ) : ∃ o q y z s', Action.Step db a (g, s) o q y z s' ∧
      a.run db (g, s) = (o, (g.putAt q z, s')) ∧ g₀.Underway (done ++ [a]) (g.putAt q z) := by
  obtain ⟨p, x, hx, hown⟩ := mem_plan ha
  obtain ⟨y, hy, hf, -⟩ := h p x hx
  obtain ⟨o, q, old, z, s', hstep, hrun⟩ := Action.run_step db hown hf hy s
  refine ⟨o, q, old, z, s', hstep, hrun, fun p x hx => ?_⟩
  obtain ⟨y, hy, hf, hsort, hnew⟩ := h p x hx
  obtain ⟨y', hy', hf', hsort', -⟩ := hstep.exists_at? hy
  refine ⟨y', hy', hf.trans hf', fun hs => hsort' (hsort hs), fun hdone => ?_⟩
  simp only [List.mem_append, List.mem_singleton, not_or] at hdone
  rw [← hnew hdone.1]
  exact hstep.isNew_stays hy hy' (Ne.symm hdone.2)

/-- What each action of a plan goes on with holds behind it. The actions that were done already are
at hand. -/
theorem runPlan_induct {P : List Action → Record × σ → Prop} {plan : List Action}
    (hstep : ∀ done a rest, plan = done ++ a :: rest → ∀ rs rs', P done rs →
      a.run db rs = (.ok (), rs') → P (done ++ [a]) rs') {rs rs' : Record × σ} (hrs : P [] rs)
    (hrun : runPlan db plan rs = (.ok (), rs')) : P plan rs' := by
  have hall : ∀ (rest done : List Action), plan = done ++ rest → ∀ rs, P done rs →
      runPlan db rest rs = (.ok (), rs') → P plan rs' := by
    intro rest
    induction rest with
    | nil =>
      rintro done hplan rs hrs hrun
      cases hrun
      rwa [hplan, List.append_nil]
    | cons a rest ih =>
      intro done hplan rs hrs hrun
      rw [runPlan, List.forM] at hrun
      obtain ⟨⟨⟩, rs₁, ha, hrest⟩ := Session.bind_eq_ok_iff.1 hrun
      exact ih (done ++ [a]) (by rw [hplan, List.append_assoc]; rfl) rs₁
        (hstep done a rest hplan rs rs₁ hrs ha) hrest
  exact hall plan [] rfl rs hrs hrun

/-- A plan that fails does so at one of its actions. -/
theorem runPlan_error {plan : List Action} {rs rs' : Record × σ} {e : Error}
    (hrun : runPlan db plan rs = (.error e, rs')) : ∃ done a rest rs₁,
      plan = done ++ a :: rest ∧ runPlan db done rs = (.ok (), rs₁) ∧
        a.run db rs₁ = (.error e, rs') := by
  induction plan generalizing rs with
  | nil => cases hrun
  | cons a plan ih =>
    rw [runPlan, List.forM, Session.bind_run] at hrun
    rcases ha : a.run db rs with ⟨e' | ⟨⟩, rs₁⟩
    · rw [ha] at hrun
      cases hrun
      exact ⟨[], a, plan, rs, rfl, rfl, ha⟩
    · rw [ha] at hrun
      obtain ⟨done, b, rest, rs₂, rfl, hdone, hb⟩ := ih hrun
      refine ⟨a :: done, b, rest, rs₂, rfl, ?_, hb⟩
      rw [runPlan, List.forM, Session.bind_run, ha]
      exact hdone

/-- What of a plan is done behind an action with this outcome. -/
def Action.doneBehind (done : List Action) (a : Action) : Except Error Unit → List Action
  | .ok () => done ++ [a]
  | .error _ => done

theorem Action.mem_doneBehind {done : List Action} {a b : Action} {o : Except Error Unit} :
    b ∈ a.doneBehind done o ↔ b ∈ done ∨ o = .ok () ∧ b = a := by
  cases o <;> simp [doneBehind]

/-- What each action of a plan leaves, whether it succeeds or fails, is left by the plan. -/
theorem runPlan_along {P : List Action → Record × σ → Prop} {plan : List Action}
    (hstep : ∀ done a rest, plan = done ++ a :: rest → ∀ rs o rs', P done rs →
      a.run db rs = (o, rs') → P (a.doneBehind done o) rs') {rs rs' : Record × σ} (hrs : P [] rs)
    {o : Except Error Unit} (hrun : runPlan db plan rs = (o, rs')) :
    ∃ done rest, plan = done ++ rest ∧ P done rs' ∧ (o = .ok () → done = plan) := by
  have hok : ∀ {done rest rs'}, plan = done ++ rest → runPlan db done rs = (.ok (), rs') →
      P done rs' := by
    intro done rest rs' hplan hrun
    refine runPlan_induct (fun before a after hdone rs rs' h ha => ?_) hrs hrun
    refine hstep before a (after ++ rest) ?_ rs (.ok ()) rs' h ha
    rw [hplan, hdone, List.append_assoc, List.cons_append]
  cases o with
  | ok =>
    have hall : plan = plan ++ [] := (List.append_nil _).symm
    exact ⟨plan, [], hall, hok hall hrun, fun _ => rfl⟩
  | error e =>
    obtain ⟨done, a, rest, rs₁, hplan, hdone, ha⟩ := runPlan_error hrun
    exact ⟨done, a :: rest, hplan, hstep done a rest hplan rs₁ _ rs' (hok hplan hdone) ha,
      fun h => by cases h⟩

end Record

end RecordGraph
