import RecordGraph.Proofs.Record.Written

/-!
# What a plan achieves

An action of a plan achieves something: a foreign key is that of the related record, a record is
saved, a relation counts as saved. No later action takes that back, if different relations set
different foreign keys.

**Results.**
* `Record.Action.Achieved`: what an action brings about.
* `Record.Settling.brings`, `Record.Settling.stays`: an action that succeeds brings it about, and
  later ones leave it.
* `Record.runPlan_settling`: so what was done of a plan has achieved all that it is for.
-/
namespace RecordGraph

namespace Record

variable {σ : Type}

/-- No foreign key that a relation sets is a key or counts versions. -/
structure LinkedPlain (r : Record) : Prop where
  own : ∀ p x, r.at? p = some x → ∀ column ∈ x.linkedColumns, x.Plain column
  held : ∀ p x, r.at? p = some x → ∀ a ∈ x.table.reverses, ∀ i c,
    x.child? a.identifier i = some c → c.Plain a.column

theorem LinkedPlain.column {g x : Record} (h : g.LinkedPlain) {a : Action} (ha : a ∈ g.plan)
    {q : Place} (hq : a.target = some q) {column : String} (hc : a.column? = some column)
    (hx : g.at? q = some x) : x.Plain column := by
  obtain ⟨p, r, hr, hown⟩ := mem_plan ha
  cases hown with
  | @refer b slot u hb hslot hu =>
    cases hq
    cases hc
    obtain rfl : r = x := Option.some.inj (hr.symm.trans hx)
    obtain ⟨related, modified⟩ := slot
    obtain rfl : related = _ := hu
    exact h.own _ r hr b.column (List.mem_filterMap.2 ⟨b, hb, by simp [linkedColumn?, hslot]⟩)
  | @forget b slot hb hslot hu hm =>
    cases hq
    cases hc
    obtain rfl : r = x := Option.some.inj (hr.symm.trans hx)
    obtain ⟨related, modified⟩ := slot
    obtain rfl : related = _ := hu
    obtain rfl : modified = _ := hm
    exact h.own _ r hr b.column (List.mem_filterMap.2 ⟨b, hb, by simp [linkedColumn?, hslot]⟩)
  | @follow b slot i c hb hslot hchild =>
    cases hq
    cases hc
    rw [at?_concat hr, hchild] at hx
    cases hx
    exact h.held _ r hr b hb i _ hchild
  | write => cases hc
  | link => cases hq
  | settle => cases hq

/-! ## What an action achieves -/

/-- What an action has brought about in a graph `g` that was `g₀` in the beginning: the foreign key
of a relation that was replaced, of a new record, or one that is loaded, is the key of the related
record; a record is saved; a relation counts as saved. -/
def Action.Achieved (g₀ g : Record) : Action → Prop
  | .refer p a modified => ∀ x v y u, g₀.at? p = some x →
      g₀.at? (p ++ [(a.identifier, 0)]) = some v → g.at? p = some y →
        g.at? (p ++ [(a.identifier, 0)]) = some u →
          modified = true ∨ x.isNew = true ∨ y.values.contains a.column = true →
            y.holds a.column u.key = true
  | .follow p a i modified => ∀ x v y u, g₀.at? p = some x →
      g₀.at? (p ++ [(a.identifier, i)]) = some v → g.at? p = some y →
        g.at? (p ++ [(a.identifier, i)]) = some u →
          modified = true ∨ v.isNew = true ∨ u.values.contains a.column = true →
            u.holds a.column y.key = true
  | .forget _ _ => True
  | .write p => ∀ x y, g₀.at? p = some x → g.at? p = some y → y.isNew = false ∧ y.dirty = .empty
  | .link p a => ∀ x y slot, g₀.at? p = some x → g.at? p = some y →
      y.slots.find? a.identifier = some slot → slot.modified = false
  | .settle p identifier => ∀ x y slot, g₀.at? p = some x → g.at? p = some y →
      y.slots.find? identifier = some slot → slot.modified = false

/-- A foreign key that is set, or that is there in any case, holds what it is pointed at. -/
theorem holds_relink {y : Record} {column : String} {key : Value} {modified : Bool}
    (hkey : key.same key = true) (h : modified = true ∨ y.isNew = true ∨
      (y.relink column key modified).values.contains column = true) :
    (y.relink column key modified).holds column key = true := by
  by_cases hset : (modified || y.isNew || y.values.contains column) = true
  · rw [relink, if_pos hset]
    exact holds_assign y column hkey
  · rw [relink, if_neg hset] at h
    simp only [Bool.or_eq_true, or_assoc] at hset
    exact absurd h hset

/-- Along a plan: all records are in the course of being saved, each key is the same as itself, what
is loaded stays so, and what was done stays done. -/
structure Settling (g₀ : Record) (done : List Action) (g : Record) : Prop where
  underway : g₀.Underway done g
  proper : ∀ p x y, g₀.at? p = some x → g.at? p = some y → y.key.same y.key = true
  loaded : ∀ p x y column, g₀.at? p = some x → g.at? p = some y → x.Plain column →
    x.values.contains column = true → y.values.contains column = true
  achieved : ∀ a ∈ done, a.Achieved g₀ g

section
variable {db : Place → Connection σ} {g₀ g y z : Record} {done : List Action} {a b : Action}
  {s s' : σ} {o : Except Error Unit} {q : Place}

theorem slot_settle {y : Record} {identifier : String} {slot : Slot Record}
    (h : (y.settle identifier).slots.find? identifier = some slot) : slot.modified = false := by
  rw [settle, NameMap.find?_modify_self] at h
  obtain ⟨old, -, rfl⟩ := Option.map_eq_some_iff.1 h
  rfl

/-- What becomes of a record that was there in the beginning. -/
theorem Underway.step (h : g₀.Underway done g) (hstep : Action.Step db a (g, s) o q y z s')
    {p : Place} {x x' : Record} (hx : g₀.at? p = some x) (hx' : (g.putAt q z).at? p = some x') :
    ∃ x₁, g.at? p = some x₁ ∧ x.Follows x₁ ∧ x₁.Follows x' ∧ (p = q → x₁ = y ∧ x' = z) ∧
      (a.target ≠ some p → x₁.SameRow x') := by
  obtain ⟨x₁, hx₁, hf, -⟩ := h p x hx
  obtain ⟨x₂, hx₂, hf', -, heq, hrow⟩ := hstep.exists_at? hx₁
  obtain rfl : x₂ = x' := Option.some.inj (hx₂.symm.trans hx')
  exact ⟨x₁, hx₁, hf, hf', heq, hrow⟩

theorem SameRow.key_eq {x x' : Record} (h : x.SameRow x') : x'.key = x.key :=
  key_congr h.table (by rw [h.values])

/-- What an action that succeeds achieves. -/
theorem Settling.brings (h : g₀.Settling done g) (ha : a ∈ g₀.plan)
    (hstep : Action.Step db a (g, s) (.ok ()) q y z s')
    (hw : ∀ p, a.target = some p → .write p ∉ done) : a.Achieved g₀ (g.putAt q z) := by
  cases a with
  | refer p a modified =>
    intro x v y' u' hx hv hy' hu' hcond
    obtain ⟨y₁, hy₁, -, -, heq, -⟩ := h.underway.step hstep hx hy'
    obtain ⟨u₁, hu₁, -, -, -, hrow⟩ := h.underway.step hstep hv hu'
    have hsame := hrow (by simp [Action.target])
    have hnew : y₁.isNew = x.isNew := by
      obtain ⟨y₂, hy₂, -, -, hnew⟩ := h.underway p x hx
      obtain rfl : y₁ = y₂ := Option.some.inj (hy₁.symm.trans hy₂)
      exact hnew (hw p rfl)
    have hproper := h.proper _ v u₁ hv hu₁
    cases hstep with
    | refer hy hu =>
      obtain ⟨rfl, rfl⟩ := heq rfl
      obtain rfl := Option.some.inj (hu₁.symm.trans hu)
      rw [hsame.key_eq]
      rw [← hnew] at hcond
      exact holds_relink hproper hcond
  | follow p a i modified =>
    intro x v y' u' hx hv hy' hu' hcond
    obtain ⟨y₁, hy₁, -, -, -, hrow⟩ := h.underway.step hstep hx hy'
    obtain ⟨u₁, hu₁, -, -, heq, -⟩ := h.underway.step hstep hv hu'
    have hsame := hrow (by simp [Action.target])
    have hnew : u₁.isNew = v.isNew := by
      obtain ⟨u₂, hu₂, -, -, hnew⟩ := h.underway _ v hv
      obtain rfl : u₁ = u₂ := Option.some.inj (hu₁.symm.trans hu₂)
      exact hnew (hw _ rfl)
    have hproper := h.proper p x y₁ hx hy₁
    cases hstep with
    | follow hy hu =>
      obtain ⟨rfl, rfl⟩ := heq rfl
      obtain rfl := Option.some.inj (hy₁.symm.trans hy)
      rw [hsame.key_eq]
      rw [← hnew] at hcond
      exact holds_relink hproper hcond
  | forget p a => exact trivial
  | write p =>
    intro x y' hx hy'
    obtain ⟨y₁, -, -, -, heq, -⟩ := h.underway.step hstep hx hy'
    have hpq := hstep.eq_of_target rfl
    obtain ⟨rfl, rfl⟩ := heq hpq
    generalize ho : (Except.ok () : Except Error Unit) = o at hstep
    cases hstep with
    | write hy => exact (write_written _ _ _).saved ho.symm
  | link p a =>
    intro x y' slot hx hy' hslot
    generalize ho : (Except.ok () : Except Error Unit) = o at hstep
    obtain ⟨y₁, -, -, -, heq, -⟩ := h.underway.step hstep hx hy'
    cases hstep with
    | link hy =>
      obtain ⟨rfl, rfl⟩ := heq rfl
      rw [← ho] at hslot
      exact slot_settle hslot
  | settle p identifier =>
    intro x y' slot hx hy' hslot
    obtain ⟨y₁, -, -, -, heq, -⟩ := h.underway.step hstep hx hy'
    cases hstep with
    | settle hy =>
      obtain ⟨rfl, rfl⟩ := heq rfl
      exact slot_settle hslot

/-- A foreign key that was set is not set again. -/
theorem Underway.column_stays (h : g₀.Underway done g) (hplain : g₀.LinkedPlain) (hb : b ∈ g₀.plan)
    (hleaves : b.Leaves True a) (hstep : Action.Step db a (g, s) o q y z s') {p : Place}
    {column : String} (hp : b.target = some p) (hc : b.column? = some column) {x x₁ x' : Record}
    (hx : g₀.at? p = some x) (hx₁ : g.at? p = some x₁) (hx' : (g.putAt q z).at? p = some x') :
    x'.values.find? column = x₁.values.find? column := by
  obtain ⟨x₂, hx₂, hf, -, heq, hrow⟩ := h.step hstep hx hx'
  obtain rfl : x₁ = x₂ := Option.some.inj (hx₁.symm.trans hx₂)
  by_cases ht : a.target = some p
  · have hpq := hstep.eq_of_target ht
    obtain ⟨rfl, rfl⟩ := heq hpq
    refine hstep.find?_eq (fun hac => hleaves.2 trivial ⟨p, column, ht, hp, hac, hc⟩) fun _ => ?_
    exact (hplain.column hb hp hc hx).congr hf.table
  · rw [(hrow ht).values]

/-- A row that an action relies on stays as it is. -/
theorem Underway.row_stays (h : g₀.Underway done g) (hleaves : b.Leaves True a)
    (hstep : Action.Step db a (g, s) o q y z s') {p : Place} (hp : b.Relies p) {x x₁ x' : Record}
    (hx : g₀.at? p = some x) (hx₁ : g.at? p = some x₁) (hx' : (g.putAt q z).at? p = some x') :
    x₁.SameRow x' := by
  obtain ⟨x₂, hx₂, -, -, -, hrow⟩ := h.step hstep hx hx'
  obtain rfl : x₁ = x₂ := Option.some.inj (hx₁.symm.trans hx₂)
  exact hrow fun ht => hleaves.1 ⟨p, ht, hp⟩

/-- A relation that counts as saved does so from then on. -/
theorem Underway.slot_stays (h : g₀.Underway done g) (hstep : Action.Step db a (g, s) o q y z s')
    {p : Place} {identifier : String} {x x' : Record} (hx : g₀.at? p = some x)
    (hx' : (g.putAt q z).at? p = some x')
    (hold : ∀ x₁ slot, g.at? p = some x₁ → x₁.slots.find? identifier = some slot →
      slot.modified = false) {slot : Slot Record} (hslot : x'.slots.find? identifier = some slot) :
    slot.modified = false := by
  obtain ⟨x₁, hx₁, -, hf, -⟩ := h.step hstep hx hx'
  obtain ⟨old, hfind, -, hmod⟩ := hf.slot hslot
  cases hm : slot.modified with
  | false => rfl
  | true => exact (hmod hm).symm.trans (hold x₁ old hx₁ hfind)

/-- What was achieved stays. -/
theorem Settling.stays (h : g₀.Settling done g) (hplain : g₀.LinkedPlain) (hb : b ∈ g₀.plan)
    (hdone : b ∈ done) (hleaves : b.Leaves True a)
    (hstep : Action.Step db a (g, s) o q y z s') : b.Achieved g₀ (g.putAt q z) := by
  have hold := h.achieved b hdone
  cases b with
  | refer p c modified =>
    intro x v y' u' hx hv hy' hu' hcond
    obtain ⟨y₁, hy₁, -⟩ := h.underway.step hstep hx hy'
    obtain ⟨u₁, hu₁, -⟩ := h.underway.step hstep hv hu'
    have hcol := h.underway.column_stays hplain hb hleaves hstep rfl rfl hx hy₁ hy'
    have hrow := h.underway.row_stays hleaves hstep (.refer p c modified) hv hu₁ hu'
    rw [NameMap.contains, hcol] at hcond
    rw [hrow.key_eq, holds, hcol]
    exact hold x v y₁ u₁ hx hv hy₁ hu₁ hcond
  | follow p c i modified =>
    intro x v y' u' hx hv hy' hu' hcond
    obtain ⟨y₁, hy₁, -⟩ := h.underway.step hstep hx hy'
    obtain ⟨u₁, hu₁, -⟩ := h.underway.step hstep hv hu'
    have hcol := h.underway.column_stays hplain hb hleaves hstep rfl rfl hv hu₁ hu'
    have hrow := h.underway.row_stays hleaves hstep (.follow p c i modified) hx hy₁ hy'
    rw [NameMap.contains, hcol] at hcond
    rw [hrow.key_eq, holds, hcol]
    exact hold x v y₁ u₁ hx hv hy₁ hu₁ hcond
  | forget p c => exact trivial
  | write p =>
    intro x y' hx hy'
    obtain ⟨y₁, hy₁, -⟩ := h.underway.step hstep hx hy'
    have hrow := h.underway.row_stays hleaves hstep (.write p) hx hy₁ hy'
    rw [hrow.isNew, hrow.dirty]
    exact hold x y₁ hx hy₁
  | link p c =>
    intro x y' slot hx hy' hslot
    exact h.underway.slot_stays hstep hx hy' (fun x₁ slot => hold x x₁ slot hx) hslot
  | settle p identifier =>
    intro x y' slot hx hy' hslot
    exact h.underway.slot_stays hstep hx hy' (fun x₁ slot => hold x x₁ slot hx) hslot

/-- The keys stay the same as themselves. -/
theorem Settling.proper_step (h : g₀.Settling done g) (hplain : g₀.LinkedPlain)
    (hproper : ∀ p table, KeysProper (db p) table) (ha : a ∈ g₀.plan)
    (hstep : Action.Step db a (g, s) o q y z s') {p : Place} {x x' : Record}
    (hx : g₀.at? p = some x) (hx' : (g.putAt q z).at? p = some x') :
    x'.key.same x'.key = true := by
  obtain ⟨x₁, hx₁, hf, -, heq, hrow⟩ := h.underway.step hstep hx hx'
  have hsame := h.proper p x x₁ hx hx₁
  by_cases ht : a.target = some p
  · have hpq := hstep.eq_of_target ht
    obtain ⟨rfl, rfl⟩ := heq hpq
    by_cases hw : a = .write q
    · subst hw
      cases hstep with
      | write _ => exact (write_written _ _ _).proper (hproper _ _) hsame
    · rw [hstep.key_eq (fun hc => ?_) hw]
      · exact hsame
      · rw [hf.table] at hc
        exact (hplain.column ha ht hc hx).key rfl
  · rw [(hrow ht).key_eq]
    exact hsame

theorem contains_relink {y : Record} {column : String} (other : String) (key : Value)
    (modified : Bool) (h : y.values.contains column = true) :
    (y.relink other key modified).values.contains column = true := by
  by_cases hc : column = other
  · subst hc
    rcases y.relink_cases column key modified with hr | hr <;> rw [hr]
    · exact h
    · exact contains_assign ..
  · rw [NameMap.contains, find?_relink_of_ne key modified hc]
    exact h

/-- What is loaded stays so. -/
theorem Settling.loaded_step (h : g₀.Settling done g)
    (hstep : Action.Step db a (g, s) o q y z s') {p : Place} {x x' : Record} {column : String}
    (hx : g₀.at? p = some x) (hx' : (g.putAt q z).at? p = some x') (hc : x.Plain column)
    (hload : x.values.contains column = true) : x'.values.contains column = true := by
  obtain ⟨x₁, hx₁, hf, -, heq, hrow⟩ := h.underway.step hstep hx hx'
  have hload := h.loaded p x x₁ column hx hx₁ hc hload
  by_cases hpq : p = q
  · obtain ⟨rfl, rfl⟩ := heq hpq
    cases hstep with
    | refer _ _ => exact contains_relink _ _ _ hload
    | forget _ => exact contains_relink _ _ _ hload
    | follow _ _ => exact contains_relink _ _ _ hload
    | write _ =>
      rw [NameMap.contains, (write_written _ _ _).find? column (hc.congr hf.table)]
      exact hload
    | link _ =>
      unfold relinked
      split <;> exact hload
    | settle _ => exact hload
  · have ht : a.target ≠ some p := fun ht => hpq (hstep.eq_of_target ht)
    rw [(hrow ht).values]
    exact hload

end

/-! ## What a plan achieves -/

/-- No action that was done changes what the next one is about to change. -/
theorem not_written {done rest : List Action} {a : Action} {A : Prop}
    (hordered : (done ++ a :: rest).Pairwise (Action.Leaves A)) {p : Place}
    (ht : a.target = some p) : .write p ∉ done := fun hw =>
  ((List.pairwise_append.1 hordered).2.2 _ hw a List.mem_cons_self).1 ⟨p, ht, .write p⟩

section
variable {db : Place → Connection σ} {g : Record}
  (hnames : ∀ p x, g.at? p = some x → x.table.relationNames.Nodup) (hapart : g.LinkedApart)
  (hplain : g.LinkedPlain) (hproper : ∀ p table, KeysProper (db p) table)
  (hkeys : ∀ p x, g.at? p = some x → x.key.same x.key = true)
include hnames hapart hplain hproper hkeys

/-- A part of a plan that is done has achieved what its actions are for. -/
theorem runPlan_settling {done rest : List Action} (hplan : g.plan = done ++ rest) {s s' : σ}
    {g' : Record} (hrun : runPlan db done (g, s) = (.ok (), (g', s'))) : g.Settling done g' := by
  have hordered := plan_ordered (A := True) hnames fun _ => hapart
  have hkeys₀ : ∀ p x y, g.at? p = some x → g.at? p = some y → y.key.same y.key = true :=
    fun p _ y _ hy => hkeys p y hy
  have hloaded₀ : ∀ p x y column, g.at? p = some x → g.at? p = some y → x.Plain column →
      x.values.contains column = true → y.values.contains column = true := by
    intro p x y column hx hy _ hload
    rwa [← Option.some.inj (hx.symm.trans hy)]
  refine runPlan_induct (P := fun done rs => g.Settling done rs.1) ?_
    ⟨.start g, hkeys₀, hloaded₀, fun a ha => by cases ha⟩ hrun
  rintro before a after rfl ⟨g₁, s₁⟩ rs' h hok
  have hplan' : g.plan = before ++ a :: (after ++ rest) := by
    rw [hplan, List.append_assoc]
    rfl
  have ha : a ∈ g.plan := List.mem_iff_append.2 ⟨_, _, hplan'⟩
  rw [hplan'] at hordered
  obtain ⟨o, q, y, z, s₂, hstep, hrun, hunder⟩ := h.underway.run db ha s₁
  rw [hrun] at hok
  obtain ⟨rfl, rfl⟩ := Prod.mk.inj hok
  refine ⟨hunder, fun p x x' => h.proper_step hplain hproper ha hstep,
    fun p x x' column => h.loaded_step hstep, fun b hb => ?_⟩
  rcases List.mem_append.1 hb with hb | hb
  · have hmem : b ∈ g.plan := by
      rw [hplan']
      exact List.mem_append_left _ hb
    exact h.stays hplain hmem hb
      ((List.pairwise_append.1 hordered).2.2 b hb a List.mem_cons_self) hstep
  · rw [List.mem_singleton.1 hb]
    exact h.brings ha hstep fun p ht => not_written hordered ht

end

end Record

end RecordGraph
