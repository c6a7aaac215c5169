import RecordGraph.Proofs.Record.Resumed

/-!
# Saving again after a rollback

A transaction that is rolled back takes back what a save has written, but not what the records know
of it. A record whose row was written counts as saved, with no changes, though its row is gone; one
whose turn had not come is as it was, and saving the graph again writes it.

**Results.**
* `Record.Halfway.step`: what becomes of each record, whether an action succeeds or fails.
* `Record.save_sends`: what a save that succeeds sends for each record.
* `Record.save_rolledBack`: what a save that was rolled back leaves, and what saving again sends.
* `Library.exists_saved_without_row`: a record that counts as saved, and is not added again.
-/
namespace RecordGraph

namespace Record

variable {σ : Type}

/-! ## Half-way -/

/-- The row of `x` at the place `p` is still to be written: `y` is as new as `x`, with its changes,
and only foreign keys were set. -/
structure Waits (x : Record) (done : List Action) (p : Place) (y : Record) : Prop where
  isNew : y.isNew = x.isNew
  changed : ∀ column, x.dirty.contains column = true → y.dirty.contains column = true
  column : x.isNew = false → ∀ column, (∀ b ∈ done, b.target = some p → b.column? ≠ some column) →
    y.values.find? column = x.values.find? column ∧
      y.dirty.contains column = x.dirty.contains column

/-- The row of `x` at the place `p` was written: `y` counts as saved. -/
structure Wrote (x : Record) (done : List Action) (p : Place) (y : Record) : Prop where
  isNew : y.isNew = false
  dirty : y.dirty = .empty
  /-- Where there was nothing to write, nothing is changed. -/
  idle : x.isNew = false → x.isDirty = false →
    (∀ b ∈ done, b.target = some p → b.column? = none) →
      ∀ column, y.values.find? column = x.values.find? column

/-- Where the row of `x` at the place `p` stands along a plan: it was written, or it waits. -/
def Stands (x : Record) (done : List Action) (p : Place) (y : Record) : Prop :=
  .write p ∈ done ∧ x.Wrote done p y ∨ .write p ∉ done ∧ x.Waits done p y

/-- Along a plan, the row of every record was written or waits, and links that were replaced and not
written yet still count as replaced. -/
structure Halfway (g₀ : Record) (done : List Action) (g : Record) : Prop where
  rows : ∀ p x, g₀.at? p = some x → ∃ y, g.at? p = some y ∧ y.table = x.table ∧ x.Stands done p y
  links : ∀ p x a, g₀.at? p = some x → a ∈ x.table.manyManys →
    x.modified? a.identifier = some true → .link p a ∉ done → g.Pending p a

namespace Waits

variable {x y z : Record} {done more : List Action} {p : Place}

theorem refl (x : Record) (p : Place) : x.Waits [] p x :=
  ⟨rfl, fun _ h => h, fun _ _ _ => ⟨rfl, rfl⟩⟩

theorem sameRow (h : x.Waits done p y) (hrow : y.SameRow z) (hsub : done ⊆ more) :
    x.Waits more p z where
  isNew := hrow.isNew.trans h.isNew
  changed column hc := by
    rw [hrow.dirty]
    exact h.changed column hc
  column hnew column hnone := by
    rw [hrow.values, hrow.dirty]
    exact h.column hnew column fun b hb => hnone b (hsub hb)

/-- A foreign key is set. -/
theorem relink (h : x.Waits done p y) {a : Action} (ht : a.target = some p) {column : String}
    (hc : a.column? = some column) (key : Value) (modified : Bool) :
    x.Waits (done ++ [a]) p (y.relink column key modified) where
  isNew := (relink_isNew ..).trans h.isNew
  changed other ho := dirty_relink _ _ _ (h.changed other ho)
  column hnew other hnone := by
    have hne : other ≠ column := by
      rintro rfl
      exact hnone a (List.mem_append_right _ (List.mem_singleton_self a)) ht hc
    rw [find?_relink_of_ne key modified hne, dirty_relink_of_ne key modified hne]
    exact h.column hnew other fun b hb => hnone b (List.mem_append_left _ hb)

end Waits

theorem Wrote.sameRow {x y z : Record} {done more : List Action} {p : Place}
    (h : x.Wrote done p y) (hrow : y.SameRow z) (hsub : done ⊆ more) : x.Wrote more p z where
  isNew := hrow.isNew.trans h.isNew
  dirty := hrow.dirty.trans h.dirty
  idle hnew hclean hnone column := by
    rw [hrow.values]
    exact h.idle hnew hclean (fun b hb => hnone b (hsub hb)) column

/-! ## A write -/

theorem isDirty_eq_false_iff {r : Record} :
    r.isDirty = false ↔ ∀ column, r.dirty.contains column = false := by
  obtain ⟨table, values, ⟨entries⟩, isNew, slots, calculations⟩ := r
  cases entries with
  | nil => simp [isDirty, NameMap.isEmpty, NameMap.contains, NameMap.find?]
  | cons e entries =>
    simp only [isDirty, NameMap.isEmpty, List.isEmpty_cons, Bool.not_false, Bool.true_eq_false,
      false_iff, not_forall]
    exact ⟨e.1, by simp [NameMap.contains, NameMap.find?]⟩

theorem dirty_prepare (db : Connection σ) {r : Record} {column : String} (s : σ)
    (h : r.dirty.contains column = true) :
    (prepare db r s).1.dirty.contains column = true := by
  have hkey : (withKey db r s).1.dirty.contains column = true := by
    rcases withKey_cases db r s with ⟨hr, -⟩ | ⟨-, v, -, -, hr⟩ <;> rw [hr]
    · exact h
    · exact dirty_assign v h
  rw [prepare]
  rcases withVersion_cases db (withKey db r s).1 (withKey db r s).2 with hr | ⟨lock, v, -, hr⟩
  · rw [hr]
    exact hkey
  · rw [hr]
    exact hkey

/-- A write that fails leaves a saved record as it is, and a new one with its changes. -/
theorem write_failed {db : Connection σ} {y : Record} {s : σ} {e : Error}
    (h : (write db (y, s)).1 = .error e) :
    (y.isNew = false → (write db (y, s)).2.1 = y) ∧
      ∀ column, y.dirty.contains column = true →
        (write db (y, s)).2.1.dirty.contains column = true := by
  cases hnew : y.isNew with
  | true =>
    refine ⟨fun hsaved => (by cases hsaved), fun column hc => ?_⟩
    have hprepare := dirty_prepare db s hc
    rw [write, Saving.record_bind, if_pos hnew, insert_run] at h ⊢
    rcases hinsert : db.insert y.table (prepare db y s).1.insertFields (prepare db y s).2 with
      ⟨e' | assigned, s'⟩
    · exact hprepare
    · rw [hinsert] at h
      simp only at h ⊢
      cases htaken : (prepare db y s).1.taken assigned with
      | none => exact hprepare
      | some z =>
        rw [htaken] at h
        cases h
  | false =>
    have hsame : (write db (y, s)).2.1 = y := by
      rw [write_run db hnew] at h ⊢
      split at h
      · rename_i hdirty
        rw [if_pos hdirty]
        rcases update_cases db y s with ⟨e', s', hu⟩ | ⟨rs, hu, -⟩
        · rw [hu]
        · rw [hu] at h
          cases h
      · cases h
    rw [hsame]
    exact ⟨fun _ => rfl, fun _ hc => hc⟩

/-! ## Half-way along a plan -/

theorem Halfway.start (g : Record) : g.Halfway [] g where
  rows p x hx := ⟨x, hx, rfl, .inr ⟨List.not_mem_nil, .refl x p⟩⟩
  links _ x _ hx _ hm _ := ⟨x, hx, hm⟩

/-- Foreign keys are set without fail. -/
theorem Action.Step.ok_of_column {db : Place → Connection σ} {a : Action} {g y z : Record}
    {s s' : σ} {o : Except Error Unit} {q : Place} (h : Action.Step db a (g, s) o q y z s')
    {column : String} (hc : a.column? = some column) : o = .ok () := by
  cases h <;> first | rfl | cases hc

section
variable {db : Place → Connection σ} {g₀ g y z : Record} {done rest : List Action} {a : Action}
  {s s' : σ} {o : Except Error Unit} {p q : Place} {x : Record}
  (hnames : ∀ p x, g₀.at? p = some x → x.table.relationNames.Nodup)
  (hplan : g₀.plan = done ++ a :: rest)

include hnames hplan

/-- Nothing is set in a row behind its write. -/
theorem write_not_done (ht : a.target = some p) : .write p ∉ done := by
  intro hdone
  have hordered := plan_ordered (A := False) hnames False.elim
  rw [hplan] at hordered
  exact ((List.pairwise_append.1 hordered).2.2 _ hdone _ List.mem_cons_self).1 ⟨p, ht, .write p⟩

/-- **The row of a record** behind an action that succeeds or fails. -/
theorem Stands.step (h : x.Stands done p y) (hok : ∀ column, a.column? = some column → o = .ok ())
    (hbecomes : a.Becomes db g s o p y z) : x.Stands (a.doneBehind done o) p z := by
  have hsub : done ⊆ a.doneBehind done o := fun b hb => Action.mem_doneBehind.2 (.inl hb)
  have hrelink : ∀ {column key modified}, a.target = some p → a.column? = some column →
      x.Stands (a.doneBehind done o) p (y.relink column key modified) := by
    intro column key modified ht hc
    rcases h with ⟨hdone, -⟩ | ⟨hdone, h⟩
    · exact absurd hdone (write_not_done hnames hplan ht)
    · refine .inr ⟨fun hmem => ?_, ?_⟩
      · obtain ⟨-, rfl⟩ := (Action.mem_doneBehind.1 hmem).resolve_left hdone
        cases hc
      · rw [hok column hc]
        exact h.relink ht hc key modified
  cases hbecomes with
  | pointed ht _ hc _ => exact hrelink ht hc
  | unset ha =>
    subst ha
    exact hrelink rfl rfl
  | left ht hrow =>
    rcases h with ⟨hdone, h⟩ | ⟨hdone, h⟩
    · exact .inl ⟨hsub hdone, h.sameRow hrow hsub⟩
    · refine .inr ⟨fun hmem => ?_, h.sameRow hrow hsub⟩
      obtain ⟨-, rfl⟩ := (Action.mem_doneBehind.1 hmem).resolve_left hdone
      exact ht rfl
  | written ha ho =>
    subst ha
    obtain ⟨hdone, h⟩ := h.resolve_left fun h => write_not_done hnames hplan rfl h.1
    have hw := write_written (db p) y s
    cases o with
    | ok =>
      obtain ⟨hsaved, hclean⟩ := hw.saved ho.symm
      refine .inl ⟨Action.mem_doneBehind.2 (.inr ⟨rfl, rfl⟩), hsaved, hclean,
        fun hnew hdirty hnone column => ?_⟩
      have hleft : ∀ column, y.values.find? column = x.values.find? column ∧
          y.dirty.contains column = x.dirty.contains column := fun column =>
        h.column hnew column fun b hb ht => by
          rw [hnone b (hsub hb) ht]
          exact Option.some_ne_none column |>.symm
      have hidle : y.isDirty = false := isDirty_eq_false_iff.2 fun column =>
        (hleft column).2.trans (isDirty_eq_false_iff.1 hdirty column)
      rw [write_run (db p) (h.isNew.trans hnew), hidle]
      exact (hleft column).1
    | error e =>
      obtain ⟨hsame, hdirty⟩ := write_failed ho.symm
      refine .inr ⟨hdone, (hw.unsaved e ho.symm).trans h.isNew,
        fun column hc => hdirty column (h.changed column hc), fun hnew column hnone => ?_⟩
      rw [hsame (h.isNew.trans hnew)]
      exact h.column hnew column hnone

/-- **What becomes of the records** behind an action that succeeds or fails. -/
theorem Halfway.step (h : g₀.Halfway done g) (hunder : g₀.Underway done g)
    (hstep : Action.Step db a (g, s) o q y z s') :
    g₀.Halfway (a.doneBehind done o) (g.putAt q z) where
  rows p x hx := by
    obtain ⟨w, hw, htable, hstands⟩ := h.rows p x hx
    obtain ⟨w', hw', hf, -⟩ := hstep.exists_at? hw
    exact ⟨w', hw', hf.table.trans htable,
      hstands.step hnames hplan (fun _ => hstep.ok_of_column) (hstep.becomes hw hw')⟩
  links p x b hx hb hm hdone := by
    have hmem : a ∈ g₀.plan := List.mem_iff_append.2 ⟨_, _, hplan⟩
    have hpending := h.links p x b hx hb hm fun hd => hdone (Action.mem_doneBehind.2 (.inl hd))
    exact hpending.step hnames hx hb hunder hmem hstep fun ha ho =>
      hdone (Action.mem_doneBehind.2 (.inr ⟨ho, ha.symm⟩))

variable {rs rs' : Record × σ}

theorem Halfway.run (h : g₀.Halfway done rs.1) (hunder : g₀.Underway done rs.1)
    (hrun : a.run db rs = (o, rs')) :
    g₀.Halfway (a.doneBehind done o) rs'.1 ∧ g₀.Underway (done ++ [a]) rs'.1 := by
  obtain ⟨g, s⟩ := rs
  have hmem : a ∈ g₀.plan := List.mem_iff_append.2 ⟨_, _, hplan⟩
  obtain ⟨o', q, y, z, s', hstep, hdoes, hunder'⟩ := hunder.run db hmem s
  rw [hrun] at hdoes
  obtain ⟨rfl, rfl⟩ := Prod.mk.inj hdoes
  exact ⟨h.step hnames hplan hunder hstep, hunder'⟩

end

/-- Saving a graph has failed at an action of its plan, behind those that were done. -/
def FailedBehind (db : Connection σ) (rs : Record × σ) (done : List Action) (e : Error)
    (rs' : Record × σ) : Prop :=
  ∃ a rest rs₁, rs.1.plan = done ++ a :: rest ∧ runPlan (fun _ => db) done rs = (.ok (), rs₁) ∧
    a.run (fun _ => db) rs₁ = (.error e, rs')

section
variable {db : Connection σ} {g : Record} {s : σ} {e : Error} {rs' : Record × σ}
  (hnames : ∀ p x, g.at? p = some x → x.table.relationNames.Nodup)

include hnames

theorem save_failed (h : save db (g, s) = (.error e, rs')) :
    ∃ done, FailedBehind db (g, s) done e rs' := by
  rw [save_eq_run db hnames] at h
  obtain ⟨done, a, rest, rs₁, h⟩ := runPlan_error h
  exact ⟨done, a, rest, rs₁, h⟩

/-- A save that fails leaves the graph half-way. -/
theorem FailedBehind.halfway {done : List Action} (h : FailedBehind db (g, s) done e rs') :
    g.Halfway done rs'.1 ∧ ∃ done', g.Underway done' rs'.1 := by
  obtain ⟨a, rest, rs₁, hplan, hdone, ha⟩ := h
  obtain ⟨hhalf, hunder⟩ : g.Halfway done rs₁.1 ∧ g.Underway done rs₁.1 := by
    refine runPlan_induct (P := fun done rs => g.Halfway done rs.1 ∧ g.Underway done rs.1)
      (fun before b after hbefore rs rs' h hb => ?_) ⟨.start g, .start g⟩ hdone
    have hplan' : g.plan = before ++ b :: (after ++ a :: rest) := by
      rw [hplan, hbefore, List.append_assoc, List.cons_append]
    exact h.1.run hnames hplan' h.2 hb
  obtain ⟨hhalf', hunder'⟩ := hhalf.run hnames hplan hunder ha
  exact ⟨hhalf', _, hunder'⟩

end

end Record

/-! ## What a save that succeeds sends -/

/-- The column of the row of the record at a place was to be set. -/
def Entry.Updates (p : Place) (c : Column) (e : Entry) : Prop :=
  e.place = p ∧ ∃ table set guard, e.command = .update table set guard ∧ c ∈ set.map (·.column)

namespace Record

variable {σ : Type}

/-- What was sent for the row of `x` at the place `p`: it was added if it is new, and each changed
column was sent if it is not. -/
structure Sends (x : Record) (p : Place) (sent : List Entry) : Prop where
  inserted : sent.countP (·.inserts p) = x.isNew.toNat
  updated : x.isNew = false → ∀ c ∈ x.table.columns, c.primaryKey = false → c.isLock = false →
    x.dirty.contains c.name = true → ∃ e ∈ sent, e.Updates p c

/-- The links of `x` at the place `p` were written anew, one after the other. -/
def SendsLinks (x : Record) (p : Place) (a : ManyMany) (sent : List Entry) : Prop :=
  ∃ (key : Value) (targets : List Value), targets.length = (x.related a.identifier).length ∧
    (⟨p, .unlinkAll a key, true⟩ :: targets.map fun target => ⟨p, .link a key target, true⟩) <:+:
      sent

section
variable {x y : Record} {p : Place} {sent new : List Entry}

theorem Sends.append (h : x.Sends p sent) (hnone : new.countP (·.inserts p) = 0) :
    x.Sends p (sent ++ new) where
  inserted := by rw [List.countP_append, hnone, Nat.add_zero, h.inserted]
  updated hnew c hc hkey hlock hdirty := by
    obtain ⟨e, he, hup⟩ := h.updated hnew c hc hkey hlock hdirty
    exact ⟨e, List.mem_append_left _ he, hup⟩

theorem Sends.append_left (h : x.Sends p new) (hnone : sent.countP (·.inserts p) = 0) :
    x.Sends p (sent ++ new) where
  inserted := by rw [List.countP_append, hnone, Nat.zero_add, h.inserted]
  updated hnew c hc hkey hlock hdirty := by
    obtain ⟨e, he, hup⟩ := h.updated hnew c hc hkey hlock hdirty
    exact ⟨e, List.mem_append_right _ he, hup⟩

theorem SendsLinks.append {a : ManyMany} (h : x.SendsLinks p a sent) :
    x.SendsLinks p a (sent ++ new) := by
  obtain ⟨key, targets, hlength, hinfix⟩ := h
  exact ⟨key, targets, hlength, hinfix.trans (List.prefix_append ..).isInfix⟩

/-- What is sent for a row that waited is what was to be sent for it. -/
theorem Waits.sends {done : List Action} (h : x.Waits done p y) (ht : y.table = x.table)
    (hs : y.Sends p sent) : x.Sends p sent where
  inserted := by rw [hs.inserted, h.isNew]
  updated hnew c hc hkey hlock hdirty :=
    hs.updated (h.isNew.trans hnew) c (ht ▸ hc) hkey hlock (h.changed c.name hdirty)

/-- A write that succeeds sends the row. -/
theorem write_sends {db : Connection σ} {s : σ}
    (ho : (write (db.traced p) (y, (sent, s))).1 = .ok ())
    (hsent : (write (db.traced p) (y, (sent, s))).2.2.1 = sent ++ new) : y.Sends p new := by
  cases hnew : y.isNew with
  | true =>
    rw [write, Saving.record_bind, if_pos hnew] at ho hsent
    obtain ⟨returning, hsent'⟩ := insert_sent db p y sent s
    obtain rfl := List.append_cancel_left (hsent.symm.trans hsent')
    refine ⟨?_, fun hsaved => by rw [hnew] at hsaved; cases hsaved⟩
    rw [accepts_of_ok ho, hnew]
    simp [Entry.inserts]
  | false =>
    obtain ⟨new', hsent', hposted⟩ := write_posted db p y sent s
    obtain rfl : new = new' := List.append_cancel_left (hsent.symm.trans hsent')
    refine ⟨?_, fun _ c hc hkey hlock hdirty => ?_⟩
    · rw [hnew]
      refine List.countP_eq_zero.2 fun e he hi => ?_
      obtain ⟨set, guard, hc⟩ := hposted.update hnew e he
      simp [Entry.inserts, hc] at hi
    · have hfield : (⟨c, (y.values.find? c.name).getD .null⟩ : Field) ∈ y.updateFields :=
        List.mem_map.2 ⟨c, List.mem_filter.2 ⟨hc, by simp [hkey, hlock, hdirty]⟩, rfl⟩
      have hisDirty : y.isDirty = true := by
        cases hd : y.isDirty with
        | true => rfl
        | false =>
          rw [isDirty_eq_false_iff.1 hd] at hdirty
          cases hdirty
      rw [write_run (db.traced p) hnew, if_pos hisDirty] at ho hsent
      obtain ⟨set, guard, accepted, hsent'', hset⟩ :=
        update_sent ho (List.ne_nil_of_mem hfield)
      obtain rfl := List.append_cancel_left (hsent.symm.trans hsent'')
      exact ⟨_, List.mem_singleton_self _, rfl, _, _, _, rfl,
        List.mem_map_of_mem (hset hfield)⟩

end

/-- Along a plan: what was sent for each record of `g₀`. -/
structure Sending (g₀ : Record) (done : List Action) (sent : List Entry) : Prop where
  rows : ∀ p x, g₀.at? p = some x → .write p ∈ done → x.Sends p sent
  unsent : ∀ p, .write p ∉ done → sent.countP (·.inserts p) = 0
  links : ∀ p x a, g₀.at? p = some x → .link p a ∈ done → x.SendsLinks p a sent

section
variable {db : Connection σ} {g₀ g y z : Record} {done rest : List Action} {a : Action}
  {sent : List Entry} {s : σ} {t : List Entry × σ} {o : Except Error Unit} {q : Place}
  (hnames : ∀ p x, g₀.at? p = some x → x.table.relationNames.Nodup)

include hnames

/-- **What is sent** by an action that succeeds. -/
theorem Sending.step (h : g₀.Sending done sent) (hunder : g₀.Underway done g)
    (hhalf : g₀.Halfway done g) (hplan : g₀.plan = done ++ a :: rest)
    (hstep : Action.Step db.traced a (g, (sent, s)) o q y z t) (hok : o = .ok ()) :
    g₀.Sending (done ++ [a]) t.1 := by
  obtain ⟨new, hsent, hposts⟩ := hstep.posts
  have hnone : ∀ p, a ≠ .write p → new.countP (·.inserts p) = 0 := fun p ha =>
    List.countP_eq_zero.2 fun e he hi => ha (hposts.eq_write he (Entry.writes_of_inserts hi))
  refine ⟨fun p x hx hmem => ?rows, fun p hmem => ?unsent, fun p x b hx hmem => ?links⟩
  case rows =>
    by_cases ha : a = .write p
    · subst ha
      have hdone := write_not_done hnames hplan rfl
      obtain rfl := hstep.eq_of_target rfl
      obtain ⟨y', hy', htable, hstands⟩ := hhalf.rows _ x hx
      obtain rfl : y = y' := Option.some.inj (hstep.at?.symm.trans hy')
      have hwaits := (hstands.resolve_left fun h => hdone h.1).2
      obtain ⟨ho, -⟩ := hstep.at_write hy' (at?_putAt_self hy' z)
      have ht : t = (write (db.traced p) (y, (sent, s))).2.2 := by
        cases hstep
        rfl
      have hsends : y.Sends p new := write_sends (ho.symm.trans hok) (by rw [← ht, hsent])
      rw [hsent]
      exact (hwaits.sends htable hsends).append_left (h.unsent p hdone)
    · rw [hsent]
      have hdone := (List.mem_append.1 hmem).resolve_right fun h =>
        ha (List.mem_singleton.1 h).symm
      exact (h.rows p x hx hdone).append (hnone p ha)
  case unsent =>
    rw [List.mem_append, List.mem_singleton, not_or] at hmem
    rw [hsent, List.countP_append, h.unsent p hmem.1, hnone p (Ne.symm hmem.2)]
  case links =>
    rw [hsent]
    rcases List.mem_append.1 hmem with hmem | hmem
    · exact (h.links p x b hx hmem).append
    · obtain rfl := List.mem_singleton.1 hmem
      obtain ⟨y', hy', hf, -⟩ := hunder p x hx
      obtain ⟨rfl, rfl⟩ : p = q ∧ y = y' := by
        cases hstep with
        | link hy => exact ⟨rfl, Option.some.inj (hy.symm.trans hy')⟩
      cases hposts with
      | none _ hlink => exact absurd rfl (hlink _ _)
      | link _ hnew =>
        refine ⟨y.key, (y.related b.identifier).map (·.key), ?_, ?_⟩
        · rw [List.length_map, hf.length_related]
        · rw [hnew hok, List.map_map]
          exact (List.suffix_append ..).isInfix

end

section
variable {db : Connection σ} {g : Record} {s : σ} {rs : Record × σ}
  (hnames : ∀ p x, g.at? p = some x → x.table.relationNames.Nodup)

include hnames

/-- **What a save that succeeds sends** for each record. -/
theorem save_sends (hsave : save db (g, s) = (.ok (), rs)) : g.Sending g.plan (sent db g s) := by
  have hrun := runPlan_traced db hnames s
  rw [hsave] at hrun
  refine (runPlan_induct (P := fun done rs => g.Underway done rs.1 ∧ g.Halfway done rs.1 ∧
    g.Sending done rs.2.1) ?step ⟨.start g, .start g, ?start⟩ hrun).2.2
  case start => exact ⟨fun _ _ _ h => (by cases h), fun _ _ => rfl, fun _ _ _ _ h => by cases h⟩
  case step =>
    rintro done a rest hplan ⟨g₁, sent₁, s₁⟩ rs ⟨hunder, hhalf, hsending⟩ ha
    have hmem : a ∈ g.plan := List.mem_iff_append.2 ⟨_, _, hplan⟩
    obtain ⟨o, q, y, z, t, hstep, hdoes, hunder'⟩ := hunder.run db.traced hmem (sent₁, s₁)
    rw [ha] at hdoes
    obtain ⟨rfl, rfl⟩ := Prod.mk.inj hdoes
    exact ⟨hunder', hhalf.step hnames hplan hunder hstep,
      hsending.step hnames hunder hhalf hplan hstep rfl⟩

/-! ## Saving again -/

omit hnames in
/-- What saving the graph again sends, where the actions `done` of its plan were done before. -/
structure Repeated (db : Connection σ) (g : Record) (done : List Action) (g' : Record) (t : σ) :
    Prop where
  /-- A row that was not written is written now. -/
  rows : ∀ p x, g.at? p = some x → .write p ∉ done → x.Sends p (sent db g' t)
  /-- A row that was added is not added again. -/
  written : ∀ p x, g.at? p = some x → .write p ∈ done →
    (sent db g' t).countP (·.inserts p) = 0
  /-- Links that were to be written, and were not, are written now. -/
  links : ∀ p x a, g.at? p = some x → a ∈ x.table.manyManys →
    x.modified? a.identifier = some true → .link p a ∉ done → x.SendsLinks p a (sent db g' t)

/-- **Saving again behind a failure** goes on from there. -/
theorem FailedBehind.repeated {done : List Action} {e : Error} {g' : Record} {s' t : σ}
    (h : FailedBehind db (g, s) done e (g', s'))
    (hformed : ∀ p x, g.at? p = some x → x.Formed) (hsave : save db (g', t) = (.ok (), rs)) :
    Repeated db g done g' t := by
  obtain ⟨hhalf, done', hunder⟩ := h.halfway hnames
  have hformed' : ∀ p y, g'.at? p = some y → y.Formed := by
    intro p y hy
    obtain ⟨x, hx⟩ := hunder.exists_at? hy
    exact (hunder.follows hx hy).formed (hformed p x hx)
  have hnames' : ∀ p y, g'.at? p = some y → y.table.relationNames.Nodup := by
    intro p y hy
    obtain ⟨x, hx⟩ := hunder.exists_at? hy
    rw [hunder.table_eq hx hy]
    exact hnames p x hx
  have hsends := save_sends hnames' hsave
  refine ⟨fun p x hx hdone => ?rows, fun p x hx hdone => ?written,
    fun p x a hx ha hm hdone => ?links⟩
  case rows =>
    obtain ⟨y, hy, ht, hstands⟩ := hhalf.rows p x hx
    have hwaits := (hstands.resolve_left fun h => hdone h.1).2
    exact hwaits.sends ht (hsends.rows p y hy (mem_plan_of_own hformed' hy .write))
  case written =>
    obtain ⟨y, hy, -, hstands⟩ := hhalf.rows p x hx
    have hwrote := (hstands.resolve_right fun h => h.1 hdone).2
    rw [(hsends.rows p y hy (mem_plan_of_own hformed' hy .write)).inserted, hwrote.isNew]
    rfl
  case links =>
    obtain ⟨y, hy, hm⟩ := hhalf.links p x a hx ha hm hdone
    obtain ⟨slot, hslot, hm⟩ := Option.map_eq_some_iff.1 hm
    have hf := hunder.follows hx hy
    obtain ⟨key, targets, hlength, hinfix⟩ :=
      hsends.links p y a hy (mem_plan_of_own hformed' hy (.link (hf.table ▸ ha) hslot hm))
    exact ⟨key, targets, hlength.trans (hf.length_related _), hinfix⟩

end

/-- A transaction in which saving fails ends with that error, if it can be rolled back. -/
theorem transaction_of_failed {db : Connection σ} {g g' : Record} {s s₁ s₂ s' : σ} {e : Error}
    (hbegin : db.run .begin s = (.ok (), s₁)) (hsave : save db (g, s₁) = (.error e, (g', s₂)))
    (hrollback : db.run .rollback s₂ = (.ok (), s')) :
    (db.beside Record).transaction (save db) (g, s) = (.error e, (g', s')) := by
  rw [Connection.transaction_run, Connection.beside_run, hbegin]
  simp only [hsave, Connection.beside_run, hrollback]
  rfl

/-- **A save that was rolled back.** The transaction ends with the error of the save. In the graph,
the record of a row that was written counts as saved, and one whose row waits is as new as before,
with its changes. Saving again writes the rows and links that were not written, and adds no other
row. -/
theorem save_rolledBack {db : Connection σ} {d : SchemaDecl} {schema : Schema}
    (hs : Schema.ofDeclaration d = .ok schema) {g g' : Record} {s s₁ s₂ s' : σ} {e : Error}
    (htables : ∀ p x, g.at? p = some x → x.table ∈ schema.tables)
    (hformed : ∀ p x, g.at? p = some x → x.Formed) (hbegin : db.run .begin s = (.ok (), s₁))
    (hsave : save db (g, s₁) = (.error e, (g', s₂)))
    (hrollback : db.run .rollback s₂ = (.ok (), s')) :
    (db.beside Record).transaction (save db) (g, s) = (.error e, (g', s')) ∧
      ∃ done, FailedBehind db (g, s₁) done e (g', s₂) ∧ g.Halfway done g' ∧
        ∀ t rs, save db (g', t) = (.ok (), rs) → Repeated db g done g' t := by
  have ht := Schema.ofDeclaration_sound hs
  have hnames : ∀ p x, g.at? p = some x → x.table.relationNames.Nodup := fun p x hx =>
    (ht.sound _ (htables p x hx)).relations
  obtain ⟨done, hfailed⟩ := save_failed hnames hsave
  exact ⟨transaction_of_failed hbegin hsave hrollback, done, hfailed,
    (hfailed.halfway hnames).1, fun t rs hagain => hfailed.repeated hnames hformed hagain⟩

end Record

namespace Library

open Record Connection

/-- Whether the book is refused behind its author, and saving the graph again adds no author. -/
def refusedBehind (g : Record) : Bool :=
  match save refusing (g, ([false, true], 0)) with
  | (.error _, (g', ([], n))) =>
    decide ((g.at? [("author", 0)]).map (·.isNew) = some true) &&
      decide ((g'.at? [("author", 0)]).map (·.isNew) = some false) &&
        (save refusing (g', ([], n))).1.isOk &&
          decide ((sent refusing g' ([], n)).countP (·.inserts [("author", 0)]) = 0)
  | _ => false

/-- The author is added, the book is refused, and saving the graph again adds no author. -/
theorem book_refused : ∃ s g g' e n rs x y, Schema.ofDeclaration declaration = .ok s ∧
    newBook s = .ok g ∧ (∀ x ∈ recordsWithin g.depth g, x.Fits s.tables) ∧
      save refusing (g, ([false, true], 0)) = (.error e, (g', ([], n))) ∧
        g.at? [("author", 0)] = some x ∧ x.isNew = true ∧
          g'.at? [("author", 0)] = some y ∧ y.isNew = false ∧
            save refusing (g', ([], n)) = (.ok (), rs) ∧
              (sent refusing g' ([], n)).countP (·.inserts [("author", 0)]) = 0 := by
  have hall : bookPasses (fun _ g => refusedBehind g) = true := by decide +kernel
  obtain ⟨s, g, hs, hg, hfits, hall⟩ := bookPasses_cases hall
  unfold refusedBehind at hall
  split at hall
  · rename_i e g' n hsave
    obtain ⟨hall, hcount⟩ := Bool.and_eq_true_iff.1 hall
    obtain ⟨hall, hagain⟩ := Bool.and_eq_true_iff.1 hall
    obtain ⟨hnew, hsaved⟩ := Bool.and_eq_true_iff.1 hall
    obtain ⟨x, hx, hnew⟩ := Option.map_eq_some_iff.1 (of_decide_eq_true hnew)
    obtain ⟨y, hy, hsaved⟩ := Option.map_eq_some_iff.1 (of_decide_eq_true hsaved)
    rcases hrs : save refusing (g', ([], n)) with ⟨e' | ⟨⟩, rs⟩
    · rw [hrs] at hagain
      cases hagain
    · exact ⟨s, g, g', e, n, rs, x, y, hs, hg, hfits, hsave, hx, hnew, hy, hsaved, hrs,
        of_decide_eq_true hcount⟩
  · cases hall

/-- The new book, in a transaction that is rolled back when the book is refused. -/
theorem newBook_rolledBack : ∃ s g g' e n, Schema.ofDeclaration declaration = .ok s ∧
    newBook s = .ok g ∧ (∀ p x, g.at? p = some x → x.table ∈ s.tables) ∧
      (∀ p x, g.at? p = some x → x.Formed) ∧
        refusing.run .begin ([false, false, true], 0) = (.ok (), ([false, true], 0)) ∧
          save refusing (g, ([false, true], 0)) = (.error e, (g', ([], n))) ∧
            refusing.run .rollback ([], n) = (.ok (), ([], n)) ∧
    (refusing.beside Record).transaction (save refusing) (g, ([false, false, true], 0)) =
        (.error e, (g', ([], n))) ∧
      ∃ done, FailedBehind refusing (g, ([false, true], 0)) done e (g', ([], n)) ∧
        g.Halfway done g' ∧ ∀ t rs, save refusing (g', t) = (.ok (), rs) →
          Repeated refusing g done g' t := by
  obtain ⟨s, g, g', e, n, -, -, -, hs, hg, hfits, hsave, -⟩ := book_refused
  obtain ⟨hregular, -, -⟩ := regular_of_fits hfits
  exact ⟨s, g, g', e, n, hs, hg, hregular.tables, hregular.formed, rfl, hsave, rfl,
    save_rolledBack hs hregular.tables hregular.formed rfl hsave rfl⟩

/-- After a transaction that was rolled back, an author that was new counts as saved, and saving the
graph again succeeds without adding it. -/
theorem exists_saved_without_row : ∃ s g g' e t t₁ t₂ t' rs x y,
    Schema.ofDeclaration declaration = .ok s ∧ newBook s = .ok g ∧
      refusing.run .begin t = (.ok (), t₁) ∧ save refusing (g, t₁) = (.error e, (g', t₂)) ∧
        refusing.run .rollback t₂ = (.ok (), t') ∧
    (refusing.beside Record).transaction (save refusing) (g, t) = (.error e, (g', t')) ∧
      g.at? [("author", 0)] = some x ∧ x.isNew = true ∧
        g'.at? [("author", 0)] = some y ∧ y.isNew = false ∧
          save refusing (g', t') = (.ok (), rs) ∧
            (sent refusing g' t').countP (·.inserts [("author", 0)]) = 0 := by
  obtain ⟨s, g, g', e, n, rs, x, y, hs, hg, -, hsave, hx, hnew, hy, hsaved, hrs, hcount⟩ :=
    book_refused
  exact ⟨s, g, g', e, ([false, false, true], 0), ([false, true], 0), ([], n), ([], n), rs, x, y,
    hs, hg, rfl, hsave, rfl, transaction_of_failed rfl hsave rfl, hx, hnew, hy, hsaved, hrs, hcount⟩

end Library

end RecordGraph
