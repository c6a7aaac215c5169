import RecordGraph.Proofs.Query.Load
import RecordGraph.Proofs.Record.SavedKeys

/-!
# Changes are sent

Saving points the foreign keys of loaded relations at the records that are there, whatever the
columns were set to. A changed column that is no such foreign key is left alone: an update of its
row gives it the value that was set.

**Results.**
* `Record.keepsChanges_kept`: what saving does to a record keeps its changes until they are sent.
* `Record.changes_sent`: so they are, at every place of a graph that is saved.
* `Record.change_kept`: a change in a loaded graph, which no loaded relation goes through, is sent,
  and it is there afterwards.
-/
namespace RecordGraph

namespace Record

/-- An update was sent that gives a column of the row of `x` a value. -/
def Sent (x : Record) (c : Column) (v : Value) (sent : List Command) : Prop :=
  ∃ set guard, .update x.table set guard ∈ sent ∧ ⟨c, v⟩ ∈ set ∧
    ⟨x.table.primaryKey, x.key⟩ ∈ guard

/-- No foreign key that was changed is that of a loaded relation. -/
structure Unlinked (x : Record) : Prop where
  reference : ∀ r ∈ x.table.references, x.dirty.contains r.column = true → ∀ slot,
    x.slots.find? r.identifier = some slot → slot.related.toList = [] ∧ slot.modified = false
  reverse : ∀ r ∈ x.table.reverses, ∀ i c, x.child? r.identifier i = some c →
    c.dirty.contains r.column = false

/-- A record on which saving leaves the key and the changes alone. -/
structure Ready (x : Record) : Prop where
  sound : x.table.Sound
  aligned : x.Aligned
  unlinked : x.Unlinked

/-- A column, no key and no version, that is changed to a value. -/
structure Changes (x : Record) (c : Column) (v : Value) : Prop where
  mem : c ∈ x.table.columns
  key : c.primaryKey = false
  lock : c.isLock = false
  value : x.values.find? c.name = some v
  dirty : x.dirty.contains c.name = true

variable {σ : Type}

/-- `y` has the key of `x`, and its changes, until they are sent. -/
def KeepsChanges (x y : Record) (s : List Command × σ) : Prop :=
  KeepsKey x y s ∧ (x.Fixed → ∀ c v, x.Changes c v →
    y.values.find? c.name = some v ∧ (y.dirty.contains c.name = true ∨ x.Sent c v s.1))

variable (db : Connection σ)

theorem Sent.later {x : Record} {c : Column} {v : Value} {s s' : List Command × σ}
    (h : x.Sent c v s.1) (hl : db.logged.Later s s') : x.Sent c v s'.1 := by
  obtain ⟨set, guard, hmem, h⟩ := h
  exact ⟨set, guard, hl _ (db.logged_keeps _) hmem, h⟩

/-- A foreign key that was not changed is pointed somewhere. -/
theorem KeepsChanges.relink {x y : Record} {s : List Command × σ} (h : x.KeepsChanges y s)
    {column : String} {key : Value} {modified : Bool} (hclean : x.dirty.contains column = false)
    (hkey : KeepsKey x (y.relink column key modified) s) :
    x.KeepsChanges (y.relink column key modified) s := by
  refine ⟨hkey, fun hx c v hc => ?_⟩
  obtain ⟨hv, hsent⟩ := h.2 hx c v hc
  have hne : c.name ≠ column := by
    intro hn
    have hdirty := hc.dirty
    rw [hn, hclean] at hdirty
    cases hdirty
  exact ⟨(find?_relink_of_ne key modified hne).trans hv,
    hsent.imp_left (dirty_relink column key modified)⟩

theorem mem_guardFields {r : Record} {guard : List Field} (h : r.guardFields = .ok guard) :
    ⟨r.table.primaryKey, r.key⟩ ∈ guard := by
  unfold guardFields at h
  split at h
  · cases h
  · split at h
    · obtain ⟨v, -, h⟩ := bind_eq_ok_iff.1 h
      cases h
      exact List.mem_cons_self
    · cases h
      exact List.mem_cons_self

/-- A successful update sends what was changed. -/
theorem Updated.sends {x y : Record} {rs : Record × List Command × σ} (hu : Updated db.logged y rs)
    (htable : y.table = x.table) (hkey : y.key = x.key) {c : Column} {v : Value}
    (hc : x.Changes c v) (hv : y.values.find? c.name = some v)
    (hd : y.dirty.contains c.name = true) : x.Sent c v rs.2.1 := by
  have hfield : (⟨c, v⟩ : Field) ∈ y.updateFields := by
    refine List.mem_map.2 ⟨c, List.mem_filter.2 ⟨htable ▸ hc.mem, ?_⟩, by rw [hv]; rfl⟩
    simp [hc.key, hc.lock, hd]
  rcases hu.sent with hnone | ⟨guard, set, s', hguard, hset, hrs⟩
  · rw [hnone] at hfield
    cases hfield
  · refine ⟨set, guard, ?_, hset hfield, ?_⟩
    · rw [hrs, ← htable]
      exact List.mem_append_right _ List.mem_cons_self
    · rw [← htable, ← hkey]
      exact mem_guardFields hguard

/-- Behind an update the changes are there, and sent if it succeeded. -/
theorem KeepsChanges.update {x y : Record} {s : List Command × σ} (hr : x.Ready)
    (hf : x.Follows y) (h : x.KeepsChanges y s) :
    x.KeepsChanges (update db.logged (y, s)).2.1 (update db.logged (y, s)).2.2 := by
  refine ⟨h.1.update db.logged hr.aligned hf s, fun hx c v hc => ?_⟩
  obtain ⟨hv, hsent⟩ := h.2 hx c v hc
  have hlater := (update_frames db.logged (y, s)).2.2
  rcases update_cases db.logged y s with ⟨e, s', hu⟩ | ⟨rs, hu, hupdated⟩
  · rw [hu] at hlater ⊢
    exact ⟨hv, hsent.imp_right fun h => h.later db hlater⟩
  · rw [hu] at hlater ⊢
    refine ⟨?_, .inr ?_⟩
    · rcases hupdated.record with hrec | ⟨lock, w, hl, hrec⟩ <;> rw [hrec]
      · exact hv
      · have hlock := List.find?_some hl
        have hne : c.name ≠ lock.name := by
          intro hn
          rw [hf.table] at hl
          rw [← hr.sound.column_eq hc.mem (List.mem_of_find?_eq_some hl) hn, hc.lock] at hlock
          cases hlock
        exact (NameMap.find?_insert_of_ne _ _ hne).trans hv
    · rcases hsent with hd | hsent
      · exact hupdated.sends db hf.table (h.1 hx).2 hc hv hd
      · exact hsent.later db hlater

/-- **Saving keeps changes** until they are sent. -/
theorem keepsChanges_kept : Kept db.logged Ready KeepsChanges where
  later h hl := ⟨h.1, fun hx c v hc => (h.2 hx c v hc).imp_right
    fun hd => hd.imp_right fun hs => hs.later db hl⟩
  sameRow h hrow := by
    refine ⟨(keepsKey_kept db.logged).sameRow h.1 hrow, fun hx c v hc => ?_⟩
    rw [hrow.values, hrow.dirty]
    exact h.2 hx c v hc
  reference modified hx hf h hr hslot hrel hv := by
    refine h.relink ?_ ((keepsKey_kept db.logged).reference modified hx.aligned hf h.1 hr hslot
      hrel hv.1)
    rw [Bool.eq_false_iff]
    intro hdirty
    have hempty := (hx.unlinked.reference _ hr hdirty _ hslot).1
    rw [hrel] at hempty
    cases hempty
  emptied modified hx hf h hr hslot hrel hmod := by
    refine h.relink ?_ ((keepsKey_kept db.logged).emptied modified hx.aligned hf h.1 hr hslot
      hrel hmod)
    rw [Bool.eq_false_iff]
    intro hdirty
    rw [(hx.unlinked.reference _ hr hdirty _ hslot).2] at hmod
    cases hmod
  reverse modified hx h hr hc hf hu :=
    hu.relink (hx.unlinked.reverse _ hr _ _ hc)
      ((keepsKey_kept db.logged).reverse modified hx.aligned h.1 hr hc hf hu.1)
  write {x y s} hx hf h := by
    by_cases hnew : y.isNew = true
    · -- a new record has no key to keep
      have hfixed : ¬x.Fixed := fun hfixed => by
        have hsaved := (h.1 hfixed).1.saved
        rw [hnew] at hsaved
        cases hsaved
      exact ⟨fun hx => absurd hx hfixed, fun hx => absurd hx hfixed⟩
    · rw [write_run db.logged (Bool.eq_false_iff.2 hnew)]
      split
      · exact h.update db hx hf
      · exact h

/-- Behind a write that succeeds, what was changed is sent. -/
theorem KeepsChanges.sent_of_write {x y : Record} {s : List Command × σ}
    {rs : Record × List Command × σ} (hr : x.Ready) (hf : x.Follows y) (h : x.KeepsChanges y s)
    (hx : x.Fixed) {c : Column} {v : Value} (hc : x.Changes c v)
    (hok : write db.logged (y, s) = (.ok (), rs)) : x.Sent c v rs.2.1 := by
  have hkeeps := (keepsChanges_kept db).write hr hf h
  rw [hok] at hkeeps
  refine (hkeeps.2 hx c v hc).2.resolve_left fun hd => ?_
  rw [write_run db.logged (h.1 hx).1.saved] at hok
  split at hok
  · rcases update_cases db.logged y s with ⟨e, s', hu⟩ | ⟨rs', hu, hupdated⟩
    · rw [hu] at hok
      cases hok
    · rw [hu] at hok
      cases hok
      rcases hupdated.record with hrec | ⟨lock, w, -, hrec⟩
      · rw [hrec] at hd
        cases hd
      · rw [hrec] at hd
        cases hd
  · rename_i hclean
    cases hok
    rw [isDirty, Bool.not_eq_true', Bool.not_eq_false, NameMap.isEmpty, List.isEmpty_iff] at hclean
    rw [NameMap.contains, NameMap.find?, hclean] at hd
    cases hd

/-- **Changes are sent.** Where saving a graph succeeds, every change of a saved record with a key
was sent with that key, and it is there afterwards. -/
theorem changes_sent {a x : Record} (ha : ∀ p x, a.at? p = some x → x.Ready)
    (hformed : ∀ p x, a.at? p = some x → x.Formed) {p : Place} (hx : a.at? p = some x)
    (hfixed : x.Fixed) {c : Column} {v : Value} (hc : x.Changes c v) {s : List Command × σ}
    {rs : Record × List Command × σ} (hok : save db.logged (a, s) = (.ok (), rs)) :
    x.Sent c v rs.2.1 ∧
      ∃ y, rs.1.at? p = some y ∧ y.table = x.table ∧ y.values.find? c.name = some v := by
  have hstart : Course db.logged KeepsChanges a s (a, s) :=
    .refl fun p x hx => ⟨fun h => ⟨h, rfl⟩, fun _ c v hc => ⟨hc.value, .inl hc.dirty⟩⟩
  have hk := keepsChanges_kept db
  rw [save_eq] at hok
  constructor
  · have hgoal : db.logged.Keeps fun s => x.Sent c v s.1 :=
      Connection.keeps_of_later fun _ _ hl h => h.later db hl
    exact saveWithin_reaches hk hgoal
      (fun hf h hw => h.sent_of_write db (ha p x hx) hf hfixed hc hw) ha hformed hx
      (length_lt_depth_of_at? hx) hstart hok
  · obtain ⟨y, hy, hf, hkeeps⟩ := (saveWithin_course hk a.depth ha hstart).2 p x hx
    rw [hok] at hy hkeeps
    exact ⟨y, hy, hf.table, (hkeeps.2 hfixed c v hc).1⟩

/-! ## A change in a loaded graph -/

/-- Where a record was put in the place of one with the same relations, the others stand as
before. -/
theorem at?_putAt_cases {p : Place} {g x x' : Record} (hx : g.at? p = some x)
    (ht : x'.table = x.table) (hslots : x'.slots = x.slots) {q : Place} {y : Record}
    (hy : (g.putAt p x').at? q = some y) : ∃ y₀, g.at? q = some y₀ ∧ y₀.Follows y ∧
      (q = p ∧ y₀ = x ∧ y = x' ∨ q ≠ p ∧ y₀.SameRow y) := by
  induction p generalizing g q with
  | nil =>
    obtain rfl : g = x := Option.some.inj hx
    cases q with
    | nil =>
      cases hy
      exact ⟨g, rfl, (Follows.refl g).of_slots ht hslots, .inl ⟨rfl, rfl, rfl⟩⟩
    | cons step q =>
      obtain ⟨identifier, i⟩ := step
      obtain ⟨c, hc, hy⟩ := at?_cons_eq_some_iff.1 hy
      have hrel : x'.related identifier = g.related identifier := related_congr (by rw [hslots])
      rw [putAt, child?, hrel] at hc
      exact ⟨y, at?_cons_eq_some_iff.2 ⟨c, hc, hy⟩, .refl y, .inr ⟨List.cons_ne_nil _ _, .refl y⟩⟩
  | cons step p ih =>
    obtain ⟨identifier, i⟩ := step
    obtain ⟨c, hc, hx⟩ := at?_cons_eq_some_iff.1 hx
    rw [putAt_cons hc] at hy
    cases q with
    | nil =>
      cases hy
      exact ⟨g, rfl, (Follows.refl g).modify (fun _ => Related.shape_set ..) fun _ h => h,
        .inr ⟨(List.cons_ne_nil _ _).symm, sameRow_setRelated ..⟩⟩
    | cons other q =>
      obtain ⟨name, k⟩ := other
      obtain ⟨d, hd, hy⟩ := at?_cons_eq_some_iff.1 hy
      by_cases hstep : (name, k) = (identifier, i)
      · cases hstep
        rw [child?_setRelated_self hc] at hd
        cases hd
        obtain ⟨y₀, hy₀, hf, hrow⟩ := ih hx hy
        refine ⟨y₀, at?_cons_eq_some_iff.2 ⟨c, hc, hy₀⟩, hf, hrow.imp ?_ ?_⟩
        · exact And.imp_left fun hq => by rw [hq]
        · exact And.imp_left fun hq heq => hq (List.cons_inj_right _ |>.1 heq)
      · rw [child?_setRelated_of_ne _ hstep] at hd
        exact ⟨y, at?_cons_eq_some_iff.2 ⟨d, hd, hy⟩, .refl y,
          .inr ⟨fun heq => hstep (List.cons.inj heq).1, .refl y⟩⟩

/-- A loaded relation goes through a column of the record at a place: one of the record itself, or
the one that leads to it. -/
def Links (g : Record) (p : Place) (column : String) : Prop :=
  (∃ x, g.at? p = some x ∧ ∃ r ∈ x.table.references, r.column = column ∧
    x.related r.identifier ≠ []) ∨
  ∃ q y, ∃ r ∈ y.table.reverses, ∃ i, g.at? q = some y ∧ r.column = column ∧
    p = q ++ [(r.identifier, i)]

/-- A column other than the key was changed. -/
structure Changed (x x' : Record) (c : Column) (v : Value) : Prop where
  column : c ∈ x.table.columns
  key : c.primaryKey = false
  lock : c.isLock = false
  result : x' = { x with values := x.values.insert c.name v, dirty := x.dirty.insert c.name () }

theorem changed_of_set {x x' : Record} {key : String} {v : Value} {c : Column}
    (hc : x.table.column? key = some c) (hpk : c.primaryKey = false) (h : x.set key v = .ok x')
    (hv : x.holds c.name v = false) : x.Changed x' c v := by
  obtain ⟨c', hc', hlock, -, rfl⟩ := set_cases h
  obtain rfl := Option.some.inj (hc.symm.trans hc')
  exact ⟨Table.mem_of_column? hc, hpk, hlock, if_neg (by rw [hv]; exact Bool.false_ne_true)⟩

namespace Changed

variable {x x' : Record} {c : Column} {v : Value} (h : x.Changed x' c v)
include h

theorem table : x'.table = x.table := by rw [h.result]

theorem slots : x'.slots = x.slots := by rw [h.result]

theorem isNew : x'.isNew = x.isNew := by rw [h.result]

theorem key_eq (ht : x.table.Sound) : x'.key = x.key := by
  refine key_congr h.table ?_
  rw [h.table, h.result]
  refine NameMap.find?_insert_of_ne _ v fun hn => ?_
  have hprimary := x.table.primaryKey_primary
  rw [ht.column_eq x.table.primaryKey_mem h.column hn, h.key] at hprimary
  cases hprimary

theorem changes : x'.Changes c v := by
  refine ⟨by rw [h.table]; exact h.column, h.key, h.lock, ?_, ?_⟩
  · rw [h.result]
    exact NameMap.find?_insert_self ..
  · rw [h.result, NameMap.contains, NameMap.find?_insert_self]
    rfl

end Changed

/-- Saved as before, with the key as before. -/
theorem Fixed.congr {a b : Record} (hnew : b.isNew = a.isNew) (hkey : b.key = a.key) :
    b.Fixed ↔ a.Fixed :=
  ⟨fun h => ⟨hnew ▸ h.saved, hkey ▸ h.key⟩, fun h => ⟨hnew ▸ h.saved, hkey ▸ h.key⟩⟩

/-- Where the relations and keys are as before, they are aligned as before. -/
theorem KeysAligned.of_places {a b : Record} (h : a.KeysAligned)
    (hplaces : ∀ p y, b.at? p = some y → ∃ x, a.at? p = some x ∧ x.Follows y ∧
      y.isNew = x.isNew ∧ y.key = x.key) : b.KeysAligned := by
  intro p y hy
  obtain ⟨x, hx, hf, hnew, hkey⟩ := hplaces p y hy
  have hfixed := Fixed.congr hnew hkey
  have haligned := h p x hx
  have hbelow : ∀ identifier i u, y.child? identifier i = some u → ∃ w,
      x.child? identifier i = some w ∧ w.Follows u ∧ u.isNew = w.isNew ∧ u.key = w.key := by
    intro identifier i u hu
    have hu' : b.at? (p ++ [(identifier, i)]) = some u := by
      rw [at?_append, hy, Option.bind_some, at?, hu]
      rfl
    obtain ⟨w, hw, hrest⟩ := hplaces _ u hu'
    rw [at?_append, hx, Option.bind_some] at hw
    obtain ⟨_, hc, hw⟩ := at?_cons_eq_some_iff.1 hw
    cases hw
    exact ⟨w, hc, hrest⟩
  refine ⟨?_, fun hy reference hr hcol slot hslot => ⟨fun hrel => ?_, fun target hrel => ?_⟩,
    fun reverse hr i u hu hufixed hcol => ?_⟩
  · rw [hf.table]
    exact haligned.lock
  · rw [hf.table] at hr hcol
    obtain ⟨old, hold, hshape, hmod⟩ := hf.slot hslot
    rw [hrel] at hshape
    have hnone := (haligned.reference (hfixed.1 hy) _ hr hcol _ hold).1
      (Related.shape_eq_none hshape.symm)
    exact Bool.eq_false_iff.2 fun hm => Bool.eq_false_iff.1 hnone (hmod hm)
  · rw [hf.table] at hr hcol
    obtain ⟨old, hold, hshape, -⟩ := hf.slot hslot
    rw [hrel] at hshape
    obtain ⟨w, hw⟩ := Related.shape_eq_one hshape.symm
    have hchild : y.child? reference.identifier 0 = some target := by
      rw [child?, related_eq hslot, hrel]
      rfl
    obtain ⟨w', hw', hwf, hwnew, hwkey⟩ := hbelow _ _ _ hchild
    rw [child?, related_eq hold, hw] at hw'
    obtain rfl : w = w' := Option.some.inj hw'
    obtain ⟨hwfixed, hsame⟩ := (haligned.reference (hfixed.1 hy) _ hr hcol _ hold).2 w hw
    exact ⟨(Fixed.congr hwnew hwkey).2 hwfixed, by rw [hkey, hwkey]; exact hsame⟩
  · rw [hf.table] at hr
    obtain ⟨w, hw, hwf, hwnew, hwkey⟩ := hbelow _ _ _ hu
    rw [hwf.table] at hcol
    obtain ⟨hxfixed, hsame⟩ := haligned.reverse _ hr i w hw ((Fixed.congr hwnew hwkey).1 hufixed)
      hcol
    exact ⟨hfixed.2 hxfixed, by rw [hkey, hwkey]; exact hsame⟩

section
variable {schema : Schema} (hs : Schema.SoundTables schema.tables) {g x x' : Record}
  (hg : g.Loaded schema) {p : Place} (hx : g.at? p = some x) {c : Column} {v : Value}
  (hc : x.Changed x' c v)
include hs hg hx hc

/-- Every key is as before. -/
theorem Changed.places {q : Place} {y : Record} (hy : (g.putAt p x').at? q = some y) :
    ∃ y₀, g.at? q = some y₀ ∧ y₀.Follows y ∧ y.isNew = y₀.isNew ∧ y.key = y₀.key := by
  obtain ⟨y₀, hy₀, hf, ⟨-, rfl, rfl⟩ | ⟨-, hrow⟩⟩ := at?_putAt_cases hx hc.table hc.slots hy
  · exact ⟨y₀, hy₀, hf, hc.isNew, hc.key_eq (hs.sound _ (hg.untouched hs hx).mem)⟩
  · exact ⟨y₀, hy₀, hf, hrow.isNew, key_congr hrow.table (by rw [hrow.values])⟩

/-- Nothing else was changed. -/
theorem Changed.dirty {q : Place} {y : Record} (hy : (g.putAt p x').at? q = some y)
    {column : String} (hd : y.dirty.contains column = true) : q = p ∧ y = x' ∧ column = c.name := by
  have hclean : ∀ {q y₀}, g.at? q = some y₀ → ∀ name, y₀.dirty.contains name = false := by
    intro q y₀ hy₀ name
    rw [(hg.untouched hs hy₀).dirty]
    rfl
  obtain ⟨y₀, hy₀, -, ⟨rfl, rfl, rfl⟩ | ⟨-, hrow⟩⟩ := at?_putAt_cases hx hc.table hc.slots hy
  · refine ⟨rfl, rfl, Classical.by_contradiction fun hne => ?_⟩
    rw [hc.result, NameMap.contains, NameMap.find?_insert_of_ne _ _ hne] at hd
    rw [← NameMap.contains, hclean hy₀] at hd
    cases hd
  · rw [hrow.dirty, hclean hy₀] at hd
    cases hd

/-- Where no loaded relation goes through the column, saving leaves the change alone. -/
theorem Changed.ready (hfree : ¬g.Links p c.name) (haligned : g.KeysAligned) {q : Place}
    {y : Record} (hy : (g.putAt p x').at? q = some y) : y.Ready := by
  obtain ⟨y₀, hy₀, hf, -⟩ := Changed.places hs hg hx hc hy
  refine ⟨?_, haligned.of_places (fun q y hy => Changed.places hs hg hx hc hy) q y hy,
    fun r hr hd slot hslot => ?_, fun r hr i d hd => Bool.eq_false_iff.2 fun hdirty => ?_⟩
  · rw [hf.table]
    exact hs.sound _ (hg.untouched hs hy₀).mem
  · obtain ⟨rfl, rfl, hcol⟩ := Changed.dirty hs hg hx hc hy hd
    rw [hc.table] at hr
    rw [hc.slots] at hslot
    refine ⟨Classical.by_contradiction fun hne => hfree (.inl ⟨x, hx, r, hr, hcol, ?_⟩),
      (hg.untouched hs hx).settled _ _ hslot⟩
    rwa [related_eq hslot]
  · have hd' : (g.putAt p x').at? (q ++ [(r.identifier, i)]) = some d := by
      rw [at?_append, hy, Option.bind_some, at?, hd]
      rfl
    obtain ⟨hp, -, hcol⟩ := Changed.dirty hs hg hx hc hd' hdirty
    rw [hf.table] at hr
    exact hfree (.inr ⟨q, y₀, r, hr, i, hy₀, hcol, hp.symm⟩)

theorem Changed.formed {q : Place} {y : Record} (hy : (g.putAt p x').at? q = some y) :
    y.Formed := by
  obtain ⟨y₀, hy₀, hf, -⟩ := Changed.places hs hg hx hc hy
  exact hf.formed (hg.untouched hs hy₀).formed

end

/-- **Changes are kept.** In a graph that was loaded, one column of a record with a key, no key and
no version itself, is set to another value. Where no loaded relation goes through the column and the
keys are aligned, saving the graph sends the value, or fails; and it is there afterwards. -/
theorem change_kept {d : SchemaDecl} {schema : Schema} (hs : Schema.ofDeclaration d = .ok schema)
    {g x x' : Record} (hg : g.Loaded schema) {p : Place} (hx : g.at? p = some x)
    (hkey : x.key ≠ .null) {key : String} {c : Column} (hc : x.table.column? key = some c)
    (hpk : c.primaryKey = false) {v : Value} (hset : x.set key v = .ok x')
    (hv : x.holds c.name v = false) (hfree : ¬g.Links p c.name) (haligned : g.KeysAligned)
    {s s' : σ} {g' : Record} {sent : List Command}
    (hsave : save db.logged (g.putAt p x', ([], s)) = (.ok (), (g', (sent, s')))) :
    x.Sent c v sent ∧ ∃ y, g'.at? p = some y ∧ y.get? key = some v := by
  have ht := Schema.ofDeclaration_sound hs
  have hchanged := changed_of_set hc hpk hset hv
  have hsound := ht.sound _ (hg.untouched ht hx).mem
  have hx' : (g.putAt p x').at? p = some x' := by
    have hat := at?_putAt_append hx x' []
    rwa [List.append_nil] at hat
  have hfixed : x'.Fixed :=
    (Fixed.congr hchanged.isNew (hchanged.key_eq hsound)).2 ⟨(hg.untouched ht hx).saved, hkey⟩
  obtain ⟨⟨set, guard, hmem, hfield, hguard⟩, y, hy, htable, hvalue⟩ := changes_sent db
    (fun q y hy => hchanged.ready ht hg hx hfree haligned hy)
    (fun q y hy => hchanged.formed ht hg hx hy) hx' hfixed hchanged.changes hsave
  rw [hchanged.table] at hmem hguard htable
  rw [hchanged.key_eq hsound] at hguard
  refine ⟨⟨set, guard, hmem, hfield, hguard⟩, y, hy, ?_⟩
  rw [get?, htable, hc]
  exact hvalue

/-- No foreign key is a key, and no key counts versions. -/
def KeysApart (s : Schema) : Prop := ∀ t ∈ s.tables,
  (∀ lock ∈ t.lockColumn?, t.primaryKey.name ≠ lock.name) ∧
    (∀ r ∈ t.references, r.column ≠ t.primaryKey.name) ∧
      ∀ r ∈ t.reverses, ∀ u ∈ s.tables, r.column ≠ u.primaryKey.name

instance (s : Schema) : Decidable (KeysApart s) := by unfold KeysApart; infer_instance

/-- Then the keys of every loaded graph are aligned. -/
theorem KeysApart.aligned {s : Schema} (h : KeysApart s) (hs : Schema.SoundTables s.tables)
    {g : Record} (hg : g.Loaded s) : g.KeysAligned := by
  intro p x hx
  obtain ⟨hlock, hreference, hreverse⟩ := h _ (hg.untouched hs hx).mem
  refine ⟨hlock, fun _ r hr hcol => absurd hcol (hreference r hr), fun r hr i c hc _ hcol => ?_⟩
  have hc' : g.at? (p ++ [(r.identifier, i)]) = some c := by
    rw [at?_append, hx, Option.bind_some, at?, hc]
    rfl
  exact absurd hcol (hreverse r hr _ (hg.untouched hs hc').mem)

end Record

namespace Library

/-- The book with a column set, and what saving it gives. -/
def savedBook (key : String) (v : Value) : Except Error
    (Schema × Record × Record × Except Error Unit × Record × List Command × Script) := do
  let (s, g) ← loadedBook
  let x ← g.set key v
  .ok (s, g, x, Record.save (Script.connection .sqlite).logged (x, ([], Script.start [])))

theorem savedBook_cases {key : String} {v : Value} {s : Schema} {g x : Record}
    {rs : Except Error Unit × Record × List Command × Script}
    (h : savedBook key v = .ok (s, g, x, rs)) : loadedBook = .ok (s, g) ∧ g.set key v = .ok x ∧
      Record.save (Script.connection .sqlite).logged (x, ([], Script.start [])) = rs := by
  obtain ⟨⟨s', g'⟩, hbook, h⟩ := bind_eq_ok_iff.1 h
  obtain ⟨x', hx, h⟩ := bind_eq_ok_iff.1 h
  cases h
  exact ⟨hbook, hx, rfl⟩

/-- Whether the title is another one, in a column that no relation goes through. -/
def retitles : Bool :=
  match savedBook "title" (.text "Sky") with
  | .ok (s, g, _, .ok (), _) =>
    (g.table.column? "title").any fun c =>
      decide (Record.KeysApart s ∧ g.key ≠ .null ∧ c.primaryKey = false ∧
        g.holds c.name (.text "Sky") = false ∧ ∀ r ∈ g.table.references, r.column ≠ c.name)
  | _ => false

/-- The book gets another title. -/
theorem exists_retitled : ∃ s g x rs c, savedBook "title" (.text "Sky") =
    .ok (s, g, x, .ok (), rs) ∧ Record.KeysApart s ∧ g.key ≠ .null ∧
      g.table.column? "title" = some c ∧ c.primaryKey = false ∧
        g.holds c.name (.text "Sky") = false ∧ ∀ r ∈ g.table.references, r.column ≠ c.name := by
  have hall : retitles = true := by decide +kernel
  unfold retitles at hall
  split at hall
  · rename_i s g x rs h
    obtain ⟨c, hc, hcheck⟩ := (Option.any_eq_true _ _).1 hall
    obtain ⟨h1, h2, h3, h4, h5⟩ := of_decide_eq_true hcheck
    exact ⟨s, g, x, rs, c, h, h1, h2, hc, h3, h4, h5⟩
  · cases hall

end Library

namespace Record

/-- The new title is sent. -/
theorem title_kept : ∃ s g x rs c, Library.savedBook "title" (.text "Sky") =
    .ok (s, g, x, .ok (), rs) ∧ g.Sent c (.text "Sky") rs.2.1 ∧
      ∃ y, rs.1.at? [] = some y ∧ y.get? "title" = some (.text "Sky") := by
  obtain ⟨s, g, x, ⟨g', sent, s'⟩, c, h, hapart, hkey, hc, hpk, hv, hfree⟩ :=
    Library.exists_retitled
  obtain ⟨hbook, hset, hsave⟩ := Library.savedBook_cases h
  have hs := (Library.loadedBook_cases hbook).1
  have hg := Library.loadedBook_loaded hbook
  have haligned := hapart.aligned (Schema.ofDeclaration_sound hs) hg
  have hlinks : ¬g.Links [] c.name := by
    rintro (⟨x, hx, r, hr, hcol, -⟩ | ⟨q, y, r, -, i, -, -, hp⟩)
    · cases hx
      exact hfree r hr hcol
    · exact absurd hp.symm (List.append_ne_nil_of_right_ne_nil q (List.cons_ne_nil _ _))
  exact ⟨s, g, x, _, c, h, change_kept (Script.connection .sqlite) hs hg (p := []) rfl hkey hc hpk
    hset hv hlinks haligned hsave⟩

/-- A foreign key that is set is overwritten with the key of the record that was loaded. -/
theorem exists_change_lost : ∃ s g x rs, Library.savedBook "author_id" (.int 2) =
    .ok (s, g, x, .ok (), rs) ∧ g.Loaded s ∧ g.get? "author_id" = some (.int 1) ∧
      x.get? "author_id" = some (.int 2) ∧ rs.1.get? "author_id" = some (.int 1) := by
  have hall : (match Library.savedBook "author_id" (.int 2) with
      | .ok (_, g, x, .ok (), rs) => decide (g.get? "author_id" = some (.int 1) ∧
          x.get? "author_id" = some (.int 2) ∧ rs.1.get? "author_id" = some (.int 1))
      | _ => false) = true := by decide +kernel
  match h : Library.savedBook "author_id" (.int 2) with
  | .error e =>
    rw [h] at hall
    cases hall
  | .ok (s, g, x, .error e, rs) =>
    rw [h] at hall
    cases hall
  | .ok (s, g, x, .ok (), rs) =>
    simp only [h] at hall
    obtain ⟨h1, h2, h3⟩ := of_decide_eq_true hall
    exact ⟨s, g, x, rs, rfl, Library.loadedBook_loaded (Library.savedBook_cases h).1, h1, h2, h3⟩

end Record

end RecordGraph
