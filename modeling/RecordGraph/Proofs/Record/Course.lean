import RecordGraph.Proofs.Connection.Later
import RecordGraph.Proofs.Record.LoadedGraph

/-!
# What saving does to the records of a graph

Saving walks a graph. To each of its records it does no more than this: it points foreign keys at
related records, it writes the row, and it takes note that relations are saved. `Record.Kept` says
what a statement about a record must get over to hold of every record while the graph is saved.

**Results.**
* `Record.Follows`: a record in the course of being saved has its relations as before.
* `Record.update_cases`: what an update does.
* `Record.saveWithin_course`: what each step keeps, saving keeps at every place, whether it succeeds
  or fails half-way.
-/
namespace RecordGraph

/-- To one or to many records, and to how many. -/
def Related.shape {ρ : Type} (related : Related ρ) : Bool × Nat :=
  (related.isMany, related.toList.length)

@[simp] theorem Related.shape_set {ρ : Type} (related : Related ρ) (i : Nat) (r : ρ) :
    (related.set i r).shape = related.shape := by
  cases related with
  | one record => cases record <;> rfl
  | many records => simp [shape, set, toList, isMany]

theorem Related.shape_eq_one {ρ : Type} {related : Related ρ} (h : related.shape = (false, 1)) :
    ∃ r, related = .one (some r) := by
  match related with
  | .one (some r) => exact ⟨r, rfl⟩
  | .one none => cases h
  | .many _ => cases h

/-- A relation to one holds its record at the first place. -/
theorem Related.eq_one_of_getElem? {ρ : Type} {related : Related ρ} {i : Nat} {r : ρ}
    (hone : related.isMany = false) (h : related.toList[i]? = some r) :
    i = 0 ∧ related = .one (some r) := by
  match related, i with
  | .one none, i => cases h
  | .one (some _), 0 =>
    cases h
    exact ⟨rfl, rfl⟩
  | .one (some _), i + 1 => cases h
  | .many _, _ => cases hone

theorem Related.shape_eq_none {ρ : Type} {related : Related ρ} (h : related.shape = (false, 0)) :
    related = .one none := by
  match related with
  | .one (some r) => cases h
  | .one none => rfl
  | .many _ => cases h

variable {σ α β : Type}

/-! ## What leaves relations alone -/

/-- The action leaves the relations of the record alone, and only goes on to later states. -/
def Saving.Frames (db : Connection σ) (x : Session (Record × σ) α) : Prop :=
  ∀ rs, (x rs).2.1.table = rs.1.table ∧ (x rs).2.1.slots = rs.1.slots ∧ db.Later rs.2 (x rs).2.2

namespace Saving.Frames

variable {db : Connection σ}

theorem bind {x : Session (Record × σ) α} {f : α → Session (Record × σ) β} (hx : Frames db x)
    (hf : ∀ a, Frames db (f a)) : Frames db (x >>= f) := by
  intro rs
  refine Session.bind_keeps (P := fun rs' : Record × σ =>
    rs'.1.table = rs.1.table ∧ rs'.1.slots = rs.1.slots ∧ db.Later rs.2 rs'.2) (hx rs)
    fun a rs' _ h => ?_
  obtain ⟨ht, hs, hl⟩ := hf a rs'
  exact ⟨ht.trans h.1, hs.trans h.2.1, h.2.2.trans hl⟩

theorem pure (a : α) : Frames db (Pure.pure a : Session (Record × σ) α) :=
  fun _ => ⟨rfl, rfl, .refl _⟩

theorem throw (e : Error) : Frames db (MonadExcept.throw e : Session (Record × σ) α) :=
  fun _ => ⟨rfl, rfl, .refl _⟩

theorem ofExcept (x : Except Error α) : Frames db (Session.ofExcept x) :=
  fun _ => ⟨rfl, rfl, .refl _⟩

theorem record : Frames db (Saving.record : Saving σ Record) := fun _ => ⟨rfl, rfl, .refl _⟩

theorem change {f : Record → Record} (ht : ∀ r, (f r).table = r.table)
    (hs : ∀ r, (f r).slots = r.slots) : Frames db (Saving.change f : Saving σ Unit) :=
  fun rs => ⟨ht rs.1, hs rs.1, .refl _⟩

theorem onSecond {x : Session σ α} (hx : db.Ages x) : Frames db (x.onSecond (τ := Record)) :=
  fun rs => ⟨rfl, rfl, hx rs.2⟩

theorem nextVersion (previous : Option Int64) :
    Frames db (Session.lift (stateOnSecond (τ := Record) (db.nextVersion previous))) :=
  fun rs => ⟨rfl, rfl, fun _ hP hs => hP.nextVersion previous rs.2 hs⟩

theorem freshUuid : Frames db (Session.lift (stateOnSecond (τ := Record) db.freshUuid)) :=
  fun rs => ⟨rfl, rfl, fun _ hP hs => hP.freshUuid rs.2 hs⟩

theorem freshUlid : Frames db (Session.lift (stateOnSecond (τ := Record) db.freshUlid)) :=
  fun rs => ⟨rfl, rfl, fun _ hP hs => hP.freshUlid rs.2 hs⟩

end Saving.Frames

namespace Record

open Saving (Frames)

variable (db : Connection σ)

theorem makeKey_frames : Frames db (makeKey db) := by
  refine .bind .record fun r => ?_
  dsimp only
  split
  · split
    · exact .bind .freshUuid fun u => .change (fun _ => assign_table ..) fun _ => assign_slots ..
    · exact .bind .freshUlid fun u => .change (fun _ => assign_table ..) fun _ => assign_slots ..
    · exact .pure _
  · exact .pure _

theorem takeKey_frames (assigned : Option Value) : Frames db (takeKey (σ := σ) assigned) := by
  refine .bind .record fun r => ?_
  split
  · split
    · exact .change (fun _ => rfl) fun _ => rfl
    · exact .throw _
  · exact .pure _

theorem insert_frames : Frames db (insert db) := by
  have hrest : ∀ t : Table, Frames db (do
      let r ← Saving.record
      let assigned ← (db.insert t r.insertFields).onSecond
      takeKey assigned
      Saving.change written : Saving σ Unit) := fun t =>
    .bind .record fun r => .bind (.onSecond (Connection.insert_ages t _)) fun a =>
      .bind (takeKey_frames db a) fun _ => .change (fun _ => rfl) fun _ => rfl
  refine .bind (makeKey_frames db) fun _ => .bind .record fun r => ?_
  dsimp only
  split
  · exact .bind (.nextVersion _) fun v => .bind (.change (fun _ => rfl) fun _ => rfl) fun _ =>
      hrest _
  · exact hrest _

theorem update_frames : Frames db (update db) := by
  have hend : ∀ (touched : Nat) (e : Error) (f : Record → Record), (∀ r, (f r).table = r.table) →
      (∀ r, (f r).slots = r.slots) → Frames db (do
        if touched = 0 then throw e
        Saving.change f : Saving σ Unit) := by
    intro touched e f ht hs
    split
    · exact .bind (.throw e) fun _ => .change ht hs
    · exact .change ht hs
  refine .bind .record fun r => .bind (.ofExcept _) fun guard => ?_
  dsimp only
  split
  · exact .change (fun _ => rfl) fun _ => rfl
  · split
    · exact .bind (.ofExcept _) fun previous => .bind (.nextVersion _) fun v =>
        .bind (.onSecond (.execute _)) fun touched =>
          hend touched _ _ (fun _ => rfl) fun _ => rfl
    · exact .bind (.onSecond (.execute _)) fun touched =>
        hend touched _ _ (fun _ => rfl) fun _ => rfl

/-- Writing the row leaves the relations alone. -/
theorem write_frames : Frames db (write db) := by
  refine .bind .record fun r => ?_
  split
  · exact insert_frames db
  · split
    · exact update_frames db
    · exact .pure _

/-- What an update has done when it went well. -/
structure Updated (r : Record) (rs : Record × σ) : Prop where
  record : rs.1 = r.clean ∨
    ∃ lock v, r.table.lockColumn? = some lock ∧ rs.1 = (r.put lock.name (.int v)).clean
  /-- The changed columns were sent, with the key. -/
  sent : r.updateFields = [] ∨ ∃ guard set s', r.guardFields = .ok guard ∧
    r.updateFields ⊆ set ∧ rs.2 = (db.execute (.update r.table set guard) s').2

/-- A guarded write does nothing to the record, or succeeds. -/
theorem guarded_cases (c : Command) (e : Error) (f : Record → Record) (r : Record) (s : σ) :
    let x : Saving σ Unit := do
      let touched ← (db.execute c).onSecond
      if touched = 0 then throw e
      Saving.change f
    (∃ e s', x (r, s) = (.error e, (r, s'))) ∨ x (r, s) = (.ok (), (f r, (db.execute c s).2)) := by
  intro x
  have hrun : x (r, s) = _ := guarded_run db c e f r s
  rw [hrun]
  rcases db.execute c s with ⟨e' | touched, s'⟩
  · exact .inl ⟨e', s', rfl⟩
  · by_cases ht : touched = 0
    · exact .inl ⟨e, s', if_pos ht⟩
    · exact .inr (if_neg ht)

/-- An update that fails leaves the record as it is. -/
theorem update_cases (r : Record) (s : σ) : (∃ e s', update db (r, s) = (.error e, (r, s'))) ∨
    ∃ rs, update db (r, s) = (.ok (), rs) ∧ Updated db r rs := by
  rw [update, Saving.record_bind]
  rw [Session.bind_run, Session.ofExcept_run]
  cases hg : r.guardFields with
  | error e => exact .inl ⟨e, s, rfl⟩
  | ok guard =>
    simp only
    split
    · rename_i hset
      exact .inr ⟨_, rfl, .inl rfl, .inl (List.isEmpty_iff.1 hset)⟩
    · cases hl : r.table.lockColumn? with
      | none =>
        refine (guarded_cases db (.update r.table r.updateFields guard) r.lost clean r s).imp_right
          fun h => ⟨_, h, .inl rfl, .inr ⟨guard, _, s, hg, List.Subset.refl _, rfl⟩⟩
      | some lock =>
        simp only
        rw [Session.bind_run, Session.ofExcept_run]
        cases r.version lock with
        | error e => exact .inl ⟨e, s, rfl⟩
        | ok previous =>
          simp only
          rw [Session.bind_run, Session.lift_run, stateOnSecond_run]
          obtain ⟨v, s₁⟩ := db.nextVersion (some previous) s
          refine (guarded_cases db (.update r.table (r.updateFields ++ [⟨lock, .int v⟩]) guard)
            r.lost (fun r => (r.put lock.name (.int v)).clean) r s₁).imp_right fun h =>
              ⟨_, h, .inr ⟨lock, v, hl, rfl⟩,
                .inr ⟨guard, _, s₁, hg, List.subset_append_left _ _, rfl⟩⟩

/-! ## Records in the course of being saved -/

/-- `y` is `x` in the course of being saved: the relations keep their shape, and none is
replaced. -/
structure Follows (x y : Record) : Prop where
  table : y.table = x.table
  shape : ∀ identifier, (y.slots.find? identifier).map (·.related.shape) =
    (x.slots.find? identifier).map (·.related.shape)
  modified : ∀ identifier old slot, x.slots.find? identifier = some old →
    y.slots.find? identifier = some slot → slot.modified = true → old.modified = true

theorem Follows.refl (x : Record) : x.Follows x := ⟨rfl, fun _ => rfl, fun _ old slot ho hs hm => by
  rw [ho] at hs
  cases hs
  exact hm⟩

theorem Follows.of_slots {x y y' : Record} (h : x.Follows y) (ht : y'.table = y.table)
    (hs : y'.slots = y.slots) : x.Follows y' :=
  ⟨ht.trans h.table, by rw [hs]; exact h.shape, by rw [hs]; exact h.modified⟩

/-- Where a slot is changed, it keeps its shape and is not replaced. -/
theorem Follows.modify {x y : Record} (h : x.Follows y) {identifier : String}
    {f : Slot Record → Slot Record} (hshape : ∀ slot, (f slot).related.shape = slot.related.shape)
    (hmod : ∀ slot, (f slot).modified = true → slot.modified = true) :
    x.Follows { y with slots := y.slots.modify identifier f } := by
  refine ⟨h.table, fun other => ?_, fun other old slot ho hs hm => ?_⟩
  · rw [← h.shape other, NameMap.find?_modify]
    split
    · rw [Option.map_map]
      exact Option.map_congr fun slot _ => hshape slot
    · rfl
  · rw [NameMap.find?_modify] at hs
    split at hs
    · obtain ⟨slot', hs', rfl⟩ := Option.map_eq_some_iff.1 hs
      exact h.modified other old slot' ho hs' (hmod slot' hm)
    · exact h.modified other old slot ho hs hm

/-- The relations of both records are loaded alike. -/
theorem Follows.slot {x y : Record} (h : x.Follows y) {identifier : String} {slot : Slot Record}
    (hs : y.slots.find? identifier = some slot) :
    ∃ old, x.slots.find? identifier = some old ∧ slot.related.shape = old.related.shape ∧
      (slot.modified = true → old.modified = true) := by
  have hshape := h.shape identifier
  cases ho : x.slots.find? identifier with
  | none =>
    rw [hs, ho] at hshape
    cases hshape
  | some old =>
    rw [hs, ho] at hshape
    exact ⟨old, rfl, Option.some.inj hshape, h.modified identifier old slot ho hs⟩

theorem Follows.length_related {x y : Record} (h : x.Follows y) (identifier : String) :
    (y.related identifier).length = (x.related identifier).length := by
  have hshape := h.shape identifier
  cases hs : y.slots.find? identifier with
  | none =>
    cases ho : x.slots.find? identifier with
    | none => rw [related_eq_nil hs, related_eq_nil ho]
    | some old =>
      rw [hs, ho] at hshape
      cases hshape
  | some slot =>
    obtain ⟨old, ho, hshape, -⟩ := h.slot hs
    rw [related_eq hs, related_eq ho]
    exact congrArg Prod.snd hshape

/-- Both have as many related records. -/
theorem Follows.isSome_child? {x y : Record} (h : x.Follows y) (identifier : String) (i : Nat) :
    (y.child? identifier i).isSome = (x.child? identifier i).isSome := by
  rw [child?, child?, Bool.eq_iff_iff]
  simp [h.length_related]

theorem Follows.formed {x y : Record} (h : x.Follows y) (hx : x.Formed) : y.Formed := by
  intro identifier slot hslot
  obtain ⟨old, hold, hshape, -⟩ := h.slot hslot
  have hmany : slot.related.isMany = old.related.isMany := congrArg Prod.fst hshape
  have hplural := hx identifier old hold
  rw [isPlural?, h.table, ← isPlural?, hmany]
  exact hplural

/-- Where every record of a graph is in the course of being saved, there are no other records. -/
theorem exists_follows_of_at? {p : Place} {a b y : Record}
    (h : ∀ p x, a.at? p = some x → ∃ y, b.at? p = some y ∧ x.Follows y) (hy : b.at? p = some y) :
    ∃ x, a.at? p = some x ∧ x.Follows y := by
  induction p generalizing a b with
  | nil =>
    obtain ⟨y', hy', hf⟩ := h [] a rfl
    exact ⟨a, rfl, Option.some.inj (hy'.symm.trans hy) ▸ hf⟩
  | cons step p ih =>
    obtain ⟨identifier, i⟩ := step
    obtain ⟨d, hd, hdy⟩ := at?_cons_eq_some_iff.1 hy
    obtain ⟨b', hb', hf⟩ := h [] a rfl
    cases hb'
    have hsome := hf.isSome_child? identifier i
    rw [hd] at hsome
    obtain ⟨c, hc⟩ := Option.isSome_iff_exists.1 hsome.symm
    have hbelow : ∀ q x, c.at? q = some x → ∃ z, d.at? q = some z ∧ x.Follows z := by
      intro q x hx
      obtain ⟨z, hz, hxz⟩ := h ((identifier, i) :: q) x (at?_cons_eq_some_iff.2 ⟨c, hc, hx⟩)
      obtain ⟨d', hd', hz⟩ := at?_cons_eq_some_iff.1 hz
      obtain rfl := Option.some.inj (hd.symm.trans hd')
      exact ⟨z, hz, hxz⟩
    obtain ⟨x, hx, hxy⟩ := ih hbelow hdy
    exact ⟨x, at?_cons_eq_some_iff.2 ⟨c, hc, hx⟩, hxy⟩

/-- What is said of a record `x`, of what has become of it, and of the database, and what saving
does to it. Only records that are `ok` are saved. -/
structure Kept (ok : Record → Prop) (tie : Record → Record → σ → Prop) : Prop where
  later : ∀ {x y s s'}, tie x y s → db.Later s s' → tie x y s'
  sameRow : ∀ {x y y' s}, tie x y s → y.SameRow y' → tie x y' s
  /-- A foreign key is pointed at the record of a relation. -/
  reference : ∀ {x y u v : Record} {reference slot s} (modified : Bool), ok x → x.Follows y →
    tie x y s → reference ∈ x.table.references →
    x.slots.find? reference.identifier = some slot → slot.related = .one (some u) → tie u v s →
      tie x (y.relink reference.column v.key modified) s
  /-- The record of a relation was taken away. -/
  emptied : ∀ {x y : Record} {reference slot s} (modified : Bool), ok x → x.Follows y →
    tie x y s → reference ∈ x.table.references →
    x.slots.find? reference.identifier = some slot → slot.related = .one none →
    slot.modified = true → tie x (y.relink reference.column .null modified) s
  /-- A foreign key is pointed at the record that the relation starts from. -/
  reverse : ∀ {x y u v : Record} {reverse i s} (modified : Bool), ok x → tie x y s →
    reverse ∈ x.table.reverses → x.child? reverse.identifier i = some u → u.Follows v →
    tie u v s → tie u (v.relink reverse.column y.key modified) s
  write : ∀ {x y s}, ok x → x.Follows y → tie x y s →
    tie x (write db (y, s)).2.1 (write db (y, s)).2.2

/-- Every record of `a` stands in the graph at hand, in the course of being saved from a state `s₀`
on, and it is as `tie` says. -/
def Course (tie : Record → Record → σ → Prop) (a : Record) (s₀ : σ) (rs : Record × σ) : Prop :=
  db.Later s₀ rs.2 ∧
    ∀ p x, a.at? p = some x → ∃ y, rs.1.at? p = some y ∧ x.Follows y ∧ tie x y rs.2

variable {db} {ok : Record → Prop} {tie : Record → Record → σ → Prop}

theorem Course.refl {a : Record} {s : σ} (h : ∀ p x, a.at? p = some x → tie x x s) :
    Course db tie a s (a, s) :=
  ⟨.refl s, fun p x hx => ⟨x, hx, .refl x, h p x hx⟩⟩

namespace Course

variable {a r : Record} {s₀ s : σ}

theorem root (h : Course db tie a s₀ (r, s)) : a.Follows r ∧ tie a r s := by
  obtain ⟨y, hy, hf, ht⟩ := h.2 [] a rfl
  cases hy
  exact ⟨hf, ht⟩

/-- From here on. -/
theorem restart (h : Course db tie a s₀ (r, s)) : Course db tie a s (r, s) := ⟨.refl s, h.2⟩

/-- What stands below a record is in the course of being saved, too. -/
theorem child (h : Course db tie a s₀ (r, s)) {identifier : String} {i : Nat} {b c : Record}
    (hb : a.child? identifier i = some b) (hc : r.child? identifier i = some c) :
    Course db tie b s (c, s) := by
  refine ⟨.refl s, fun p x hx => ?_⟩
  obtain ⟨y, hy, hf⟩ := h.2 ((identifier, i) :: p) x (at?_cons_eq_some_iff.2 ⟨b, hb, hx⟩)
  obtain ⟨c', hc', hy⟩ := at?_cons_eq_some_iff.1 hy
  obtain rfl : c = c' := Option.some.inj (hc.symm.trans hc')
  exact ⟨y, hy, hf⟩

/-- The record of a relation to one. -/
theorem one (h : Course db tie a s₀ (r, s)) {identifier : String} {old : Slot Record} {b : Record}
    (ho : a.slots.find? identifier = some old) (hb : old.related = .one (some b)) :
    ∃ c, r.one? identifier = some c ∧ tie b c s := by
  have hac : a.child? identifier 0 = some b := by
    rw [child?, related_eq ho, hb]
    rfl
  have hshape := h.root.1.shape identifier
  rw [ho] at hshape
  obtain ⟨slot, hs, hshape⟩ := Option.map_eq_some_iff.1 hshape
  obtain ⟨c, hc⟩ := Related.shape_eq_one (hshape.trans (congrArg Related.shape hb))
  have hrc : r.child? identifier 0 = some c := by
    rw [child?, related_eq hs, hc]
    rfl
  refine ⟨c, ?_, (h.child hac hrc).root.2⟩
  simp only [one?, relation?, hs, Option.map_some, hc]

variable (hk : Kept db ok tie)
include hk

/-- A change of the record at hand, later on; what stands below it is still there. -/
theorem change (h : Course db tie a s₀ (r, s)) {r' : Record} {s' : σ} (hf : a.Follows r')
    (ht : tie a r' s') (hl : db.Later s s')
    (hc : ∀ identifier i, r'.child? identifier i = r.child? identifier i) :
    Course db tie a s₀ (r', s') := by
  refine ⟨h.1.trans hl, fun p x hx => ?_⟩
  cases p with
  | nil =>
    cases hx
    exact ⟨r', rfl, hf, ht⟩
  | cons step p =>
    obtain ⟨identifier, i⟩ := step
    obtain ⟨y, hy, hxy, hty⟩ := h.2 _ x hx
    obtain ⟨c, hrc, hy⟩ := at?_cons_eq_some_iff.1 hy
    exact ⟨y, at?_cons_eq_some_iff.2 ⟨c, (hc identifier i).trans hrc, hy⟩, hxy, hk.later hty hl⟩

/-- A change of the row. -/
theorem changeRow (h : Course db tie a s₀ (r, s)) {r' : Record} {s' : σ}
    (htable : r'.table = r.table) (hslots : r'.slots = r.slots) (hl : db.Later s s')
    (ht : tie a r' s') : Course db tie a s₀ (r', s') := by
  refine h.change hk (h.root.1.of_slots htable hslots) ht hl fun identifier i => ?_
  have hrel : r'.related identifier = r.related identifier := related_congr (by rw [hslots])
  rw [child?, child?, hrel]

theorem settle (h : Course db tie a s₀ (r, s)) (identifier : String) :
    Course db tie a s₀ (r.settle identifier, s) := by
  refine h.change hk (h.root.1.modify (fun _ => rfl) fun _ hm => by cases hm)
    (hk.sameRow h.root.2 (sameRow_settle ..)) (.refl s) fun other i => ?_
  rw [child?, child?, related_settle]

/-- A related record that goes on being saved. -/
theorem setRelated (h : Course db tie a s₀ (r, s)) {identifier : String} {i : Nat}
    {b c c' : Record} {s' : σ} (hb : a.child? identifier i = some b)
    (hc : r.child? identifier i = some c) (hc' : Course db tie b s (c', s')) :
    Course db tie a s₀ (r.setRelated identifier i c', s') := by
  refine ⟨h.1.trans hc'.1, fun p x hx => ?_⟩
  cases p with
  | nil =>
    cases hx
    refine ⟨_, rfl, h.root.1.modify (fun slot => Related.shape_set ..) fun _ hm => hm, ?_⟩
    exact hk.later (hk.sameRow h.root.2 (sameRow_setRelated ..)) hc'.1
  | cons step p =>
    obtain ⟨other, k⟩ := step
    by_cases hstep : (other, k) = (identifier, i)
    · cases hstep
      obtain ⟨b', hb', hx⟩ := at?_cons_eq_some_iff.1 hx
      obtain rfl : b = b' := Option.some.inj (hb.symm.trans hb')
      obtain ⟨y, hy, hxy⟩ := hc'.2 p x hx
      exact ⟨y, at?_cons_eq_some_iff.2 ⟨c', child?_setRelated_self hc c', hy⟩, hxy⟩
    · obtain ⟨y, hy, hxy, hty⟩ := h.2 _ x hx
      obtain ⟨d, hd, hy⟩ := at?_cons_eq_some_iff.1 hy
      refine ⟨y, at?_cons_eq_some_iff.2 ⟨d, ?_, hy⟩, hxy, hk.later hty hc'.1⟩
      rw [child?_setRelated_of_ne c' hstep, hd]

/-- A foreign key that is pointed somewhere. -/
theorem relink (h : Course db tie a s₀ (r, s)) {column : String} {key : Value} {modified : Bool}
    (ht : tie a (r.relink column key modified) s) :
    Course db tie a s₀ (r.relink column key modified, s) :=
  h.changeRow hk (relink_table ..) (relink_slots ..) (.refl s) ht

theorem write (h : Course db tie a s₀ (r, s)) (ha : ok a) :
    Course db tie a s₀ (Record.write db (r, s)).2 := by
  obtain ⟨ht, hs, hl⟩ := write_frames db (r, s)
  exact h.changeRow hk ht hs hl (hk.write ha h.root.1 h.root.2)

end Course

/-! ## Saving step by step -/

variable (db) in
/-- What is saved behind a record, for it needs the key. -/
def saveBehind (save : Saving σ Unit) (table : Table) (key : Value) : Saving σ Unit := do
  table.reverses.forM (saveReverse save key)
  table.manyManys.forM (saveManyMany db save key)

theorem saveWithin_succ (n : Nat) (r : Record) (s : σ) : saveWithin db (n + 1) (r, s) = (do
    r.table.references.forM (saveReference (saveWithin db n))
    write db
    let r' ← Saving.record
    saveBehind db (saveWithin db n) r.table r'.key : Saving σ Unit) (r, s) := rfl

section
variable (hk : Kept db ok tie) {a r : Record} {s₀ s : σ}
include hk

/-- What is saved below a record goes on being saved. -/
theorem onRelated_course {save : Saving σ Unit} {identifier : String} {i : Nat}
    (h : Course db tie a s₀ (r, s)) (hsave : ∀ b c s', db.Later s₀ s' →
      a.child? identifier i = some b → Course db tie b s' (c, s') →
        Course db tie b s' (save (c, s')).2) :
    Course db tie a s₀ (Saving.onRelated identifier i save (r, s)).2 := by
  cases hc : r.child? identifier i with
  | none => rwa [Saving.onRelated_run_none hc]
  | some c =>
    have hsome := h.root.1.isSome_child? identifier i
    rw [hc] at hsome
    obtain ⟨b, hb⟩ := Option.isSome_iff_exists.1 hsome.symm
    rw [Saving.onRelated_run hc]
    exact h.setRelated hk hb hc (hsave b c s h.1 hb (h.child hb hc))

theorem onEach_course {save : Saving σ Unit} {identifier : String} (h : Course db tie a s₀ (r, s))
    (hsave : ∀ i b c s', db.Later s₀ s' → a.child? identifier i = some b →
      Course db tie b s' (c, s') → Course db tie b s' (save (c, s')).2) :
    Course db tie a s₀ (Saving.onEach identifier save (r, s)).2 := by
  rw [Saving.onEach, Saving.record_bind]
  exact Session.forM_keeps (P := Course db tie a s₀)
    (fun i _ ⟨r, s⟩ h => onRelated_course hk h (hsave i)) h

/-- The links of two rows are rows of their own. -/
theorem run_course (c : Command) {rs : Record × σ} (h : Course db tie a s₀ rs) :
    Course db tie a s₀ ((db.run c).onSecond rs).2 := by
  have hl : db.Later rs.2 (db.run c rs.2).2 := Connection.Ages.run c rs.2
  exact h.changeRow hk rfl rfl hl (hk.later h.root.2 hl)

variable {save : Saving σ Unit} (hsave : ∀ identifier i b c s', a.child? identifier i = some b →
  Course db tie b s' (c, s') → Course db tie b s' (save (c, s')).2)
include hsave

theorem saveReference_course (ha : ok a) {reference : Reference}
    (hr : reference ∈ a.table.references) (h : Course db tie a s₀ (r, s)) :
    Course db tie a s₀ (saveReference save reference (r, s)).2 := by
  let P : Record × σ → Prop := Course db tie a s₀
  rw [saveReference, Saving.record_bind]
  cases hslot : r.slots.find? reference.identifier with
  | none => exact h
  | some slot =>
    obtain ⟨old, hold, hshape, hmod⟩ := h.root.1.slot hslot
    obtain ⟨related, modified⟩ := slot
    cases related with
    | many records => exact h.settle hk reference.identifier
    | one record =>
      simp only
      refine Session.bind_keeps (P := P) (onEach_course hk h fun i b c s' _ => hsave _ i b c s')
        fun _ rs _ h1 => ?_
      obtain ⟨r₁, s₁⟩ := rs
      rw [Saving.record_bind]
      have hsettled := h1.settle hk reference.identifier
      cases record with
      | none =>
        have hnone : old.related = .one none := Related.shape_eq_none hshape.symm
        cases hm : modified with
        | false => exact hsettled
        | true =>
          exact hsettled.relink hk (hk.emptied true ha hsettled.root.1 hsettled.root.2 hr hold
            hnone (hmod hm))
      | some target =>
        obtain ⟨u, hu⟩ := Related.shape_eq_one (hshape.symm : old.related.shape = (false, 1))
        -- the target has been saved meanwhile
        obtain ⟨v, hone, hv⟩ := h1.one hold hu
        simp only [hone, Option.map_some]
        exact hsettled.relink hk (hk.reference modified ha hsettled.root.1 hsettled.root.2 hr
          hold hu hv)

theorem saveReverse_course (ha : ok a) {reverse : Reverse} (hr : reverse ∈ a.table.reverses)
    {y : Record} (hy : tie a y s₀) (h : Course db tie a s₀ (r, s)) :
    Course db tie a s₀ (saveReverse save y.key reverse (r, s)).2 := by
  rw [saveReverse, Saving.record_bind]
  cases hslot : r.slots.find? reverse.identifier with
  | none => exact h
  | some slot =>
    refine Session.bind_keeps (P := Course db tie a s₀) (onEach_course hk h
      fun i b c s' hl hb hbc => ?_) fun _ _ _ h1 => h1.settle hk reverse.identifier
    refine hsave _ i b _ s' hb (hbc.relink hk ?_)
    exact hk.reverse slot.modified ha (hk.later hy hl) hr hb hbc.root.1 hbc.root.2

theorem saveManyMany_course (key : Value) (relation : ManyMany) (h : Course db tie a s₀ (r, s)) :
    Course db tie a s₀ (saveManyMany db save key relation (r, s)).2 := by
  let P : Record × σ → Prop := Course db tie a s₀
  rw [saveManyMany, Saving.record_bind]
  cases hslot : r.slots.find? relation.identifier with
  | none => exact h
  | some slot =>
    refine Session.bind_keeps (P := P) (onEach_course hk h fun i b c s' _ => hsave _ i b c s')
      fun _ rs _ h1 => ?_
    obtain ⟨r₁, s₁⟩ := rs
    split
    · rw [Saving.record_bind]
      refine Session.bind_keeps (P := P) (run_course hk _ h1) fun _ _ _ h2 => ?_
      refine Session.bind_keeps (P := P) (Session.forM_keeps (fun target _ rs h => ?_) h2)
        fun _ _ _ h3 => h3.settle hk relation.identifier
      exact run_course hk _ h
    · exact h1.settle hk relation.identifier

/-- First what a record refers to is saved. -/
theorem references_course (ha : ok a) (h : Course db tie a s₀ (r, s)) :
    Course db tie a s₀ (a.table.references.forM (saveReference save) (r, s)).2 :=
  Session.forM_keeps (P := Course db tie a s₀)
    (fun _ hr ⟨_, _⟩ h => saveReference_course hk hsave ha hr h) h

theorem reverses_course (ha : ok a) {y : Record} (hy : tie a y s₀)
    (h : Course db tie a s₀ (r, s)) :
    Course db tie a s₀ (a.table.reverses.forM (saveReverse save y.key) (r, s)).2 :=
  Session.forM_keeps (P := Course db tie a s₀)
    (fun _ hr ⟨_, _⟩ h => saveReverse_course hk hsave ha hr hy h) h

theorem manyManys_course (key : Value) (h : Course db tie a s₀ (r, s)) :
    Course db tie a s₀ (a.table.manyManys.forM (saveManyMany db save key) (r, s)).2 :=
  Session.forM_keeps (P := Course db tie a s₀)
    (fun _ _ ⟨_, _⟩ h => saveManyMany_course hk hsave key _ h) h

theorem behind_course (ha : ok a) {y : Record} (hy : tie a y s₀) (h : Course db tie a s₀ (r, s)) :
    Course db tie a s₀ (saveBehind db save a.table y.key (r, s)).2 :=
  Session.bind_keeps (P := Course db tie a s₀) (reverses_course hk hsave ha hy h)
    fun _ ⟨_, _⟩ _ h1 => manyManys_course hk hsave y.key h1

/-- Then the record is written, and what needs its key is saved. -/
theorem write_behind_course (ha : ok a) (h : Course db tie a s₀ (r, s)) :
    Course db tie a s₀ ((do
      write db
      let r' ← Saving.record
      saveBehind db save a.table r'.key : Saving σ Unit) (r, s)).2 := by
  refine Session.bind_keeps (P := Course db tie a s₀) (h.write hk ha) fun _ ⟨r₁, s₁⟩ _ h1 => ?_
  rw [Saving.record_bind]
  have hend := behind_course hk hsave ha h1.root.2 h1.restart
  exact ⟨h1.1.trans hend.1, hend.2⟩

end

/-- **What saving keeps.** What every step keeps holds at every place of the graph, whatever becomes
of saving it. -/
theorem saveWithin_course (hk : Kept db ok tie) (n : Nat) {a r : Record} {s₀ s : σ}
    (ha : ∀ p x, a.at? p = some x → ok x) (h : Course db tie a s₀ (r, s)) :
    Course db tie a s₀ (saveWithin db n (r, s)).2 := by
  -- on how deep related records are nested
  induction n generalizing a r s₀ s with
  | zero => exact h
  | succ n ih =>
    have hroot : ok a := ha [] a rfl
    have hsave : ∀ identifier i b c s', a.child? identifier i = some b →
        Course db tie b s' (c, s') → Course db tie b s' (saveWithin db n (c, s')).2 :=
      fun identifier i b c s' hb hbc => ih (fun p x hx =>
        ha ((identifier, i) :: p) x (at?_cons_eq_some_iff.2 ⟨b, hb, hx⟩)) hbc
    rw [saveWithin_succ, h.root.1.table]
    exact Session.bind_keeps (P := Course db tie a s₀) (references_course hk hsave hroot h)
      fun _ ⟨r₁, s₁⟩ _ h1 => write_behind_course hk hsave hroot h1

/-- What is saved below a graph goes on being saved. -/
theorem saveWithin_below (hk : Kept db ok tie) (n : Nat) {a : Record}
    (ha : ∀ p x, a.at? p = some x → ok x) : ∀ identifier i b c s', a.child? identifier i = some b →
      Course db tie b s' (c, s') → Course db tie b s' (saveWithin db n (c, s')).2 :=
  fun identifier i b _ _ hb hbc => saveWithin_course hk n
    (fun p x hx => ha ((identifier, i) :: p) x (at?_cons_eq_some_iff.2 ⟨b, hb, hx⟩)) hbc

/-! ## What successful saving reaches -/

section
variable (hk : Kept db ok tie) {goal : σ → Prop} (hgoal : db.Keeps goal) {a r : Record} {s₀ s : σ}
  {save : Saving σ Unit} (hsave : ∀ identifier i b c s', a.child? identifier i = some b →
    Course db tie b s' (c, s') → Course db tie b s' (save (c, s')).2)
include hk hgoal

/-- Where each record of a relation is saved, what that brings about stays. -/
theorem onEach_reaches {save : Saving σ Unit} {identifier : String} {i : Nat} {b : Record}
    (h : Course db tie a s₀ (r, s)) (hsave : ∀ i b c s', db.Later s₀ s' →
      a.child? identifier i = some b → Course db tie b s' (c, s') →
        Course db tie b s' (save (c, s')).2)
    (hb : a.child? identifier i = some b) (hgo : ∀ c s' rs, db.Later s₀ s' →
      Course db tie b s' (c, s') → save (c, s') = (.ok (), rs) → goal rs.2)
    {rs : Record × σ} (hok : Saving.onEach identifier save (r, s) = (.ok (), rs)) : goal rs.2 := by
  have hchild : ∀ {r : Record} {s : σ}, Course db tie a s₀ (r, s) →
      ∃ c, r.child? identifier i = some c := fun h =>
    Option.isSome_iff_exists.1 ((h.root.1.isSome_child? identifier i).trans (by rw [hb]; rfl))
  obtain ⟨c, hc⟩ := hchild h
  rw [Saving.onEach, Saving.record_bind] at hok
  refine Session.forM_of_mem (P := Course db tie a s₀) (K := fun rs => goal rs.2)
    (List.mem_range.2 (List.getElem?_eq_some_iff.1 hc).1)
    (fun k _ ⟨r, s⟩ h => onRelated_course hk h (hsave k)) (fun k _ ⟨r, s⟩ h hg => ?_)
    (fun ⟨r, s⟩ rs h hok => ?_) h hok
  · exact (onRelated_course hk h.restart fun b c s' hl => hsave k b c s' (h.1.trans hl)).1
      goal hgoal hg
  · obtain ⟨c, hc⟩ := hchild h
    rw [Saving.onRelated_run hc] at hok
    obtain ⟨hout, hrs⟩ := Prod.mk.inj hok
    rw [← hrs]
    have hsaved : save (c, s) = (.ok (), (save (c, s)).2) := Prod.ext hout rfl
    exact hgo c s (save (c, s)).2 h.1 (h.child hb hc) hsaved

include hsave

theorem saveReference_reaches {reference : Reference} {old : Slot Record}
    (hold : a.slots.find? reference.identifier = some old) (hone : old.related.isMany = false)
    {i : Nat} {b : Record} (hb : a.child? reference.identifier i = some b)
    (hgo : ∀ c s' rs, Course db tie b s' (c, s') → save (c, s') = (.ok (), rs) → goal rs.2)
    (h : Course db tie a s₀ (r, s)) {rs : Record × σ}
    (hok : saveReference save reference (r, s) = (.ok (), rs)) : goal rs.2 := by
  let K : Record × σ → Prop := fun rs => goal rs.2
  have hshape := h.root.1.shape reference.identifier
  rw [hold] at hshape
  obtain ⟨slot, hslot, hshape⟩ := Option.map_eq_some_iff.1 hshape
  rw [saveReference, Saving.record_bind] at hok
  obtain ⟨related, modified⟩ := slot
  cases related with
  | many records =>
    have hmany : true = old.related.isMany := congrArg Prod.fst hshape
    rw [hone] at hmany
    cases hmany
  | one record =>
    simp only [hslot] at hok
    refine Session.bind_brings (K := K) hok (fun _ rs h1 => onEach_reaches hk hgoal h
      (fun i b c s' _ => hsave _ i b c s') hb (fun c s' rs _ => hgo c s' rs) h1) fun _ rs hg => ?_
    refine Session.bind_keeps (P := K) hg fun r₁ rs₁ _ hg => ?_
    refine Session.bind_keeps (P := K) hg fun _ rs₂ _ hg => ?_
    cases record with
    | none => cases modified <;> exact hg
    | some target => cases r₁.one? reference.identifier <;> exact hg

theorem saveReverse_reaches (ha : ok a) {reverse : Reverse} (hr : reverse ∈ a.table.reverses)
    {old : Slot Record} (hold : a.slots.find? reverse.identifier = some old) {y : Record}
    (hy : tie a y s₀) {i : Nat} {b : Record} (hb : a.child? reverse.identifier i = some b)
    (hgo : ∀ c s' rs, Course db tie b s' (c, s') → save (c, s') = (.ok (), rs) → goal rs.2)
    (h : Course db tie a s₀ (r, s)) {rs : Record × σ}
    (hok : saveReverse save y.key reverse (r, s) = (.ok (), rs)) : goal rs.2 := by
  have hshape := h.root.1.shape reverse.identifier
  rw [hold] at hshape
  obtain ⟨slot, hslot, -⟩ := Option.map_eq_some_iff.1 hshape
  have hrelink : ∀ {i b c s'}, db.Later s₀ s' → a.child? reverse.identifier i = some b →
      Course db tie b s' (c, s') →
        Course db tie b s' (c.relink reverse.column y.key slot.modified, s') :=
    fun hl hb hbc => hbc.relink hk (hk.reverse slot.modified ha (hk.later hy hl) hr hb
      hbc.root.1 hbc.root.2)
  rw [saveReverse, Saving.record_bind] at hok
  simp only [hslot] at hok
  refine Session.bind_brings (K := fun rs : Record × σ => goal rs.2) hok
    (fun _ rs h1 => onEach_reaches hk hgoal h (fun i b c s' hl hb hbc => ?_) hb
      (fun c s' rs hl hbc hx => ?_) h1) fun _ _ hg => hg
  · exact hsave _ i b _ s' hb (hrelink hl hb hbc)
  · exact hgo _ s' rs (hrelink hl hb hbc) hx

theorem saveManyMany_reaches {key : Value} {relation : ManyMany} {old : Slot Record}
    (hold : a.slots.find? relation.identifier = some old) {i : Nat} {b : Record}
    (hb : a.child? relation.identifier i = some b)
    (hgo : ∀ c s' rs, Course db tie b s' (c, s') → save (c, s') = (.ok (), rs) → goal rs.2)
    (h : Course db tie a s₀ (r, s)) {rs : Record × σ}
    (hok : saveManyMany db save key relation (r, s) = (.ok (), rs)) : goal rs.2 := by
  let K : Record × σ → Prop := fun rs => goal rs.2
  have hrun : ∀ (c : Command) (rs : Record × σ), K rs → K ((db.run c).onSecond rs).2 :=
    fun c rs hg => Connection.Ages.run c rs.2 goal hgoal hg
  have hshape := h.root.1.shape relation.identifier
  rw [hold] at hshape
  obtain ⟨slot, hslot, -⟩ := Option.map_eq_some_iff.1 hshape
  rw [saveManyMany, Saving.record_bind] at hok
  simp only [hslot] at hok
  refine Session.bind_brings (K := K) hok (fun _ rs h1 => onEach_reaches hk hgoal h
    (fun i b c s' _ => hsave _ i b c s') hb (fun c s' rs _ => hgo c s' rs) h1) fun _ rs hg => ?_
  split
  · rw [Saving.record_bind]
    refine Session.bind_keeps (P := K) (hrun _ _ hg) fun _ _ _ hg => ?_
    exact Session.bind_keeps (P := K) (Session.forM_keeps (fun _ _ rs hg => hrun _ rs hg) hg)
      fun _ _ _ hg => hg
  · exact hg

/-- What needs the key of a record is reached behind it. -/
theorem behind_reaches (ha : ok a) {identifier : String}
    (hkind : (∃ reverse ∈ a.table.reverses, reverse.identifier = identifier) ∨
      ∃ relation ∈ a.table.manyManys, relation.identifier = identifier)
    {old : Slot Record} (hold : a.slots.find? identifier = some old) {y : Record}
    (hy : tie a y s₀) {i : Nat} {b : Record} (hb : a.child? identifier i = some b)
    (hgo : ∀ c s' rs, Course db tie b s' (c, s') → save (c, s') = (.ok (), rs) → goal rs.2)
    (h : Course db tie a s₀ (r, s)) {rs : Record × σ}
    (hok : saveBehind db save a.table y.key (r, s) = (.ok (), rs)) : goal rs.2 := by
  obtain ⟨_, ⟨r₁, s₁⟩, h1, h2⟩ := Session.bind_eq_ok_iff.1 hok
  have hc1 : Course db tie a s₀ (r₁, s₁) := by
    simpa only [h1] using reverses_course hk hsave ha hy h
  rcases hkind with ⟨reverse, hr, rfl⟩ | ⟨relation, hr, rfl⟩
  · have hg : goal s₁ := by
      refine Session.forM_of_mem (P := Course db tie a s₀) (K := fun rs => goal rs.2) hr
        (fun q hq ⟨r, s⟩ h => saveReverse_course hk hsave ha hq hy h)
        (fun q hq ⟨r, s⟩ h hg => ?_) (fun ⟨r, s⟩ rs h hok => ?_) h h1
      · exact (saveReverse_course hk hsave ha hq (hk.later hy h.1) h.restart).1 goal hgoal hg
      · exact saveReverse_reaches hk hgoal hsave ha hr hold hy hb hgo h hok
    have hend := (manyManys_course hk hsave y.key hc1.restart).1 goal hgoal hg
    rwa [h2] at hend
  · refine Session.forM_of_mem (P := Course db tie a s₀) (K := fun rs => goal rs.2) hr
      (fun q hq ⟨r, s⟩ h => saveManyMany_course hk hsave y.key q h)
      (fun q hq ⟨r, s⟩ h hg => ?_) (fun ⟨r, s⟩ rs h hok => ?_) hc1 h2
    · exact (saveManyMany_course hk hsave y.key q h.restart).1 goal hgoal hg
    · exact saveManyMany_reaches hk hgoal hsave hold hb hgo h hok

end

/-- **What saving reaches.** Where saving a graph succeeds, every record of it was written: what
writing one brings about, and the database keeps, holds behind it. -/
theorem saveWithin_reaches (hk : Kept db ok tie) {goal : σ → Prop} (hgoal : db.Keeps goal)
    {x : Record} (hwrite : ∀ {y s rs}, x.Follows y → tie x y s → write db (y, s) = (.ok (), rs) →
      goal rs.2) {n : Nat} {p : Place} {a r : Record} {s₀ s : σ}
    (ha : ∀ p x, a.at? p = some x → ok x) (hformed : ∀ p x, a.at? p = some x → x.Formed)
    (hx : a.at? p = some x) (hn : p.length < n) (h : Course db tie a s₀ (r, s))
    {rs : Record × σ} (hok : saveWithin db n (r, s) = (.ok (), rs)) : goal rs.2 := by
  -- on the way to the record
  induction p generalizing n a r s₀ s rs with
  | nil =>
    obtain rfl : a = x := Option.some.inj hx
    obtain ⟨n, rfl⟩ := Nat.exists_eq_succ_of_ne_zero (Nat.ne_of_gt hn)
    have hroot : ok a := ha [] a rfl
    have hsave := saveWithin_below hk n ha
    rw [saveWithin_succ, h.root.1.table] at hok
    obtain ⟨_, ⟨r₁, s₁⟩, h1, hok⟩ := Session.bind_eq_ok_iff.1 hok
    have hc1 : Course db tie a s₀ (r₁, s₁) := by
      simpa only [h1] using references_course hk hsave hroot h
    obtain ⟨_, ⟨r₂, s₂⟩, h2, hok⟩ := Session.bind_eq_ok_iff.1 hok
    have hc2 : Course db tie a s₀ (r₂, s₂) := by simpa only [h2] using hc1.write hk hroot
    have hend := (behind_course hk hsave hroot hc2.root.2 hc2.restart).1 goal hgoal
      (hwrite hc1.root.1 hc1.root.2 h2)
    rw [Saving.record_bind] at hok
    rwa [hok] at hend
  | cons step p ih =>
    obtain ⟨identifier, i⟩ := step
    obtain ⟨b, hb, hx⟩ := at?_cons_eq_some_iff.1 hx
    obtain ⟨n, rfl⟩ := Nat.exists_eq_succ_of_ne_zero (Nat.ne_zero_of_lt hn)
    have hroot : ok a := ha [] a rfl
    have hsave := saveWithin_below hk n ha
    have hgo : ∀ c s' rs, Course db tie b s' (c, s') → saveWithin db n (c, s') = (.ok (), rs) →
        goal rs.2 := fun c s' rs hbc hok =>
      ih (fun q y hy => ha _ y (at?_cons_eq_some_iff.2 ⟨b, hb, hy⟩))
        (fun q y hy => hformed _ y (at?_cons_eq_some_iff.2 ⟨b, hb, hy⟩)) hx
          (Nat.lt_of_succ_lt_succ hn) hbc hok
    obtain ⟨old, hold, -⟩ := exists_slot_of_child? hb
    have hplural := hformed [] a rfl identifier old hold
    rw [saveWithin_succ, h.root.1.table] at hok
    obtain ⟨_, ⟨r₁, s₁⟩, h1, hok⟩ := Session.bind_eq_ok_iff.1 hok
    have hc1 : Course db tie a s₀ (r₁, s₁) := by
      simpa only [h1] using references_course hk hsave hroot h
    rcases isPlural?_cases hplural with ⟨reference, hr, rfl, hone⟩ | hbehind
    · -- what the record refers to
      have hg : goal s₁ := by
        refine Session.forM_of_mem (P := Course db tie a s₀) (K := fun rs => goal rs.2) hr
          (fun q hq _ h => saveReference_course hk hsave hroot hq h)
          (fun q hq _ h hg => ?_) (fun _ rs h hok => ?_) h h1
        · exact (saveReference_course hk hsave hroot hq h.restart).1 goal hgoal hg
        · exact saveReference_reaches hk hgoal hsave hold hone hb hgo h hok
      have hend := (write_behind_course hk hsave hroot hc1.restart).1 goal hgoal hg
      rwa [hok] at hend
    · -- what needs its key
      have hkind : (∃ q ∈ a.table.reverses, q.identifier = identifier) ∨
          ∃ m ∈ a.table.manyManys, m.identifier = identifier :=
        hbehind.imp (fun ⟨q, hq, hi, _⟩ => ⟨q, hq, hi⟩) fun ⟨m, hm, hi, _⟩ => ⟨m, hm, hi⟩
      obtain ⟨_, ⟨r₂, s₂⟩, h2, hok⟩ := Session.bind_eq_ok_iff.1 hok
      have hc2 : Course db tie a s₀ (r₂, s₂) := by simpa only [h2] using hc1.write hk hroot
      rw [Saving.record_bind] at hok
      exact behind_reaches hk hgoal hsave hroot hkind hold hc2.root.2 hb hgo hc2.restart hok

end Record

end RecordGraph
