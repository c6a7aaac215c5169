import RecordGraph.Proofs.Record.Course

/-!
# Graphs with nothing to write

Saving a graph looks at every record of it, and points every foreign key of a loaded relation at the
record that is there. Where no record was changed and the foreign keys say so already, nothing comes
of it.

**Results.**
* `Record.Idle`: a record on which saving has nothing to do.
* `Record.save_idle`: saving a graph of such records does nothing.
-/
namespace RecordGraph

/-- A related record that is there already. -/
theorem Related.set_self {ρ : Type} {related : Related ρ} {i : Nat} {r : ρ}
    (h : related.toList[i]? = some r) : related.set i r = related := by
  match related, h with
  | .one (some old), h =>
    cases i with
    | zero => exact congrArg (fun r => Related.one (some r)) (Option.some.inj h).symm
    | succ i => cases h
  | .many rs, h =>
    obtain ⟨hi, hr⟩ := List.getElem?_eq_some_iff.1 h
    exact congrArg Related.many (hr ▸ List.set_getElem_self hi)

theorem Saving.change_run_self {σ : Type} (f : Record → Record) {r : Record} {s : σ}
    (h : f r = r) : (Saving.change f : Saving σ Unit) (r, s) = (.ok (), (r, s)) := by
  rw [Saving.change, h]

namespace Record

/-- Nothing was changed, and the foreign keys of loaded relations are those of the records that are
there, where they are loaded at all. -/
structure Idle (x : Record) : Prop where
  saved : x.isNew = false
  dirty : x.dirty = .empty
  sorted : x.slots.Sorted
  settled : ∀ identifier slot, x.slots.find? identifier = some slot → slot.modified = false
  reference : ∀ r ∈ x.table.references, ∀ i u, x.child? r.identifier i = some u →
    x.values.contains r.column = true → x.holds r.column u.key = true
  reverse : ∀ r ∈ x.table.reverses, ∀ i u, x.child? r.identifier i = some u →
    u.values.contains r.column = true → u.holds r.column x.key = true

/-- A foreign key that is not loaded stays so, and one that says so already stays as it is. -/
theorem relink_idle {r : Record} {column : String} {key : Value} (hnew : r.isNew = false)
    (h : r.values.contains column = true → r.holds column key = true) :
    r.relink column key false = r := by
  unfold relink
  split
  · rename_i hc
    rw [hnew, Bool.false_or, Bool.false_or] at hc
    exact assign_of_holds (h hc)
  · rfl

namespace Idle

variable {x : Record} (h : x.Idle)
include h

theorem setRelated {identifier : String} {i : Nat} {c : Record}
    (hc : x.child? identifier i = some c) : x.setRelated identifier i c = x := by
  have hslots : (x.slots.modify identifier fun s => { s with related := s.related.set i c }) =
      x.slots := by
    refine NameMap.modify_eq_self h.sorted fun slot hslot => ?_
    rw [child?, related_eq hslot] at hc
    rw [Related.set_self hc]
  unfold Record.setRelated
  rw [hslots]
  cases x
  rfl

theorem settle (identifier : String) : x.settle identifier = x := by
  have hslots : (x.slots.modify identifier fun s => { s with modified := false }) = x.slots := by
    refine NameMap.modify_eq_self h.sorted fun slot hslot => ?_
    rw [← h.settled identifier slot hslot]
  unfold Record.settle
  rw [hslots]
  cases x
  rfl

variable {σ : Type} {s : σ}

/-- What does nothing to the related records does nothing. -/
theorem onEach {identifier : String} {action : Saving σ Unit}
    (hc : ∀ i c, x.child? identifier i = some c → action (c, s) = (.ok (), (c, s))) :
    Saving.onEach identifier action (x, s) = (.ok (), (x, s)) := by
  rw [Saving.onEach, Saving.record_bind]
  refine Session.forM_run _ fun i _ => ?_
  cases hi : x.child? identifier i with
  | none => exact Saving.onRelated_run_none hi _ s
  | some c => rw [Saving.onRelated_run hi, hc i c hi, h.setRelated hi]

theorem write (db : Connection σ) : Record.write db (x, s) = (.ok (), (x, s)) := by
  have hdirty : x.isDirty = false := by
    rw [isDirty, h.dirty]
    rfl
  rw [Record.write, Saving.record_bind]
  simp only [h.saved, hdirty, Bool.false_eq_true, if_false]
  rfl

variable {save : Saving σ Unit}
  (hsave : ∀ identifier i c, x.child? identifier i = some c → save (c, s) = (.ok (), (c, s)))
include hsave

theorem saveReference {r : Reference} (hr : r ∈ x.table.references) :
    Record.saveReference save r (x, s) = (.ok (), (x, s)) := by
  have hsettle := Saving.change_run_self (s := s) (·.settle r.identifier) (h.settle r.identifier)
  rw [Record.saveReference, Saving.record_bind]
  cases hslot : x.slots.find? r.identifier with
  | none => rfl
  | some slot =>
    have hmod := h.settled _ slot hslot
    obtain ⟨related, modified⟩ := slot
    obtain rfl : modified = false := hmod
    cases related with
    | many records =>
      simp only
      rw [Saving.record_bind, Session.bind_run, hsettle]
      rfl
    | one record =>
      simp only
      rw [Session.bind_run, h.onEach fun i c => hsave _ i c]
      simp only
      rw [Saving.record_bind, Session.bind_run, hsettle]
      cases record with
      | none => rfl
      | some u =>
        have hone : x.one? r.identifier = some u := by
          simp only [one?, relation?, hslot, Option.map_some]
        have hchild : x.child? r.identifier 0 = some u := by
          rw [child?, related_eq hslot]
          rfl
        simp only [hone, Option.map_some]
        exact Saving.change_run_self (·.relink r.column u.key false)
          (relink_idle h.saved (h.reference r hr 0 u hchild))

theorem saveReverse (hbelow : ∀ identifier i c, x.child? identifier i = some c → c.isNew = false)
    {r : Reverse} (hr : r ∈ x.table.reverses) :
    Record.saveReverse save x.key r (x, s) = (.ok (), (x, s)) := by
  rw [Record.saveReverse, Saving.record_bind]
  cases hslot : x.slots.find? r.identifier with
  | none => rfl
  | some slot =>
    have hmod := h.settled _ slot hslot
    simp only [hmod]
    rw [Session.bind_run, h.onEach fun i c hc => ?_]
    · exact Saving.change_run_self (·.settle r.identifier) (h.settle r.identifier)
    · rw [Session.bind_run,
        Saving.change_run_self (·.relink r.column x.key false)
          (relink_idle (hbelow _ i c hc) (h.reverse r hr i c hc))]
      exact hsave _ i c hc

theorem saveManyMany (db : Connection σ) (key : Value) (m : ManyMany) :
    Record.saveManyMany db save key m (x, s) = (.ok (), (x, s)) := by
  rw [Record.saveManyMany, Saving.record_bind]
  cases hslot : x.slots.find? m.identifier with
  | none => rfl
  | some slot =>
    have hmod := h.settled _ slot hslot
    simp only [hmod, Bool.false_eq_true, if_false]
    rw [Session.bind_run, h.onEach fun i c => hsave _ i c]
    exact Saving.change_run_self (·.settle m.identifier) (h.settle m.identifier)

end Idle

variable {σ : Type} (db : Connection σ)

theorem saveWithin_idle (n : Nat) {r : Record} (h : ∀ p x, r.at? p = some x → x.Idle) (s : σ) :
    saveWithin db n (r, s) = (.ok (), (r, s)) := by
  -- on how deep related records are nested
  induction n generalizing r with
  | zero => rfl
  | succ n ih =>
    have hroot : r.Idle := h [] r rfl
    have hbelow : ∀ identifier i c, r.child? identifier i = some c → ∀ p x, c.at? p = some x →
        x.Idle := fun identifier i c hc p x hx =>
      h ((identifier, i) :: p) x (at?_cons_eq_some_iff.2 ⟨c, hc, hx⟩)
    have hsave : ∀ identifier i c, r.child? identifier i = some c →
        saveWithin db n (c, s) = (.ok (), (c, s)) :=
      fun identifier i c hc => ih (hbelow identifier i c hc)
    rw [saveWithin_succ, Session.bind_run,
      Session.forM_run _ fun reference hr => hroot.saveReference hsave hr]
    simp only
    rw [Session.bind_run, hroot.write db]
    simp only
    rw [Saving.record_bind, saveBehind, Session.bind_run,
      Session.forM_run _ fun reverse hr => hroot.saveReverse hsave
        (fun identifier i c hc => (hbelow identifier i c hc [] c rfl).saved) hr]
    exact Session.forM_run _ fun relation _ => hroot.saveManyMany hsave db r.key relation

/-- **Nothing to write.** Saving a graph of idle records sends nothing and changes nothing. -/
theorem save_idle {r : Record} (h : ∀ p x, r.at? p = some x → x.Idle) (s : σ) :
    save db (r, s) = (.ok (), (r, s)) := saveWithin_idle db r.depth h s

end Record

end RecordGraph
