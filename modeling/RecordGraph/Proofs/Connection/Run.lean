import RecordGraph.Record.Save
import RecordGraph.Transaction

/-!
# Running sessions

A session is a function of the state: what its parts do, one after the other.

* `Session.bind_run`, `Session.bind_eq_ok_iff`: the second action starts where a successful first
  one ends.
* `Session.forM_run`: actions that do nothing, on every entry of a list.
* `Session.bind_keeps`, `Session.forM_keeps`: what the parts keep, the whole keeps.
* `Session.forM_of_mem`: where the whole succeeds, each part does.
* `Connection.transaction_run`: a transaction ends as its action does. -/
namespace RecordGraph

namespace Session

variable {σ τ α β : Type}

theorem bind_run (x : Session σ α) (f : α → Session σ β) (s : σ) :
    (x >>= f) s = match x s with
      | (.ok a, s') => f a s'
      | (.error e, s') => (.error e, s') := by
  simp only [bind, ExceptT.bind, ExceptT.mk, StateT.bind, ExceptT.bindCont]
  rcases h : x s with ⟨a | e, s'⟩ <;> rfl

theorem pure_run (a : α) (s : σ) : (pure a : Session σ α) s = (.ok a, s) := rfl

theorem throw_run (e : Error) (s : σ) : (throw e : Session σ α) s = (.error e, s) := rfl

theorem ofExcept_run (x : Except Error α) (s : σ) : ofExcept x s = (x, s) := rfl

theorem lift_run (x : StateM σ α) (s : σ) : lift x s = (.ok (x s).1, (x s).2) := rfl

theorem onSecond_run (x : Session σ α) (t : τ) (s : σ) :
    onSecond x (t, s) = ((x s).1, (t, (x s).2)) := rfl

/-- Actions that do nothing, on every entry of a list. -/
theorem forM_run {f : α → Session σ Unit} {s : σ} : ∀ (as : List α),
    (∀ a ∈ as, f a s = (.ok (), s)) → as.forM f s = (.ok (), s)
  | [], _ => rfl
  | a :: as, h => by
    rw [List.forM, bind_run, h a List.mem_cons_self]
    exact forM_run as fun b hb => h b (List.mem_cons_of_mem _ hb)

/-- A chain succeeds when its parts do. -/
theorem bind_eq_ok_iff {x : Session σ α} {f : α → Session σ β} {s s' : σ} {b : β} :
    (x >>= f) s = (.ok b, s') ↔ ∃ a s₁, x s = (.ok a, s₁) ∧ f a s₁ = (.ok b, s') := by
  rw [bind_run]
  rcases x s with ⟨e | a, s₁⟩
  · constructor
    · intro h
      cases h
    · rintro ⟨a, s₂, h, -⟩
      cases h
  · constructor
    · intro h
      exact ⟨a, s₁, rfl, h⟩
    · rintro ⟨a', s₂, h, hf⟩
      cases h
      exact hf

theorem withState_eq_ok {x : Session (τ × σ) α} {init t : τ} {s s' : σ} {a : α}
    (h : withState init x s = (.ok (a, t), s')) : x (init, s) = (.ok a, (t, s')) := by
  rw [withState] at h
  rcases hx : x (init, s) with ⟨e | a', t', s₁⟩
  · rw [hx] at h
    cases h
  · rw [hx] at h
    cases h
    rfl

/-- What the parts of a chain keep, the chain keeps. -/
theorem bind_keeps {P : σ → Prop} {x : Session σ α} {f : α → Session σ β} {s : σ}
    (hx : P (x s).2) (hf : ∀ a s', x s = (.ok a, s') → P s' → P (f a s').2) :
    P ((x >>= f) s).2 := by
  rw [bind_run]
  rcases h : x s with ⟨e | a, s'⟩
  · rw [h] at hx
    exact hx
  · rw [h] at hx
    exact hf a s' h hx

/-- Where a chain succeeds, what its first part brings about and the rest keeps holds behind it. -/
theorem bind_brings {K : σ → Prop} {x : Session σ α} {f : α → Session σ β} {s s' : σ} {b : β}
    (h : (x >>= f) s = (.ok b, s')) (hx : ∀ a s₁, x s = (.ok a, s₁) → K s₁)
    (hf : ∀ a s₁, K s₁ → K (f a s₁).2) : K s' := by
  obtain ⟨a, s₁, h1, h2⟩ := bind_eq_ok_iff.1 h
  have hend := hf a s₁ (hx a s₁ h1)
  rwa [h2] at hend

/-- What an action keeps on every entry of a list, it keeps along the list. -/
theorem forM_keeps {P : σ → Prop} {f : α → Session σ Unit} : ∀ {as : List α},
    (∀ a ∈ as, ∀ s, P s → P (f a s).2) → ∀ {s : σ}, P s → P (as.forM f s).2
  | [], _, _, hs => hs
  | a :: as, h, s, hs => by
    rw [List.forM]
    refine bind_keeps (h a List.mem_cons_self s hs) fun _ s' _ hs' => ?_
    exact forM_keeps (fun b hb => h b (List.mem_cons_of_mem _ hb)) hs'

/-- Where actions on a list succeed, the one on an entry did: what it brings about stays. -/
theorem forM_of_mem {P K : σ → Prop} {f : α → Session σ Unit} {a : α} : ∀ {as : List α}, a ∈ as →
    (∀ b ∈ as, ∀ s, P s → P (f b s).2) → (∀ b ∈ as, ∀ s, P s → K s → K (f b s).2) →
      (∀ s s', P s → f a s = (.ok (), s') → K s') →
        ∀ {s s' : σ}, P s → as.forM f s = (.ok (), s') → K s'
  | b :: as, ha, hP, hK, hgo, s, s', hs, h => by
    rw [List.forM] at h
    obtain ⟨⟨⟩, s₁, hb, hrest⟩ := bind_eq_ok_iff.1 h
    have hs₁ : P s₁ := by simpa only [hb] using hP b List.mem_cons_self s hs
    rcases List.mem_cons.1 ha with rfl | ha
    · have hkeep := forM_keeps (P := fun s => P s ∧ K s) (f := f)
        (fun b (hb : b ∈ as) s h => ⟨hP b (List.mem_cons_of_mem _ hb) s h.1,
          hK b (List.mem_cons_of_mem _ hb) s h.1 h.2⟩) ⟨hs₁, hgo s s₁ hs hb⟩
      rw [hrest] at hkeep
      exact hkeep.2
    · exact forM_of_mem ha (fun b hb => hP b (List.mem_cons_of_mem _ hb))
        (fun b hb => hK b (List.mem_cons_of_mem _ hb)) hgo hs₁ hrest

end Session

theorem stateOnSecond_run {σ τ α : Type} (x : StateM σ α) (t : τ) (s : σ) :
    stateOnSecond x (t, s) = ((x s).1, (t, (x s).2)) := rfl

namespace Connection

variable {σ τ α : Type}

/-- **Transactions.** What an action leaves is committed if it succeeds, and rolled back if it
fails. -/
theorem transaction_run (db : Connection σ) (x : Session σ α) (s : σ) :
    db.transaction x s = match db.run .begin s with
      | (.error e, s₁) => (.error e, s₁)
      | (.ok (), s₁) => match x s₁ with
        | (.ok a, s₂) => ((db.run .commit s₂).1.map fun _ => a, (db.run .commit s₂).2)
        | (.error e, s₂) =>
          (.error (e.withCleanup (db.run .rollback s₂).1), (db.run .rollback s₂).2) := by
  have hcommit : ∀ s, Transaction.commit db ⟨.active⟩ s =
      (((db.run .commit s).1, ⟨.committed⟩), (db.run .commit s).2) := fun _ => rfl
  have hrollback : ∀ s, Transaction.rollback db ⟨.active⟩ s =
      (((db.run .rollback s).1, ⟨.rolledBack⟩), (db.run .rollback s).2) := fun _ => rfl
  have hattempt : ∀ s, x.attempt s = (.ok (x s).1, (x s).2) := fun _ => rfl
  rw [transaction, Session.bind_run, Transaction.start, Session.bind_run]
  rcases db.run .begin s with ⟨e | ⟨⟩, s₁⟩
  · rfl
  · simp only [Session.pure_run, Session.bind_run, hattempt]
    rcases x s₁ with ⟨e | a, s₂⟩
    · simp only [Session.bind_run, Session.lift_run, hrollback]
      rfl
    · simp only [Session.bind_run, Session.lift_run, hcommit, Session.ofExcept_run]
      rcases db.run .commit s₂ with ⟨e | ⟨⟩, s₃⟩ <;> rfl

/-- A command beside another state. -/
theorem beside_run (db : Connection σ) (c : Command) (t : τ) (s : σ) :
    (db.beside τ).run c (t, s) = ((db.run c s).1, (t, (db.run c s).2)) := by
  rw [run, run, Session.bind_run, Session.bind_run, beside]
  simp only [Session.onSecond_run]
  rcases db.execute c s with ⟨e | n, s'⟩ <;> rfl

end Connection

end RecordGraph
