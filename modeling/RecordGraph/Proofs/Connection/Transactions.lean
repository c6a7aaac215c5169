import RecordGraph.Proofs.Connection.Run

/-!
# Transactions and their ends

A connection is idle or inside a transaction. A guard is over once it has sent `COMMIT` or
`ROLLBACK`, whatever the database answered, and sends nothing after that.

* `Connection.Transactional`: what a database does with the commands of a transaction, as a
  hypothesis about it. A `COMMIT` that fails leaves the transaction open.
* `Transaction.finish_over`, `Transaction.finish_active`: what the uses of a guard, and dropping it,
  leave behind.
* `Connection.left_open_iff`: a transaction stays open exactly when it was to be committed, and the
  `COMMIT` failed.
-/
namespace RecordGraph

variable {σ α : Type}

/-- What a database does with the commands of a transaction, if `inside` tells the states inside
one. `BEGIN` and `COMMIT` take effect if they succeed and change nothing if they fail; after a
`ROLLBACK` no transaction is open. -/
structure Connection.Transactional (db : Connection σ) (inside : σ → Prop) : Prop where
  begun : ∀ s, ¬inside s → (inside (db.run .begin s).2 ↔ (db.run .begin s).1.isOk = true)
  committed : ∀ s, inside (db.run .commit s).2 ↔ inside s ∧ (db.run .commit s).1.isOk = false
  rolledBack : ∀ s, ¬inside (db.run .rollback s).2

namespace Transaction

/-- What a client does with the guard of a transaction, and with the connection meanwhile. -/
inductive Use (σ : Type) where
  | commit
  | rollback
  /-- Statements on the connection; their failure does not end the guard. -/
  | work (x : Session σ Unit)

/-- One use; what it answers does not matter to the guard. -/
def use (db : Connection σ) (t : Transaction) : Use σ → StateM σ Transaction
  | .commit => do
    let (_, t) ← t.commit db
    pure t
  | .rollback => do
    let (_, t) ← t.rollback db
    pure t
  | .work x => do
    let _ ← x.run
    pure t

/-- The guard is used in turn, and dropped. -/
def finish (db : Connection σ) : List (Use σ) → Transaction → StateM σ Unit
  | [], t => t.drop db
  | u :: us, t => do
    let t ← t.use db u
    finish db us t

/-- The guard is ended by a commit, and the database fails to commit. -/
def CommitFails (db : Connection σ) : List (Use σ) → σ → Prop
  | [], _ => False
  | .commit :: _, s => (db.run .commit s).1.isOk = false
  | .rollback :: _, _ => False
  | .work x :: us, s => CommitFails db us (x s).2

/-- Statements in between neither start nor end a transaction. -/
def Keeps (inside : σ → Prop) (us : List (Use σ)) : Prop :=
  ∀ x, Use.work x ∈ us → ∀ s, inside (x s).2 ↔ inside s

theorem Keeps.tail {inside : σ → Prop} {u : Use σ} {us : List (Use σ)}
    (h : Keeps inside (u :: us)) : Keeps inside us := by
  intro x hx
  exact h x (List.mem_cons_of_mem _ hx)

/-! ## One use -/

section
variable (db : Connection σ) (t : Transaction) (s : σ)

theorem finish_cons (u : Use σ) (us : List (Use σ)) :
    finish db (u :: us) t s = finish db us (t.use db u s).1 (t.use db u s).2 := rfl

theorem use_work (x : Session σ Unit) : t.use db (.work x) s = (t, (x s).2) := rfl

theorem use_commit : use db ⟨.active⟩ .commit s = (⟨.committed⟩, (db.run .commit s).2) := rfl

theorem use_rollback : use db ⟨.active⟩ .rollback s = (⟨.rolledBack⟩, (db.run .rollback s).2) := rfl

theorem drop_active : (drop db ⟨.active⟩ s).2 = (db.run .rollback s).2 := rfl

end

section
variable {db : Connection σ} {t : Transaction}

/-- A guard that is over sends nothing more. -/
theorem use_over (ht : t.state ≠ .active) {u : Use σ} (hu : ∀ x, u ≠ .work x) (s : σ) :
    t.use db u s = (t, s) := by
  obtain ⟨state⟩ := t
  cases u with
  | work x => exact absurd rfl (hu x)
  | commit =>
    cases state with
    | active => exact absurd rfl ht
    | committed => rfl
    | rolledBack => rfl
  | rollback =>
    cases state with
    | active => exact absurd rfl ht
    | committed => rfl
    | rolledBack => rfl

theorem drop_over (ht : t.state ≠ .active) (s : σ) : (t.drop db s).2 = s := by
  obtain ⟨state⟩ := t
  cases state with
  | active => exact absurd rfl ht
  | committed => rfl
  | rolledBack => rfl

/-! ## All uses -/

variable {inside : σ → Prop}

/-- **After the end.** A guard that is over leaves the connection as it is. -/
theorem finish_over (ht : t.state ≠ .active) {us : List (Use σ)} (hkeep : Keeps inside us) (s : σ) :
    inside (finish db us t s).2 ↔ inside s := by
  induction us generalizing s with
  | nil =>
    unfold finish
    rw [drop_over ht]
  | cons u us ih =>
    rw [finish_cons]
    cases u with
    | work x =>
      rw [use_work, ih hkeep.tail]
      exact hkeep x List.mem_cons_self s
    | commit =>
      rw [use_over ht (by simp), ih hkeep.tail]
    | rollback =>
      rw [use_over ht (by simp), ih hkeep.tail]

/-- **An open transaction.** It is still open when its guard is gone exactly when the guard was
ended by a commit that failed: nothing rolls back after that. -/
theorem finish_active (h : db.Transactional inside) {us : List (Use σ)} (hkeep : Keeps inside us)
    {s : σ} (hs : inside s) : inside (finish db us ⟨.active⟩ s).2 ↔ CommitFails db us s := by
  induction us generalizing s with
  | nil =>
    unfold finish CommitFails
    rw [drop_active, iff_false]
    exact h.rolledBack s
  | cons u us ih =>
    rw [finish_cons]
    cases u with
    | work x =>
      rw [use_work, CommitFails]
      exact ih hkeep.tail ((hkeep x List.mem_cons_self s).2 hs)
    | commit =>
      rw [use_commit, finish_over (by simp) hkeep.tail, h.committed, CommitFails]
      exact and_iff_right hs
    | rollback =>
      rw [use_rollback, finish_over (by simp) hkeep.tail, CommitFails, iff_false]
      exact h.rolledBack s

end

end Transaction

namespace Connection

/-- A transaction whose guard is used in turn, and dropped. -/
def guarded (db : Connection σ) (us : List (Transaction.Use σ)) : Session σ Unit := do
  let t ← Transaction.start db
  Session.lift (t.finish db us)

theorem guarded_run (db : Connection σ) (us : List (Transaction.Use σ)) (s : σ) :
    db.guarded us s = match db.run .begin s with
      | (.error e, s₁) => (.error e, s₁)
      | (.ok (), s₁) => (.ok (), (Transaction.finish db us ⟨.active⟩ s₁).2) := by
  rw [guarded, Session.bind_run, Transaction.start, Session.bind_run]
  rcases db.run .begin s with ⟨e | ⟨⟩, s₁⟩ <;> rfl

section
variable {db : Connection σ} {inside : σ → Prop} (h : db.Transactional inside) {s : σ}
  (hs : ¬inside s)
include h hs

/-- A transaction that cannot be started is not open. -/
theorem Transactional.not_inside_of_error {e : Error} {s₁ : σ}
    (hbegin : db.run .begin s = (.error e, s₁)) : ¬inside s₁ := by
  have hiff := h.begun s hs
  rw [hbegin] at hiff
  intro hinside
  cases hiff.1 hinside

theorem Transactional.inside_of_ok {s₁ : σ} (hbegin : db.run .begin s = (.ok (), s₁)) :
    inside s₁ := by
  have hiff := h.begun s hs
  rw [hbegin] at hiff
  exact hiff.2 rfl

/-- **An action in a transaction** leaves it open exactly when the action succeeds and the `COMMIT`
behind it fails. -/
theorem transaction_inside_iff (x : Session σ α) : inside (db.transaction x s).2 ↔
    ∃ s₁ a s₂, db.run .begin s = (.ok (), s₁) ∧ x s₁ = (.ok a, s₂) ∧ inside s₂ ∧
      (db.run .commit s₂).1.isOk = false := by
  rw [transaction_run]
  rcases hbegin : db.run .begin s with ⟨e | ⟨⟩, s₁⟩
  · constructor
    · intro hinside
      exact absurd hinside (h.not_inside_of_error hs hbegin)
    · rintro ⟨s₁', a, s₂, hbegin', -⟩
      cases hbegin'
  · dsimp only
    rcases hx : x s₁ with ⟨e | a, s₂⟩
    · -- a failure is rolled back
      constructor
      · intro hinside
        exact absurd hinside (h.rolledBack s₂)
      · rintro ⟨s₁', a, s₂', hbegin', hx', -⟩
        cases hbegin'
        rw [hx] at hx'
        cases hx'
    · dsimp only
      rw [h.committed]
      constructor
      · intro hopen
        exact ⟨s₁, a, s₂, rfl, hx, hopen⟩
      · rintro ⟨s₁', a', s₂', hbegin', hx', hopen⟩
        cases hbegin'
        rw [hx] at hx'
        cases hx'
        exact hopen

/-- **A guard.** -/
theorem guarded_inside_iff {us : List (Transaction.Use σ)} (hkeep : Transaction.Keeps inside us) :
    inside (db.guarded us s).2 ↔
      ∃ s₁, db.run .begin s = (.ok (), s₁) ∧ Transaction.CommitFails db us s₁ := by
  rw [guarded_run]
  rcases hbegin : db.run .begin s with ⟨e | ⟨⟩, s₁⟩
  · constructor
    · intro hinside
      exact absurd hinside (h.not_inside_of_error hs hbegin)
    · rintro ⟨s₁', hbegin', -⟩
      cases hbegin'
  · dsimp only
    rw [Transaction.finish_active h hkeep (h.inside_of_ok hs hbegin)]
    constructor
    · intro hfails
      exact ⟨s₁, rfl, hfails⟩
    · rintro ⟨s₁', hbegin', hfails⟩
      cases hbegin'
      exact hfails

end

/-- **No other transaction stays open.** On an idle connection: what runs in a transaction, and a
guard that is used in any order and dropped, leave the connection idle again, except where the
transaction was to be committed and the `COMMIT` failed. -/
theorem left_open_iff {db : Connection σ} {inside : σ → Prop} (h : db.Transactional inside) {s : σ}
    (hs : ¬inside s) :
    (∀ x : Session σ α, inside (db.transaction x s).2 ↔ ∃ s₁ a s₂,
      db.run .begin s = (.ok (), s₁) ∧ x s₁ = (.ok a, s₂) ∧ inside s₂ ∧
        (db.run .commit s₂).1.isOk = false) ∧
    ∀ us : List (Transaction.Use σ), Transaction.Keeps inside us →
      (inside (db.guarded us s).2 ↔
        ∃ s₁, db.run .begin s = (.ok (), s₁) ∧ Transaction.CommitFails db us s₁) :=
  ⟨fun x => transaction_inside_iff h hs x, fun _ hkeep => guarded_inside_iff h hs hkeep⟩

end Connection

/-! ## A database with another reader -/

namespace Library

/-- Whether the connection is inside a transaction, and whether another one reads. -/
structure Shared where
  inside : Bool
  read : Bool

/-- A database that does not commit while another connection reads. -/
def shared : Connection Shared where
  dialect := .sqlite
  execute c := fun s => match c with
    | .begin =>
      if s.inside then (.error (.query "execute" "BEGIN" [] "already open"), s)
      else (.ok 0, { s with inside := true })
    | .commit =>
      if s.inside && !s.read then (.ok 0, { s with inside := false })
      else (.error (.query "execute" "COMMIT" [] "database is locked"), s)
    | .rollback =>
      if s.inside then (.ok 0, { s with inside := false })
      else (.error (.query "execute" "ROLLBACK" [] "not open"), s)
    | _ => (.ok 1, s)
  query _ := pure ⟨[], .ok ()⟩
  release := pure ()
  lastInsertId := pure none
  nextVersion _ := pure 1
  freshUuid := pure default
  freshUlid := pure 0

theorem shared_transactional : shared.Transactional fun s => s.inside = true where
  begun s _ := by
    obtain ⟨inside, read⟩ := s
    revert inside read
    decide
  committed s := by
    obtain ⟨inside, read⟩ := s
    revert inside read
    decide
  rolledBack s := by
    obtain ⟨inside, read⟩ := s
    revert inside read
    decide

/-- With no other reader a transaction is over once it is committed; beside one, it is if it is
rolled back first. -/
theorem shared_over : shared.Transactional (fun s => s.inside = true) ∧
    Transaction.Keeps (fun s : Shared => s.inside = true) [.rollback, .commit] ∧
      (shared.transaction (pure ()) ⟨false, false⟩).2.inside = false ∧
        (shared.guarded [.rollback, .commit] ⟨false, true⟩).2.inside = false := by
  have hkeep : Transaction.Keeps (fun s : Shared => s.inside = true) [.rollback, .commit] := by
    intro x hx
    simp at hx
  refine ⟨shared_transactional, hkeep, ?_, ?_⟩
  · rw [← Bool.not_eq_true]
    intro hopen
    obtain ⟨s₁, _, s₂, hbegin, hpure, -, hfails⟩ :=
      ((Connection.left_open_iff shared_transactional Bool.false_ne_true).1 (pure ())).1 hopen
    cases hbegin
    cases hpure
    cases hfails
  · rw [← Bool.not_eq_true]
    intro hopen
    obtain ⟨s₁, -, hfails⟩ :=
      ((Connection.left_open_iff (α := Unit) shared_transactional Bool.false_ne_true).2 _ hkeep).1
        hopen
    exact hfails

/-- **A transaction that stays open.** Beside another reader the `COMMIT` fails, the guard is over,
and nothing rolls back. -/
theorem exists_left_open : shared.Transactional (fun s => s.inside = true) ∧
    (shared.transaction (pure ()) ⟨false, true⟩).2.inside = true ∧
      (shared.guarded [.commit, .rollback] ⟨false, true⟩).2.inside = true :=
  ⟨shared_transactional, rfl, rfl⟩

end Library

end RecordGraph
