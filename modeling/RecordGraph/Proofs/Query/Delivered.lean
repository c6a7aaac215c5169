import RecordGraph.Cursor
import RecordGraph.Proofs.Connection.Run

/-!
# What a stream hands over

`drive` hands the items of a stream to an action, one after the other, until a read or the action
fails, and closes the stream behind that. Neither failure gets lost: of two, the first is what the
outcome is told by.

* `Feed.Stops`: the items in front of the first failure, with the one that the action fails on, and
  that failure.
* `Error.cause`: what failed first of all that an error combines.
* `Ends`: the outcome of the items and of closing.
* `drive_delivers`: the calls that are made, and the outcome.
-/
namespace RecordGraph

variable {σ α : Type}

/-! ## Causes -/

namespace Error

/-- What failed first, of all that an error combines. -/
def cause : Error → Error
  | .aggregate primary _ => primary.cause
  | e => e

/-- What is asked of the first part of a combined error is asked of its cause. -/
theorem eq_cause {β : Type} {p : Error → β} (hp : ∀ a b, p (.aggregate a b) = p a) (e : Error) :
    p e = p e.cause := by
  induction e with
  | aggregate primary secondary ih _ => rw [hp, ih, cause]
  | _ => rfl

/-- Errors that a caller recovers from alike. -/
structure RecoveredLike (a b : Error) : Prop where
  lockConflict : a.isLockConflict = b.isLockConflict
  uniqueViolation : a.isUniqueViolation = b.isUniqueViolation
  notFound : a.isNotFound = b.isNotFound

theorem RecoveredLike.of_cause {a b : Error} (h : a.cause = b.cause) : a.RecoveredLike b := by
  have hsame {p : Error → Bool} (hp : ∀ a b, p (.aggregate a b) = p a) : p a = p b := by
    rw [eq_cause hp a, h, ← eq_cause hp b]
  exact ⟨hsame fun _ _ => rfl, hsame fun _ _ => rfl, hsame fun _ _ => rfl⟩

end Error

/-- How feeding a stream ends. `failure` is what ended it, if anything did, and `closed` how closing
went; what failed first is the cause of the whole. -/
structure Ends (failure : Option Error) (closed outcome : Except Error Unit) : Prop where
  ok_iff : outcome = .ok () ↔ failure = none ∧ closed = .ok ()
  stopped : ∀ e, failure = some e → closed = .ok () → outcome = .error e
  unclosed : ∀ c, failure = none → closed = .error c → outcome = .error c
  both : ∀ e c, failure = some e → closed = .error c → outcome = .error (.aggregate e c)
  first : ∀ e, outcome = .error e → ∃ first,
    (failure = some first ∨ failure = none ∧ closed = .error first) ∧
      e.cause = first.cause ∧ e.RecoveredLike first

/-- An outcome by its failure. -/
def outcomeOf : Option Error → Except Error Unit
  | none => .ok ()
  | some e => .error e

theorem ends_combine (failure : Option Error) (closed : Except Error Unit) :
    Ends failure closed (Error.combine (outcomeOf failure) closed) := by
  have hsame (e : Error) : e.cause = e.cause ∧ e.RecoveredLike e := ⟨rfl, .of_cause rfl⟩
  have hboth (e c : Error) : (e.aggregate c).cause = e.cause ∧ (e.aggregate c).RecoveredLike e :=
    ⟨rfl, .of_cause rfl⟩
  rcases failure with _ | e <;> rcases closed with c | ⟨⟨⟩⟩ <;> constructor <;>
    simp [outcomeOf, Error.combine, Error.withCleanup, hsame, hboth]

/-! ## The first failure -/

namespace Feed

/-- Reads that give items. -/
def items (as : List α) : Feed α := as.map fun a => .ok (some a)

/-- Where an action with the items of a stream stops: the items that it was `given`, the last of
which it may have failed on, the first failure, and the state behind it. -/
inductive Stops (f : α → Session σ Unit) (s : σ) : Feed α → List α → Option Error → σ → Prop where
  | exhausted (given : List α) {s' : σ} : given.forM f s = (.ok (), s') →
      Stops f s (items given) given none s'
  | ended (given : List α) {s' : σ} (later : Feed α) : given.forM f s = (.ok (), s') →
      Stops f s (items given ++ .ok none :: later) given none s'
  | unread (given : List α) {e : Error} {s' : σ} (later : Feed α) :
      given.forM f s = (.ok (), s') →
      Stops f s (items given ++ .error e :: later) given (some e) s'
  | refused (given : List α) {a : α} {e : Error} {s₁ s' : σ} (later : Feed α) :
      given.forM f s = (.ok (), s₁) → f a s₁ = (.error e, s') →
      Stops f s (items given ++ .ok (some a) :: later) (given ++ [a]) (some e) s'

variable {f : α → Session σ Unit}

theorem forM_cons_run {a : α} {s s₁ : σ} (ha : f a s = (.ok (), s₁)) (given : List α) :
    (a :: given).forM f s = given.forM f s₁ := by
  rw [List.forM, Session.bind_run, ha]

/-- An item that the action takes comes first. -/
theorem Stops.cons {a : α} {s s₁ s' : σ} (ha : f a s = (.ok (), s₁)) {feed : Feed α}
    {given : List α} {failure : Option Error} (h : Stops f s₁ feed given failure s') :
    Stops f s (.ok (some a) :: feed) (a :: given) failure s' := by
  cases h with
  | exhausted given h => exact .exhausted (a :: given) ((forM_cons_run ha given).trans h)
  | ended given later h => exact .ended (a :: given) later ((forM_cons_run ha given).trans h)
  | unread given later h => exact .unread (a :: given) later ((forM_cons_run ha given).trans h)
  | refused given later h hf =>
    exact .refused (a :: given) later ((forM_cons_run ha given).trans h) hf

/-- Every stream stops somewhere. -/
theorem exists_stops (f : α → Session σ Unit) : ∀ (feed : Feed α) (s : σ),
    ∃ given failure s', Stops f s feed given failure s'
  | [], s => ⟨[], none, s, .exhausted [] rfl⟩
  | .ok none :: later, s => ⟨[], none, s, .ended [] later rfl⟩
  | .error e :: later, s => ⟨[], some e, s, .unread [] later rfl⟩
  | .ok (some a) :: later, s => by
    rcases ha : f a s with ⟨e | ⟨⟩, s₁⟩
    · exact ⟨[a], some e, s₁, .refused [] later rfl ha⟩
    · obtain ⟨given, failure, s', h⟩ := exists_stops f later s₁
      exact ⟨a :: given, failure, s', h.cons ha⟩

/-- Items that the action takes are passed by. -/
theorem each_items {given : List α} {s s₁ : σ} (h : given.forM f s = (.ok (), s₁))
    (later : Feed α) : Feed.each f (items given ++ later) s = later.each f s₁ := by
  induction given generalizing s with
  | nil =>
    cases h
    rfl
  | cons a given ih =>
    rw [List.forM] at h
    obtain ⟨⟨⟩, s', ha, h⟩ := Session.bind_eq_ok_iff.1 h
    rw [items, List.map_cons, List.cons_append, Feed.each, Session.bind_run, ha]
    exact ih h

/-- Feeding the items comes to the failure at which it stops. -/
theorem Stops.each_run {s s' : σ} {feed : Feed α} {given : List α} {failure : Option Error}
    (h : Stops f s feed given failure s') : feed.each f s = (outcomeOf failure, s') := by
  cases h with
  | exhausted given h =>
    have hrun := each_items h []
    rwa [List.append_nil] at hrun
  | ended given later h => exact each_items h _
  | unread given later h => exact each_items h _
  | refused given later h hf =>
    rw [each_items h, Feed.each, Session.bind_run, hf]
    rfl

end Feed

/-! ## The calls -/

/-- A call that `drive` makes. -/
inductive DriveCall (α : Type) where
  | item (a : α)
  | close

/-- An action beside the list of calls, which is one of them. -/
def Session.listed {κ : Type} (call : κ) (x : Session σ α) : Session (List κ × σ) α := fun cs =>
  ((x cs.2).1, (cs.1 ++ [call], (x cs.2).2))

namespace Feed

variable {f : α → Session σ Unit}

/-- The action with each item listed. -/
def listing (f : α → Session σ Unit) (a : α) : Session (List (DriveCall α) × σ) Unit :=
  (f a).listed (.item a)

theorem forM_listing {s s' : σ} : ∀ {given : List α} (calls : List (DriveCall α)),
    given.forM f s = (.ok (), s') → given.forM (listing f) (calls, s) =
      (.ok (), (calls ++ given.map .item, s'))
  | [], calls, h => by
    cases h
    rw [List.map_nil, List.append_nil]
    rfl
  | a :: given, calls, h => by
    rw [List.forM] at h
    obtain ⟨⟨⟩, s₁, ha, h⟩ := Session.bind_eq_ok_iff.1 h
    have hlisted : listing f a (calls, s) = (.ok (), (calls ++ [.item a], s₁)) := by
      rw [listing, Session.listed, ha]
    rw [forM_cons_run hlisted, forM_listing _ h, List.map_cons, List.append_assoc]
    rfl

/-- With its calls listed, feeding stops at the same place. -/
theorem Stops.listed {s s' : σ} {feed : Feed α} {given : List α} {failure : Option Error}
    (h : Stops f s feed given failure s') (calls : List (DriveCall α)) :
    Stops (listing f) (calls, s) feed given failure (calls ++ given.map .item, s') := by
  cases h with
  | exhausted given h => exact .exhausted given (forM_listing calls h)
  | ended given later h => exact .ended given later (forM_listing calls h)
  | unread given later h => exact .unread given later (forM_listing calls h)
  | refused given later h hf =>
    refine .refused given later (forM_listing calls h) ?_
    rw [listing, Session.listed, hf, List.map_append, List.append_assoc]
    rfl

/-- A stream stops at one place. -/
theorem Stops.unique {s s₁ s₂ : σ} {feed : Feed α} {given₁ given₂ : List α}
    {failure₁ failure₂ : Option Error} (h₁ : Stops f s feed given₁ failure₁ s₁)
    (h₂ : Stops f s feed given₂ failure₂ s₂) : given₁ = given₂ ∧ failure₁ = failure₂ ∧ s₁ = s₂ := by
  -- the items and the failure can be read off the run with its calls
  have heq := (h₁.listed []).each_run.symm.trans (h₂.listed []).each_run
  obtain ⟨hfailure, heq⟩ := Prod.mk.inj heq
  obtain ⟨hgiven, hs⟩ := Prod.mk.inj heq
  refine ⟨(List.map_inj_right fun _ _ => DriveCall.item.inj).1 hgiven, ?_, hs⟩
  rcases failure₁ with _ | e <;> rcases failure₂ with _ | e' <;> cases hfailure <;> rfl

end Feed

/-- Feeding a stream closes it behind the place at which it stops. -/
theorem drive_run {f : α → Session σ Unit} {s s' : σ} {feed : Feed α} {given : List α}
    {failure : Option Error} (h : feed.Stops f s given failure s') (close : Session σ Unit) :
    drive feed close f s = (Error.combine (outcomeOf failure) (close s').1, (close s').2) := by
  rw [drive, Session.bind_run, Session.attempt, Session.lift_run]
  simp only [ExceptT.run, h.each_run, Session.bind_run, Session.attempt, Session.lift_run,
    Session.ofExcept_run]

/-- **Delivery.** Every stream stops at one place. The action is called with the items up to there,
in order and once each, and the stream is closed once behind them; the outcome is that of the first
failure and of closing. Listing the calls changes nothing. -/
theorem drive_delivers (feed : Feed α) (close : Session σ Unit) (f : α → Session σ Unit) (s : σ) :
    ∃ given failure s', feed.Stops f s given failure s' ∧
      (∀ given₁ failure₁ s₁, feed.Stops f s given₁ failure₁ s₁ →
        given₁ = given ∧ failure₁ = failure ∧ s₁ = s') ∧
      Ends failure (close s').1 (drive feed close f s).1 ∧
      (drive feed close f s).2 = (close s').2 ∧
      ∀ calls, drive feed (close.listed .close) (Feed.listing f) (calls, s) =
        ((drive feed close f s).1,
          (calls ++ given.map .item ++ [.close], (drive feed close f s).2)) := by
  obtain ⟨given, failure, s', h⟩ := Feed.exists_stops f feed s
  have hrun := drive_run h close
  refine ⟨given, failure, s', h, fun _ _ _ h₁ => h₁.unique h, ?_, ?_, fun calls => ?_⟩
  · rw [hrun]
    exact ends_combine failure (close s').1
  · rw [hrun]
  · rw [hrun, drive_run (h.listed calls)]
    rfl

end RecordGraph
