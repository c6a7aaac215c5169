import Mathlib.Data.List.Basic
import RecordGraph.Version

/-!
# Versions that move on

A version is a number of 64 bits, and the greatest one stays. Without bounds, every request would be
given a number above the version it carries and above all numbers given before: these numbers are
`unbounded`. What a clock gives are the same numbers, cut off at the greatest version.

**Results.**
* `lt_after_iff`: whatever was given before, a version moves on unless it is the greatest.
* `map_toInt_given`: the versions of a clock are the unbounded ones, cut off.
* `pairwise_given`: so they increase while no request comes near the end.
* `moving_on`: the exact conditions for both.
-/
namespace RecordGraph.Versions

/-- A request for a version: what the clock reads, and the version that was loaded. -/
structure Request where
  now : Int64
  previous : Option Int64

/-- The least number that a request may be given. -/
def Request.least (r : Request) : Int :=
  match r.previous with
  | some p => max r.now.toInt (p.toInt + 1)
  | none => r.now.toInt

/-- The strategy after requests. -/
def behind (v : Versions) (requests : List Request) : Versions :=
  requests.foldl (fun v r => (v.next r.now r.previous).2) v

/-- The versions that requests are given, one after the other. -/
def given : Versions → List Request → List Int64
  | _, [] => []
  | v, r :: requests => (v.next r.now r.previous).1 :: given (v.next r.now r.previous).2 requests

/-- What requests are given by a clock that counts without bounds from `last`. -/
def unbounded : Int → List Request → List Int
  | _, [] => []
  | last, r :: requests =>
    max r.least (last + 1) :: unbounded (max r.least (last + 1)) requests

/-! ## One request -/

theorem toInt_le_max (v : Int64) : v.toInt ≤ Int64.maxValue.toInt := by
  have := v.toInt_lt
  rw [Int64.toInt_maxValue]
  omega

theorem toInt_succ (v : Int64) : (succ v).toInt = min (v.toInt + 1) Int64.maxValue.toInt := by
  rw [succ]
  split
  · rename_i h
    rw [h, Int.min_eq_right (by omega)]
  · rename_i h
    have hne : v.toInt ≠ Int64.maxValue.toInt := fun he => h (Int64.toInt_inj.1 he)
    have hlt := v.toInt_lt
    have hle := v.le_toInt
    rw [Int64.toInt_maxValue] at hne ⊢
    rw [Int64.toInt_add, Int64.toInt_one, Int.bmod_eq_of_le (by omega) (by omega),
      Int.min_eq_left (by omega)]

theorem toInt_later (a b : Int64) : (later a b).toInt = max a.toInt b.toInt := by
  rw [later]
  split <;> omega

/-- A version moves on unless it is the greatest. -/
theorem lt_after_iff {v : Versions} {now p : Int64} :
    p < v.after now (some p) ↔ p ≠ Int64.maxValue := by
  have hp := toInt_le_max p
  have hnow := toInt_le_max now
  rw [Int64.lt_iff_toInt_lt, Ne, ← Int64.toInt_inj]
  unfold after
  cases v.kind with
  | increment =>
    simp only [toInt_succ]
    omega
  | clock =>
    simp only [toInt_later, toInt_succ]
    omega

/-- A clock gives the least number that it may, cut off at the greatest version. -/
theorem toInt_after_clock {v : Versions} (hv : v.kind = .clock) (r : Request) :
    (v.after r.now r.previous).toInt =
      min Int64.maxValue.toInt (max r.least (v.last.toInt + 1)) := by
  have hnow := toInt_le_max r.now
  simp only [after, hv, toInt_later, toInt_succ, Request.least]
  cases r.previous with
  | none =>
    dsimp only
    omega
  | some p =>
    dsimp only
    rw [toInt_later, toInt_succ]
    omega

/-! ## Many requests -/

/-- The versions of a clock are the unbounded ones, cut off at the greatest. -/
theorem map_toInt_given {requests : List Request} : ∀ {v : Versions} {last : Int},
    v.kind = .clock → v.last.toInt = min Int64.maxValue.toInt last →
      (v.given requests).map Int64.toInt =
        (unbounded last requests).map (min Int64.maxValue.toInt) := by
  induction requests with
  | nil => intros; rfl
  | cons r requests ih =>
    intro v last hv hlast
    have hgiven : (v.after r.now r.previous).toInt =
        min Int64.maxValue.toInt (max r.least (last + 1)) := by
      rw [toInt_after_clock hv, hlast]
      omega
    rw [given, unbounded, List.map_cons, List.map_cons,
      ih (v := (v.next r.now r.previous).2) hv hgiven]
    exact congrArg (· :: _) hgiven

theorem lt_of_mem_unbounded {requests : List Request} : ∀ {last m : Int},
    m ∈ unbounded last requests → last < m := by
  induction requests with
  | nil => intro _ _ h; cases h
  | cons r requests ih =>
    intro last m h
    rcases List.mem_cons.1 h with rfl | h
    · omega
    · have := ih h
      omega

/-- Without bounds, every number is above those before it. -/
theorem pairwise_unbounded (last : Int) (requests : List Request) :
    (unbounded last requests).Pairwise (· < ·) := by
  induction requests generalizing last with
  | nil => exact List.Pairwise.nil
  | cons r requests ih => exact List.Pairwise.cons (fun _ => lt_of_mem_unbounded) (ih _)

/-- Numbers that increase still do once they are cut off, unless two of them reach the bound. -/
theorem pairwise_map_min_iff {bound : Int} {ms : List Int} (h : ms.Pairwise (· < ·)) :
    (ms.map (min bound)).Pairwise (· < ·) ↔ ∀ m ∈ ms.dropLast, m < bound := by
  induction ms with
  | nil => simp
  | cons m ms ih =>
    obtain ⟨hm, hms⟩ := List.pairwise_cons.1 h
    rw [List.map_cons, List.pairwise_cons, ih hms]
    cases ms with
    | nil => simp
    | cons n ms =>
      have hn := hm n List.mem_cons_self
      rw [List.dropLast_cons_of_ne_nil (List.cons_ne_nil n ms), List.forall_mem_cons]
      refine and_congr_left fun _ => ⟨fun hcut => ?_, fun hlt => ?_⟩
      · have := hcut _ (List.mem_map_of_mem List.mem_cons_self)
        omega
      · intro _ hcut
        obtain ⟨k, hk, rfl⟩ := List.mem_map.1 hcut
        have := hm k hk
        omega

/-- The versions of a clock increase as long as all but the last are below the greatest. -/
theorem pairwise_given_iff {requests : List Request} :
    ((fresh .clock).given requests).Pairwise (· < ·) ↔
      ∀ m ∈ (unbounded 0 requests).dropLast, m < Int64.maxValue.toInt := by
  rw [← pairwise_map_min_iff (pairwise_unbounded 0 requests),
    ← map_toInt_given (v := fresh .clock) rfl (by decide), List.pairwise_map]
  simp only [Int64.lt_iff_toInt_lt]

theorem unbounded_le {requests : List Request} : ∀ {last bound : Int}, last ≤ bound →
    (∀ r ∈ requests, r.least ≤ bound) → ∀ m ∈ unbounded last requests,
      m ≤ bound + requests.length := by
  induction requests with
  | nil => intro _ _ _ _ m hm; cases hm
  | cons r requests ih =>
    intro last bound hlast h m hm
    obtain ⟨hr, hrest⟩ := List.forall_mem_cons.1 h
    rw [List.length_cons]
    rcases List.mem_cons.1 hm with rfl | hm
    · omega
    · have hnext : max r.least (last + 1) ≤ bound + 1 := by omega
      have := ih hnext (fun q hq => Int.le_trans (hrest q hq) (by omega)) m hm
      omega

/-- While what clocks read and requests carry is far from the greatest version, a clock gives
increasing versions. -/
theorem pairwise_given {requests : List Request} {bound : Int} (hbound : 0 ≤ bound)
    (hleast : ∀ r ∈ requests, r.least ≤ bound)
    (hroom : bound + requests.length < Int64.maxValue.toInt) :
    ((fresh .clock).given requests).Pairwise (· < ·) := by
  rw [pairwise_given_iff]
  intro m hm
  have := unbounded_le hbound hleast m (List.dropLast_subset _ hm)
  omega

/-- Whatever was requested before, a version moves on exactly when it is not the greatest; the
versions of a clock increase exactly when all but the last would stay below the greatest one if
they had no bounds. -/
theorem moving_on (kind : VersionKind) (earlier requests : List Request) (now p : Int64) :
    (p < (((fresh kind).behind earlier).next now (some p)).1 ↔ p ≠ Int64.maxValue) ∧
      (((fresh .clock).given requests).Pairwise (· < ·) ↔
        ∀ m ∈ (unbounded 0 requests).dropLast, m < Int64.maxValue.toInt) :=
  ⟨lt_after_iff, pairwise_given_iff⟩

/-- The greatest version stays under every strategy, and a clock that has given it gives it again.
-/
theorem exists_version_kept :
    (∀ kind, ¬Int64.maxValue < ((fresh kind).next 0 (some Int64.maxValue)).1) ∧
      ¬((fresh .clock).given [⟨0, some (Int64.maxValue - 1)⟩, ⟨0, some 5⟩]).Pairwise (· < ·) :=
  ⟨fun kind => by cases kind <;> decide, by decide⟩

end RecordGraph.Versions
