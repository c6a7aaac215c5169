import Mathlib.Data.List.Forall2
import RecordGraph.Proofs.Outcome

/-!
# Two runs that agree

`Agree S x y` compares two outcomes: both are results, related by `S`, or neither is. What the
errors say may differ.

* `Agree.bind`, `Agree.foldlM`: runs whose steps agree.
* `Agree.exists_ok_iff`: one comes to a result exactly when the other does.
-/
namespace RecordGraph

variable {ε δ α β α' β' : Type}

/-- Both outcomes are results, and related, or both are errors. -/
inductive Agree (S : α → β → Prop) : Except ε α → Except δ β → Prop where
  | ok {a : α} {b : β} : S a b → Agree S (.ok a) (.ok b)
  | error (e : ε) (e' : δ) : Agree S (.error e) (.error e')

namespace Agree

variable {S : α → β → Prop} {S' : α' → β' → Prop}

theorem imp {x : Except ε α} {y : Except δ β} {T : α → β → Prop} (h : Agree S x y)
    (hST : ∀ a b, S a b → T a b) : Agree T x y := by
  cases h with
  | ok h => exact .ok (hST _ _ h)
  | error e e' => exact .error e e'

/-- What follows may rely on the first result. -/
theorem and_ok {x : Except ε α} {y : Except δ β} (h : Agree S x y) :
    Agree (fun a b => x = .ok a ∧ S a b) x y := by
  cases h with
  | ok h => exact .ok ⟨rfl, h⟩
  | error e e' => exact .error e e'

theorem bind {x : Except ε α} {y : Except δ β} {f : α → Except ε α'} {g : β → Except δ β'}
    (hx : Agree S x y) (hf : ∀ a b, S a b → Agree S' (f a) (g b)) :
    Agree S' (x >>= f) (y >>= g) := by
  cases hx with
  | ok h => exact hf _ _ h
  | error e e' => exact .error e e'

theorem mapError {x : Except ε α} {y : Except δ β} {ε' δ' : Type} (f : ε → ε') (g : δ → δ')
    (hx : Agree S x y) : Agree S (x.mapError f) (y.mapError g) := by
  cases hx with
  | ok h => exact .ok h
  | error e e' => exact .error (f e) (g e')

/-- Folds over corresponding members agree when every step does. -/
theorem foldlM {S : α → β → Prop} {f : α → α' → Except ε α} {g : β → β' → Except δ β} :
    ∀ {as : List α'} {bs : List β'} {a : α} {b : β},
      List.Forall₂ (fun x y => ∀ a b, S a b → Agree S (f a x) (g b y)) as bs → S a b →
      Agree S (as.foldlM f a) (bs.foldlM g b)
  | [], [], _, _, _, h => .ok h
  | _ :: _, _ :: _, _, _, .cons hxy hrest, h => by
    rw [List.foldlM_cons, List.foldlM_cons]
    exact (hxy _ _ h).bind fun _ _ h' => foldlM hrest h'

/-- Of two runs that agree, one comes to a result exactly when the other does. -/
theorem exists_ok_iff {x : Except ε α} {y : Except δ β} (h : Agree S x y) :
    (∃ a, x = .ok a) ↔ ∃ b, y = .ok b := by
  cases h with
  | ok _ => exact ⟨fun _ => ⟨_, rfl⟩, fun _ => ⟨_, rfl⟩⟩
  | error => exact ⟨fun ⟨_, h⟩ => (nomatch h), fun ⟨_, h⟩ => (nomatch h)⟩

theorem of_ok {a : α} {b : β} (h : Agree S (.ok a : Except ε α) (.ok b : Except δ β)) : S a b := by
  cases h with
  | ok h => exact h

end Agree

end RecordGraph
