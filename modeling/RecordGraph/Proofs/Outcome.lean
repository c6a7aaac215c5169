/-!
# Outcomes of steps that may fail

How a chain of steps in `Except` comes to a result.

* `bind_eq_ok_iff`: a chain gives a result when each of its steps does.
* `foldlM_cons_eq_ok_iff`: so does a fold, whose first step is the first of its list.
* `foldlM_flatMap_eq_ok_iff`: a fold of folds is one fold.
* `mapM_eq_ok_iff`: steps along a list come to the list of their results.
-/
namespace RecordGraph

variable {ε α β : Type}

theorem exists_ok_of_isOk {x : Except ε α} (h : x.isOk = true) : ∃ a, x = .ok a := by
  cases x with
  | error e => cases h
  | ok a => exact ⟨a, rfl⟩

/-- A result that can be computed, with what can be decided of it. -/
theorem exists_ok_of_decide {x : Except ε α} {P : α → Prop} [DecidablePred P]
    (h : (x.toOption.any fun a => decide (P a)) = true) : ∃ a, x = .ok a ∧ P a := by
  cases x with
  | error e => cases h
  | ok a => exact ⟨a, rfl, of_decide_eq_true h⟩

theorem bind_eq_ok_iff {x : Except ε α} {f : α → Except ε β} {b : β} :
    x >>= f = .ok b ↔ ∃ a, x = .ok a ∧ f a = .ok b := by
  cases x with
  | error e => simp [bind, Except.bind]
  | ok a => simp [bind, Except.bind]

theorem ite_bind_eq_ok_iff {c : Prop} [Decidable c] {x y : Except ε α} {f : α → Except ε β}
    {b : β} : (if c then x >>= f else y >>= f) = .ok b ↔
      ∃ a, (if c then x else y) = .ok a ∧ f a = .ok b := by
  split <;> exact bind_eq_ok_iff

/-- A step that only checks a condition. -/
theorem ite_error_eq_ok_iff {c : Prop} [Decidable c] {e : ε} {a b : α} :
    (if c then .error e else .ok a) = Except.ok b ↔ ¬c ∧ b = a := by
  by_cases h : c
  · rw [if_pos h]
    exact ⟨nofun, fun hb => absurd h hb.1⟩
  · rw [if_neg h, Except.ok.injEq, eq_comm, and_iff_right h]

theorem foldlM_cons_eq_ok_iff {f : β → α → Except ε β} {a : α} {as : List α} {b c : β} :
    (a :: as).foldlM f b = .ok c ↔ ∃ b', f b a = .ok b' ∧ as.foldlM f b' = .ok c := by
  rw [List.foldlM_cons]; exact bind_eq_ok_iff

theorem foldlM_nil_eq_ok_iff {f : β → α → Except ε β} {b c : β} :
    ([] : List α).foldlM f b = .ok c ↔ b = c := by
  simp [pure, Except.pure]

/-- What every step of a fold keeps, the fold keeps. -/
theorem foldlM_keeps {f : β → α → Except ε β} {P : β → Prop} {as : List α}
    (hf : ∀ a ∈ as, ∀ b b', P b → f b a = .ok b' → P b') {b c : β} (hb : P b)
    (h : as.foldlM f b = .ok c) : P c := by
  induction as generalizing b with
  | nil => rw [foldlM_nil_eq_ok_iff] at h; exact h ▸ hb
  | cons a as ih =>
    obtain ⟨b', h1, h2⟩ := foldlM_cons_eq_ok_iff.1 h
    exact ih (fun x hx => hf x (List.mem_cons_of_mem _ hx)) (hf a List.mem_cons_self b b' hb h1) h2

/-- Every step of a fold that comes to a result does. -/
theorem foldlM_step_of_mem {f : β → α → Except ε β} {a : α} {as : List α} (ha : a ∈ as) {b c : β}
    (h : as.foldlM f b = .ok c) : ∃ b₁ b₂, f b₁ a = .ok b₂ := by
  induction as generalizing b with
  | nil => simp at ha
  | cons x as ih =>
    obtain ⟨b', h1, h2⟩ := foldlM_cons_eq_ok_iff.1 h
    rcases List.mem_cons.1 ha with rfl | ha
    · exact ⟨b, b', h1⟩
    · exact ih ha h2

/-- A fold whose steps are folds of smaller steps, each under a condition on what it is for, is the
fold of all the smaller steps. -/
theorem foldlM_flatMap_eq_ok_iff {γ : Type} {g : β → α → Except ε β} {f : β → γ → Except ε β}
    {ws : α → List γ} {P : α → Prop} {I : β → Prop}
    (hf : ∀ w b b', I b → f b w = .ok b' → I b') {as : List α}
    (hg : ∀ a ∈ as, ∀ b c, I b → (g b a = .ok c ↔ P a ∧ (ws a).foldlM f b = .ok c))
    {b c : β} (hb : I b) :
    as.foldlM g b = .ok c ↔ (∀ a ∈ as, P a) ∧ (as.flatMap ws).foldlM f b = .ok c := by
  induction as generalizing b with
  | nil => simp
  | cons a as ih =>
    rw [foldlM_cons_eq_ok_iff, List.flatMap_cons, List.foldlM_append, bind_eq_ok_iff,
      List.forall_mem_cons]
    have hrest : ∀ {b' : β}, (ws a).foldlM f b = .ok b' → (as.foldlM g b' = .ok c ↔
        (∀ x ∈ as, P x) ∧ (as.flatMap ws).foldlM f b' = .ok c) := fun h =>
      ih (fun x hx => hg x (List.mem_cons_of_mem _ hx)) (foldlM_keeps (fun w _ => hf w) hb h)
    constructor
    · rintro ⟨b', hstep, h⟩
      obtain ⟨ha, hstep⟩ := (hg a List.mem_cons_self b b' hb).1 hstep
      obtain ⟨has, h⟩ := (hrest hstep).1 h
      exact ⟨⟨ha, has⟩, b', hstep, h⟩
    · rintro ⟨⟨ha, has⟩, b', hstep, h⟩
      exact ⟨b', (hg a List.mem_cons_self b b' hb).2 ⟨ha, hstep⟩, (hrest hstep).2 ⟨has, h⟩⟩

/-- Every step along a list comes to a result. -/
theorem mapM_eq_ok_iff {f : α → Except ε β} : ∀ {as : List α} {bs : List β},
    as.mapM f = .ok bs ↔ as.map f = bs.map .ok
  | [], bs => by
    rw [List.mapM_nil]
    cases bs <;> simp [pure, Except.pure]
  | a :: as, bs => by
    rw [List.mapM_cons, bind_eq_ok_iff]
    constructor
    · rintro ⟨b, hb, h⟩
      obtain ⟨bs', hbs, h⟩ := bind_eq_ok_iff.1 h
      cases h
      rw [List.map_cons, List.map_cons, hb, mapM_eq_ok_iff.1 hbs]
    · intro h
      cases bs with
      | nil => cases h
      | cons b bs =>
        obtain ⟨hb, hbs⟩ := List.cons.inj h
        exact ⟨b, hb, bind_eq_ok_iff.2 ⟨bs, mapM_eq_ok_iff.2 hbs, rfl⟩⟩

theorem mapError_eq_ok_iff {δ : Type} {f : ε → δ} {x : Except ε α} {a : α} :
    x.mapError f = .ok a ↔ x = .ok a := by
  cases x with
  | ok b =>
    constructor
    · intro h
      cases h
      rfl
    · intro h
      cases h
      rfl
  | error e =>
    constructor
    · intro h
      cases h
    · intro h
      cases h

end RecordGraph
