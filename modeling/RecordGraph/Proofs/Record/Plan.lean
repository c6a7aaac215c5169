import RecordGraph.Proofs.Record.Course

/-!
# Saving as a plan

What saving a graph does, and in which order, is settled by the relations that are loaded: it is a
list of actions, each of them for the record at one place. Saving runs them one after the other, up
to the first that fails.

**Results.**
* `Record.plan`: the actions of saving a graph.
* `Record.save_eq_run`: saving is running its plan.
-/
namespace RecordGraph

namespace Record

/-- One thing that saving does, for the record at a place. -/
inductive Action where
  /-- Points a foreign key at the record of a relation. -/
  | refer (place : Place) (reference : Reference) (modified : Bool)
  /-- Takes a foreign key back. -/
  | forget (place : Place) (reference : Reference)
  /-- Points the foreign key of a related record at the record. -/
  | follow (place : Place) (reverse : Reverse) (i : Nat) (modified : Bool)
  | write (place : Place)
  /-- Writes the links of a replaced relation. -/
  | link (place : Place) (relation : ManyMany)
  /-- Takes note that the records of a relation are saved. -/
  | settle (place : Place) (identifier : String)
  deriving DecidableEq

namespace Action

variable {σ : Type}

def place : Action → Place
  | refer p _ _ | forget p _ | follow p _ _ _ | write p | link p _ | settle p _ => p

/-- What an action does to the record at its place. -/
def act (db : Connection σ) : Action → Saving σ Unit
  | refer _ reference modified => Saving.change fun y =>
    match y.one? reference.identifier with
    | some u => y.relink reference.column u.key modified
    | none => y
  | forget _ reference => Saving.change (·.relink reference.column .null true)
  | follow _ reverse i modified => do
    let y ← Saving.record
    Saving.onRelated reverse.identifier i (Saving.change (·.relink reverse.column y.key modified))
  | write _ => Record.write db
  | link _ relation => do
    let y ← Saving.record
    (db.run (.unlinkAll relation y.key)).onSecond
    (y.related relation.identifier).forM fun target =>
      (db.run (.link relation y.key target.key)).onSecond
    Saving.change (·.settle relation.identifier)
  | settle _ identifier => Saving.change (·.settle identifier)

/-- An action in a graph; each place may have a connection of its own. -/
def run (db : Place → Connection σ) (a : Action) : Saving σ Unit := do
  let _ ← Saving.below a.place (a.act (db a.place))

end Action

/-- Actions one after the other. -/
def runPlan {σ : Type} (db : Place → Connection σ) (plan : List Action) : Saving σ Unit :=
  plan.forM (Action.run db)

/-! ## The plan -/

/-- What is done for each of some records, in turn. -/
def planEach (records : List Record) (f : Nat → Record → List Action) : List Action :=
  (List.range records.length).flatMap fun i => (records[i]?.map (f i)).getD []

def planReference (plan : Place → Record → List Action) (p : Place) (reference : Reference) :
    Option (Slot Record) → List Action
  | none => []
  | some ⟨.one (some u), modified⟩ => plan (p ++ [(reference.identifier, 0)]) u
    ++ [.settle p reference.identifier, .refer p reference modified]
  | some ⟨.one none, modified⟩ =>
    .settle p reference.identifier :: if modified then [.forget p reference] else []
  | some ⟨.many _, _⟩ => [.settle p reference.identifier]

def planReverse (plan : Place → Record → List Action) (p : Place) (reverse : Reverse) :
    Option (Slot Record) → List Action
  | none => []
  | some slot => planEach slot.related.toList (fun i c =>
      .follow p reverse i slot.modified :: plan (p ++ [(reverse.identifier, i)]) c)
    ++ [.settle p reverse.identifier]

def planManyMany (plan : Place → Record → List Action) (p : Place) (relation : ManyMany) :
    Option (Slot Record) → List Action
  | none => []
  | some slot => planEach slot.related.toList (fun i => plan (p ++ [(relation.identifier, i)]))
    ++ [if slot.modified then .link p relation else .settle p relation.identifier]

/-- The plan for a record at a place, whose related records are nested less deep than `n`. -/
def planWithin : Nat → Place → Record → List Action
  | 0, _, _ => []
  | n + 1, p, r =>
    r.table.references.flatMap (fun a =>
        planReference (planWithin n) p a (r.slots.find? a.identifier))
      ++ .write p :: (r.table.reverses.flatMap (fun a =>
          planReverse (planWithin n) p a (r.slots.find? a.identifier))
        ++ r.table.manyManys.flatMap (fun a =>
          planManyMany (planWithin n) p a (r.slots.find? a.identifier)))

/-- What saving a graph does. -/
def plan (r : Record) : List Action := planWithin r.depth [] r

/-! ## Records at places -/

theorem setRelated_setRelated (r : Record) (identifier : String) (i : Nat) (a b : Record) :
    (r.setRelated identifier i a).setRelated identifier i b = r.setRelated identifier i b := by
  have hset : ∀ related : Related Record, (related.set i a).set i b = related.set i b := by
    intro related
    match related with
    | .one none => rfl
    | .one (some old) =>
      cases i <;> rfl
    | .many rs => simp [Related.set]
  unfold setRelated NameMap.modify
  simp only [List.map_map, Record.mk.injEq, NameMap.mk.injEq, true_and, and_true]
  refine List.map_congr_left fun e _ => ?_
  by_cases he : e.1 = identifier <;> simp [he, hset]

/-- Of two records put at one place, the later counts. -/
theorem putAt_putAt {p : Place} {r old : Record} (h : r.at? p = some old) (y z : Record) :
    (r.putAt p y).putAt p z = r.putAt p z := by
  induction p generalizing r with
  | nil => rfl
  | cons step p ih =>
    obtain ⟨identifier, i⟩ := step
    obtain ⟨child, hc, h⟩ := at?_cons_eq_some_iff.1 h
    rw [putAt_cons hc, putAt_cons (child?_setRelated_self hc _), putAt_cons hc, ih h,
      setRelated_setRelated]

theorem at?_putAt_self {p : Place} {r old : Record} (h : r.at? p = some old) (y : Record) :
    (r.putAt p y).at? p = some y := by
  have hat := at?_putAt_append h y []
  rwa [List.append_nil] at hat

theorem putAt_append {p : Place} {r x : Record} (h : r.at? p = some x) (q : Place) (y : Record) :
    r.putAt (p ++ q) y = r.putAt p (x.putAt q y) := by
  induction p generalizing r with
  | nil =>
    cases h
    rfl
  | cons step p ih =>
    obtain ⟨identifier, i⟩ := step
    obtain ⟨child, hc, h⟩ := at?_cons_eq_some_iff.1 h
    rw [List.cons_append, putAt_cons hc, putAt_cons hc, ih h]

theorem depth_congr {a b : Record} (h : a.slots = b.slots) : a.depth = b.depth := by
  obtain ⟨_, _, _, _, ⟨slots⟩, _⟩ := a
  obtain ⟨_, _, _, _, ⟨slots'⟩, _⟩ := b
  cases h
  rw [depth, depth]

/-- Relations and the table settle the plan. -/
theorem planWithin_congr {a b : Record} (ht : a.table = b.table) (hs : a.slots = b.slots) (n : Nat)
    (p : Place) : planWithin n p a = planWithin n p b := by
  cases n with
  | zero => rfl
  | succ n => rw [planWithin, planWithin, ht, hs]

theorem planWithin_ne_nil {n : Nat} (hn : n ≠ 0) (p : Place) (r : Record) :
    planWithin n p r ≠ [] := by
  obtain ⟨n, rfl⟩ := Nat.exists_eq_succ_of_ne_zero hn
  rw [planWithin]
  simp

/-! ## Saving is running the plan -/

section
variable {σ : Type} (db : Connection σ)

/-- The other relations are as they were. -/
def Others (identifier : String) (a b : Record) : Prop :=
  ∀ other, other ≠ identifier → b.slots.find? other = a.slots.find? other

theorem Others.modify {identifier : String} {a b : Record} (h : Others identifier a b)
    (f : Slot Record → Slot Record) :
    Others identifier a { b with slots := b.slots.modify identifier f } := fun other hne => by
  rw [← h other hne]
  exact NameMap.find?_modify_of_ne _ _ hne

/-- Actions do to a graph what `x` does to the record `r` at a place of it. -/
def Does (p : Place) (plan : List Action) (x : Saving σ Unit) (r : Record) : Prop :=
  ∀ g s, g.at? p = some r → ∃ g', runPlan (fun _ => db) plan (g, s) =
    ((x (r, s)).1, (g', (x (r, s)).2.2)) ∧
      (plan = [] ∧ g' = g ∧ (x (r, s)).2.1 = r ∨ plan ≠ [] ∧ g' = g.putAt p (x (r, s)).2.1)

variable {db} {p : Place} {r : Record}

theorem runPlan_append (db : Place → Connection σ) (plan plan' : List Action) :
    runPlan db (plan ++ plan') = (do runPlan db plan; runPlan db plan' : Saving σ Unit) :=
  List.forM_append

namespace Does

/-- Nothing to do. -/
theorem nil {x : Saving σ Unit} (hx : ∀ s, x (r, s) = (.ok (), (r, s))) : Does db p [] x r := by
  intro g s _
  rw [hx]
  exact ⟨g, rfl, .inl ⟨rfl, rfl, rfl⟩⟩

/-- An action does what it says. -/
theorem action {a : Action} (ha : a.place = p) : Does db p [a] (a.act db) r := by
  intro g s hg
  subst ha
  refine ⟨_, ?_, .inr ⟨by simp, rfl⟩⟩
  rw [runPlan, List.forM, Session.bind_run, Action.run, Session.bind_run, Saving.below_run hg]
  rcases a.act db (r, s) with ⟨e | ⟨⟩, y, s'⟩ <;> rfl

theorem congr {plan : List Action} {x x' : Saving σ Unit} (h : Does db p plan x r)
    (hx : ∀ s, x (r, s) = x' (r, s)) : Does db p plan x' r := by
  intro g s hg
  rw [← hx]
  exact h g s hg

/-- One thing and then another. -/
theorem bind {plan plan' : List Action} {x y : Saving σ Unit} (hx : Does db p plan x r)
    (hy : ∀ s r' s', x (r, s) = (.ok (), (r', s')) → Does db p plan' y r') :
    Does db p (plan ++ plan') (do x; y) r := by
  intro g s hg
  obtain ⟨g₁, hrun, hg₁⟩ := hx g s hg
  rw [runPlan_append, Session.bind_run, Session.bind_run, hrun]
  rcases hxr : x (r, s) with ⟨e | ⟨⟩, r₁, s₁⟩
  · -- no plan without actions fails
    rw [hxr] at hrun hg₁
    refine ⟨g₁, rfl, ?_⟩
    rcases hg₁ with ⟨rfl, -, -⟩ | ⟨hne, rfl⟩
    · cases hrun
    · exact .inr ⟨by simp [hne], rfl⟩
  · rw [hxr] at hg₁
    have hat : g₁.at? p = some r₁ := by
      rcases hg₁ with ⟨-, rfl, rfl⟩ | ⟨-, rfl⟩
      · exact hg
      · exact at?_putAt_self hg r₁
    obtain ⟨g₂, hrun₂, hg₂⟩ := hy s r₁ s₁ hxr g₁ s₁ hat
    refine ⟨g₂, hrun₂, ?_⟩
    rcases hg₁ with ⟨rfl, rfl, rfl⟩ | ⟨hne, rfl⟩
    · rcases hg₂ with ⟨rfl, rfl, h⟩ | ⟨hne', rfl⟩
      · exact .inl ⟨rfl, rfl, h⟩
      · exact .inr ⟨by simpa using hne', rfl⟩
    · refine .inr ⟨by simp [hne], ?_⟩
      rcases hg₂ with ⟨-, rfl, h⟩ | ⟨-, rfl⟩
      · simp only at h ⊢
        rw [h]
      · exact putAt_putAt hg _ _

/-- What is done for a related record, from where the relation starts. -/
theorem onRelated {identifier : String} {i : Nat} {c : Record} {plan : List Action}
    {x : Saving σ Unit} (hc : r.child? identifier i = some c) (hne : plan ≠ [])
    (h : Does db (p ++ [(identifier, i)]) plan x c) :
    Does db p plan (Saving.onRelated identifier i x) r := by
  intro g s hg
  have hat : g.at? (p ++ [(identifier, i)]) = some c := (at?_concat hg ..).trans hc
  obtain ⟨g', hrun, hg'⟩ := h g s hat
  obtain ⟨-, rfl⟩ := hg'.resolve_left fun h => hne h.1
  rw [Saving.onRelated_run hc]
  refine ⟨_, hrun, .inr ⟨hne, ?_⟩⟩
  rw [putAt_append hg, putAt_cons hc]
  rfl

/-- What is done for each record of a relation. `I` is what the others may rely on. -/
theorem onEach {identifier : String} {x : Saving σ Unit} {f : Nat → Record → List Action}
    {I : Record → Prop} (hr : I r) (hI : ∀ y i c, I y → I (y.setRelated identifier i c))
    (h : ∀ y i c, I y → y.child? identifier i = some c → r.child? identifier i = some c →
      Does db p (f i c) (Saving.onRelated identifier i x) y) :
    Does db p (planEach (r.related identifier) f) (Saving.onEach identifier x) r := by
  -- the records that are still to come are as they were
  have hall : ∀ (is : List Nat) (y : Record), is.Nodup → I y →
      (∀ i ∈ is, y.child? identifier i = r.child? identifier i) →
        Does db p (is.flatMap fun i => (((r.related identifier)[i]?).map (f i)).getD [])
          (is.forM fun i => Saving.onRelated identifier i x) y := by
    intro is
    induction is with
    | nil => exact fun y _ _ _ => .nil fun _ => rfl
    | cons i is ih =>
      intro y hnd hy hsame
      obtain ⟨hi, hnd⟩ := List.nodup_cons.1 hnd
      rw [List.flatMap_cons, List.forM]
      refine Does.bind ?_ fun s y' s' hrun => ?_
      · have hsame := hsame i List.mem_cons_self
        cases hc : r.child? identifier i with
        | none =>
          have hnone : (r.related identifier)[i]? = none := hc
          rw [hnone]
          exact .nil fun s => Saving.onRelated_run_none (hsame.trans hc) x s
        | some c =>
          have hsome : (r.related identifier)[i]? = some c := hc
          rw [hsome]
          exact h y i c hy (hsame.trans hc) hc
      · have hrest := fun k (hk : k ∈ is) => hsame k (List.mem_cons_of_mem _ hk)
        cases hc : y.child? identifier i with
        | none =>
          rw [Saving.onRelated_run_none hc] at hrun
          cases hrun
          exact ih y hnd hy hrest
        | some c =>
          rw [Saving.onRelated_run hc] at hrun
          obtain ⟨-, hrun⟩ := Prod.mk.inj hrun
          obtain ⟨rfl, -⟩ := Prod.mk.inj hrun
          refine ih _ hnd (hI y i _ hy) fun k hk => ?_
          rw [child?_setRelated_of_ne _ (by rintro ⟨⟩; exact hi hk), hrest k hk]
  exact (hall _ r List.nodup_range hr fun _ _ => rfl).congr fun s => by
    rw [Saving.onEach, Saving.record_bind]

/-- What is done for each relation of a kind, with the relations as they were before. `I` is what
the others may rely on. -/
theorem forM {α : Type} {as : List α} {name : α → String} {x : α → Saving σ Unit}
    {f : α → Option (Slot Record) → List Action} {I : Record → Prop}
    {slots : NameMap (Slot Record)} (hnd : (as.map name).Nodup) (hr : I r)
    (hslots : ∀ a ∈ as, r.slots.find? (name a) = slots.find? (name a))
    (hx : ∀ a ∈ as, ∀ y s, I y → I (x a (y, s)).2.1 ∧ Others (name a) y (x a (y, s)).2.1)
    (h : ∀ a ∈ as, ∀ y, I y → y.slots.find? (name a) = slots.find? (name a) →
      Does db p (f a (slots.find? (name a))) (x a) y) :
    Does db p (as.flatMap fun a => f a (slots.find? (name a))) (as.forM x) r := by
  -- the relations that are still to come are as they were
  have hall : ∀ (as' : List α) (y : Record), as' ⊆ as → (as'.map name).Nodup → I y →
      (∀ a ∈ as', y.slots.find? (name a) = slots.find? (name a)) →
        Does db p (as'.flatMap fun a => f a (slots.find? (name a))) (as'.forM x) y := by
    intro as'
    induction as' with
    | nil => exact fun y _ _ _ _ => .nil fun _ => rfl
    | cons a as' ih =>
      intro y hsub hnd hy hsame
      obtain ⟨ha, hnd⟩ := List.nodup_cons.1 hnd
      have ham := hsub List.mem_cons_self
      rw [List.flatMap_cons, List.forM]
      refine Does.bind (h a ham y hy (hsame a List.mem_cons_self)) fun s y' s' hrun => ?_
      obtain ⟨hy', hothers⟩ := hx a ham y s hy
      rw [hrun] at hy' hothers
      refine ih y' (List.subset_of_cons_subset hsub) hnd hy' fun b hb => ?_
      have hne : name b ≠ name a := fun hn => ha (hn ▸ List.mem_map_of_mem hb)
      rw [hothers _ hne, hsame b (List.mem_cons_of_mem _ hb)]
  exact hall as r (List.Subset.refl as) hnd hr hslots

end Does

/-! ### What saving a relation leaves alone -/

theorem onEach_others (identifier : String) (x : Saving σ Unit) (y : Record) (s : σ) :
    let y' := (Saving.onEach identifier x (y, s)).2.1
    y.SameRow y' ∧ Others identifier y y' := by
  refine Session.forM_keeps (P := fun rs : Record × σ => y.SameRow rs.1 ∧ Others identifier y rs.1)
    (fun i _ ⟨r, s⟩ h => ?_) ⟨.refl y, fun _ _ => rfl⟩
  cases hc : r.child? identifier i with
  | none =>
    rw [Saving.onRelated_run_none hc]
    exact h
  | some c =>
    rw [Saving.onRelated_run hc]
    exact ⟨⟨h.1.table, h.1.values, h.1.dirty, h.1.isNew⟩, h.2.modify _⟩

theorem saveReference_others (save : Saving σ Unit) (reference : Reference) (y : Record) (s : σ) :
    Others reference.identifier y (saveReference save reference (y, s)).2.1 := by
  let P : Record × σ → Prop := fun rs => Others reference.identifier y rs.1
  rw [saveReference, Saving.record_bind]
  cases hslot : y.slots.find? reference.identifier with
  | none => exact fun _ _ => rfl
  | some slot =>
    have hsettle : ∀ rs, P rs → P (rs.1.settle reference.identifier, rs.2) :=
      fun _ hrs => hrs.modify _
    obtain ⟨related, modified⟩ := slot
    cases related with
    | many records =>
      have hstart : P (y, s) := fun _ _ => rfl
      exact hsettle (y, s) hstart
    | one record =>
      refine Session.bind_keeps (P := P) (onEach_others _ save y s).2 fun _ rs _ hrs => ?_
      have hrelink : ∀ key rs, P rs → P (rs.1.relink reference.column key modified, rs.2) := by
        intro key rs hrs other hne
        rw [← hrs other hne]
        exact congrArg (·.find? other) (relink_slots ..)
      refine Session.bind_keeps (P := P) hrs fun r rs _ hrs => ?_
      refine Session.bind_keeps (P := P) (hsettle rs hrs) fun _ rs _ hrs => ?_
      cases record with
      | none =>
        cases modified with
        | false => exact hrs
        | true => exact hrelink .null rs hrs
      | some target =>
        cases r.one? reference.identifier with
        | none => exact hrs
        | some u => exact hrelink u.key rs hrs

theorem saveReverse_others (save : Saving σ Unit) (key : Value) (reverse : Reverse) (y : Record)
    (s : σ) : let y' := (saveReverse save key reverse (y, s)).2.1
    y.SameRow y' ∧ Others reverse.identifier y y' := by
  rw [saveReverse, Saving.record_bind]
  cases hslot : y.slots.find? reverse.identifier with
  | none => exact ⟨.refl y, fun _ _ => rfl⟩
  | some slot =>
    refine Session.bind_keeps
      (P := fun rs : Record × σ => y.SameRow rs.1 ∧ Others reverse.identifier y rs.1)
      (onEach_others _ _ y s) fun _ rs _ h => ?_
    exact ⟨⟨h.1.table, h.1.values, h.1.dirty, h.1.isNew⟩, h.2.modify _⟩

theorem saveManyMany_others (db : Connection σ) (save : Saving σ Unit) (key : Value)
    (relation : ManyMany) (y : Record) (s : σ) :
    let y' := (saveManyMany db save key relation (y, s)).2.1
    y.SameRow y' ∧ Others relation.identifier y y' := by
  let P : Record × σ → Prop := fun rs => y.SameRow rs.1 ∧ Others relation.identifier y rs.1
  rw [saveManyMany, Saving.record_bind]
  cases hslot : y.slots.find? relation.identifier with
  | none => exact ⟨.refl y, fun _ _ => rfl⟩
  | some slot =>
    have hsettle : ∀ rs : Record × σ, P rs → P (rs.1.settle relation.identifier, rs.2) :=
      fun rs h => ⟨⟨h.1.table, h.1.values, h.1.dirty, h.1.isNew⟩, h.2.modify _⟩
    refine Session.bind_keeps (P := P) (onEach_others _ save y s) fun _ rs _ h => ?_
    split
    · rw [Saving.record_bind]
      have hrun : ∀ (c : Command) (rs : Record × σ), P rs → P ((db.run c).onSecond rs).2 :=
        fun c rs h => h
      refine Session.bind_keeps (P := P) (hrun _ rs h) fun _ rs _ h => ?_
      exact Session.bind_keeps (P := P) (Session.forM_keeps (fun _ _ rs h => hrun _ rs h) h)
        fun _ rs _ h => hsettle rs h
    · exact hsettle rs h

/-! ### Relation by relation -/

section
variable {db : Connection σ} {p : Place} {y : Record} {plan : Place → Record → List Action}
  {save : Saving σ Unit}

theorem one?_settle (r : Record) (identifier other : String) :
    (r.settle identifier).one? other = r.one? other := by
  have hrelation : (r.settle identifier).relation? other = r.relation? other := by
    simp only [relation?, settle, NameMap.find?_modify]
    split
    · cases r.slots.find? other <;> rfl
    · rfl
  rw [one?, one?, hrelation]

/-- Nothing is done for a relation that leads to no record. -/
theorem onEach_none {identifier : String} {modified : Bool}
    (hslot : y.slots.find? identifier = some ⟨.one none, modified⟩) (s : σ) :
    Saving.onEach identifier save (y, s) = (.ok (), (y, s)) := by
  rw [Saving.onEach, Saving.record_bind, related_eq hslot]
  rfl

theorem onEach_one {identifier : String} {u : Record} {modified : Bool}
    (hslot : y.slots.find? identifier = some ⟨.one (some u), modified⟩) (s : σ) :
    Saving.onEach identifier save (y, s) = Saving.onRelated identifier 0 save (y, s) := by
  rw [Saving.onEach, Saving.record_bind, related_eq hslot]
  have hrange : List.range (Related.one (some u)).toList.length = [0] := rfl
  rw [hrange, List.forM, Session.bind_run]
  rcases Saving.onRelated identifier 0 save (y, s) with ⟨e | ⟨⟩, rs⟩ <;> rfl

theorem saveReference_does {reference : Reference}
    (hsave : ∀ c, y.child? reference.identifier 0 = some c →
      Does db (p ++ [(reference.identifier, 0)]) (plan (p ++ [(reference.identifier, 0)]) c) save
        c ∧ plan (p ++ [(reference.identifier, 0)]) c ≠ []) :
    Does db p (planReference plan p reference (y.slots.find? reference.identifier))
      (saveReference save reference) y := by
  have hsettle : ∀ r, Does db p [.settle p reference.identifier]
      ((Action.settle p reference.identifier).act db) r := fun _ => .action rfl
  cases hslot : y.slots.find? reference.identifier with
  | none =>
    refine .nil fun s => ?_
    rw [saveReference, Saving.record_bind]
    simp only [hslot]
    rfl
  | some slot =>
    obtain ⟨related, modified⟩ := slot
    cases related with
    | many records =>
      refine (hsettle y).congr fun s => ?_
      rw [saveReference, Saving.record_bind]
      simp only [hslot]
      rfl
    | one record =>
    cases record with
    | none =>
      cases modified with
      | false =>
        refine (hsettle y).congr fun s => ?_
        rw [saveReference, Saving.record_bind]
        simp only [hslot]
        rw [Session.bind_run, onEach_none hslot]
        rfl
      | true =>
        have hforget : ∀ r, Does db p [.forget p reference]
            ((Action.forget p reference).act db) r := fun _ => .action rfl
        refine ((hsettle y).bind fun _ r _ _ => hforget r).congr fun s => ?_
        rw [saveReference, Saving.record_bind]
        simp only [hslot]
        rw [Session.bind_run, Session.bind_run, onEach_none hslot]
        rfl
    | some u =>
      have hu : y.child? reference.identifier 0 = some u := child?_of_one hslot rfl
      have hrefer : ∀ r, Does db p [.refer p reference modified]
          ((Action.refer p reference modified).act db) r := fun _ => .action rfl
      obtain ⟨hdoes, hne⟩ := hsave u hu
      refine ((hdoes.onRelated hu hne).bind fun _ r _ _ =>
        (hsettle r).bind fun _ r' _ _ => hrefer r').congr fun s => ?_
      rw [saveReference, Saving.record_bind]
      simp only [hslot]
      rw [Session.bind_run, Session.bind_run, onEach_one hslot]
      rcases Saving.onRelated reference.identifier 0 save (y, s) with ⟨e | ⟨⟩, r', s'⟩
      · rfl
      · simp only
        rw [Saving.record_bind, Session.bind_run, Session.bind_run]
        simp only [Action.act, Saving.change, one?_settle]
        cases r'.one? reference.identifier <;> rfl

theorem saveReverse_does {reverse : Reverse}
    (hsave : ∀ i c, y.child? reverse.identifier i = some c → ∀ c', c'.table = c.table →
      c'.slots = c.slots → Does db (p ++ [(reverse.identifier, i)])
        (plan (p ++ [(reverse.identifier, i)]) c) save c' ∧
          plan (p ++ [(reverse.identifier, i)]) c ≠ []) :
    Does db p (planReverse plan p reverse (y.slots.find? reverse.identifier))
      (saveReverse save y.key reverse) y := by
  cases hslot : y.slots.find? reverse.identifier with
  | none =>
    refine .nil fun s => ?_
    rw [saveReverse, Saving.record_bind]
    simp only [hslot]
    rfl
  | some slot =>
    have heach : Does db p (planEach (y.related reverse.identifier) fun i c =>
        .follow p reverse i slot.modified :: plan (p ++ [(reverse.identifier, i)]) c)
        (Saving.onEach reverse.identifier do
          Saving.change (·.relink reverse.column y.key slot.modified)
          save) y := by
      refine Does.onEach (I := fun r => r.key = y.key) rfl (fun _ _ _ h => h)
        fun r i c hr hc hy => ?_
      -- first the foreign key, then the related record
      refine Does.congr (Does.bind (x := (Action.follow p reverse i slot.modified).act db)
        (y := Saving.onRelated reverse.identifier i save) (.action rfl) fun s r' s' hrun => ?_)
          fun s => ?_
      · rw [Action.act, Saving.record_bind, Saving.onRelated_run hc] at hrun
        obtain ⟨-, hrun⟩ := Prod.mk.inj hrun
        obtain ⟨rfl, -⟩ := Prod.mk.inj hrun
        obtain ⟨hdoes, hne⟩ := hsave i c hy (c.relink reverse.column r.key slot.modified)
          (relink_table ..) (relink_slots ..)
        exact hdoes.onRelated (child?_setRelated_self hc _) hne
      · rw [Session.bind_run, Action.act, Saving.record_bind, Saving.onRelated_run hc,
          Saving.onRelated_run hc, hr, Session.bind_run]
        simp only [Saving.change]
        rw [Saving.onRelated_run (child?_setRelated_self hc _), setRelated_setRelated]
    rw [related_eq hslot] at heach
    refine Does.congr (heach.bind fun _ r' _ _ =>
      (.action rfl : Does db p [.settle p reverse.identifier]
        ((Action.settle p reverse.identifier).act db) r')) fun s => ?_
    rw [saveReverse, Saving.record_bind]
    simp only [hslot]
    rfl

theorem saveManyMany_does {relation : ManyMany}
    (hsave : ∀ i c, y.child? relation.identifier i = some c →
      Does db (p ++ [(relation.identifier, i)]) (plan (p ++ [(relation.identifier, i)]) c) save c ∧
        plan (p ++ [(relation.identifier, i)]) c ≠ []) :
    Does db p (planManyMany plan p relation (y.slots.find? relation.identifier))
      (saveManyMany db save y.key relation) y := by
  cases hslot : y.slots.find? relation.identifier with
  | none =>
    refine .nil fun s => ?_
    rw [saveManyMany, Saving.record_bind]
    simp only [hslot]
    rfl
  | some slot =>
    have heach : Does db p (planEach (y.related relation.identifier) fun i =>
        plan (p ++ [(relation.identifier, i)])) (Saving.onEach relation.identifier save) y := by
      refine Does.onEach (I := fun _ => True) trivial (fun _ _ _ h => h) fun r i c _ hc hy => ?_
      obtain ⟨hdoes, hne⟩ := hsave i c hy
      exact hdoes.onRelated hc hne
    rw [related_eq hslot] at heach
    obtain ⟨related, modified⟩ := slot
    have hkey : ∀ s r' s', Saving.onEach relation.identifier save (y, s) = (.ok (), (r', s')) →
        r'.key = y.key := by
      intro s r' s' hrun
      have hsame := (onEach_others relation.identifier save y s).1
      rw [hrun] at hsame
      exact key_congr hsame.table (by rw [hsame.values])
    cases modified with
    | false =>
      refine Does.congr (heach.bind fun _ r' _ _ =>
        (.action rfl : Does db p [.settle p relation.identifier]
          ((Action.settle p relation.identifier).act db) r')) fun s => ?_
      rw [saveManyMany, Saving.record_bind]
      simp only [hslot]
      rfl
    | true =>
      refine Does.congr (heach.bind fun _ r' _ _ =>
        (.action rfl : Does db p [.link p relation] ((Action.link p relation).act db) r'))
          fun s => ?_
      rw [saveManyMany, Saving.record_bind]
      simp only [hslot]
      rw [Session.bind_run, Session.bind_run]
      rcases hrun : Saving.onEach relation.identifier save (y, s) with ⟨e | ⟨⟩, r', s'⟩
      · rfl
      · have hkey := hkey s r' s' hrun
        simp only [if_true]
        rw [Action.act, Saving.record_bind, Saving.record_bind, hkey]

end

/-- The relations that saving others leaves alone. -/
theorem forM_others {α : Type} {as : List α} {name : α → String} {x : α → Saving σ Unit}
    {I : Record → Prop}
    (hx : ∀ a ∈ as, ∀ y s, I y → I (x a (y, s)).2.1 ∧ Others (name a) y (x a (y, s)).2.1)
    {r r' : Record} {s s' : σ} (hr : I r) (h : as.forM x (r, s) = (.ok (), (r', s'))) :
    I r' ∧ ∀ other, other ∉ as.map name → r'.slots.find? other = r.slots.find? other := by
  have hkeep := Session.forM_keeps (P := fun rs : Record × σ =>
    I rs.1 ∧ ∀ other, other ∉ as.map name → rs.1.slots.find? other = r.slots.find? other)
    (fun a ha ⟨y, s⟩ hy => by
      obtain ⟨hI, hothers⟩ := hx a ha y s hy.1
      refine ⟨hI, fun other hother => ?_⟩
      rw [hothers other fun hn => hother (hn ▸ List.mem_map_of_mem ha)]
      exact hy.2 other hother) (s := (r, s)) ⟨hr, fun _ _ => rfl⟩
  rwa [h] at hkeep

/-! ### All relations -/

section
variable {db : Connection σ} {p : Place} {plan : Place → Record → List Action}
  {save : Saving σ Unit} {r : Record} (hnames : r.table.relationNames.Nodup)
  (hsave : ∀ identifier i c, r.child? identifier i = some c → ∀ c', c'.table = c.table →
    c'.slots = c.slots →
      Does db (p ++ [(identifier, i)]) (plan (p ++ [(identifier, i)]) c) save c' ∧
        plan (p ++ [(identifier, i)]) c ≠ [])
include hnames hsave

omit hnames hsave in
theorem child?_congr {a b : Record} {identifier : String}
    (h : a.slots.find? identifier = b.slots.find? identifier) (i : Nat) :
    a.child? identifier i = b.child? identifier i := by
  rw [child?, child?, related_congr h]

theorem references_does : Does db p
    (r.table.references.flatMap fun a => planReference plan p a (r.slots.find? a.identifier))
      (r.table.references.forM (saveReference save)) r := by
  rw [Table.relationNames, List.nodup_append, List.nodup_append] at hnames
  refine Does.forM (I := fun _ => True) (f := planReference plan p) hnames.1.1 trivial
    (fun _ _ => rfl) (fun a _ y s _ => ⟨trivial, saveReference_others save a y s⟩)
    fun a _ y _ hy => ?_
  rw [← hy]
  exact saveReference_does fun c hc => hsave _ 0 c (child?_congr hy 0 ▸ hc) c rfl rfl

theorem reverses_does {y : Record} (hy : ∀ a ∈ r.table.reverses,
    y.slots.find? a.identifier = r.slots.find? a.identifier) : Does db p
      (r.table.reverses.flatMap fun a => planReverse plan p a (r.slots.find? a.identifier))
        (r.table.reverses.forM (saveReverse save y.key)) y := by
  rw [Table.relationNames, List.nodup_append, List.nodup_append] at hnames
  refine Does.forM (I := fun z => z.key = y.key) (f := planReverse plan p) hnames.1.2.1 rfl hy
    (fun a _ z s hz => ?_) fun a _ z hz hslot => ?_
  · obtain ⟨hsame, hothers⟩ := saveReverse_others save y.key a z s
    exact ⟨(key_congr hsame.table (by rw [hsame.values])).trans hz, hothers⟩
  · rw [← hz, ← hslot]
    exact saveReverse_does fun i c hc => hsave _ i c (child?_congr hslot i ▸ hc)

theorem manyManys_does {y : Record} (hy : ∀ a ∈ r.table.manyManys,
    y.slots.find? a.identifier = r.slots.find? a.identifier) : Does db p
      (r.table.manyManys.flatMap fun a => planManyMany plan p a (r.slots.find? a.identifier))
        (r.table.manyManys.forM (saveManyMany db save y.key)) y := by
  rw [Table.relationNames, List.nodup_append, List.nodup_append] at hnames
  refine Does.forM (I := fun z => z.key = y.key) (f := planManyMany plan p) hnames.2.1 rfl hy
    (fun a _ z s hz => ?_) fun a _ z hz hslot => ?_
  · obtain ⟨hsame, hothers⟩ := saveManyMany_others db save y.key a z s
    exact ⟨(key_congr hsame.table (by rw [hsame.values])).trans hz, hothers⟩
  · rw [← hz, ← hslot]
    exact saveManyMany_does fun i c hc => hsave _ i c (child?_congr hslot i ▸ hc) c rfl rfl

/-- What needs the key of a record, which is saved by then. -/
theorem behind_does {y : Record} (hy : ∀ other, other ∉ r.table.references.map (·.identifier) →
    y.slots.find? other = r.slots.find? other) : Does db p
      (r.table.reverses.flatMap (fun a => planReverse plan p a (r.slots.find? a.identifier))
        ++ r.table.manyManys.flatMap fun a => planManyMany plan p a (r.slots.find? a.identifier))
          (saveBehind db save r.table y.key) y := by
  have hnd := hnames
  rw [Table.relationNames, List.nodup_append, List.nodup_append] at hnd
  obtain ⟨⟨-, -, hreverse⟩, -, hmany⟩ := hnd
  refine Does.bind (reverses_does hnames hsave fun a ha => hy _ fun hm =>
    hreverse _ hm _ (List.mem_map_of_mem ha) rfl) fun s z s' hrun => ?_
  obtain ⟨hkey, hothers⟩ := forM_others (I := fun z => z.key = y.key) (fun a _ z s hz => by
    obtain ⟨hsame, hothers⟩ := saveReverse_others save y.key a z s
    exact ⟨(key_congr hsame.table (by rw [hsame.values])).trans hz, hothers⟩) rfl hrun
  rw [← hkey]
  refine manyManys_does hnames hsave fun a ha => ?_
  have hne := fun name hm => hmany name (List.mem_append.2 hm) _ (List.mem_map_of_mem ha)
  rw [hothers _ fun hm => hne _ (.inr hm) rfl, hy _ fun hm => hne _ (.inl hm) rfl]

end

/-- Saving a record at a place of a graph is running the plan for it. -/
theorem saveWithin_does (db : Connection σ) (n : Nat) {r : Record} (p : Place)
    (hnames : ∀ q x, r.at? q = some x → x.table.relationNames.Nodup) (hn : r.depth ≤ n) :
    Does db p (planWithin n p r) (saveWithin db n) r := by
  -- on how deep related records are nested
  induction n generalizing r p with
  | zero =>
    have hpos := length_lt_depth_of_at? (p := []) (r := r) rfl
    omega
  | succ n ih =>
    have hsave : ∀ identifier i c, r.child? identifier i = some c → ∀ c', c'.table = c.table →
        c'.slots = c.slots → Does db (p ++ [(identifier, i)])
          (planWithin n (p ++ [(identifier, i)]) c) (saveWithin db n) c' ∧
            planWithin n (p ++ [(identifier, i)]) c ≠ [] := by
      intro identifier i c hc c' ht hs
      have hdepth := depth_lt_of_child? hc
      have hpos := length_lt_depth_of_at? (p := []) (r := c) rfl
      refine ⟨?_, planWithin_ne_nil (by omega) _ _⟩
      rw [← planWithin_congr ht hs]
      refine ih (r := c') _ (fun q x hx => ?_) (by rw [depth_congr hs]; omega)
      cases q with
      | nil =>
        cases hx
        rw [ht]
        exact hnames [(identifier, i)] c (at?_cons_eq_some_iff.2 ⟨c, hc, rfl⟩)
      | cons step q =>
        obtain ⟨d, hd, hx⟩ := at?_cons_eq_some_iff.1 hx
        rw [child?_congr (b := c) (by rw [hs])] at hd
        exact hnames (_ :: _ :: q) x (at?_cons_eq_some_iff.2
          ⟨c, hc, at?_cons_eq_some_iff.2 ⟨d, hd, hx⟩⟩)
    have hroot := hnames [] r rfl
    refine Does.congr ?_ fun s => (saveWithin_succ n r s).symm
    rw [planWithin]
    refine Does.bind (references_does hroot hsave) fun s r₁ s₁ h₁ => ?_
    obtain ⟨-, hothers⟩ := forM_others (I := fun _ => True)
      (fun a _ y s _ => ⟨trivial, saveReference_others (saveWithin db n) a y s⟩) trivial h₁
    have hwrite : Does db p [.write p] (write db) r₁ := .action rfl
    refine hwrite.bind fun s r₂ s₂ h₂ => ?_
    have hslots : r₂.slots = r₁.slots := by
      have hslots := (write_frames db (r₁, s)).2.1
      rwa [h₂] at hslots
    refine (behind_does hroot hsave fun other hother => ?_).congr fun s => ?_
    · rw [hslots, hothers other hother]
    · rw [Saving.record_bind]

/-- **Saving is running the plan.** -/
theorem save_eq_run (db : Connection σ) {r : Record}
    (hnames : ∀ p x, r.at? p = some x → x.table.relationNames.Nodup) (s : σ) :
    save db (r, s) = runPlan (fun _ => db) r.plan (r, s) := by
  obtain ⟨g', hrun, hg'⟩ := saveWithin_does db r.depth [] hnames (Nat.le_refl _) r s rfl
  have hpos := length_lt_depth_of_at? (p := []) (r := r) rfl
  obtain ⟨-, rfl⟩ := hg'.resolve_left fun h => planWithin_ne_nil (by omega) _ _ h.1
  rw [plan, hrun, save_eq]
  rfl

end

end Record

end RecordGraph
