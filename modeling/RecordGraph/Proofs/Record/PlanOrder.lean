import RecordGraph.Proofs.Record.Plan

/-!
# The order of a plan

A plan writes a record once, after the records that it refers to and before those that refer to it
or are linked with it. An action may rely on a row being as it is from then on: on the row that it
wrote, or on the rows whose keys it took. No later action of a plan changes such a row.

**Results.**
* `Record.mem_plan`, `Record.mem_plan_of_own`: what a plan does for the record at a place.
* `Record.planWithin_pairwise`: what holds between any two actions of a plan.
* `Record.Action.Spoils`: an action changes a row that an earlier one relies on.
* `Record.plan_ordered`: no action of a plan spoils an earlier one.
* `Record.plan_links`: no relation's links are written twice.
-/
namespace RecordGraph

namespace Record

theorem mem_planEach {records : List Record} {f : Nat → Record → List Action} {a : Action} :
    a ∈ planEach records f ↔ ∃ i c, records[i]? = some c ∧ a ∈ f i c := by
  simp only [planEach, List.mem_flatMap, List.mem_range]
  constructor
  · rintro ⟨i, hi, ha⟩
    rw [List.getElem?_eq_getElem hi] at ha
    exact ⟨i, _, List.getElem?_eq_getElem hi, ha⟩
  · rintro ⟨i, c, hc, ha⟩
    refine ⟨i, (List.getElem?_eq_some_iff.1 hc).1, ?_⟩
    rw [hc]
    exact ha

/-! ## What is planned for one relation -/

section
variable (plan : Place → Record → List Action) (p : Place)

/-- What is planned for a relation to one row. -/
inductive PlannedReference (b : Reference) : Option (Slot Record) → Action → Prop where
  | within {u : Record} {modified : Bool} {a : Action} : a ∈ plan (p ++ [(b.identifier, 0)]) u →
      PlannedReference b (some ⟨.one (some u), modified⟩) a
  | refer {u : Record} {modified : Bool} :
      PlannedReference b (some ⟨.one (some u), modified⟩) (.refer p b modified)
  | forget : PlannedReference b (some ⟨.one none, true⟩) (.forget p b)
  | settle {slot : Slot Record} : PlannedReference b (some slot) (.settle p b.identifier)

/-- What is planned for a relation to the rows that refer to a record. -/
inductive PlannedReverse (b : Reverse) : Option (Slot Record) → Action → Prop where
  | follow {slot : Slot Record} {i : Nat} {c : Record} : slot.related.toList[i]? = some c →
      PlannedReverse b (some slot) (.follow p b i slot.modified)
  | within {slot : Slot Record} {i : Nat} {c : Record} {a : Action} :
      slot.related.toList[i]? = some c → a ∈ plan (p ++ [(b.identifier, i)]) c →
        PlannedReverse b (some slot) a
  | settle {slot : Slot Record} : PlannedReverse b (some slot) (.settle p b.identifier)

/-- What is planned for a relation through an association. -/
inductive PlannedManyMany (b : ManyMany) : Option (Slot Record) → Action → Prop where
  | within {slot : Slot Record} {i : Nat} {c : Record} {a : Action} :
      slot.related.toList[i]? = some c → a ∈ plan (p ++ [(b.identifier, i)]) c →
        PlannedManyMany b (some slot) a
  | link {slot : Slot Record} : slot.modified = true → PlannedManyMany b (some slot) (.link p b)
  | settle {slot : Slot Record} : slot.modified = false →
      PlannedManyMany b (some slot) (.settle p b.identifier)

variable {plan p} {slot? : Option (Slot Record)} {a : Action}

theorem mem_planReference {b : Reference} :
    a ∈ planReference plan p b slot? ↔ PlannedReference plan p b slot? a := by
  constructor
  · intro h
    match slot?, h with
    | some ⟨.one (some u), modified⟩, h =>
      simp only [planReference, List.mem_append, List.mem_cons, List.not_mem_nil, or_false] at h
      rcases h with h | rfl | rfl
      · exact .within h
      · exact .settle
      · exact .refer
    | some ⟨.one none, modified⟩, h =>
      rcases List.mem_cons.1 h with rfl | h
      · exact .settle
      · cases modified with
        | false => cases h
        | true =>
          rw [if_pos rfl, List.mem_singleton] at h
          exact h ▸ .forget
    | some ⟨.many rs, modified⟩, h =>
      rw [planReference, List.mem_singleton] at h
      exact h ▸ .settle
  · intro h
    cases h with
    | within h => exact List.mem_append_left _ h
    | refer => simp [planReference]
    | forget => simp [planReference]
    | @settle slot =>
      obtain ⟨related, modified⟩ := slot
      match related with
      | .one (some u) => simp [planReference]
      | .one none => simp [planReference]
      | .many rs => simp [planReference]

theorem mem_planReverse {b : Reverse} :
    a ∈ planReverse plan p b slot? ↔ PlannedReverse plan p b slot? a := by
  constructor
  · intro h
    match slot?, h with
    | some slot, h =>
      rcases List.mem_append.1 h with h | h
      · obtain ⟨i, c, hc, h⟩ := mem_planEach.1 h
        rcases List.mem_cons.1 h with rfl | h
        · exact .follow hc
        · exact .within hc h
      · rw [List.mem_singleton] at h
        exact h ▸ .settle
  · intro h
    cases h with
    | @follow slot i c hc =>
      exact List.mem_append_left _ (mem_planEach.2 ⟨i, c, hc, List.mem_cons_self⟩)
    | @within slot i c a hc h =>
      exact List.mem_append_left _ (mem_planEach.2 ⟨i, c, hc, List.mem_cons_of_mem _ h⟩)
    | settle => exact List.mem_append_right _ List.mem_cons_self

theorem mem_planManyMany {b : ManyMany} :
    a ∈ planManyMany plan p b slot? ↔ PlannedManyMany plan p b slot? a := by
  constructor
  · intro h
    match slot?, h with
    | some slot, h =>
      rcases List.mem_append.1 h with h | h
      · obtain ⟨i, c, hc, h⟩ := mem_planEach.1 h
        exact .within hc h
      · rw [List.mem_singleton] at h
        subst h
        cases hm : slot.modified with
        | true => exact .link hm
        | false => exact .settle hm
  · intro h
    cases h with
    | @within slot i c a hc h => exact List.mem_append_left _ (mem_planEach.2 ⟨i, c, hc, h⟩)
    | link hm => simp [planManyMany, hm]
    | settle hm => simp [planManyMany, hm]

end

/-! ## What a plan does for one record -/

/-- What is done for a record `x` at a place. -/
inductive Action.Own (p : Place) (x : Record) : Action → Prop where
  | refer {a : Reference} {slot : Slot Record} {u : Record} : a ∈ x.table.references →
      x.slots.find? a.identifier = some slot → slot.related = .one (some u) →
        Own p x (.refer p a slot.modified)
  | forget {a : Reference} {slot : Slot Record} : a ∈ x.table.references →
      x.slots.find? a.identifier = some slot → slot.related = .one none →
        slot.modified = true → Own p x (.forget p a)
  | follow {a : Reverse} {slot : Slot Record} {i : Nat} {c : Record} : a ∈ x.table.reverses →
      x.slots.find? a.identifier = some slot → x.child? a.identifier i = some c →
        Own p x (.follow p a i slot.modified)
  | write : Own p x (.write p)
  | link {a : ManyMany} {slot : Slot Record} : a ∈ x.table.manyManys →
      x.slots.find? a.identifier = some slot → slot.modified = true → Own p x (.link p a)
  | settle {identifier : String} {slot : Slot Record} :
      x.slots.find? identifier = some slot →
        identifier ∈ x.table.references.map (·.identifier) ∨
          identifier ∈ x.table.reverses.map (·.identifier) ∨
            identifier ∈ x.table.manyManys.map (·.identifier) ∧ slot.modified = false →
              Own p x (.settle p identifier)

open RecordGraph.Record.Action (Own)

theorem mem_planWithin_succ {n : Nat} {p : Place} {r : Record} {a : Action}
    (h : a ∈ planWithin (n + 1) p r) : Own p r a ∨ ∃ identifier i c,
      r.child? identifier i = some c ∧ a ∈ planWithin n (p ++ [(identifier, i)]) c := by
  simp only [planWithin, List.mem_append, List.mem_cons, List.mem_flatMap, mem_planReference,
    mem_planReverse, mem_planManyMany] at h
  rcases h with ⟨b, hb, h⟩ | rfl | ⟨b, hb, h⟩ | ⟨b, hb, h⟩
  · generalize hslot : r.slots.find? b.identifier = slot? at h
    cases h with
    | within h => exact .inr ⟨b.identifier, 0, _, child?_of_one hslot rfl, h⟩
    | refer => exact .inl (.refer hb hslot rfl)
    | forget => exact .inl (.forget hb hslot rfl rfl)
    | settle => exact .inl (.settle hslot (.inl (List.mem_map_of_mem hb)))
  · exact .inl .write
  · generalize hslot : r.slots.find? b.identifier = slot? at h
    cases h with
    | follow hc =>
      rw [← related_eq hslot] at hc
      exact .inl (.follow hb hslot hc)
    | within hc h =>
      rw [← related_eq hslot] at hc
      exact .inr ⟨b.identifier, _, _, hc, h⟩
    | settle => exact .inl (.settle hslot (.inr (.inl (List.mem_map_of_mem hb))))
  · generalize hslot : r.slots.find? b.identifier = slot? at h
    cases h with
    | within hc h =>
      rw [← related_eq hslot] at hc
      exact .inr ⟨b.identifier, _, _, hc, h⟩
    | link hm => exact .inl (.link hb hslot hm)
    | settle hm => exact .inl (.settle hslot (.inr (.inr ⟨List.mem_map_of_mem hb, hm⟩)))

/-- A plan does nothing else. -/
theorem mem_planWithin {n : Nat} {p : Place} {r : Record} {a : Action} (h : a ∈ planWithin n p r) :
    ∃ q x, r.at? q = some x ∧ Own (p ++ q) x a := by
  induction n generalizing p r with
  | zero => cases h
  | succ n ih =>
    rcases mem_planWithin_succ h with h | ⟨identifier, i, c, hc, h⟩
    · exact ⟨[], r, rfl, by rwa [List.append_nil]⟩
    · obtain ⟨q, x, hx, hown⟩ := ih h
      refine ⟨(identifier, i) :: q, x, at?_cons_eq_some_iff.2 ⟨c, hc, hx⟩, ?_⟩
      rwa [List.append_assoc] at hown

theorem mem_plan {r : Record} {a : Action} (h : a ∈ r.plan) :
    ∃ p x, r.at? p = some x ∧ Own p x a := mem_planWithin h

theorem mem_planWithin_of_own {n : Nat} {p : Place} {r : Record} {a : Action} (h : Own p r a) :
    a ∈ planWithin (n + 1) p r := by
  simp only [planWithin, List.mem_append, List.mem_cons, List.mem_flatMap, mem_planReference,
    mem_planReverse, mem_planManyMany]
  cases h with
  | @refer b slot u hb hslot hu =>
    refine .inl ⟨b, hb, ?_⟩
    obtain ⟨related, modified⟩ := slot
    obtain rfl : related = _ := hu
    rw [hslot]
    exact .refer
  | @forget b slot hb hslot hu hm =>
    refine .inl ⟨b, hb, ?_⟩
    obtain ⟨related, modified⟩ := slot
    obtain rfl : related = _ := hu
    obtain rfl : modified = _ := hm
    rw [hslot]
    exact .forget
  | @follow b slot i c hb hslot hc =>
    refine .inr (.inr (.inl ⟨b, hb, ?_⟩))
    rw [child?, related_eq hslot] at hc
    rw [hslot]
    exact .follow hc
  | write => exact .inr (.inl rfl)
  | @link b slot hb hslot hm => exact .inr (.inr (.inr ⟨b, hb, hslot ▸ .link hm⟩))
  | @settle identifier slot hslot hkind =>
    rcases hkind with hkind | hkind | ⟨hkind, hm⟩
    · obtain ⟨b, hb, rfl⟩ := List.mem_map.1 hkind
      exact .inl ⟨b, hb, hslot ▸ .settle⟩
    · obtain ⟨b, hb, rfl⟩ := List.mem_map.1 hkind
      exact .inr (.inr (.inl ⟨b, hb, hslot ▸ .settle⟩))
    · obtain ⟨b, hb, rfl⟩ := List.mem_map.1 hkind
      exact .inr (.inr (.inr ⟨b, hb, hslot ▸ .settle hm⟩))

/-- The plan of a related record is part of the plan. -/
theorem mem_planWithin_of_child {n : Nat} {p : Place} {r : Record} (hr : r.Formed)
    {identifier : String} {i : Nat} {c : Record} (hc : r.child? identifier i = some c) {a : Action}
    (h : a ∈ planWithin n (p ++ [(identifier, i)]) c) : a ∈ planWithin (n + 1) p r := by
  simp only [planWithin, List.mem_append, List.mem_cons, List.mem_flatMap, mem_planReference,
    mem_planReverse, mem_planManyMany]
  obtain ⟨slot, hslot, hget⟩ := exists_slot_of_child? hc
  rcases isPlural?_cases (hr identifier slot hslot) with
    ⟨b, hb, rfl, hone⟩ | ⟨b, hb, rfl, -⟩ | ⟨b, hb, rfl, -⟩
  · refine .inl ⟨b, hb, ?_⟩
    rw [hslot]
    obtain ⟨related, modified⟩ := slot
    obtain ⟨rfl, rfl⟩ := Related.eq_one_of_getElem? hone hget
    exact .within h
  · refine .inr (.inr (.inl ⟨b, hb, ?_⟩))
    rw [hslot]
    exact .within hget h
  · refine .inr (.inr (.inr ⟨b, hb, ?_⟩))
    rw [hslot]
    exact .within hget h

/-- A plan does all that is to be done for each record. -/
theorem mem_planWithin_of_at? {n : Nat} {p q : Place} {r x : Record}
    (hformed : ∀ q x, r.at? q = some x → x.Formed) (hx : r.at? q = some x) (hn : q.length < n)
    {a : Action} (h : Own (p ++ q) x a) : a ∈ planWithin n p r := by
  induction q generalizing n p r with
  | nil =>
    cases hx
    obtain ⟨n, rfl⟩ := Nat.exists_eq_succ_of_ne_zero (Nat.ne_of_gt hn)
    rw [List.append_nil] at h
    exact mem_planWithin_of_own h
  | cons step q ih =>
    obtain ⟨identifier, i⟩ := step
    obtain ⟨c, hc, hx⟩ := at?_cons_eq_some_iff.1 hx
    obtain ⟨n, rfl⟩ := Nat.exists_eq_succ_of_ne_zero (Nat.ne_zero_of_lt hn)
    refine mem_planWithin_of_child (hformed [] r rfl) hc (ih (fun q y hy => ?_) hx
      (by simpa using hn) (by rwa [List.append_assoc]))
    exact hformed _ y (at?_cons_eq_some_iff.2 ⟨c, hc, hy⟩)

theorem mem_plan_of_own {p : Place} {r x : Record}
    (hformed : ∀ q x, r.at? q = some x → x.Formed) (hx : r.at? p = some x) {a : Action}
    (h : Own p x a) : a ∈ r.plan :=
  mem_planWithin_of_at? hformed hx (length_lt_depth_of_at? hx) h

/-! ## What actions change and rely on -/

namespace Action

/-- The place of the record whose row an action changes. -/
def target : Action → Option Place
  | refer p _ _ | forget p _ | write p => some p
  | follow p reverse i _ => some (p ++ [(reverse.identifier, i)])
  | link _ _ | settle _ _ => none

/-- The foreign key that an action sets. -/
def column? : Action → Option String
  | refer _ reference _ | forget _ reference => some reference.column
  | follow _ reverse _ _ => some reverse.column
  | write _ | link _ _ | settle _ _ => none

/-- The row at a place has to stay as it is from an action on. -/
inductive Relies : Action → Place → Prop where
  | write (p : Place) : Relies (.write p) p
  | refer (p : Place) (a : Reference) (modified : Bool) :
      Relies (.refer p a modified) (p ++ [(a.identifier, 0)])
  | follow (p : Place) (a : Reverse) (i : Nat) (modified : Bool) : Relies (.follow p a i modified) p
  | link (p : Place) (a : ManyMany) : Relies (.link p a) p
  | linked (p : Place) (a : ManyMany) (i : Nat) : Relies (.link p a) (p ++ [(a.identifier, i)])

/-- `b` changes a row that `a` relies on. -/
def Spoils (b a : Action) : Prop := ∃ q, b.target = some q ∧ a.Relies q

/-- Both set one foreign key of one record. -/
def Clashes (b a : Action) : Prop :=
  ∃ q c, b.target = some q ∧ a.target = some q ∧ b.column? = some c ∧ a.column? = some c

end Action

/-- The foreign key that a relation of a record to one row sets. -/
def linkedColumn? (x : Record) (a : Reference) : Option String :=
  match x.slots.find? a.identifier with
  | some ⟨.one (some _), _⟩ | some ⟨.one none, true⟩ => some a.column
  | _ => none

/-- The foreign keys that the relations of a record to one row set. -/
def linkedColumns (x : Record) : List String := x.table.references.filterMap x.linkedColumn?

/-- Different relations set different foreign keys of a record. -/
structure LinkedApart (r : Record) : Prop where
  own : ∀ p x, r.at? p = some x → x.linkedColumns.Nodup
  /-- A relation of the record that one is held by. -/
  held : ∀ p x, r.at? p = some x → ∀ a ∈ x.table.reverses, ∀ i c,
    x.child? a.identifier i = some c → a.column ∉ c.linkedColumns

theorem LinkedApart.child {r c : Record} (h : r.LinkedApart) {identifier : String} {i : Nat}
    (hc : r.child? identifier i = some c) : c.LinkedApart :=
  ⟨fun _ x hx => h.own _ x (at?_cons_eq_some_iff.2 ⟨c, hc, hx⟩),
    fun _ x hx => h.held _ x (at?_cons_eq_some_iff.2 ⟨c, hc, hx⟩)⟩

/-! ## Where the actions of a plan are -/

/-- A place at or below a related record. -/
def Behind (p : Place) (identifier : String) (q : Place) : Prop :=
  ∃ i, p ++ [(identifier, i)] <+: q

theorem Behind.ne {p q : Place} {identifier : String} (h : Behind p identifier q) : q ≠ p := by
  rintro rfl
  obtain ⟨i, h⟩ := h
  have hlen := h.length_le
  rw [List.length_append, List.length_singleton] at hlen
  omega

/-- Two steps from one place, to one place behind both. -/
theorem step_eq_of_isPrefix {p q : Place} {a b : String × Nat} (ha : p ++ [a] <+: q)
    (hb : p ++ [b] <+: q) : a = b := by
  have hab := List.prefix_of_prefix_length_le ha hb (by simp)
  have heq := hab.eq_of_length (by simp)
  simpa using heq

theorem Behind.eq {p q : Place} {a b : String} (ha : Behind p a q) (hb : Behind p b q) : a = b := by
  obtain ⟨i, ha⟩ := ha
  obtain ⟨k, hb⟩ := hb
  exact congrArg Prod.fst (step_eq_of_isPrefix ha hb)

theorem isPrefix_of_target {p q : Place} {x : Record} {a : Action} (h : Own p x a)
    (hq : a.target = some q) : p <+: q := by
  cases h <;> cases hq
  · exact List.prefix_rfl
  · exact List.prefix_rfl
  · exact List.prefix_append _ _
  · exact List.prefix_rfl

theorem isPrefix_of_relies {p q : Place} {x : Record} {a : Action} (h : Own p x a)
    (hq : a.Relies q) : p <+: q := by
  cases h <;> cases hq
  · exact List.prefix_append _ _
  · exact List.prefix_rfl
  · exact List.prefix_rfl
  · exact List.prefix_rfl
  · exact List.prefix_append _ _

section
variable {n : Nat} {p q : Place} {r : Record} {a : Action} (h : a ∈ planWithin n p r)
include h

theorem target_below (hq : a.target = some q) : p <+: q := by
  obtain ⟨q', x, -, hown⟩ := mem_planWithin h
  exact (List.prefix_append _ _).trans (isPrefix_of_target hown hq)

theorem relies_below (hq : a.Relies q) : p <+: q := by
  obtain ⟨q', x, -, hown⟩ := mem_planWithin h
  exact (List.prefix_append _ _).trans (isPrefix_of_relies hown hq)

/-- The row of the record itself gets the foreign keys of its own relations. -/
theorem column_mem (hq : a.target = some p) {c : String} (hc : a.column? = some c) :
    c ∈ r.linkedColumns := by
  obtain ⟨q', x, hx, hown⟩ := mem_planWithin h
  have hq' : q' = [] := by
    have hlen := (isPrefix_of_target hown hq).length_le
    rw [List.length_append] at hlen
    exact List.length_eq_zero_iff.1 (by omega)
  subst hq'
  cases hx
  rw [List.append_nil] at hown
  cases hown with
  | @refer b slot u hb hslot hu =>
    cases hc
    obtain ⟨related, modified⟩ := slot
    obtain rfl : related = _ := hu
    exact List.mem_filterMap.2 ⟨b, hb, by simp [linkedColumn?, hslot]⟩
  | @forget b slot hb hslot hu hm =>
    cases hc
    obtain ⟨related, modified⟩ := slot
    obtain rfl : related = _ := hu
    obtain rfl : modified = _ := hm
    exact List.mem_filterMap.2 ⟨b, hb, by simp [linkedColumn?, hslot]⟩
  | follow => simp [Action.target] at hq
  | write => cases hc
  | link => cases hc
  | settle => cases hc

end

section
variable {n : Nat} {p : Place} {r : Record} {a : Action}

theorem planReference_where {b : Reference}
    (h : a ∈ planReference (planWithin n) p b (r.slots.find? b.identifier)) :
    (∀ q, a.target = some q → q = p ∧ a.column? = r.linkedColumn? b ∨ Behind p b.identifier q) ∧
      ∀ q, a.Relies q → Behind p b.identifier q := by
  rw [mem_planReference] at h
  generalize hslot : r.slots.find? b.identifier = slot? at h
  cases h with
  | within h => exact ⟨fun q hq => .inr ⟨0, target_below h hq⟩, fun q hq => ⟨0, relies_below h hq⟩⟩
  | refer =>
    refine ⟨fun q hq => ?_, fun q hq => ?_⟩
    · cases hq
      exact .inl ⟨rfl, by simp [Action.column?, linkedColumn?, hslot]⟩
    · cases hq
      exact ⟨0, List.prefix_rfl⟩
  | forget =>
    refine ⟨fun q hq => ?_, fun q hq => (by cases hq)⟩
    cases hq
    exact .inl ⟨rfl, by simp [Action.column?, linkedColumn?, hslot]⟩
  | settle => exact ⟨fun q hq => (by cases hq), fun q hq => (by cases hq)⟩

theorem planReverse_where {b : Reverse}
    (h : a ∈ planReverse (planWithin n) p b (r.slots.find? b.identifier)) :
    (∀ q, a.target = some q → Behind p b.identifier q) ∧
      ∀ q, a.Relies q → q = p ∨ Behind p b.identifier q := by
  rw [mem_planReverse] at h
  generalize r.slots.find? b.identifier = slot? at h
  cases h with
  | @follow slot i c =>
    refine ⟨fun q hq => ?_, fun q hq => ?_⟩
    · cases hq
      exact ⟨i, List.prefix_rfl⟩
    · cases hq
      exact .inl rfl
  | @within slot i c a hc h =>
    exact ⟨fun q hq => ⟨i, target_below h hq⟩, fun q hq => .inr ⟨i, relies_below h hq⟩⟩
  | settle => exact ⟨fun q hq => (by cases hq), fun q hq => (by cases hq)⟩

theorem planManyMany_where {b : ManyMany}
    (h : a ∈ planManyMany (planWithin n) p b (r.slots.find? b.identifier)) :
    (∀ q, a.target = some q → Behind p b.identifier q) ∧
      ∀ q, a.Relies q → q = p ∨ Behind p b.identifier q := by
  rw [mem_planManyMany] at h
  generalize r.slots.find? b.identifier = slot? at h
  cases h with
  | @within slot i c a hc h =>
    exact ⟨fun q hq => ⟨i, target_below h hq⟩, fun q hq => .inr ⟨i, relies_below h hq⟩⟩
  | link =>
    refine ⟨fun q hq => (by cases hq), fun q hq => ?_⟩
    cases hq with
    | link => exact .inl rfl
    | linked _ _ i => exact .inr ⟨i, List.prefix_rfl⟩
  | settle => exact ⟨fun q hq => (by cases hq), fun q hq => (by cases hq)⟩

end

/-! ## Relation by relation -/

section
variable (n : Nat) (p : Place) (r : Record)

/-- What is planned for a relation behind the write of the record itself. -/
inductive LaterBlock : String → List Action → Prop where
  | reverse {b : Reverse} : b ∈ r.table.reverses →
      LaterBlock b.identifier (planReverse (planWithin n) p b (r.slots.find? b.identifier))
  | manyMany {b : ManyMany} : b ∈ r.table.manyManys →
      LaterBlock b.identifier (planManyMany (planWithin n) p b (r.slots.find? b.identifier))

/-- What is planned for a relation. -/
inductive Block : String → List Action → Prop where
  | reference {b : Reference} : b ∈ r.table.references →
      Block b.identifier (planReference (planWithin n) p b (r.slots.find? b.identifier))
  | later {identifier : String} {block : List Action} : LaterBlock n p r identifier block →
      Block identifier block

variable {n p r} {identifier : String} {block : List Action}

theorem LaterBlock.where (h : LaterBlock n p r identifier block) {a : Action} (ha : a ∈ block) :
    (∀ q, a.target = some q → Behind p identifier q) ∧
      ∀ q, a.Relies q → q = p ∨ Behind p identifier q := by
  cases h with
  | reverse => exact planReverse_where ha
  | manyMany => exact planManyMany_where ha

theorem Block.where (h : Block n p r identifier block) {a : Action} (ha : a ∈ block) {q : Place}
    (hq : a.target = some q ∨ a.Relies q) : q = p ∨ Behind p identifier q := by
  cases h with
  | reference =>
    rcases hq with hq | hq
    · exact ((planReference_where ha).1 q hq).imp_left And.left
    · exact .inr ((planReference_where ha).2 q hq)
  | later h =>
    rcases hq with hq | hq
    · exact .inr ((h.where ha).1 q hq)
    · exact (h.where ha).2 q hq

variable {R : Action → Action → Prop}

/-- What holds between any two actions of a plan, in their order, if it holds between those of one
relation, between those of two relations, and between these and the write of the record. -/
theorem planWithin_pairwise (hnames : r.table.relationNames.Nodup)
    (hblock : ∀ identifier block, Block n p r identifier block → block.Pairwise R)
    (hreferences : r.table.references.Pairwise fun b c => b.identifier ≠ c.identifier →
      ∀ x ∈ planReference (planWithin n) p b (r.slots.find? b.identifier),
        ∀ y ∈ planReference (planWithin n) p c (r.slots.find? c.identifier), R x y)
    (hlater : ∀ i k before after, i ≠ k → Block n p r i before → LaterBlock n p r k after →
      ∀ x ∈ before, ∀ y ∈ after, R x y)
    (hfirst : ∀ b ∈ r.table.references,
      ∀ x ∈ planReference (planWithin n) p b (r.slots.find? b.identifier), R x (.write p))
    (hwrite : ∀ i after, LaterBlock n p r i after → ∀ y ∈ after, R (.write p) y) :
    (planWithin (n + 1) p r).Pairwise R := by
  rw [Table.relationNames, List.nodup_append, List.nodup_append] at hnames
  obtain ⟨⟨hnr, hnv, hrv⟩, hnm, hxm⟩ := hnames
  rw [planWithin, List.pairwise_append, List.pairwise_cons, List.pairwise_append]
  refine ⟨?references, ⟨?write, ?reverses, ?manyManys, ?apart⟩, ?first⟩
  case references =>
    refine List.pairwise_flatMap.2 ⟨fun b hb => hblock _ _ (.reference hb), ?_⟩
    exact ((List.pairwise_map.1 hnr).and hreferences).imp fun h => h.2 h.1
  case write =>
    intro y hy
    rcases List.mem_append.1 hy with hy | hy
    · obtain ⟨b, hb, hy⟩ := List.mem_flatMap.1 hy
      exact hwrite _ _ (.reverse hb) y hy
    · obtain ⟨b, hb, hy⟩ := List.mem_flatMap.1 hy
      exact hwrite _ _ (.manyMany hb) y hy
  case reverses =>
    refine List.pairwise_flatMap.2 ⟨fun b hb => hblock _ _ (.later (.reverse hb)), ?_⟩
    exact (List.pairwise_map.1 hnv).imp_of_mem fun hb hc hne =>
      hlater _ _ _ _ hne (.later (.reverse hb)) (.reverse hc)
  case manyManys =>
    refine List.pairwise_flatMap.2 ⟨fun b hb => hblock _ _ (.later (.manyMany hb)), ?_⟩
    exact (List.pairwise_map.1 hnm).imp_of_mem fun hb hc hne =>
      hlater _ _ _ _ hne (.later (.manyMany hb)) (.manyMany hc)
  case apart =>
    intro x hx y hy
    obtain ⟨v, hv, hx⟩ := List.mem_flatMap.1 hx
    obtain ⟨m, hm, hy⟩ := List.mem_flatMap.1 hy
    exact hlater _ _ _ _ (hxm _ (List.mem_append_right _ (List.mem_map_of_mem hv)) _
      (List.mem_map_of_mem hm)) (.later (.reverse hv)) (.manyMany hm) x hx y hy
  case first =>
    intro x hx y hy
    obtain ⟨b, hb, hx⟩ := List.mem_flatMap.1 hx
    rcases List.mem_cons.1 hy with rfl | hy
    · exact hfirst b hb x hx
    · rcases List.mem_append.1 hy with hy | hy
      · obtain ⟨v, hv, hy⟩ := List.mem_flatMap.1 hy
        exact hlater _ _ _ _ (hrv _ (List.mem_map_of_mem hb) _ (List.mem_map_of_mem hv))
          (.reference hb) (.reverse hv) x hx y hy
      · obtain ⟨m, hm, hy⟩ := List.mem_flatMap.1 hy
        exact hlater _ _ _ _ (hxm _ (List.mem_append_left _ (List.mem_map_of_mem hb)) _
          (List.mem_map_of_mem hm)) (.reference hb) (.manyMany hm) x hx y hy

theorem planEach_pairwise {records : List Record} {f : Nat → Record → List Action}
    (hwithin : ∀ i c, records[i]? = some c → (f i c).Pairwise R)
    (hapart : ∀ i k c d, i ≠ k → records[i]? = some c → records[k]? = some d →
      ∀ x ∈ f i c, ∀ y ∈ f k d, R x y) : (planEach records f).Pairwise R := by
  have hmem : ∀ {i : Nat} {a : Action}, a ∈ (records[i]?.map (f i)).getD [] →
      ∃ c, records[i]? = some c ∧ a ∈ f i c := by
    intro i a ha
    cases hc : records[i]? with
    | none =>
      rw [hc] at ha
      cases ha
    | some c =>
      rw [hc] at ha
      exact ⟨c, rfl, ha⟩
  refine List.pairwise_flatMap.2 ⟨fun i _ => ?_, List.nodup_range.imp fun {i k} hik x hx y hy => ?_⟩
  · cases hc : records[i]? with
    | none => exact List.Pairwise.nil
    | some c => exact hwithin i c hc
  · obtain ⟨c, hc, hx⟩ := hmem hx
    obtain ⟨d, hd, hy⟩ := hmem hy
    exact hapart i k c d hik hc hd x hx y hy

variable (hsettled : ∀ x identifier, R x (.settle p identifier))
  (hwithin : ∀ identifier i c, r.child? identifier i = some c →
    (planWithin n (p ++ [(identifier, i)]) c).Pairwise R)
include hsettled hwithin

theorem planReference_pairwise (b : Reference) (hsettle : ∀ y, R (.settle p b.identifier) y)
    (hrefer : ∀ c modified, ∀ x ∈ planWithin n (p ++ [(b.identifier, 0)]) c,
      R x (.refer p b modified)) :
    (planReference (planWithin n) p b (r.slots.find? b.identifier)).Pairwise R := by
  cases hslot : r.slots.find? b.identifier with
  | none => exact List.Pairwise.nil
  | some slot =>
    obtain ⟨related, modified⟩ := slot
    match related with
    | .one (some u) =>
      refine List.pairwise_append.2 ⟨hwithin _ _ _ (child?_of_one hslot rfl),
        List.pairwise_pair.2 (hsettle _), fun x hx y hy => ?_⟩
      rcases List.mem_pair.1 hy with rfl | rfl
      · exact hsettled ..
      · exact hrefer u modified x hx
    | .one none =>
      refine List.pairwise_cons.2 ⟨fun y _ => hsettle y, ?_⟩
      cases modified with
      | false => exact List.Pairwise.nil
      | true => exact List.pairwise_singleton _ _
    | .many rs => exact List.pairwise_singleton _ _

theorem planReverse_pairwise (b : Reverse)
    (hfollow : ∀ i c modified, r.child? b.identifier i = some c →
      ∀ y ∈ planWithin n (p ++ [(b.identifier, i)]) c, R (.follow p b i modified) y)
    (hapart : ∀ i k c d modified, i ≠ k →
      ∀ x ∈ Action.follow p b i modified :: planWithin n (p ++ [(b.identifier, i)]) c,
        ∀ y ∈ Action.follow p b k modified :: planWithin n (p ++ [(b.identifier, k)]) d, R x y) :
    (planReverse (planWithin n) p b (r.slots.find? b.identifier)).Pairwise R := by
  cases hslot : r.slots.find? b.identifier with
  | none => exact List.Pairwise.nil
  | some slot =>
    refine List.pairwise_append.2 ⟨planEach_pairwise (fun i c hc => ?_)
      fun i k c d hik _ _ => hapart i k c d slot.modified hik, List.pairwise_singleton _ _,
      fun x _ y hy => ?_⟩
    · rw [← related_eq hslot] at hc
      exact List.pairwise_cons.2 ⟨hfollow i c _ hc, hwithin _ _ _ hc⟩
    · exact List.mem_singleton.1 hy ▸ hsettled ..

theorem planManyMany_pairwise (b : ManyMany)
    (hlink : ∀ i c, ∀ x ∈ planWithin n (p ++ [(b.identifier, i)]) c, R x (.link p b))
    (hapart : ∀ i k c d, i ≠ k → ∀ x ∈ planWithin n (p ++ [(b.identifier, i)]) c,
      ∀ y ∈ planWithin n (p ++ [(b.identifier, k)]) d, R x y) :
    (planManyMany (planWithin n) p b (r.slots.find? b.identifier)).Pairwise R := by
  cases hslot : r.slots.find? b.identifier with
  | none => exact List.Pairwise.nil
  | some slot =>
    refine List.pairwise_append.2 ⟨planEach_pairwise (fun i c hc => ?_)
      fun i k c d hik _ _ => hapart i k c d hik, List.pairwise_singleton _ _, fun x hx y hy => ?_⟩
    · rw [← related_eq hslot] at hc
      exact hwithin _ _ _ hc
    · obtain rfl := List.mem_singleton.1 hy
      obtain ⟨i, c, -, hx⟩ := mem_planEach.1 hx
      split
      · exact hlink i c x hx
      · exact hsettled ..

end

/-! ## The order -/

/-- `b` may come after `a`; where `A` holds, foreign keys are set by one relation only. -/
def Action.Leaves (A : Prop) (a b : Action) : Prop := ¬b.Spoils a ∧ (A → ¬b.Clashes a)

theorem Action.leaves_of {A : Prop} {a b : Action} (h : ∀ q, b.target = some q →
    ¬a.Relies q ∧ (A → a.target = some q → a.column? = none ∨ a.column? ≠ b.column?)) :
    a.Leaves A b := by
  refine ⟨?_, fun hA => ?_⟩
  · rintro ⟨q, hb, ha⟩
    exact (h q hb).1 ha
  · rintro ⟨q, c, hb, ha, hbc, hac⟩
    rcases (h q hb).2 hA ha with hnone | hne
    · rw [hnone] at hac
      cases hac
    · exact hne (hac.trans hbc.symm)

/-- What only takes note leaves everything as it is. -/
theorem Action.leaves_of_target {A : Prop} {a b : Action} (h : b.target = none) : a.Leaves A b :=
  leaves_of fun q hq => by
    rw [h] at hq
    cases hq

theorem Action.settle_leaves (A : Prop) (p : Place) (identifier : String) (b : Action) :
    (Action.settle p identifier).Leaves A b :=
  leaves_of fun q _ => ⟨fun h => (by cases h), fun _ h => (by cases h)⟩

/-- An action leaves what others do at other places. -/
theorem Action.leaves_apart {A : Prop} {a b : Action}
    (h : ∀ q, b.target = some q → ¬(a.target = some q ∨ a.Relies q)) : a.Leaves A b :=
  leaves_of fun q hq => ⟨fun ha => h q hq (.inr ha), fun _ ha => absurd (.inl ha) (h q hq)⟩

/-- What is done behind one relation, and what later behind another. -/
theorem leaves_behind {A : Prop} {p : Place} {m n : String} {a b : Action} (hmn : m ≠ n)
    (ha : ∀ q, a.target = some q ∨ a.Relies q → q = p ∨ Behind p m q)
    (hb : ∀ q, b.target = some q → Behind p n q) : a.Leaves A b := by
  refine Action.leaves_apart fun q hq haq => ?_
  rcases ha q haq with rfl | haq
  · exact (hb q hq).ne rfl
  · exact hmn (haq.eq (hb q hq))

/-- What is done for two records of one relation. -/
theorem leaves_steps {A : Prop} {p : Place} {s t : String × Nat} {a b : Action} (hst : s ≠ t)
    (ha : ∀ q, a.target = some q ∨ a.Relies q → q = p ∨ p ++ [s] <+: q)
    (hb : ∀ q, b.target = some q → p ++ [t] <+: q) : a.Leaves A b := by
  refine Action.leaves_apart fun q hq haq => ?_
  rcases ha q haq with rfl | haq
  · exact Behind.ne ⟨t.2, hb _ hq⟩ rfl
  · exact hst (step_eq_of_isPrefix haq (hb q hq))

section
variable {A : Prop} {n : Nat} {p : Place} {r : Record}

/-- The foreign keys of two relations of one record. -/
theorem linkedColumn?_ne {as : List Reference} (h : A → (as.filterMap r.linkedColumn?).Nodup) :
    as.Pairwise fun a b => A → ∀ c, r.linkedColumn? a = some c → r.linkedColumn? b ≠ some c := by
  by_cases hA : A
  · refine (List.pairwise_filterMap.1 (h hA)).imp fun {a b} hab _ c hac hbc => ?_
    exact hab c hac c hbc rfl
  · exact List.pairwise_of_forall fun a b h => absurd h hA

/-- What is done for one relation to one row, and later for another. -/
theorem leaves_references {a b : Reference} (hne : a.identifier ≠ b.identifier)
    (hcol : A → ∀ c, r.linkedColumn? a = some c → r.linkedColumn? b ≠ some c) {c d : Action}
    (hc : c ∈ planReference (planWithin n) p a (r.slots.find? a.identifier))
    (hd : d ∈ planReference (planWithin n) p b (r.slots.find? b.identifier)) : c.Leaves A d := by
  obtain ⟨hct, hcr⟩ := planReference_where hc
  obtain ⟨hdt, -⟩ := planReference_where hd
  refine Action.leaves_of fun q hq => ?_
  rcases hdt q hq with ⟨rfl, hdcol⟩ | hbehind
  · refine ⟨fun h => (hcr q h).ne rfl, fun hA h => ?_⟩
    rcases hct q h with ⟨-, hccol⟩ | hbehind
    · rw [hccol, hdcol]
      cases hlink : r.linkedColumn? a with
      | none => exact .inl rfl
      | some column => exact .inr fun h => hcol hA column hlink h.symm
    · exact absurd rfl hbehind.ne
  · refine ⟨fun h => hne ((hcr q h).eq hbehind), fun _ h => ?_⟩
    rcases hct q h with ⟨rfl, -⟩ | hother
    · exact absurd rfl hbehind.ne
    · exact absurd (hother.eq hbehind) hne

/-- What is done for a related record is done at or below its place. -/
theorem planWithin_where {step : String × Nat} {c : Record} {a : Action}
    (ha : a ∈ planWithin n (p ++ [step]) c) {q : Place} (hq : a.target = some q ∨ a.Relies q) :
    p ++ [step] <+: q := hq.elim (target_below ha) (relies_below ha)

/-- So is what points its foreign key at the record, whose key it takes. -/
theorem follow_where {b : Reverse} {i : Nat} {modified : Bool} {c : Record} {a : Action}
    (ha : a ∈ Action.follow p b i modified :: planWithin n (p ++ [(b.identifier, i)]) c) :
    (∀ q, a.target = some q → p ++ [(b.identifier, i)] <+: q) ∧
      ∀ q, a.target = some q ∨ a.Relies q → q = p ∨ p ++ [(b.identifier, i)] <+: q := by
  rcases List.mem_cons.1 ha with rfl | ha
  · refine ⟨fun q hq => ?_, fun q hq => ?_⟩
    · cases hq
      exact List.prefix_rfl
    · rcases hq with hq | hq
      · cases hq
        exact .inr List.prefix_rfl
      · cases hq
        exact .inl rfl
  · exact ⟨fun q hq => planWithin_where ha (.inl hq), fun q hq => .inr (planWithin_where ha hq)⟩

end

theorem planWithin_ordered {A : Prop} {n : Nat} {p : Place} {r : Record}
    (hnames : ∀ q x, r.at? q = some x → x.table.relationNames.Nodup) (hA : A → r.LinkedApart) :
    (planWithin n p r).Pairwise (Action.Leaves A) := by
  -- on how deep related records are nested
  induction n generalizing p r with
  | zero => exact List.Pairwise.nil
  | succ n ih =>
    have hwithin : ∀ identifier i c, r.child? identifier i = some c →
        (planWithin n (p ++ [(identifier, i)]) c).Pairwise (Action.Leaves A) := by
      intro identifier i c hc
      exact ih (fun q x hx => hnames _ x (at?_cons_eq_some_iff.2 ⟨c, hc, hx⟩))
        fun h => (hA h).child hc
    have hsettled : ∀ (x : Action) identifier, x.Leaves A (.settle p identifier) :=
      fun x identifier => Action.leaves_of_target rfl
    refine planWithin_pairwise (hnames [] r rfl) (fun identifier block hb => ?block)
      ((linkedColumn?_ne fun h => (hA h).own [] r rfl).imp fun hcol hne x hx y hy =>
        leaves_references hne hcol hx hy)
      (fun i k before after hik hb hl x hx y hy => leaves_behind hik (fun q => hb.where hx)
        (hl.where hy).1)
      (fun b hb x hx => ?first) fun i after hl y hy => ?write
    case block =>
      cases hb with
      | @reference b =>
        refine planReference_pairwise hsettled hwithin b (Action.settle_leaves A p _)
          fun c modified x hx => Action.leaves_apart fun q hq hxq => ?_
        cases hq
        exact Behind.ne ⟨0, planWithin_where hx hxq⟩ rfl
      | later hb =>
        cases hb with
        | @reverse b hb =>
          refine planReverse_pairwise hsettled hwithin b (fun i c modified hc y hy => ?_)
            fun i k c d modified hik x hx y hy => ?_
          · refine Action.leaves_of fun q hq => ⟨fun h => ?_, fun h hx => .inr fun hcol => ?_⟩
            · cases h
              exact Behind.ne ⟨i, target_below hy hq⟩ rfl
            · -- the foreign key is none that the related record sets itself
              cases hx
              exact (hA h).held [] r rfl b hb i c hc (column_mem hy hq hcol.symm)
          · exact leaves_steps (fun h => hik (congrArg Prod.snd h)) (follow_where hx).2
              (follow_where hy).1
        | @manyMany b =>
          refine planManyMany_pairwise hsettled hwithin b
            (fun i c x hx => Action.leaves_of_target rfl) fun i k c d hik x hx y hy => ?_
          exact leaves_steps (fun h => hik (congrArg Prod.snd h))
            (fun q hq => .inr (planWithin_where hx hq)) fun q hq => planWithin_where hy (.inl hq)
    case first =>
      -- the record is written after what it refers to
      refine Action.leaves_of fun q hq => ⟨fun h => ?_, fun _ _ => ?_⟩
      · cases hq
        exact ((planReference_where hx).2 p h).ne rfl
      · cases x.column? with
        | none => exact .inl rfl
        | some column => exact .inr fun h => (by cases h)
    case write =>
      refine Action.leaves_of fun q hq => ⟨fun h => ?_, fun _ _ => .inl rfl⟩
      cases h
      exact ((hl.where hy).1 p hq).ne rfl

/-- **The order of a plan.** No action spoils what an earlier one relies on; where relations set
different foreign keys, none sets one a second time. -/
theorem plan_ordered {A : Prop} {r : Record}
    (hnames : ∀ q x, r.at? q = some x → x.table.relationNames.Nodup) (hA : A → r.LinkedApart) :
    r.plan.Pairwise (Action.Leaves A) := planWithin_ordered hnames hA

/-! ## Links are written once -/

/-- The relation whose links an action writes. -/
def Action.linked? : Action → Option (Place × String)
  | .link p a => some (p, a.identifier)
  | _ => none

/-- No relation's links are written by both. -/
def Action.LinksApart (a b : Action) : Prop := ∀ x, a.linked? = some x → b.linked? ≠ some x

/-- What is written behind a relation are its own links, or those of records behind it. -/
def Action.LinksBehind (p : Place) (identifier : String) (a : Action) : Prop :=
  ∀ x, a.linked? = some x → x = (p, identifier) ∨ Behind p identifier x.1

theorem Action.LinksBehind.apart {p : Place} {m n : String} {a b : Action}
    (ha : a.LinksBehind p m) (hb : b.LinksBehind p n) (hmn : m ≠ n) : a.LinksApart b := by
  intro x hax hbx
  rcases ha x hax with rfl | hm
  · rcases hb _ hbx with h | hn
    · exact hmn (congrArg Prod.snd h)
    · exact hn.ne rfl
  · rcases hb x hbx with rfl | hn
    · exact hm.ne rfl
    · exact hmn (hm.eq hn)

theorem linked_below {n : Nat} {p : Place} {r : Record} {a : Action} (h : a ∈ planWithin n p r)
    {x : Place × String} (hx : a.linked? = some x) : p <+: x.1 := by
  obtain ⟨q, y, -, hown⟩ := mem_planWithin h
  cases hown <;> cases hx
  exact List.prefix_append _ _

section
variable {n : Nat} {p : Place} {r : Record}

theorem Block.links {identifier : String} {block : List Action}
    (h : Block n p r identifier block) {a : Action} (ha : a ∈ block) :
    a.LinksBehind p identifier := by
  intro x hx
  cases h with
  | @reference b =>
    rw [mem_planReference] at ha
    generalize r.slots.find? b.identifier = slot? at ha
    cases ha with
    | within ha => exact .inr ⟨0, linked_below ha hx⟩
    | refer => cases hx
    | forget => cases hx
    | settle => cases hx
  | later h =>
    cases h with
    | @reverse b =>
      rw [mem_planReverse] at ha
      generalize r.slots.find? b.identifier = slot? at ha
      cases ha with
      | follow => cases hx
      | within _ ha => exact .inr ⟨_, linked_below ha hx⟩
      | settle => cases hx
    | @manyMany b =>
      rw [mem_planManyMany] at ha
      generalize r.slots.find? b.identifier = slot? at ha
      cases ha with
      | within _ ha => exact .inr ⟨_, linked_below ha hx⟩
      | link => exact .inl (Option.some.inj hx).symm
      | settle => cases hx

theorem follow_linked_below {b : Reverse} {i : Nat} {modified : Bool} {c : Record} {a : Action}
    (ha : a ∈ Action.follow p b i modified :: planWithin n (p ++ [(b.identifier, i)]) c)
    {x : Place × String} (hx : a.linked? = some x) : p ++ [(b.identifier, i)] <+: x.1 := by
  rcases List.mem_cons.1 ha with rfl | ha
  · cases hx
  · exact linked_below ha hx

end

theorem planWithin_links {n : Nat} {p : Place} {r : Record}
    (hnames : ∀ q x, r.at? q = some x → x.table.relationNames.Nodup) :
    (planWithin n p r).Pairwise Action.LinksApart := by
  -- on how deep related records are nested
  induction n generalizing p r with
  | zero => exact List.Pairwise.nil
  | succ n ih =>
    have hwithin : ∀ identifier i c, r.child? identifier i = some c →
        (planWithin n (p ++ [(identifier, i)]) c).Pairwise Action.LinksApart := by
      intro identifier i c hc
      exact ih fun q x hx => hnames _ x (at?_cons_eq_some_iff.2 ⟨c, hc, hx⟩)
    have hsettled : ∀ (x : Action) identifier, x.LinksApart (.settle p identifier) :=
      fun x identifier _ _ h => (by cases h)
    have hapart : ∀ {i k : String} {before after : List Action}, i ≠ k → Block n p r i before →
        Block n p r k after → ∀ x ∈ before, ∀ y ∈ after, x.LinksApart y :=
      fun hik hb hc x hx y hy => (hb.links hx).apart (hc.links hy) hik
    refine planWithin_pairwise (hnames [] r rfl) (fun identifier block hb => ?block)
      (List.pairwise_of_forall_mem_list fun b hb c hc hne =>
        hapart hne (.reference hb) (.reference hc))
      (fun i k before after hik hb hl => hapart hik hb (.later hl))
      (fun b hb x hx _ _ h => (by cases h)) fun i after hl y hy _ h => (by cases h)
    case block =>
      cases hb with
      | @reference b =>
        exact planReference_pairwise hsettled hwithin b (fun _ _ h => (by cases h))
          fun c modified x _ _ _ h => (by cases h)
      | later hb =>
        cases hb with
        | @reverse b =>
          refine planReverse_pairwise hsettled hwithin b
            (fun i c modified hc y hy _ h => (by cases h))
            fun i k c d modified hik x hx y hy z hxz hyz => hik ?_
          exact congrArg Prod.snd
            (step_eq_of_isPrefix (follow_linked_below hx hxz) (follow_linked_below hy hyz))
        | @manyMany b =>
          refine planManyMany_pairwise hsettled hwithin b (fun i c x hx z hxz hz => ?_)
            fun i k c d hik x hx y hy z hxz hyz => hik ?_
          · -- the links of the record itself are written last
            cases hz
            exact Behind.ne ⟨i, linked_below hx hxz⟩ rfl
          · exact congrArg Prod.snd
              (step_eq_of_isPrefix (linked_below hx hxz) (linked_below hy hyz))

/-- **Links are written once.** A plan writes the links of no relation a second time. -/
theorem plan_links {r : Record}
    (hnames : ∀ q x, r.at? q = some x → x.table.relationNames.Nodup) :
    r.plan.Pairwise Action.LinksApart := planWithin_links hnames

end Record

end RecordGraph
