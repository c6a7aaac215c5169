import RecordGraph.Proofs.Query.SavedAsLoaded
import RecordGraph.Proofs.Record.Sent
import RecordGraph.Proofs.Record.Settling

/-!
# A save that succeeds

What was achieved along the plan holds in the end. Besides, a statement that carries a key is sent
when the row with that key is there: its write stands before that statement in the plan.

**Results.**
* `Record.Noted`: what was sent along a plan, and in which order.
* `Record.save_completed`: every record is saved with the keys of those it is related to; what
  carries a key was sent after the row with that key; no row is written twice, and saving again
  sends nothing.
-/
namespace RecordGraph

namespace Record

variable {σ : Type}

/-! ## What is sent, and in which order -/

/-- The statement carries the key of a row that the action relies on. -/
def Action.Carries (e : Entry) : Action → Prop
  | .refer p _ _ => e.writes p = true
  | .follow p a i _ => e.writes (p ++ [(a.identifier, i)]) = true
  | .link p a => e.place = p ∧ ∃ key, Linking a key e.command
  | .forget _ _ | .write _ | .settle _ _ => False

/-- Along a plan: what was sent so far for the records of `g₀`. -/
structure Noted (g₀ : Record) (done : List Action) (g : Record) (sent : List Entry) : Prop where
  /-- A row is there because it was added. -/
  inserted : ∀ p x y, g₀.at? p = some x → g.at? p = some y → x.isNew = true → y.isNew = false →
    ∃ e ∈ sent, e.inserts p = true
  once : ∀ p, sent.countP (·.writes p) ≤ done.count (.write p)
  /-- A key is sent behind the row that it is of. -/
  order : ∀ before e, before ++ [e] <+: sent → ∀ a ∈ g₀.plan, a.Carries e → ∀ p x, a.Relies p →
    g₀.at? p = some x → x.isNew = true → ∃ e' ∈ before, e'.inserts p = true

theorem Entry.writes_place {e : Entry} {p : Place} (h : e.writes p = true) : e.place = p := by
  rw [Entry.writes, Bool.and_eq_true, decide_eq_true_eq] at h
  exact h.1

theorem Linking.writes_eq_false {a : ManyMany} {key : Value} {e : Entry}
    (h : Linking a key e.command) (p : Place) : e.writes p = false := by
  obtain ⟨place, command, accepted⟩ := e
  cases h <;> simp [Entry.writes]

theorem Linking.eq {a b : ManyMany} {key key' : Value} {c : Command} (h : Linking a key c)
    (h' : Linking b key' c) : a = b := by
  cases h <;> cases h' <;> rfl

/-- What is sent for a record is sent when it is written. -/
theorem Action.Posts.eq_write {a : Action} {y : Record} {o : Except Error Unit} {new : List Entry}
    (h : a.Posts y o new) {e : Entry} (he : e ∈ new) {p : Place} (hw : e.writes p = true) :
    a = .write p := by
  cases h with
  | write h => rw [← h.place e he, Entry.writes_place hw]
  | link h _ =>
    rw [(h e he).2.writes_eq_false] at hw
    cases hw
  | none => cases he

theorem Action.Posts.countP_writes_le {a : Action} {y : Record} {o : Except Error Unit}
    {new : List Entry} (h : a.Posts y o new) (p : Place) :
    new.countP (·.writes p) ≤ [a].count (.write p) := by
  by_cases ha : a = .write p
  · subst ha
    cases h with
    | write h =>
      rw [List.count_singleton_self]
      exact Nat.le_trans List.countP_le_length h.once
    | none h _ => exact absurd rfl (h p)
  · have hnone : new.countP (·.writes p) = 0 :=
      List.countP_eq_zero.2 fun e he hw => ha (h.eq_write he hw)
    rw [hnone]
    exact Nat.zero_le _

/-- What comes behind a list is in front of an entry, or the entry was there before. -/
theorem prefix_append_cases {α : Type} {before sent new : List α} {e : α}
    (h : before ++ [e] <+: sent ++ new) : before ++ [e] <+: sent ∨ sent <+: before ∧ e ∈ new := by
  rcases List.prefix_or_prefix_of_prefix h (List.prefix_append sent new) with h' | h'
  · exact .inl h'
  · rcases List.prefix_concat_iff.1 h' with rfl | h'
    · exact .inl List.prefix_rfl
    · obtain ⟨rest, rfl⟩ := h'
      rw [List.append_assoc, List.prefix_append_right_inj] at h
      exact .inr ⟨List.prefix_append _ _, h.subset (by simp)⟩

section
variable (db : Connection σ) {g : Record}
  (hnames : ∀ p x, g.at? p = some x → x.table.relationNames.Nodup)
  (hformed : ∀ p x, g.at? p = some x → x.Formed)
include hnames hformed

/-- What the row of an action relies on was written by then. -/
theorem write_done {done rest : List Action} {a b : Action} (hplan : g.plan = done ++ a :: rest)
    (hb : b ∈ done ∨ b = a) (ha : ∀ q, a ≠ .write q ∨ b ≠ a) {p : Place} {x : Record}
    (hx : g.at? p = some x) (hrelies : b.Relies p) : .write p ∈ done := by
  have hmem := mem_plan_of_own hformed hx (.write (p := p))
  have hordered := plan_ordered (A := False) hnames False.elim
  rw [hplan] at hmem hordered
  obtain ⟨-, hlater, hbefore⟩ := List.pairwise_append.1 hordered
  rcases List.mem_append.1 hmem with h | h
  · exact h
  · exfalso
    rcases hb with hb | rfl
    · exact (hbefore b hb _ h).1 ⟨p, rfl, hrelies⟩
    · rcases List.mem_cons.1 h with rfl | h
      · exact (ha p).elim (fun h => h rfl) fun h => h rfl
      · exact ((List.pairwise_cons.1 hlater).1 _ h).1 ⟨p, rfl, hrelies⟩

omit hformed in
/-- A foreign key is set before its row is sent. -/
theorem Action.Posts.before {done rest : List Action} {a b : Action}
    (hplan : g.plan = done ++ a :: rest) (hb : b ∈ g.plan) {y : Record} {o : Except Error Unit}
    {new : List Entry} (h : a.Posts y o new) {e : Entry} (he : e ∈ new) (hcarries : b.Carries e) :
    (b ∈ done ∨ b = a) ∧ ∀ q, a ≠ .write q ∨ b ≠ a := by
  have hordered := plan_ordered (A := False) hnames False.elim
  rw [hplan] at hb hordered
  -- what sets a foreign key of a row comes before the row is written
  have hset : ∀ p, b.target = some p → (∀ q, b ≠ .write q) → e.writes p = true →
      (b ∈ done ∨ b = a) ∧ ∀ q, a ≠ .write q ∨ b ≠ a := by
    intro p ht hne hw
    obtain rfl := h.eq_write he hw
    rcases List.mem_append.1 hb with hb | hb
    · exact ⟨.inl hb, fun q => .inr (hne p)⟩
    · exfalso
      rcases List.mem_cons.1 hb with rfl | hb
      · exact hne p rfl
      · exact ((List.pairwise_cons.1 (List.pairwise_append.1 hordered).2.1).1 b hb).1
          ⟨p, ht, .write p⟩
  cases b with
  | refer p c modified => exact hset p rfl (by simp) hcarries
  | follow p c i modified => exact hset _ rfl (by simp) hcarries
  | link p c =>
    obtain ⟨rfl, key, hlinking⟩ := hcarries
    cases h with
    | write h =>
      rw [← h.place e he] at h
      have hw : e.writes e.place = true := by
        obtain ⟨place, command, accepted⟩ := e
        cases hnew : y.isNew with
        | true =>
          obtain ⟨fields, returning, hc⟩ := h.insert hnew _ he
          obtain rfl : command = _ := hc
          simp [Entry.writes]
        | false =>
          obtain ⟨set, guard, hc⟩ := h.update hnew _ he
          obtain rfl : command = _ := hc
          simp [Entry.writes]
      rw [hlinking.writes_eq_false] at hw
      cases hw
    | link h _ =>
      obtain ⟨hplace, hlink⟩ := h e he
      refine ⟨.inr ?_, fun q => .inl (by simp)⟩
      rw [hplace, hlinking.eq hlink]
    | none => cases he
  | forget => cases hcarries
  | write => cases hcarries
  | settle => cases hcarries

theorem Noted.step {done rest : List Action} {a : Action} (hplan : g.plan = done ++ a :: rest)
    {g₁ y z : Record} {q : Place} {sent : List Entry} {s : σ} {t : List Entry × σ}
    (hnoted : g.Noted done g₁ sent) (hunder : g.Underway done g₁)
    (hsaved : ∀ b ∈ done, b.Achieved g g₁)
    (hstep : Action.Step db.traced a (g₁, (sent, s)) (.ok ()) q y z t) :
    g.Noted (done ++ [a]) (g₁.putAt q z) t.1 := by
  obtain ⟨new, hsent, hposts⟩ := hstep.posts
  rw [hsent]
  refine ⟨fun p x x' hx hx' hnew hold => ?inserted, fun p => ?once,
    fun before e hbefore b hb hcarries p x hrelies hx hnew => ?order⟩
  case inserted =>
    obtain ⟨x₁, hx₁, -, -, heq, -⟩ := hunder.step hstep hx hx'
    cases hnew₁ : x₁.isNew with
    | false =>
      obtain ⟨e, he, hins⟩ := hnoted.inserted p x x₁ hx hx₁ hnew hnew₁
      exact ⟨e, List.mem_append_left _ he, hins⟩
    | true =>
      -- the action was the write of the record
      obtain rfl : a = .write p := by
        by_contra hw
        have hsame := hstep.isNew_stays hx₁ hx' hw
        rw [hold, hnew₁] at hsame
        cases hsame
      obtain rfl := hstep.eq_of_target rfl
      obtain ⟨rfl, rfl⟩ := heq rfl
      cases hposts with
      | write h =>
        obtain ⟨e, he, hacc⟩ := h.accepted hnew₁ rfl
        obtain ⟨fields, returning, hc⟩ := h.insert hnew₁ e he
        refine ⟨e, List.mem_append_right _ he, ?_⟩
        obtain ⟨place, command, accepted⟩ := e
        obtain rfl : place = p := h.place _ he
        obtain rfl : accepted = true := hacc
        obtain rfl : command = _ := hc
        simp [Entry.inserts]
      | none h _ => exact absurd rfl (h p)
  case once =>
    rw [List.countP_append, List.count_append]
    exact Nat.add_le_add (hnoted.once p) (hposts.countP_writes_le p)
  case order =>
    rcases prefix_append_cases hbefore with h | ⟨h, he⟩
    · exact hnoted.order before e h b hb hcarries p x hrelies hx hnew
    · obtain ⟨hdone, hne⟩ := hposts.before hnames hplan hb he hcarries
      have hwrite := write_done hnames hformed hplan hdone hne hx hrelies
      obtain ⟨x₁, hx₁, -⟩ := hunder p x hx
      obtain ⟨hsaved, -⟩ := hsaved _ hwrite x x₁ hx hx₁
      obtain ⟨e', he', hins⟩ := hnoted.inserted p x x₁ hx hx₁ hnew hsaved
      exact ⟨e', h.subset he', hins⟩

end

/-! ## The graph behind a save -/

/-- A graph over the tables of a schema: relations are attached as the table says, and each key is
the same as itself. -/
structure Regular (tables : List Table) (g : Record) : Prop where
  tables : ∀ p x, g.at? p = some x → x.table ∈ tables
  formed : ∀ p x, g.at? p = some x → x.Formed
  sorted : ∀ p x, g.at? p = some x → x.slots.Sorted
  keys : ∀ p x, g.at? p = some x → x.key.same x.key = true

/-- What has come of saving `g`, which is `g'` behind it. -/
structure Completed (db : Connection σ) (g : Record) (s : σ) (g' : Record) (s' : σ) : Prop where
  saved : ∀ p x, g.at? p = some x → ∃ y, g'.at? p = some y ∧ y.isNew = false ∧ y.dirty = .empty
  places : ∀ p y, g'.at? p = some y → ∃ x, g.at? p = some x
  /-- The foreign key of a relation to one row. -/
  reference : ∀ p x a slot u, g.at? p = some x → a ∈ x.table.references →
    x.slots.find? a.identifier = some slot → slot.related = .one (some u) →
      slot.modified = true ∨ x.isNew = true ∨ x.values.contains a.column = true →
        ∃ y v, g'.at? p = some y ∧ g'.at? (p ++ [(a.identifier, 0)]) = some v ∧
          y.holds a.column v.key = true
  /-- The foreign key of a record that refers to another. -/
  reverse : ∀ p x a slot i c, g.at? p = some x → a ∈ x.table.reverses →
    x.slots.find? a.identifier = some slot → x.child? a.identifier i = some c →
      slot.modified = true ∨ c.isNew = true ∨ c.values.contains a.column = true →
        ∃ y d, g'.at? p = some y ∧ g'.at? (p ++ [(a.identifier, i)]) = some d ∧
          d.holds a.column y.key = true
  /-- The statements, in the order in which they were sent. -/
  commands : save db.logged (g, ([], s)) = (.ok (), (g', ((sent db g s).map (·.command), s')))
  /-- Before the statement of a record, the rows that it refers to were added. -/
  referenced : ∀ p x a slot u, g.at? p = some x → a ∈ x.table.references →
    x.slots.find? a.identifier = some slot → slot.related = .one (some u) → u.isNew = true →
      ∀ before e, before ++ [e] <+: sent db g s → e.writes p = true →
        ∃ e' ∈ before, e'.inserts (p ++ [(a.identifier, 0)]) = true
  /-- So was the row before those that refer to it. -/
  held : ∀ p x a i c, g.at? p = some x → a ∈ x.table.reverses → x.child? a.identifier i = some c →
    x.isNew = true → ∀ before e, before ++ [e] <+: sent db g s →
      e.writes (p ++ [(a.identifier, i)]) = true → ∃ e' ∈ before, e'.inserts p = true
  /-- And both rows before their link. -/
  linked : ∀ p x a slot, g.at? p = some x → a ∈ x.table.manyManys →
    x.slots.find? a.identifier = some slot → slot.modified = true → ∀ before e key,
      before ++ [e] <+: sent db g s → e.place = p → Linking a key e.command →
        (x.isNew = true → ∃ e' ∈ before, e'.inserts p = true) ∧
          ∀ i c, x.child? a.identifier i = some c → c.isNew = true →
            ∃ e' ∈ before, e'.inserts (p ++ [(a.identifier, i)]) = true
  once : ∀ p, (sent db g s).countP (·.writes p) ≤ 1
  /-- Saving again sends nothing. -/
  again : ∀ t, save db.logged (g', ([], t)) = (.ok (), (g', ([], t)))

/-- A plan writes no row twice. -/
theorem count_write_le {plan : List Action} {A : Prop} (h : plan.Pairwise (Action.Leaves A))
    (p : Place) : plan.count (.write p) ≤ 1 := by
  induction plan with
  | nil => exact Nat.zero_le _
  | cons a plan ih =>
    obtain ⟨ha, h⟩ := List.pairwise_cons.1 h
    by_cases hw : a = .write p
    · subst hw
      have hnone : plan.count (.write p) = 0 :=
        List.count_eq_zero.2 fun hmem => (ha _ hmem).1 ⟨p, rfl, .write p⟩
      exact Nat.le_of_eq (by rw [List.count_cons_self, hnone])
    · rw [List.count_cons_of_ne hw]
      exact ih h

theorem KeysProper.traced {db : Connection σ} {table : Table} (h : KeysProper db table)
    (p : Place) : KeysProper (db.traced p) table := by
  intro fields t k t' hinsert
  have hover := (db.traced_over p).insert table fields t
  rw [hinsert] at hover
  exact h fields _ k _ hover

section
variable {g g' : Record}

/-- What a relation leads to, in the beginning and in the end. -/
theorem Follows.related_one {x y : Record} (h : x.Follows y) (hx : x.Formed) {a : Reference}
    (ha : a ∈ x.table.references) {i : Nat} {v : Record} (hv : y.child? a.identifier i = some v) :
    i = 0 ∧ ∃ slot u, x.slots.find? a.identifier = some slot ∧ slot.related = .one (some u) := by
  have hsome := h.isSome_child? a.identifier i
  rw [hv] at hsome
  obtain ⟨u, hu⟩ := Option.isSome_iff_exists.1 hsome.symm
  obtain ⟨slot, hslot, hu⟩ := exists_slot_of_child? hu
  have hplural := hx a.identifier slot hslot
  have hfind : (x.table.reference? a.identifier).isSome = true :=
    List.find?_isSome.2 ⟨a, ha, beq_self_eq_true _⟩
  rw [isPlural?, if_pos hfind] at hplural
  obtain ⟨rfl, hone⟩ := Related.eq_one_of_getElem? (Except.ok.inj hplural).symm hu
  exact ⟨rfl, slot, u, hslot, hone⟩

/-- A relation that is loaded counts as saved in the end. -/
theorem Own.exists_settle {p : Place} {x : Record} (hx : x.Formed) {identifier : String}
    {slot : Slot Record} (hslot : x.slots.find? identifier = some slot) :
    Action.Own p x (.settle p identifier) ∨
      ∃ a, a.identifier = identifier ∧ Action.Own p x (.link p a) := by
  rcases isPlural?_cases (hx identifier slot hslot) with
    ⟨b, hb, rfl, -⟩ | ⟨b, hb, rfl, -⟩ | ⟨b, hb, rfl, -⟩
  · exact .inl (.settle hslot (.inl (List.mem_map_of_mem hb)))
  · exact .inl (.settle hslot (.inr (.inl (List.mem_map_of_mem hb))))
  · cases hm : slot.modified with
    | true => exact .inr ⟨b, rfl, .link hb hslot hm⟩
    | false => exact .inl (.settle hslot (.inr (.inr ⟨List.mem_map_of_mem hb, hm⟩)))

variable (hformed : ∀ p x, g.at? p = some x → x.Formed)
include hformed

/-- Where a whole plan was done, nothing is left to do. -/
theorem Settling.idle (h : g.Settling g.plan g')
    (hsorted : ∀ p x, g.at? p = some x → x.slots.Sorted) {p : Place} {y : Record}
    (hy : g'.at? p = some y) : y.Idle := by
  obtain ⟨x, hx⟩ := h.underway.exists_at? hy
  obtain ⟨y', hy', hf, hsort, -⟩ := h.underway p x hx
  obtain rfl : y = y' := Option.some.inj (hy.symm.trans hy')
  have hwrite := h.achieved _ (mem_plan_of_own hformed hx .write) x y hx hy
  refine ⟨hwrite.1, hwrite.2, hsort (hsorted p x hx), fun identifier slot hslot => ?settled,
    fun a ha i v hv hload => ?reference, fun a ha i v hv hload => ?reverse⟩
  case settled =>
    obtain ⟨old, hold, -⟩ := hf.slot hslot
    rcases Own.exists_settle (p := p) (hformed p x hx) hold with hown | ⟨a, rfl, hown⟩
    · exact h.achieved _ (mem_plan_of_own hformed hx hown) x y slot hx hy hslot
    · exact h.achieved _ (mem_plan_of_own hformed hx hown) x y slot hx hy hslot
  case reference =>
    rw [hf.table] at ha
    obtain ⟨rfl, slot, u, hslot, hu⟩ := hf.related_one (hformed p x hx) ha hv
    have hat : g.at? (p ++ [(a.identifier, 0)]) = some u :=
      (at?_concat hx ..).trans (child?_of_one hslot hu)
    have hat' : g'.at? (p ++ [(a.identifier, 0)]) = some v := (at?_concat hy ..).trans hv
    exact h.achieved _ (mem_plan_of_own hformed hx (.refer ha hslot hu)) x u y v hx hat hy hat'
      (.inr (.inr hload))
  case reverse =>
    rw [hf.table] at ha
    have hsome := hf.isSome_child? a.identifier i
    rw [hv] at hsome
    obtain ⟨u, hu⟩ := Option.isSome_iff_exists.1 hsome.symm
    have hat : g.at? (p ++ [(a.identifier, i)]) = some u := (at?_concat hx ..).trans hu
    have hat' : g'.at? (p ++ [(a.identifier, i)]) = some v := (at?_concat hy ..).trans hv
    obtain ⟨slot, hslot, -⟩ := exists_slot_of_child? hu
    exact h.achieved _ (mem_plan_of_own hformed hx (.follow ha hslot hu)) x u y v hx hat hy hat'
      (.inr (.inr hload))

end

section
variable {db : Connection σ} {g g' : Record} {s s' : σ} {tables : List Table}
  (ht : Schema.SoundTables tables) (hg : g.Regular tables) (hapart : g.LinkedApart)
  (hplain : g.LinkedPlain) (hproper : ∀ table, KeysProper db table)
include ht hg

theorem Regular.names (p : Place) (x : Record) (hx : g.at? p = some x) :
    x.table.relationNames.Nodup := (ht.sound _ (hg.tables p x hx)).relations

include hapart hplain hproper

/-- What was sent along a plan. -/
theorem runPlan_noted {t : List Entry × σ}
    (hrun : runPlan db.traced g.plan (g, ([], s)) = (.ok (), (g', t))) :
    g.Settling g.plan g' ∧ g.Noted g.plan g' t.1 := by
  have hnames := hg.names ht
  have hsettling : ∀ {done rest : List Action}, g.plan = done ++ rest → ∀ {rs},
      runPlan db.traced done (g, ([], s)) = (.ok (), rs) → g.Settling done rs.1 := by
    intro done rest hplan rs hrun
    exact runPlan_settling hnames hapart hplain (fun p table => (hproper table).traced p) hg.keys
      hplan hrun
  refine ⟨hsettling (List.append_nil _).symm hrun, ?_⟩
  have hall := runPlan_induct (P := fun done rs =>
    runPlan db.traced done (g, ([], s)) = (.ok (), rs) ∧ g.Noted done rs.1 rs.2.1)
    ?_ ⟨rfl, ?_⟩ hrun
  · exact hall.2
  · rintro done a rest hplan ⟨g₁, sent, s₁⟩ rs' ⟨hdone, hnoted⟩ hok
    have hstill := hsettling hplan hdone
    have ha : a ∈ g.plan := List.mem_iff_append.2 ⟨_, _, hplan⟩
    obtain ⟨o, q, y, z, s₂, hstep, hstepped, -⟩ :=
      hstill.underway.run db.traced ha (sent, s₁)
    rw [hstepped] at hok
    obtain ⟨rfl, rfl⟩ := Prod.mk.inj hok
    refine ⟨?_, hnoted.step db hnames hg.formed hplan hstill.underway hstill.achieved hstep⟩
    rw [runPlan_append, Session.bind_run, hdone]
    simp only
    rw [runPlan, List.forM, Session.bind_run, hstepped]
    rfl
  · refine ⟨fun p x y hx hy hnew hold => ?_, fun _ => Nat.zero_le _, fun before e h => ?_⟩
    · obtain rfl := Option.some.inj (hx.symm.trans hy)
      rw [hnew] at hold
      cases hold
    · have hnil := List.prefix_nil.1 h
      simp at hnil

end

/-- **A save that succeeds.** Where the relations of a graph set different foreign keys, none of
them a key or a version, every record is saved in the end, and every foreign key of a relation that
was replaced, of a new record, or one that was loaded, is the key of the related record. -/
theorem save_completed {db : Connection σ} {d : SchemaDecl} {schema : Schema}
    (hs : Schema.ofDeclaration d = .ok schema) {g g' : Record} (hg : g.Regular schema.tables)
    (hapart : g.LinkedApart) (hplain : g.LinkedPlain) (hproper : ∀ table, KeysProper db table)
    {s s' : σ} (hok : save db (g, s) = (.ok (), (g', s'))) : Completed db g s g' s' := by
  have ht := Schema.ofDeclaration_sound hs
  have hnames := hg.names ht
  have hrun := runPlan_traced db hnames s
  have hlog := save_logged db hnames s
  rw [hok] at hrun hlog
  obtain ⟨hsettling, hnoted⟩ := runPlan_noted ht hg hapart hplain hproper hrun
  have hunder := hsettling.underway
  have hchild : ∀ {p : Place} {x : Record} {identifier : String} {i : Nat} {c : Record},
      g.at? p = some x → x.child? identifier i = some c →
        g.at? (p ++ [(identifier, i)]) = some c := fun hx hc => (at?_concat hx ..).trans hc
  have hown : ∀ {p : Place} {x : Record} {a : Action}, g.at? p = some x → Action.Own p x a →
      a ∈ g.plan := fun hx h => mem_plan_of_own hg.formed hx h
  refine ⟨fun p x hx => ?saved, fun p y => hunder.exists_at?,
    fun p x a slot u hx ha hslot hu hcond => ?reference,
    fun p x a slot i c hx ha hslot hc hcond => ?reverse, hlog,
    fun p x a slot u hx ha hslot hu hnew before e he hw => ?referenced,
    fun p x a i c hx ha hc hnew before e he hw => ?held,
    fun p x a slot hx ha hslot hm before e key he hp hlink => ?linked, fun p => ?once,
    fun t => ?again⟩
  case saved =>
    obtain ⟨y, hy, -⟩ := hunder p x hx
    exact ⟨y, hy, hsettling.achieved _ (hown hx .write) x y hx hy⟩
  case reference =>
    have hv := hchild hx (child?_of_one hslot hu)
    obtain ⟨y, hy, -⟩ := hunder p x hx
    obtain ⟨v, hv', -⟩ := hunder _ u hv
    have hrefer := Action.Own.refer (p := p) ha hslot hu
    have hcolumn := hplain.column (hown hx hrefer) rfl rfl hx
    refine ⟨y, v, hy, hv', hsettling.achieved _ (hown hx hrefer) x u y v hx hv hy hv' ?_⟩
    exact hcond.imp_right fun h => h.imp_right (hsettling.loaded p x y _ hx hy hcolumn)
  case reverse =>
    have hc' := hchild hx hc
    obtain ⟨y, hy, -⟩ := hunder p x hx
    obtain ⟨d, hd, -⟩ := hunder _ c hc'
    have hfollow := Action.Own.follow (p := p) ha hslot hc
    have hcolumn := hplain.column (hown hx hfollow) rfl rfl hc'
    refine ⟨y, d, hy, hd, hsettling.achieved _ (hown hx hfollow) x c y d hx hc' hy hd ?_⟩
    exact hcond.imp_right fun h => h.imp_right (hsettling.loaded _ c d _ hc' hd hcolumn)
  case referenced =>
    exact hnoted.order before e he _ (hown hx (.refer ha hslot hu)) hw _ u (.refer ..)
      (hchild hx (child?_of_one hslot hu)) hnew
  case held =>
    cases hslot : x.slots.find? a.identifier with
    | none =>
      rw [child?, related_eq_nil hslot] at hc
      cases hc
    | some slot =>
      exact hnoted.order before e he _ (hown hx (.follow ha hslot hc)) hw p x (.follow ..) hx hnew
  case linked =>
    have hmem := hown hx (.link ha hslot hm)
    exact ⟨fun hnew => hnoted.order before e he _ hmem ⟨hp, key, hlink⟩ p x (.link ..) hx hnew,
      fun i c hc hnew => hnoted.order before e he _ hmem ⟨hp, key, hlink⟩ _ c (.linked ..)
        (hchild hx hc) hnew⟩
  case once =>
    exact Nat.le_trans (hnoted.once p)
      (count_write_le (plan_ordered (A := False) hnames False.elim) p)
  case again =>
    exact save_idle db.logged (fun p y hy => hsettling.idle hg.formed hg.sorted hy) _

/-- Keys that come back with the row are numbers, where the database makes them up. -/
theorem keysProper_of_returning {db : Connection σ}
    (h : db.dialect.insertStrategy = .returning) (table : Table) : KeysProper db table := by
  intro fields s k s' hinsert
  rw [Connection.insert] at hinsert
  split at hinsert
  · rename_i hassigns
    rw [h] at hinsert
    obtain ⟨rows, s₁, -, hinsert⟩ := Session.bind_eq_ok_iff.1 hinsert
    obtain ⟨row, s₂, -, hinsert⟩ := Session.bind_eq_ok_iff.1 hinsert
    have hauto : table.primaryKey.receiver = .autoPrimaryKey := by
      rw [Connection.assignsKey, Bool.and_eq_true, beq_iff_eq] at hassigns
      exact hassigns.1
    cases hr : row.bind List.head? with
    | none =>
      rw [hr] at hinsert
      cases hinsert
    | some raw =>
      rw [hr] at hinsert
      obtain ⟨v, s₃, hv, hinsert⟩ := Session.bind_eq_ok_iff.1 hinsert
      cases hinsert
      rw [Session.ofExcept_run, hauto] at hv
      obtain ⟨hv, -⟩ := Prod.mk.inj hv
      rcases Receiver.decode_of_signed (by simp [Receiver.signed]) hv with
        ⟨-, rfl⟩ | ⟨-, i, -, rfl⟩ <;> exact beq_self_eq_true _
  · obtain ⟨⟨⟩, s₁, -, hinsert⟩ := Session.bind_eq_ok_iff.1 hinsert
    cases hinsert

/-! ## Looking at each record -/

/-- The records of a graph that is less deep than `n`. -/
def recordsWithin : Nat → Record → List Record
  | 0, _ => []
  | n + 1, r => r :: r.slots.entries.flatMap fun e => e.2.related.toList.flatMap (recordsWithin n)

theorem mem_recordsWithin {n : Nat} {r x : Record} {p : Place} (hx : r.at? p = some x)
    (hn : p.length < n) : x ∈ recordsWithin n r := by
  induction p generalizing n r with
  | nil =>
    cases hx
    obtain ⟨n, rfl⟩ := Nat.exists_eq_succ_of_ne_zero (Nat.ne_of_gt hn)
    exact List.mem_cons_self
  | cons step p ih =>
    obtain ⟨identifier, i⟩ := step
    obtain ⟨c, hc, hx⟩ := at?_cons_eq_some_iff.1 hx
    obtain ⟨n, rfl⟩ := Nat.exists_eq_succ_of_ne_zero (Nat.ne_zero_of_lt hn)
    rw [List.length_cons] at hn
    obtain ⟨slot, hslot, hc⟩ := exists_slot_of_child? hc
    refine List.mem_cons_of_mem _ (List.mem_flatMap.2 ⟨_, NameMap.mem_of_find? hslot, ?_⟩)
    exact List.mem_flatMap.2 ⟨c, List.mem_of_getElem? hc, ih hx (by omega)⟩

instance (x : Record) (column : String) : Decidable (x.Plain column) :=
  decidable_of_iff (column ≠ x.table.primaryKey.name ∧
    ∀ lock ∈ x.table.lockColumn?.toList, column ≠ lock.name)
    ⟨fun h => ⟨h.1, fun lock hl => h.2 lock (by simp [hl])⟩,
      fun h => ⟨h.key, fun lock hl => h.lock lock (by simpa using hl)⟩⟩

/-- What makes a graph regular, and its foreign keys apart, of one of its records. -/
def Fits (tables : List Table) (x : Record) : Prop :=
  x.table ∈ tables ∧
    (∀ e ∈ x.slots.entries, (x.isPlural? e.1).toOption = some e.2.related.isMany) ∧
      (x.slots.entries.Pairwise fun a b => a.1 < b.1) ∧ x.key.same x.key = true ∧
        x.linkedColumns.Nodup ∧ (∀ column ∈ x.linkedColumns, x.Plain column) ∧
          ∀ a ∈ x.table.reverses, ∀ c ∈ x.related a.identifier,
            a.column ∉ c.linkedColumns ∧ c.Plain a.column

instance (tables : List Table) (x : Record) : Decidable (x.Fits tables) := by
  unfold Fits
  infer_instance

/-- It is enough to look at each record. -/
theorem regular_of_fits {tables : List Table} {g : Record}
    (h : ∀ x ∈ recordsWithin g.depth g, x.Fits tables) :
    g.Regular tables ∧ g.LinkedApart ∧ g.LinkedPlain := by
  have hall : ∀ p x, g.at? p = some x → x.Fits tables := fun p x hx =>
    h x (mem_recordsWithin hx (length_lt_depth_of_at? hx))
  have hheld : ∀ p x, g.at? p = some x → ∀ a ∈ x.table.reverses, ∀ i c,
      x.child? a.identifier i = some c → a.column ∉ c.linkedColumns ∧ c.Plain a.column := by
    intro p x hx a ha i c hc
    exact (hall p x hx).2.2.2.2.2.2 a ha c (List.mem_of_getElem? hc)
  refine ⟨⟨fun p x hx => (hall p x hx).1, fun p x hx identifier slot hslot => ?_,
    fun p x hx => (hall p x hx).2.2.1, fun p x hx => (hall p x hx).2.2.2.1⟩,
    ⟨fun p x hx => (hall p x hx).2.2.2.2.1, fun p x hx a ha i c hc => (hheld p x hx a ha i c hc).1⟩,
    ⟨fun p x hx => (hall p x hx).2.2.2.2.2.1,
      fun p x hx a ha i c hc => (hheld p x hx a ha i c hc).2⟩⟩
  have hplural := (hall p x hx).2.1 (identifier, slot) (NameMap.mem_of_find? hslot)
  cases hp : x.isPlural? identifier with
  | error e =>
    simp only [hp] at hplural
    cases hplural
  | ok plural =>
    simp only [hp] at hplural
    cases hplural
    rfl

end Record

/-! ## A new book -/

namespace Library

/-- A new book by a new author, with a new tag. -/
def newBook (s : Schema) : Except Error Record := do
  let authors ← s.requireTable "authors"
  let books ← s.requireTable "books"
  let tags ← s.requireTable "tags"
  let author ← Record.withFields authors [("name", .text "Ann")]
  let tag ← Record.withFields tags [("label", .text "blue")]
  let book ← Record.withFields books [("title", .text "Sky")]
  let book ← book.setOne "author" (some author)
  book.setMany "tags" [tag]

/-- The new book with its schema. -/
def bookAndSchema : Except Error (Schema × Record) := do
  let s ← Schema.ofDeclaration declaration
  let g ← newBook s
  .ok (s, g)

/-- Whether the new book fits its tables and passes a check. -/
def bookPasses (check : Schema → Record → Bool) : Bool :=
  match bookAndSchema with
  | .ok (s, g) =>
    (Record.recordsWithin g.depth g).all (fun x => decide (x.Fits s.tables)) && check s g
  | .error _ => false

theorem bookPasses_cases {check : Schema → Record → Bool} (h : bookPasses check = true) :
    ∃ s g, Schema.ofDeclaration declaration = .ok s ∧ newBook s = .ok g ∧
      (∀ x ∈ Record.recordsWithin g.depth g, x.Fits s.tables) ∧ check s g = true := by
  unfold bookPasses at h
  split at h
  · rename_i s g hbook
    obtain ⟨s', hs, hbook⟩ := bind_eq_ok_iff.1 hbook
    obtain ⟨g', hg, hbook⟩ := bind_eq_ok_iff.1 hbook
    cases hbook
    obtain ⟨hfits, hcheck⟩ := Bool.and_eq_true_iff.1 h
    exact ⟨s, g, hs, hg, fun x hx => of_decide_eq_true (List.all_eq_true.1 hfits x hx), hcheck⟩
  · cases h

/-- All of it is saved: the author before the book, the book and the tag before their link. -/
theorem newBook_completed : ∃ s g g' t, Schema.ofDeclaration declaration = .ok s ∧
    newBook s = .ok g ∧ Record.save (Script.connection .postgresql) (g, Script.start []) =
      (.ok (), (g', t)) ∧
        Record.Completed (Script.connection .postgresql) g (Script.start []) g' t := by
  have hall : bookPasses (fun _ g =>
      (Record.save (Script.connection .postgresql) (g, Script.start [])).1.isOk) = true := by
    decide +kernel
  obtain ⟨s, g, hs, hg, hfits, hok⟩ := bookPasses_cases hall
  obtain ⟨hregular, hapart, hplain⟩ := Record.regular_of_fits hfits
  rcases hsave : Record.save (Script.connection .postgresql) (g, Script.start []) with
    ⟨e | ⟨⟩, g', t⟩
  · rw [hsave] at hok
    cases hok
  · exact ⟨s, g, g', t, hs, hg, hsave, Record.save_completed hs hregular hapart hplain
      (Record.keysProper_of_returning rfl) hsave⟩

end Library

end RecordGraph
