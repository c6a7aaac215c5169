import RecordGraph.Proofs.Record.Completed

/-!
# Keys that relations set

A foreign key may be a key too: then saving points the key of a record at the row of another one.
`Record.KeysLinked` says of a graph that such a relation neither takes a key away nor gives another
key to a saved record. This holds however far the graph is saved, and no saved record gets another
key then.

**Results.**
* `Record.KeySource`: whose key is pointed at which row.
* `Record.LinkedPlain.keysLinked`: a graph whose relations set no keys.
* `Record.Reached.step`: what one action of a plan leaves of the keys, whether it succeeds or fails.
-/
namespace RecordGraph

/-- The keys of a table are made up, by the database or before a row is sent. -/
def Table.MakesKeys (t : Table) : Prop :=
  t.primaryKey.receiver = .autoPrimaryKey ∨ t.primaryKey.receiver = .uuid ∨
    t.primaryKey.receiver = .ulid

instance (t : Table) : Decidable t.MakesKeys := by
  unfold Table.MakesKeys
  infer_instance

/-- A row that the database gives a key is reported with it. -/
def Connection.Reports {σ : Type} (db : Connection σ) : Prop :=
  ∀ table fields s, Connection.assignsKey table fields = true → db.accepts table fields s = true →
    ∃ k s', db.insert table fields s = (.ok (some k), s') ∧ k.isNull = false

theorem Connection.Reports.key {σ : Type} {db : Connection σ} (h : db.Reports) {table : Table}
    {fields : List Field} {k : Value} {s s' : σ}
    (hinsert : db.insert table fields s = (.ok (some k), s')) : k.isNull = false := by
  cases hassigns : Connection.assignsKey table fields with
  | true =>
    obtain ⟨k', t, hk', hnull⟩ := h table fields s hassigns (db.accepts_of_insert hinsert)
    rw [hinsert] at hk'
    cases hk'
    exact hnull
  | false =>
    rw [Connection.insert, if_neg (by simp [hassigns])] at hinsert
    obtain ⟨⟨⟩, t, -, hnone⟩ := Session.bind_eq_ok_iff.1 hinsert
    cases hnone

theorem Connection.Reports.traced {σ : Type} {db : Connection σ} (h : db.Reports) (p : Place) :
    (db.traced p).Reports := by
  rintro table fields ⟨sent, s⟩ hassigns haccepts
  obtain ⟨k, s', hk, hnull⟩ := h table fields s hassigns haccepts
  have hover := (db.traced_over p).insert table fields (sent, s)
  rw [hk] at hover
  obtain ⟨ho, -⟩ := Prod.mk.inj hover
  exact ⟨k, _, Prod.ext ho.symm rfl, hnull⟩

namespace Record

variable {σ : Type}

/-! ## One record -/

/-- The key of `x` is that of `u`. -/
def Shares (x u : Record) : Prop := x.key = u.key ∨ x.key.same u.key = true

theorem Shares.isNull_eq {x u : Record} (h : x.Shares u) : x.key.isNull = u.key.isNull :=
  h.elim (congrArg Value.isNull) Value.isNull_congr

theorem Shares.congr {x u x' u' : Record} (h : x.Shares u) (hx : x'.key = x.key)
    (hu : u'.key = u.key) : x'.Shares u' := by
  rwa [Shares, hx, hu]

/-- Pointing a foreign key at a row gives the key of a record that of the row, or leaves it. -/
theorem key_relink (y : Record) (column : String) (key : Value) (modified : Bool) :
    (y.relink column key modified).key = y.key ∨
      column = y.table.primaryKey.name ∧ (y.relink column key modified).key = key := by
  rcases y.relink_cases column key modified with hr | hr
  · exact .inl (by rw [hr])
  · rw [hr]
    rcases y.assign_cases column key with hr | hr
    · exact .inl (by rw [hr])
    · have hput := key_put y column key
      rw [hr]
      split at hput
      · rename_i hc
        exact .inr ⟨hc, hput⟩
      · exact .inl hput

/-- A key that is that of the row already stays what it is. -/
theorem Shares.key_relink {y u : Record} (h : y.Shares u) (hu : u.key.isNull = false)
    (column : String) (modified : Bool) : (y.relink column u.key modified).key = y.key := by
  rcases y.key_relink column u.key modified with hk | ⟨rfl, hk⟩
  · exact hk
  · rcases h with h | h
    · exact hk.trans h.symm
    · have hkey := Value.isNull_congr h
      rw [hu] at hkey
      have hholds : y.holds y.table.primaryKey.name u.key = true := by
        rw [holds]
        rw [key] at h hkey
        cases hfind : y.values.find? y.table.primaryKey.name with
        | none =>
          rw [hfind] at hkey
          cases hkey
        | some old =>
          rw [hfind] at h
          exact h
      rw [relink_of_holds modified hholds]

/-- The key of a new record that is pointed at a row is that of the row. -/
theorem shares_relink {y : Record} (hnew : y.isNew = true) (u : Record) (modified : Bool) :
    (y.relink y.table.primaryKey.name u.key modified).Shares u := by
  rw [relink, if_pos (by simp [hnew]), assign]
  split
  · rename_i hholds
    right
    rw [holds] at hholds
    rw [key]
    cases hfind : y.values.find? y.table.primaryKey.name with
    | none =>
      rw [hfind] at hholds
      cases hholds
    | some old =>
      rw [hfind] at hholds
      exact hholds
  · left
    rw [key, NameMap.find?_insert_self]
    rfl

/-- A record whose row was added has a key. -/
theorem key_of_insert {db : Connection σ} (h : db.Reports) {y : Record} {s : σ}
    (ho : (insert db (y, s)).1 = .ok ()) : (insert db (y, s)).2.1.key.isNull = false := by
  rw [insert_run] at ho ⊢
  rcases hinsert : db.insert y.table (prepare db y s).1.insertFields (prepare db y s).2 with
    ⟨e | assigned, s'⟩
  · rw [hinsert] at ho
    cases ho
  · rw [hinsert] at ho
    simp only at ho ⊢
    cases htaken : (prepare db y s).1.taken assigned with
    | none =>
      rw [htaken] at ho
      cases ho
    | some z =>
      simp only
      rw [taken] at htaken
      split at htaken
      · obtain ⟨k, rfl, rfl⟩ := Option.map_eq_some_iff.1 htaken
        have hkey := key_put (prepare db y s).1 (prepare db y s).1.table.primaryKey.name k
        rw [if_pos rfl] at hkey
        exact (congrArg Value.isNull hkey).trans (h.key hinsert)
      · rename_i hnull
        cases htaken
        exact eq_false_of_ne_true hnull

theorem key_of_write {db : Connection σ} (h : db.Reports) {y : Record} (hnew : y.isNew = true)
    {s : σ} (ho : (write db (y, s)).1 = .ok ()) : (write db (y, s)).2.1.key.isNull = false := by
  rw [write, Saving.record_bind, if_pos hnew] at ho ⊢
  exact key_of_insert h ho

/-! ## Whose key is pointed at which row -/

/-- A relation points the key of the record at the first place at the row of the record at the
second. -/
inductive KeySource (g : Record) : Place → Place → Prop where
  | reference {p : Place} {x u : Record} {a : Reference} : g.at? p = some x →
      a ∈ x.table.references → a.column = x.table.primaryKey.name →
        g.at? (p ++ [(a.identifier, 0)]) = some u → KeySource g p (p ++ [(a.identifier, 0)])
  | reverse {q : Place} {y c : Record} {a : Reverse} {i : Nat} : g.at? q = some y →
      a ∈ y.table.reverses → g.at? (q ++ [(a.identifier, i)]) = some c →
        a.column = c.table.primaryKey.name → KeySource g (q ++ [(a.identifier, i)]) q

/-- What relations do to the keys of a graph: each points at a row with a key, that of a new record
at one row, and that of a saved record at the row that it belongs to. -/
structure KeysLinked (g : Record) : Prop where
  /-- No key counts versions. -/
  lock : ∀ p x, g.at? p = some x → ∀ lock, x.table.lockColumn? = some lock →
    lock.name ≠ x.table.primaryKey.name
  /-- No relation that was emptied takes a key away. -/
  emptied : ∀ p x a slot, g.at? p = some x → a ∈ x.table.references →
    a.column = x.table.primaryKey.name → x.slots.find? a.identifier = some slot →
      slot.related = .one none → slot.modified = false
  single : ∀ p q q' x, g.KeySource p q → g.KeySource p q' → g.at? p = some x → x.isNew = true →
    q = q'
  source : ∀ p q x u, g.KeySource p q → g.at? p = some x → g.at? q = some u →
    (u.isNew = false → u.key.isNull = false) ∧ (x.isNew = false → u.isNew = false ∧ x.Shares u)

/-- Relations that set no keys leave them alone. -/
theorem LinkedPlain.keysLinked {g : Record} (h : g.LinkedPlain)
    (hformed : ∀ p x, g.at? p = some x → x.Formed)
    (hlock : ∀ p x, g.at? p = some x → ∀ lock, x.table.lockColumn? = some lock →
      lock.name ≠ x.table.primaryKey.name) : g.KeysLinked := by
  have hnone : ∀ {p q x}, g.KeySource p q → g.at? p = some x → False := by
    intro p q x hsource hx
    cases hsource with
    | @reference _ w u a hw ha hcol hu =>
      obtain ⟨-, slot, v, hslot, hv⟩ :=
        (Follows.refl w).related_one (hformed p w hw) ha ((at?_concat hw ..).symm.trans hu)
      refine (h.own p w hw a.column (List.mem_filterMap.2 ⟨a, ha, ?_⟩)).1 hcol
      obtain ⟨related, modified⟩ := slot
      obtain rfl : related = _ := hv
      simp [linkedColumn?, hslot]
    | @reverse q y c a i hy ha hc hcol =>
      exact (h.held q y hy a ha i c ((at?_concat hy ..).symm.trans hc)).1 hcol
  refine ⟨hlock, fun p x a slot hx ha hcol hslot hone => ?emptied,
    fun p q q' x hq _ hx _ => (hnone hq hx).elim, fun p q x u hq hx _ => (hnone hq hx).elim⟩
  case emptied =>
    obtain ⟨related, modified⟩ := slot
    obtain rfl : related = .one none := hone
    cases modified with
    | false => rfl
    | true =>
      exact absurd hcol (h.own p x hx a.column
        (List.mem_filterMap.2 ⟨a, ha, by simp [linkedColumn?, hslot]⟩)).1

/-- Every new record has a key, or gets one that is made up. -/
def KeysMade (g : Record) : Prop :=
  ∀ p x, g.at? p = some x → x.isNew = true → x.table.MakesKeys ∨ x.key.isNull = false

/-- The place whose key an action takes. -/
def Action.source? : Action → Option Place
  | .refer p a _ => some (p ++ [(a.identifier, 0)])
  | .follow p _ _ _ => some p
  | .forget _ _ | .write _ | .link _ _ | .settle _ _ => none

section
variable {g : Record} {p q : Place}

theorem Action.keySource {a : Action} (ha : a ∈ g.plan) (ht : a.target = some p)
    (hs : a.source? = some q) {x : Record} (hx : g.at? p = some x)
    (hc : a.column? = some x.table.primaryKey.name) : g.KeySource p q := by
  obtain ⟨r, w, hw, hown⟩ := mem_plan ha
  have hchild := at?_concat hw
  cases hown with
  | @refer b slot u hb hslot hu =>
    cases ht
    cases hs
    obtain rfl : w = x := Option.some.inj (hw.symm.trans hx)
    exact .reference hx hb (Option.some.inj hc) ((hchild ..).trans (child?_of_one hslot hu))
  | @follow b slot i c hb hslot hcc =>
    cases ht
    cases hs
    obtain rfl : c = x := Option.some.inj (((hchild ..).trans hcc).symm.trans hx)
    exact .reverse hw hb hx (Option.some.inj hc)
  | forget => cases hs
  | write => cases hs
  | link => cases hs
  | settle => cases hs

/-- Along the plan the key is pointed there. -/
theorem KeySource.exists_mem_plan (h : g.KeySource p q)
    (hformed : ∀ p x, g.at? p = some x → x.Formed) {x : Record} (hx : g.at? p = some x) :
    ∃ a ∈ g.plan, a.target = some p ∧ a.source? = some q ∧
      a.column? = some x.table.primaryKey.name := by
  cases h with
  | @reference _ w u a hw ha hcol hu =>
    obtain rfl : w = x := Option.some.inj (hw.symm.trans hx)
    obtain ⟨-, slot, v, hslot, hv⟩ :=
      (Follows.refl w).related_one (hformed p w hw) ha ((at?_concat hw ..).symm.trans hu)
    exact ⟨_, mem_plan_of_own hformed hw (.refer ha hslot hv), rfl, rfl, congrArg some hcol⟩
  | @reverse _ y c a i hy ha hc hcol =>
    obtain rfl : c = x := Option.some.inj (hc.symm.trans hx)
    rw [at?_concat hy] at hc
    obtain ⟨slot, hslot, -⟩ := exists_slot_of_child? hc
    exact ⟨_, mem_plan_of_own hformed hy (.follow ha hslot hc), rfl, rfl, congrArg some hcol⟩

/-- No action takes a key away. -/
theorem KeysLinked.forget_ne (h : g.KeysLinked) {a : Reference} (ha : .forget p a ∈ g.plan)
    {x : Record} (hx : g.at? p = some x) : a.column ≠ x.table.primaryKey.name := by
  intro hc
  obtain ⟨r, w, hw, hown⟩ := mem_plan ha
  cases hown with
  | forget hb hslot hu hm =>
    obtain rfl : w = x := Option.some.inj (hw.symm.trans hx)
    rw [h.emptied p w _ _ hx hb hc hslot hu] at hm
    cases hm

end

section
variable {g₀ g : Record} {done : List Action} {p q : Place} (h : g₀.Underway done g)
include h

theorem Underway.table_eq {x y : Record} (hx : g₀.at? p = some x) (hy : g.at? p = some y) :
    y.table = x.table := (h.follows hx hy).table

/-- The same keys are pointed at the same rows. -/
theorem Underway.keySource_iff : g.KeySource p q ↔ g₀.KeySource p q := by
  constructor
  · intro hsource
    cases hsource with
    | reference hx ha hc hu =>
      obtain ⟨x₀, hx₀⟩ := h.exists_at? hx
      obtain ⟨u₀, hu₀⟩ := h.exists_at? hu
      rw [h.table_eq hx₀ hx] at ha hc
      exact .reference hx₀ ha hc hu₀
    | reverse hy ha hc hcol =>
      obtain ⟨y₀, hy₀⟩ := h.exists_at? hy
      obtain ⟨c₀, hc₀⟩ := h.exists_at? hc
      rw [h.table_eq hy₀ hy] at ha
      rw [h.table_eq hc₀ hc] at hcol
      exact .reverse hy₀ ha hc₀ hcol
  · intro hsource
    cases hsource with
    | reference hx ha hc hu =>
      obtain ⟨x, hx', -⟩ := h _ _ hx
      obtain ⟨u, hu', -⟩ := h _ _ hu
      rw [← h.table_eq hx hx'] at ha hc
      exact .reference hx' ha hc hu'
    | reverse hy ha hc hcol =>
      obtain ⟨y, hy', -⟩ := h _ _ hy
      obtain ⟨c, hc', -⟩ := h _ _ hc
      rw [← h.table_eq hy hy'] at ha
      rw [← h.table_eq hc hc'] at hcol
      exact .reverse hy' ha hc' hcol

end

/-! ## One action -/

/-- A graph on its way to be saved: what was written is saved, no saved record got another key, and
the keys are linked. -/
structure Reached (g₀ : Record) (done : List Action) (g : Record) : Prop where
  underway : g₀.Underway done g
  links : g.KeysLinked
  made : g.KeysMade
  settled : ∀ p x y, g₀.at? p = some x → g.at? p = some y → x.isNew = false →
    y.isNew = false ∧ y.key = x.key
  written : ∀ p y, .write p ∈ done → g.at? p = some y → y.isNew = false
  /-- A row that was added has a key. -/
  keyed : ∀ p x y, g₀.at? p = some x → g.at? p = some y → x.isNew = true → y.isNew = false →
    y.key.isNull = false
  /-- A key that was pointed at a row is the key of that row. -/
  linked : ∀ b ∈ done, ∀ p q x u, b.target = some p → b.source? = some q → g.at? p = some x →
    g.at? q = some u → b.column? = some x.table.primaryKey.name → u.isNew = false ∧ x.Shares u

theorem Action.relies_of_source {a : Action} {q : Place} (h : a.source? = some q) : a.Relies q := by
  cases a <;> cases h
  · exact .refer ..
  · exact .follow ..

theorem Action.write_ne_of_source {a : Action} {q : Place} (h : a.source? = some q) (p : Place) :
    a ≠ .write p := by
  rintro rfl
  cases h

/-- What becomes of the record `x` at the place `p` behind an action. -/
inductive Action.Becomes (db : Place → Connection σ) (a : Action) (g : Record) (s : σ)
    (o : Except Error Unit) (p : Place) (x : Record) : Record → Prop where
  | pointed {r : Place} {column : String} {u : Record} {modified : Bool} : a.target = some p →
      a.source? = some r → a.column? = some column → g.at? r = some u →
        Becomes db a g s o p x (x.relink column u.key modified)
  | unset {b : Reference} : a = .forget p b →
      Becomes db a g s o p x (x.relink b.column .null true)
  | written : a = .write p → o = (Record.write (db p) (x, s)).1 →
      Becomes db a g s o p x (Record.write (db p) (x, s)).2.1
  | left {x' : Record} : a.target ≠ some p → x.SameRow x' → Becomes db a g s o p x x'

theorem Action.Step.becomes {db : Place → Connection σ} {g y z : Record} {a : Action} {s s' : σ}
    {o : Except Error Unit} {p q : Place} (h : Action.Step db a (g, s) o q y z s') {x x' : Record}
    (hx : g.at? p = some x) (hx' : (g.putAt q z).at? p = some x') :
    a.Becomes db g s o p x x' := by
  obtain ⟨x₁, hx₁, -, -, heq, hrow⟩ := h.exists_at? hx
  obtain rfl : x₁ = x' := Option.some.inj (hx₁.symm.trans hx')
  by_cases ht : a.target = some p
  · obtain rfl := h.eq_of_target ht
    obtain ⟨rfl, rfl⟩ := heq rfl
    cases h with
    | refer _ hu => exact .pointed rfl rfl rfl hu
    | forget => exact .unset rfl
    | follow hy _ => exact .pointed rfl rfl rfl hy
    | write => exact .written rfl rfl
    | link => cases ht
    | settle => cases ht
  · exact .left ht (hrow ht)

/-- What becomes of the record that an action writes. -/
theorem Action.Step.at_write {db : Place → Connection σ} {g y z : Record} {s s' : σ}
    {o : Except Error Unit} {p q : Place} (h : Action.Step db (.write p) (g, s) o q y z s')
    {x x' : Record} (hx : g.at? p = some x) (hx' : (g.putAt q z).at? p = some x') :
    o = (Record.write (db p) (x, s)).1 ∧ x' = (Record.write (db p) (x, s)).2.1 := by
  cases h.becomes hx hx' with
  | pointed _ hs => cases hs
  | unset ha => cases ha
  | written _ ho => exact ⟨ho, rfl⟩
  | left ht => exact absurd rfl ht

section
variable {db : Place → Connection σ} {g₀ g y z : Record} {done rest : List Action} {a : Action}
  {s s' : σ} {o : Except Error Unit} {p q : Place} {x x' : Record}
  (hnames : ∀ p x, g₀.at? p = some x → x.table.relationNames.Nodup)
  (hformed : ∀ p x, g₀.at? p = some x → x.Formed) (hlinks : g₀.KeysLinked)
  (h : g₀.Reached done g)

include h

theorem Reached.keySource {b : Action} (hb : b ∈ g₀.plan) (ht : b.target = some p)
    (hs : b.source? = some q) (hx : g.at? p = some x)
    (hc : b.column? = some x.table.primaryKey.name) : g.KeySource p q := by
  obtain ⟨x₀, hx₀⟩ := h.underway.exists_at? hx
  rw [h.underway.table_eq hx₀ hx] at hc
  exact h.underway.keySource_iff.2 (Action.keySource hb ht hs hx₀ hc)

include hlinks in
theorem Reached.forget_ne {b : Reference} (hb : .forget p b ∈ g₀.plan) (hx : g.at? p = some x) :
    b.column ≠ x.table.primaryKey.name := by
  obtain ⟨x₀, hx₀⟩ := h.underway.exists_at? hx
  rw [h.underway.table_eq hx₀ hx]
  exact hlinks.forget_ne hb hx₀

variable (hplan : g₀.plan = done ++ a :: rest) (hstep : Action.Step db a (g, s) o q y z s')
include hplan

include hnames hformed in
/-- A key is taken from a row that was written. -/
theorem Reached.source_saved {u : Record} (hs : a.source? = some p) (hu : g.at? p = some u) :
    u.isNew = false := by
  obtain ⟨u₀, hu₀⟩ := h.underway.exists_at? hu
  have hdone := write_done hnames hformed hplan (.inr rfl)
    (fun q => .inl (Action.write_ne_of_source hs q)) hu₀ (Action.relies_of_source hs)
  exact h.written p u hdone hu

include hlinks hstep

/-- What becomes of a key behind an action: it is pointed at a row, its record is written, or it is
left alone. -/
theorem Reached.key_cases (hx : g.at? p = some x) (hx' : (g.putAt q z).at? p = some x') :
    (∃ r u modified, a.source? = some r ∧ g.KeySource p r ∧ g.at? r = some u ∧
      x' = x.relink x.table.primaryKey.name u.key modified) ∨
    (a = .write p ∧ o = (write (db p) (x, s)).1 ∧ x' = (write (db p) (x, s)).2.1) ∨
    x'.isNew = x.isNew ∧ x'.key = x.key := by
  have ha : a ∈ g₀.plan := List.mem_iff_append.2 ⟨_, _, hplan⟩
  cases hstep.becomes hx hx' with
  | @pointed r column u modified ht hsrc hcol hu =>
    by_cases hc : column = x.table.primaryKey.name
    · subst hc
      exact .inl ⟨r, u, modified, hsrc, h.keySource ha ht hsrc hx hcol, hu, rfl⟩
    · exact .inr (.inr ⟨relink_isNew .., (key_relink ..).resolve_right fun hk => hc hk.1⟩)
  | unset hforget =>
    subst hforget
    exact .inr (.inr ⟨relink_isNew ..,
      (key_relink ..).resolve_right fun hk => h.forget_ne hlinks ha hx hk.1⟩)
  | written hw ho => exact .inr (.inl ⟨hw, ho, rfl⟩)
  | left _ hrow => exact .inr (.inr ⟨hrow.isNew, hrow.key_eq⟩)

/-- **The key of a saved record** stays what it is. -/
theorem Reached.saved_stays (hx : g.at? p = some x) (hx' : (g.putAt q z).at? p = some x')
    (hs : x.isNew = false) : x'.isNew = false ∧ x'.key = x.key := by
  rcases h.key_cases hlinks hplan hstep hx hx' with ⟨r, u, modified, -, hsource, hu, rfl⟩ |
    ⟨-, -, rfl⟩ | ⟨hnew, hkey⟩
  · obtain ⟨hukey, hshares⟩ := h.links.source _ _ _ _ hsource hx hu
    obtain ⟨hsaved, hshares⟩ := hshares hs
    exact ⟨(relink_isNew ..).trans hs, hshares.key_relink (hukey hsaved) ..⟩
  · have hw := write_written (db p) x s
    refine ⟨?_, hw.key (.inl hs) (h.links.lock p x hx)⟩
    cases hout : (write (db p) (x, s)).1 with
    | ok => exact (hw.saved hout).1
    | error e => exact (hw.unsaved e hout).trans hs
  · exact ⟨hnew.trans hs, hkey⟩

omit hlinks in
/-- A new record that is saved behind an action was written by it. -/
theorem Reached.saved_of_new (hreports : ∀ p, (db p).Reports) (hx : g.at? p = some x)
    (hx' : (g.putAt q z).at? p = some x') (hnew : x.isNew = true) (hsaved : x'.isNew = false) :
    a = .write p ∧ o = .ok () ∧ x'.key.isNull = false ∧
      (x.key.isNull = false → x'.key = x.key) := by
  have hno : x'.isNew ≠ x.isNew := by simp [hnew, hsaved]
  obtain rfl : a = .write p := by
    by_contra hw
    exact hno (hstep.isNew_stays hx hx' hw)
  obtain ⟨ho, rfl⟩ := hstep.at_write hx hx'
  have hw := write_written (db p) x s
  cases hout : (write (db p) (x, s)).1 with
  | ok =>
    exact ⟨rfl, ho.trans hout, key_of_write (hreports p) hnew hout,
      fun hk => hw.key (.inr hk) (h.links.lock p x hx)⟩
  | error e => exact absurd (hw.unsaved e hout) hno

include hnames hformed in
/-- A key that a record has is not taken away. -/
theorem Reached.key_stays (hx : g.at? p = some x) (hx' : (g.putAt q z).at? p = some x')
    (hk : x.key.isNull = false) : x'.key.isNull = false := by
  rcases h.key_cases hlinks hplan hstep hx hx' with ⟨r, u, modified, hsrc, hsource, hu, rfl⟩ |
    ⟨-, -, rfl⟩ | ⟨-, hkey⟩
  · rcases x.key_relink x.table.primaryKey.name u.key modified with hsame | ⟨-, hset⟩
    · rwa [hsame]
    · rw [hset]
      exact (h.links.source _ _ _ _ hsource hx hu).1
        (h.source_saved hnames hformed hplan hsrc hu)
  · rwa [(write_written (db p) x s).key (.inr hk) (h.links.lock p x hx)]
  · rwa [hkey]

/-- A key that is that of a saved row stays so. -/
theorem Reached.shares_stays {r : Place} {u u' : Record} (hsource : g.KeySource p r)
    (hx : g.at? p = some x) (hx' : (g.putAt q z).at? p = some x') (hu : g.at? r = some u)
    (hu' : (g.putAt q z).at? r = some u') (hsaved : u.isNew = false) (hshares : x.Shares u) :
    x'.Shares u' := by
  have hukey := (h.saved_stays hlinks hplan hstep hu hu' hsaved).2
  have hnull : x.key.isNull = false :=
    hshares.isNull_eq.trans ((h.links.source p r x u hsource hx hu).1 hsaved)
  cases hnew : x.isNew with
  | false => exact hshares.congr (h.saved_stays hlinks hplan hstep hx hx' hnew).2 hukey
  | true =>
    rcases h.key_cases hlinks hplan hstep hx hx' with ⟨t, v, modified, -, hsource', hv, rfl⟩ |
      ⟨-, -, rfl⟩ | ⟨-, hkey⟩
    · -- the key of a new record is pointed at one row only
      obtain rfl := h.links.single p r t x hsource hsource' hx hnew
      obtain rfl : u = v := Option.some.inj (hu.symm.trans hv)
      exact (shares_relink hnew u modified).congr rfl hukey
    · have hkey := (write_written (db p) x s).key (.inr hnull) (h.links.lock p x hx)
      exact hshares.congr hkey hukey
    · exact hshares.congr hkey hukey

variable (hunder : g₀.Underway (done ++ [a]) (g.putAt q z))
include hunder

omit hlinks hplan hstep in
theorem Reached.before (hx' : (g.putAt q z).at? p = some x') :
    ∃ x, g.at? p = some x ∧ x'.table = x.table := by
  obtain ⟨x₀, hx₀⟩ := hunder.exists_at? hx'
  obtain ⟨x, hx, -⟩ := h.underway p x₀ hx₀
  exact ⟨x, hx, (hunder.table_eq hx₀ hx').trans (h.underway.table_eq hx₀ hx).symm⟩

theorem Reached.settled_step {x₀ : Record} (hx₀ : g₀.at? p = some x₀)
    (hx' : (g.putAt q z).at? p = some x') (hsaved : x₀.isNew = false) :
    x'.isNew = false ∧ x'.key = x₀.key := by
  obtain ⟨x, hx, -⟩ := h.before hunder hx'
  obtain ⟨hs, hk⟩ := h.settled p x₀ x hx₀ hx hsaved
  obtain ⟨hs', hk'⟩ := h.saved_stays hlinks hplan hstep hx hx' hs
  exact ⟨hs', hk'.trans hk⟩

variable (hreports : ∀ p, (db p).Reports)
include hreports

include hnames hformed in
/-- Where a relation sets a key, it leads to a row with a key. -/
theorem Reached.source_step {r : Place} {u' : Record} (hsource : g₀.KeySource p r)
    (hx' : (g.putAt q z).at? p = some x') (hu' : (g.putAt q z).at? r = some u') :
    (u'.isNew = false → u'.key.isNull = false) ∧
      (x'.isNew = false → u'.isNew = false ∧ x'.Shares u') := by
  obtain ⟨x, hx, -⟩ := h.before hunder hx'
  obtain ⟨u, hu, -⟩ := h.before hunder hu'
  have hsource' := h.underway.keySource_iff.2 hsource
  obtain ⟨hkey, hshares⟩ := h.links.source p r x u hsource' hx hu
  refine ⟨fun hsaved => ?_, fun hsaved => ?_⟩
  · cases hold : u.isNew with
    | false =>
      rw [(h.saved_stays hlinks hplan hstep hu hu' hold).2]
      exact hkey hold
    | true => exact (h.saved_of_new hplan hstep hreports hu hu' hold hsaved).2.2.1
  · have hboth : u.isNew = false ∧ x.Shares u := by
      cases hold : x.isNew with
      | false => exact hshares hold
      | true =>
        -- the record was written, and its key pointed at the row before
        obtain ⟨rfl, -⟩ := h.saved_of_new hplan hstep hreports hx hx' hold hsaved
        obtain ⟨x₀, hx₀⟩ := h.underway.exists_at? hx
        obtain ⟨b, hb, ht, hs, hc⟩ := hsource.exists_mem_plan hformed hx₀
        rw [← h.underway.table_eq hx₀ hx] at hc
        refine h.linked b ?_ p r x u ht hs hx hu hc
        have hordered := plan_ordered (A := False) hnames False.elim
        rw [hplan] at hb hordered
        rcases List.mem_append.1 hb with hb | hb
        · exact hb
        · exfalso
          rcases List.mem_cons.1 hb with rfl | hb
          · cases hs
          · exact ((List.pairwise_cons.1 (List.pairwise_append.1 hordered).2.1).1 b hb).1
              ⟨p, ht, .write p⟩
    exact ⟨(h.saved_stays hlinks hplan hstep hu hu' hboth.1).1,
      h.shares_stays hlinks hplan hstep hsource' hx hx' hu hu' hboth.1 hboth.2⟩

include hnames hformed in
theorem Reached.links_step : (g.putAt q z).KeysLinked where
  lock p x' hx' lock hl := by
    obtain ⟨x, hx, ht⟩ := h.before hunder hx'
    rw [ht] at hl ⊢
    exact h.links.lock p x hx lock hl
  emptied p x' b slot hx' hb hc hslot hone := by
    obtain ⟨x₀, hx₀⟩ := hunder.exists_at? hx'
    have hf := hunder.follows hx₀ hx'
    obtain ⟨old, hold, hshape, hmod⟩ := hf.slot hslot
    rw [hf.table] at hb hc
    have hnone : old.related = .one none :=
      Related.shape_eq_none (hshape.symm.trans (congrArg Related.shape hone))
    have hfalse := hlinks.emptied p x₀ b old hx₀ hb hc hold hnone
    cases hm : slot.modified with
    | false => rfl
    | true => exact (hmod hm).symm.trans hfalse
  single p r r' x' hr hr' hx' hnew := by
    obtain ⟨x₀, hx₀⟩ := hunder.exists_at? hx'
    refine hlinks.single p r r' x₀ (hunder.keySource_iff.1 hr) (hunder.keySource_iff.1 hr') hx₀ ?_
    cases hold : x₀.isNew with
    | true => rfl
    | false =>
      rw [(h.settled_step hlinks hplan hstep hunder hx₀ hx' hold).1] at hnew
      cases hnew
  source p r x' u' hsource hx' hu' := h.source_step hnames hformed hlinks hplan hstep hunder
    hreports (hunder.keySource_iff.1 hsource) hx' hu'

omit hreports

include hnames hformed in
/-- Keys stay what they were pointed at. -/
theorem Reached.linked_step {b : Action} (hb : b ∈ done ∨ b = a) {r : Place} {u' : Record}
    (ht : b.target = some p) (hs : b.source? = some r) (hx' : (g.putAt q z).at? p = some x')
    (hu' : (g.putAt q z).at? r = some u') (hc : b.column? = some x'.table.primaryKey.name) :
    u'.isNew = false ∧ x'.Shares u' := by
  obtain ⟨x, hx, htable⟩ := h.before hunder hx'
  obtain ⟨u, hu, -⟩ := h.before hunder hu'
  rw [htable] at hc
  have hmem : b ∈ g₀.plan := by
    rw [hplan, List.mem_append, List.mem_cons]
    exact hb.imp_right .inl
  have hsource := h.keySource hmem ht hs hx hc
  have hstays : u.isNew = false → x.Shares u → u'.isNew = false ∧ x'.Shares u' := fun hsaved hsh =>
    ⟨(h.saved_stays hlinks hplan hstep hu hu' hsaved).1,
      h.shares_stays hlinks hplan hstep hsource hx hx' hu hu' hsaved hsh⟩
  rcases hb with hb | rfl
  · obtain ⟨hsaved, hshares⟩ := h.linked b hb p r x u ht hs hx hu hc
    exact hstays hsaved hshares
  · have hsaved := h.source_saved hnames hformed hplan hs hu
    cases hnew : x.isNew with
    | false => exact hstays hsaved ((h.links.source p r x u hsource hx hu).2 hnew).2
    | true =>
      refine ⟨(h.saved_stays hlinks hplan hstep hu hu' hsaved).1, ?_⟩
      have hukey := (h.saved_stays hlinks hplan hstep hu hu' hsaved).2
      cases hstep.becomes hx hx' with
      | @pointed r' column v modified _ hsrc hcol hv =>
        obtain rfl := Option.some.inj (hs.symm.trans hsrc)
        obtain rfl := Option.some.inj (hc.symm.trans hcol)
        obtain rfl : u = v := Option.some.inj (hu.symm.trans hv)
        exact (shares_relink hnew u modified).congr rfl hukey
      | unset hforget =>
        subst hforget
        cases hs
      | written hw =>
        subst hw
        cases hs
      | left hne => exact absurd ht hne

include hreports

include hnames hformed in
/-- **What one action leaves** of the keys, whether it succeeds or fails. -/
theorem Reached.step : g₀.Reached (a.doneBehind done o) (g.putAt q z) := by
  have hdone : ∀ {b}, b ∈ a.doneBehind done o → b ∈ done ∨ b = a ∧ o = .ok () := by
    intro b hb
    cases o with
    | error e => exact .inl hb
    | ok => exact (List.mem_append.1 hb).imp_right fun hb => ⟨List.mem_singleton.1 hb, rfl⟩
  refine ⟨fun p x₀ hx₀ => ?underway, h.links_step hnames hformed hlinks hplan hstep hunder hreports,
    fun p x' hx' hnew => ?made,
    fun p x₀ x' hx₀ hx' => h.settled_step hlinks hplan hstep hunder hx₀ hx',
    fun p x' hmem hx' => ?written, fun p x₀ x' hx₀ hx' hnew hsaved => ?keyed,
    fun b hb p r x' u' => h.linked_step hnames hformed hlinks hplan hstep hunder
      ((hdone hb).imp_right And.left)⟩
  case underway =>
    obtain ⟨x', hx', hf, hsort, hsame⟩ := hunder p x₀ hx₀
    refine ⟨x', hx', hf, hsort, fun hmem => ?_⟩
    cases o with
    | ok => exact hsame hmem
    | error e =>
      obtain ⟨x, hx, -, -, hsame⟩ := h.underway p x₀ hx₀
      rw [← hsame hmem]
      cases hold : x.isNew with
      | false => exact (h.saved_stays hlinks hplan hstep hx hx' hold).1
      | true =>
        cases hnew : x'.isNew with
        | true => rfl
        | false =>
          obtain ⟨-, ho, -⟩ := h.saved_of_new hplan hstep hreports hx hx' hold hnew
          cases ho
  case made =>
    obtain ⟨x, hx, ht⟩ := h.before hunder hx'
    have hold : x.isNew = true := by
      cases hold : x.isNew with
      | true => rfl
      | false =>
        rw [(h.saved_stays hlinks hplan hstep hx hx' hold).1] at hnew
        cases hnew
    rw [ht]
    exact (h.made p x hx hold).imp_right (h.key_stays hnames hformed hlinks hplan hstep hx hx')
  case written =>
    obtain ⟨x, hx, -⟩ := h.before hunder hx'
    rcases hdone hmem with hmem | ⟨rfl, rfl⟩
    · exact (h.saved_stays hlinks hplan hstep hx hx' (h.written p x hmem hx)).1
    · obtain ⟨ho, rfl⟩ := hstep.at_write hx hx'
      exact ((write_written (db p) x s).saved ho.symm).1
  case keyed =>
    obtain ⟨x, hx, -⟩ := h.before hunder hx'
    cases hold : x.isNew with
    | true => exact (h.saved_of_new hplan hstep hreports hx hx' hold hsaved).2.2.1
    | false =>
      rw [(h.saved_stays hlinks hplan hstep hx hx' hold).2]
      exact h.keyed p x₀ x hx₀ hx hnew hold

end

theorem Reached.start {g : Record} (hlinks : g.KeysLinked) (hmade : g.KeysMade) :
    g.Reached [] g where
  underway := .start g
  links := hlinks
  made := hmade
  settled p x y hx hy hs := by
    obtain rfl := Option.some.inj (hx.symm.trans hy)
    exact ⟨hs, rfl⟩
  written p y h := by cases h
  keyed p x y hx hy hnew hs := by
    obtain rfl := Option.some.inj (hx.symm.trans hy)
    rw [hnew] at hs
    cases hs
  linked b h := by cases h

end Record

end RecordGraph
