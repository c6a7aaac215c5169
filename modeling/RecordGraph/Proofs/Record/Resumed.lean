import RecordGraph.Proofs.Record.LinkedKeys
import RecordGraph.Proofs.Record.SavedKeys
import RecordGraph.Proofs.Sql.TableRows

/-!
# Saving again after a failure

A save that fails leaves a graph half-way: what was written is saved, and a relation whose links are
not all written still counts as replaced. Saving it again goes on from there.

**Results.**
* `Record.Attempts`: a graph that is saved again and again until that succeeds, with all that is
  sent.
* `Record.Action.Step.counts`: a row that an action adds is that of a new record, which is saved
  then.
* `Record.LinksAlong.step`: links that were written stay as long as nobody else writes them.
* `Record.save_resumed`: each new record is added once in the end, and the links are those of the
  graph.
-/
namespace RecordGraph

/-- A row that the database takes is added, with a key where the database gives it one. -/
theorem Connection.Reports.insert_of_accepts {σ : Type} {db : Connection σ} (h : db.Reports)
    {table : Table} {fields : List Field} {s : σ} (haccepts : db.accepts table fields s = true) :
    ∃ key s', db.insert table fields s = (.ok key, s') ∧
      (Connection.assignsKey table fields = true → key.isSome = true) := by
  cases hassigns : Connection.assignsKey table fields with
  | true =>
    obtain ⟨k, s', hk, -⟩ := h table fields s hassigns haccepts
    exact ⟨some k, s', hk, fun _ => rfl⟩
  | false =>
    unfold Connection.accepts at haccepts
    rw [hassigns] at haccepts
    simp only at haccepts
    rw [← Connection.run_isOk] at haccepts
    rw [Connection.insert, if_neg (by simp [hassigns]), Session.bind_run]
    rcases hrun : db.run (.insert table fields none) s with ⟨e | ⟨⟩, s'⟩
    · rw [hrun] at haccepts
      cases haccepts
    · exact ⟨none, s', rfl, fun h => by cases h⟩

namespace Record

variable {σ : Type}

/-! ## Rows that are added -/

/-- A key among the columns of a new row is that of the record. -/
theorem key_of_mem_insertFields {y : Record} (hs : y.table.Sound) {f : Field}
    (hf : f ∈ y.insertFields) (hkey : f.column.primaryKey = true) : y.key = f.value := by
  obtain ⟨c, hc, hfield⟩ := List.mem_filterMap.1 hf
  cases hv : y.values.find? c.name with
  | none =>
    rw [hv] at hfield
    cases hfield
  | some v =>
    simp only [hv] at hfield
    split at hfield
    · cases hfield
    · cases hfield
      rw [key, ← hs.key c hc hkey, hv]
      rfl

/-- A row that is sent without its key gets it from the database. -/
theorem assignsKey_insertFields {r : Record} (hs : r.table.Sound) (hkey : r.key.isNull = true)
    (hauto : r.table.primaryKey.receiver = .autoPrimaryKey) :
    Connection.assignsKey r.table r.insertFields = true := by
  rw [Connection.assignsKey, hauto, Bool.and_eq_true, Bool.not_eq_true', List.any_eq_false]
  refine ⟨beq_self_eq_true _, fun f hf hpk => ?_⟩
  obtain ⟨hpk, hnonnull⟩ := Bool.and_eq_true_iff.1 hpk
  rw [← key_of_mem_insertFields hs hf hpk, hkey] at hnonnull
  cases hnonnull

/-- **A new record whose row is taken** is saved, if its key is there or made up. -/
theorem insert_accepted {db : Connection σ} (h : db.Reports) {y : Record} (hs : y.table.Sound)
    (hmade : y.table.MakesKeys ∨ y.key.isNull = false) {s : σ}
    (haccepts : db.accepts y.table (prepare db y s).1.insertFields (prepare db y s).2 = true) :
    (insert db (y, s)).1 = .ok () := by
  obtain ⟨key, s', hinsert, hsome⟩ := h.insert_of_accepts haccepts
  have htaken : ((prepare db y s).1.taken key).isSome = true := by
    rw [taken]
    split
    · rename_i hnull
      rw [Option.isSome_map]
      refine hsome ?_
      rcases prepare_key db y s with ⟨hk, hmake⟩ | ⟨hk, -⟩
      · -- the database makes the key
        rw [hk] at hnull
        obtain ⟨huuid, hulid⟩ := hmake hnull
        have hauto := (hmade.resolve_right (by simp [hnull])).resolve_right
          fun hor => hor.elim huuid hulid
        have htable := prepare_table db y s
        rw [← htable]
        exact assignsKey_insertFields (htable.symm ▸ hs) (hk.symm ▸ hnull) (htable.symm ▸ hauto)
      · rw [hk] at hnull
        cases hnull
    · rfl
  obtain ⟨z, hz⟩ := Option.isSome_iff_exists.1 htaken
  rw [insert_run, hinsert]
  simp only [hz]

theorem Entry.writes_of_inserts {e : Entry} {p : Place} (h : e.inserts p = true) :
    e.writes p = true := by
  obtain ⟨place, command, accepted⟩ := e
  simp only [Entry.inserts, Entry.writes, Bool.and_eq_true] at h ⊢
  refine ⟨h.1.1, ?_⟩
  cases command <;> first | rfl | exact absurd h.2 Bool.false_ne_true

/-- A write adds the row of a new record, which is saved then, and no other row. -/
theorem write_counts {db : Connection σ} (h : db.Reports) (p : Place) {y : Record}
    (hs : y.table.Sound) (hmade : y.isNew = true → y.table.MakesKeys ∨ y.key.isNull = false)
    {sent new : List Entry} {s : σ}
    (hsent : (write (db.traced p) (y, (sent, s))).2.2.1 = sent ++ new) :
    new.countP (·.inserts p) + (write (db.traced p) (y, (sent, s))).2.1.isNew.toNat =
      y.isNew.toNat := by
  cases hnew : y.isNew with
  | false =>
    obtain ⟨new', hsent', hposted⟩ := write_posted db p y sent s
    obtain rfl : new = new' := List.append_cancel_left (hsent.symm.trans hsent')
    have hnone : new.countP (·.inserts p) = 0 := by
      refine List.countP_eq_zero.2 fun e he hi => ?_
      obtain ⟨set, guard, hc⟩ := hposted.update hnew e he
      simp [Entry.inserts, hc] at hi
    have hw := write_written (db.traced p) y (sent, s)
    have hsaved : (write (db.traced p) (y, (sent, s))).2.1.isNew = false := by
      cases ho : (write (db.traced p) (y, (sent, s))).1 with
      | ok => exact (hw.saved ho).1
      | error e => exact (hw.unsaved e ho).trans hnew
    rw [hnone, hsaved, Nat.zero_add]
  | true =>
    rw [write, Saving.record_bind, if_pos hnew] at hsent ⊢
    obtain ⟨returning, hsent'⟩ := insert_sent db p y sent s
    obtain rfl := List.append_cancel_left (hsent.symm.trans hsent')
    have hw := insert_written (db.traced p) hnew (sent, s)
    cases haccepts : (db.traced p).accepts y.table
      (prepare (db.traced p) y (sent, s)).1.insertFields (prepare (db.traced p) y (sent, s)).2 with
    | true =>
      rw [(hw.saved (insert_accepted (h.traced p) hs (hmade hnew) haccepts)).1]
      simp [Entry.inserts]
    | false =>
      cases ho : (insert (db.traced p) (y, (sent, s))).1 with
      | ok =>
        rw [accepts_of_ok ho] at haccepts
        cases haccepts
      | error e =>
        rw [hw.unsaved e ho, hnew]
        simp [Entry.inserts]

/-- **A row that an action adds** is that of a new record, which is saved then. -/
theorem Action.Step.counts {db : Connection σ} {g y z : Record} {a : Action}
    {sent new : List Entry} {s : σ} {t : List Entry × σ} {o : Except Error Unit} {q : Place}
    (h : Action.Step db.traced a (g, (sent, s)) o q y z t) (hreports : db.Reports)
    (hsent : t.1 = sent ++ new) {p : Place} {x x' : Record} (hx : g.at? p = some x)
    (hx' : (g.putAt q z).at? p = some x') (hs : x.table.Sound)
    (hmade : x.isNew = true → x.table.MakesKeys ∨ x.key.isNull = false) :
    new.countP (·.inserts p) + x'.isNew.toNat = x.isNew.toNat := by
  by_cases hw : a = .write p
  · subst hw
    obtain ⟨-, rfl⟩ := h.at_write hx hx'
    obtain rfl := h.eq_of_target rfl
    cases h with
    | write hy =>
      obtain rfl := Option.some.inj (hx.symm.trans hy)
      exact write_counts hreports p hs hmade hsent
  · obtain ⟨new', hsent', hposts⟩ := h.posts
    obtain rfl : new = new' := List.append_cancel_left (hsent.symm.trans hsent')
    have hnone : new.countP (·.inserts p) = 0 :=
      List.countP_eq_zero.2 fun e he hi => hw (hposts.eq_write he (Entry.writes_of_inserts hi))
    rw [hnone, h.isNew_stays hx hx' hw, Nat.zero_add]

/-! ## Links -/

/-- The commands that the database did. -/
def accepted (sent : List Entry) : List Command := (sent.filter (·.accepted)).map (·.command)

theorem accepted_append (sent new : List Entry) :
    accepted (sent ++ new) = accepted sent ++ accepted new := by
  simp [accepted]

/-- Nothing else in a graph writes the association of a relation of the record at `p`. -/
structure Alone (g : Record) (p : Place) (a : ManyMany) : Prop where
  slots : ∀ q x b slot, g.at? q = some x → b ∈ x.table.manyManys →
    x.slots.find? b.identifier = some slot → slot.modified = true →
      b.association = a.association → q = p ∧ b.identifier = a.identifier
  tables : ∀ q x, g.at? q = some x → x.table.name ≠ a.association

/-- Nothing else writes it on the way either. -/
theorem Alone.behind {g₀ g : Record} {p : Place} {a : ManyMany} {done : List Action}
    (h : g₀.Alone p a) (hunder : g₀.Underway done g) : g.Alone p a where
  slots q y b slot hy hb hslot hm := by
    obtain ⟨x, hx⟩ := hunder.exists_at? hy
    have hf := hunder.follows hx hy
    obtain ⟨old, hold, -, hmod⟩ := hf.slot hslot
    exact h.slots q x b old hx (hf.table ▸ hb) hold (hmod hm)
  tables q y hy := by
    obtain ⟨x, hx⟩ := hunder.exists_at? hy
    rw [hunder.table_eq hx hy]
    exact h.tables q x hx

/-- It is enough that no relation below the record was replaced. -/
theorem alone_root {g : Record} {a : ManyMany}
    (hown : ∀ b ∈ g.table.manyManys, b.association = a.association → b.identifier = a.identifier)
    (hbelow : ∀ e ∈ g.slots.entries, ∀ c ∈ e.2.related.toList, ∀ x ∈ recordsWithin c.depth c,
      ∀ e ∈ x.slots.entries, e.2.modified = false)
    (htables : ∀ x ∈ recordsWithin g.depth g, x.table.name ≠ a.association) : g.Alone [] a where
  slots q x b slot hx hb hslot hm hsame := by
    match q with
    | [] =>
      cases hx
      exact ⟨rfl, hown b hb hsame⟩
    | (identifier, i) :: q =>
      obtain ⟨c, hc, hx⟩ := at?_cons_eq_some_iff.1 hx
      obtain ⟨held, hs, hc⟩ := exists_slot_of_child? hc
      have hx := mem_recordsWithin hx (length_lt_depth_of_at? hx)
      have hsettled := hbelow _ (NameMap.mem_of_find? hs) c (List.mem_of_getElem? hc) x hx _
        (NameMap.mem_of_find? hslot)
      rw [hm] at hsettled
      cases hsettled
  tables q x hx := htables x (mem_recordsWithin hx (length_lt_depth_of_at? hx))

/-- The links of the record at `p` are still to be written. -/
def Pending (g : Record) (p : Place) (a : ManyMany) : Prop :=
  ∃ y, g.at? p = some y ∧ y.modified? a.identifier = some true

/-- The commands leave the record `y` at `p` with the links of the graph: both sides are saved, and
the relation counts as saved. -/
structure Relinked (g : Record) (p : Place) (a : ManyMany) (cs : List Command) (y : Record) :
    Prop where
  place : g.at? p = some y
  saved : y.isNew = false
  targets : ∀ c ∈ y.related a.identifier, c.isNew = false
  settled : y.modified? a.identifier ≠ some true
  links : ∀ eq rows, eq.holds y.key y.key = true →
    a.linkedWith eq y.key (Command.rowsAfter eq a.association rows cs) =
      (y.related a.identifier).map (·.key)

/-- The related records of two records, one by one. -/
theorem map_related_congr {β : Type} {f : Record → β} {y z : Record} {identifier : String}
    (hlen : (z.related identifier).length = (y.related identifier).length)
    (h : ∀ i c d, y.child? identifier i = some c → z.child? identifier i = some d → f d = f c) :
    (z.related identifier).map f = (y.related identifier).map f := by
  refine List.ext_getElem (by simp [hlen]) fun i hi hi' => ?_
  rw [List.getElem_map, List.getElem_map]
  exact h i _ _ (List.getElem?_eq_getElem _) (List.getElem?_eq_getElem _)

/-- Links that are to be written are not taken as written before. -/
theorem Pending.step {db : Place → Connection σ} {g₀ g y z x₀ : Record} {done : List Action}
    {b : Action} {s s' : σ} {o : Except Error Unit} {p q : Place} {a : ManyMany}
    (hnames : ∀ p x, g₀.at? p = some x → x.table.relationNames.Nodup) (hx₀ : g₀.at? p = some x₀)
    (ha : a ∈ x₀.table.manyManys) (h : g₀.Underway done g) (hb : b ∈ g₀.plan)
    (hstep : Action.Step db b (g, s) o q y z s') (hpending : g.Pending p a)
    (hne : b = .link p a → o ≠ .ok ()) : (g.putAt q z).Pending p a := by
  obtain ⟨x, hx, hmodified⟩ := hpending
  obtain ⟨x', hx', hf, -⟩ := hstep.exists_at? hx
  have hnd := hnames p x₀ hx₀
  rw [Table.relationNames, List.nodup_append] at hnd
  refine ⟨x', hx', (hstep.modified_stays hx hx' ?_ fun relation hlink hi => ?_).trans hmodified⟩
  · rintro rfl
    obtain ⟨r, w, hw, hown⟩ := mem_plan hb
    cases hown with
    | @settle _ slot hslot hkind =>
      obtain rfl : w = x₀ := Option.some.inj (hw.symm.trans hx₀)
      have hmem := List.mem_map_of_mem (f := (·.identifier)) ha
      rcases hkind with hkind | hkind | ⟨-, hm⟩
      · exact hnd.2.2 _ (List.mem_append_left _ hkind) _ hmem rfl
      · exact hnd.2.2 _ (List.mem_append_right _ hkind) _ hmem rfl
      · have hf := h.follows hw hx
        obtain ⟨slot', hslot', hm'⟩ := Option.map_eq_some_iff.1 hmodified
        rw [hf.modified _ slot slot' hslot hslot' hm'] at hm
        cases hm
  · subst hlink
    obtain ⟨r, w, hw, hown⟩ := mem_plan hb
    cases hown with
    | link hmem hslot hm =>
      obtain rfl : w = x₀ := Option.some.inj (hw.symm.trans hx₀)
      exact hne (by rw [List.inj_on_of_nodup_map hnd.2.1 hmem ha hi])

section
variable {db : Connection σ} {g₀ g y z : Record} {done rest : List Action} {b : Action}
  {sent : List Entry} {s : σ} {t : List Entry × σ} {o : Except Error Unit} {p q : Place}
  {a : ManyMany} {x₀ : Record}
  (hnames : ∀ p x, g₀.at? p = some x → x.table.relationNames.Nodup)
  (hx₀ : g₀.at? p = some x₀) (ha : a ∈ x₀.table.manyManys) (halone : g₀.Alone p a)

include hnames hx₀ ha halone

/-- What another action sends does not touch the links. -/
theorem Alone.rowsOf_eq (h : g₀.Underway done g) (hb : b ∈ g₀.plan) (hne : b ≠ .link p a)
    (hstep : Action.Step db.traced b (g, (sent, s)) o q y z t) {new : List Entry}
    (hposts : b.Posts y o new) {c : Command} (hc : c ∈ accepted new) (eq : Equality)
    (rows : List Tuple) : c.rowsOf eq a.association rows = rows := by
  obtain ⟨e, he, rfl⟩ := List.mem_map.1 hc
  have he := (List.mem_filter.1 he).1
  obtain ⟨y₀, hy₀⟩ := h.exists_at? hstep.at?
  have htable : y.table.name ≠ a.association := by
    rw [h.table_eq hy₀ hstep.at?]
    exact halone.tables q y₀ hy₀
  cases hposts with
  | write hposted =>
    cases hnew : y.isNew with
    | true =>
      obtain ⟨fields, returning, hcommand⟩ := hposted.insert hnew e he
      rw [hcommand, Command.rowsOf, if_neg htable]
    | false =>
      obtain ⟨set, guard, hcommand⟩ := hposted.update hnew e he
      rw [hcommand, Command.rowsOf, if_neg htable]
  | @link r b _ _ _ hlinking =>
    have hassociation : b.association ≠ a.association := by
      intro hsame
      obtain ⟨r', w, hw, hown⟩ := mem_plan hb
      cases hown with
      | link hmem hslot hm =>
        obtain ⟨rfl, hidentifier⟩ := halone.slots _ w b _ hw hmem hslot hm hsame
        obtain rfl : w = x₀ := Option.some.inj (hw.symm.trans hx₀)
        have hnd := hnames _ w hw
        rw [Table.relationNames, List.nodup_append] at hnd
        exact hne (by rw [List.inj_on_of_nodup_map hnd.2.1 hmem ha hidentifier])
    obtain ⟨-, hlinking⟩ := hlinking e he
    generalize e.command = command at hlinking
    cases hlinking with
    | unlinkAll => rw [Command.rowsOf, if_neg hassociation]
    | link target => rw [Command.rowsOf, if_neg hassociation]
  | none => cases he

omit hx₀ ha halone in
/-- The links are written once only. -/
theorem not_linked_again (hplan : g₀.plan = done ++ b :: rest) (hdone : .link p a ∈ done) :
    b ≠ .link p a := by
  have hlinks := plan_links hnames
  rw [hplan] at hlinks
  rintro rfl
  exact (List.pairwise_append.1 hlinks).2.2 _ hdone _ List.mem_cons_self _ rfl rfl

end

section
variable {db : Connection σ} {g₀ g y z : Record} {done rest : List Action} {b : Action}
  {sent : List Entry} {s : σ} {t : List Entry × σ} {o : Except Error Unit} {p q : Place}
  {a : ManyMany} (hlinks : g₀.KeysLinked) (h : g₀.Reached done g)
  (hplan : g₀.plan = done ++ b :: rest) {cs cs' : List Command}

include h hplan

include hlinks in
/-- Links that were written stay, where nothing is sent for them. -/
theorem Relinked.step (hstep : Action.Step db.traced b (g, (sent, s)) o q y z t) {x : Record}
    (hold : g.Relinked p a cs x)
    (hsilent : ∀ c ∈ cs', ∀ eq rows, c.rowsOf eq a.association rows = rows) :
    ∃ x', (g.putAt q z).Relinked p a (cs ++ cs') x' := by
  obtain ⟨x', hx', hf, -⟩ := hstep.exists_at? hold.place
  obtain ⟨hsaved, hkey⟩ := h.saved_stays hlinks hplan hstep hold.place hx' hold.saved
  have hchild : ∀ i c d, x.child? a.identifier i = some c → x'.child? a.identifier i = some d →
      d.isNew = false ∧ d.key = c.key := by
    intro i c d hc hd
    exact h.saved_stays hlinks hplan hstep ((at?_concat hold.place ..).trans hc)
      ((at?_concat hx' ..).trans hd) (hold.targets c (List.mem_of_getElem? hc))
  refine ⟨x', hx', hsaved, fun d hd => ?targets, fun hm => ?settled, fun eq rows hholds => ?links⟩
  case targets =>
    obtain ⟨i, hi⟩ := List.getElem?_of_mem hd
    have hsome := hf.isSome_child? a.identifier i
    rw [child?, hi] at hsome
    obtain ⟨c, hc⟩ := Option.isSome_iff_exists.1 hsome.symm
    exact (hchild i c d hc hi).1
  case settled =>
    obtain ⟨slot, hslot, hm⟩ := Option.map_eq_some_iff.1 hm
    obtain ⟨old, hold', -, hmod⟩ := hf.slot hslot
    refine hold.settled ?_
    rw [modified?, hold', Option.map_some, hmod hm]
  case links =>
    rw [hkey] at hholds ⊢
    rw [Command.rowsAfter_append, Command.rowsAfter_eq_self fun c hc => hsilent c hc eq,
      hold.links eq rows hholds]
    exact (map_related_congr (hf.length_related _) fun i c d hc hd => (hchild i c d hc hd).2).symm

/-- Links are written when both sides are there. -/
theorem Relinked.of_link (hnames : ∀ p x, g₀.at? p = some x → x.table.relationNames.Nodup)
    (hformed : ∀ p x, g₀.at? p = some x → x.Formed) (hb : b = .link p a)
    (hne : a.ownColumn ≠ a.targetColumn)
    (hstep : Action.Step db.traced b (g, (sent, s)) (.ok ()) q y z t) {new : List Entry}
    (hposts : b.Posts y (.ok ()) new) : (g.putAt q z).Relinked p a (cs ++ accepted new) z := by
  subst hb
  have hsaved : ∀ {r : Place} {x : Record}, g.at? r = some x → (Action.link p a).Relies r →
      x.isNew = false := by
    intro r x hx hrelies
    obtain ⟨x₀, hx₀⟩ := h.underway.exists_at? hx
    exact h.written r x (write_done hnames hformed hplan (.inr rfl) (fun q => .inl (by simp)) hx₀
      hrelies) hx
  have hat := hstep.at?
  generalize ho : (Except.ok () : Except Error Unit) = o at hstep
  cases hstep with
  | link hy =>
    rw [← ho]
    cases hposts with
    | none _ hlink => exact absurd rfl (hlink p a)
    | link _ hnew =>
      rw [hnew rfl]
      have hown := hsaved hy (.link ..)
      refine ⟨at?_putAt_self hy _, hown, fun c hc => ?targets, fun hm => ?settled,
        fun eq rows hholds => ?links⟩
      case targets =>
        rw [relinked, related_settle] at hc
        obtain ⟨i, hi⟩ := List.getElem?_of_mem hc
        exact hsaved ((at?_concat hy ..).trans hi) (.linked ..)
      case settled =>
        obtain ⟨slot, hslot, hm⟩ := Option.map_eq_some_iff.1 hm
        rw [slot_settle hslot] at hm
        cases hm
      case links =>
        have hcommands : accepted (⟨p, .unlinkAll a y.key, true⟩ ::
            (y.related a.identifier).map fun target => ⟨p, .link a y.key target.key, true⟩) =
              .unlinkAll a y.key ::
                ((y.related a.identifier).map (·.key)).map (.link a y.key) := by
          simp [accepted, List.filter_map, Function.comp_def]
        have hrelated : (y.relinked a.identifier (.ok ())).related a.identifier =
            y.related a.identifier := related_settle ..
        rw [Command.rowsAfter_append, hcommands, hrelated]
        exact ManyMany.linkedWith_relinked hne hholds _ _

end

/-- Where the links of a relation stand along a plan: they are still to be written, or they were. -/
def LinksAlong (g₀ : Record) (p : Place) (a : ManyMany) (done : List Action) (g : Record)
    (cs : List Command) : Prop :=
  g.Pending p a ∧ .link p a ∉ done ∨
    (∃ y, g.Relinked p a cs y) ∧ (.link p a ∈ done ∨ .link p a ∉ g₀.plan)

/-- **The links of a relation**, behind an action that succeeds or fails. -/
theorem LinksAlong.step {db : Connection σ} {g₀ g y z : Record} {done rest : List Action}
    {b : Action} {sent new : List Entry} {s : σ} {t : List Entry × σ} {o : Except Error Unit}
    {p q : Place} {a : ManyMany} {x₀ : Record} {cs : List Command}
    (hnames : ∀ p x, g₀.at? p = some x → x.table.relationNames.Nodup)
    (hformed : ∀ p x, g₀.at? p = some x → x.Formed) (hlinks : g₀.KeysLinked)
    (h : g₀.Reached done g) (hplan : g₀.plan = done ++ b :: rest) (hx₀ : g₀.at? p = some x₀)
    (ha : a ∈ x₀.table.manyManys) (halone : g₀.Alone p a) (hne : a.ownColumn ≠ a.targetColumn)
    (hstep : Action.Step db.traced b (g, (sent, s)) o q y z t) (hposts : b.Posts y o new)
    (hstate : g₀.LinksAlong p a done g cs) :
    g₀.LinksAlong p a (b.doneBehind done o) (g.putAt q z) (cs ++ accepted new) := by
  have hmem : b ∈ g₀.plan := List.mem_iff_append.2 ⟨_, _, hplan⟩
  by_cases hb : b = .link p a
  · cases o with
    | ok =>
      refine .inr ⟨⟨z, .of_link h hplan hnames hformed hb hne hstep hposts⟩, .inl ?_⟩
      exact List.mem_append_right _ (List.mem_singleton.2 hb.symm)
    | error e =>
      rcases hstate with ⟨hpending, hdone⟩ | ⟨-, hdone | hplan'⟩
      · refine .inl ⟨hpending.step hnames hx₀ ha h.underway hmem hstep fun _ h => ?_, hdone⟩
        cases h
      · exact absurd hb (not_linked_again hnames hplan hdone)
      · exact absurd (hb ▸ hmem) hplan'
  · have hdone_iff : .link p a ∈ b.doneBehind done o ↔ .link p a ∈ done := by
      rw [Action.mem_doneBehind, or_iff_left fun h => hb h.2.symm]
    rcases hstate with ⟨hpending, hdone⟩ | ⟨⟨x, hx⟩, hdone⟩
    · exact .inl ⟨hpending.step hnames hx₀ ha h.underway hmem hstep fun h => absurd h hb,
        fun h => hdone (hdone_iff.1 h)⟩
    · refine .inr ⟨hx.step hlinks h hplan hstep fun c hc eq rows => ?_,
        hdone.imp_left hdone_iff.2⟩
      exact halone.rowsOf_eq hnames hx₀ ha h.underway hmem hb hstep hposts hc eq rows

/-! ## One attempt -/

/-- A graph over sound tables that can be saved again and again: each new record gets a key, and
relations leave the keys alone. -/
structure Resumable (tables : List Table) (g : Record) : Prop where
  tables : ∀ p x, g.at? p = some x → x.table ∈ tables
  formed : ∀ p x, g.at? p = some x → x.Formed
  links : g.KeysLinked
  made : g.KeysMade

theorem Resumable.behind {tables : List Table} {g g' : Record} {done : List Action}
    (h : g.Resumable tables) (hr : g.Reached done g') : g'.Resumable tables where
  tables p y hy := by
    obtain ⟨x, hx⟩ := hr.underway.exists_at? hy
    rw [hr.underway.table_eq hx hy]
    exact h.tables p x hx
  formed p y hy := by
    obtain ⟨x, hx⟩ := hr.underway.exists_at? hy
    exact (hr.underway.follows hx hy).formed (h.formed p x hx)
  links := hr.links
  made := hr.made

/-- It is enough to look at each record. -/
theorem resumable_of_fits {tables : List Table} {g : Record}
    (h : ∀ x ∈ recordsWithin g.depth g, x.Fits tables)
    (hkeys : ∀ x ∈ recordsWithin g.depth g, x.table.MakesKeys ∧
      x.table.lockColumn?.all (fun lock => lock.name != x.table.primaryKey.name) = true) :
    g.Resumable tables := by
  obtain ⟨hregular, -, hplain⟩ := regular_of_fits h
  have hall := fun p x (hx : g.at? p = some x) =>
    hkeys x (mem_recordsWithin hx (length_lt_depth_of_at? hx))
  refine ⟨hregular.tables, hregular.formed, hplain.keysLinked hregular.formed
    fun p x hx lock hlock => ?_, fun p x hx _ => .inl (hall p x hx).1⟩
  have hne := (hall p x hx).2
  rw [hlock] at hne
  exact bne_iff_ne.1 hne

section
variable {db : Connection σ} {tables : List Table} {g g' : Record} {s s' : σ}
  {o : Except Error Unit} (ht : Schema.SoundTables tables) (hreports : db.Reports)
  (hg : g.Resumable tables)

include ht hg in
theorem Resumable.names (p : Place) (x : Record) (hx : g.at? p = some x) :
    x.table.relationNames.Nodup := (ht.sound _ (hg.tables p x hx)).relations

include ht hreports hg in
/-- **What one attempt leaves**, whether it succeeds or fails: keys are as before, a row that was
added is that of a new record, which is saved now, and links are still to be written or were. -/
theorem save_attempt (hsave : save db (g, s) = (o, (g', s'))) : ∃ done,
    (o = .ok () → done = g.plan) ∧ g.Reached done g' ∧
    (∀ p x x', g.at? p = some x → g'.at? p = some x' →
      (sent db g s).countP (·.inserts p) + x'.isNew.toNat = x.isNew.toNat) ∧
    ∀ p a x cs, g.at? p = some x → a ∈ x.table.manyManys → g.Alone p a →
      a.ownColumn ≠ a.targetColumn → g.LinksAlong p a [] g cs →
        g.LinksAlong p a done g' (cs ++ accepted (sent db g s)) := by
  have hnames := hg.names ht
  have hrun := runPlan_traced db hnames s
  rw [hsave] at hrun
  have hall := runPlan_along (P := fun done (rs : Record × List Entry × σ) => g.Reached done rs.1 ∧
    (∀ p x x', g.at? p = some x → rs.1.at? p = some x' →
      rs.2.1.countP (·.inserts p) + x'.isNew.toNat = x.isNew.toNat) ∧
    ∀ p a x cs, g.at? p = some x → a ∈ x.table.manyManys → g.Alone p a →
      a.ownColumn ≠ a.targetColumn → g.LinksAlong p a [] g cs →
        g.LinksAlong p a done rs.1 (cs ++ accepted rs.2.1)) ?step ?start hrun
  case start =>
    refine ⟨.start hg.links hg.made, fun p x x' hx hx' => ?_, fun p a x cs _ _ _ _ hstate => ?_⟩
    · obtain rfl := Option.some.inj (hx.symm.trans hx')
      exact Nat.zero_add _
    · rwa [show accepted ([] : List Entry) = [] from rfl, List.append_nil]
  case step =>
    rintro done b rest hplan ⟨g₁, sent₁, s₁⟩ o rs ⟨hreached, hcounts, hlinked⟩ hb
    have hmem : b ∈ g.plan := List.mem_iff_append.2 ⟨_, _, hplan⟩
    obtain ⟨o', q, y, z, t, hstep, hrun, hunder⟩ :=
      hreached.underway.run db.traced hmem (sent₁, s₁)
    rw [hrun] at hb
    obtain ⟨rfl, rfl⟩ := Prod.mk.inj hb
    obtain ⟨new, hsent, hposts⟩ := hstep.posts
    simp only [hsent]
    refine ⟨hreached.step hnames hg.formed hg.links hplan hstep hunder fun p => hreports.traced p,
      fun p x x' hx hx' => ?_, fun p a x cs hx ha halone hne hstate => ?_⟩
    · obtain ⟨x₁, hx₁, hf, -⟩ := hreached.underway p x hx
      have hold : sent₁.countP (·.inserts p) + x₁.isNew.toNat = x.isNew.toNat :=
        hcounts p x x₁ hx hx₁
      have hsound : x₁.table.Sound := by
        rw [hf.table]
        exact ht.sound _ (hg.tables p x hx)
      have hnew := hstep.counts hreports hsent hx₁ hx' hsound (hreached.made p x₁ hx₁)
      rw [List.countP_append]
      omega
    · rw [accepted_append, ← List.append_assoc]
      exact .step hnames hg.formed hg.links hreached hplan hx ha halone hne hstep hposts
        (hlinked p a x cs hx ha halone hne hstate)
  obtain ⟨done, rest, -, ⟨hreached, hcounts, hlinked⟩, hok⟩ := hall
  exact ⟨done, hok, hreached, hcounts, hlinked⟩

end

/-! ## Attempt after attempt -/

/-- A graph is saved again and again until that succeeds, and `trace` is what is sent in all. The
database is in any state each time. -/
inductive Attempts (db : Connection σ) : Record → List Entry → Record → Prop where
  | last {g g' : Record} {s s' : σ} : save db (g, s) = (.ok (), (g', s')) →
      Attempts db g (sent db g s) g'
  | again {g g₁ g' : Record} {s s' : σ} {e : Error} {trace : List Entry} :
      save db (g, s) = (.error e, (g₁, s')) → Attempts db g₁ trace g' →
        Attempts db g (sent db g s ++ trace) g'

/-- A graph is saved again and again with the database in these states, until that succeeds: what
is sent, and what has become of the graph. -/
def attempts (db : Connection σ) : List σ → Record → Option (List Entry × Record)
  | [], _ => none
  | s :: states, g =>
    match save db (g, s) with
    | (.ok (), (g', _)) => some (sent db g s, g')
    | (.error _, (g₁, _)) =>
      (attempts db states g₁).map fun (trace, g') => (sent db g s ++ trace, g')

theorem Attempts.of_attempts {db : Connection σ} {states : List σ} {g g' : Record}
    {trace : List Entry} (h : attempts db states g = some (trace, g')) :
    Attempts db g trace g' := by
  induction states generalizing g trace with
  | nil => cases h
  | cons s states ih =>
    rw [attempts] at h
    rcases hsave : save db (g, s) with ⟨e | ⟨⟩, g₁, s'⟩
    · rw [hsave] at h
      obtain ⟨⟨rest, g₂⟩, hrest, h⟩ := Option.map_eq_some_iff.1 h
      cases h
      exact .again hsave (ih hrest)
    · rw [hsave] at h
      cases h
      exact .last hsave

/-- What has come of a graph that was saved again and again. -/
structure Resumed (g : Record) (trace : List Entry) (g' : Record) : Prop where
  /-- The row of each new record was added once, and no other row. -/
  inserted : ∀ p x, g.at? p = some x → trace.countP (·.inserts p) = if x.isNew then 1 else 0
  /-- Each record is saved, under the key that it had or got. -/
  saved : ∀ p x, g.at? p = some x → ∃ y, g'.at? p = some y ∧ y.isNew = false ∧
    (x.isNew = true → y.key.isNull = false) ∧ (x.isNew = false → y.key = x.key)
  /-- A record whose links were replaced is linked with its related records, in their order. -/
  linked : ∀ p x a, g.at? p = some x → a ∈ x.table.manyManys →
    x.modified? a.identifier = some true → g.Alone p a → a.ownColumn ≠ a.targetColumn →
      ∃ y, g'.at? p = some y ∧ ∀ eq rows, eq.holds y.key y.key = true →
        a.linkedWith eq y.key (Command.rowsAfter eq a.association rows (accepted trace)) =
          (y.related a.identifier).map (·.key)

/-- Along its whole plan every record of a graph is saved. -/
theorem Reached.saved_of_plan {g g' : Record} (h : g.Reached g.plan g')
    (hformed : ∀ p x, g.at? p = some x → x.Formed) {p : Place} {x y : Record}
    (hx : g.at? p = some x) (hy : g'.at? p = some y) : y.isNew = false :=
  h.written p y (mem_plan_of_own hformed hx .write) hy

section
variable {db : Connection σ} {tables : List Table} {g g' : Record} {trace : List Entry}
  (ht : Schema.SoundTables tables) (hreports : db.Reports)

include ht hreports

/-- Over all attempts the row of a record is added if it is new, and the record is saved then. -/
theorem Attempts.counts (h : Attempts db g trace g') (hg : g.Resumable tables) {p : Place}
    {x : Record} (hx : g.at? p = some x) : trace.countP (·.inserts p) = x.isNew.toNat ∧
      ∃ y, g'.at? p = some y ∧ y.isNew = false ∧ (x.isNew = true → y.key.isNull = false) ∧
        (x.isNew = false → y.key = x.key) := by
  induction h generalizing x with
  | last hsave =>
    obtain ⟨done, hok, hreached, hcounts, -⟩ := save_attempt ht hreports hg hsave
    rw [hok rfl] at hreached
    obtain ⟨y, hy, -⟩ := hreached.underway p x hx
    have hsaved := hreached.saved_of_plan hg.formed hx hy
    have hcount := hcounts p x y hx hy
    rw [hsaved] at hcount
    exact ⟨hcount, y, hy, hsaved, fun hnew => hreached.keyed p x y hx hy hnew hsaved,
      fun hs => (hreached.settled p x y hx hy hs).2⟩
  | again hsave _ ih =>
    obtain ⟨done, -, hreached, hcounts, -⟩ := save_attempt ht hreports hg hsave
    obtain ⟨x₁, hx₁, -⟩ := hreached.underway p x hx
    obtain ⟨hrest, y, hy, hsaved, hnull, hkey⟩ := ih (hg.behind hreached) hx₁
    rw [List.countP_append, hrest]
    refine ⟨hcounts p x x₁ hx hx₁, y, hy, hsaved, fun hnew => ?_, fun hs => ?_⟩
    · cases hnew₁ : x₁.isNew with
      | true => exact hnull hnew₁
      | false =>
        rw [hkey hnew₁]
        exact hreached.keyed p x x₁ hx hx₁ hnew hnew₁
    · obtain ⟨hs₁, hkey₁⟩ := hreached.settled p x x₁ hx hx₁ hs
      exact (hkey hs₁).trans hkey₁

/-- Over all attempts links that were to be written are written. -/
theorem Attempts.links (h : Attempts db g trace g') (hg : g.Resumable tables) {p : Place}
    {a : ManyMany} {x : Record} (hx : g.at? p = some x) (ha : a ∈ x.table.manyManys)
    (halone : g.Alone p a) (hne : a.ownColumn ≠ a.targetColumn) {cs : List Command}
    (hstate : g.LinksAlong p a [] g cs) : ∃ y, g'.Relinked p a (cs ++ accepted trace) y := by
  induction h generalizing x cs with
  | @last g g' s s' hsave =>
    obtain ⟨done, hok, hreached, -, hlinked⟩ := save_attempt ht hreports hg hsave
    have hend := hlinked p a x cs hx ha halone hne hstate
    rw [hok rfl] at hreached hend
    rcases hend with ⟨⟨y, hy, hm⟩, hdone⟩ | ⟨hend, -⟩
    · -- what is still to be written was to be written in the beginning
      obtain ⟨slot, hslot, hm⟩ := Option.map_eq_some_iff.1 hm
      obtain ⟨old, hold, -, hmod⟩ := (hreached.underway.follows hx hy).slot hslot
      exact absurd (mem_plan_of_own hg.formed hx (.link ha hold (hmod hm))) hdone
    · exact hend
  | @again g g₁ g' s s' e trace hsave _ ih =>
    obtain ⟨done, -, hreached, -, hlinked⟩ := save_attempt ht hreports hg hsave
    have hend := hlinked p a x cs hx ha halone hne hstate
    obtain ⟨x₁, hx₁, hf, -⟩ := hreached.underway p x hx
    rw [accepted_append, ← List.append_assoc]
    refine ih (hg.behind hreached) hx₁ (hf.table ▸ ha) (halone.behind hreached.underway) ?_
    rcases hend with ⟨hpending, -⟩ | ⟨⟨y, hy⟩, -⟩
    · exact .inl ⟨hpending, List.not_mem_nil⟩
    · refine .inr ⟨⟨y, hy⟩, .inr fun hmem => hy.settled ?_⟩
      obtain ⟨r, w, hw, hown⟩ := mem_plan hmem
      cases hown with
      | link hmem hslot hm =>
        obtain rfl := Option.some.inj (hw.symm.trans hy.place)
        rw [modified?, hslot, Option.map_some, hm]

end

/-- **A graph that is saved again and again** until that succeeds: each new record was added once,
no other record was added, and links that were replaced are those of the graph. -/
theorem save_resumed {db : Connection σ} {d : SchemaDecl} {schema : Schema}
    (hs : Schema.ofDeclaration d = .ok schema) (hreports : db.Reports) {g g' : Record}
    {trace : List Entry} (hg : g.Resumable schema.tables) (h : Attempts db g trace g') :
    Resumed g trace g' := by
  have ht := Schema.ofDeclaration_sound hs
  refine ⟨fun p x hx => ?inserted, fun p x hx => (h.counts ht hreports hg hx).2,
    fun p x a hx ha hm halone hne => ?linked⟩
  case inserted =>
    rw [(h.counts ht hreports hg hx).1]
    cases x.isNew <;> rfl
  case linked =>
    have hstart : g.LinksAlong p a [] g [] := .inl ⟨⟨x, hx, hm⟩, List.not_mem_nil⟩
    obtain ⟨y, hy⟩ := h.links ht hreports hg hx ha halone hne hstart
    exact ⟨y, hy.place, fun eq rows => hy.links eq rows⟩

end Record

/-! ## A connection that refuses commands -/

/-- A connection that refuses the commands for which its list says so. It numbers the keys that it
gives. -/
def Connection.refusing : Connection (List Bool × Nat) where
  dialect := .sqlite
  execute _ := fun
    | (true :: refusals, n) => (.error (.query "execute" "" [] "refused"), (refusals, n))
    | (refusals, n) => (.ok 1, (refusals.tail, n))
  query _ := fun s => (.ok ⟨[], .ok ()⟩, s)
  release := pure ()
  lastInsertId := fun (refusals, n) => (.ok (some (.int (Int64.ofNat (n + 1)))), (refusals, n + 1))
  nextVersion previous := pure ((Versions.fresh .increment).after 0 previous)
  freshUuid := fun (refusals, n) => (⟨madeUpKey (n + 1)⟩, (refusals, n + 1))
  freshUlid := fun (refusals, n) => (madeUpKey (n + 1), (refusals, n + 1))

theorem Connection.refusing_reports : refusing.Reports := by
  intro table fields ⟨refusals, n⟩ hassigns haccepts
  have hrun : refusing.run (.insert table fields none) (refusals, n) =
      (.ok (), (refusals.tail, n)) := by
    rw [accepts, hassigns] at haccepts
    match refusals with
    | true :: _ => cases haccepts
    | false :: _ | [] => rfl
  refine ⟨.int (Int64.ofNat (n + 1)), (refusals.tail, n + 1), ?_, rfl⟩
  rw [insert, if_pos hassigns]
  change (refusing.run (.insert table fields none) >>= fun _ => refusing.lastInsertId) _ = _
  rw [Session.bind_run, hrun]
  rfl

namespace Library

open Record Connection

/-- A relation of the record was replaced, and nothing else in the graph writes its association. -/
def TagsAlone (g : Record) (a : ManyMany) : Prop :=
  g.modified? a.identifier = some true ∧ a.ownColumn ≠ a.targetColumn ∧
    (∀ b ∈ g.table.manyManys, b.association = a.association → b.identifier = a.identifier) ∧
    (∀ e ∈ g.slots.entries, ∀ c ∈ e.2.related.toList, ∀ x ∈ recordsWithin c.depth c,
      ∀ e ∈ x.slots.entries, e.2.modified = false) ∧
    ∀ x ∈ recordsWithin g.depth g, x.table.name ≠ a.association

instance (g : Record) (a : ManyMany) : Decidable (TagsAlone g a) := by
  unfold TagsAlone
  infer_instance

/-- The book is refused at first, and then its link: eight commands are sent in all, and the book is
linked with its tag. -/
theorem newBook_resumed : ∃ s g g' trace a, Schema.ofDeclaration declaration = .ok s ∧
    newBook s = .ok g ∧ refusing.Reports ∧ g.Resumable s.tables ∧
      Attempts refusing g trace g' ∧ trace.length = 8 ∧ Resumed g trace g' ∧
        a ∈ g.table.manyManys ∧ g.modified? a.identifier = some true ∧ g.Alone [] a ∧
          a.ownColumn ≠ a.targetColumn := by
  let states : List (List Bool × Nat) :=
    [([false, true], 0), ([false, false, false, true], 1), ([], 3)]
  have hall : bookPasses (fun _ g =>
      (recordsWithin g.depth g).all (fun x => decide (x.table.MakesKeys ∧
        x.table.lockColumn?.all (fun lock => lock.name != x.table.primaryKey.name) = true)) &&
      decide ((attempts refusing states g).map (·.1.length) = some 8) &&
      g.table.manyManys.any (fun a => decide (TagsAlone g a))) = true := by decide +kernel
  obtain ⟨s, g, hs, hg, hfits, hall⟩ := bookPasses_cases hall
  obtain ⟨hchecks, hany⟩ := Bool.and_eq_true_iff.1 hall
  obtain ⟨hkeys, hlength⟩ := Bool.and_eq_true_iff.1 hchecks
  obtain ⟨⟨trace, g'⟩, hattempts, htrace⟩ := Option.map_eq_some_iff.1 (of_decide_eq_true hlength)
  obtain ⟨a, ha, halone⟩ := List.any_eq_true.1 hany
  obtain ⟨hm, hne, hown, hbelow, htables⟩ : TagsAlone g a := of_decide_eq_true halone
  have hresumable : g.Resumable s.tables := resumable_of_fits hfits
    fun x hx => of_decide_eq_true (List.all_eq_true.1 hkeys x hx)
  have hrun := Attempts.of_attempts hattempts
  exact ⟨s, g, g', trace, a, hs, hg, refusing_reports, hresumable, hrun, htrace,
    save_resumed hs refusing_reports hresumable hrun, ha, hm, alone_root hown hbelow htables, hne⟩

end Library

namespace Accounts

open Record Connection

/-- A new profile with a key, which is of no user as it says itself, is given to a user. -/
def reassigned (users profiles : Table) : Except Error Record := do
  let profile ← Record.withFields profiles [("user_id", .int 7)]
  let profile ← profile.setOne "user" none
  (user users 1).setOne "profile" (some profile)

def reassignedAttempts : Except Error (Record × Option (List Entry × Record)) := do
  let (_, users, profiles) ← tables
  let g ← reassigned users profiles
  .ok (g, attempts refusing [([], 0), ([], 0)] g)

/-- A new profile whose key is unset on the way is added without one. That is no success, and the
profile is added again. -/
theorem exists_inserted_twice : ∃ s users profiles g g' trace x,
    Accounts.tables = .ok (s, users, profiles) ∧ reassigned users profiles = .ok g ∧
      refusing.Reports ∧ g.KeysMade ∧ g.at? [("profile", 0)] = some x ∧ x.isNew = true ∧
        Attempts refusing g trace g' ∧ trace.countP (·.inserts [("profile", 0)]) = 2 := by
  have hall : (reassignedAttempts.map fun x =>
      (recordsWithin x.1.depth x.1).all (fun y => decide (y.isNew = true → y.table.MakesKeys ∨
        y.key.isNull = false)) &&
      decide ((x.1.at? [("profile", 0)]).map (·.isNew) = some true) &&
      decide (x.2.map (·.1.countP (·.inserts [("profile", 0)])) = some 2)) = .ok true := by
    decide +kernel
  cases h : reassignedAttempts with
  | error e =>
    rw [h] at hall
    cases hall
  | ok x =>
    obtain ⟨g, outcome⟩ := x
    rw [h] at hall
    obtain ⟨hchecks, hcount⟩ := Bool.and_eq_true_iff.1 (Except.ok.inj hall)
    obtain ⟨hmade, hnew⟩ := Bool.and_eq_true_iff.1 hchecks
    obtain ⟨x, hx, hx'⟩ := Option.map_eq_some_iff.1 (of_decide_eq_true hnew)
    obtain ⟨⟨trace, g'⟩, hattempts, htrace⟩ := Option.map_eq_some_iff.1 (of_decide_eq_true hcount)
    obtain ⟨⟨s, users, profiles⟩, ht, h⟩ := bind_eq_ok_iff.1 h
    obtain ⟨g'', hg, h⟩ := bind_eq_ok_iff.1 h
    cases h
    exact ⟨s, users, profiles, g, g', trace, x, ht, hg, refusing_reports,
      fun p y hy => of_decide_eq_true (List.all_eq_true.1 hmade y
        (mem_recordsWithin hy (length_lt_depth_of_at? hy))), hx, hx',
      .of_attempts hattempts, htrace⟩

end Accounts

end RecordGraph
