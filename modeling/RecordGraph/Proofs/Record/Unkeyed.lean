import RecordGraph.Proofs.Locking.Added
import RecordGraph.Proofs.Record.Edited
import RecordGraph.Proofs.Record.Resumed

/-!
# New records without a key

Where neither the database nor the program makes up the keys of a table, a new record has to come
with one. Whether it does is asked only after its row was sent: a database that takes the row has it
then, but the record is not saved, and saving it again adds a second row.

**Results.**
* `Record.insert_unkeyed`: what inserting a record without a key does.
* `Record.insert_keyed`: every other record is saved if its row is taken.
* `Locking.Unsaved.sent_eq`: a new record by itself sends its insertion.
* `Record.Corrected.rows`: the rows of a record that is corrected and saved again.
* `Record.save_new_rows`: what is sent for a new record, and how that ends.
-/
namespace RecordGraph

namespace Record

variable {σ : Type}

/-- No value of the key can be determined: the record has none, it is not made up, and it is not the
version either. -/
def Unkeyed (r : Record) : Prop :=
  r.key.isNull = true ∧ ¬r.table.MakesKeys ∧
    ∀ lock ∈ r.table.lockColumn?, lock.name ≠ r.table.primaryKey.name

instance (r : Record) : Decidable r.Unkeyed := by
  unfold Unkeyed
  infer_instance

/-- A save that adds a row and leaves the record without its key. -/
def strands (attempt : Record × List Entry) : Bool :=
  decide attempt.1.Unkeyed && attempt.2.any (·.inserts [])

/-! ## One insertion -/

theorem prepare_unkeyed (db : Connection σ) {r : Record} (h : r.Unkeyed) (s : σ) :
    (prepare db r s).1.key.isNull = true :=
  prepare_isNull db h.1 (fun huuid => h.2.1 (.inr (.inl huuid)))
    (fun hulid => h.2.1 (.inr (.inr hulid))) h.2.2 s

theorem assignsKey_unkeyed {r : Record} (h : r.Unkeyed) (fields : List Field) :
    Connection.assignsKey r.table fields = false := by
  rw [Connection.assignsKey, Bool.and_eq_false_iff]
  exact .inl (beq_eq_false_iff_ne.2 fun hauto => h.2.1 (.inl hauto))

/-- **A record without a key** is sent all the same. If its row is taken, the save fails with it. -/
theorem insert_unkeyed (db : Connection σ) {r : Record} (h : r.Unkeyed) (s : σ) :
    insert db (r, s) =
      let y := prepare db r s
      match db.run (.insert r.table y.1.insertFields none) y.2 with
      | (.error e, s') => (.error e, (y.1, s'))
      | (.ok (), s') => (.error (.record (.noKeyAssigned r.table.name)), (y.1, s')) := by
  have htaken : (prepare db r s).1.taken none = none := by
    rw [taken, if_pos (prepare_unkeyed db h s)]
    rfl
  rw [insert_run, Connection.insert, if_neg (by simp [assignsKey_unkeyed h]),
    Session.bind_run]
  dsimp only
  rcases db.run (.insert r.table (prepare db r s).1.insertFields none) (prepare db r s).2 with
    ⟨e | ⟨⟩, s'⟩
  · rfl
  · simp only [Session.pure_run, htaken]

/-- Every other record is saved if its row is taken. -/
theorem insert_keyed {db : Connection σ} (hreports : db.Reports) {r : Record}
    (hs : r.table.Sound) (h : ¬r.Unkeyed) {s : σ}
    (haccepts : db.accepts r.table (prepare db r s).1.insertFields (prepare db r s).2 = true) :
    (insert db (r, s)).1 = .ok () := by
  by_cases hmade : r.table.MakesKeys ∨ r.key.isNull = false
  · exact insert_accepted hreports hs hmade haccepts
  · -- the version is the key
    obtain ⟨hmakes, hnull⟩ := not_or.1 hmade
    obtain ⟨lock, hl, hname⟩ : ∃ lock, r.table.lockColumn? = some lock ∧
        lock.name = r.table.primaryKey.name := by
      by_contra hnone
      exact h ⟨by simpa using hnull, hmakes, fun lock hl hname => hnone ⟨lock, hl, hname⟩⟩
    obtain ⟨key, s', hinsert, -⟩ := hreports.insert_of_accepts haccepts
    have hkey : (prepare db r s).1.key.isNull = false := by
      rw [prepare, withVersion, withKey_table, hl]
      dsimp only
      rw [key_put, withKey_table, if_pos hname]
      rfl
    have htaken : (prepare db r s).1.taken key = some (prepare db r s).1 := by
      rw [taken, if_neg (by simp [hkey])]
    rw [insert_run, hinsert]
    simp only [htaken]

/-- How inserting a record ends: it is saved if its row is taken, but not without a key. -/
theorem insert_ends {db : Connection σ} (hreports : db.Reports) {r : Record} (hs : r.table.Sound)
    (s : σ) :
    let accepted := db.accepts r.table (prepare db r s).1.insertFields (prepare db r s).2
    if r.Unkeyed then
      (insert db (r, s)).1 ≠ .ok () ∧
        (accepted = true → (insert db (r, s)).1 = .error (.record (.noKeyAssigned r.table.name)))
    else ((insert db (r, s)).1 = .ok () ↔ accepted = true) := by
  intro accepted
  split
  · rename_i h
    have haccepts : accepted = (db.run (.insert r.table (prepare db r s).1.insertFields none)
        (prepare db r s).2).1.isOk := by
      rw [Connection.run_isOk]
      simp only [accepted, Connection.accepts, assignsKey_unkeyed h]
    rw [haccepts, insert_unkeyed db h]
    dsimp only
    rcases db.run (.insert r.table (prepare db r s).1.insertFields none) (prepare db r s).2 with
      ⟨e | ⟨⟩, s'⟩
    · exact ⟨fun h => (by cases h), fun h => (by cases h)⟩
    · exact ⟨fun h => (by cases h), fun _ => rfl⟩
  · rename_i h
    exact ⟨accepts_of_ok, insert_keyed hreports hs h⟩

end Record

/-! ## A new record by itself -/

namespace Locking.Unsaved

open Record

variable {σ : Type} {table : Table} {r : Record} (hr : Unsaved table r)
include hr

theorem plan_eq : r.plan = [.write []] := by
  have hnone {α : Type} (as : List α) : as.flatMap (fun _ => ([] : List Action)) = [] :=
    List.flatMap_eq_nil_iff.2 fun _ _ => rfl
  rw [plan, depth_eq_one hr.plain, planWithin]
  simp only [find?_slots_eq_none hr.plain, planReference, planReverse, planManyMany, hnone,
    List.nil_append]

/-- A new record by itself sends its insertion. -/
theorem sent_eq (db : Connection σ) (s : σ) :
    sent db r s = (insert (db.traced []) (r, ([], s))).2.2.1 := by
  have hrun : (Action.write []).run db.traced (r, ([], s)) = _ := Action.run_eq (y := r) rfl
  rw [sent, hr.plan_eq, runPlan, List.forM, Session.bind_run, hrun, Action.act, hr.write_eq]
  dsimp only [Action.place]
  rcases insert (db.traced []) (r, ([], s)) with ⟨e | ⟨⟩, t⟩ <;> rfl

theorem set {key : String} {v : Value} {r' : Record} (h : r.set key v = .ok r') :
    Unsaved table r' := by
  obtain ⟨c, -, -, -, rfl⟩ := set_cases h
  exact ⟨(assign_table ..).trans hr.table_eq, (assign_isNew ..).trans hr.isNew,
    (assign_slots ..).trans hr.plain⟩

theorem edit (e : Edit) : Unsaved table (r.edit e) := by
  rw [Record.edit]
  split
  · exact hr.set ‹_›
  · exact hr

omit hr in
theorem of_withFields {fields : List (String × Value)} (h : withFields table fields = .ok r) :
    Unsaved table r :=
  foldlM_keeps (P := Unsaved table) (fun _ _ _ _ hr h => hr.set h) ⟨rfl, rfl, rfl⟩ h

omit hr in
theorem edited (hr : Unsaved table r) (es : List Edit) : Unsaved table (r.edited es) := by
  induction es generalizing r with
  | nil => exact hr
  | cons e es ih => exact ih (hr.edit e)

/-- A record that is not saved can be saved again. -/
theorem of_error {db : Connection σ} {s s' : σ} {e : Error} {r' : Record}
    (h : save db (r, s) = (.error e, (r', s'))) : Unsaved table r' := by
  have hprepared := hr.prepare db s
  rw [hr.save_eq, insert_run] at h
  rcases hinsert : db.insert r.table (Record.prepare db r s).1.insertFields
    (Record.prepare db r s).2 with ⟨e' | assigned, s₁⟩
  · rw [hinsert] at h
    cases h
    exact hprepared
  · rw [hinsert] at h
    dsimp only at h
    cases htaken : (Record.prepare db r s).1.taken assigned with
    | none =>
      rw [htaken] at h
      cases h
      exact hprepared
    | some z =>
      rw [htaken] at h
      cases h

/-- **Saving a new record** sends one insertion. -/
theorem save_ends {db : Connection σ} (hreports : db.Reports) (hs : table.Sound) (s : σ) :
    ∃ fields returning accepted,
      sent db r s = [⟨[], .insert table fields returning, accepted⟩] ∧
      if r.Unkeyed then
        (save db (r, s)).1 ≠ .ok () ∧
          (accepted = true → (save db (r, s)).1 = .error (.record (.noKeyAssigned table.name)))
      else ((save db (r, s)).1 = .ok () ↔ accepted = true) := by
  obtain ⟨returning, hsent⟩ := insert_sent db [] r [] s
  have htraced := insert_over (db.traced_over []) (r, ([], s))
  have hends := insert_ends (hreports.traced []) (hr.table_eq ▸ hs) ([], s)
  rw [hr.table_eq] at hsent hends
  refine ⟨_, returning, _, (hr.sent_eq db s).trans hsent, ?_⟩
  have hinsert : insert db (r, s) = _ := htraced
  rw [hr.save_eq, hinsert]
  exact hends

/-- A save that adds a row saves the record, or leaves it without a key. -/
theorem save_rows {db : Connection σ} (hreports : db.Reports) (hs : table.Sound) (s : σ) :
    (sent db r s).countP (·.inserts []) = (save db (r, s)).1.isOk.toNat +
      (strands (r, sent db r s)).toNat := by
  obtain ⟨fields, returning, accepted, hsent, hends⟩ := hr.save_ends hreports hs s
  rw [strands, hsent]
  split at hends
  · rename_i h
    obtain ⟨hne, -⟩ := hends
    have hnot : (save db (r, s)).1.isOk = false := by
      cases ho : (save db (r, s)).1 with
      | error e => rfl
      | ok => exact absurd ho hne
    cases accepted <;> simp [h, hnot, Entry.inserts]
  · rename_i h
    have hiff : (save db (r, s)).1.isOk = accepted := by
      rw [Bool.eq_iff_iff, ← hends]
      cases (save db (r, s)).1 <;> simp [Except.isOk, Except.toBool]
    cases accepted <;> simp [h, hiff, Entry.inserts]

end Locking.Unsaved

namespace Record

variable {σ : Type}

/-! ## Corrections -/

/-- A new record is saved, and corrected and saved again until that succeeds: the record each time,
and what was sent for it. The database is in any state each time. -/
inductive Corrected (db : Connection σ) : Record → List (Record × List Entry) → Prop where
  | last {r r' : Record} {s s' : σ} : save db (r, s) = (.ok (), (r', s')) →
      Corrected db r [(r, sent db r s)]
  | again {r r' : Record} {s s' : σ} {e : Error} {es : List Edit}
      {attempts : List (Record × List Entry)} : save db (r, s) = (.error e, (r', s')) →
      Corrected db (r'.edited es) attempts → Corrected db r ((r, sent db r s) :: attempts)

/-- A new record is saved again and again, with the database in these states and with these
corrections where it is not saved. -/
def correct (db : Connection σ) :
    List (σ × List Edit) → Record → Option (List (Record × List Entry))
  | [], _ => none
  | (s, es) :: rest, r =>
    match save db (r, s) with
    | (.ok (), _) => some [(r, sent db r s)]
    | (.error _, (r', _)) => (correct db rest (r'.edited es)).map ((r, sent db r s) :: ·)

theorem Corrected.of_correct {db : Connection σ} {steps : List (σ × List Edit)} {r : Record}
    {attempts : List (Record × List Entry)} (h : correct db steps r = some attempts) :
    Corrected db r attempts := by
  induction steps generalizing r attempts with
  | nil => cases h
  | cons step steps ih =>
    obtain ⟨s, es⟩ := step
    rw [correct] at h
    rcases hsave : save db (r, s) with ⟨e | ⟨⟩, r', s'⟩
    · rw [hsave] at h
      obtain ⟨rest, hrest, rfl⟩ := Option.map_eq_some_iff.1 h
      exact .again hsave (ih hrest)
    · rw [hsave] at h
      cases h
      exact .last hsave

/-- **Rows of a record that is corrected.** The row is added once, and once more for each attempt
that adds it without a key. -/
theorem Corrected.rows {db : Connection σ} {table : Table} {r : Record}
    {attempts : List (Record × List Entry)} (h : Corrected db r attempts)
    (hr : Locking.Unsaved table r) (hreports : db.Reports) (hs : table.Sound) :
    (attempts.flatMap (·.2)).countP (·.inserts []) = 1 + attempts.countP strands := by
  induction h with
  | @last r _ s _ hsave =>
    have hrows := hr.save_rows hreports hs s
    rw [hsave] at hrows
    rw [List.flatMap_singleton, List.countP_singleton, hrows]
    cases strands (r, sent db r s) <;> rfl
  | @again r r' s _ e es attempts hsave _ ih =>
    have hrows := hr.save_rows hreports hs s
    rw [hsave] at hrows
    rw [List.flatMap_cons, List.countP_append, hrows, ih ((hr.of_error hsave).edited es),
      List.countP_cons]
    cases strands (r, sent db r s)
    · exact Nat.zero_add _
    · exact congrArg (1 + ·) (Nat.add_comm 1 _)

/-- **A new record by itself.** Saving it sends one insertion. If a value of the key can be
determined, the record is saved exactly if the row is taken. If not, it is never saved, and where
the row is taken, the error that says so comes behind it. A record that is not saved can be
corrected and saved again; its row is there once in the end, and once more for each attempt that
added it without a key. -/
theorem save_new_rows {d : SchemaDecl} {schema : Schema} (hd : Schema.ofDeclaration d = .ok schema)
    {db : Connection σ} (hreports : db.Reports) {table : Table} (ht : table ∈ schema.tables)
    {r : Record} (hr : Locking.Unsaved table r) :
    (∀ s, ∃ fields returning accepted,
      sent db r s = [⟨[], .insert table fields returning, accepted⟩] ∧
      if r.Unkeyed then
        (save db (r, s)).1 ≠ .ok () ∧
          (accepted = true → (save db (r, s)).1 = .error (.record (.noKeyAssigned table.name)))
      else ((save db (r, s)).1 = .ok () ↔ accepted = true)) ∧
    (∀ s e r' s', save db (r, s) = (.error e, (r', s')) → Locking.Unsaved table r') ∧
    ∀ attempts, Corrected db r attempts →
      (attempts.flatMap (·.2)).countP (·.inserts []) = 1 + attempts.countP strands := by
  have hs := (Schema.ofDeclaration_sound hd).sound table ht
  exact ⟨fun s => hr.save_ends hreports hs s, fun _ _ _ _ hsave => hr.of_error hsave,
    fun _ h => h.rows hr hreports hs⟩

end Record

/-! ## A profile without a user -/

namespace Accounts

open Record Connection

/-- A new profile that says nothing of its user, whose key is its own. -/
def anonymous : Except Error (Schema × Table × Record) := do
  let (s, _, profiles) ← tables
  let r ← Record.withFields profiles [("bio", .text "Sand")]
  .ok (s, profiles, r)

/-- The user is told after the first attempt. -/
def named (first : List Bool) : List ((List Bool × Nat) × List Edit) :=
  [((first, 0), [⟨"user_id", .int 7⟩]), (([], 0), [])]

theorem anonymous_cases {s : Schema} {profiles : Table} {r : Record}
    (h : anonymous = .ok (s, profiles, r)) : Schema.ofDeclaration declaration = .ok s ∧
      profiles ∈ s.tables ∧ Locking.Unsaved profiles r := by
  obtain ⟨⟨s', users, profiles'⟩, htables, h⟩ := bind_eq_ok_iff.1 h
  obtain ⟨r', hr, h⟩ := bind_eq_ok_iff.1 h
  cases h
  obtain ⟨s'', hs, htables⟩ := bind_eq_ok_iff.1 htables
  obtain ⟨users', -, htables⟩ := bind_eq_ok_iff.1 htables
  obtain ⟨profiles'', hprofiles, htables⟩ := bind_eq_ok_iff.1 htables
  cases htables
  exact ⟨hs, List.mem_of_find?_eq_some (Chain.requireTable_eq_ok_iff.1 hprofiles),
    .of_withFields hr⟩

/-- A database that refuses the profile without a user adds it once, when the user is told. -/
theorem anonymous_refused : ∃ s profiles r attempts, anonymous = .ok (s, profiles, r) ∧
    Schema.ofDeclaration declaration = .ok s ∧ profiles ∈ s.tables ∧ refusing.Reports ∧
    Locking.Unsaved profiles r ∧ r.Unkeyed ∧ correct refusing (named [true]) r = some attempts ∧
    attempts.length = 2 ∧ (attempts.flatMap (·.2)).countP (·.inserts []) = 1 := by
  obtain ⟨⟨s, profiles, r⟩, h, hkey, hcorrect⟩ : ∃ x, anonymous = .ok x ∧ x.2.2.Unkeyed ∧
      (correct refusing (named [true]) x.2.2).map (fun attempts =>
        (attempts.length, attempts.countP strands)) = some (2, 0) :=
    exists_ok_of_decide (by decide +kernel)
  obtain ⟨attempts, hcorrect, hcounts⟩ := Option.map_eq_some_iff.1 hcorrect
  obtain ⟨hlength, hstrands⟩ := Prod.mk.inj hcounts
  obtain ⟨hd, ht, hr⟩ := anonymous_cases h
  have hrows := (save_new_rows hd refusing_reports ht hr).2.2 attempts (.of_correct hcorrect)
  rw [hstrands] at hrows
  exact ⟨s, profiles, r, attempts, h, hd, ht, refusing_reports, hr, hkey, hcorrect, hlength, hrows⟩

/-- The profile is added without a user by a database that takes it, and only then the save fails.
When the user is told, it is added again. -/
theorem anonymous_added_twice : ∃ s profiles r attempts, anonymous = .ok (s, profiles, r) ∧
    Schema.ofDeclaration declaration = .ok s ∧ profiles ∈ s.tables ∧ refusing.Reports ∧
    Locking.Unsaved profiles r ∧
    (save refusing (r, ([], 0))).1 = .error (.record (.noKeyAssigned "profiles")) ∧
    (sent refusing r ([], 0)).countP (·.inserts []) = 1 ∧
    correct refusing (named []) r = some attempts ∧
    (attempts.flatMap (·.2)).countP (·.inserts []) = 2 := by
  obtain ⟨⟨s, profiles, r⟩, h, herror, hsent, hcorrect⟩ : ∃ x, anonymous = .ok x ∧
      (save refusing (x.2.2, ([], 0))).1 = .error (.record (.noKeyAssigned "profiles")) ∧
      (sent refusing x.2.2 ([], 0)).countP (·.inserts []) = 1 ∧
      (correct refusing (named []) x.2.2).map (fun attempts =>
        (attempts.flatMap (·.2)).countP (·.inserts [])) = some 2 :=
    exists_ok_of_decide (by decide +kernel)
  obtain ⟨attempts, hcorrect, htwo⟩ := Option.map_eq_some_iff.1 hcorrect
  obtain ⟨hd, ht, hr⟩ := anonymous_cases h
  exact ⟨s, profiles, r, attempts, h, hd, ht, refusing_reports, hr, herror, hsent, hcorrect, htwo⟩

end Accounts

end RecordGraph
