import RecordGraph.Proofs.Connection.Over
import RecordGraph.Proofs.Record.PlanRun

/-!
# What writing a record does

A new record gets its key and its version before anything is sent, and what is sent then is one
statement. Where that succeeds, the record takes the key that the database assigned, if it had none.
A saved record is updated, which changes nothing of it but the version.

**Results.**
* `Record.insert_run`: inserting is preparing, sending one statement and taking the key.
* `Record.write_written`: what a write does, whether it succeeds or fails.
* `Record.runPlan_over`: a connection that keeps more in its state makes no difference.
-/
namespace RecordGraph

/-- Of two values that are the same, both are null or none. -/
theorem Value.isNull_congr {v w : Value} (h : v.same w = true) : v.isNull = w.isNull := by
  cases v <;> cases w <;> first | rfl | simp [Value.same] at h

namespace Record

variable {σ : Type} (db : Connection σ)

/-! ## Before and after the statement -/

/-- The record with a key, where one can be made up. -/
def withKey (r : Record) (s : σ) : Record × σ :=
  if r.key.isNull then
    match r.table.primaryKey.receiver with
    | .uuid => (r.assign r.table.primaryKey.name (.uuid (db.freshUuid s).1), (db.freshUuid s).2)
    | .ulid =>
      (r.assign r.table.primaryKey.name (.text (Ulid.encode (db.freshUlid s).1)),
        (db.freshUlid s).2)
    | _ => (r, s)
  else (r, s)

/-- The record with a version, where the table counts them. -/
def withVersion (r : Record) (s : σ) : Record × σ :=
  match r.table.lockColumn? with
  | some lock => (r.put lock.name (.int (db.nextVersion none s).1), (db.nextVersion none s).2)
  | none => (r, s)

/-- The record as it is sent. -/
def prepare (r : Record) (s : σ) : Record × σ :=
  withVersion db (withKey db r s).1 (withKey db r s).2

/-- The record with the key that the database assigned, if it needs one. -/
def taken (r : Record) (assigned : Option Value) : Option Record :=
  if r.key.isNull then assigned.map (r.put r.table.primaryKey.name ·) else some r

theorem makeKey_run (r : Record) (s : σ) : makeKey db (r, s) = (.ok (), withKey db r s) := by
  rw [makeKey, Saving.record_bind, withKey]
  split
  · cases r.table.primaryKey.receiver <;> rfl
  · rfl

theorem takeKey_run (r : Record) (assigned : Option Value) (s : σ) : takeKey assigned (r, s) =
    match r.taken assigned with
    | some r' => (.ok (), (r', s))
    | none => (.error (.record (.noKeyAssigned r.table.name)), (r, s)) := by
  rw [takeKey, Saving.record_bind, taken]
  split
  · cases assigned <;> rfl
  · rfl

@[simp] theorem withKey_table (r : Record) (s : σ) : (withKey db r s).1.table = r.table := by
  unfold withKey
  split
  · split
    · exact assign_table ..
    · exact assign_table ..
    · rfl
  · rfl

@[simp] theorem withVersion_table (r : Record) (s : σ) :
    (withVersion db r s).1.table = r.table := by
  unfold withVersion
  split <;> rfl

@[simp] theorem prepare_table (r : Record) (s : σ) : (prepare db r s).1.table = r.table := by
  rw [prepare, withVersion_table, withKey_table]

/-- **Inserting.** The record is prepared, one statement is sent, and the key is taken over. -/
theorem insert_run (r : Record) (s : σ) : insert db (r, s) =
    match db.insert r.table (prepare db r s).1.insertFields (prepare db r s).2 with
    | (.error e, s') => (.error e, ((prepare db r s).1, s'))
    | (.ok assigned, s') =>
      match (prepare db r s).1.taken assigned with
      | some z => (.ok (), (z.written, s'))
      | none => (.error (.record (.noKeyAssigned r.table.name)), ((prepare db r s).1, s')) := by
  have hsend : ∀ (y : Record) (s : σ), (do
      let r ← Saving.record
      let assigned ← (db.insert y.table r.insertFields).onSecond
      takeKey assigned
      Saving.change written : Saving σ Unit) (y, s) =
        match db.insert y.table y.insertFields s with
        | (.error e, s') => (.error e, (y, s'))
        | (.ok assigned, s') =>
          match y.taken assigned with
          | some z => (.ok (), (z.written, s'))
          | none => (.error (.record (.noKeyAssigned y.table.name)), (y, s')) := by
    intro y s
    rw [Saving.record_bind, Session.bind_run, Session.onSecond_run]
    rcases db.insert y.table y.insertFields s with ⟨e | assigned, s'⟩
    · rfl
    · simp only [Session.bind_run, takeKey_run]
      cases y.taken assigned <;> rfl
  rw [insert, Session.bind_run, makeKey_run]
  have htable := withKey_table db r s
  rcases hkey : withKey db r s with ⟨y, s₁⟩
  rw [hkey] at htable
  have hprepare : prepare db r s = withVersion db y s₁ := by rw [prepare, hkey]
  simp only
  rw [Saving.record_bind, hprepare, withVersion, ← htable]
  cases y.table.lockColumn? with
  | none => exact hsend y s₁
  | some lock => exact hsend (y.put lock.name (.int (db.nextVersion none s₁).1)) _

/-! ## What a record to be inserted keeps -/

/-- A column that holds neither the key nor the version. -/
structure Plain (r : Record) (column : String) : Prop where
  key : column ≠ r.table.primaryKey.name
  lock : ∀ lock, r.table.lockColumn? = some lock → column ≠ lock.name

theorem Plain.congr {r r' : Record} {column : String} (h : r.Plain column)
    (ht : r'.table = r.table) : r'.Plain column := ⟨ht ▸ h.key, ht ▸ h.lock⟩

theorem key_put (r : Record) (name : String) (v : Value) :
    (r.put name v).key = if name = r.table.primaryKey.name then v else r.key := by
  split
  · rename_i h
    rw [key, put, h, NameMap.find?_insert_self]
    rfl
  · rename_i h
    exact key_congr rfl (NameMap.find?_insert_of_ne _ v fun hne => h hne.symm)

/-- A column that is assigned holds the value, if that is the same as itself. -/
theorem holds_assign (r : Record) (name : String) {v : Value} (hv : v.same v = true) :
    (r.assign name v).holds name v = true := by
  unfold assign
  split
  · assumption
  · rw [holds, NameMap.find?_insert_self]
    exact hv

theorem contains_assign (r : Record) (name : String) (v : Value) :
    (r.assign name v).values.contains name = true := by
  unfold assign
  split
  · rename_i h
    rw [holds] at h
    rw [NameMap.contains]
    cases hv : r.values.find? name with
    | none =>
      rw [hv] at h
      cases h
    | some old => rfl
  · rw [NameMap.contains, NameMap.find?_insert_self]
    rfl

/-- Where there was no key, there is one that was made up, or none as before. -/
theorem withKey_cases (r : Record) (s : σ) : (withKey db r s).1 = r ∧ (r.key.isNull = true →
      r.table.primaryKey.receiver ≠ .uuid ∧ r.table.primaryKey.receiver ≠ .ulid) ∨
    r.key.isNull = true ∧ ∃ v : Value, v.isNull = false ∧ v.same v = true ∧
      (withKey db r s).1 = r.assign r.table.primaryKey.name v := by
  unfold withKey
  split
  · rename_i hnull
    split
    · exact .inr ⟨hnull, _, rfl, beq_self_eq_true _, rfl⟩
    · exact .inr ⟨hnull, _, rfl, beq_self_eq_true _, rfl⟩
    · rename_i huuid hulid
      exact .inl ⟨rfl, fun _ => ⟨huuid, hulid⟩⟩
  · rename_i hnull
    exact .inl ⟨rfl, fun h => absurd h hnull⟩

theorem withVersion_cases (r : Record) (s : σ) : (withVersion db r s).1 = r ∨
    ∃ lock v, r.table.lockColumn? = some lock ∧
      (withVersion db r s).1 = r.put lock.name (.int v) := by
  unfold withVersion
  split
  · rename_i lock hl
    exact .inr ⟨lock, _, hl, rfl⟩
  · exact .inl rfl

theorem find?_prepare {r : Record} {column : String} (h : r.Plain column) (s : σ) :
    (prepare db r s).1.values.find? column = r.values.find? column := by
  have hkey : ∀ s, (withKey db r s).1.values.find? column = r.values.find? column := by
    intro s
    rcases withKey_cases db r s with ⟨hr, -⟩ | ⟨-, v, -, -, hr⟩
    · rw [hr]
    · rw [hr]
      exact find?_assign_of_ne v h.key
  rw [prepare]
  rcases withVersion_cases db (withKey db r s).1 (withKey db r s).2 with hr | ⟨lock, v, hl, hr⟩
  · rw [hr, hkey]
  · rw [withKey_table] at hl
    rw [hr, put, NameMap.find?_insert_of_ne _ _ (h.lock lock hl), hkey]

@[simp] theorem prepare_isNew (r : Record) (s : σ) : (prepare db r s).1.isNew = r.isNew := by
  have hkey : (withKey db r s).1.isNew = r.isNew := by
    rcases withKey_cases db r s with ⟨hr, -⟩ | ⟨-, v, -, -, hr⟩ <;> rw [hr]
    exact assign_isNew ..
  rw [prepare]
  rcases withVersion_cases db (withKey db r s).1 (withKey db r s).2 with hr | ⟨lock, v, -, hr⟩
  · rw [hr, hkey]
  · rw [hr]
    exact hkey

/-- A record whose key is not made up, and not its version either, is sent without one. -/
theorem prepare_isNull {r : Record} (hkey : r.key.isNull = true)
    (huuid : r.table.primaryKey.receiver ≠ .uuid) (hulid : r.table.primaryKey.receiver ≠ .ulid)
    (hlock : ∀ lock, r.table.lockColumn? = some lock → lock.name ≠ r.table.primaryKey.name)
    (s : σ) : (prepare db r s).1.key.isNull = true := by
  have hmade : withKey db r s = (r, s) := by
    unfold withKey
    rw [if_pos hkey]
    split
    · exact absurd ‹_› huuid
    · exact absurd ‹_› hulid
    · rfl
  rw [prepare, hmade]
  rcases withVersion_cases db r s with hv | ⟨lock, v, hl, hv⟩
  · rw [hv, hkey]
  · rw [hv, key_put, if_neg (hlock lock hl), hkey]

/-- The key that a record is sent with: its own, one that was made up, or a version. -/
theorem prepare_key (r : Record) (s : σ) : (prepare db r s).1.key = r.key ∧ (r.key.isNull = true →
      r.table.primaryKey.receiver ≠ .uuid ∧ r.table.primaryKey.receiver ≠ .ulid) ∨
    (prepare db r s).1.key.isNull = false ∧
      (prepare db r s).1.key.same (prepare db r s).1.key = true ∧
        (r.key.isNull = true ∨ ∃ lock, r.table.lockColumn? = some lock ∧
          lock.name = r.table.primaryKey.name) := by
  have hassigned : ∀ v : Value, v.same v = true → v.isNull = false → r.key.isNull = true →
      (r.assign r.table.primaryKey.name v).key.isNull = false ∧
        (r.assign r.table.primaryKey.name v).key.same
          (r.assign r.table.primaryKey.name v).key = true := by
    intro v hv hnull hkey
    have hkey' : (r.assign r.table.primaryKey.name v).key = v := by
      unfold assign
      split
      · -- a null is not the same as the key that was made up
        rename_i hholds
        exfalso
        rw [holds] at hholds
        rw [key] at hkey
        cases hfind : r.values.find? r.table.primaryKey.name with
        | none =>
          rw [hfind] at hholds
          cases hholds
        | some old =>
          simp only [hfind, Option.getD_some] at hholds hkey
          rw [Value.isNull_congr hholds, hnull] at hkey
          cases hkey
      · rw [key, NameMap.find?_insert_self]
        rfl
    rw [hkey']
    exact ⟨hnull, hv⟩
  rw [prepare]
  rcases withVersion_cases db (withKey db r s).1 (withKey db r s).2 with hr | ⟨lock, n, hl, hr⟩
  · rw [hr]
    rcases withKey_cases db r s with ⟨hr, hmade⟩ | ⟨hkey, v, hnull, hsame, hr⟩
    · exact .inl ⟨by rw [hr], hmade⟩
    · rw [hr]
      obtain ⟨hnull', hsame'⟩ := hassigned v hsame hnull hkey
      exact .inr ⟨hnull', hsame', .inl hkey⟩
  · rw [hr, key_put, withKey_table]
    rw [withKey_table] at hl
    split
    · rename_i hlock
      exact .inr ⟨rfl, beq_self_eq_true _, .inr ⟨lock, hl, hlock⟩⟩
    · rcases withKey_cases db r s with ⟨hr, hmade⟩ | ⟨hkey, v, hnull, hsame, hr⟩
      · exact .inl ⟨by rw [hr], hmade⟩
      · rw [hr]
        obtain ⟨hnull', hsame'⟩ := hassigned v hsame hnull hkey
        exact .inr ⟨hnull', hsame', .inl hkey⟩

/-! ## After a write -/

/-- The database reports no key that is not the same as itself. -/
def KeysProper (table : Table) : Prop :=
  ∀ fields s k s', db.insert table fields s = (.ok (some k), s') → k.same k = true

/-- What a write has done to a record. -/
structure Written (r : Record) (o : Except Error Unit) (z : Record) : Prop where
  saved : o = .ok () → z.isNew = false ∧ z.dirty = .empty
  unsaved : ∀ e, o = .error e → z.isNew = r.isNew
  find? : ∀ column, r.Plain column → z.values.find? column = r.values.find? column
  /-- A key stays, unless it counts versions. -/
  key : r.isNew = false ∨ r.key.isNull = false →
    (∀ lock, r.table.lockColumn? = some lock → lock.name ≠ r.table.primaryKey.name) →
      z.key = r.key
  proper : KeysProper db r.table → r.key.same r.key = true → z.key.same z.key = true

theorem Written.same {r z : Record} {o : Except Error Unit}
    (hsaved : o = .ok () → z.isNew = false ∧ z.dirty = .empty) (hnew : z.isNew = r.isNew)
    (hv : z.values = r.values) (ht : z.table = r.table) : Written db r o z where
  saved := hsaved
  unsaved _ _ := hnew
  find? _ _ := by rw [hv]
  key _ _ := key_congr ht (by rw [hv])
  proper _ h := by rwa [key_congr ht (by rw [hv])]

theorem prepare_written {r : Record} (hnew : r.isNew = true) (s : σ) (e : Error) :
    Written db r (.error e) (prepare db r s).1 where
  saved h := by cases h
  unsaved _ _ := prepare_isNew ..
  find? _ h := find?_prepare db h s
  key hkey hlock := by
    have hkey := hkey.resolve_left (by simp [hnew])
    rcases prepare_key db r s with ⟨h, -⟩ | ⟨-, -, h | ⟨lock, hl, hname⟩⟩
    · exact h
    · rw [hkey] at h
      cases h
    · exact absurd hname (hlock lock hl)
  proper _ hsame := by
    rcases prepare_key db r s with ⟨h, -⟩ | ⟨-, h, -⟩
    · rwa [h]
    · exact h

theorem insert_written {r : Record} (hnew : r.isNew = true) (s : σ) :
    Written db r (insert db (r, s)).1 (insert db (r, s)).2.1 := by
  have hprepare := prepare_written db hnew s
  rw [insert_run]
  rcases hinsert : db.insert r.table (prepare db r s).1.insertFields (prepare db r s).2 with
    ⟨e | assigned, s'⟩
  · exact hprepare e
  · simp only
    have htable := prepare_table db r s
    cases htaken : (prepare db r s).1.taken assigned with
    | none => exact hprepare _
    | some z =>
      have hp := hprepare (.record (.noKeyAssigned r.table.name))
      generalize (prepare db r s).1 = y at htaken hp htable
      rw [taken] at htaken
      split at htaken
      · rename_i hnull
        obtain ⟨k, rfl, rfl⟩ := Option.map_eq_some_iff.1 htaken
        have hkey : (y.put y.table.primaryKey.name k).written.key = k :=
          (key_put y y.table.primaryKey.name k).trans (if_pos rfl)
        refine ⟨fun _ => ⟨rfl, rfl⟩, fun _ h => (by cases h), fun column h => ?_,
          fun hr hlock => ?_, fun hproper _ => ?_⟩
        · rw [← hp.find? column h]
          exact NameMap.find?_insert_of_ne _ _ (htable ▸ h.key)
        · rw [hp.key hr hlock, hr.resolve_left (by simp [hnew])] at hnull
          cases hnull
        · simp only
          rw [hkey]
          exact hproper _ _ k s' hinsert
      · cases htaken
        exact ⟨fun _ => ⟨rfl, rfl⟩, fun _ h => (by cases h), hp.find?, hp.key, hp.proper⟩

theorem update_written {r : Record} (hnew : r.isNew = false) (s : σ) :
    Written db r (update db (r, s)).1 (update db (r, s)).2.1 := by
  rcases update_cases db r s with ⟨e, s', hu⟩ | ⟨rs, hu, hrec | ⟨lock, v, hl, hrec⟩, -⟩
  · rw [hu]
    exact .same db (fun h => by cases h) rfl rfl rfl
  · rw [hu, hrec]
    exact .same db (fun _ => ⟨hnew, rfl⟩) rfl rfl rfl
  · have hkey := key_put r lock.name (.int v)
    rw [hu, hrec]
    refine ⟨fun _ => ⟨hnew, rfl⟩, fun _ h => (by cases h), fun column h => ?_, fun _ hlock => ?_,
      fun _ hsame => ?_⟩
    · exact NameMap.find?_insert_of_ne _ _ (h.lock lock hl)
    · rw [if_neg (hlock lock hl)] at hkey
      exact hkey
    · have hclean : ((r.put lock.name (.int v)).clean).key = (r.put lock.name (.int v)).key := rfl
      rw [hclean, hkey]
      split
      · exact beq_self_eq_true _
      · exact hsame

/-- **Writing.** A record is saved when its write succeeds, and else it is as new as before. -/
theorem write_written (r : Record) (s : σ) :
    Written db r (write db (r, s)).1 (write db (r, s)).2.1 := by
  rw [write, Saving.record_bind]
  split
  · rename_i hnew
    exact insert_written db hnew s
  · rename_i hnew
    have hnew : r.isNew = false := by simpa using hnew
    split
    · exact update_written db hnew s
    · rename_i hdirty
      refine .same db (fun _ => ⟨hnew, ?_⟩) rfl rfl rfl
      have hempty : r.dirty.entries = [] := by
        simpa [isDirty, NameMap.isEmpty] using hdirty
      exact congrArg NameMap.mk hempty

/-! ## After an action -/

section
variable {db : Place → Connection σ} {a : Action} {g y z : Record} {s s' : σ}
  {o : Except Error Unit} {q : Place} (h : Action.Step db a (g, s) o q y z s')
include h

/-- A column that the action does not set. -/
theorem Action.Step.find?_eq {column : String} (hc : a.column? ≠ some column)
    (hw : a = .write q → y.Plain column) : z.values.find? column = y.values.find? column := by
  cases h with
  | refer _ _ => exact find?_relink_of_ne _ _ fun h => hc (congrArg some h.symm)
  | forget _ => exact find?_relink_of_ne _ _ fun h => hc (congrArg some h.symm)
  | follow _ _ => exact find?_relink_of_ne _ _ fun h => hc (congrArg some h.symm)
  | write _ => exact (write_written (db q) y s).find? column (hw rfl)
  | link _ =>
    unfold relinked
    split <;> rfl
  | settle _ => rfl

/-- A key that the action does not set. -/
theorem Action.Step.key_eq (hc : a.column? ≠ some y.table.primaryKey.name) (hw : a ≠ .write q) :
    z.key = y.key := by
  refine key_congr h.reworked.follows.table ?_
  rw [h.reworked.follows.table]
  exact h.find?_eq hc fun h => absurd h hw

end

/-! ## Connections that know more -/

section
variable {τ : Type} {f : τ → σ} {db' : Connection τ} {db : Connection σ}

/-- The part of a graph and a state that `f` shows. -/
abbrev shown (f : τ → σ) : Record × τ → Record × σ := Prod.map id f

theorem onSecond_over {α : Type} {x' : Session τ α} {x : Session σ α} (h : Session.Over f x' x) :
    Session.Over (shown f) (x'.onSecond (τ := Record)) x.onSecond := by
  rintro ⟨r, t⟩
  rw [Session.onSecond_run, shown, Prod.map_apply, Session.onSecond_run, h t]
  rfl

theorem stateOnSecond_over {α : Type} {x' : StateM τ α} {x : StateM σ α} (h : stateOver f x' x) :
    stateOver (shown f) (stateOnSecond (τ := Record) x') (stateOnSecond x) := by
  rintro ⟨r, t⟩
  rw [stateOnSecond_run, shown, Prod.map_apply, stateOnSecond_run, h t]
  rfl

theorem record_over : Session.Over (shown f) (Saving.record : Saving τ Record) Saving.record :=
  fun _ => rfl

theorem change_over (g : Record → Record) :
    Session.Over (shown f) (Saving.change g : Saving τ Unit) (Saving.change g) := fun _ => rfl

open Session (Over)

theorem onRelated_over {identifier : String} {i : Nat} {x' : Saving τ Unit} {x : Saving σ Unit}
    (h : Over (shown f) x' x) :
    Over (shown f) (Saving.onRelated identifier i x') (Saving.onRelated identifier i x) := by
  rintro ⟨r, t⟩
  rw [shown, Prod.map_apply, id]
  cases hc : r.child? identifier i with
  | none => rw [Saving.onRelated_run_none hc, Saving.onRelated_run_none hc]; rfl
  | some c =>
    have hrun := h (c, t)
    rw [shown, Prod.map_apply, id] at hrun
    rw [Saving.onRelated_run hc, Saving.onRelated_run hc, hrun]
    rfl

theorem below_over {α : Type} {x' : Session (Record × τ) α} {x : Session (Record × σ) α}
    (h : Over (shown f) x' x) :
    ∀ p : Place, Over (shown f) (Saving.below p x') (Saving.below p x)
  | [] => by
    rintro t
    have hrun := h t
    simp only [Saving.below, ExceptT.map, ExceptT.mk, bind, StateT.bind]
    rw [hrun]
    rcases x' t with ⟨e | a, t'⟩ <;> rfl
  | (identifier, i) :: p => by
    rintro ⟨r, t⟩
    simp only [Saving.below, shown, Prod.map_apply, id]
    cases (r.related identifier)[i]? with
    | none => rfl
    | some c =>
      have hrun := below_over h p (c, t)
      simp only [shown, Prod.map_apply, id] at hrun
      simp only [hrun]
      rfl

variable (h : db'.Over f db)
include h

theorem makeKey_over : Over (shown f) (makeKey db') (makeKey db) := by
  refine record_over.bind fun r => ?_
  dsimp only
  split
  · split
    · exact (Over.lift (stateOnSecond_over h.freshUuid)).bind fun _ => change_over _
    · exact (Over.lift (stateOnSecond_over h.freshUlid)).bind fun _ => change_over _
    · exact .pure _
  · exact .pure _

omit h in
theorem takeKey_over (assigned : Option Value) :
    Over (shown f) (takeKey (σ := τ) assigned) (takeKey assigned) := by
  refine record_over.bind fun r => ?_
  split
  · split
    · exact change_over _
    · exact .throw _
  · exact .pure _

theorem insert_over : Over (shown f) (insert db') (insert db) := by
  have hrest : ∀ t : Table, Over (shown f) (do
      let r ← Saving.record
      let assigned ← (db'.insert t r.insertFields).onSecond
      takeKey assigned
      Saving.change written : Saving τ Unit) (do
      let r ← Saving.record
      let assigned ← (db.insert t r.insertFields).onSecond
      takeKey assigned
      Saving.change written) := fun t =>
    record_over.bind fun r => (onSecond_over (h.insert t _)).bind fun a =>
      (takeKey_over a).bind fun _ => change_over _
  refine (makeKey_over h).bind fun _ => record_over.bind fun r => ?_
  dsimp only
  split
  · exact (Over.lift (stateOnSecond_over (h.nextVersion _))).bind fun v =>
      (change_over _).bind fun _ => hrest _
  · exact hrest _

theorem update_over : Over (shown f) (update db') (update db) := by
  have hend : ∀ (touched : Nat) (e : Error) (g : Record → Record), Over (shown f) (do
        if touched = 0 then throw e
        Saving.change g : Saving τ Unit) (do
        if touched = 0 then throw e
        Saving.change g) := by
    intro touched e g
    split
    · exact (Over.throw e).bind fun _ => change_over _
    · exact change_over _
  refine record_over.bind fun r => (Over.ofExcept _).bind fun guard => ?_
  dsimp only
  split
  · exact change_over _
  · split
    · exact (Over.ofExcept _).bind fun previous =>
        (Over.lift (stateOnSecond_over (h.nextVersion _))).bind fun v =>
          (onSecond_over (h.execute _)).bind fun touched => hend touched _ _
    · exact (onSecond_over (h.execute _)).bind fun touched => hend touched _ _

theorem write_over : Over (shown f) (write db') (write db) := by
  refine record_over.bind fun r => ?_
  split
  · exact insert_over h
  · split
    · exact update_over h
    · exact .pure _

theorem act_over (a : Action) : Over (shown f) (a.act db') (a.act db) := by
  cases a with
  | refer _ reference modified =>
    rw [Action.act, Action.act]
    exact change_over _
  | forget _ reference =>
    rw [Action.act, Action.act]
    exact change_over _
  | follow _ reverse i modified =>
    exact record_over.bind fun y => onRelated_over (change_over _)
  | write _ => exact write_over h
  | link _ relation =>
    exact record_over.bind fun y => (onSecond_over (h.run _)).bind fun _ =>
      (Over.forM (fun target => onSecond_over (h.run _)) _).bind fun _ => change_over _
  | settle _ identifier =>
    rw [Action.act, Action.act]
    exact change_over _

end

/-- **What a plan does** depends on what the connections do, not on what else they keep. -/
theorem runPlan_over {τ : Type} {f : τ → σ} {db' : Place → Connection τ} {db : Place → Connection σ}
    (h : ∀ p, (db' p).Over f (db p)) (plan : List Action) :
    Session.Over (shown f) (runPlan db' plan) (runPlan db plan) := by
  have hrun : ∀ a : Action, Session.Over (shown f) (a.run db') (a.run db) := fun a =>
    (below_over (act_over (h a.place) a) a.place).bind fun _ => .pure _
  exact Session.Over.forM hrun plan

end Record

end RecordGraph
