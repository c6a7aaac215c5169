import RecordGraph.Connection.Script
import RecordGraph.Proofs.Record.Unkeyed

/-!
# Keys that the database assigns

The database assigns a key to a new row that comes without one, and a dialect learns it in one of
two ways: from the row that the insertion gives back, or by asking for the last key. What is learned
in the first way is decoded like any value that is read. In the second way it is taken as it is.

**Results.**
* `InsertStrategy.assignedKey`: what each way makes of the key that is reported.
* `Record.insert_assigned`: this is the key that inserting gives to the record.
* `Record.save_reported`: so does saving it, with all its relations.
* `Record.strategies_agree_iff`: both ways lead to one key exactly where a signed integer is
  reported, or nothing.
-/
namespace RecordGraph

/-! ## What is reported -/

/-- What the database reports of the key of a new row: the head of the row that it gives back, or
its answer when it is asked. -/
def Connection.reported {σ : Type} (db : Connection σ) (table : Table) (fields : List Field) :
    Session σ (Option Value) :=
  match db.dialect.insertStrategy with
  | .returning => do
    let rows ← db.query (.insert table fields (some table.primaryKey))
    let row ← db.firstRow rows
    pure (row.bind List.head?)
  | .lastInsertId => do
    db.run (.insert table fields none)
    db.lastInsertId

/-- The key that a record gets, or the error if it gets none. -/
def InsertStrategy.assignedKey (table : Table) : InsertStrategy → Option Value → Except Error Value
  | .returning, none => .error (.record (.noKeyReturned table.name))
  | .returning, some raw => table.primaryKey.receiver.decode table.primaryKey.name raw
  | .lastInsertId, none => .error (.record (.noKeyAssigned table.name))
  | .lastInsertId, some raw => .ok raw

namespace Record

variable {σ τ : Type}

/-- The database assigns the key of a new record: it has none, and the version is none either. -/
structure Keyless (r : Record) : Prop where
  isNew : r.isNew = true
  key : r.key.isNull = true
  auto : r.table.primaryKey.receiver = .autoPrimaryKey
  lock : ∀ lock, r.table.lockColumn? = some lock → lock.name ≠ r.table.primaryKey.name

/-! ## Inserting -/

theorem Keyless.prepare_isNull (db : Connection σ) {y : Record} (h : y.Keyless) (s : σ) :
    (prepare db y s).1.key.isNull = true :=
  Record.prepare_isNull db h.key (by simp [h.auto]) (by simp [h.auto]) h.lock s

/-- **Inserting** a record without a key sends it, and where the database reports a key, the record
gets what the dialect makes of it. -/
theorem insert_assigned (db : Connection σ) {y : Record} (hs : y.table.Sound) (h : y.Keyless)
    (s : σ) : insert db (y, s) =
      let z := prepare db y s
      match db.reported y.table z.1.insertFields z.2 with
      | (.error e, s') => (.error e, (z.1, s'))
      | (.ok k, s') => match db.dialect.insertStrategy.assignedKey y.table k with
        | .error e => (.error e, (z.1, s'))
        | .ok v => (.ok (), ((z.1.put y.table.primaryKey.name v).written, s')) := by
  have htable := prepare_table db y s
  have hnull := h.prepare_isNull db s
  have hassigns := assignsKey_insertFields (htable ▸ hs) hnull (htable ▸ h.auto)
  have htaken : ∀ k, (prepare db y s).1.taken k =
      k.map ((prepare db y s).1.put y.table.primaryKey.name ·) := fun k => by
    rw [taken, if_pos hnull, htable]
  rw [htable] at hassigns
  rw [insert_run, Connection.insert, if_pos hassigns]
  unfold Connection.reported
  dsimp only
  cases db.dialect.insertStrategy with
  | returning =>
    simp only [Session.bind_run]
    rcases db.query (.insert y.table (prepare db y s).1.insertFields (some y.table.primaryKey))
      (prepare db y s).2 with ⟨e | rows, s₁⟩
    · rfl
    · dsimp only
      rcases db.firstRow rows s₁ with ⟨e | row, s₂⟩
      · rfl
      · dsimp only [Session.pure_run]
        cases row.bind List.head? with
        | none => rfl
        | some raw =>
          simp only [Session.bind_run, Session.ofExcept_run, InsertStrategy.assignedKey]
          cases y.table.primaryKey.receiver.decode y.table.primaryKey.name raw with
          | error e => rfl
          | ok v => simp only [Session.pure_run, htaken, Option.map_some]
  | lastInsertId =>
    simp only [Session.bind_run]
    rcases db.run (.insert y.table (prepare db y s).1.insertFields none) (prepare db y s).2 with
      ⟨e | ⟨⟩, s₁⟩
    · rfl
    · dsimp only
      rcases db.lastInsertId s₁ with ⟨e | k, s₂⟩
      · rfl
      · cases k with
        | none => simp only [htaken, Option.map_none, InsertStrategy.assignedKey]
        | some raw => simp only [htaken, Option.map_some, InsertStrategy.assignedKey]

/-! ## Saving -/

/-- What the record refers to is saved first, which changes nothing of it but foreign keys. -/
theorem saveReference_keeps {P : Record → Prop} (save : Saving σ Unit) (reference : Reference)
    (hrow : ∀ {r r' : Record}, r.SameRow r' → P r → P r')
    (hrelink : ∀ {r : Record} key modified, P r → P (r.relink reference.column key modified))
    {y : Record} (hy : P y) (s : σ) : P (saveReference save reference (y, s)).2.1 := by
  let Q : Record × σ → Prop := fun rs => P rs.1
  rw [saveReference, Saving.record_bind]
  cases hslot : y.slots.find? reference.identifier with
  | none => exact hy
  | some slot =>
    obtain ⟨related, modified⟩ := slot
    cases related with
    | many records => exact hrow (sameRow_settle ..) hy
    | one record =>
      refine Session.bind_keeps (P := Q) (hrow (onEach_others _ save y s).1 hy) ?_
      rintro - ⟨r, s⟩ - hr
      have hsettled : P (r.settle reference.identifier) := hrow (sameRow_settle ..) hr
      dsimp only
      rw [Saving.record_bind]
      split
      · exact hrelink _ _ hsettled
      · exact hsettled

/-- What is saved behind a record leaves its row alone. -/
theorem saveBehind_sameRow (db : Connection σ) (save : Saving σ Unit) (table : Table) (key : Value)
    (y : Record) (s : σ) : y.SameRow (saveBehind db save table key (y, s)).2.1 := by
  let P : Record × σ → Prop := fun rs => y.SameRow rs.1
  have hreverses : P (table.reverses.forM (saveReverse save key) (y, s)).2 :=
    Session.forM_keeps (P := P) (fun reverse _ rs h =>
      h.trans (saveReverse_others save key reverse rs.1 rs.2).1) (.refl y)
  refine Session.bind_keeps (P := P) hreverses fun _ rs _ h => ?_
  exact Session.forM_keeps (P := P) (fun relation _ rs h =>
    h.trans (saveManyMany_others db save key relation rs.1 rs.2).1) h

/-- Saving the record comes to writing its row, still without a key, and there the database reports
`k` for the key. -/
def ReportsKey (db : Connection σ) (g : Record) (s : σ) (k : Option Value) : Prop :=
  ∃ y s', g.table.references.forM (saveReference (saveWithin db (g.depth - 1))) (g, s) =
      (.ok (), (y, s')) ∧ y.key.isNull = true ∧
    (db.reported y.table (prepare db y s').1.insertFields (prepare db y s').2).1 = .ok k

/-- Without relations, it comes to that at once. -/
theorem reportsKey_of_plain {db : Connection σ} {g : Record} (hslots : g.slots = .empty)
    (hg : g.Keyless) {s : σ} {k : Option Value}
    (hk : (db.reported g.table (prepare db g s).1.insertFields (prepare db g s).2).1 = .ok k) :
    ReportsKey db g s k :=
  ⟨g, s, Session.forM_run _ fun reference _ => saveReference_run hslots s _ reference, hg.key, hk⟩

/-- A save fails for want of a key, and the record stays new; or the record is saved with the key,
whatever becomes of the records behind it. -/
def Leaves (x : Except Error Unit × Record × σ) : Except Error Value → Prop
  | .error e => x.1 = .error e ∧ x.2.1.isNew = true
  | .ok v => x.2.1.isNew = false ∧ x.2.1.key = v

/-- Saving what the record refers to leaves it new, and in its table. -/
theorem references_keep (db : Connection σ) (g : Record) (s : σ) :
    let y := (g.table.references.forM (saveReference (saveWithin db (g.depth - 1))) (g, s)).2.1
    y.table = g.table ∧ y.isNew = g.isNew := by
  let P : Record → Prop := fun r => r.table = g.table ∧ r.isNew = g.isNew
  exact Session.forM_keeps (P := fun rs : Record × σ => P rs.1) (fun reference _ rs hrs =>
    saveReference_keeps (P := P) _ reference
      (fun hsame hr => ⟨hsame.table.trans hr.1, hsame.isNew.trans hr.2⟩)
      (fun key modified hr => ⟨(relink_table ..).trans hr.1, (relink_isNew ..).trans hr.2⟩)
      hrs rs.2) ⟨rfl, rfl⟩

/-- Writing the record succeeds exactly if it gets a key. -/
theorem write_reported {db : Connection σ} {y : Record} (hs : y.table.Sound) (hy : y.Keyless)
    {s : σ} {k : Option Value}
    (hk : (db.reported y.table (prepare db y s).1.insertFields (prepare db y s).2).1 = .ok k) :
    let key := db.dialect.insertStrategy.assignedKey y.table k
    (write db (y, s)).1 = key.map (fun _ => ()) ∧ Leaves (write db (y, s)) key := by
  have hwrite : write db (y, s) = insert db (y, s) := by
    rw [write, Saving.record_bind, if_pos hy.isNew]
  have hnew := (prepare_isNew db y s).trans hy.isNew
  have htable := prepare_table db y s
  rw [hwrite, insert_assigned db hs hy]
  dsimp only
  generalize (prepare db y s).1 = z at hk hnew htable ⊢
  rcases hreported : db.reported y.table z.insertFields (prepare db y s).2 with ⟨o, s'⟩
  rw [hreported] at hk
  cases hk
  dsimp only
  cases db.dialect.insertStrategy.assignedKey y.table k with
  | error e => exact ⟨rfl, rfl, hnew⟩
  | ok v =>
    have hkey : (z.put y.table.primaryKey.name v).written.key = v :=
      (key_put z y.table.primaryKey.name v).trans (if_pos (by rw [htable]))
    exact ⟨rfl, rfl, hkey⟩

theorem save_reported {db : Connection σ} {g : Record} (hs : g.table.Sound) (hg : g.Keyless) {s : σ}
    {k : Option Value} (h : ReportsKey db g s k) :
    Leaves (save db (g, s)) (db.dialect.insertStrategy.assignedKey g.table k) := by
  obtain ⟨y, s', hreferences, hnull, hk⟩ := h
  obtain ⟨htable, hnew⟩ : y.table = g.table ∧ y.isNew = g.isNew := by
    have hkept := references_keep db g s
    rwa [hreferences] at hkept
  have hy : y.Keyless := ⟨hnew.trans hg.isNew, hnull, htable ▸ hg.auto,
    fun lock hl => htable ▸ hg.lock lock (htable ▸ hl)⟩
  obtain ⟨hwritten, hleaves⟩ := write_reported (htable ▸ hs) hy hk
  obtain ⟨n, hn⟩ : ∃ n, g.depth = n + 1 :=
    Nat.exists_eq_add_one.2 (length_lt_depth_of_at? (p := []) (r := g) rfl)
  rw [hn, Nat.add_sub_cancel] at hreferences
  rw [save_eq, hn, saveWithin_succ, Session.bind_run, hreferences]
  dsimp only
  rw [Session.bind_run, ← htable]
  rcases hwrite : write db (y, s') with ⟨o, z, s₁⟩
  rw [hwrite] at hwritten hleaves
  cases hkey : db.dialect.insertStrategy.assignedKey y.table k with
  | error e =>
    rw [hkey] at hwritten hleaves
    cases hwritten
    exact hleaves
  | ok v =>
    rw [hkey] at hwritten hleaves
    cases hwritten
    dsimp only
    rw [Saving.record_bind]
    have hbehind := saveBehind_sameRow db (saveWithin db n) y.table z.key z s₁
    exact ⟨hbehind.isNew.trans hleaves.1, hbehind.key_eq.trans hleaves.2⟩

/-- Both saves fail and leave their records new, or both records are saved with one key, which is a
signed integer. -/
def KeyedAlike (x : Except Error Unit × Record × σ) (y : Except Error Unit × Record × τ) : Prop :=
  (x.1 ≠ .ok () ∧ x.2.1.isNew = true ∧ y.1 ≠ .ok () ∧ y.2.1.isNew = true) ∨
    (x.2.1.isNew = false ∧ y.2.1.isNew = false ∧ x.2.1.key = y.2.1.key ∧ ∃ i, x.2.1.key = .int i)

theorem decode_int {table : Table} (hauto : table.primaryKey.receiver = .autoPrimaryKey)
    (i : Int64) : table.primaryKey.receiver.decode table.primaryKey.name (.int i) =
      .ok (.int i) := by
  rw [hauto]
  exact Receiver.decode_eq_ok_iff.2 (.inr ⟨nofun, by
    simp [Receiver.decodePresent, Receiver.decodeSigned, Receiver.signed?, bind, Except.bind]⟩)

/-- **The two ways to a key.** Where one and the same value is reported for the key of a new record,
the dialect that gets it from the row decodes it, and the dialect that asks for it takes it as it
is. They agree exactly where the value is a signed integer, which decoding leaves as it is, or where
none is reported. -/
theorem strategies_agree_iff {d : SchemaDecl} {schema : Schema}
    (hd : Schema.ofDeclaration d = .ok schema) {g : Record} (ht : g.table ∈ schema.tables)
    (hg : g.Keyless) {db₁ : Connection σ} {db₂ : Connection τ}
    (h₁ : db₁.dialect.insertStrategy = .returning) (h₂ : db₂.dialect.insertStrategy = .lastInsertId)
    {s : σ} {t : τ} {k : Option Value} (hk₁ : ReportsKey db₁ g s k) (hk₂ : ReportsKey db₂ g t k) :
    Leaves (save db₁ (g, s)) (InsertStrategy.returning.assignedKey g.table k) ∧
      Leaves (save db₂ (g, t)) (InsertStrategy.lastInsertId.assignedKey g.table k) ∧
      (KeyedAlike (save db₁ (g, s)) (save db₂ (g, t)) ↔ k = none ∨ ∃ i, k = some (.int i)) ∧
      ∀ i, g.table.primaryKey.receiver.decode g.table.primaryKey.name (.int i) = .ok (.int i) := by
  have hs := (Schema.ofDeclaration_sound hd).sound g.table ht
  have hreturning := save_reported hs hg hk₁
  have hasked := save_reported hs hg hk₂
  rw [h₁] at hreturning
  rw [h₂] at hasked
  refine ⟨hreturning, hasked, ?_, decode_int hg.auto⟩
  generalize save db₁ (g, s) = x at *
  generalize save db₂ (g, t) = y at *
  cases k with
  | none =>
    obtain ⟨hx, hxnew⟩ := hreturning
    obtain ⟨hy, hynew⟩ := hasked
    exact iff_of_true (.inl ⟨by simp [hx], hxnew, by simp [hy], hynew⟩) (.inl rfl)
  | some raw =>
    obtain ⟨hynew, hykey⟩ := hasked
    simp only [reduceCtorEq, false_or, Option.some.injEq]
    constructor
    · rintro (⟨-, -, -, hnew⟩ | ⟨-, -, hkeys, i, hi⟩)
      · rw [hynew] at hnew
        cases hnew
      · exact ⟨i, by rw [← hykey, ← hkeys, hi]⟩
    · rintro ⟨i, rfl⟩
      rw [InsertStrategy.assignedKey, decode_int hg.auto] at hreturning
      obtain ⟨hxnew, hxkey⟩ := hreturning
      exact .inr ⟨hxnew, hynew, hxkey.trans hykey.symm, i, hxkey⟩

end Record

/-! ## A new author -/

namespace Library

open Record

/-- A new author in the library. -/
def ada : Except Error (Schema × Record) := do
  let s ← Schema.ofDeclaration declaration
  let authors ← s.requireTable "authors"
  let r ← Record.withFields authors [("name", .text "Ada")]
  .ok (s, r)

/-- A database that reports this key for a new row, to whichever way it is asked. -/
def numbering (k : Value) : Script := .start [⟨none, 1, some (some k), some [[k]], none, none⟩]

theorem ada_cases {s : Schema} {r : Record} (h : ada = .ok (s, r)) :
    Schema.ofDeclaration declaration = .ok s ∧ r.table ∈ s.tables ∧ Locking.Unsaved r.table r := by
  obtain ⟨s', hs, h⟩ := bind_eq_ok_iff.1 h
  obtain ⟨authors, ht, h⟩ := bind_eq_ok_iff.1 h
  obtain ⟨r', hr, h⟩ := bind_eq_ok_iff.1 h
  cases h
  have hr := Locking.Unsaved.of_withFields hr
  have hauthors := List.mem_of_find?_eq_some (Chain.requireTable_eq_ok_iff.1 ht)
  obtain rfl := hr.table_eq
  exact ⟨hs, hauthors, hr⟩

/-- A signed key is the key of the author either way. -/
theorem ada_keyed : ∃ s r, ada = .ok (s, r) ∧ Schema.ofDeclaration declaration = .ok s ∧
    r.table ∈ s.tables ∧ r.Keyless ∧
    ReportsKey (Script.connection .postgresql) r (numbering (.int 5)) (some (.int 5)) ∧
    ReportsKey (Script.connection .mysql) r (numbering (.int 5)) (some (.int 5)) ∧
    KeyedAlike (save (Script.connection .postgresql) (r, numbering (.int 5)))
      (save (Script.connection .mysql) (r, numbering (.int 5))) := by
  obtain ⟨⟨s, r⟩, h, ⟨hkey, hauto, hlock⟩, hreports⟩ : ∃ x, ada = .ok x ∧
      (x.2.key.isNull = true ∧ x.2.table.primaryKey.receiver = .autoPrimaryKey ∧
        x.2.table.lockColumn? = none) ∧
      ∀ d ∈ [Dialect.postgresql, .mysql],
        let y := prepare (Script.connection d) x.2 (numbering (.int 5))
        ((Script.connection d).reported x.2.table y.1.insertFields y.2).1 = .ok (some (.int 5)) :=
    exists_ok_of_decide (by decide +kernel)
  obtain ⟨hd, ht, hr⟩ := ada_cases h
  have hkeyless : r.Keyless := ⟨hr.isNew, hkey, hauto, by simp [hlock]⟩
  have hgiven := reportsKey_of_plain hr.plain hkeyless (hreports .postgresql (by simp))
  have hasked := reportsKey_of_plain hr.plain hkeyless (hreports .mysql (by simp))
  obtain ⟨-, -, hagree, -⟩ := strategies_agree_iff hd ht hkeyless rfl rfl hgiven hasked
  exact ⟨s, r, h, hd, ht, hkeyless, hgiven, hasked, hagree.2 (.inr ⟨5, rfl⟩)⟩

/-- An unsigned key is decoded to a signed one where the row is given back, and stays as it is where
the database is asked. No key at all is taken either way. -/
theorem ada_keyed_apart : ∃ x, ada = .ok x ∧ x.2.isNew = true ∧ x.2.key.isNull = true ∧
    x.2.table.primaryKey.receiver = .autoPrimaryKey ∧
    ∀ k ∈ [(Value.uint 5, Value.int 5, Value.uint 5), (.null, .null, .null)],
      let given := save (Script.connection .postgresql) (x.2, numbering k.1)
      let asked := save (Script.connection .mysql) (x.2, numbering k.1)
      given.1 = .ok () ∧ given.2.1.isNew = false ∧ given.2.1.key = k.2.1 ∧
        asked.1 = .ok () ∧ asked.2.1.isNew = false ∧ asked.2.1.key = k.2.2 :=
  exists_ok_of_decide (by decide +kernel)

end Library

end RecordGraph
