import Mathlib.Logic.Relation
import RecordGraph.Proofs.Locking.Copy
import RecordGraph.Version

/-!
# Many clients on a guarded table

Any number of clients load copies of the rows of one table, set columns on them, save and delete
them, in any order; others add rows meanwhile.

* `Step`: what one client does next.
* `Consistent`: the invariant, that every copy is still tracked; `Consistent.step`,
  `Consistent.reachable`.
* `no_lost_update`: in every interleaving, a write takes effect exactly when nobody wrote the row
  since the copy was read or last written.
-/
namespace RecordGraph

namespace Locking

variable {τ : Type}

/-- A copy of a row, and how long the log was when it was loaded or last written. -/
structure Copy where
  record : Record
  since : Nat

/-- The table and all copies of its rows. -/
structure World (τ : Type) where
  store : Store τ
  copies : List Copy

/-- The world after one of its copies is saved. A copy that is written is as good as a new one. -/
def World.save (db : Connection (Store τ)) (w : World τ) (i : Nat) (c : Copy) : World τ :=
  let (outcome, (r, s)) := Record.save db (c.record, w.store)
  { store := s
    copies := w.copies.set i
      ⟨r, if c.record.isDirty && outcome.isOk then s.log.length else c.since⟩ }

section
variable (eq : Equality) (table : Table) (lock : Column) (db : Connection (Store τ))

/-- One step of one client. Versions grow, and keys are not used again. -/
inductive Step (w : World τ) : World τ → Prop where
  | load {x : Tuple} {values calculations : NameMap Value} (hx : x ∈ w.store.rows)
      (hvalues : ∀ name v, values.find? name = some v → v = x name)
      (hkey : values.contains table.primaryKey.name = true)
      (hversion : values.contains lock.name = true) :
      Step w { w with copies :=
        w.copies ++ [⟨.loaded table values calculations .empty, w.store.log.length⟩] }
  | set {i : Nat} {c : Copy} {r : Record} {name : String} {v : Value}
      (hc : w.copies[i]? = some c) (hset : c.record.set name v = .ok r) :
      Step w { w with copies := w.copies.set i ⟨r, c.since⟩ }
  | save {i : Nat} {c : Copy} (hc : w.copies[i]? = some c)
      (hnext : ∀ p, c.record.version lock = .ok p → p < (db.nextVersion (some p) w.store).1) :
      Step w (w.save db i c)
  | delete {c : Copy} (hc : c ∈ w.copies) :
      Step w { w with store := (Record.delete db c.record w.store).2 }
  | insert {x : Tuple} {v : Int64}
      (hself : eq.holds (x table.primaryKey.name) (x table.primaryKey.name) = true)
      (hversion : x lock.name = .int v)
      (hrows : ∀ y ∈ w.store.rows,
        eq.holds (y table.primaryKey.name) (x table.primaryKey.name) = false)
      (hdeleted : ∀ k, Write.delete k ∈ w.store.log →
        eq.holds k (x table.primaryKey.name) = false) :
      Step w { w with store := w.store.insert table x }

/-- A copy whose key and version still tell what became of its row. -/
structure Copy.Tracked (s : Store τ) (c : Copy) (k : Value) (p : Int64) : Prop where
  self : eq.holds k k = true
  held : Held table lock c.record k p
  tracks : s.Tracks eq table lock c.since k p

/-- The rows are settled by their keys, and every copy is tracked. -/
structure Consistent (w : World τ) : Prop where
  valid : w.store.Valid eq table lock
  tracked : ∀ c ∈ w.copies, ∃ k p, c.Tracked eq table lock w.store k p

end

variable {eq : Equality} {table : Table} {lock : Column} {db : Connection (Store τ)}

/-! ## What one step keeps -/

/-- What the strategy remembers says nothing about the rows. -/
theorem Store.Valid.versions {s : Store τ} (h : s.Valid eq table lock) (t : τ) :
    Valid eq table lock { s with versions := t } := ⟨h.unique, h.key, h.version⟩

theorem Store.Tracks.versions {s : Store τ} {since : Nat} {k : Value} {p : Int64}
    (h : s.Tracks eq table lock since k p) (t : τ) :
    Tracks eq table lock { s with versions := t } since k p :=
  ⟨h.since_le, h.fresh, h.stale, h.known⟩

theorem Copy.Tracked.set {s : Store τ} {c : Copy} {k : Value} {p : Int64}
    (hg : Guarded table lock) (hc : c.Tracked eq table lock s k p) {name : String} {v : Value}
    {r : Record} (h : c.record.set name v = .ok r) :
    Copy.Tracked eq table lock s ⟨r, c.since⟩ k p where
  self := hc.self
  held := hc.held.set hg h
  tracks := hc.tracks

namespace Consistent

variable {w : World τ} (hw : Consistent eq table lock w)
include hw

/-- Copies that are tracked in a new store, beside one that replaces another. -/
theorem replace {s : Store τ} (hv : s.Valid eq table lock)
    (hs : ∀ {since : Nat} {k : Value} {p : Int64}, w.store.Tracks eq table lock since k p →
      s.Tracks eq table lock since k p) {i : Nat} {c : Copy} {k : Value} {p : Int64}
    (hc : c.Tracked eq table lock s k p) :
    Consistent eq table lock ⟨s, w.copies.set i c⟩ where
  valid := hv
  tracked c' hc' := by
    rcases List.mem_or_eq_of_mem_set hc' with hc' | rfl
    · obtain ⟨k', p', hself, hheld, htracks⟩ := hw.tracked c' hc'
      exact ⟨k', p', hself, hheld, hs htracks⟩
    · exact ⟨k, p, hc⟩

/-- The same copies over a new store. -/
theorem store {s : Store τ} (hv : s.Valid eq table lock)
    (hs : ∀ {since : Nat} {k : Value} {p : Int64}, w.store.Tracks eq table lock since k p →
      s.Tracks eq table lock since k p) : Consistent eq table lock { w with store := s } where
  valid := hv
  tracked c hc := by
    obtain ⟨k, p, hself, hheld, htracks⟩ := hw.tracked c hc
    exact ⟨k, p, hself, hheld, hs htracks⟩

theorem load {x : Tuple} (hx : x ∈ w.store.rows) {values calculations : NameMap Value}
    (hvalues : ∀ name v, values.find? name = some v → v = x name)
    (hkey : values.contains table.primaryKey.name = true)
    (hversion : values.contains lock.name = true) :
    Consistent eq table lock { w with copies :=
      w.copies ++ [⟨.loaded table values calculations .empty, w.store.log.length⟩] } where
  valid := hw.valid
  tracked c hc := by
    rcases List.mem_append.1 hc with hc | hc
    · exact hw.tracked c hc
    · obtain rfl := List.mem_singleton.1 hc
      obtain ⟨k, hk⟩ := Option.isSome_iff_exists.1 hkey
      obtain ⟨v, hv⟩ := Option.isSome_iff_exists.1 hversion
      obtain ⟨p, hp⟩ := hw.valid.version x hx
      obtain rfl := hvalues _ _ hk
      obtain rfl := hvalues _ _ hv
      have hself := hw.valid.key x hx
      exact ⟨_, p, hself, .of_loaded hk (hp ▸ hv), .of_mem hx hp hself⟩

section
variable (hg : Guarded table lock) (he : Executes eq table db)
include hg he

/-- The version after the stored one goes to the row; its copy is as good as a new one. -/
theorem save_of_mem {i : Nat} {c : Copy} {k : Value} {p : Int64} (hself : eq.holds k k = true)
    (hheld : Held table lock c.record k p) {x : Tuple} (hx : x ∈ w.store.rows)
    (hxk : eq.holds (x table.primaryKey.name) k = true) (hxp : x lock.name = .int p)
    (hnext : p < (db.nextVersion (some p) w.store).1) (hd : c.record.isDirty = true) :
    Consistent eq table lock (w.save db i c) := by
  obtain ⟨t, hsave⟩ := hheld.save_of_mem hg he hself hw.valid hx hxk hxp hd
  unfold World.save
  simp only [hsave, hd, Except.isOk, Except.toBool, Bool.and_self, if_true]
  have hkey := hheld.assign_key hg (db.nextVersion (some p) w.store).1
  have hversion : assign _ x lock.name = .int (db.nextVersion (some p) w.store).1 :=
    assign_concat c.record.updateFields ⟨lock, _⟩ x
  have hvalid := (hw.valid.update hx hxk hxp hkey hversion).versions t
  refine hw.replace hvalid
    (fun ht => (ht.update hw.valid hx hxk hxp hnext (hkey x) hversion).versions t)
    ⟨hself, hheld.written hg _, ?_⟩
  refine Store.Tracks.versions (.of_mem ?_ hversion ?_) t
  · exact (hw.valid.mem_update hx hxk hxp).2 (.inl rfl)
  · rw [hkey]
    exact hxk

/-- **Saving.** A copy that is not changed sends nothing; a changed one is written, or refused. -/
theorem save {i : Nat} {c : Copy} (hc : c ∈ w.copies)
    (hnext : ∀ p, c.record.version lock = .ok p → p < (db.nextVersion (some p) w.store).1) :
    Consistent eq table lock (w.save db i c) := by
  obtain ⟨k, p, hself, hheld, htracks⟩ := hw.tracked c hc
  by_cases hd : c.record.isDirty = true
  · by_cases hwritten : w.store.WrittenSince eq c.since c.record.key
    · obtain ⟨t, hsave⟩ := hheld.save_refused hg he hself htracks hwritten hd
      unfold World.save
      simp only [hsave, Except.isOk, Except.toBool, Bool.and_false, Bool.false_eq_true, if_false]
      exact hw.replace (hw.valid.versions t) (fun ht => ht.versions t)
        ⟨hself, hheld, htracks.versions t⟩
    · rw [hheld.key_eq] at hwritten
      obtain ⟨x, hx, hxk, hxp⟩ := htracks.fresh hwritten
      exact hw.save_of_mem hg he hself hheld hx hxk hxp (hnext p hheld.version_eq) hd
  · rw [Bool.not_eq_true] at hd
    unfold World.save
    simp only [hheld.save_unchanged db hd, hd, Bool.false_and, Bool.false_eq_true, if_false]
    exact hw.replace hw.valid id ⟨hself, hheld, htracks⟩

/-- **Deleting.** The row of the copy goes, or the deletion is refused. -/
theorem delete {c : Copy} (hc : c ∈ w.copies) :
    Consistent eq table lock { w with store := (Record.delete db c.record w.store).2 } := by
  obtain ⟨k, p, hself, hheld, htracks⟩ := hw.tracked c hc
  by_cases hwritten : w.store.WrittenSince eq c.since c.record.key
  · have hdelete : Record.delete db c.record w.store = _ :=
      hheld.delete_refused hg he hself htracks hwritten
    rw [hdelete]
    exact hw
  · rw [hheld.key_eq] at hwritten
    obtain ⟨x, hx, hxk, hxp⟩ := htracks.fresh hwritten
    rw [hheld.delete_of_mem hg he hself hw.valid hx hxk hxp]
    exact hw.store (hw.valid.delete hx hxk hxp) fun ht => ht.delete hw.valid hx hxk hxp

/-- **One step.** Whatever a client does, all copies stay tracked. -/
theorem step {w' : World τ} (h : Step eq table lock db w w') : Consistent eq table lock w' := by
  cases h with
  | load hx hvalues hkey hversion => exact hw.load hx hvalues hkey hversion
  | set hc hset =>
    obtain ⟨k, p, htracked⟩ := hw.tracked _ (List.mem_of_getElem? hc)
    exact hw.replace hw.valid id (htracked.set hg hset)
  | save hc hnext => exact hw.save hg he (List.mem_of_getElem? hc) hnext
  | delete hc => exact hw.delete hg he hc
  | insert hself hversion hrows hdeleted =>
    exact hw.store (Store.Valid.insert hrows hw.valid hself hversion)
      fun ht => Store.Tracks.insert hrows hdeleted ht

/-- **Every run.** All copies are tracked in every world that the clients lead to. -/
theorem reachable {w' : World τ} (h : Relation.ReflTransGen (Step eq table lock db) w w') :
    Consistent eq table lock w' := by
  induction h with
  | refl => exact hw
  | tail _ hstep ih => exact ih.step hg he hstep

end

end Consistent

/-! ## No lost update -/

/-- **No lost update.** In every interleaving of clients, from every table whose rows have keys and
versions: a changed copy is written, and a copy is deleted, exactly when nobody wrote its row since
the copy was loaded or last written. Otherwise the write is refused, and the rows and the copy stay
as they were. -/
theorem no_lost_update {d : SchemaDecl} {schema : Schema} (hd : Schema.ofDeclaration d = .ok schema)
    (htable : table ∈ schema.tables) (hlock : table.lockColumn? = some lock)
    (hkey : lock.primaryKey = false) (he : Executes eq table db) {s : Store τ}
    (hs : s.Valid eq table lock) {w : World τ}
    (h : Relation.ReflTransGen (Step eq table lock db) ⟨s, []⟩ w) {c : Copy} (hc : c ∈ w.copies) :
    (¬w.store.WrittenSince eq c.since c.record.key →
      (c.record.isDirty = true → Saves eq table lock db c.record w.store) ∧
        Deletes eq table db c.record w.store) ∧
    (w.store.WrittenSince eq c.since c.record.key →
      (c.record.isDirty = true → SaveRefused table db c.record w.store) ∧
        DeleteRefused table db c.record w.store) := by
  have hg : Guarded table lock := ⟨(Schema.ofDeclaration_sound hd).sound table htable, hlock, hkey⟩
  have hinit : Consistent eq table lock ⟨s, []⟩ := ⟨hs, by simp⟩
  have hw := hinit.reachable hg he h
  obtain ⟨k, p, hself, hheld, htracks⟩ := hw.tracked c hc
  constructor
  · intro hwritten
    exact ⟨hheld.saves hg he hself htracks hw.valid hwritten,
      hheld.deletes hg he hself htracks hw.valid hwritten⟩
  · intro hwritten
    exact ⟨hheld.save_refused hg he hself htracks hwritten,
      hheld.delete_refused hg he hself htracks hwritten⟩

end Locking

/-! ## Two readers of one book -/

namespace Library

open Locking

/-- A database of one table, whose versions count the writes. -/
def database : Connection (Store Versions) where
  dialect := .sqlite
  execute c := fun s => match c with
    | .update t set guard => (.ok (s.hits equality guard).length, s.update equality t set guard)
    | .delete t guard => (.ok (s.hits equality guard).length, s.delete equality t guard)
    | _ => (.ok 0, s)
  query _ := pure ⟨[], .ok ()⟩
  release := pure ()
  lastInsertId := pure none
  nextVersion previous := fun s =>
    let (v, versions) := s.versions.next 0 previous
    (v, { s with versions })
  freshUuid := pure default
  freshUlid := pure 0

theorem database_executes (table : Table) : Executes equality table database where
  update _ _ _ := rfl
  delete _ _ := rfl
  nextVersion _ _ := ⟨_, rfl⟩

def book : Tuple :=
  tuple [("id", .int 1), ("title", .text "Sea"), ("author_id", .int 1), ("version", .int 1)]

def shelf : Store Versions := ⟨[book], [], .fresh .increment⟩

/-- What is loaded of the book; nothing of its author. -/
def columns : NameMap Value := .ofList [("id", .int 1), ("title", .text "Sea"), ("version", .int 1)]

/-- Two copies of the book, each with another title. -/
def race : Except Error (Schema × Table × Column × Record × Record) := do
  let s ← Schema.ofDeclaration declaration
  match s.tables[1]?, s.tables[1]?.bind Table.lockColumn? with
  | some table, some lock => do
    let first ← (Record.loaded table columns .empty .empty).set "title" (.text "Lake")
    let second ← (Record.loaded table columns .empty .empty).set "title" (.text "River")
    .ok (s, table, lock, first, second)
  | _, _ => .error (.record (.unknownColumn "books" "version"))

/-- The copies before one of them is saved. -/
def readers (first second : Record) : World Versions := ⟨shelf, [⟨first, 0⟩, ⟨second, 0⟩]⟩

theorem race_cases {s : Schema} {table : Table} {lock : Column} {first second : Record}
    (h : race = .ok (s, table, lock, first, second)) :
    Schema.ofDeclaration declaration = .ok s ∧ table.lockColumn? = some lock ∧
      (Record.loaded table columns .empty .empty).set "title" (.text "Lake") = .ok first ∧
      (Record.loaded table columns .empty .empty).set "title" (.text "River") = .ok second := by
  obtain ⟨s', h1, h⟩ := bind_eq_ok_iff.1 h
  split at h
  · rename_i table' lock' htable hlock
    obtain ⟨first', h2, h⟩ := bind_eq_ok_iff.1 h
    obtain ⟨second', h3, h⟩ := bind_eq_ok_iff.1 h
    cases h
    rw [htable] at hlock
    exact ⟨h1, hlock, h2, h3⟩
  · cases h

theorem exists_race : ∃ s table lock first second, race = .ok (s, table, lock, first, second) ∧
    table ∈ s.tables ∧ table.primaryKey.name = "id" ∧ lock.name = "version" ∧
    lock.primaryKey = false ∧ (first.version lock).toOption = some 1 ∧
    first.isDirty = true ∧ second.isDirty = true ∧ second.key = .int 1 ∧
    ((readers first second).save database 0 ⟨first, 0⟩).store.log.map Write.key = [.int 1] := by
  have hall : (match race with
      | .ok (s, table, lock, first, second) => decide (table ∈ s.tables ∧
          table.primaryKey.name = "id" ∧ lock.name = "version" ∧ lock.primaryKey = false ∧
          (first.version lock).toOption = some 1 ∧ first.isDirty = true ∧ second.isDirty = true ∧
          second.key = .int 1 ∧ ((readers first second).save database 0 ⟨first, 0⟩).store.log.map
            Write.key = [.int 1])
      | .error _ => false) = true := by decide +kernel
  match h : race with
  | .error _ => rw [h] at hall; cases hall
  | .ok (s, table, lock, first, second) =>
    rw [h] at hall
    exact ⟨s, table, lock, first, second, rfl, of_decide_eq_true hall⟩

theorem shelf_valid {table : Table} {lock : Column} (hkey : table.primaryKey.name = "id")
    (hlock : lock.name = "version") : shelf.Valid equality table lock where
  unique := List.pairwise_singleton _ _
  key x hx := by
    obtain rfl := List.mem_singleton.1 hx
    rw [hkey]
    decide +kernel
  version x hx := by
    obtain rfl := List.mem_singleton.1 hx
    exact ⟨1, by rw [hlock]; rfl⟩

theorem columns_book : ∀ name v, columns.find? name = some v → v = book name := by
  intro name v h
  have hentries : columns.entries =
      [("id", .int 1), ("title", .text "Sea"), ("version", .int 1)] := by decide +kernel
  rw [NameMap.find?, hentries] at h
  obtain ⟨l, l', heq, -⟩ := List.lookup_eq_some_iff.1 h
  have hmem : (name, v) ∈ l ++ (name, v) :: l' := List.mem_append_right _ List.mem_cons_self
  rw [← heq] at hmem
  simp only [List.mem_cons, Prod.mk.injEq, List.not_mem_nil, or_false] at hmem
  rcases hmem with ⟨rfl, rfl⟩ | ⟨rfl, rfl⟩ | ⟨rfl, rfl⟩ <;> rfl

theorem readers_reachable {s : Schema} {table : Table} {lock : Column} {first second : Record}
    (h : race = .ok (s, table, lock, first, second)) (hkey : table.primaryKey.name = "id")
    (hlock : lock.name = "version") :
    Relation.ReflTransGen (Step equality table lock database) ⟨shelf, []⟩
      (readers first second) := by
  obtain ⟨-, -, hfirst, hsecond⟩ := race_cases h
  have hload : ∀ copies : List Copy, Step equality table lock database ⟨shelf, copies⟩
      ⟨shelf, copies ++ [⟨.loaded table columns .empty .empty, 0⟩]⟩ := fun copies =>
    .load (w := ⟨shelf, copies⟩) (List.mem_singleton_self book) columns_book
      (by rw [hkey]; decide +kernel) (by rw [hlock]; decide +kernel)
  have h1 := Relation.ReflTransGen.single (hload [])
  have h2 := h1.tail (hload _)
  have h3 := h2.tail (.set (i := 0) rfl hfirst)
  have hset : Step equality table lock database
      ⟨shelf, [⟨first, 0⟩, ⟨.loaded table columns .empty .empty, 0⟩]⟩ (readers first second) :=
    .set (w := ⟨shelf, [⟨first, 0⟩, ⟨.loaded table columns .empty .empty, 0⟩]⟩) (i := 1) rfl hsecond
  exact h3.tail hset

end Library

/-- Either reader may save the book; after one of them did, the other one is refused. -/
theorem Locking.library_race : ∃ table lock w w' first second,
    Step Library.equality table lock Library.database w w' ∧
    Saves Library.equality table lock Library.database first w.store ∧
    SaveRefused table Library.database second w'.store := by
  obtain ⟨s, table, lock, first, second, h, htable, hid, hversion, hpk, hp, hd, hd', hkey, hlog⟩ :=
    Library.exists_race
  obtain ⟨hs, hlock, -, -⟩ := Library.race_cases h
  have hrun := Library.readers_reachable h hid hversion
  have hstep : Step Library.equality table lock Library.database (Library.readers first second)
      ((Library.readers first second).save Library.database 0 ⟨first, 0⟩) := by
    refine .save rfl fun p hv => ?_
    rw [hv] at hp
    obtain rfl : p = 1 := Option.some.inj hp
    have hlt : (1 : Int64) < (Library.database.nextVersion (some 1) Library.shelf).1 := by
      decide +kernel
    exact hlt
  have hvalid := Library.shelf_valid hid hversion
  refine ⟨table, lock, _, _, first, second, hstep, ?_, ?_⟩
  · exact ((no_lost_update hs htable hlock hpk (Library.database_executes table) hvalid hrun
      List.mem_cons_self).1 (by simp [Store.WrittenSince, Library.readers, Library.shelf])).1 hd
  · have hmem : (⟨second, 0⟩ : Copy) ∈
        ((Library.readers first second).save Library.database 0 ⟨first, 0⟩).copies :=
      List.mem_cons_of_mem _ List.mem_cons_self
    refine ((no_lost_update hs htable hlock hpk (Library.database_executes table) hvalid
      (hrun.tail hstep) hmem).2 ?_).1 hd'
    have hwritten := hlog.symm ▸ List.mem_singleton_self (Value.int 1)
    obtain ⟨write, hwrite, hwk⟩ := List.mem_map.1 hwritten
    refine ⟨write, hwrite, ?_⟩
    rw [hwk, hkey]
    decide +kernel

end RecordGraph
