import RecordGraph.Connection.Script
import RecordGraph.Proofs.Record.Course

/-!
# The keys of saved records

A foreign key may be a key too: then saving points a key at another row. `Record.KeysAligned` says
of a graph that it does not: wherever the key of a saved record is linked, it is linked to a saved
record with that key, and no key counts versions. Saving such a graph keeps all keys, whether it
succeeds or fails half-way.

**Results.**
* `Record.keepsKey_kept`: what saving does to a record keeps its key, if that is aligned.
* `Record.Step`: what a program can do with a graph of records, one of which is followed.
* `Record.key_settled`: the key of the followed record stays what it is.
-/
namespace RecordGraph

namespace Record

/-- Saved, with a key. -/
structure Fixed (r : Record) : Prop where
  saved : r.isNew = false
  key : r.key ≠ .null

/-- The links of a record's key, and those that go through the keys of related records, join rows
with one key. -/
structure Aligned (r : Record) : Prop where
  /-- The key does not count versions. -/
  lock : ∀ lock, r.table.lockColumn? = some lock → r.table.primaryKey.name ≠ lock.name
  reference : r.Fixed → ∀ reference ∈ r.table.references,
    reference.column = r.table.primaryKey.name →
      ∀ slot, r.slots.find? reference.identifier = some slot →
        (slot.related = .one none → slot.modified = false) ∧
          ∀ target, slot.related = .one (some target) →
            target.Fixed ∧ r.key.same target.key = true
  reverse : ∀ reverse ∈ r.table.reverses, ∀ i child, r.child? reverse.identifier i = some child →
    child.Fixed → reverse.column = child.table.primaryKey.name →
      r.Fixed ∧ child.key.same r.key = true

/-- Wherever the key of a saved record is linked, the rows have one key. -/
def KeysAligned (r : Record) : Prop := ∀ p x, r.at? p = some x → x.Aligned

theorem KeysAligned.mk {r : Record} (hr : r.Aligned)
    (h : ∀ identifier i c, r.child? identifier i = some c → c.KeysAligned) : r.KeysAligned := by
  intro p x hx
  cases p with
  | nil =>
    cases hx
    exact hr
  | cons step p =>
    obtain ⟨identifier, i⟩ := step
    obtain ⟨c, hc, hx⟩ := at?_cons_eq_some_iff.1 hx
    exact h identifier i c hc p x hx

theorem Fixed.find?_key {r : Record} (h : r.Fixed) :
    r.values.find? r.table.primaryKey.name = some r.key := by
  have hkey := h.key
  unfold Record.key at hkey ⊢
  cases hv : r.values.find? r.table.primaryKey.name with
  | none =>
    rw [hv] at hkey
    exact absurd rfl hkey
  | some v => rfl

/-- Only the row counts. -/
theorem SameRow.fixed {r r' : Record} (h : r.SameRow r') (hr : r.Fixed) :
    r'.Fixed ∧ r'.key = r.key := by
  have hkey : r'.key = r.key := key_congr h.table (by rw [h.values])
  exact ⟨⟨h.isNew.trans hr.saved, hkey ▸ hr.key⟩, hkey⟩

/-! ## Saving keeps the keys -/

variable {σ : Type} (db : Connection σ)

/-- `y` has the key of `x`, if that is settled. -/
def KeepsKey (x y : Record) (_ : σ) : Prop := x.Fixed → y.Fixed ∧ y.key = x.key

/-- A foreign key is pointed at a row; where it is a settled key, it points there already. -/
theorem KeepsKey.relink {x y : Record} {s : σ} (h : x.KeepsKey y s) (ht : y.table = x.table)
    {column : String} {key : Value} (modified : Bool)
    (hk : x.Fixed → column = x.table.primaryKey.name → x.key.same key = true) :
    x.KeepsKey (y.relink column key modified) s := by
  intro hx
  obtain ⟨hy, hkey⟩ := h hx
  by_cases hc : column = x.table.primaryKey.name
  · have hholds : y.holds column key = true := by
      have hfind := hy.find?_key
      rw [ht, ← hc] at hfind
      rw [holds, hfind, hkey]
      exact hk hx hc
    rw [relink_of_holds modified hholds]
    exact ⟨hy, hkey⟩
  · have hsame : (y.relink column key modified).key = y.key := by
      refine key_congr (relink_table ..) ?_
      rw [relink_table, ht]
      exact find?_relink_of_ne key modified fun h => hc h.symm
    exact ⟨⟨(relink_isNew ..).trans hy.saved, hsame ▸ hy.key⟩, hsame.trans hkey⟩

/-- An update changes no column but the version. -/
theorem KeepsKey.update {x y : Record} {s : σ} (hx : x.Aligned) (hf : x.Follows y)
    (h : x.KeepsKey y s) (s' : σ) : x.KeepsKey (update db (y, s)).2.1 s' := by
  intro hfixed
  obtain ⟨hy, hkey⟩ := h hfixed
  rcases update_cases db y s with ⟨e, s', hu⟩ | ⟨rs, hu, hrec | ⟨lock, v, hl, hrec⟩, -⟩
  · rw [hu]
    exact ⟨hy, hkey⟩
  · rw [hu, hrec]
    exact ⟨⟨hy.saved, hy.key⟩, hkey⟩
  · have hne : y.table.primaryKey.name ≠ lock.name := by
      rw [hf.table] at hl ⊢
      exact hx.lock lock hl
    have hsame : ((y.put lock.name (.int v)).clean).key = y.key :=
      key_congr rfl (NameMap.find?_insert_of_ne _ _ hne)
    rw [hu, hrec]
    exact ⟨⟨hy.saved, hsame ▸ hy.key⟩, hsame.trans hkey⟩

/-- **Saving keeps the keys** that are aligned. -/
theorem keepsKey_kept : Kept db Aligned KeepsKey where
  later h _ := h
  sameRow h hrow hx := by
    obtain ⟨hy, hkey⟩ := h hx
    obtain ⟨hy', hkey'⟩ := hrow.fixed hy
    exact ⟨hy', hkey'.trans hkey⟩
  reference modified hx hf h hr hslot hrel hv := by
    refine h.relink hf.table modified fun hfixed hcol => ?_
    obtain ⟨hu, hsame⟩ := (hx.reference hfixed _ hr hcol _ hslot).2 _ hrel
    rw [(hv hu).2]
    exact hsame
  emptied modified hx hf h hr hslot hrel hmod := by
    refine h.relink hf.table modified fun hfixed hcol => ?_
    rw [(hx.reference hfixed _ hr hcol _ hslot).1 hrel] at hmod
    cases hmod
  reverse modified hx h hr hc hf hu := by
    refine hu.relink hf.table modified fun hfixed hcol => ?_
    obtain ⟨hown, hsame⟩ := hx.reverse _ hr _ _ hc hfixed hcol
    rw [(h hown).2]
    exact hsame
  write {x y s} hx hf h hfixed := by
    have hsaved := (h hfixed).1.saved
    rw [write_run db hsaved]
    split
    · exact h.update db hx hf s hfixed
    · exact h hfixed

/-- Saving a graph whose keys are aligned keeps them at every place. -/
theorem KeysAligned.save {a x : Record} (ha : a.KeysAligned) {p : Place} (hx : a.at? p = some x)
    (hfixed : x.Fixed) (s : σ) : ∃ y, (Record.save db (a, s)).2.1.at? p = some y ∧
      y.table = x.table ∧ y.Fixed ∧ y.key = x.key := by
  have hstart : Course db KeepsKey a s (a, s) := .refl fun _ _ _ h => ⟨h, rfl⟩
  obtain ⟨y, hy, hf, hkey⟩ := (saveWithin_course (keepsKey_kept db) a.depth ha hstart).2 p x hx
  exact ⟨y, hy, hf.table, hkey hfixed⟩

/-! ## What a program does with records -/

/-- A graph, and the place in it of a record that is followed. -/
structure Tracked where
  graph : Record
  place : Place

/-- What a program can do with a graph: at any place `q` it changes a column, replaces a relation
that does not lead to the followed record, adds to one, or saves what meets `ok`; or it makes the
graph a part of another, or takes a part out of it. What fails changes nothing, but for saving. -/
inductive Step (tables : List Table) (ok : Record → Prop) : Tracked × σ → Tracked × σ → Prop where
  | set {g y y' : Record} {p q : Place} {key : String} {v : Value} {s : σ} :
      g.at? q = some y → y.table ∈ tables → y.set key v = .ok y' →
      Step tables ok (⟨g, p⟩, s) (⟨g.putAt q y', p⟩, s)
  | setOne {g y y' : Record} {p q : Place} {identifier : String} {target : Option Record} {s : σ} :
      g.at? q = some y → (∀ i, ¬q ++ [(identifier, i)] <+: p) →
      y.setOne identifier target = .ok y' →
      Step tables ok (⟨g, p⟩, s) (⟨g.putAt q y', p⟩, s)
  | setMany {g y y' : Record} {p q : Place} {identifier : String} {targets : List Record} {s : σ} :
      g.at? q = some y → (∀ i, ¬q ++ [(identifier, i)] <+: p) →
      y.setMany identifier targets = .ok y' →
      Step tables ok (⟨g, p⟩, s) (⟨g.putAt q y', p⟩, s)
  | push {g y y' : Record} {p q : Place} {identifier : String} {target : Record} {s : σ} :
      g.at? q = some y → y.push identifier target = .ok y' →
      Step tables ok (⟨g, p⟩, s) (⟨g.putAt q y', p⟩, s)
  | save {g y : Record} {p q : Place} {s : σ} :
      g.at? q = some y → ok y →
      Step tables ok (⟨g, p⟩, s)
        (⟨g.putAt q (Record.save db (y, s)).2.1, p⟩, (Record.save db (y, s)).2.2)
  | attach {g h : Record} {p : Place} {identifier : String} {i : Nat} {s : σ} :
      h.child? identifier i = some g →
      Step tables ok (⟨g, p⟩, s) (⟨h, (identifier, i) :: p⟩, s)
  | detach {g c : Record} {p : Place} {identifier : String} {i : Nat} {s : σ} :
      g.child? identifier i = some c →
      Step tables ok (⟨g, (identifier, i) :: p⟩, s) (⟨c, p⟩, s)

/-- A settled key stays, on a row of the same table. -/
structure Keeps (x x' : Record) : Prop where
  table : x'.table = x.table
  fixed : x'.Fixed
  key : x'.key = x.key

theorem SameRow.keeps {x x' : Record} (h : x.SameRow x') (hx : x.Fixed) : x.Keeps x' :=
  ⟨h.table, (h.fixed hx).1, (h.fixed hx).2⟩

theorem Keeps.refl {x : Record} (hx : x.Fixed) : x.Keeps x := ⟨rfl, hx, rfl⟩

/-- What is kept below a place is kept when it is put there. -/
theorem exists_keeps_putAt {g y y' x : Record} {p q : Place} (hq : g.at? q = some y)
    (hp : g.at? p = some x) (hx : x.Fixed)
    (h : ∀ rest, p = q ++ rest → y.at? rest = some x → ∃ x', y'.at? rest = some x' ∧ x.Keeps x') :
    ∃ x', (g.putAt q y').at? p = some x' ∧ x.Keeps x' := by
  by_cases hqp : q <+: p
  · obtain ⟨rest, rfl⟩ := hqp
    rw [at?_append, hq] at hp
    obtain ⟨x', hx', hkeeps⟩ := h rest rfl hp
    exact ⟨x', (at?_putAt_append hq y' rest).trans hx', hkeeps⟩
  · obtain ⟨x', hx', hsame⟩ := at?_putAt_of_not_isPrefix y' hqp hp
    exact ⟨x', hx', hsame.keeps hx⟩

/-- A change of relations keeps what stands below those that still lead there. -/
theorem exists_keeps_of_child {y y' x : Record} (hrow : y.SameRow y') {rest : Place}
    (hx : x.Fixed) (h : y.at? rest = some x)
    (hchild : ∀ identifier i c below, rest = (identifier, i) :: below →
      y.child? identifier i = some c → y'.child? identifier i = some c) :
    ∃ x', y'.at? rest = some x' ∧ x.Keeps x' := by
  cases rest with
  | nil =>
    cases h
    exact ⟨y', rfl, hrow.keeps hx⟩
  | cons step below =>
    obtain ⟨identifier, i⟩ := step
    obtain ⟨c, hc, hcx⟩ := at?_cons_eq_some_iff.1 h
    exact ⟨x, at?_cons_eq_some_iff.2 ⟨c, hchild identifier i c below rfl hc, hcx⟩, .refl hx⟩

theorem set_cases {y y' : Record} {key : String} {v : Value} (h : y.set key v = .ok y') :
    ∃ c, y.table.column? key = some c ∧ c.isLock = false ∧
      (c.primaryKey = true → y.isNew = false → y.key.same v = true) ∧ y' = y.assign c.name v := by
  unfold set at h
  cases hc : y.table.column? key with
  | none =>
    simp only [hc] at h
    cases h
  | some c =>
    simp only [hc] at h
    split at h
    · cases h
    · rename_i hlock
      split at h
      · cases h
      · rename_i hguard
        cases h
        refine ⟨c, rfl, by simpa using hlock, fun hpk hnew => ?_, rfl⟩
        simpa [hpk, hnew] using hguard

/-- Setting a column keeps a settled key. -/
theorem set_keeps {y y' : Record} (ht : y.table.Sound) {key : String} {v : Value}
    (h : y.set key v = .ok y') (hy : y.Fixed) : y.Keeps y' := by
  obtain ⟨c, hc, -, hguard, rfl⟩ := set_cases h
  by_cases hname : c.name = y.table.primaryKey.name
  · -- the guard lets the key through that is there already
    obtain rfl := ht.column_eq (Table.mem_of_column? hc) y.table.primaryKey_mem hname
    have hholds : y.holds y.table.primaryKey.name v = true := by
      rw [holds, hy.find?_key]
      exact hguard y.table.primaryKey_primary hy.saved
    rw [assign_of_holds hholds]
    exact .refl hy
  · have hkey : (y.assign c.name v).key = y.key := by
      refine key_congr (assign_table ..) ?_
      rw [assign_table]
      exact find?_assign_of_ne v fun h => hname h.symm
    exact ⟨assign_table .., ⟨(assign_isNew ..).trans hy.saved, hkey ▸ hy.key⟩, hkey⟩

theorem setOne_eq_ok_iff {y y' : Record} {identifier : String} {target : Option Record} :
    y.setOne identifier target = .ok y' ↔
      y.isPlural? identifier = .ok false ∧ y' = y.replace identifier (.one target) := by
  rw [setOne, bind_eq_ok_iff, Bool.exists_bool]
  simp [fail, eq_comm]

theorem setMany_eq_ok_iff {y y' : Record} {identifier : String} {targets : List Record} :
    y.setMany identifier targets = .ok y' ↔
      y.isPlural? identifier = .ok true ∧ y' = y.replace identifier (.many targets) := by
  rw [setMany, bind_eq_ok_iff, Bool.exists_bool]
  simp [fail, eq_comm]

theorem related_replace (y : Record) (identifier : String) (related : Related Record) :
    (y.replace identifier related).related identifier = related.toList := by
  simp [Record.related, relation?, replace]

theorem sameRow_replace (y : Record) (identifier : String) (related : Related Record) :
    y.SameRow (y.replace identifier related) := ⟨rfl, rfl, rfl, rfl⟩

theorem child?_replace_of_ne (y : Record) {identifier other : String} (related : Related Record)
    (h : other ≠ identifier) (i : Nat) :
    (y.replace identifier related).child? other i = y.child? other i := by
  have hrel : (y.replace identifier related).related other = y.related other :=
    related_congr (NameMap.find?_insert_of_ne _ _ h)
  rw [child?, child?, hrel]

/-- Adding to a relation adds behind what is there. -/
theorem push_cases {y y' : Record} {identifier : String} {target : Record}
    (h : y.push identifier target = .ok y') : ∃ related more,
      y' = y.replace identifier related ∧ related.toList = y.related identifier ++ more := by
  obtain ⟨plural, -, h⟩ := bind_eq_ok_iff.1 h
  cases plural with
  | false => cases h
  | true =>
    simp only [if_true] at h
    have hrel : y.related identifier = ((y.relation? identifier).map Related.toList).getD [] := rfl
    cases hold : y.relation? identifier with
    | none =>
      simp only [hold, Except.ok.injEq] at h
      exact ⟨.many [target], [target], h.symm, by rw [hrel, hold]; rfl⟩
    | some old =>
      cases old with
      | one record =>
        simp only [hold, Except.ok.injEq] at h
        exact ⟨.one record, [], h.symm, by rw [hrel, hold, List.append_nil]; rfl⟩
      | many records =>
        simp only [hold, Except.ok.injEq] at h
        exact ⟨.many (records ++ [target]), [target], h.symm, by rw [hrel, hold]; rfl⟩

/-- Replacing a relation keeps what stands below the others. -/
theorem exists_keeps_replace {y x : Record} {identifier : String} {related : Related Record}
    {rest : Place} (hx : x.Fixed) (h : y.at? rest = some x)
    (hrest : ∀ i below, rest ≠ (identifier, i) :: below) :
    ∃ x', (y.replace identifier related).at? rest = some x' ∧ x.Keeps x' := by
  refine exists_keeps_of_child (sameRow_replace ..) hx h fun other i c below hr hc => ?_
  have hne : other ≠ identifier := by
    rintro rfl
    exact hrest i below hr
  rw [child?_replace_of_ne y related hne, hc]

/-- What leads to the followed record does not go through a relation that is replaced. -/
theorem rest_ne_of_not_isPrefix {p q rest : Place} {identifier : String}
    (h : ∀ i, ¬q ++ [(identifier, i)] <+: p) (hp : p = q ++ rest) (i : Nat) (below : Place) :
    rest ≠ (identifier, i) :: below := by
  rintro rfl
  refine h i ⟨below, ?_⟩
  rw [hp, List.append_assoc]
  rfl

/-- One step of a program keeps the key of the followed record. -/
theorem Step.keeps {tables : List Table} (ht : Schema.SoundTables tables)
    {a b : Tracked × σ} (h : Step db tables KeysAligned a b) {x : Record}
    (hp : a.1.graph.at? a.1.place = some x) (hx : x.Fixed) :
    ∃ x', b.1.graph.at? b.1.place = some x' ∧ x.Keeps x' := by
  cases h with
  | @set g y y' p q key v s hq hmem hset =>
    refine exists_keeps_putAt hq hp hx fun rest _ hy => ?_
    obtain ⟨c, -, -, -, rfl⟩ := set_cases hset
    cases rest with
    | nil =>
      cases hy
      exact ⟨_, rfl, set_keeps (ht.sound _ hmem) hset hx⟩
    | cons step below =>
      obtain ⟨identifier, i⟩ := step
      obtain ⟨d, hd, hdx⟩ := at?_cons_eq_some_iff.1 hy
      refine ⟨x, at?_cons_eq_some_iff.2 ⟨d, ?_, hdx⟩, .refl hx⟩
      have hrel : (y.assign c.name v).related identifier = y.related identifier :=
        related_congr (by rw [assign_slots])
      rw [child?, hrel]
      exact hd
  | setOne hq hpath hset =>
    rw [(setOne_eq_ok_iff.1 hset).2]
    exact exists_keeps_putAt hq hp hx fun rest hpr hy =>
      exists_keeps_replace hx hy (rest_ne_of_not_isPrefix hpath hpr)
  | setMany hq hpath hset =>
    rw [(setMany_eq_ok_iff.1 hset).2]
    exact exists_keeps_putAt hq hp hx fun rest hpr hy =>
      exists_keeps_replace hx hy (rest_ne_of_not_isPrefix hpath hpr)
  | @push g y y' p q identifier target s hq hpush =>
    obtain ⟨related, more, rfl, hmore⟩ := push_cases hpush
    refine exists_keeps_putAt hq hp hx fun rest _ hy => ?_
    refine exists_keeps_of_child (sameRow_replace ..) hx hy fun other i c below _ hc => ?_
    by_cases hne : other = identifier
    · subst hne
      have hlt := (List.getElem?_eq_some_iff.1 hc).1
      rw [child?, related_replace, hmore, List.getElem?_append_left hlt]
      exact hc
    · rw [child?_replace_of_ne y related hne, hc]
  | @save g y p q s hq hok =>
    refine exists_keeps_putAt hq hp hx fun rest _ hy => ?_
    obtain ⟨x', hx', ht, hfixed, hkey⟩ := KeysAligned.save db hok hy hx s
    exact ⟨x', hx', ht, hfixed, hkey⟩
  | attach hc =>
    exact ⟨x, at?_cons_eq_some_iff.2 ⟨_, hc, hp⟩, .refl hx⟩
  | detach hc =>
    obtain ⟨d, hd, hdx⟩ := at?_cons_eq_some_iff.1 hp
    obtain rfl := Option.some.inj (hc.symm.trans hd)
    exact ⟨x, hdx, .refl hx⟩

/-- **Settled keys.** Along every run of a program that saves graphs with aligned keys only, a
record that is saved and has a key keeps it. -/
theorem key_settled {d : SchemaDecl} {schema : Schema} (hs : Schema.ofDeclaration d = .ok schema)
    {a b : Tracked × σ}
    (h : Relation.ReflTransGen (Step db schema.tables KeysAligned) a b) {x : Record}
    (hp : a.1.graph.at? a.1.place = some x) (hx : x.Fixed) :
    ∃ x', b.1.graph.at? b.1.place = some x' ∧ x.Keeps x' := by
  have ht := Schema.ofDeclaration_sound hs
  induction h with
  | refl => exact ⟨x, hp, .refl hx⟩
  | tail _ hstep ih =>
    obtain ⟨y, hy, hxy⟩ := ih
    obtain ⟨z, hz, hyz⟩ := hstep.keeps db ht hy hxy.fixed
    exact ⟨z, hz, hyz.table.trans hxy.table, hyz.fixed, hyz.key.trans hxy.key⟩

end Record

/-! ## Accounts

Users have profiles, whose key is the key of their user. -/

namespace Accounts

def declaration : SchemaDecl where
  database := "accounts"
  tables := [
    ⟨"users", [⟨"id", none, .autoPrimaryKey, .column, false, true, false, none⟩], []⟩,
    ⟨"profiles", [⟨"user_id", none, .int64, .column, false, true, false, none⟩,
      ⟨"bio", none, .string, .column, true, false, false, none⟩],
      [⟨"user", "user_id", "users", some "profile"⟩]⟩]
  associations := []

/-- The user with a key, as it was loaded. -/
def user (t : Table) (key : Int64) : Record :=
  .loaded t (.ofList [("id", .int key)]) .empty .empty

def profile (t : Table) (key : Int64) : Record :=
  .loaded t (.ofList [("user_id", .int key)]) .empty .empty

/-- The schema with the tables of users and of profiles. -/
def tables : Except Error (Schema × Table × Table) := do
  let s ← Schema.ofDeclaration declaration
  let users ← s.requireTable "users"
  let profiles ← s.requireTable "profiles"
  .ok (s, users, profiles)

/-- What is known of these tables. -/
structure Known (users profiles : Table) : Prop where
  users_key : users.primaryKey.name = "id"
  profiles_key : profiles.primaryKey.name = "user_id"
  users_lock : users.lockColumn? = none
  profiles_lock : profiles.lockColumn? = none
  users_references : users.references = []
  profiles_reverses : profiles.reverses = []

theorem exists_tables : ∃ s users profiles, Schema.ofDeclaration declaration = .ok s ∧
    tables = .ok (s, users, profiles) ∧ Known users profiles := by
  have hall : (match tables with
      | .ok (_, users, profiles) => decide (
          users.primaryKey.name = "id" ∧ profiles.primaryKey.name = "user_id" ∧
          users.lockColumn? = none ∧ profiles.lockColumn? = none ∧ users.references = [] ∧
          profiles.reverses = [])
      | .error _ => false) = true := by decide +kernel
  match h : tables with
  | .error e =>
    rw [h] at hall
    cases hall
  | .ok (s, users, profiles) =>
    rw [h] at hall
    obtain ⟨h1, h2, h3, h4, h5, h6⟩ := of_decide_eq_true hall
    obtain ⟨s', hs, h'⟩ := bind_eq_ok_iff.1 h
    obtain ⟨_, _, h'⟩ := bind_eq_ok_iff.1 h'
    obtain ⟨_, _, h'⟩ := bind_eq_ok_iff.1 h'
    cases h'
    exact ⟨s, users, profiles, hs, rfl, h1, h2, h3, h4, h5, h6⟩

/-- A user with a profile attached. -/
def owner (users : Table) (key : Int64) (profile : Record) : Record :=
  .loaded users (.ofList [("id", .int key)]) .empty
    (.ofList [("profile", ⟨.one (some profile), false⟩)])

/-- A profile given to a user. -/
def given (users profiles : Table) : Except Error Record :=
  (profile profiles 7).setOne "user" (some (user users 1))

section
variable {users profiles : Table} (h : Known users profiles)
include h

theorem profile_key (key : Int64) : (profile profiles key).key = .int key := by
  simp only [Record.key, profile, Record.loaded, h.profiles_key]
  rfl

theorem profile_fixed (key : Int64) : (profile profiles key).Fixed :=
  ⟨rfl, by rw [profile_key h key]; exact Value.noConfusion⟩

theorem owner_key (key : Int64) (r : Record) : (owner users key r).key = .int key := by
  simp only [Record.key, owner, Record.loaded, h.users_key]
  rfl

/-- A profile of its own user is aligned. -/
theorem owner_aligned (key : Int64) : (owner users key (profile profiles key)).KeysAligned := by
  have hchild : ∀ identifier i c, (owner users key (profile profiles key)).child? identifier i
      = some c → c = profile profiles key := by
    intro identifier i c hc
    by_cases hp : identifier = "profile"
    · subst hp
      cases i with
      | zero => exact (Option.some.inj hc).symm
      | succ i => cases hc
    · have hslot : (owner users key (profile profiles key)).slots.find? identifier = none := by
        refine (NameMap.find?_insert_of_ne _ _ hp).trans rfl
      rw [Record.child?, Record.related_eq_nil hslot] at hc
      cases hc
  refine .mk ⟨fun lock hl => ?_, fun _ reference hr => ?_, fun reverse _ i c hc _ _ => ?_⟩
    fun identifier i c hc => .mk ⟨fun lock hl => ?_, fun _ reference _ _ slot hs => ?_,
      fun reverse hr => ?_⟩ fun name k d hd => ?_
  · rw [show (owner users key (profile profiles key)).table = users from rfl, h.users_lock] at hl
    cases hl
  · rw [show (owner users key (profile profiles key)).table = users from rfl,
      h.users_references] at hr
    cases hr
  · rw [hchild _ i c hc, profile_key h, owner_key h]
    exact ⟨⟨rfl, by rw [owner_key h]; exact Value.noConfusion⟩, by simp [Value.same]⟩
  · rw [hchild _ i c hc, show (profile profiles key).table = profiles from rfl,
      h.profiles_lock] at hl
    cases hl
  · rw [hchild _ i c hc] at hs
    cases hs
  · rw [hchild _ i c hc, show (profile profiles key).table = profiles from rfl,
      h.profiles_reverses] at hr
    cases hr
  · rw [hchild _ i c hc, Record.child?, Record.related_eq_nil rfl] at hd
    cases hd

end

end Accounts

namespace Record

open Accounts

/-- A profile is attached to its user, who is saved. -/
theorem profile_settled : ∃ s users profiles, Accounts.tables = .ok (s, users, profiles) ∧
    ∃ b, Relation.ReflTransGen (Step (Script.connection .sqlite) s.tables KeysAligned)
        (⟨profile profiles 7, []⟩, Script.start []) b ∧ b.1.place = [("profile", 0)] ∧
      (profile profiles 7).Fixed ∧
        ∃ x', b.1.graph.at? b.1.place = some x' ∧ (profile profiles 7).Keeps x' := by
  obtain ⟨s, users, profiles, hs, ht, h⟩ := exists_tables
  let db := Script.connection .sqlite
  let start : Tracked × Script := (⟨profile profiles 7, []⟩, Script.start [])
  have hattach : Step db s.tables KeysAligned start
      (⟨owner users 7 (profile profiles 7), [("profile", 0)]⟩, Script.start []) := .attach rfl
  have hrun := (Relation.ReflTransGen.single hattach).tail
    (.save (q := []) rfl (owner_aligned h 7))
  exact ⟨s, users, profiles, ht, _, hrun, rfl, profile_fixed h 7,
    key_settled db hs hrun rfl (profile_fixed h 7)⟩

/-- Saving a profile that was given to another user changes its key. -/
theorem exists_key_changed : ∃ s users profiles g, Accounts.tables = .ok (s, users, profiles) ∧
    given users profiles = .ok g ∧ ∃ b x',
      Relation.ReflTransGen (Step (Script.connection .sqlite) s.tables fun _ => True)
        (⟨profile profiles 7, []⟩, Script.start []) b ∧
      (profile profiles 7).Fixed ∧ (profile profiles 7).key = .int 7 ∧
        b.1.graph.at? b.1.place = some x' ∧ x'.Fixed ∧ x'.key = .int 1 := by
  obtain ⟨s, users, profiles, hs, ht, h⟩ := exists_tables
  have hall : (match (do
      let (_, users, profiles) ← Accounts.tables
      given users profiles : Except Error Record) with
      | .ok g => decide ((save (Script.connection .sqlite) (g, Script.start [])).2.1.key = .int 1 ∧
          (save (Script.connection .sqlite) (g, Script.start [])).2.1.isNew = false)
      | .error _ => false) = true := by decide +kernel
  rw [ht] at hall
  match hg : given users profiles with
  | .error e =>
    simp only [bind, Except.bind, hg] at hall
    cases hall
  | .ok g =>
    simp only [bind, Except.bind, hg] at hall
    obtain ⟨hkey, hsaved⟩ := of_decide_eq_true hall
    let db := Script.connection .sqlite
    let start : Tracked × Script := (⟨profile profiles 7, []⟩, Script.start [])
    have hset : Step db s.tables (fun _ => True) start (⟨g, []⟩, Script.start []) :=
      .setOne (q := []) rfl (fun i hi => by simp at hi) hg
    have hrun := (Relation.ReflTransGen.single hset).tail (.save (q := []) rfl trivial)
    exact ⟨s, users, profiles, g, ht, hg, _, _, hrun, profile_fixed h 7, profile_key h 7, rfl,
      ⟨hsaved, fun hnull => Value.noConfusion (hkey.symm.trans hnull)⟩, hkey⟩

end Record

end RecordGraph
