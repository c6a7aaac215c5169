import Mathlib.Data.List.Pairwise
import RecordGraph.Connection.Basic
import RecordGraph.Proofs.Sql.LeftJoin

/-!
# A table under guarded writes

The store of one table with a lock column: its rows, the writes so far, and the state of the
strategy that gives versions. A guarded write meets the rows whose columns are equal to the guard.

* `Store.Valid`: keys tell the rows apart, and versions are integers.
* `Store.Tracks`: what a key and a version, known since some point of the log, still say about the
  row; `Tracks.write` and `Tracks.insert` carry it through every write.
-/
namespace RecordGraph.Locking

/-- A write that took effect, by the key of its row. -/
inductive Write where
  | insert (key : Value)
  | update (key : Value)
  | delete (key : Value)

def Write.key : Write → Value
  | .insert k | .update k | .delete k => k

/-- One table: its rows, all writes since the start, and what the version strategy remembers. -/
structure Store (τ : Type) where
  rows : List Tuple
  log : List Write
  versions : τ

/-- A row meets a guard: every guarded column is equal to its value. -/
def meets (eq : Equality) (guard : List Field) (x : Tuple) : Bool :=
  guard.all fun f => eq.holds (x f.column.name) f.value

/-- A row with new values in some columns. -/
def assign (fields : List Field) (x : Tuple) : Tuple :=
  fields.foldl (fun x f c => if c = f.column.name then f.value else x c) x

/-- A column that no field is for stays. -/
theorem assign_of_ne {fields : List Field} {c : String} :
    ∀ {x : Tuple}, (∀ f ∈ fields, f.column.name ≠ c) → assign fields x c = x c := by
  induction fields with
  | nil => intro x _; rfl
  | cons f fields ih =>
    intro x h
    rw [assign, List.foldl_cons, ← assign, ih fun g hg => h g (List.mem_cons_of_mem _ hg),
      if_neg (h f List.mem_cons_self).symm]

/-- The last field counts. -/
theorem assign_concat (fields : List Field) (f : Field) (x : Tuple) :
    assign (fields ++ [f]) x f.column.name = f.value := by
  rw [assign, List.foldl_append, List.foldl_cons, List.foldl_nil, if_pos rfl]

namespace Store

variable {τ : Type}

section
variable (eq : Equality) (table : Table)

/-- The rows that a guarded write meets. -/
def hits (s : Store τ) (guard : List Field) : List Tuple := s.rows.filter (meets eq guard)

def update (s : Store τ) (set guard : List Field) : Store τ :=
  { s with
    rows := s.rows.map fun x => if meets eq guard x then assign set x else x
    log := s.log ++ (s.hits eq guard).map fun x => .update (x table.primaryKey.name) }

def delete (s : Store τ) (guard : List Field) : Store τ :=
  { s with
    rows := s.rows.filter fun x => !meets eq guard x
    log := s.log ++ (s.hits eq guard).map fun x => .delete (x table.primaryKey.name) }

def insert (s : Store τ) (x : Tuple) : Store τ :=
  { s with rows := s.rows ++ [x], log := s.log ++ [.insert (x table.primaryKey.name)] }

/-- A write of a row with this key has taken effect since the log had `since` entries. -/
def WrittenSince (s : Store τ) (since : Nat) (k : Value) : Prop :=
  ∃ w ∈ s.log.drop since, eq.holds w.key k = true

/-- Keys tell the rows apart, every key is equal to itself, and versions are integers. -/
structure Valid (lock : Column) (s : Store τ) : Prop where
  unique : s.rows.Pairwise fun x y =>
    eq.holds (x table.primaryKey.name) (y table.primaryKey.name) = false
  key : ∀ x ∈ s.rows, eq.holds (x table.primaryKey.name) (x table.primaryKey.name) = true
  version : ∀ x ∈ s.rows, ∃ v, x lock.name = .int v

/-- What a key and the version `p`, known since `since`, say about the row: it is unchanged as long
as nothing was written to it, and has a later version, or is gone, after that. -/
structure Tracks (lock : Column) (s : Store τ) (since : Nat) (k : Value) (p : Int64) : Prop where
  since_le : since ≤ s.log.length
  fresh : ¬s.WrittenSince eq since k →
    ∃ x ∈ s.rows, eq.holds (x table.primaryKey.name) k = true ∧ x lock.name = .int p
  stale : s.WrittenSince eq since k → ∀ x ∈ s.rows, eq.holds (x table.primaryKey.name) k = true →
    ∃ v, x lock.name = .int v ∧ p < v
  known : (∃ x ∈ s.rows, eq.holds (x table.primaryKey.name) k = true) ∨
    ∃ k', Write.delete k' ∈ s.log ∧ eq.holds k' k = true

end

/-! ## Rows and keys -/

variable {eq : Equality} {table : Table} {lock : Column} {s : Store τ}

/-- A row is settled by its key. -/
theorem Valid.eq_of_holds (hv : s.Valid eq table lock) {x y : Tuple} (hx : x ∈ s.rows)
    (hy : y ∈ s.rows)
    (h : eq.holds (x table.primaryKey.name) (y table.primaryKey.name) = true) : x = y := by
  refine Classical.byContradiction fun hne => ?_
  have hsymm : Std.Symm fun x y : Tuple =>
      eq.holds (x table.primaryKey.name) (y table.primaryKey.name) = false :=
    ⟨fun a b hab => by
      rw [Bool.eq_false_iff] at hab ⊢
      exact fun hba => hab (eq.symm _ _ hba)⟩
  rw [hv.unique.forall hx hy hne] at h
  cases h

/-- Values that are equal to one value are equal. -/
theorem holds_of_common {a b c : Value} (h : eq.holds a c = true) (h' : eq.holds b c = true) :
    eq.holds a b = true := eq.trans _ _ _ h (eq.symm _ _ h')

/-- Both columns of a guard have to be equal. -/
theorem meets_pair {key lock : Column} {k : Value} {p : Int64} {x : Tuple} :
    meets eq [⟨key, k⟩, ⟨lock, .int p⟩] x = true ↔
      eq.holds (x key.name) k = true ∧ eq.holds (x lock.name) (.int p) = true := by
  simp [meets]

section
variable (hv : s.Valid eq table lock) {k : Value} {p : Int64}
include hv

/-- A guard with the stored version meets the row with its key. -/
theorem Valid.meets_iff {x : Tuple} (hx : x ∈ s.rows)
    (hk : eq.holds (x table.primaryKey.name) k = true) (hp : x lock.name = .int p) {y : Tuple}
    (hy : y ∈ s.rows) : meets eq [⟨table.primaryKey, k⟩, ⟨lock, .int p⟩] y = true ↔
      eq.holds (y table.primaryKey.name) k = true := by
  rw [meets_pair]
  refine ⟨And.left, fun h => ⟨h, ?_⟩⟩
  obtain rfl := hv.eq_of_holds hx hy (holds_of_common hk h)
  rw [hp, eq.int]
  simp

/-- It meets no other row. -/
theorem Valid.hits_eq {x : Tuple} (hx : x ∈ s.rows)
    (hk : eq.holds (x table.primaryKey.name) k = true) (hp : x lock.name = .int p) :
    s.hits eq [⟨table.primaryKey, k⟩, ⟨lock, .int p⟩] = [x] := by
  have hfilter : s.hits eq [⟨table.primaryKey, k⟩, ⟨lock, .int p⟩]
      = s.rows.filter fun y => eq.holds (y table.primaryKey.name) k :=
    List.filter_congr fun y hy => by
      rw [Bool.eq_iff_iff]
      exact hv.meets_iff hx hk hp hy
  have hmem : x ∈ s.rows.filter fun y => eq.holds (y table.primaryKey.name) k :=
    List.mem_filter.2 ⟨hx, hk⟩
  have hlen := eq.filter_length_le hv.unique (w := k)
  rw [hfilter]
  match hys : s.rows.filter fun y => eq.holds (y table.primaryKey.name) k with
  | [] => rw [hys] at hmem; cases hmem
  | [y] => rw [hys] at hmem; rw [hys, List.mem_singleton.1 hmem]
  | _ :: _ :: _ => rw [hys, List.length_cons, List.length_cons] at hlen; omega

omit hv in
/-- A guard with an older version meets nothing. -/
theorem hits_eq_nil (h : ∀ x ∈ s.rows, eq.holds (x table.primaryKey.name) k = true →
    ∃ v, x lock.name = .int v ∧ p < v) :
    s.hits eq [⟨table.primaryKey, k⟩, ⟨lock, .int p⟩] = [] := by
  refine List.filter_eq_nil_iff.2 fun x hx hmeets => ?_
  obtain ⟨hk, hp⟩ := meets_pair.1 hmeets
  obtain ⟨v, hv, hlt⟩ := h x hx hk
  rw [hv, eq.int, decide_eq_true_iff] at hp
  exact Int64.lt_irrefl (hp ▸ hlt)

end

/-- A write that meets nothing changes nothing. -/
theorem update_eq_self {set guard : List Field} (h : s.hits eq guard = []) :
    s.update eq table set guard = s := by
  have hrows : (s.rows.map fun x => if meets eq guard x then assign set x else x) = s.rows := by
    rw [List.map_congr_left fun x hx => if_neg (List.filter_eq_nil_iff.1 h x hx)]
    exact List.map_id' s.rows
  simp [update, h, hrows]

theorem delete_eq_self {guard : List Field} (h : s.hits eq guard = []) :
    s.delete eq table guard = s := by
  have hrows : (s.rows.filter fun x => !meets eq guard x) = s.rows :=
    List.filter_eq_self.2 fun x hx => by simpa using List.filter_eq_nil_iff.1 h x hx
  simp [delete, h, hrows]

/-- Rows with a key that is not the written one's stay as they were. -/
theorem holds_eq_false {x y : Tuple} {k₀ k : Value}
    (hk₀ : eq.holds (x table.primaryKey.name) k₀ = true)
    (hyk : eq.holds (y table.primaryKey.name) k = true)
    (hxk : eq.holds (x table.primaryKey.name) k ≠ true) :
    eq.holds (y table.primaryKey.name) k₀ = false := by
  rw [Bool.eq_false_iff]
  intro h
  exact hxk (eq.trans _ _ _ (holds_of_common hk₀ h) hyk)

/-! ## What was known, after a write -/

/-- A log with one entry more. -/
theorem writtenSince_concat (eq : Equality) {s s' : Store τ} {w : Write}
    (hlog : s'.log = s.log ++ [w]) {since : Nat} (hs : since ≤ s.log.length) {k : Value} :
    s'.WrittenSince eq since k ↔ s.WrittenSince eq since k ∨ eq.holds w.key k = true := by
  simp only [WrittenSince, hlog, List.drop_append_of_le_length hs, List.mem_append,
    List.mem_singleton]
  grind

/-- Nothing has been written since now. -/
theorem not_writtenSince_length (s : Store τ) (k : Value) :
    ¬s.WrittenSince eq s.log.length k := by
  simp [WrittenSince]

/-- What is read is known. -/
theorem Tracks.of_mem {x : Tuple} (hx : x ∈ s.rows) {p : Int64} (hp : x lock.name = .int p)
    {k : Value} (hk : eq.holds (x table.primaryKey.name) k = true) :
    s.Tracks eq table lock s.log.length k p where
  since_le := Nat.le_refl _
  fresh _ := ⟨x, hx, hk, hp⟩
  stale h := absurd h (s.not_writtenSince_length k)
  known := .inl ⟨x, hx, hk⟩

section
variable (hv : s.Valid eq table lock) {x : Tuple} (hx : x ∈ s.rows) {k₀ : Value} {p₀ : Int64}
  (hk₀ : eq.holds (x table.primaryKey.name) k₀ = true) (hp₀ : x lock.name = .int p₀)
include hv hx hk₀ hp₀

/-- An update with the stored version writes one row. -/
theorem Valid.update_eq (set : List Field) :
    s.update eq table set [⟨table.primaryKey, k₀⟩, ⟨lock, .int p₀⟩] = { s with
      rows := s.rows.map fun y =>
        if eq.holds (y table.primaryKey.name) k₀ then assign set y else y
      log := s.log ++ [.update (x table.primaryKey.name)] } := by
  rw [update, hv.hits_eq hx hk₀ hp₀]
  refine congrArg₂ (fun rows log => { s with rows, log }) (List.map_congr_left fun y hy => ?_) rfl
  simp only [hv.meets_iff hx hk₀ hp₀ hy]

theorem Valid.delete_eq :
    s.delete eq table [⟨table.primaryKey, k₀⟩, ⟨lock, .int p₀⟩] = { s with
      rows := s.rows.filter fun y => !eq.holds (y table.primaryKey.name) k₀
      log := s.log ++ [.delete (x table.primaryKey.name)] } := by
  rw [delete, hv.hits_eq hx hk₀ hp₀]
  refine congrArg₂ (fun rows log => { s with rows, log }) (List.filter_congr fun y hy => ?_) rfl
  have := hv.meets_iff hx hk₀ hp₀ hy
  rw [← Bool.eq_iff_iff] at this
  rw [this]

/-- After an update the rows are the old ones beside the written one. -/
theorem Valid.mem_update {set : List Field} {y : Tuple} :
    y ∈ (s.update eq table set [⟨table.primaryKey, k₀⟩, ⟨lock, .int p₀⟩]).rows ↔
      y = assign set x ∨ y ∈ s.rows ∧ eq.holds (y table.primaryKey.name) k₀ = false := by
  rw [hv.update_eq hx hk₀ hp₀, List.mem_map]
  constructor
  · rintro ⟨z, hz, rfl⟩
    split
    · rename_i hzk
      rw [hv.eq_of_holds hz hx (holds_of_common hzk hk₀)]
      exact .inl rfl
    · rename_i hzk
      exact .inr ⟨hz, by simpa using hzk⟩
  · rintro (rfl | ⟨hy, hyk⟩)
    · exact ⟨x, hx, if_pos hk₀⟩
    · exact ⟨y, hy, if_neg (by simp [hyk])⟩

theorem Valid.mem_delete {y : Tuple} :
    y ∈ (s.delete eq table [⟨table.primaryKey, k₀⟩, ⟨lock, .int p₀⟩]).rows ↔
      y ∈ s.rows ∧ eq.holds (y table.primaryKey.name) k₀ = false := by
  rw [hv.delete_eq hx hk₀ hp₀, List.mem_filter, Bool.not_eq_true']

/-- What was known before a write of one row is known after it, if the other rows stay and the
written one has a later version, or is gone. -/
theorem Tracks.write {s' : Store τ} {w : Write} (hlog : s'.log = s.log ++ [w])
    (hw : w.key = x table.primaryKey.name)
    (hkeep : ∀ y ∈ s.rows, eq.holds (y table.primaryKey.name) k₀ = false → y ∈ s'.rows)
    (hrows : ∀ z ∈ s'.rows, z ∈ s.rows ∧ eq.holds (z table.primaryKey.name) k₀ = false ∨
      z table.primaryKey.name = x table.primaryKey.name ∧ ∃ v, z lock.name = .int v ∧ p₀ < v)
    (hknown : (∃ z ∈ s'.rows, z table.primaryKey.name = x table.primaryKey.name) ∨
      w = .delete (x table.primaryKey.name))
    {since : Nat} {k : Value} {p : Int64} (ht : s.Tracks eq table lock since k p) :
    s'.Tracks eq table lock since k p := by
  have hwritten : s'.WrittenSince eq since k ↔
      s.WrittenSince eq since k ∨ eq.holds (x table.primaryKey.name) k = true := by
    rw [← hw]
    exact writtenSince_concat eq hlog ht.since_le
  refine ⟨?_, fun hws => ?_, fun hws z hz hzk => ?_, ?_⟩
  · rw [hlog, List.length_append]
    exact Nat.le_add_right_of_le ht.since_le
  · rw [hwritten, not_or] at hws
    obtain ⟨y, hy, hyk, hyp⟩ := ht.fresh hws.1
    exact ⟨y, hkeep y hy (holds_eq_false hk₀ hyk hws.2), hyk, hyp⟩
  · rcases hrows z hz with ⟨hz, hzk₀⟩ | ⟨hzx, v, hzv, hlt⟩
    · refine ht.stale ((hwritten.1 hws).resolve_right fun hxk => ?_) z hz hzk
      have := eq.trans _ _ _ (holds_of_common hzk hxk) hk₀
      rw [hzk₀] at this
      cases this
    · -- the written row, whose version was `p₀`
      rw [hzx] at hzk
      refine ⟨v, hzv, ?_⟩
      by_cases hws' : s.WrittenSince eq since k
      · obtain ⟨v', hv', hlt'⟩ := ht.stale hws' x hx hzk
        rw [hp₀] at hv'
        cases hv'
        exact Int64.lt_trans hlt' hlt
      · obtain ⟨y, hy, hyk, hyp⟩ := ht.fresh hws'
        obtain rfl := hv.eq_of_holds hy hx (holds_of_common hyk hzk)
        rw [hp₀] at hyp
        cases hyp
        exact hlt
  · rcases ht.known with ⟨y, hy, hyk⟩ | ⟨k', hk', hk'k⟩
    · by_cases hyk₀ : eq.holds (y table.primaryKey.name) k₀ = true
      · obtain rfl := hv.eq_of_holds hy hx (holds_of_common hyk₀ hk₀)
        rcases hknown with ⟨z, hz, hzx⟩ | rfl
        · exact .inl ⟨z, hz, hzx.symm ▸ hyk⟩
        · exact .inr ⟨_, hlog ▸ List.mem_append_right _ (List.mem_singleton_self _), hyk⟩
      · exact .inl ⟨y, hkeep y hy (by simpa using hyk₀), hyk⟩
    · exact .inr ⟨k', hlog ▸ List.mem_append_left _ hk', hk'k⟩

theorem Tracks.update {set : List Field} {v : Int64} (hlt : p₀ < v)
    (hkey : assign set x table.primaryKey.name = x table.primaryKey.name)
    (hversion : assign set x lock.name = .int v) {since : Nat} {k : Value} {p : Int64}
    (ht : s.Tracks eq table lock since k p) :
    (s.update eq table set [⟨table.primaryKey, k₀⟩, ⟨lock, .int p₀⟩]).Tracks eq table lock
      since k p := by
  have hlog : (s.update eq table set [⟨table.primaryKey, k₀⟩, ⟨lock, .int p₀⟩]).log
      = s.log ++ [.update (x table.primaryKey.name)] := by rw [hv.update_eq hx hk₀ hp₀]
  refine ht.write hv hx hk₀ hp₀ hlog rfl (fun y hy hyk₀ => ?_) (fun z hz => ?_) (.inl ?_)
  · exact (hv.mem_update hx hk₀ hp₀).2 (.inr ⟨hy, hyk₀⟩)
  · rcases (hv.mem_update hx hk₀ hp₀).1 hz with rfl | hz
    · exact .inr ⟨hkey, v, hversion, hlt⟩
    · exact .inl hz
  · exact ⟨_, (hv.mem_update hx hk₀ hp₀).2 (.inl rfl), hkey⟩

theorem Tracks.delete {since : Nat} {k : Value} {p : Int64}
    (ht : s.Tracks eq table lock since k p) :
    (s.delete eq table [⟨table.primaryKey, k₀⟩, ⟨lock, .int p₀⟩]).Tracks eq table lock
      since k p := by
  have hlog : (s.delete eq table [⟨table.primaryKey, k₀⟩, ⟨lock, .int p₀⟩]).log
      = s.log ++ [.delete (x table.primaryKey.name)] := by rw [hv.delete_eq hx hk₀ hp₀]
  refine ht.write hv hx hk₀ hp₀ hlog rfl (fun y hy hyk₀ => ?_) (fun z hz => ?_) (.inr rfl)
  · exact (hv.mem_delete hx hk₀ hp₀).2 ⟨hy, hyk₀⟩
  · exact .inl ((hv.mem_delete hx hk₀ hp₀).1 hz)

theorem Valid.update {set : List Field} {v : Int64}
    (hkey : ∀ y, assign set y table.primaryKey.name = y table.primaryKey.name)
    (hversion : assign set x lock.name = .int v) :
    (s.update eq table set [⟨table.primaryKey, k₀⟩, ⟨lock, .int p₀⟩]).Valid eq table lock where
  unique := by
    rw [hv.update_eq hx hk₀ hp₀, List.pairwise_map]
    refine hv.unique.imp fun {y z} h => ?_
    split <;> split <;> simpa only [hkey] using h
  key := fun y hy => by
    rcases (hv.mem_update hx hk₀ hp₀).1 hy with rfl | ⟨hy, -⟩
    · rw [hkey]; exact hv.key x hx
    · exact hv.key y hy
  version := fun y hy => by
    rcases (hv.mem_update hx hk₀ hp₀).1 hy with rfl | ⟨hy, -⟩
    · exact ⟨v, hversion⟩
    · exact hv.version y hy

theorem Valid.delete :
    (s.delete eq table [⟨table.primaryKey, k₀⟩, ⟨lock, .int p₀⟩]).Valid eq table lock where
  unique := hv.unique.filter _
  key := fun y hy => hv.key y ((hv.mem_delete hx hk₀ hp₀).1 hy).1
  version := fun y hy => hv.version y ((hv.mem_delete hx hk₀ hp₀).1 hy).1

end

section
variable {x : Tuple} (hrows : ∀ y ∈ s.rows,
    eq.holds (y table.primaryKey.name) (x table.primaryKey.name) = false)
include hrows

/-- A new row under a key that was never used says nothing about the rows that were known. -/
theorem Tracks.insert
    (hdeleted : ∀ k', Write.delete k' ∈ s.log → eq.holds k' (x table.primaryKey.name) = false)
    {since : Nat} {k : Value} {p : Int64} (ht : s.Tracks eq table lock since k p) :
    (s.insert table x).Tracks eq table lock since k p := by
  have hxk : eq.holds (x table.primaryKey.name) k ≠ true := by
    intro h
    rcases ht.known with ⟨y, hy, hyk⟩ | ⟨k', hk', hk'k⟩
    · have := holds_of_common hyk h
      rw [hrows y hy] at this
      cases this
    · have := holds_of_common hk'k h
      rw [hdeleted k' hk'] at this
      cases this
  have hlog : (s.insert table x).log = s.log ++ [.insert (x table.primaryKey.name)] := rfl
  have hiff : (s.insert table x).WrittenSince eq since k ↔ s.WrittenSince eq since k :=
    (writtenSince_concat eq hlog ht.since_le).trans (or_iff_left hxk)
  refine ⟨?_, fun hw => ?_, fun hw z hz hzk => ?_, ?_⟩
  · rw [Store.insert, List.length_append]
    exact Nat.le_add_right_of_le ht.since_le
  · obtain ⟨y, hy, hyk⟩ := ht.fresh (hiff.not.1 hw)
    exact ⟨y, List.mem_append_left _ hy, hyk⟩
  · rcases List.mem_append.1 hz with hz | hz
    · exact ht.stale (hiff.1 hw) z hz hzk
    · exact absurd (List.mem_singleton.1 hz ▸ hzk) hxk
  · rcases ht.known with ⟨y, hy, hyk⟩ | ⟨k', hk', hk'k⟩
    · exact .inl ⟨y, List.mem_append_left _ hy, hyk⟩
    · exact .inr ⟨k', List.mem_append_left _ hk', hk'k⟩

theorem Valid.insert (hv : s.Valid eq table lock)
    (hkey : eq.holds (x table.primaryKey.name) (x table.primaryKey.name) = true) {v : Int64}
    (hversion : x lock.name = .int v) : (s.insert table x).Valid eq table lock where
  unique := List.pairwise_append.2 ⟨hv.unique, List.pairwise_singleton _ _, fun y hy z hz =>
    List.mem_singleton.1 hz ▸ hrows y hy⟩
  key := fun y hy => by
    rcases List.mem_append.1 hy with hy | hy
    · exact hv.key y hy
    · exact List.mem_singleton.1 hy ▸ hkey
  version := fun y hy => by
    rcases List.mem_append.1 hy with hy | hy
    · exact hv.version y hy
    · exact ⟨v, List.mem_singleton.1 hy ▸ hversion⟩

end

end Store

end RecordGraph.Locking
