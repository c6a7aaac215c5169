import RecordGraph.Proofs.Locking.Added
import RecordGraph.Proofs.Locking.Interleaving

/-!
# Keys that are used again

Versions that count begin anew with every row. A client may hold a copy of a row that is gone while
others add a row under the same key, and write to it: the copy's guard names a key and a version,
and it meets the new row when that has come to the same version.

* `versionAfter`: the version that the writes of a log leave under a key.
* `Move`: what one client does next, new records with any key included; `Counted.step`,
  `Counted.reachable`.
* `stale_copy`: after its row was deleted, a copy is refused exactly when no row has been added
  under its key since, or that row is at another version than the copy.
-/
namespace RecordGraph

namespace Locking

variable {τ : Type}

/-! ## Versions by the log -/

/-- The version of a row after a write, where it had one before. -/
def Write.version : Write → Option Int64 → Option Int64
  | .insert _, _ => some 1
  | .update _, v => v.map Versions.succ
  | .delete _, _ => none

def Write.isDelete : Write → Bool
  | .delete _ => true
  | _ => false

/-- The version that is stored under a key after these writes, if there was no row before. -/
def versionAfter (eq : Equality) (k : Value) (log : List Write) : Option Int64 :=
  log.foldl (fun v w => if eq.holds w.key k then w.version v else v) none

theorem versionAfter_concat (eq : Equality) (k : Value) (log : List Write) (w : Write) :
    versionAfter eq k (log ++ [w]) =
      if eq.holds w.key k then w.version (versionAfter eq k log) else versionAfter eq k log := by
  rw [versionAfter, List.foldl_append]
  rfl

namespace Store

section
variable (eq : Equality) (table : Table) (lock : Column)

/-- The row under a key was deleted since the log had `since` entries. -/
def DeletedSince (s : Store τ) (since : Nat) (k : Value) : Prop :=
  ∃ w ∈ s.log.drop since, w.isDelete = true ∧ eq.holds w.key k = true

instance (s : Store τ) (since : Nat) (k : Value) : Decidable (s.DeletedSince eq since k) :=
  inferInstanceAs (Decidable (∃ w ∈ s.log.drop since, w.isDelete = true ∧ eq.holds w.key k = true))

/-- The row under a key has this version. -/
def HasVersion (s : Store τ) (k : Value) (v : Int64) : Prop :=
  ∃ x ∈ s.rows, eq.holds (x table.primaryKey.name) k = true ∧ x lock.name = .int v

/-- Once the row under a key was deleted, the log tells the version that is stored under it. -/
structure Recounted (s : Store τ) (since : Nat) (k : Value) : Prop where
  since_le : since ≤ s.log.length
  counted : s.DeletedSince eq since k → ∀ v,
    s.HasVersion eq table lock k v ↔ versionAfter eq k (s.log.drop since) = some v

end

variable {eq : Equality} {table : Table} {lock : Column} {s s' : Store τ} {since : Nat} {k : Value}

theorem deletedSince_concat {w : Write} (hlog : s'.log = s.log ++ [w])
    (hs : since ≤ s.log.length) : s'.DeletedSince eq since k ↔
      s.DeletedSince eq since k ∨ w.isDelete = true ∧ eq.holds w.key k = true := by
  simp only [DeletedSince, hlog, List.drop_append_of_le_length hs, List.mem_append,
    List.mem_singleton]
  grind

/-- Rows with a key have one version. -/
theorem Valid.hasVersion_iff (hv : s.Valid eq table lock) {x : Tuple} (hx : x ∈ s.rows) {p : Int64}
    (hxk : eq.holds (x table.primaryKey.name) k = true) (hxp : x lock.name = .int p) (v : Int64) :
    s.HasVersion eq table lock k v ↔ v = p := by
  constructor
  · rintro ⟨y, hy, hyk, hyv⟩
    obtain rfl := hv.eq_of_holds hx hy (holds_of_common hxk hyk)
    rw [hxp] at hyv
    cases hyv
    rfl
  · rintro rfl
    exact ⟨x, hx, hxk, hxp⟩

namespace Recounted

/-- Nothing was deleted since now. -/
theorem of_length (s : Store τ) (k : Value) : s.Recounted eq table lock s.log.length k where
  since_le := Nat.le_refl _
  counted h := by
    obtain ⟨w, hw, -⟩ := h
    rw [List.drop_length] at hw
    cases hw

variable (h : s.Recounted eq table lock since k)
include h

theorem same (hs : s.Same s') : s'.Recounted eq table lock since k := by
  obtain ⟨t, rfl⟩ := hs
  exact ⟨h.since_le, h.counted⟩

/-- One write more: under its own key the version goes on as the log says. -/
theorem concat {w : Write} (hlog : s'.log = s.log ++ [w])
    (hother : eq.holds w.key k = false →
      ∀ v, s'.HasVersion eq table lock k v ↔ s.HasVersion eq table lock k v)
    (hself : eq.holds w.key k = true → ∀ o : Option Int64,
      (w.isDelete = false → ∀ v, s.HasVersion eq table lock k v ↔ o = some v) →
        ∀ v, s'.HasVersion eq table lock k v ↔ w.version o = some v) :
    s'.Recounted eq table lock since k where
  since_le := by
    rw [hlog, List.length_append]
    exact Nat.le_add_right_of_le h.since_le
  counted hdel := by
    rw [deletedSince_concat hlog h.since_le] at hdel
    rw [hlog, List.drop_append_of_le_length h.since_le, versionAfter_concat]
    by_cases hk : eq.holds w.key k = true
    · rw [if_pos hk]
      refine hself hk _ fun hw => h.counted (hdel.resolve_right fun hd => ?_)
      rw [hw] at hd
      cases hd.1
    · rw [if_neg hk]
      have hdel := hdel.resolve_right fun hd => hk hd.2
      intro v
      rw [hother (by simpa using hk) v]
      exact h.counted hdel v

section
variable {x : Tuple} (hrows : ∀ y ∈ s.rows,
  eq.holds (y table.primaryKey.name) (x table.primaryKey.name) = false)
include hrows

theorem insert (hversion : x lock.name = .int 1) :
    (s.insert table x).Recounted eq table lock since k := by
  refine h.concat (w := .insert (x table.primaryKey.name)) rfl (fun hk v => ?_) fun hk o _ v => ?_
  · constructor
    · rintro ⟨y, hy, hyk, hyv⟩
      rcases List.mem_append.1 hy with hy | hy
      · exact ⟨y, hy, hyk, hyv⟩
      · obtain rfl := List.mem_singleton.1 hy
        rw [Write.key, hyk] at hk
        cases hk
    · rintro ⟨y, hy, hyk, hyv⟩
      exact ⟨y, List.mem_append_left _ hy, hyk, hyv⟩
  · rw [Write.key] at hk
    rw [Write.version, Option.some.injEq]
    constructor
    · rintro ⟨y, hy, hyk, hyv⟩
      rcases List.mem_append.1 hy with hy | hy
      · have := hrows y hy
        rw [holds_of_common hyk hk] at this
        cases this
      · obtain rfl := List.mem_singleton.1 hy
        rw [hversion] at hyv
        cases hyv
        rfl
    · rintro rfl
      exact ⟨x, List.mem_append_right _ (List.mem_singleton_self x), hk, hversion⟩

end

section
variable (hv : s.Valid eq table lock) {x : Tuple} (hx : x ∈ s.rows) {k₀ : Value} {p₀ : Int64}
  (hk₀ : eq.holds (x table.primaryKey.name) k₀ = true) (hp₀ : x lock.name = .int p₀)
include hv hx hk₀ hp₀

theorem update {set : List Field}
    (hkey : assign set x table.primaryKey.name = x table.primaryKey.name)
    (hversion : assign set x lock.name = .int (Versions.succ p₀)) :
    (s.update eq table set [⟨table.primaryKey, k₀⟩, ⟨lock, .int p₀⟩]).Recounted eq table lock
      since k := by
  have hlog : (s.update eq table set [⟨table.primaryKey, k₀⟩, ⟨lock, .int p₀⟩]).log
      = s.log ++ [.update (x table.primaryKey.name)] := by rw [hv.update_eq hx hk₀ hp₀]
  refine h.concat hlog (fun hk v => ?_) fun hk o ho v => ?_
  · rw [Write.key] at hk
    constructor
    · rintro ⟨y, hy, hyk, hyv⟩
      rcases (hv.mem_update hx hk₀ hp₀).1 hy with rfl | hy
      · rw [hkey, hk] at hyk
        cases hyk
      · exact ⟨y, hy.1, hyk, hyv⟩
    · rintro ⟨y, hy, hyk, hyv⟩
      have hyk₀ := holds_eq_false hk₀ hyk (by simp [hk])
      exact ⟨y, (hv.mem_update hx hk₀ hp₀).2 (.inr ⟨hy, hyk₀⟩), hyk, hyv⟩
  · rw [Write.key] at hk
    obtain rfl := (ho rfl p₀).1 ((hv.hasVersion_iff hx hk hp₀ p₀).2 rfl)
    rw [Write.version, Option.map_some, Option.some.injEq]
    constructor
    · rintro ⟨y, hy, hyk, hyv⟩
      rcases (hv.mem_update hx hk₀ hp₀).1 hy with rfl | ⟨hy, hyk₀⟩
      · rw [hversion] at hyv
        cases hyv
        rfl
      · have := eq.trans _ _ _ (holds_of_common hyk hk) hk₀
        rw [hyk₀] at this
        cases this
    · rintro rfl
      exact ⟨_, (hv.mem_update hx hk₀ hp₀).2 (.inl rfl), hkey.symm ▸ hk, hversion⟩

theorem delete :
    (s.delete eq table [⟨table.primaryKey, k₀⟩, ⟨lock, .int p₀⟩]).Recounted eq table lock
      since k := by
  have hlog : (s.delete eq table [⟨table.primaryKey, k₀⟩, ⟨lock, .int p₀⟩]).log
      = s.log ++ [.delete (x table.primaryKey.name)] := by rw [hv.delete_eq hx hk₀ hp₀]
  refine h.concat hlog (fun hk v => ?_) fun hk o _ v => ?_
  · rw [Write.key] at hk
    constructor
    · rintro ⟨y, hy, hyk, hyv⟩
      exact ⟨y, ((hv.mem_delete hx hk₀ hp₀).1 hy).1, hyk, hyv⟩
    · rintro ⟨y, hy, hyk, hyv⟩
      have hyk₀ := holds_eq_false hk₀ hyk (by simp [hk])
      exact ⟨y, (hv.mem_delete hx hk₀ hp₀).2 ⟨hy, hyk₀⟩, hyk, hyv⟩
  · rw [Write.key] at hk
    rw [Write.version]
    constructor
    · rintro ⟨y, hy, hyk, -⟩
      obtain ⟨-, hyk₀⟩ := (hv.mem_delete hx hk₀ hp₀).1 hy
      have := eq.trans _ _ _ (holds_of_common hyk hk) hk₀
      rw [hyk₀] at this
      cases this
    · intro hnone
      cases hnone

end

end Recounted

end Store

/-! ## What clients do -/

/-- The world after one of its copies is saved; the copy is as old as before. -/
def World.resave (db : Connection (Store τ)) (w : World τ) (i : Nat) (c : Copy) : World τ where
  store := (Record.save db (c.record, w.store)).2.2
  copies := w.copies.set i ⟨(Record.save db (c.record, w.store)).2.1, c.since⟩

/-- The world after a new record is saved. It is a copy of its row from then on; a key that is equal
to nothing finds no row. -/
def World.add (eq : Equality) (db : Connection (Store τ)) (w : World τ) (r : Record) : World τ :=
  let (outcome, (r, s)) := Record.save db (r, w.store)
  { store := s
    copies := if outcome.isOk && eq.holds r.key r.key then w.copies ++ [⟨r, s.log.length⟩]
      else w.copies }

/-- A new record is the last of the copies, or none. -/
theorem World.exists_copies_add (eq : Equality) (db : Connection (Store τ)) (w : World τ)
    (r : Record) : ∃ cs, (w.add eq db r).copies = w.copies ++ cs := by
  unfold World.add
  rcases Record.save db (r, w.store) with ⟨o, r', s⟩
  dsimp only
  split
  · exact ⟨_, rfl⟩
  · exact ⟨[], (List.append_nil _).symm⟩

section
variable (eq : Equality) (table : Table) (lock : Column) (db : Connection (Store τ))

/-- What one client does next. The time of a copy is when its row was read or added. -/
inductive Move (w : World τ) : World τ → Prop where
  | load {x : Tuple} {values calculations : NameMap Value} (hx : x ∈ w.store.rows)
      (hvalues : ∀ name v, values.find? name = some v → v = x name)
      (hkey : values.contains table.primaryKey.name = true)
      (hversion : values.contains lock.name = true) :
      Move w { w with copies :=
        w.copies ++ [⟨.loaded table values calculations .empty, w.store.log.length⟩] }
  | set {i : Nat} {c : Copy} {r : Record} {name : String} {v : Value}
      (hc : w.copies[i]? = some c) (hset : c.record.set name v = .ok r) :
      Move w { w with copies := w.copies.set i ⟨r, c.since⟩ }
  | save {i : Nat} {c : Copy} (hc : w.copies[i]? = some c) : Move w (w.resave db i c)
  | delete {c : Copy} (hc : c ∈ w.copies) :
      Move w { w with store := (Record.delete db c.record w.store).2 }
  | add {r : Record} (hr : Unsaved table r) : Move w (w.add eq db r)

/-- A copy under a key, whose versions the log tells. -/
structure Copy.Followed (s : Store τ) (c : Copy) : Prop where
  self : eq.holds c.record.key c.record.key = true
  held : ∃ p, Held table lock c.record c.record.key p
  recounted : s.Recounted eq table lock c.since c.record.key

/-- The rows are settled by their keys, and every copy is followed. -/
structure Counted (w : World τ) : Prop where
  valid : w.store.Valid eq table lock
  followed : ∀ c ∈ w.copies, c.Followed eq table lock w.store

end

variable {eq : Equality} {table : Table} {lock : Column} {db : Connection (Store τ)}

/-! ## A copy against the rows -/

namespace Held

variable {r : Record} {k : Value} {p : Int64} {s : Store τ} (hh : Held table lock r k p)
include hh

/-- The guard of a copy meets nothing unless its version is stored under its key. -/
theorem hits_eq_nil_of_not_hasVersion (hv : s.Valid eq table lock)
    (hn : ¬s.HasVersion eq table lock k p) :
    s.hits eq [⟨table.primaryKey, r.key⟩, ⟨lock, .int p⟩] = [] := by
  refine List.filter_eq_nil_iff.2 fun x hx hmeets => hn ?_
  obtain ⟨hxk, hxp⟩ := Store.meets_pair.1 hmeets
  obtain ⟨v, hxv⟩ := hv.version x hx
  rw [hxv, eq.int, decide_eq_true_iff] at hxp
  exact ⟨x, hx, hh.key_eq ▸ hxk, hxp ▸ hxv⟩

end Held

namespace Counted

variable {w : World τ} (hw : Counted eq table lock w)
include hw

/-- The same copies over a new store, beside some that are followed there. -/
theorem replace {w' : World τ} (hv : w'.store.Valid eq table lock)
    (hs : ∀ {since : Nat} {k : Value}, w.store.Recounted eq table lock since k →
      w'.store.Recounted eq table lock since k)
    (hc : ∀ c ∈ w'.copies, c ∈ w.copies ∨ c.Followed eq table lock w'.store) :
    Counted eq table lock w' where
  valid := hv
  followed c hmem := by
    rcases hc c hmem with h | h
    · obtain ⟨hself, hheld, hrecounted⟩ := hw.followed c h
      exact ⟨hself, hheld, hs hrecounted⟩
    · exact h

theorem load {x : Tuple} (hx : x ∈ w.store.rows) {values calculations : NameMap Value}
    (hvalues : ∀ name v, values.find? name = some v → v = x name)
    (hkey : values.contains table.primaryKey.name = true)
    (hversion : values.contains lock.name = true) :
    Counted eq table lock { w with copies :=
      w.copies ++ [⟨.loaded table values calculations .empty, w.store.log.length⟩] } := by
  refine hw.replace hw.valid id fun c hc => ?_
  rcases List.mem_append.1 hc with hc | hc
  · exact .inl hc
  · obtain rfl := List.mem_singleton.1 hc
    obtain ⟨k, hk⟩ := Option.isSome_iff_exists.1 hkey
    obtain ⟨v, hv⟩ := Option.isSome_iff_exists.1 hversion
    obtain ⟨p, hp⟩ := hw.valid.version x hx
    obtain rfl := hvalues _ _ hk
    obtain rfl := hvalues _ _ hv
    have hheld : Held table lock (.loaded table values calculations .empty)
        (x table.primaryKey.name) p := .of_loaded hk (hp ▸ hv)
    have hkey := hheld.key_eq
    exact .inr ⟨hkey.symm ▸ hw.valid.key x hx, ⟨p, hkey.symm ▸ hheld⟩, .of_length w.store _⟩

section
variable (hg : Guarded table lock)
include hg

theorem set {i : Nat} {c : Copy} (hc : w.copies[i]? = some c) {r : Record} {name : String}
    {v : Value} (hset : c.record.set name v = .ok r) :
    Counted eq table lock { w with copies := w.copies.set i ⟨r, c.since⟩ } := by
  obtain ⟨hself, ⟨p, hheld⟩, hrecounted⟩ := hw.followed c (List.mem_of_getElem? hc)
  have hheld' := hheld.set hg hset
  have hkey := hheld'.key_eq
  refine hw.replace hw.valid id fun c' hc' => ?_
  rcases List.mem_or_eq_of_mem_set hc' with hc' | rfl
  · exact .inl hc'
  · exact .inr ⟨hkey.symm ▸ hself, ⟨p, hkey.symm ▸ hheld'⟩, hkey.symm ▸ hrecounted⟩

variable (hs : Stores eq table db)
include hs

/-- **Saving.** The guard of a copy meets the row with its key and its version, or nothing. -/
theorem save {i : Nat} {c : Copy} (hc : w.copies[i]? = some c) :
    Counted eq table lock (w.resave db i c) := by
  have hmem := List.mem_of_getElem? hc
  obtain ⟨hself, ⟨p, hheld⟩, hrecounted⟩ := hw.followed c hmem
  have he := hs.toExecutes
  -- a copy that is not changed in a store that is
  have hkeep : ∀ {s : Store τ}, w.store.Same s → ∀ {o : Except Error Unit},
      Record.save db (c.record, w.store) = (o, c.record, s) →
        Counted eq table lock (w.resave db i c) := by
    intro s hsame o hsave
    obtain ⟨t, rfl⟩ := hsame
    unfold World.resave
    rw [hsave]
    refine hw.replace (hw.valid.versions t) (fun h => h.same ⟨t, rfl⟩) fun c' hc' => ?_
    rcases List.mem_or_eq_of_mem_set hc' with hc' | rfl
    · exact .inl hc'
    · exact .inl hmem
  by_cases hd : c.record.isDirty = true
  · by_cases hversion : w.store.HasVersion eq table lock c.record.key p
    · obtain ⟨x, hx, hxk, hxp⟩ := hversion
      obtain ⟨t, hsave⟩ := hheld.save_of_mem hg he hself hw.valid hx hxk hxp hd
      have hnext : (db.nextVersion (some p) w.store).1 = Versions.succ p :=
        hs.counts (some p) w.store
      simp only [hnext] at hsave
      have hkey := hheld.assign_key hg (Versions.succ p)
      have hassign : assign _ x lock.name = .int (Versions.succ p) :=
        assign_concat c.record.updateFields ⟨lock, _⟩ x
      have hwritten := hheld.written hg (Versions.succ p)
      have hkey' := hwritten.key_eq
      unfold World.resave
      rw [hsave]
      have hrecount : ∀ {since : Nat} {k : Value}, w.store.Recounted eq table lock since k →
          Store.Recounted eq table lock _ since k := fun h =>
        (h.update hw.valid hx hxk hxp (hkey x) hassign).same ⟨t, rfl⟩
      refine hw.replace ((hw.valid.update hx hxk hxp hkey hassign).versions t) hrecount
        fun c' hc' => ?_
      rcases List.mem_or_eq_of_mem_set hc' with hc' | rfl
      · exact .inl hc'
      · exact .inr ⟨hkey'.symm ▸ hself, ⟨_, hkey'.symm ▸ hwritten⟩,
          hkey'.symm ▸ hrecount hrecounted⟩
    · obtain ⟨t, hsave⟩ := hheld.save_refused_of_hits hg he hself
        (hheld.hits_eq_nil_of_not_hasVersion hw.valid hversion) hd
      exact hkeep ⟨t, rfl⟩ hsave
  · exact hkeep (.refl _) (hheld.save_unchanged db (by simpa using hd))

/-- **Deleting.** -/
theorem delete {c : Copy} (hc : c ∈ w.copies) :
    Counted eq table lock { w with store := (Record.delete db c.record w.store).2 } := by
  obtain ⟨hself, ⟨p, hheld⟩, -⟩ := hw.followed c hc
  have he := hs.toExecutes
  by_cases hversion : w.store.HasVersion eq table lock c.record.key p
  · obtain ⟨x, hx, hxk, hxp⟩ := hversion
    rw [hheld.delete_of_mem hg he hself hw.valid hx hxk hxp]
    exact hw.replace (hw.valid.delete hx hxk hxp) (fun h => h.delete hw.valid hx hxk hxp)
      fun _ hc => .inl hc
  · have hdelete : Record.delete db c.record w.store = _ := hheld.delete_refused_of_hits hg he hself
      (hheld.hits_eq_nil_of_not_hasVersion hw.valid hversion)
    rw [hdelete]
    exact hw

/-- **Adding.** The new row is at the first version, and no other row has its key. -/
theorem add {r : Record} (hr : Unsaved table r) : Counted eq table lock (w.add eq db r) := by
  obtain ⟨fields, hfirst, hadds⟩ := hs.save_adds hg hr w.store
  have hheld : ∀ {r' : Record} {s : Store τ}, Record.save db (r, w.store) = (.ok (), r', s) →
      eq.holds r'.key r'.key = true → Held table lock r' r'.key 1 := fun h => hs.save_held hg hr h
  unfold World.add
  rcases hsave : Record.save db (r, w.store) with ⟨o, r', s⟩
  rw [hsave] at hadds
  have hstore : s.Valid eq table lock ∧ ∀ {since : Nat} {k : Value},
      w.store.Recounted eq table lock since k → s.Recounted eq table lock since k := by
    rcases hadds with hsame | ⟨x, hsame, hself, hrows⟩
    · obtain ⟨t, rfl⟩ := hsame
      exact ⟨hw.valid.versions t, fun h => h.same ⟨t, rfl⟩⟩
    · obtain ⟨t, rfl⟩ := hsame
      exact ⟨(Store.Valid.insert hrows hw.valid hself (hfirst x)).versions t,
        fun h => (h.insert hrows (hfirst x)).same ⟨t, rfl⟩⟩
  refine hw.replace hstore.1 hstore.2 fun c hc => ?_
  simp only at hc
  split at hc
  · rename_i hok
    rw [Bool.and_eq_true] at hok
    rcases List.mem_append.1 hc with hc | hc
    · exact .inl hc
    · obtain rfl := List.mem_singleton.1 hc
      rcases o with e | ⟨⟩
      · cases hok.1
      · exact .inr ⟨hok.2, ⟨1, hheld hsave hok.2⟩, .of_length s _⟩
  · exact .inl hc

/-- **One step.** -/
theorem step {w' : World τ} (h : Move eq table lock db w w') : Counted eq table lock w' := by
  cases h with
  | load hx hvalues hkey hversion => exact hw.load hx hvalues hkey hversion
  | set hc hset => exact hw.set hg hc hset
  | save hc => exact hw.save hg hs hc
  | delete hc => exact hw.delete hg hs hc
  | add hr => exact hw.add hg hs hr

/-- **Every run.** -/
theorem reachable {w' : World τ} (h : Relation.ReflTransGen (Move eq table lock db) w w') :
    Counted eq table lock w' := by
  induction h with
  | refl => exact hw
  | tail _ hmove ih => exact ih.step hg hs hmove

end

end Counted

/-! ## Stale copies -/

/-- **Stale copies.** In every interleaving of clients: a copy whose row was deleted since it was
read takes effect exactly when a row has been added under its key and, by the writes since, is at
the copy's version; otherwise it is refused, and the rows and the copy stay as they were. -/
theorem stale_copy {d : SchemaDecl} {schema : Schema} (hd : Schema.ofDeclaration d = .ok schema)
    (htable : table ∈ schema.tables) (hlock : table.lockColumn? = some lock)
    (hkey : lock.primaryKey = false) (hs : Stores eq table db) {s : Store τ}
    (hv : s.Valid eq table lock) {w : World τ}
    (h : Relation.ReflTransGen (Move eq table lock db) ⟨s, []⟩ w) {c : Copy} (hc : c ∈ w.copies)
    (hdel : w.store.DeletedSince eq c.since c.record.key) :
    ∃ p, c.record.version lock = .ok p ∧
      (versionAfter eq c.record.key (w.store.log.drop c.since) = some p →
        (c.record.isDirty = true → Saves eq table lock db c.record w.store) ∧
          Deletes eq table db c.record w.store) ∧
      (versionAfter eq c.record.key (w.store.log.drop c.since) ≠ some p →
        (c.record.isDirty = true → SaveRefused table db c.record w.store) ∧
          DeleteRefused table db c.record w.store) := by
  have hg : Guarded table lock := ⟨(Schema.ofDeclaration_sound hd).sound table htable, hlock, hkey⟩
  have hinit : Counted eq table lock ⟨s, []⟩ := ⟨hv, by simp⟩
  have hw := hinit.reachable hg hs h
  have he := hs.toExecutes
  obtain ⟨hself, ⟨p, hheld⟩, hrecounted⟩ := hw.followed c hc
  refine ⟨p, hheld.version_eq, fun hp => ?_, fun hp => ?_⟩
  · obtain ⟨x, hx, hxk, hxp⟩ := (hrecounted.counted hdel p).2 hp
    exact ⟨hheld.saves_of_mem hg he hself hw.valid hx hxk hxp,
      hheld.deletes_of_mem hg he hself hw.valid hx hxk hxp⟩
  · have hhits := hheld.hits_eq_nil_of_not_hasVersion hw.valid
      fun hversion => hp ((hrecounted.counted hdel p).1 hversion)
    exact ⟨hheld.save_refused_of_hits hg he hself hhits,
      hheld.delete_refused_of_hits hg he hself hhits⟩

end Locking

/-! ## A book that is replaced -/

namespace Library

open Locking

/-- The database of one table, which counts versions and takes new rows with a key that no stored
row has. -/
def reusing : Connection (Store Versions) :=
  { database with
    execute := fun c s => match c with
      | .insert t fields _ =>
        let x := assign fields (tuple [])
        let k := x t.primaryKey.name
        if equality.holds k k && s.rows.all fun y => !equality.holds (y t.primaryKey.name) k then
          (.ok 1, s.insert t x)
        else (.error (.uniqueValue t.name none), s)
      | c => database.execute c s
    nextVersion := fun previous s =>
      let (v, versions) := (Versions.fresh .increment).next 0 previous
      (v, { s with versions }) }

theorem reusing_stores (table : Table) : Stores equality table reusing where
  update _ _ _ := rfl
  delete _ _ := rfl
  nextVersion _ _ := ⟨_, rfl⟩
  execute_insert fields returning s := by
    simp only [reusing]
    split
    · rename_i h
      rw [Bool.and_eq_true] at h
      refine .inr ⟨tuple [], .refl _, h.1, fun y hy => ?_⟩
      simpa using List.all_eq_true.1 h.2 y hy
    · exact .inl (.refl s)
  query_insert _ _ s := .inl (.refl s)
  release s := .refl s
  lastInsertId s := .refl s
  freshUuid s := .refl s
  freshUlid s := .refl s
  counts previous s := rfl

/-- A table of a schema, two copies of its first row, and a record with the same key. -/
structure Readers where
  schema : Schema
  table : Table
  lock : Column
  first : Record
  second : Record
  other : Record

/-- Two copies of the book, and another book with its key. -/
def reuse : Except Error Readers := do
  let (schema, table, lock, first, second) ← race
  let other ← Record.withFields table [("id", .int 1), ("title", .text "Sand")]
  .ok { schema, table, lock, first, second, other }

namespace Readers

variable (z : Readers)

/-- The second reader deletes the book, and the other one takes its place. -/
def replaced : World Versions :=
  World.add equality reusing
    { readers z.first z.second with store := (Record.delete reusing z.second shelf).2 } z.other

/-- The first reader writes to the book that took the place. -/
def overwritten : World Versions := z.replaced.resave reusing 0 ⟨z.first, 0⟩

end Readers

theorem exists_reuse : ∃ z, reuse = .ok z ∧
    (z.table ∈ z.schema.tables ∧ z.table.primaryKey.name = "id" ∧ z.lock.name = "version" ∧
      z.lock.primaryKey = false ∧ z.other.table = z.table ∧ z.other.isNew = true ∧
      z.other.slots.entries.length = 0) ∧
    (z.first.isDirty = true ∧ (z.first.version z.lock).toOption = some 1 ∧
      z.replaced.store.DeletedSince equality 0 z.first.key ∧
      versionAfter equality z.first.key (z.replaced.store.log.drop 0) = some 1) ∧
    (z.second.isDirty = true ∧ (z.second.version z.lock).toOption = some 1 ∧
      z.overwritten.store.DeletedSince equality 0 z.second.key ∧
      versionAfter equality z.second.key (z.overwritten.store.log.drop 0) = some 2) ∧
    z.replaced.store.rows.map (· "title") = [.text "Sand"] ∧
    z.overwritten.store.rows.map (· "title") = [.text "Lake"] :=
  exists_ok_of_decide (by decide +kernel)

theorem reuse_cases {z : Readers} (h : reuse = .ok z) :
    race = .ok (z.schema, z.table, z.lock, z.first, z.second) := by
  obtain ⟨r, h1, h⟩ := bind_eq_ok_iff.1 h
  obtain ⟨other, -, h⟩ := bind_eq_ok_iff.1 h
  cases h
  exact h1

theorem replaced_copies (z : Readers) :
    ∃ cs, z.replaced.copies = ⟨z.first, 0⟩ :: ⟨z.second, 0⟩ :: cs :=
  World.exists_copies_add ..

theorem replaced_reachable {z : Readers} (h : reuse = .ok z)
    (hkey : z.table.primaryKey.name = "id") (hlock : z.lock.name = "version")
    (hother : Unsaved z.table z.other) :
    Relation.ReflTransGen (Move equality z.table z.lock reusing) ⟨shelf, []⟩ z.replaced := by
  obtain ⟨-, -, hfirst, hsecond⟩ := race_cases (reuse_cases h)
  have hload : ∀ copies : List Copy, Move equality z.table z.lock reusing ⟨shelf, copies⟩
      ⟨shelf, copies ++ [⟨.loaded z.table columns .empty .empty, 0⟩]⟩ := fun copies =>
    .load (w := ⟨shelf, copies⟩) (List.mem_singleton_self book) columns_book
      (by rw [hkey]; decide +kernel) (by rw [hlock]; decide +kernel)
  have h1 := (Relation.ReflTransGen.single (hload [])).tail (hload _)
  have h2 := h1.tail (.set (i := 0) rfl hfirst)
  have hset : Move equality z.table z.lock reusing
      ⟨shelf, [⟨z.first, 0⟩, ⟨.loaded z.table columns .empty .empty, 0⟩]⟩
      (readers z.first z.second) :=
    .set (w := ⟨shelf, [⟨z.first, 0⟩, ⟨.loaded z.table columns .empty .empty, 0⟩]⟩) (i := 1) rfl
      hsecond
  have h3 := (h2.tail hset).tail (.delete (c := ⟨z.second, 0⟩)
    (List.mem_cons_of_mem _ List.mem_cons_self))
  exact h3.tail (.add hother)

/-- The schema, the run to the book that took the place, and both copies of the one that is gone. -/
theorem exists_replaced : ∃ z : Readers,
    (Schema.ofDeclaration declaration = .ok z.schema ∧ z.table ∈ z.schema.tables ∧
      z.table.lockColumn? = some z.lock ∧ z.lock.primaryKey = false ∧
      shelf.Valid equality z.table z.lock) ∧
    Relation.ReflTransGen (Move equality z.table z.lock reusing) ⟨shelf, []⟩ z.replaced ∧
    (z.first.isDirty = true ∧ (z.first.version z.lock).toOption = some 1 ∧
      z.replaced.store.DeletedSince equality 0 z.first.key ∧
      versionAfter equality z.first.key (z.replaced.store.log.drop 0) = some 1) ∧
    (z.second.isDirty = true ∧ (z.second.version z.lock).toOption = some 1 ∧
      z.overwritten.store.DeletedSince equality 0 z.second.key ∧
      versionAfter equality z.second.key (z.overwritten.store.log.drop 0) = some 2) ∧
    z.replaced.store.rows.map (· "title") = [.text "Sand"] ∧
    z.overwritten.store.rows.map (· "title") = [.text "Lake"] := by
  obtain ⟨z, h, ⟨htable, hkey, hversion, hpk, ht, hnew, hslots⟩, hfirst, hsecond, htitles⟩ :=
    exists_reuse
  obtain ⟨hs, hlock, -, -⟩ := race_cases (reuse_cases h)
  have hother : Unsaved z.table z.other :=
    ⟨ht, hnew, congrArg NameMap.mk (List.length_eq_zero_iff.1 hslots)⟩
  exact ⟨z, ⟨hs, htable, hlock, hpk, shelf_valid hkey hversion⟩,
    replaced_reachable h hkey hversion hother, hfirst, hsecond, htitles⟩

end Library

/-- The copy that was read before the deletion is written onto the book that took the place. -/
theorem Locking.exists_stale_written : ∃ schema table lock w c,
    Schema.ofDeclaration Library.declaration = .ok schema ∧ table ∈ schema.tables ∧
    table.lockColumn? = some lock ∧ Stores Library.equality table Library.reusing ∧
    Relation.ReflTransGen (Move Library.equality table lock Library.reusing)
      ⟨Library.shelf, []⟩ w ∧
    c ∈ w.copies ∧ w.store.DeletedSince Library.equality c.since c.record.key ∧
    w.store.rows.map (· "title") = [.text "Sand"] ∧
    (Record.save Library.reusing (c.record, w.store)).2.2.rows.map (· "title")
      = [.text "Lake"] := by
  obtain ⟨z, ⟨hs, htable, hlock, -, -⟩, hrun, ⟨-, -, hdel, -⟩, -, hsand, hlake⟩ :=
    Library.exists_replaced
  obtain ⟨cs, hcopies⟩ := Library.replaced_copies z
  refine ⟨z.schema, z.table, z.lock, z.replaced, ⟨z.first, 0⟩, hs, htable, hlock,
    Library.reusing_stores z.table, hrun, ?_, hdel, hsand, hlake⟩
  rw [hcopies]
  exact List.mem_cons_self

/-- The first reader's copy is at the version of the book that took the place, and is written. Then
the second reader's copy is behind, and is refused. -/
theorem Locking.library_stale : ∃ (table : Table) (lock : Column) (w w' : World Versions)
    (first second : Record), Move Library.equality table lock Library.reusing w w' ∧
      Saves Library.equality table lock Library.reusing first w.store ∧
      SaveRefused table Library.reusing second w'.store := by
  obtain ⟨z, ⟨hs, htable, hlock, hpk, hvalid⟩, hrun, ⟨hd, hone, hdel, hafter⟩,
    ⟨hd', hone', hdel', hafter'⟩, -, -⟩ := Library.exists_replaced
  have hstores := Library.reusing_stores z.table
  obtain ⟨cs, hcopies⟩ := Library.replaced_copies z
  have hmove : Move Library.equality z.table z.lock Library.reusing z.replaced z.overwritten :=
    .save (by rw [hcopies]; rfl)
  refine ⟨z.table, z.lock, z.replaced, z.overwritten, z.first, z.second, hmove, ?_, ?_⟩
  · have hmem : (⟨z.first, 0⟩ : Copy) ∈ z.replaced.copies := by
      rw [hcopies]
      exact List.mem_cons_self
    obtain ⟨p, hp, hmatch, -⟩ := stale_copy hs htable hlock hpk hstores hvalid hrun hmem hdel
    rw [hp] at hone
    obtain rfl : p = 1 := Option.some.inj hone
    exact (hmatch hafter).1 hd
  · have hmem : (⟨z.second, 0⟩ : Copy) ∈ z.overwritten.copies := by
      simp [Library.Readers.overwritten, World.resave, hcopies]
    obtain ⟨p, hp, -, hother⟩ :=
      stale_copy hs htable hlock hpk hstores hvalid (hrun.tail hmove) hmem hdel'
    rw [hp] at hone'
    obtain rfl : p = 1 := Option.some.inj hone'
    refine (hother ?_).1 hd'
    simp only [hafter']
    decide

end RecordGraph
