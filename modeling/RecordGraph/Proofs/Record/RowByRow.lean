import RecordGraph.Proofs.Record.SingleRow

/-!
# Rows of different objects

Where no two rows share a key of the root, no row adds to an object that is there already: the
records of all rows are the records of the rows alone, one after the other.

* `Unpacker.visit_apart`: a row with a key of its own goes behind what is there.
* `JoinTree.records_apart`: the records of rows with different keys.
* `JoinTree.alone_root_eq_nil`, `JoinTree.exists_alone_root`: the records of a row, by whether it
  has an object of the root.
-/
namespace RecordGraph

/-- A row has an object of an element without a parent: only a key that is read can be missing. -/
def Element.rootIn (e : Element) (row : Row) : Bool :=
  e.emittedKey?.isNone || (e.keyIn? row).isSome

/-- No two rows share a key of the element. -/
def Element.KeysApart (e : Element) (rows : List Row) : Prop := (rows.filterMap e.keyIn?).Nodup

instance (e : Element) (rows : List Row) : Decidable (e.KeysApart rows) :=
  inferInstanceAs (Decidable (rows.filterMap e.keyIn?).Nodup)

theorem Element.KeysApart.pairwise {e : Element} {rows : List Row} (h : e.KeysApart rows) :
    rows.Pairwise fun a b => ∀ k, e.keyIn? a = some k → e.keyIn? b ≠ some k := by
  refine (List.pairwise_filterMap.1 (List.nodup_iff_pairwise_ne.1 h)).imp fun h k ha hb => ?_
  exact h k ha k hb rfl

namespace Unpacker

variable {e : Element} {bs : List Branch} {row : Row} {objects : List Pending}

theorem identity_eq_key_iff {k : Key} : identity e row = .key k ↔ e.keyIn? row = some k := by
  cases hc : e.emittedKey? with
  | none =>
    have hkey : e.keyIn? row = none := by rw [Element.keyIn?, hc, Option.bind_none]
    rw [hkey]
    unfold identity
    rw [hc]
    dsimp only
    split <;> simp
  | some c =>
    rw [identity_eq (by rw [hc]; rfl)]
    cases e.keyIn? row <;> simp

/-- An object has the key by which its row identifies it. -/
theorem keyIn?_of_mem_visit {p : Pending} (h : p ∈ visit row (.node e bs) []) {k : Key}
    (hk : p.key = some k) : e.keyIn? row = some k := by
  rw [visit] at h
  split at h
  · exact absurd h List.not_mem_nil
  · cases hi : identity e row with
    | absent =>
      simp only [hi] at h
      exact absurd h List.not_mem_nil
    | anonymous =>
      simp only [hi, List.nil_append, List.mem_singleton] at h
      rw [h] at hk
      cases hk
    | key k' =>
      simp only [hi, merge, List.mem_singleton] at h
      rw [h] at hk
      cases hk
      exact identity_eq_key_iff.1 hi

/-- Objects with other keys stay as they are. -/
theorem merge_apart {k : Key} {old : Pending → Pending} {fresh : Pending} :
    ∀ {objects : List Pending}, (∀ p ∈ objects, p.key ≠ some k) →
      merge k old fresh objects = objects ++ [fresh]
  | [], _ => rfl
  | p :: rest, h => by
    rw [merge, if_neg (h p List.mem_cons_self),
      merge_apart fun q hq => h q (List.mem_cons_of_mem _ hq), List.cons_append]

/-- A row with a key of its own goes behind what is there. -/
theorem visit_apart (h : ∀ p ∈ objects, ∀ k, p.key = some k → e.keyIn? row ≠ some k) :
    visit row (.node e bs) objects = objects ++ visit row (.node e bs) [] := by
  rw [visit, visit]
  split
  · rw [List.append_nil]
  · dsimp only
    cases hi : identity e row with
    | absent => rw [List.append_nil]
    | anonymous => rw [List.nil_append]
    | key k =>
      exact merge_apart fun p hp hk => h p hp k hk (identity_eq_key_iff.1 hi)

/-- Rows with different keys go behind each other. -/
theorem foldl_visit_apart : ∀ {rows : List Row} {objects : List Pending},
    rows.Pairwise (fun a b => ∀ k, e.keyIn? a = some k → e.keyIn? b ≠ some k) →
    (∀ p ∈ objects, ∀ k, p.key = some k → ∀ row ∈ rows, e.keyIn? row ≠ some k) →
      rows.foldl (fun objects row => visit row (.node e bs) objects) objects =
        objects ++ rows.flatMap fun row => visit row (.node e bs) []
  | [], _, _, _ => by rw [List.foldl_nil, List.flatMap_nil, List.append_nil]
  | row :: rows, objects, hapart, hobjects => by
    obtain ⟨hrow, hrest⟩ := List.pairwise_cons.1 hapart
    rw [List.foldl_cons, visit_apart fun p hp k hk => hobjects p hp k hk row List.mem_cons_self,
      foldl_visit_apart hrest, List.flatMap_cons, List.append_assoc]
    intro p hp k hk other hother
    rcases List.mem_append.1 hp with hp | hp
    · exact hobjects p hp k hk other (List.mem_cons_of_mem _ hother)
    · exact hrow other hother k (keyIn?_of_mem_visit hp hk)

theorem foldl_push_eq (b : Branch) : ∀ (rows : List Row) (objects : List Pending),
    rows.foldl push ⟨b, objects⟩ = ⟨b, rows.foldl (fun objects row => visit row b objects) objects⟩
  | [], _ => rfl
  | row :: rows, objects => foldl_push_eq b rows (visit row b objects)

end Unpacker

namespace JoinTree

variable {lead : String} {projection : Projection} {q : Query} {t : JoinTree}

/-- **Rows of different objects.** The records of rows with different keys are the records of the
rows alone. -/
theorem records_apart (hl : t.Linked lead) {rows : List Row} (hapart : t.root.KeysApart rows) :
    Unpacker.records t rows = rows.flatMap fun row => t.alone row t.root := by
  have hroot : t.branch = t.branchAt t.root := rfl
  rw [Unpacker.records, Unpacker.start, Unpacker.foldl_push_eq, Unpacker.finish, hroot]
  dsimp only
  rw [branchAt_eq hl, Unpacker.foldl_visit_apart hapart.pairwise (by simp), List.nil_append,
    List.map_flatMap, ← branchAt_eq hl]
  rfl

theorem identity_root_eq_absent_iff (hl : t.Linked lead) {row : Row} :
    Unpacker.identity t.root row = .absent ↔ t.root.rootIn row = false := by
  rw [Element.rootIn, Bool.or_eq_false_iff]
  cases hc : t.root.emittedKey? with
  | none => simp [Unpacker.identity, hc, hl.root.2]
  | some c =>
    rw [Unpacker.identity_eq (by rw [hc]; rfl)]
    cases t.root.keyIn? row <;> simp

/-- A row without a key of the root gives no record. -/
theorem alone_root_eq_nil (hl : t.Linked lead) {row : Row} (hrow : t.root.rootIn row = false) :
    t.alone row t.root = [] := by
  rw [alone, branchAt_eq hl, Unpacker.visit, (identity_root_eq_absent_iff hl).2 hrow]
  split <;> rfl

/-- Any other row gives one. -/
theorem exists_alone_root (h : compile projection lead q = .ok t) {row : Row}
    (hrow : t.root.rootIn row = true) : ∃ r, t.alone row t.root = [r] := by
  have hl := compile_linked h
  refine ⟨_, alone_eq hl (root_materialized h) fun habsent => ?_⟩
  rw [(identity_root_eq_absent_iff hl).1 habsent] at hrow
  cases hrow

end JoinTree

end RecordGraph
