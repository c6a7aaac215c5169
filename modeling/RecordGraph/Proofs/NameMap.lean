import Mathlib.Data.List.Induction
import Mathlib.Data.List.Perm.Basic
import RecordGraph.NameMap

/-!
# Maps from lists

* `NameMap.find?_foldl_insert_eq`: of insertions under a name the last one counts.
* `NameMap.find?_ofList_of_mem`: a map of entries with different names holds each of them.
* `NameMap.sorted_insert`: names stay in order.
* `NameMap.entries_ofList_perm_iff`: a map keeps all the entries it is made of when their names
  differ, and only then.
-/
namespace RecordGraph.NameMap

variable {α : Type}

/-- Of insertions under a name the last one counts. -/
theorem find?_foldl_insert_eq (name : String) :
    ∀ (entries : List (String × α)) (m : NameMap α),
      (entries.foldl (fun m e => m.insert e.1 e.2) m).find? name =
        (entries.reverse.lookup name).or (m.find? name)
  | [], _ => rfl
  | (n, v) :: rest, m => by
    rw [List.foldl_cons, find?_foldl_insert_eq name rest, List.reverse_cons, List.lookup_append,
      Option.or_assoc]
    congr 1
    by_cases hn : name = n
    · subst hn
      simp
    · have hne : (name == n) = false := by simpa using hn
      rw [find?_insert_of_ne m v hn, List.lookup_cons, hne]
      rfl

/-- Insertions under other names do not count. -/
theorem find?_foldl_insert {name : String} {entries : List (String × α)} (m : NameMap α)
    (h : name ∉ entries.map (·.1)) :
    (entries.foldl (fun m e => m.insert e.1 e.2) m).find? name = m.find? name := by
  have hnone : entries.reverse.lookup name = none := by
    rw [List.lookup_eq_none_iff]
    intro e he
    simp only [bne_iff_ne, ne_eq]
    rintro rfl
    exact h (List.mem_map_of_mem (List.mem_reverse.1 he))
  rw [find?_foldl_insert_eq, hnone, Option.none_or]

theorem find?_ofList_of_mem {entries : List (String × α)} {name : String} {value : α}
    (hn : (entries.map (·.1)).Nodup) (h : (name, value) ∈ entries) :
    (ofList entries).find? name = some value := by
  obtain ⟨before, after, rfl⟩ := List.append_of_mem h
  rw [List.map_append, List.map_cons, List.nodup_append, List.nodup_cons] at hn
  rw [ofList, List.foldl_append, List.foldl_cons, find?_foldl_insert _ hn.2.1.1,
    find?_insert_self]

/-- A map of what things with different names have, if they have it. -/
theorem find?_ofList_filterMap {β : Type} (name : β → String) (value? : β → Option α) {bs : List β}
    (hn : (bs.map name).Nodup) {b : β} (hb : b ∈ bs) {v : α} (hv : value? b = some v) :
    (ofList (bs.filterMap fun b => (value? b).map (name b, ·))).find? (name b) = some v := by
  refine find?_ofList_of_mem ?_ (List.mem_filterMap.2 ⟨b, hb, by rw [hv]; rfl⟩)
  rw [List.nodup_iff_pairwise_ne, List.pairwise_map, List.pairwise_filterMap]
  rw [List.nodup_iff_pairwise_ne, List.pairwise_map] at hn
  refine hn.imp fun {a b} hab x hx y hy hxy => hab ?_
  obtain ⟨_, -, rfl⟩ := Option.map_eq_some_iff.1 hx
  obtain ⟨_, -, rfl⟩ := Option.map_eq_some_iff.1 hy
  exact hxy

theorem mem_of_find? {m : NameMap α} {name : String} {value : α} (h : m.find? name = some value) :
    (name, value) ∈ m.entries := by
  obtain ⟨before, after, he, -⟩ := List.lookup_eq_some_iff.1 h
  rw [he]
  exact List.mem_append_right _ List.mem_cons_self

/-! ## The order of names -/

/-- The entries are in the order of their names, each name once. -/
def Sorted (m : NameMap α) : Prop := m.entries.Pairwise fun a b => a.1 < b.1

theorem sorted_empty : (empty : NameMap α).Sorted := List.Pairwise.nil

theorem mem_insertEntry {name : String} {value : α} : ∀ {entries : List (String × α)}
    {e : String × α}, e ∈ insertEntry name value entries → e = (name, value) ∨ e ∈ entries
  | [], e, h => .inl (List.mem_singleton.1 h)
  | (n, v) :: rest, e, h => by
    rw [insertEntry] at h
    split at h
    · exact (List.mem_cons.1 h).imp_right (List.mem_cons_of_mem _)
    · split at h
      · exact List.mem_cons.1 h
      · rcases List.mem_cons.1 h with rfl | h
        · exact .inr List.mem_cons_self
        · exact (mem_insertEntry h).imp_right (List.mem_cons_of_mem _)

theorem sorted_insert {m : NameMap α} (h : m.Sorted) (name : String) (value : α) :
    (m.insert name value).Sorted := by
  obtain ⟨entries⟩ := m
  simp only [Sorted, insert] at h ⊢
  induction entries with
  | nil => exact List.pairwise_singleton _ _
  | cons e rest ih =>
    obtain ⟨n, v⟩ := e
    obtain ⟨hn, hrest⟩ := List.pairwise_cons.1 h
    rw [insertEntry]
    split
    · rename_i heq
      exact List.pairwise_cons.2 ⟨fun e he => heq ▸ hn e he, hrest⟩
    · rename_i hne
      split
      · rename_i hlt
        refine List.pairwise_cons.2 ⟨fun e he => ?_, h⟩
        rcases List.mem_cons.1 he with rfl | he
        · exact hlt
        · exact String.lt_trans hlt (hn e he)
      · rename_i hge
        refine List.pairwise_cons.2 ⟨fun e he => ?_, ih hrest⟩
        rcases mem_insertEntry he with rfl | he
        · exact Std.lt_of_le_of_ne (String.not_lt.1 hge) fun h => hne h.symm
        · exact hn e he

/-- In a sorted map no entry hides another. -/
theorem find?_of_mem {m : NameMap α} (h : m.Sorted) {name : String} {value : α}
    (hm : (name, value) ∈ m.entries) : m.find? name = some value := by
  obtain ⟨entries⟩ := m
  simp only [Sorted, find?] at h hm ⊢
  induction entries with
  | nil => cases hm
  | cons e rest ih =>
    obtain ⟨n, v⟩ := e
    obtain ⟨hn, hrest⟩ := List.pairwise_cons.1 h
    rw [List.lookup_cons]
    rcases List.mem_cons.1 hm with heq | hrest'
    · cases heq
      rw [beq_self_eq_true]
    · have hne : (name == n) = false := by
        rw [beq_eq_false_iff_ne]
        rintro rfl
        exact String.lt_irrefl _ (hn (name, value) hrest')
      rw [hne]
      exact ih hrest hrest'

/-- A change that does nothing to the entry under a name does nothing. -/
theorem modify_eq_self {m : NameMap α} (h : m.Sorted) {name : String} {f : α → α}
    (hf : ∀ v, m.find? name = some v → f v = v) : m.modify name f = m := by
  refine congrArg NameMap.mk ((List.map_congr_left fun e he => ?_).trans (List.map_id _))
  obtain ⟨n, v⟩ := e
  by_cases hn : n = name
  · subst hn
    simp only [beq_self_eq_true, if_true, hf v (find?_of_mem h he), id]
  · have hne : (n == name) = false := by simpa using hn
    simp only [hne, Bool.false_eq_true, if_false, id]

/-! ## Maps that lose no entry -/

theorem insertEntry_perm {name : String} {value : α} : ∀ {entries : List (String × α)},
    name ∉ entries.map (·.1) → (insertEntry name value entries).Perm ((name, value) :: entries)
  | [], _ => List.Perm.refl _
  | (n, v) :: rest, h => by
    obtain ⟨hne, hrest⟩ := not_or.1 (mt List.mem_cons.2 h)
    rw [insertEntry, if_neg hne]
    split
    · exact List.Perm.refl _
    · exact ((insertEntry_perm hrest).cons _).trans (List.Perm.swap _ _ _)

theorem sorted_ofList (entries : List (String × α)) : (ofList entries).Sorted := by
  induction entries using List.reverseRecOn with
  | nil => exact sorted_empty
  | append_singleton entries e ih =>
    rw [ofList, List.foldl_append]
    exact sorted_insert ih _ _

theorem Sorted.nodup {m : NameMap α} (h : m.Sorted) : (m.entries.map (·.1)).Nodup := by
  rw [List.nodup_iff_pairwise_ne, List.pairwise_map]
  refine List.Pairwise.imp (fun {a b} hab => ?_) (h : m.entries.Pairwise fun a b => a.1 < b.1)
  intro heq
  exact String.lt_irrefl b.1 (heq ▸ hab)

/-- A map keeps all the entries it is made of when their names differ, and only then. -/
theorem entries_ofList_perm_iff (entries : List (String × α)) :
    (ofList entries).entries.Perm entries ↔ (entries.map (·.1)).Nodup := by
  refine ⟨fun h => (h.map _).nodup (sorted_ofList entries).nodup, fun h => ?_⟩
  induction entries using List.reverseRecOn with
  | nil => exact List.Perm.refl _
  | append_singleton entries e ih =>
    rw [List.map_append, List.nodup_append] at h
    obtain ⟨hnodup, -, hne⟩ := h
    have hkept := ih hnodup
    have hfresh : e.1 ∉ (ofList entries).entries.map (·.1) := fun hmem =>
      hne _ ((hkept.map _).subset hmem) _ List.mem_cons_self rfl
    rw [ofList, List.foldl_append]
    exact ((insertEntry_perm hfresh).trans (hkept.cons e)).trans
      (List.perm_append_singleton _ _).symm

/-- Where the names differ, it does not matter from which end an entry is looked for. -/
theorem lookup_reverse {entries : List (String × α)} (hn : (entries.map (·.1)).Nodup)
    (name : String) : entries.reverse.lookup name = entries.lookup name := by
  induction entries with
  | nil => rfl
  | cons e rest ih =>
    obtain ⟨hne, hrest⟩ := List.nodup_cons.1 hn
    rw [List.reverse_cons, List.lookup_append, ih hrest, List.lookup_cons, List.lookup_cons]
    by_cases heq : name = e.1
    · have hnone : rest.lookup name = none := List.lookup_eq_none_iff.2 fun d hd =>
        bne_iff_ne.2 fun h => hne (List.mem_map.2 ⟨d, hd, h.symm.trans heq⟩)
      rw [hnone, heq, beq_self_eq_true]
      rfl
    · rw [beq_eq_false_iff_ne.2 heq, List.lookup_nil, Option.or_none]

theorem lookup_map {β : Type} (f : α → β) (entries : List (String × α)) (name : String) :
    (entries.map fun e => (e.1, f e.2)).lookup name = (entries.lookup name).map f := by
  induction entries with
  | nil => rfl
  | cons e rest ih =>
    rw [List.map_cons, List.lookup_cons, List.lookup_cons, ih]
    cases name == e.1 <;> rfl

theorem contains_iff {m : NameMap α} {name : String} :
    m.contains name = true ↔ name ∈ m.entries.map (·.1) := by
  rw [contains, find?, Option.isSome_iff_ne_none, ne_eq, List.lookup_eq_none_iff]
  simp only [bne_iff_ne, not_forall, not_not, List.mem_map, exists_prop]
  exact exists_congr fun e => and_congr_right fun _ => eq_comm

end RecordGraph.NameMap
