import RecordGraph.Proofs.JoinTree.Shape

/-!
# Labels

The label of an element is its number, that of its association table goes on with `_a`, and that of
a column with `__` and the column's name. A number has no underscore, so none of them is mistaken
for another.

* `JoinTree.Linked.eq_of_label`, `JoinTree.Linked.associationLabel_ne`: the tables of a statement.
* `JoinTree.Linked.columnLabel_inj`: the columns of its result.
-/
namespace RecordGraph

/-- What stands before the first separator is settled. -/
theorem append_separator_inj {α : Type} {sep : α} : ∀ {a b c d : List α}, sep ∉ a → sep ∉ b →
    a ++ sep :: c = b ++ sep :: d → a = b ∧ c = d
  | [], [], _, _, _, _, h => ⟨rfl, (List.cons.inj h).2⟩
  | [], y :: b, _, _, _, hb, h => absurd (List.cons.inj h).1 fun he => hb (he ▸ List.mem_cons_self)
  | x :: a, [], _, _, ha, _, h =>
    absurd (List.cons.inj h).1 fun he => ha (he ▸ List.mem_cons_self)
  | x :: a, y :: b, _, _, ha, hb, h => by
    obtain ⟨hxy, hrest⟩ := List.cons.inj h
    rw [List.mem_cons, not_or] at ha hb
    obtain ⟨hab, hcd⟩ := append_separator_inj ha.2 hb.2 hrest
    exact ⟨by rw [hxy, hab], hcd⟩

theorem toString_nat_inj {m n : Nat} (h : toString m = toString n) : m = n := by
  have h := congrArg String.toList h
  simp only [Nat.toString_eq_ofList_toDigits, String.toList_ofList] at h
  rw [← Nat.ofDigitChars_ten_toDigits (n := m), h, Nat.ofDigitChars_ten_toDigits]

theorem underscore_notMem_toString (n : Nat) : '_' ∉ (toString n).toList := by
  rw [Nat.toString_eq_ofList_toDigits, String.toList_ofList]
  exact Nat.underscore_not_in_toDigits

/-- A number and what follows behind an underscore are settled by both together. -/
theorem numbered_inj {lead a b : String} {m n : Nat}
    (h : lead ++ "t" ++ toString m ++ ("_" ++ a) = lead ++ "t" ++ toString n ++ ("_" ++ b)) :
    m = n ∧ a = b := by
  have h := congrArg String.toList h
  simp only [String.toList_append, List.append_assoc, List.append_cancel_left_eq] at h
  obtain ⟨hd, hs⟩ := append_separator_inj (underscore_notMem_toString m)
    (underscore_notMem_toString n) h
  exact ⟨toString_nat_inj (String.toList_injective hd), String.toList_injective hs⟩

namespace JoinTree

variable {lead : String} {t : JoinTree} (hl : t.Linked lead)
include hl

theorem Linked.label_eq {e : Element} (he : e ∈ t.elements) :
    e.label = lead ++ "t" ++ toString e.id := by
  obtain ⟨i, hi⟩ := List.getElem?_of_mem he
  obtain ⟨rfl, hlabel⟩ := hl.numbered i e hi
  exact hlabel

theorem Linked.eq_of_id {a b : Element} (ha : a ∈ t.elements) (hb : b ∈ t.elements)
    (h : a.id = b.id) : a = b := by
  obtain ⟨i, hi⟩ := List.getElem?_of_mem ha
  obtain ⟨k, hk⟩ := List.getElem?_of_mem hb
  rw [(hl.numbered i a hi).1, (hl.numbered k b hk).1] at h
  rw [h, hk] at hi
  exact (Option.some.inj hi).symm

theorem Linked.eq_of_label {a b : Element} (ha : a ∈ t.elements) (hb : b ∈ t.elements)
    (h : a.label = b.label) : a = b := by
  refine hl.eq_of_id ha hb ?_
  rw [hl.label_eq ha, hl.label_eq hb] at h
  have h := congrArg String.toList h
  simp only [String.toList_append, List.append_cancel_left_eq] at h
  exact toString_nat_inj (String.toList_injective h)

theorem Linked.associationLabel_ne {a b : Element} (ha : a ∈ t.elements) (hb : b ∈ t.elements) :
    a.associationLabel ≠ b.label := by
  intro h
  rw [Element.associationLabel, hl.label_eq ha, hl.label_eq hb] at h
  have h := congrArg String.toList h
  simp only [String.toList_append, List.append_assoc, List.append_cancel_left_eq] at h
  have hmem : '_' ∈ (toString b.id).toList := by rw [← h]; simp
  exact underscore_notMem_toString _ hmem

theorem Linked.columnLabel_inj {a b : Element} (ha : a ∈ t.elements) (hb : b ∈ t.elements)
    {m n : String} (h : a.label ++ "__" ++ m = b.label ++ "__" ++ n) : a = b ∧ m = n := by
  have split : ∀ s x : String, s ++ "__" ++ x = s ++ ("_" ++ ("_" ++ x)) := by
    intro s x
    apply String.toList_injective
    simp
  rw [split, split, hl.label_eq ha, hl.label_eq hb] at h
  obtain ⟨hid, hx⟩ := numbered_inj h
  refine ⟨hl.eq_of_id ha hb hid, ?_⟩
  have hx := congrArg String.toList hx
  simp only [String.toList_append, List.append_cancel_left_eq] at hx
  exact String.toList_injective hx

end JoinTree

end RecordGraph
