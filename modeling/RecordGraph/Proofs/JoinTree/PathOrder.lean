import RecordGraph.JoinTree.Basic

/-!
# The order of paths

`Hop.compare` orders hops by kind, then by name; `Path.compare` orders paths by their hops, a path
before the paths that go on from it. Both are linear orders (`Hop.compare_trans`,
`Path.compare_trans` and the instances beside them).

* `Path.isPrefix_of_between`: what lies between a path and a path that goes on from it goes on from
  it too. So the paths below a path are neighbours in any sorted list.
-/
namespace RecordGraph

namespace Hop

/-- The names in a hop. -/
def names : Hop → String × String
  | .table d t => (d, t)
  | .reference i | .reverse i | .manyMany i => (i, "")

/-- Kind first, then names. -/
theorem compare_eq_compareLex :
    Hop.compare = compareLex (compareOn rank) (compareLex (compareOn (·.names.1))
      (compareOn (·.names.2))) := by
  funext a b
  cases a <;> cases b <;> simp [Hop.compare, compareLex, compareOn, rank, names] <;> rfl

theorem eq_of_rank_names {a b : Hop} (hr : a.rank = b.rank) (h1 : a.names.1 = b.names.1)
    (h2 : a.names.2 = b.names.2) : a = b := by
  cases a <;> cases b <;> simp_all [rank, names]

instance compare_trans : Std.TransCmp Hop.compare := by
  rw [compare_eq_compareLex]; infer_instance

instance compare_lawfulEq : Std.LawfulEqCmp Hop.compare where
  eq_of_compare {a b} h := by
    rw [compare_eq_compareLex, compareLex_eq_eq, compareLex_eq_eq] at h
    obtain ⟨hr, h1, h2⟩ := h
    exact eq_of_rank_names (Std.LawfulEqOrd.eq_of_compare hr) (Std.LawfulEqOrd.eq_of_compare h1)
      (Std.LawfulEqOrd.eq_of_compare h2)

@[simp] theorem compare_self (a : Hop) : a.compare a = .eq := Std.ReflCmp.compare_self

end Hop

namespace Path

theorem compare_eq_compareLex : Path.compare = List.compareLex Hop.compare := by
  funext a
  induction a with
  | nil => funext b; cases b <;> rfl
  | cons x a ih =>
    funext b
    cases b with
    | nil => rfl
    | cons y b => rw [Path.compare, ih, List.compareLex_cons_cons]

instance compare_trans : Std.TransCmp Path.compare := by
  rw [compare_eq_compareLex]; infer_instance

instance compare_lawfulEq : Std.LawfulEqCmp Path.compare := by
  rw [compare_eq_compareLex]; infer_instance

@[simp] theorem compare_self (p : Path) : Path.compare p p = .eq := Std.ReflCmp.compare_self

theorem compare_swap (p q : Path) : Path.compare q p = (Path.compare p q).swap :=
  Std.OrientedCmp.eq_swap

/-- A common start does not count. -/
theorem compare_append (p a b : Path) : Path.compare (p ++ a) (p ++ b) = Path.compare a b := by
  induction p with
  | nil => rfl
  | cons x p ih =>
    rw [List.cons_append, List.cons_append, Path.compare, Hop.compare_self, ih]; rfl

theorem compare_snoc (p : Path) (a b : Hop) :
    Path.compare (p ++ [a]) (p ++ [b]) = a.compare b := by
  rw [compare_append]; cases h : a.compare b <;> simp [Path.compare, h]

/-- A path comes before the paths that go on from it. -/
theorem compare_of_isPrefix {p q : Path} (h : p <+: q) (hne : p ≠ q) : Path.compare p q = .lt := by
  obtain ⟨s, rfl⟩ := h
  have hs : s ≠ [] := by rintro rfl; simp at hne
  have hc := compare_append p [] s
  rw [List.append_nil] at hc
  rw [hc]
  cases s with
  | nil => exact absurd rfl hs
  | cons x s => rfl

/-- What lies between a path and one that goes on from it goes on from it too. -/
theorem isPrefix_of_between {p b c : Path} (h : p <+: c) (hpb : (Path.compare p b).isLE)
    (hbc : (Path.compare b c).isLE) : p <+: b := by
  induction p generalizing b c with
  | nil => exact List.nil_prefix
  | cons x p ih =>
    obtain ⟨s, rfl⟩ := h
    cases b with
    | nil => simp [Path.compare] at hpb
    | cons y b =>
      rw [List.cons_append, Path.compare, Ordering.isLE_then_iff_and] at hbc
      rw [Path.compare, Ordering.isLE_then_iff_and] at hpb
      have hxy : x = y := Std.LawfulEqCmp.eq_of_compare
        (Std.OrientedCmp.isLE_antisymm hpb.1 hbc.1)
      subst hxy
      rw [Hop.compare_self] at hpb hbc
      have hp : p <+: b :=
        ih ⟨s, rfl⟩ (by simpa using hpb.2) (by simpa using hbc.2)
      exact (List.prefix_cons_inj x).2 hp

end Path

end RecordGraph
