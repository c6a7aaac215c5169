import RecordGraph.Sql.Dialect

/-!
# Quoted names

A name is written between quotes, with the quotes in it doubled. A quote that stands alone is then
the one that closes it, whatever the name is made of: nothing in a name is taken for SQL.

* `Dialect.readName?`: a quoted name at the beginning of a text, and what follows it.
* `Dialect.unquote?_eq_some_iff`: where a name ends whose opening quote is read.
* `Dialect.readName?_eq_some_iff`: what is read are the quoted names, each up to its end.
-/
namespace RecordGraph.Dialect

/-- A name whose opening quote is read, and what follows the quote that closes it. Two quotes in a
row stand for one quote of the name. -/
def unquote? (q : Char) : List Char → Option (List Char × List Char)
  | [] => none
  | [c] => if c = q then some ([], []) else none
  | c :: d :: rest =>
    if c = q then
      if d = q then (unquote? q rest).map fun r => (q :: r.1, r.2) else some ([], d :: rest)
    else (unquote? q (d :: rest)).map fun r => (c :: r.1, r.2)

/-- The quoted name that a text begins with, and the text that follows it. -/
def readName? (d : Dialect) (text : String) : Option (String × String) :=
  match text.toList with
  | [] => none
  | c :: rest =>
    if c = d.quoteChar then
      (unquote? d.quoteChar rest).map fun r => (String.ofList r.1, String.ofList r.2)
    else none

section
variable {q : Char}

theorem unquote?_of_ne {c : Char} (hc : c ≠ q) (cs : List Char) :
    unquote? q (c :: cs) = (unquote? q cs).map fun r => (c :: r.1, r.2) := by
  cases cs with
  | nil => simp [unquote?, hc]
  | cons d rest => rw [unquote?, if_neg hc]

theorem unquote?_quotes (q : Char) (rest : List Char) :
    unquote? q (q :: q :: rest) = (unquote? q rest).map fun r => (q :: r.1, r.2) := by
  rw [unquote?, if_pos rfl, if_pos rfl]

theorem unquote?_quote {rest : List Char} (h : rest.head? ≠ some q) :
    unquote? q (q :: rest) = some ([], rest) := by
  cases rest with
  | nil => simp [unquote?]
  | cons d rest => rw [unquote?, if_pos rfl, if_neg fun hd => h (congrArg some hd)]

/-- A name ends at the first quote that stands alone. -/
theorem unquote?_eq_some_iff {cs name rest : List Char} : unquote? q cs = some (name, rest) ↔
    cs = doubled q name ++ q :: rest ∧ rest.head? ≠ some q := by
  constructor
  · intro h
    fun_induction unquote? q cs generalizing name with
    | case1 => cases h
    | case2 => cases h; exact ⟨rfl, nofun⟩
    | case3 => cases h
    | case4 cs ih =>
      obtain ⟨⟨name', rest'⟩, hread, heq⟩ := Option.map_eq_some_iff.1 h
      cases heq
      obtain ⟨rfl, hrest⟩ := ih hread
      exact ⟨by rw [doubled, if_pos rfl]; rfl, hrest⟩
    | case5 d cs hd =>
      cases h
      exact ⟨rfl, fun hhead => hd (Option.some.inj hhead)⟩
    | case6 c d cs hc ih =>
      obtain ⟨⟨name', rest'⟩, hread, heq⟩ := Option.map_eq_some_iff.1 h
      cases heq
      obtain ⟨hcs, hrest⟩ := ih hread
      exact ⟨by rw [hcs, doubled, if_neg hc, List.cons_append], hrest⟩
  · rintro ⟨rfl, hrest⟩
    induction name with
    | nil => exact unquote?_quote hrest
    | cons c name ih =>
      rw [doubled]
      split
      · rename_i hc
        rw [List.cons_append, List.cons_append, unquote?_quotes, ih, hc]
        rfl
      · rename_i hc
        rw [List.cons_append, unquote?_of_ne hc, ih]
        rfl

end

/-- **Quoted names.** What is read from a text are exactly the quoted names, each with all of its
quotes and no more, up to a text that does not begin with one. -/
theorem readName?_eq_some_iff (d : Dialect) (text name following : String) :
    d.readName? text = some (name, following) ↔
      text = d.quote name ++ following ∧ following.toList.head? ≠ some d.quoteChar := by
  have htext : text = d.quote name ++ following ↔
      text.toList = d.quoteChar :: (doubled d.quoteChar name.toList ++
        d.quoteChar :: following.toList) := by
    rw [← String.toList_inj, String.toList_append, quote, String.toList_ofList, quoteChars,
      List.cons_append, List.cons_append, List.append_assoc, List.singleton_append]
  rw [htext, readName?]
  cases text.toList with
  | nil => simp
  | cons c rest =>
    by_cases hc : c = d.quoteChar
    · simp only [hc, if_true, List.cons.injEq, true_and, ← unquote?_eq_some_iff,
        Option.map_eq_some_iff, Prod.mk.injEq]
      constructor
      · rintro ⟨⟨_, _⟩, hread, rfl, rfl⟩
        simpa using hread
      · intro hread
        exact ⟨_, hread, String.ofList_toList, String.ofList_toList⟩
    · simp [hc]

end RecordGraph.Dialect
