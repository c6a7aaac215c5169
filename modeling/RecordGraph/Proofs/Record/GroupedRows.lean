import Mathlib.Data.List.Perm.Subperm
import RecordGraph.Proofs.JoinTree.GroupedReads
import RecordGraph.Proofs.Query.Load
import RecordGraph.Proofs.Record.RowByRow

/-!
# The records of groups

Every row of a grouped query is a group. It becomes a record of its own, unless the query groups by
the key of the root: then rows with one key become one record, and a row without a key none.

**Results.**
* `Unpacker.keys_of_foldl_visit`: where the key of the root is read, there are as many objects as
  there are keys.
* `JoinTree.get?_of_element`: what an element shows is found in a row, if no column of the element
  hides a calculation.
* `QueryOf.Carries`: a record has the values that a row shows of the root.
* `QueryOf.load_grouped`: when the records of a grouped query are its rows, one by one.
-/
namespace RecordGraph

/-! ## Lists -/

section Lists

variable {α β : Type}

/-- Lists of one entry each, in a row. -/
theorem forall₂_flatMap {R : α → β → Prop} {f : α → List β} : ∀ {as : List α},
    (∀ a ∈ as, ∃ b, f a = [b] ∧ R a b) → List.Forall₂ R as (as.flatMap f)
  | [], _ => .nil
  | a :: as, h => by
    obtain ⟨b, hb, hR⟩ := h a List.mem_cons_self
    rw [List.flatMap_cons, hb, List.singleton_append]
    exact .cons hR (forall₂_flatMap fun x hx => h x (List.mem_cons_of_mem _ hx))

theorem length_filterMap_eq_iff {f : α → Option β} : ∀ {as : List α},
    (as.filterMap f).length = as.length ↔ ∀ a ∈ as, (f a).isSome
  | [] => by simp
  | a :: as => by
    have hle := List.length_filterMap_le f as
    cases ha : f a with
    | none =>
      simp only [List.filterMap_cons, ha, List.length_cons, List.forall_mem_cons,
        Option.isSome_none, Bool.false_eq_true, false_and, iff_false]
      omega
    | some b => simp [ha, length_filterMap_eq_iff]

theorem length_eraseDups_eq_iff [BEq α] [LawfulBEq α] {as : List α} :
    as.eraseDups.length = as.length ↔ as.Nodup := by
  have hsub : as.eraseDups.Subperm as :=
    (nodup_eraseDups as).subperm fun _ => List.mem_eraseDups.1
  refine ⟨fun h => ?_, fun h => by rw [eraseDups_of_nodup h]⟩
  exact (hsub.perm_of_length_le (Nat.le_of_eq h.symm)).nodup_iff.1 (nodup_eraseDups as)

theorem length_eraseDups_le [BEq α] [LawfulBEq α] (as : List α) :
    as.eraseDups.length ≤ as.length :=
  ((nodup_eraseDups as).subperm fun _ => List.mem_eraseDups.1).length_le

end Lists

namespace Element

/-- There are as many keys as rows just when every row has a key of its own. -/
theorem length_keysIn_eq_iff (e : Element) (rows : List Row) :
    (e.keysIn rows).length = rows.length ↔
      (∀ row ∈ rows, (e.keyIn? row).isSome) ∧ e.KeysApart rows := by
  rw [keysIn, KeysApart, ← length_filterMap_eq_iff, ← length_eraseDups_eq_iff]
  have hkeys := length_eraseDups_le (rows.filterMap e.keyIn?)
  have hrows := List.length_filterMap_le e.keyIn? rows
  omega

/-- Where no key is read, every row has an object, and none shares a key. -/
theorem rootIn_of_keyless (e : Element) (hnone : e.emittedKey? = none) (rows : List Row) :
    (∀ row ∈ rows, e.rootIn row = true) ∧ e.KeysApart rows := by
  refine ⟨fun row _ => by rw [rootIn, hnone]; rfl, ?_⟩
  have hkeys : rows.filterMap e.keyIn? = [] :=
    List.filterMap_eq_nil_iff.2 fun row _ => by rw [keyIn?, hnone, Option.bind_none]
  rw [KeysApart, hkeys]
  exact List.nodup_nil

/-- No column of an element is named like the label of one of its calculations goes on. -/
def NamesApart (e : Element) : Prop :=
  ∀ c ∈ e.emitted, ∀ k ∈ e.calculations, c.column.name ≠ "calc_" ++ k.name

instance (e : Element) : Decidable e.NamesApart :=
  inferInstanceAs (Decidable
    (∀ c ∈ e.emitted, ∀ k ∈ e.calculations, c.column.name ≠ "calc_" ++ k.name))

end Element

/-! ## As many records as keys -/

namespace Unpacker

variable {e : Element} {bs : List Branch}

/-- A row adds its key, unless an object has it. -/
theorem keys_of_merge {k : Key} {old : Pending → Pending} {fresh : Pending}
    (hold : ∀ p, (old p).key = p.key) (hfresh : fresh.key = some k) : ∀ objects : List Pending,
      (merge k old fresh objects).map (·.key) =
        if some k ∈ objects.map (·.key) then objects.map (·.key)
        else objects.map (·.key) ++ [some k]
  | [] => by simp [merge, hfresh]
  | p :: rest => by
    by_cases hp : p.key = some k
    · simp [merge, hp, hold]
    · have hp' : some k ≠ p.key := fun h => hp h.symm
      simp only [merge, hp, if_false, List.map_cons, keys_of_merge hold hfresh rest, List.mem_cons,
        hp', false_or]
      split <;> rfl

/-- The objects of rows with a key that is read have the keys in the rows. -/
theorem keys_of_foldl_visit (hm : e.materialized = true) (hk : e.emittedKey?.isSome = true)
    (rows : List Row) :
    (rows.foldl (fun objects row => visit row (.node e bs) objects) []).map (·.key) =
      (e.keysIn rows).map some := by
  induction rows using List.reverseRecOn with
  | nil => rfl
  | append_singleton rows row ih =>
    rw [List.foldl_append, List.foldl_cons, List.foldl_nil, visit, e.keysIn_concat]
    simp only [hm, Bool.not_true, Bool.false_eq_true, if_false, identity_eq hk]
    cases hkey : e.keyIn? row with
    | none => exact ih
    | some k =>
      rw [keys_of_merge, ih]
      · simp only [List.mem_map, Option.some.injEq, exists_eq_right]
        split
        · rfl
        · rw [List.map_append]
          rfl
      · exact fun _ => rfl
      · rfl

end Unpacker

namespace JoinTree

variable {projection : Projection} {lead : String} {q : Query} {t : JoinTree} {row : Row}
  {rows : List Row}

/-- As many records are made of rows as there are keys of the root, where these are read. -/
theorem length_records_of_key (h : compile projection lead q = .ok t)
    (hk : t.root.emittedKey?.isSome = true) (rows : List Row) :
    (Unpacker.records t rows).length = (t.root.keysIn rows).length := by
  have hroot : t.branch = t.branchAt t.root := rfl
  rw [Unpacker.records, Unpacker.start, Unpacker.foldl_push_eq, Unpacker.finish, hroot,
    List.length_map]
  dsimp only
  rw [branchAt_eq (compile_linked h), ← List.length_map (·.key),
    Unpacker.keys_of_foldl_visit (root_materialized h) hk, List.length_map]

/-! ## What an element shows is found -/

end JoinTree

/-- What the label of an output goes on with behind that of its element. -/
def Output.ending : Output → String
  | .column _ c => c.column.name
  | .calculation _ k => "calc_" ++ k.name

/-- What comes first under its name is found. -/
theorem lookup_label {R : Output → Prop} : ∀ {os : List Output} {cells : List (String × Value)},
    cells.map (·.1) = os.map Output.label → os.Pairwise (fun a b => R b → a.label ≠ b.label) →
      ∀ p ∈ os.zip (cells.map (·.2)), R p.1 → cells.lookup p.1.label = some p.2
  | [], _, _, _, p, hp, _ => by
    rw [List.zip_nil_left] at hp
    cases hp
  | o :: os, [], h, _, _, _, _ => by cases h
  | o :: os, (label, v) :: cells, h, hapart, p, hp, hR => by
    obtain ⟨rfl, htail⟩ := List.cons.inj h
    obtain ⟨hne, hrest⟩ := List.pairwise_cons.1 hapart
    rcases List.mem_cons.1 hp with rfl | hp
    · exact List.lookup_cons_self
    · have hlabel := hne p.1 (List.of_mem_zip hp).1 hR
      rw [List.lookup_cons, beq_false_of_ne (Ne.symm hlabel)]
      exact lookup_label htail hrest p hp hR

namespace JoinTree

section
variable (h : compile projection lead q = .ok t)
include h

theorem compile_label {o : Output} (ho : o ∈ t.outputs) :
    o.label = o.element.label ++ "__" ++ o.ending := by
  obtain ⟨he, hshown⟩ := mem_outputs.1 ho
  cases o with
  | column e c =>
    obtain ⟨r, keys, -, -, -, ht⟩ := compile_cases h
    obtain ⟨j, -, rfl⟩ := (mem_elements ht).1 he
    obtain ⟨d, -, rfl⟩ := List.mem_map.1 (List.mem_filter.1 hshown).1
    rfl
  | calculation e k => exact compile_calculation_label h he hshown

theorem emitted_names {e : Element} (he : e ∈ t.elements) :
    (e.emitted.map (·.column.name)).Nodup := by
  obtain ⟨r, keys, -, -, -, ht⟩ := compile_cases h
  obtain ⟨j, -, rfl⟩ := (mem_elements ht).1 he
  have hnames : ((r.element lead keys j).columns.map (·.column.name)).Nodup := by
    simpa [Reads.element, Function.comp_def] using r.columnsOf_names keys j
  exact hnames.sublist (List.filter_sublist.map _)

theorem calculation_names {e : Element} (he : e ∈ t.elements) :
    (e.calculations.map (·.name)).Nodup := by
  obtain ⟨r, keys, hr, -, -, ht⟩ := compile_cases h
  obtain ⟨j, -, rfl⟩ := (mem_elements ht).1 he
  simp only [Reads.element, List.map_map, Function.comp_def]
  rw [List.nodup_iff_pairwise_ne, List.pairwise_map]
  refine ((Reads.calculations_apart hr).filter _).imp_of_mem fun {a b} ha hb hab hn => hab ⟨?_, hn⟩
  rw [beq_iff_eq.1 (List.mem_filter.1 ha).2, beq_iff_eq.1 (List.mem_filter.1 hb).2]

/-- Outputs with different endings in each element have different labels. -/
theorem nodup_labels {f : Element → List Output}
    (hf : ∀ e ∈ t.elements, ∀ o ∈ f e, o ∈ t.outputs ∧ o.element = e)
    (hn : ∀ e ∈ t.elements, ((f e).map Output.ending).Nodup) :
    ((t.elements.flatMap f).map Output.label).Nodup := by
  have hlabels : (t.elements.flatMap f).map Output.label =
      t.elements.flatMap fun e => ((f e).map Output.ending).map (e.label ++ "__" ++ ·) := by
    rw [List.map_flatMap]
    refine List.flatMap_congr fun e he => ?_
    rw [List.map_map]
    refine List.map_congr_left fun o ho => ?_
    obtain ⟨hout, rfl⟩ := hf e he o ho
    exact compile_label h hout
  rw [hlabels]
  exact (compile_linked h).labels_nodup (compile_nodup h) hn

/-- No label comes before that of an element's output, if the names of the element are apart. -/
theorem labels_pairwise {e : Element} (hapart : e.NamesApart) :
    t.outputs.Pairwise fun a b => b.element = e → a.label ≠ b.label := by
  have hcolumn : ∀ {e}, e ∈ t.elements → ∀ o ∈ e.emitted.map (Output.column e),
      o ∈ t.outputs ∧ o.element = e := by
    intro e he o ho
    obtain ⟨c, hc, rfl⟩ := List.mem_map.1 ho
    exact ⟨mem_outputs.2 ⟨he, hc⟩, rfl⟩
  have hcalculation : ∀ {e}, e ∈ t.elements → ∀ o ∈ e.calculations.map (Output.calculation e),
      o ∈ t.outputs ∧ o.element = e := by
    intro e he o ho
    obtain ⟨k, hk, rfl⟩ := List.mem_map.1 ho
    exact ⟨mem_outputs.2 ⟨he, hk⟩, rfl⟩
  have hcolumns := nodup_labels h (fun e he => hcolumn he) fun e he => by
    rw [List.map_map]
    exact emitted_names h he
  have hcalculations := nodup_labels h (fun e he => hcalculation he) fun e he => by
    have hnames := (calculation_names h he).map (f := ("calc_" ++ ·)) fun a b hab => by
      simpa using hab
    rw [List.map_map] at hnames ⊢
    exact hnames
  rw [List.nodup_iff_pairwise_ne, List.pairwise_map] at hcolumns hcalculations
  rw [outputs, List.pairwise_append]
  refine ⟨hcolumns.imp fun {_ b} hne (_ : b.element = e) => hne,
    hcalculations.imp fun {_ b} hne (_ : b.element = e) => hne, ?_⟩
  -- a column before a calculation
  intro a ha b hb hbe hlabel
  obtain ⟨e₁, he₁, ha⟩ := List.mem_flatMap.1 ha
  obtain ⟨e₂, he₂, hb⟩ := List.mem_flatMap.1 hb
  obtain ⟨c, hc, rfl⟩ := List.mem_map.1 ha
  obtain ⟨k, hk, rfl⟩ := List.mem_map.1 hb
  obtain rfl : e₂ = e := hbe
  rw [compile_label h (hcolumn he₁ _ ha).1, compile_label h (hcalculation he₂ _ hb).1] at hlabel
  obtain ⟨heq, hending⟩ := (compile_linked h).columnLabel_inj he₁ he₂ hlabel
  obtain rfl : e₁ = e₂ := heq
  exact hapart c hc k hk hending

/-- What an element shows is found, if its names are apart. -/
theorem get?_of_element {e : Element} (hapart : e.NamesApart)
    (hrow : row.cells.map (·.1) = t.outputs.map Output.label) {p : Output × Value}
    (hp : p ∈ t.cells row) (he : p.1.element = e) : row.get? p.1.label = some p.2 :=
  lookup_label hrow (labels_pairwise h hapart) p hp he

/-- An element has the calculations that the query declares there. -/
theorem exists_calculation {e : Element} (he : e ∈ t.elements) {k : Calculation Node}
    (hk : k ∈ q.calculations) (hp : k.target.path? = some e.path) :
    ∃ o ∈ e.calculations, o.name = k.name := by
  obtain ⟨r, keys, hr, -, -, ht⟩ := compile_cases h
  obtain ⟨j, -, rfl⟩ := (mem_elements ht).1 he
  have hdeclared : (⟨j.path, k.name, k.expression⟩ : Declared) ∈ r.calculations :=
    (Reads.mem_calculations_iff hr).2 ⟨k, hk, hp, rfl, rfl⟩
  exact ⟨_, List.mem_map_of_mem (List.mem_filter.2 ⟨hdeclared, beq_iff_eq.2 rfl⟩), rfl⟩

theorem root_path? : q.root.path? = some t.root.path := by
  obtain ⟨r, keys, hr, -, hroot, -⟩ := compile_cases h
  obtain ⟨table, hq, hrr, -⟩ := Reads.ofQuery?_adds hr
  rw [hroot, hq, Reads.element, hrr]
  rfl

end

end JoinTree

/-! ## Groups as records -/

/-- A record has the values that a row shows of the root: of the columns that the query groups by,
and of the root's calculations. -/
structure QueryOf.Carries (q : Query) (t : JoinTree) (row : Row) (r : Record) : Prop where
  columns : ∀ g ∈ q.groupBys, g.path? = q.root.path? → ∀ c, g.column? = some c →
    ∃ o v, (.column t.root o, v) ∈ t.cells row ∧ o.column.name = c.name ∧
      r.values.find? c.name = some v
  calculations : ∀ k ∈ q.calculations, k.target.path? = q.root.path? →
    ∃ o v, (.calculation t.root o, v) ∈ t.cells row ∧ o.name = k.name ∧
      r.calculations.find? k.name = some v

namespace JoinTree

variable {projection : Projection} {lead : String} {q : Query} {t : JoinTree} {row : Row}
  {rows : List Row}

section
variable (hg : q.groupBys ≠ []) (h : compile projection lead q = .ok t)
  (hapart : t.root.NamesApart)
include hg h hapart

/-- A row with an object of the root gives one record, which has what the row shows. -/
theorem exists_carries (hrow : row.cells.map (·.1) = t.outputs.map Output.label)
    (hin : t.root.rootIn row = true) : ∃ r, t.alone row t.root = [r] ∧ q.Carries t row r := by
  have hl := compile_linked h
  have hroot : t.root ∈ t.elements := List.mem_cons_self
  have hpath := root_path? h
  have hshown : ∀ {o v}, (o, v) ∈ t.cells row → o.element = t.root → ∀ slots,
      o.shownBy (t.root.groupRecord [row] slots) = some v := by
    intro o v hov he slots
    have hget := get?_of_element h hapart hrow hov he
    rw [← he] at hroot ⊢
    exact shownBy_groupRecord (List.of_mem_zip hov).1 (emitted_names h hroot)
      (calculation_names h hroot) hget slots
  have hi : Unpacker.identity t.root row ≠ .absent := by
    rw [Ne, identity_root_eq_absent_iff hl, hin]
    exact Bool.noConfusion
  refine ⟨_, alone_eq hl (root_materialized h) hi, fun g hgm hp c hc => ?_, fun k hk hp => ?_⟩
  · obtain ⟨o, ho, hname⟩ := exists_emitted hg h hroot hgm hc (hp.trans hpath)
    obtain ⟨v, hv⟩ := exists_mem_cells hrow (mem_outputs.2 ⟨hroot, ho⟩ : .column t.root o ∈ t.outputs)
    exact ⟨o, v, hv, hname, hname ▸ hshown hv rfl _⟩
  · obtain ⟨o, ho, hname⟩ := exists_calculation h hroot hk (hp.trans hpath)
    obtain ⟨v, hv⟩ :=
      exists_mem_cells hrow (mem_outputs.2 ⟨hroot, ho⟩ : .calculation t.root o ∈ t.outputs)
    exact ⟨o, v, hv, hname, hname ▸ hshown hv rfl _⟩

/-- The records of a grouped query are its rows, one by one, just when every row has an object of
the root and no two share its key. -/
theorem forall₂_carries_iff
    (hrows : ∀ row ∈ rows, row.cells.map (·.1) = t.outputs.map Output.label) :
    List.Forall₂ (q.Carries t) rows (Unpacker.records t rows) ↔
      (∀ row ∈ rows, t.root.rootIn row = true) ∧ t.root.KeysApart rows := by
  constructor
  · intro hall
    cases hkey : t.root.emittedKey? with
    | none => exact t.root.rootIn_of_keyless hkey rows
    | some c =>
      have hlength := hall.length_eq
      rw [length_records_of_key h (by rw [hkey]; rfl)] at hlength
      obtain ⟨hin, hkeys⟩ := (t.root.length_keysIn_eq_iff rows).1 hlength.symm
      exact ⟨fun row hr => by rw [Element.rootIn, hin row hr, Bool.or_true], hkeys⟩
  · rintro ⟨hin, hkeys⟩
    rw [records_apart (compile_linked h) hkeys]
    exact forall₂_flatMap fun row hr => exists_carries hg h hapart (hrows row hr) (hin row hr)

omit hapart in
/-- Without the key of the root among the groups, every row has an object of its own. -/
theorem rootIn_of_groups (hkeyless : ∀ g ∈ q.groupBys, g.path? = q.root.path? →
    ∀ c, g.column? = some c → c.primaryKey = false) (rows : List Row) :
    (∀ row ∈ rows, t.root.rootIn row = true) ∧ t.root.KeysApart rows := by
  have hnone : t.root.emittedKey? = none := by
    refine List.find?_eq_none.2 fun o ho hprimary => ?_
    obtain ⟨g, hgm, hc, hp⟩ := grouped_of_emitted hg h List.mem_cons_self ho
    rw [hkeyless g hgm (hp.trans (root_path? h).symm) _ hc] at hprimary
    cases hprimary
  exact t.root.rootIn_of_keyless hnone rows

end

end JoinTree

/-- **Groups are records.** The rows of a grouped query become the records of a load, one by one and
in their order, each with what its row shows of the root: just when the query does not group by the
key of the root, or every row has a key of its own. No column of the root may hide a calculation. -/
theorem QueryOf.load_grouped {q : Query} {t : JoinTree} (hg : q.groupBys ≠ [])
    (h : JoinTree.compile .objects "" q = .ok t) (hapart : t.root.NamesApart) {rows : List Row}
    (hrows : ∀ row ∈ rows, row.cells.map (·.1) = t.outputs.map Output.label) :
    (List.Forall₂ (q.Carries t) rows (Unpacker.records t rows) ↔
      (∀ row ∈ rows, t.root.rootIn row = true) ∧ t.root.KeysApart rows) ∧
    ((∀ g ∈ q.groupBys, g.path? = q.root.path? → ∀ c, g.column? = some c → c.primaryKey = false) →
      List.Forall₂ (q.Carries t) rows (Unpacker.records t rows)) ∧
    ∀ {σ : Type} (db : Connection σ) {c : Compiled} {s s₁ : σ} {raws : List (List Value)},
      q.compile db.dialect = .ok c →
      db.query c.command s = (.ok ⟨raws.map fun raw => .ok (some raw), .ok ()⟩, s₁) →
      raws.map (Row.decode "load" (c.statement db.dialect) c.columns) = rows.map .ok →
        q.load db s = (.ok (Unpacker.records t rows), (db.release s₁).2) := by
  have hiff := JoinTree.forall₂_carries_iff hg h hapart hrows
  refine ⟨hiff, fun hkeyless => hiff.2 (JoinTree.rootIn_of_groups hg h hkeyless rows), ?_⟩
  intro σ db c s s₁ raws hc hq hdecode
  obtain rfl : c.tree = t := Except.ok.inj ((compile_tree hc).symm.trans h)
  exact load_run hc hq hdecode

/-! ## Groups of books -/

namespace Library

/-- The books, grouped, with the number of books in a group. -/
def groupedBooks (groups : List (List Link)) (s : Schema) : Except Error Query := do
  let books ← Chain.follow s "books" []
  let groupBys ← groups.mapM fun links => (Chain.follow s "books" links).map (·.node)
  .ok { QueryOf.all books.node with
    groupBys, calculations := [⟨books.node, "n", .operation .countAll []⟩] }

/-- Rows of the groups, with their query. -/
def groupedRows (groups : List (List Link)) (raws : List (List Value)) :
    Except Error (Query × Compiled × List Row) := do
  let s ← Schema.ofDeclaration declaration
  let q ← groupedBooks groups s
  let c ← q.compile .sqlite
  let rows ← raws.mapM (Row.decode "load" (c.statement .sqlite) c.columns)
  .ok (q, c, rows)

variable {groups : List (List Link)} {raws : List (List Value)} {q : Query} {c : Compiled}
  {rows : List Row}

theorem groupedRows_cases (h : groupedRows groups raws = .ok (q, c, rows)) :
    q.compile (Script.connection .sqlite).dialect = .ok c ∧
      raws.map (Row.decode "load" (c.statement (Script.connection .sqlite).dialect) c.columns) =
        rows.map .ok := by
  obtain ⟨s, -, h⟩ := bind_eq_ok_iff.1 h
  obtain ⟨q', -, h⟩ := bind_eq_ok_iff.1 h
  obtain ⟨c', hc, h⟩ := bind_eq_ok_iff.1 h
  obtain ⟨rows', hrows, h⟩ := bind_eq_ok_iff.1 h
  cases h
  exact ⟨hc, mapM_eq_ok_iff.1 hrows⟩

/-- A check of the rows of a query that groups, and whose names are apart. -/
def groupedCheck (groups : List (List Link)) (raws : List (List Value))
    (check : Compiled → List Row → Bool) : Bool :=
  match groupedRows groups raws with
  | .ok (q, c, rows) => !q.groupBys.isEmpty && decide c.tree.root.NamesApart &&
      decide (∀ row ∈ rows, row.cells.map (·.1) = c.tree.outputs.map Output.label) && check c rows
  | .error _ => false

theorem groupedCheck_cases {check : Compiled → List Row → Bool}
    (h : groupedCheck groups raws check = true) : ∃ q c rows,
      groupedRows groups raws = .ok (q, c, rows) ∧ q.groupBys ≠ [] ∧ c.tree.root.NamesApart ∧
        (∀ row ∈ rows, row.cells.map (·.1) = c.tree.outputs.map Output.label) ∧
          check c rows = true := by
  unfold groupedCheck at h
  split at h
  · rename_i q c rows hrows
    simp only [Bool.and_eq_true, decide_eq_true_eq] at h
    obtain ⟨⟨⟨hg, hapart⟩, hlaid⟩, hcheck⟩ := h
    exact ⟨q, c, rows, hrows, by simpa using hg, hapart, hlaid, hcheck⟩
  · cases h

/-- The books of two authors: two groups, and a record of each. -/
theorem authors_grouped : ∃ q c rows records,
    groupedRows [[.column "author_id"]] [[.int 1, .int 2], [.int 2, .int 1]] = .ok (q, c, rows) ∧
      rows.length = 2 ∧ List.Forall₂ (q.Carries c.tree) rows records ∧
      (q.load (Script.connection .sqlite) (answers [[.int 1, .int 2], [.int 2, .int 1]])).1 =
        .ok records := by
  obtain ⟨q, c, rows, h, hg, hapart, hlaid, hcheck⟩ := groupedCheck_cases (by cbv :
    groupedCheck [[.column "author_id"]] [[.int 1, .int 2], [.int 2, .int 1]] (fun c rows =>
      rows.length == 2 && decide ((∀ row ∈ rows, c.tree.root.rootIn row = true) ∧
        c.tree.root.KeysApart rows)) = true)
  obtain ⟨hlength, hkeys⟩ := Bool.and_eq_true_iff.1 hcheck
  obtain ⟨hc, hrows⟩ := groupedRows_cases h
  obtain ⟨hiff, -, hload⟩ := QueryOf.load_grouped hg (QueryOf.compile_tree hc) hapart hlaid
  exact ⟨q, c, rows, _, h, beq_iff_eq.1 hlength, hiff.2 (of_decide_eq_true hkeys),
    congrArg Prod.fst (hload (Script.connection .sqlite) hc (answers_query _ c.command) hrows)⟩

/-- One book with two labels, grouped by both: two groups, but one record. -/
theorem exists_groups_folded : ∃ q c rows r,
    groupedRows [[.column "id"], [.manyMany "tags", .column "label"]]
      [[.int 1, .text "poetry", .int 1], [.int 1, .text "sea", .int 1]] = .ok (q, c, rows) ∧
      q.groupBys ≠ [] ∧ c.tree.root.NamesApart ∧ rows.length = 2 ∧
      (q.load (Script.connection .sqlite) (answers
        [[.int 1, .text "poetry", .int 1], [.int 1, .text "sea", .int 1]])).1 = .ok [r] ∧
      ¬List.Forall₂ (q.Carries c.tree) rows [r] := by
  obtain ⟨q, c, rows, h, hg, hapart, hlaid, hcheck⟩ := groupedCheck_cases (by cbv :
    groupedCheck [[.column "id"], [.manyMany "tags", .column "label"]]
      [[.int 1, .text "poetry", .int 1], [.int 1, .text "sea", .int 1]] (fun c rows =>
        rows.length == 2 && (Unpacker.records c.tree rows).length == 1) = true)
  obtain ⟨hlength, hone⟩ := Bool.and_eq_true_iff.1 hcheck
  obtain ⟨r, hr⟩ := List.length_eq_one_iff.1 (beq_iff_eq.1 hone)
  obtain ⟨hc, hrows⟩ := groupedRows_cases h
  have hload := QueryOf.load_run hc (answers_query _ c.command) hrows
  rw [hr] at hload
  refine ⟨q, c, rows, r, h, hg, hapart, beq_iff_eq.1 hlength, congrArg Prod.fst hload,
    fun hall => ?_⟩
  have hsame := hall.length_eq
  rw [beq_iff_eq.1 hlength] at hsame
  cases hsame

end Library

end RecordGraph
