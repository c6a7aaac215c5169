import RecordGraph.Proofs.Query.Load
import RecordGraph.Proofs.Record.SavedKeys

/-!
# Records and the relations of their tables

Relations come into a record in two ways: a query loads them, by the kind of each relation that it
follows, or a program replaces them or adds to them, by what the table says of their names. Both
agree, for a name stands for one relation of a table; so whatever is done with records, a relation
of theirs is one of the table, to one record or to many as its kind is.

**Results.**
* `Table.Names`: a name stands for a relation and no other; `Record.isPlural?_eq_ok_iff`: what the
  table says of it.
* `Record.WellFormed`: relations throughout a graph are as the tables say, with one lemma for each
  step of a program.
* `Record.Reachable`: the records that a program can come by; all of them are well-formed.
* `Record.slots_agree`: their relations, and which calls on them are accepted.
-/
namespace RecordGraph

/-! ## Names of relations -/

namespace Table

/-- An identifier among different ones is that of one entry. -/
theorem filter_identifier {α β : Type} [BEq β] [LawfulBEq β] {f : α → β} {as : List α}
    (h : (as.map f).Nodup) {a : α} (ha : a ∈ as) : as.filter (f · == f a) = [a] := by
  induction as with
  | nil => cases ha
  | cons b as ih =>
    obtain ⟨hb, has⟩ := List.nodup_cons.1 h
    rcases List.mem_cons.1 ha with rfl | ha
    · have hnone : as.filter (f · == f a) = [] := List.filter_eq_nil_iff.2 fun c hc hca =>
        hb (beq_iff_eq.1 hca ▸ List.mem_map_of_mem hc)
      rw [List.filter_cons, if_pos (beq_self_eq_true _), hnone]
    · have hne : ¬(f b == f a) = true := fun hba => hb (beq_iff_eq.1 hba ▸ List.mem_map_of_mem ha)
      rw [List.filter_cons, if_neg hne, ih has ha]

/-- The name is that of exactly one relation of the table, of this one. -/
def Names (t : Table) (identifier : String) (relation : Relation) : Prop :=
  t.relations.filter (·.identifier? == some identifier) = [relation]

theorem Sound.names_iff {t : Table} (h : t.Sound) {identifier : String} {relation : Relation} :
    t.Names identifier relation ↔
      relation ∈ t.relations ∧ relation.identifier? = some identifier := by
  constructor
  · intro hn
    have hmem : relation ∈ t.relations.filter (·.identifier? == some identifier) := by
      rw [hn]
      exact List.mem_singleton_self _
    obtain ⟨hmem, hname⟩ := List.mem_filter.1 hmem
    exact ⟨hmem, beq_iff_eq.1 hname⟩
  · rintro ⟨hmem, hname⟩
    rw [Names, ← hname]
    exact filter_identifier h.relations_nodup hmem

end Table

namespace Record

variable {r r' c : Record} {identifier : String}

/-- A name is known where it is that of one relation, whose kind says to one or to many. -/
theorem isPlural?_eq_ok_iff (h : r.table.Sound) {b : Bool} : r.isPlural? identifier = .ok b ↔
    ∃ relation, r.table.Names identifier relation ∧ relation.isPlural = b := by
  constructor
  · intro hb
    rcases isPlural?_cases hb with ⟨q, hq, rfl, rfl⟩ | ⟨q, hq, rfl, rfl⟩ | ⟨m, hm, rfl, rfl⟩
    · have hmem := Table.mem_relations.2 (.inl ⟨q, hq, rfl⟩)
      exact ⟨.reference q, h.names_iff.2 ⟨hmem, rfl⟩, rfl⟩
    · have hmem := Table.mem_relations.2 (.inr (.inl ⟨q, hq, rfl⟩))
      exact ⟨.reverse q, h.names_iff.2 ⟨hmem, rfl⟩, rfl⟩
    · have hmem := Table.mem_relations.2 (.inr (.inr ⟨m, hm, rfl⟩))
      exact ⟨.manyMany m, h.names_iff.2 ⟨hmem, rfl⟩, rfl⟩
  · rintro ⟨relation, hn, rfl⟩
    obtain ⟨hmem, hname⟩ := h.names_iff.1 hn
    exact isPlural?_of_mem h hmem hname

/-! ## Changed relations -/

theorem many_subset_related (r : Record) (identifier : String) :
    r.many identifier ⊆ r.related identifier := by
  rw [many, many?, Record.related]
  cases r.relation? identifier with
  | none => exact List.Subset.refl _
  | some related =>
    cases related with
    | one record => exact List.nil_subset _
    | many records => exact List.Subset.refl _

theorem many_replace (r : Record) (identifier : String) (records : List Record) :
    (r.replace identifier (.many records)).many identifier = records := by
  simp [many, many?, relation?, replace]

theorem Formed.replace (h : r.Formed) {related : Related Record}
    (hplural : r.isPlural? identifier = .ok related.isMany) :
    (r.replace identifier related).Formed := by
  intro other slot hslot
  by_cases ho : other = identifier
  · subst ho
    obtain rfl := Option.some.inj ((NameMap.find?_insert_self ..).symm.trans hslot)
    exact hplural
  · exact h other slot ((NameMap.find?_insert_of_ne _ _ ho).symm.trans hslot)

/-- Adding to a relation to many appends, for no such relation holds one record. -/
theorem Formed.push_eq_ok_iff (h : r.Formed) {record : Record} :
    r.push identifier record = .ok r' ↔ r.isPlural? identifier = .ok true ∧
      r' = r.replace identifier (.many (r.many identifier ++ [record])) := by
  rw [push, bind_eq_ok_iff, Bool.exists_bool]
  have hmany : r.many identifier = ((r.many? identifier).getD []) := rfl
  simp only [Bool.false_eq_true, if_false, if_true, fail, reduceCtorEq, and_false, false_or]
  refine and_congr_right fun hplural => ?_
  rw [hmany, many?, relation?]
  cases hs : r.slots.find? identifier with
  | none => simp [eq_comm]
  | some slot =>
    obtain ⟨related, modified⟩ := slot
    cases related with
    | one old =>
      have hone : true = false := Except.ok.inj (hplural.symm.trans (h identifier _ hs))
      cases hone
    | many old => simp [eq_comm]

/-! ## Well-formed graphs -/

/-- At every place of the graph the relations are some of the table, as the table says. -/
def WellFormed (r : Record) : Prop := ∀ p x, r.at? p = some x → x.table.Sound ∧ x.Formed

theorem wellFormed_iff : r.WellFormed ↔
    (r.table.Sound ∧ r.Formed) ∧ ∀ identifier, ∀ c ∈ r.related identifier, c.WellFormed := by
  constructor
  · intro h
    refine ⟨h [] r rfl, fun identifier c hc p x hx => ?_⟩
    obtain ⟨i, hi⟩ := List.mem_iff_getElem?.1 hc
    exact h ((identifier, i) :: p) x (at?_cons_eq_some_iff.2 ⟨c, hi, hx⟩)
  · rintro ⟨hroot, hbelow⟩ p x hx
    cases p with
    | nil => exact Option.some.inj hx ▸ hroot
    | cons step p =>
      obtain ⟨identifier, i⟩ := step
      obtain ⟨c, hc, hx⟩ := at?_cons_eq_some_iff.1 hx
      exact hbelow identifier c (List.mem_of_getElem? hc) p x hx

theorem wellFormed_new {t : Table} (h : t.Sound) : (new t).WellFormed :=
  wellFormed_iff.2 ⟨⟨h, nofun⟩, nofun⟩

theorem Loaded.wellFormed {s : Schema} (hs : Schema.SoundTables s.tables) (h : r.Loaded s) :
    r.WellFormed := fun _ _ hx =>
  have hx := h.untouched hs hx
  ⟨hs.sound _ hx.mem, hx.formed⟩

namespace WellFormed

theorem root (h : r.WellFormed) : r.table.Sound ∧ r.Formed := h [] r rfl

theorem related (h : r.WellFormed) (hc : c ∈ r.related identifier) : c.WellFormed :=
  (wellFormed_iff.1 h).2 identifier c hc

/-- Columns have nothing to do with it. -/
theorem set {key : String} {v : Value} (h : r.WellFormed) (hset : r.set key v = .ok r') :
    r'.WellFormed := by
  obtain ⟨column, -, -, -, rfl⟩ := set_cases hset
  obtain ⟨⟨hsound, hformed⟩, hbelow⟩ := wellFormed_iff.1 h
  refine wellFormed_iff.2 ⟨⟨?_, fun other slot hslot => ?_⟩, fun other c hc => ?_⟩
  · rwa [assign_table]
  · rw [assign_slots] at hslot
    rw [isPlural?, assign_table]
    exact hformed other slot hslot
  · rw [related_congr (by rw [assign_slots] : _ = r.slots.find? other)] at hc
    exact hbelow other c hc

theorem replace (h : r.WellFormed) {related : Related Record}
    (hplural : r.isPlural? identifier = .ok related.isMany)
    (hrelated : ∀ c ∈ related.toList, c.WellFormed) : (r.replace identifier related).WellFormed := by
  refine wellFormed_iff.2 ⟨⟨h.root.1, h.root.2.replace hplural⟩, fun other c hc => ?_⟩
  by_cases ho : other = identifier
  · rw [ho, related_replace] at hc
    exact hrelated c hc
  · rw [related_congr (NameMap.find?_insert_of_ne _ _ ho)] at hc
    exact h.related hc

theorem setOne (h : r.WellFormed) {record : Option Record} (hrecord : ∀ c ∈ record, c.WellFormed)
    (hset : r.setOne identifier record = .ok r') : r'.WellFormed := by
  obtain ⟨hplural, rfl⟩ := setOne_eq_ok_iff.1 hset
  refine h.replace hplural fun c hc => hrecord c ?_
  cases record with
  | none => cases hc
  | some record => exact congrArg some (List.mem_singleton.1 hc).symm

theorem setMany (h : r.WellFormed) {records : List Record} (hrecords : ∀ c ∈ records, c.WellFormed)
    (hset : r.setMany identifier records = .ok r') : r'.WellFormed := by
  obtain ⟨hplural, rfl⟩ := setMany_eq_ok_iff.1 hset
  exact h.replace hplural hrecords

theorem push (h : r.WellFormed) (hc : c.WellFormed) (hpush : r.push identifier c = .ok r') :
    r'.WellFormed := by
  obtain ⟨hplural, rfl⟩ := h.root.2.push_eq_ok_iff.1 hpush
  refine h.replace hplural fun d hd => ?_
  rcases List.mem_append.1 hd with hd | hd
  · exact h.related (many_subset_related _ _ hd)
  · exact List.mem_singleton.1 hd ▸ hc

/-- A related record may be changed into any other. -/
theorem setRelated (h : r.WellFormed) (hc : c.WellFormed) (i : Nat) :
    (r.setRelated identifier i c).WellFormed := by
  have hfollows : r.Follows (r.setRelated identifier i c) :=
    (Follows.refl r).modify (fun _ => Related.shape_set ..) fun _ hm => hm
  refine wellFormed_iff.2 ⟨⟨h.root.1, hfollows.formed h.root.2⟩, fun other d hd => ?_⟩
  by_cases ho : other = identifier
  · rw [ho, related_setRelated] at hd
    rcases List.mem_or_eq_of_mem_set hd with hd | rfl
    · exact h.related hd
    · exact hc
  · rw [related_setRelated_of_ne r i c ho] at hd
    exact h.related hd

/-- Saving keeps the relations of every record, whether it succeeds or fails half-way. -/
theorem save {σ : Type} (db : Connection σ) (s : σ) (h : r.WellFormed) :
    (save db (r, s)).2.1.WellFormed := by
  -- every record is in the course of being saved, of which nothing more is to be said
  have hkept : Kept db (fun _ => True) fun _ _ _ => True := by constructor <;> intros <;> trivial
  have hstart : Course db (fun _ _ _ => True) r s (r, s) := Course.refl fun _ _ _ => trivial
  have hcourse := saveWithin_course hkept r.depth (fun _ _ _ => trivial) hstart
  intro p y hy
  obtain ⟨x, hx, hf⟩ := exists_follows_of_at?
    (fun p x hx => (hcourse.2 p x hx).imp fun _ h => ⟨h.1, h.2.1⟩) hy
  obtain ⟨hsound, hformed⟩ := h p x hx
  exact ⟨hf.table ▸ hsound, hf.formed hformed⟩

end WellFormed

/-! ## What a program can do -/

/-- The records that a program comes by: new ones, those that queries load, what its calls make of
them, and the records related to them, which it may look at and change in place. -/
inductive Reachable : Record → Prop
  | new {d : SchemaDecl} {schema : Schema} {name : String} {t : Table}
      (hschema : Schema.ofDeclaration d = .ok schema) (ht : schema.requireTable name = .ok t) :
      Reachable (.new t)
  | load {d : SchemaDecl} {schema : Schema} {q : Query} {σ : Type} {db : Connection σ} {s s' : σ}
      {records : List Record} {r : Record} (hschema : Schema.ofDeclaration d = .ok schema)
      (hq : q.Over schema) (hload : q.load db s = (.ok records, s')) (hr : r ∈ records) :
      Reachable r
  | set {r r' : Record} {key : String} {v : Value} (hr : Reachable r) (h : r.set key v = .ok r') :
      Reachable r'
  | setOne {r r' : Record} {identifier : String} {record : Option Record} (hr : Reachable r)
      (hrecord : ∀ c ∈ record, Reachable c) (h : r.setOne identifier record = .ok r') :
      Reachable r'
  | setMany {r r' : Record} {identifier : String} {records : List Record} (hr : Reachable r)
      (hrecords : ∀ c ∈ records, Reachable c) (h : r.setMany identifier records = .ok r') :
      Reachable r'
  | push {r r' c : Record} {identifier : String} (hr : Reachable r) (hc : Reachable c)
      (h : r.push identifier c = .ok r') : Reachable r'
  | related {r c : Record} {identifier : String} (hr : Reachable r)
      (h : c ∈ r.related identifier) : Reachable c
  | setRelated {r c : Record} {identifier : String} {i : Nat} (hr : Reachable r)
      (hc : Reachable c) : Reachable (r.setRelated identifier i c)
  /-- Whether it succeeds or fails. -/
  | save {r r' : Record} {σ : Type} {db : Connection σ} {s s' : σ} {outcome : Except Error Unit}
      (hr : Reachable r) (h : save db (r, s) = (outcome, (r', s'))) : Reachable r'

theorem Reachable.wellFormed (h : r.Reachable) : r.WellFormed := by
  induction h with
  | new hschema ht =>
    have hs := Schema.ofDeclaration_sound hschema
    exact wellFormed_new
      (hs.sound _ (List.mem_of_find?_eq_some (Chain.requireTable_eq_ok_iff.1 ht)))
  | load hschema hq hload hr =>
    exact (QueryOf.load_loaded hq hload hr).wellFormed (Schema.ofDeclaration_sound hschema)
  | set _ h ih => exact ih.set h
  | setOne _ _ h ih ihrecord => exact ih.setOne ihrecord h
  | setMany _ _ h ih ihrecords => exact ih.setMany ihrecords h
  | push _ _ h ih ihc => exact ih.push ihc h
  | related _ h ih => exact ih.related h
  | setRelated _ _ ih ihc => exact ih.setRelated ihc _
  | @save r r' σ db s s' outcome _ h ih =>
    have hsaved := ih.save db s
    rwa [h] at hsaved

/-- **Relations agree with the schema.** Whatever a program has done with a record, the name of each
loaded relation is that of one relation of its table, and it is to one record or to many as the kind
of that is. Replacing a relation is accepted where it is to one or to many, respectively, and adding
to a relation to many; what is added comes last. -/
theorem slots_agree (hr : r.Reachable) (identifier : String) :
    (∀ slot, r.slots.find? identifier = some slot → ∃ relation,
      r.table.Names identifier relation ∧ slot.related.isMany = relation.isPlural) ∧
    (∀ record, (∃ r', r.setOne identifier record = .ok r') ↔
      ∃ relation, r.table.Names identifier relation ∧ relation.isPlural = false) ∧
    (∀ records, (∃ r', r.setMany identifier records = .ok r') ↔
      ∃ relation, r.table.Names identifier relation ∧ relation.isPlural = true) ∧
    (∀ record, (∃ r', r.push identifier record = .ok r') ↔
      ∃ relation, r.table.Names identifier relation ∧ relation.isPlural = true) ∧
    ∀ record r', r.push identifier record = .ok r' →
      r'.many identifier = r.many identifier ++ [record] := by
  obtain ⟨hsound, hformed⟩ := hr.wellFormed.root
  refine ⟨fun slot hslot => ?_, fun record => ?_, fun records => ?_, fun record => ?_,
    fun record r' hpush => ?_⟩
  · obtain ⟨relation, hn, hplural⟩ := (isPlural?_eq_ok_iff hsound).1 (hformed identifier slot hslot)
    exact ⟨relation, hn, hplural.symm⟩
  · simp only [setOne_eq_ok_iff, exists_and_left, exists_eq, and_true,
      isPlural?_eq_ok_iff hsound]
  · simp only [setMany_eq_ok_iff, exists_and_left, exists_eq, and_true,
      isPlural?_eq_ok_iff hsound]
  · simp only [hformed.push_eq_ok_iff, exists_and_left, exists_eq, and_true,
      isPlural?_eq_ok_iff hsound]
  · obtain ⟨-, rfl⟩ := hformed.push_eq_ok_iff.1 hpush
    exact many_replace ..

end Record

namespace Library

/-- The loaded book, a new tag, and the book with the tag added. -/
def taggedBook : Except Error (Record × Record × Record) := do
  let (s, book) ← loadedBook
  let tags ← s.requireTable "tags"
  let tagged ← book.push "tags" (.new tags)
  .ok (book, .new tags, tagged)

theorem taggedBook_reachable {book tag tagged : Record}
    (h : taggedBook = .ok (book, tag, tagged)) : book.Reachable ∧ tagged.Reachable ∧
      book.push "tags" tag = .ok tagged := by
  obtain ⟨⟨s, book'⟩, hbook, h⟩ := bind_eq_ok_iff.1 h
  obtain ⟨tags, htags, h⟩ := bind_eq_ok_iff.1 h
  obtain ⟨tagged', hpush, h⟩ := bind_eq_ok_iff.1 h
  cases h
  obtain ⟨hs, q, -, hq, s', hload⟩ := loadedBook_cases hbook
  have hr : Record.Reachable book := .load hs hq hload List.mem_cons_self
  exact ⟨hr, .push hr (.new hs htags) hpush, hpush⟩

theorem exists_taggedBook : ∃ x, taggedBook = .ok x ∧
    (x.2.2.slots.find? "tags").map (·.related.isMany) = some true :=
  exists_ok_of_decide (by decide +kernel)

end Library

/-- Tags are many, and the one that is added to a loaded book comes last. -/
theorem Record.tagged_book_agrees : ∃ book tag tagged slot,
    Library.taggedBook = .ok (book, tag, tagged) ∧ tagged.slots.find? "tags" = some slot ∧
      slot.related.isMany = true ∧
        (∃ relation, tagged.table.Names "tags" relation ∧ true = relation.isPlural) ∧
          tagged.many "tags" = book.many "tags" ++ [tag] := by
  obtain ⟨⟨book, tag, tagged⟩, h, hmany⟩ := Library.exists_taggedBook
  obtain ⟨hbook, htagged, hpush⟩ := Library.taggedBook_reachable h
  obtain ⟨slot, hslot, hmany⟩ := Option.map_eq_some_iff.1 hmany
  have hnamed := (slots_agree htagged "tags").1 slot hslot
  have hlast := (slots_agree hbook "tags").2.2.2.2 tag tagged hpush
  exact ⟨book, tag, tagged, slot, h, hslot, hmany, hmany ▸ hnamed, hlast⟩

end RecordGraph
