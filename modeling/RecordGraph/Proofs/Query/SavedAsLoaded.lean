import RecordGraph.Proofs.Query.Cells
import RecordGraph.Proofs.Query.Load
import RecordGraph.Proofs.Record.Idle
import RecordGraph.Proofs.Value.Decode

/-!
# Saving what was loaded

A joined row shows a foreign key and the key that it was joined on with one stored value. Whether
the loaded records do so as well depends on what is read: the key may be missing among the columns,
and the two columns may read the value differently. `JoinTree.Linkable` and `JoinTree.Alike` say
that this is not so. Then saving the records, as they were loaded, sends nothing.

**Results.**
* `JoinTree.Faithful`: raw rows as a database returns them for the joins.
* `JoinTree.Loads.idle`: the records of such rows have nothing to write.
* `QueryOf.save_loaded`: saving what a query loads sends nothing.
-/
namespace RecordGraph

/-- What both receivers make of one stored value is the same. -/
def Receiver.Alike (r r' : Receiver) : Prop := ∀ label label' raw v v',
  r.decode label raw = .ok v → r'.decode label' raw = .ok v' → v.same v' = true

namespace Receiver

/-- The receivers of signed integers. -/
def signed : List Receiver := [.int8, .int16, .int32, .int64, .autoPrimaryKey]

theorem decode_of_signed {r : Receiver} (hr : r ∈ signed) {label : String} {raw v : Value}
    (h : r.decode label raw = .ok v) : raw = .null ∧ v = .null ∨
      raw ≠ .null ∧ ∃ i, signed? raw = .ok i ∧ v = .int (Int64.ofInt i) := by
  refine (decode_eq_ok_iff.1 h).imp_right (And.imp_right fun hpresent => ?_)
  have hread : ∃ bits, decodeSigned bits raw = .ok v := by
    simp only [signed, List.mem_cons, List.not_mem_nil, or_false] at hr
    rcases hr with rfl | rfl | rfl | rfl | rfl <;> exact ⟨_, hpresent⟩
  obtain ⟨bits, hread⟩ := hread
  obtain ⟨i, hi, -, hv⟩ := decodeSigned_eq_ok_iff.1 hread
  exact ⟨i, hi, hv⟩

/-- Signed integers are read alike, whatever their width. -/
theorem alike_of_signed {r r' : Receiver} (hr : r ∈ signed) (hr' : r' ∈ signed) : r.Alike r' := by
  intro label label' raw v v' h h'
  rcases decode_of_signed hr h with ⟨hnull, rfl⟩ | ⟨hraw, i, hi, rfl⟩
  · rcases decode_of_signed hr' h' with ⟨-, rfl⟩ | ⟨hraw, -⟩
    · rfl
    · exact absurd hnull hraw
  · rcases decode_of_signed hr' h' with ⟨hnull, -⟩ | ⟨-, k, hk, rfl⟩
    · exact absurd hnull hraw
    · rw [hi] at hk
      cases hk
      simp [Value.same]

end Receiver

namespace Element

/-- The foreign keys that join an element and a child of it, each with the key that it was joined
on, where both are read. -/
def joinedOn (e d : Element) : List (ColumnOutput × ColumnOutput) :=
  match d.relation with
  | .reference r => (e.emitted.filter (·.column.name == r.column)).flatMap fun fk =>
      d.emittedKey?.toList.map fun key => (fk, key)
  | .reverse r => (d.emitted.filter (·.column.name == r.column)).flatMap fun fk =>
      e.emittedKey?.toList.map fun key => (fk, key)
  | _ => []

theorem mem_joinedOn_of_reference {e d : Element} {r : Reference} (hd : d.relation = .reference r)
    {fk key : ColumnOutput} (hfk : fk ∈ e.emitted) (hname : fk.column.name = r.column)
    (hkey : d.emittedKey? = some key) : (fk, key) ∈ e.joinedOn d := by
  simp only [joinedOn, hd, hkey]
  exact List.mem_flatMap.2 ⟨fk, List.mem_filter.2 ⟨hfk, beq_iff_eq.2 hname⟩, List.mem_cons_self⟩

theorem mem_joinedOn_of_reverse {e d : Element} {r : Reverse} (hd : d.relation = .reverse r)
    {fk key : ColumnOutput} (hfk : fk ∈ d.emitted) (hname : fk.column.name = r.column)
    (hkey : e.emittedKey? = some key) : (fk, key) ∈ e.joinedOn d := by
  simp only [joinedOn, hd, hkey]
  exact List.mem_flatMap.2 ⟨fk, List.mem_filter.2 ⟨hfk, beq_iff_eq.2 hname⟩, List.mem_cons_self⟩

/-- The key that an element's row is found under once its raw value is read. -/
def keyRead? (e : Element) (raw : Row) : Option Key :=
  e.emittedKey?.bind fun c => (raw.get? c.label).bind fun v =>
    (c.column.receiver.decode c.label v).toOption.bind Value.key?

end Element

namespace JoinTree

/-- Raw values under the names of the outputs. -/
def rawRow (t : JoinTree) (values : List Value) : Row := Row.raw (ResultColumn.ofTree t) values

/-- Raw rows as a database returns them for the joins, whatever it does to them otherwise. -/
structure Faithful (t : JoinTree) (raws : List (List Value)) : Prop where
  /-- Rows in which an element has one key show one row of its table. -/
  row : ∀ e ∈ t.elements, ∀ a ∈ raws, ∀ b ∈ raws, (e.keyRead? (t.rawRow a)).isSome = true →
    e.keyRead? (t.rawRow a) = e.keyRead? (t.rawRow b) →
      ∀ c ∈ e.emitted, (t.rawRow a).get? c.label = (t.rawRow b).get? c.label
  /-- Where a child has a row, the foreign key and the key that it was joined on have one stored
  value. -/
  joined : ∀ e ∈ t.elements, ∀ d ∈ t.childrenOf e, ∀ link ∈ e.joinedOn d, ∀ a ∈ raws,
    (d.keyRead? (t.rawRow a)).isSome = true →
      (t.rawRow a).get? link.1.label = (t.rawRow a).get? link.2.label

instance (t : JoinTree) (raws : List (List Value)) : Decidable (t.Faithful raws) :=
  decidable_of_iff (_ ∧ _) ⟨fun ⟨row, joined⟩ => ⟨row, joined⟩, fun ⟨row, joined⟩ => ⟨row, joined⟩⟩

/-- A foreign key is read only where the keys are that it is compared with. -/
structure Linkable (t : JoinTree) : Prop where
  reference : ∀ e ∈ t.elements, ∀ d ∈ t.childrenOf e, e.materialized = true →
    d.materialized = true → ∀ r, d.relation = .reference r →
      (∃ fk ∈ e.emitted, fk.column.name = r.column) → d.emittedKey?.isSome = true
  reverse : ∀ e ∈ t.elements, ∀ d ∈ t.childrenOf e, e.materialized = true →
    d.materialized = true → ∀ r, d.relation = .reverse r →
      (∃ fk ∈ d.emitted, fk.column.name = r.column) →
        e.emittedKey?.isSome = true ∧ d.emittedKey?.isSome = true

/-- So it is in the joins of a query that is neither grouped nor distinct. -/
theorem Keyed.linkable {t : JoinTree} (h : t.Keyed) : t.Linkable := by
  have hkey : ∀ e ∈ t.elements, e.materialized = true → e.emittedKey?.isSome = true := by
    intro e he hm
    obtain ⟨c, hc, -⟩ := h e he hm
    rw [hc]
    rfl
  exact ⟨fun e he d hd _ hdm _ _ _ => hkey d (mem_of_childrenOf hd).1 hdm,
    fun e he d hd hem hdm _ _ _ => ⟨hkey e he hem, hkey d (mem_of_childrenOf hd).1 hdm⟩⟩

/-- Every foreign key is read like the key that it is joined on. -/
def Alike (t : JoinTree) : Prop := ∀ e ∈ t.elements, ∀ d ∈ t.childrenOf e,
  ∀ link ∈ e.joinedOn d, link.1.column.receiver.Alike link.2.column.receiver

/-- Signed integers are. -/
theorem alike_of_signed {t : JoinTree} (h : ∀ e ∈ t.elements, ∀ d ∈ t.childrenOf e,
    ∀ link ∈ e.joinedOn d, link.1.column.receiver ∈ Receiver.signed ∧
      link.2.column.receiver ∈ Receiver.signed) : t.Alike :=
  fun e he d hd link hlink => Receiver.alike_of_signed (h e he d hd link hlink).1
    (h e he d hd link hlink).2

variable {s : Schema} {lead : String} {t : JoinTree}

/-- A child with the name of a relation is joined by it. -/
theorem Over.relation_eq (ho : t.Over s) (hs : Schema.SoundTables s.tables) (hl : t.Linked lead)
    {e c : Element} (he : e ∈ t.elements) (hc : c ∈ t.childrenOf e) {hop : Hop}
    {relation : Relation} {name : String} (h : e.table.relation? hop = some (relation, name))
    (hi : c.relation.identifier? = relation.identifier?) : c.relation = relation := by
  obtain ⟨hcm, hcp⟩ := mem_of_childrenOf hc
  obtain ⟨hop', name', -, h', -⟩ := ho.relation?_eq hl he hcm hcp
  obtain rfl := (hs.sound _ (Schema.mem_of_join? (ho.joins e he))).hop_eq h' h hi
  rw [h] at h'
  cases h'
  rfl

/-! ## The records of faithful rows -/

/-- The rows are decoded raw rows. -/
def DecodedFrom (t : JoinTree) (operation : String) (statement : Statement)
    (raws : List (List Value)) (rows : List Row) : Prop := ∀ row ∈ rows, ∃ a ∈ raws,
  Row.decode operation statement (ResultColumn.ofTree t) a = .ok row

theorem Over.emitted_nodup (ho : t.Over s) {e : Element} (he : e ∈ t.elements) :
    (e.emitted.map (·.column.name)).Nodup :=
  (ho.names e he).sublist (List.filter_sublist.map _)

/-- The column that is emitted as the key holds the key of a record. -/
theorem Over.key_eq (ho : t.Over s) (hs : Schema.SoundTables s.tables) {e : Element}
    (he : e ∈ t.elements) {key : ColumnOutput} (hkey : e.emittedKey? = some key) {r : Record}
    {row : Row} (htable : r.table = e.table) (hvalues : r.values = e.valuesIn row) {v : Value}
    (hv : row.get? key.label = some v) : r.key = v := by
  have hmem : key ∈ e.emitted := List.mem_of_find?_eq_some hkey
  have hpk : key.column.primaryKey = true := by simpa using List.find?_some hkey
  have hcolumn : key.column = e.table.primaryKey :=
    (hs.sound _ (Schema.mem_of_join? (ho.joins e he))).key _
      (ho.columns e he key (List.mem_filter.1 hmem).1).1 hpk
  rw [Record.key, htable, hvalues, ← hcolumn,
    Element.find?_valuesIn (ho.emitted_nodup he) hmem hv]
  rfl

section
variable (hl : t.Linked lead) (ho : t.Over s) {operation : String} {statement : Statement}
  {raws : List (List Value)}
include hl ho

/-- The key that is read is the key of the decoded row. -/
theorem keyRead?_eq {values : List Value} {row : Row}
    (h : Row.decode operation statement (ResultColumn.ofTree t) values = .ok row) {e : Element}
    (he : e ∈ t.elements) : e.keyRead? (t.rawRow values) = e.keyIn? row := by
  rw [Element.keyRead?, Element.keyIn?]
  cases hk : e.emittedKey? with
  | none => rfl
  | some c =>
    obtain ⟨a, v, ha, hv, hdecode⟩ := hl.cell ho h he (List.mem_of_find?_eq_some hk)
    rw [Option.bind_some, Option.bind_some, rawRow, ha, hv, Option.bind_some, Option.bind_some,
      hdecode]
    rfl

variable (hf : t.Faithful raws) {rows : List Row}
  (hd : t.DecodedFrom operation statement raws rows) {e : Element} (he : e ∈ t.elements)
  {r : Record} (h : t.Loads rows e r)
include hf hd he h

/-- The rows of a record show one stored row of its table. -/
theorem Loads.stored {row row' : Row} (hrow : row ∈ rows) (hrow' : row' ∈ rows)
    {b : List Value} (hb : b ∈ raws)
    (hdb : Row.decode operation statement (ResultColumn.ofTree t) b = .ok row') : ∃ a ∈ raws,
      Row.decode operation statement (ResultColumn.ofTree t) a = .ok row ∧
        ∀ c ∈ e.emitted, (t.rawRow a).get? c.label = (t.rawRow b).get? c.label := by
  rcases h.keyed hl with ⟨k, hk⟩ | ⟨-, hlen⟩
  · obtain ⟨a, ha, hda⟩ := hd row hrow
    have hka : e.keyRead? (t.rawRow a) = some k := (keyRead?_eq hl ho hda he).trans (hk row hrow)
    have hkb : e.keyRead? (t.rawRow b) = some k :=
      (keyRead?_eq hl ho hdb he).trans (hk row' hrow')
    exact ⟨a, ha, hda, hf.row e he a ha b hb (by rw [hka]; rfl) (hka.trans hkb.symm)⟩
  · obtain ⟨only, honly⟩ := List.length_eq_one_iff.1 hlen
    rw [honly] at hrow hrow'
    obtain rfl := (List.mem_singleton.1 hrow).trans (List.mem_singleton.1 hrow').symm
    exact ⟨b, hb, hdb, fun _ _ => rfl⟩

/-- A row of a record and one of a record below it, as they are stored: for the columns of the first
element they agree, and in the second the link is kept. -/
theorem Loads.linked {c : Element} (hc : c ∈ t.childrenOf e) (hkey : c.emittedKey?.isSome = true)
    {part : List Row} {u : Record} (hpart : part ⊆ rows) (hu : t.Loads part c u) {row row' : Row}
    (hrow : row ∈ rows) (hrow' : row' ∈ part) : ∃ a ∈ raws, ∃ b ∈ raws,
      Row.decode operation statement (ResultColumn.ofTree t) a = .ok row ∧
        Row.decode operation statement (ResultColumn.ofTree t) b = .ok row' ∧
          (∀ c ∈ e.emitted, (t.rawRow a).get? c.label = (t.rawRow b).get? c.label) ∧
            ∀ link ∈ e.joinedOn c,
              (t.rawRow b).get? link.1.label = (t.rawRow b).get? link.2.label := by
  obtain ⟨b, hb, hdb⟩ := hd row' (hpart hrow')
  obtain ⟨a, ha, hda, hsame⟩ := h.stored hl ho hf hd he hrow (hpart hrow') hb hdb
  refine ⟨a, ha, b, hb, hda, hdb, hsame, fun link hlink => hf.joined e he c hc link hlink b hb ?_⟩
  rw [keyRead?_eq hl ho hdb (mem_of_childrenOf hc).1]
  rcases hu.keyed hl with ⟨k, hk⟩ | ⟨hnone, -⟩
  · rw [hk row' hrow']
    rfl
  · rw [hnone] at hkey
    cases hkey

variable (hs : Schema.SoundTables s.tables) (hm : e.materialized = true) (hlink : t.Linkable)
  (halike : t.Alike)
include hs hm hlink halike

/-- What a record refers to has the key that its foreign key says. -/
theorem Loads.holds_reference {q : Reference} (hq : q ∈ e.table.references) {i : Nat} {u : Record}
    (hu : r.child? q.identifier i = some u) (hfk : r.values.contains q.column = true) :
    r.holds q.column u.key = true := by
  have hsound := hs.sound _ (Schema.mem_of_join? (ho.joins e he))
  obtain ⟨row, hrow, hvalues⟩ := h.values hl
  obtain ⟨c, hc, hcm, hci, part, hpart, hload⟩ := h.child hl hu
  have hcmem := (mem_of_childrenOf hc).1
  have hrel : c.relation = .reference q := ho.relation_eq hs hl he hc
    (by rw [Table.relation?, hsound.reference?_eq hq]; rfl : e.table.relation?
      (.reference q.identifier) = some (.reference q, q.target)) hci
  rw [hvalues] at hfk
  obtain ⟨fk, hfkm, hname⟩ := Element.exists_of_contains_valuesIn hfk
  obtain ⟨key, hkey⟩ := Option.isSome_iff_exists.1
    (hlink.reference e he c hc hm hcm q hrel ⟨fk, hfkm, hname⟩)
  have hjoined := Element.mem_joinedOn_of_reference hrel hfkm hname hkey
  obtain ⟨row', hrow', hvalues'⟩ := hload.values hl
  obtain ⟨a, -, b, -, hda, hdb, hsame, hlinked⟩ := h.linked hl ho hf hd he hc
    (by rw [hkey]; rfl) hpart hload hrow hrow'
  obtain ⟨x, v, hx, hv, hdx⟩ := hl.cell ho hda he hfkm
  obtain ⟨y, w, hy, hw, hdy⟩ := hl.cell ho hdb hcmem (List.mem_of_find?_eq_some hkey)
  have hxy : x = y := Option.some.inj
    (hx.symm.trans ((hsame fk hfkm).trans ((hlinked _ hjoined).trans hy)))
  rw [Record.holds, hvalues, ← hname, Element.find?_valuesIn (ho.emitted_nodup he) hfkm hv,
    ho.key_eq hs hcmem hkey (hload.row hl).1 hvalues' hw]
  exact halike e he c hc _ hjoined _ _ x v w hdx (hxy ▸ hdy)

/-- What refers to a record says its key. -/
theorem Loads.holds_reverse {q : Reverse} (hq : q ∈ e.table.reverses) {i : Nat} {u : Record}
    (hu : r.child? q.identifier i = some u) (hfk : u.values.contains q.column = true) :
    u.holds q.column r.key = true := by
  have hsound := hs.sound _ (Schema.mem_of_join? (ho.joins e he))
  obtain ⟨row, hrow, hvalues⟩ := h.values hl
  obtain ⟨c, hc, hcm, hci, part, hpart, hload⟩ := h.child hl hu
  have hcmem := (mem_of_childrenOf hc).1
  have hrel : c.relation = .reverse q := ho.relation_eq hs hl he hc
    (by rw [Table.relation?, (hsound.reverse?_eq hq).2]; rfl : e.table.relation?
      (.reverse q.identifier) = some (.reverse q, q.source)) hci
  obtain ⟨row', hrow', hvalues'⟩ := hload.values hl
  rw [hvalues'] at hfk
  obtain ⟨fk, hfkm, hname⟩ := Element.exists_of_contains_valuesIn hfk
  obtain ⟨hown, hchild⟩ := hlink.reverse e he c hc hm hcm q hrel ⟨fk, hfkm, hname⟩
  obtain ⟨key, hkey⟩ := Option.isSome_iff_exists.1 hown
  have hkeym : key ∈ e.emitted := List.mem_of_find?_eq_some hkey
  have hjoined := Element.mem_joinedOn_of_reverse hrel hfkm hname hkey
  obtain ⟨a, -, b, -, hda, hdb, hsame, hlinked⟩ := h.linked hl ho hf hd he hc hchild hpart hload
    hrow hrow'
  obtain ⟨x, v, hx, hv, hdx⟩ := hl.cell ho hdb hcmem hfkm
  obtain ⟨y, w, hy, hw, hdy⟩ := hl.cell ho hda he hkeym
  have hxy : x = y := Option.some.inj
    (hx.symm.trans ((hlinked _ hjoined).trans ((hsame key hkeym).symm.trans hy)))
  rw [Record.holds, hvalues', ← hname, Element.find?_valuesIn (ho.emitted_nodup hcmem) hfkm hv,
    ho.key_eq hs he hkey (h.row hl).1 hvalues hw]
  exact halike e he c hc _ hjoined _ _ x v w hdx (hxy ▸ hdy)

/-- **Untouched records.** The records of rows as a database returns them have nothing to write. -/
theorem Loads.idle : r.Idle := by
  obtain ⟨htable, hsaved, hdirty⟩ := h.row hl
  refine ⟨hsaved, hdirty, h.sorted hl, fun identifier slot hslot => ?_, fun q hq i u hu => ?_,
    fun q hq i u hu => ?_⟩
  · exact h.settled hl hslot
  · exact h.holds_reference hl ho hf hd he hs hm hlink halike (htable ▸ hq) hu
  · exact h.holds_reverse hl ho hf hd he hs hm hlink halike (htable ▸ hq) hu

end

end JoinTree

/-- The raw rows of a result. -/
def Rows.raws (r : Rows) : List (List Value) := r.reads.filterMap fun
  | .ok row => row
  | .error _ => none

theorem Rows.mem_raws {r : Rows} {raw : List Value} (h : .ok (some raw) ∈ r.reads) :
    raw ∈ r.raws := List.mem_filterMap.2 ⟨_, h, rfl⟩

/-- **Nothing to save.** What a query loads from the rows that a database returned, and nothing was
done to, is saved without a statement: on every connection, saving leaves its state and the record
as they are. -/
theorem QueryOf.save_loaded {d : SchemaDecl} {schema : Schema}
    (hs : Schema.ofDeclaration d = .ok schema) {q : Query} (hq : q.Over schema) {τ : Type}
    {source : Connection τ} {c : Compiled} (hc : q.compile source.dialect = .ok c)
    (hlink : c.tree.Linkable) (halike : c.tree.Alike) {t t₁ t' : τ} {result : Rows}
    (hquery : source.query c.command t = (.ok result, t₁)) (hrows : c.tree.Faithful result.raws)
    {records : List Record} (hload : q.load source t = (.ok records, t')) {g : Record}
    (hg : g ∈ records) {σ : Type} (db : Connection σ) (s : σ) :
    Record.save db (g, s) = (.ok (), (g, s)) := by
  obtain ⟨c', result', t₂, rows, hc', hquery', hread, rfl⟩ := load_cases hload
  rw [hc] at hc'
  cases hc'
  rw [hquery] at hquery'
  cases hquery'
  have hsound := Schema.ofDeclaration_sound hs
  have hcompile := compile_tree hc
  have hl := JoinTree.compile_linked hcompile
  have ho := JoinTree.compile_over hq hcompile
  have hdecoded : c.tree.DecodedFrom "load" (c.statement source.dialect) result.raws rows := by
    intro row hrow
    obtain ⟨raw, hraw, hdecode⟩ := hread row hrow
    exact ⟨raw, Rows.mem_raws hraw, hdecode⟩
  obtain ⟨part, hpart, hroot⟩ := JoinTree.exists_loads hg
  refine Record.save_idle db (fun p x hx => ?_) s
  obtain ⟨e, he, hm, part', hpart', hx⟩ :=
    hroot.place hl hx List.mem_cons_self (JoinTree.root_materialized hcompile)
  exact hx.idle hl ho hrows (fun row hrow => hdecoded row (hpart (hpart' hrow))) he hsound hm hlink
    halike

/-! ## Books that are saved as they were loaded -/

namespace Library

/-- The joins of the books are read as they should be. -/
theorem books_tree : (do
    let s ← Schema.ofDeclaration declaration
    let q ← books s
    let t ← JoinTree.compile .objects "" q
    .ok (decide (t.Faithful [bookRow] ∧ ∀ e ∈ t.elements, ∀ d ∈ t.childrenOf e,
      ∀ link ∈ e.joinedOn d, link.1.column.receiver ∈ Receiver.signed ∧
        link.2.column.receiver ∈ Receiver.signed)) : Except Error Bool) = .ok true := by cbv

theorem books_tree_cases {s : Schema} {q : Query} {t : JoinTree}
    (hs : Schema.ofDeclaration declaration = .ok s) (hq : books s = .ok q)
    (ht : JoinTree.compile .objects "" q = .ok t) : t.Faithful [bookRow] ∧ t.Alike := by
  have h := books_tree
  simp only [hs, hq, ht, bind, Except.bind, Except.ok.injEq] at h
  obtain ⟨hfaithful, hsigned⟩ := of_decide_eq_true h
  exact ⟨hfaithful, JoinTree.alike_of_signed hsigned⟩

theorem books_plain {s : Schema} {q : Query} (h : books s = .ok q) :
    q.groupBys = [] ∧ q.distinct = false := by
  obtain ⟨books, -, h⟩ := bind_eq_ok_iff.1 h
  obtain ⟨author, -, h⟩ := bind_eq_ok_iff.1 h
  cases h
  exact ⟨rfl, rfl⟩

theorem exists_loadedBook : ∃ s g, loadedBook = .ok (s, g) := by
  obtain ⟨⟨s, g⟩, h⟩ := exists_ok_of_isOk (by decide +kernel : loadedBook.isOk = true)
  exact ⟨s, g, h⟩

end Library

/-- The book with its author is saved without a statement. -/
theorem QueryOf.book_saved : ∃ s g, Library.loadedBook = .ok (s, g) ∧
    Record.save (Script.connection .sqlite).logged (g, ([], Script.start [])) =
      (.ok (), (g, ([], Script.start []))) := by
  obtain ⟨s, g, hbook⟩ := Library.exists_loadedBook
  obtain ⟨hs, q, hquery, hq, s', hload⟩ := Library.loadedBook_cases hbook
  obtain ⟨c, result, s₁, rows, hc, hresult, -, -⟩ := load_cases hload
  have ht := compile_tree hc
  obtain ⟨hg, hd⟩ := Library.books_plain hquery
  obtain ⟨hfaithful, halike⟩ := Library.books_tree_cases hs hquery ht
  have hlink := (JoinTree.compile_keyed (Schema.ofDeclaration_sound hs) hq hg hd ht).linkable
  have hraws : result.raws = [Library.bookRow] := by
    cases hresult
    rfl
  exact ⟨s, g, hbook, save_loaded hs hq hc hlink halike hresult (hraws ▸ hfaithful) hload
    List.mem_cons_self (Script.connection .sqlite).logged ([], Script.start [])⟩

/-! ## Distinct books -/

namespace Library

/-- The books with the names of their authors, whose keys are not read where rows are distinct. -/
def distinctBooks (s : Schema) : Except Error Query := do
  let books ← Chain.follow s "books" []
  let id ← Chain.follow s "books" [.column "id"]
  let author ← Chain.follow s "books" [.column "author_id"]
  let version ← Chain.follow s "books" [.column "version"]
  let name ← Chain.follow s "books" [.reference "author", .column "name"]
  .ok { QueryOf.all books.node with
    selects := [id.node, author.node, version.node, name.node], distinct := true }

def distinctRow : List Value := [.int 1, .int 1, .int 1, .text "Ann"]

/-- The schema, and the book with the name of its author. -/
def distinctBook : Except Error (Schema × Record) := do
  let s ← Schema.ofDeclaration declaration
  let authors ← s.requireTable "authors"
  let books ← s.requireTable "books"
  let author := Record.loaded authors (.ofList [("name", .text "Ann")]) .empty .empty
  .ok (s, .loaded books (.ofList [("id", .int 1), ("author_id", .int 1), ("version", .int 1)])
    .empty (.ofList [("author", ⟨.one (some author), false⟩)]))

theorem recordOf_distinctBooks :
    (recordOf distinctBooks distinctRow).map (fun x => (x.1, x.2.2)) = distinctBook := by cbv

/-- Whether saving a book of author 1 sends one statement and leaves it without an author. -/
def detached (g : Record) : Bool :=
  match Record.save (Script.connection .sqlite).logged (g, ([], Script.start [])) with
  | (.ok (), rs) => decide (g.get? "author_id" = some (.int 1) ∧ rs.2.1.length = 1 ∧
      rs.1.get? "author_id" = some .null)
  | _ => false

theorem detached_cases {g : Record} (h : detached g = true) :
    g.get? "author_id" = some (.int 1) ∧ ∃ rs, Record.save (Script.connection .sqlite).logged
      (g, ([], Script.start [])) = (.ok (), rs) ∧ rs.2.1.length = 1 ∧
        rs.1.get? "author_id" = some .null := by
  unfold detached at h
  split at h
  · rename_i rs hsave
    obtain ⟨hbefore, hlength, hafter⟩ := of_decide_eq_true h
    exact ⟨hbefore, rs, hsave, hlength, hafter⟩
  · cases h

end Library

/-- Saving a book as it was loaded takes its author away, where the author's key was not read. -/
theorem QueryOf.exists_loaded_written : ∃ s q g s',
    Schema.ofDeclaration Library.declaration = .ok s ∧ Library.distinctBooks s = .ok q ∧
      q.load (Script.connection .sqlite) (Script.start [Library.answer Library.distinctRow]) =
        (.ok [g], s') ∧ g.get? "author_id" = some (.int 1) ∧
          ∃ rs, Record.save (Script.connection .sqlite).logged (g, ([], Script.start [])) =
            (.ok (), rs) ∧ rs.2.1.length = 1 ∧ rs.1.get? "author_id" = some .null := by
  have hall : (Library.distinctBook.map fun x => Library.detached x.2) = .ok true := by
    decide +kernel
  rw [← Library.recordOf_distinctBooks] at hall
  cases hr : Library.recordOf Library.distinctBooks Library.distinctRow with
  | error e =>
    rw [hr] at hall
    cases hall
  | ok x =>
    obtain ⟨s, q, g⟩ := x
    obtain ⟨hs, hq, hload⟩ := Library.recordOf_cases hr
    have hplain := hq
    obtain ⟨_, -, hplain⟩ := bind_eq_ok_iff.1 hplain
    obtain ⟨_, -, hplain⟩ := bind_eq_ok_iff.1 hplain
    obtain ⟨_, -, hplain⟩ := bind_eq_ok_iff.1 hplain
    obtain ⟨_, -, hplain⟩ := bind_eq_ok_iff.1 hplain
    obtain ⟨_, -, hplain⟩ := bind_eq_ok_iff.1 hplain
    obtain ⟨s', hload⟩ := hload (by cases hplain; rfl) (by cases hplain; rfl)
      (by cases hplain; rfl) (by cases hplain; rfl) (by cases hplain; rfl)
    rw [hr] at hall
    obtain ⟨hbefore, rs, hsave, hlength, hafter⟩ := Library.detached_cases (Except.ok.inj hall)
    exact ⟨s, q, g, s', hs, hq, hload, hbefore, rs, hsave, hlength, hafter⟩

end RecordGraph
