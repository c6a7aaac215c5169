import RecordGraph.Proofs.Codec.NodeText
import RecordGraph.Proofs.Outcome

/-!
# Nodes and queries in both of their forms

`text_read_iff`: the text form of a node or query is read exactly if its binary form is and all of
its doubles are finite. `exists_infinite_unread` is a query that only its binary form keeps.

`ReadsIf` and `DecodesIf` say of a document or of bytes when something is found there. A value is
found in its text form if it is `Dated` and `IsFinite` (`Value.readsIf`), in its binary form if it
is `Dated` (`Value.decodesIf`), and a node if its values are (`Node.readsIf`, `Node.decodesIf`).
-/
namespace RecordGraph

open Json Binary

variable {α β : Type} {P Q : Prop}

/-! ## Documents that may be refused -/

namespace Json

/-- The reader finds something in the document exactly if `P` holds, as far as its levels are
open. -/
def ReadsIf (read : Reader α) (j : Json) (P : Prop) : Prop :=
  ∀ depth, j.Within depth → ((read depth j).isSome = true ↔ P)

theorem isSome_of_eq_some {o : Option α} {a : α} (h : o = some a) : o.isSome = true ↔ True := by
  rw [h, Option.isSome_some, eq_self]

theorem isSome_bind {o : Option α} {next : α → Option β} (ho : o.isSome = true ↔ P)
    (hnext : ∀ a, (next a).isSome = true ↔ Q) : (o.bind next).isSome = true ↔ P ∧ Q := by
  cases o with
  | none =>
    simp only [Option.bind_none, Option.isSome_none, Bool.false_eq_true, false_iff] at ho ⊢
    exact fun h => ho h.1
  | some a =>
    rw [Option.bind_some, hnext a, ← ho, Option.isSome_some, eq_self, true_and]

variable {read : Reader α} {j : Json} {depth : Nat}

theorem ReadsAs.readsIf {a : α} (h : ReadsAs read j a) : ReadsIf read j True := fun depth hwithin =>
  isSome_of_eq_some (h depth hwithin)

theorem ReadsIf.congr (h : ReadsIf read j P) (hiff : P ↔ Q) : ReadsIf read j Q :=
  fun depth hwithin => (h depth hwithin).trans hiff

/-- A list is read if its items are. -/
theorem readsIf_list {f : α → Json} {items : List α} {ok : α → Prop}
    (h : ∀ a ∈ items, ReadsIf read (f a) (ok a)) :
    ReadsIf (readList read) (.array (items.map f)) (∀ a ∈ items, ok a) := fun depth hwithin => by
  obtain ⟨henter, hinside⟩ := hwithin.array
  rw [List.forall_mem_map] at hinside
  simp only [readList, henter, Option.bind_eq_bind, Option.bind_some]
  clear henter hwithin
  generalize depth - 1 = inside at hinside
  induction items with
  | nil => exact isSome_of_eq_some rfl |>.trans (by simp)
  | cons a items ih =>
    have ha := h a List.mem_cons_self inside (hinside a List.mem_cons_self)
    have hitems := ih (fun b hb => h b (List.mem_cons_of_mem _ hb))
      fun b hb => hinside b (List.mem_cons_of_mem _ hb)
    rw [List.map_cons, List.mapM_cons, List.forall_mem_cons]
    refine isSome_bind ha fun b => ?_
    rw [← hitems]
    exact (isSome_bind Iff.rfl fun _ => isSome_of_eq_some rfl).trans (iff_of_eq (and_true _))

/-- A record is read if its fields are. -/
theorem Within.recordIf {entries : List (String × Json)}
    (h : (Json.ofEntries entries).Within depth) (hnodup : (entries.map Prod.fst).Nodup)
    {readFields : Fields → Option β}
    (hread : ∀ f : Fields, f.Holds entries → ((readFields f).isSome = true ↔ P)) :
    ((fields? (entries.map Prod.fst) depth (Json.ofEntries entries)).bind readFields).isSome = true
      ↔ P := by
  obtain ⟨henter, hinside⟩ := h.ofEntries
  rw [fields_ofEntries _ hnodup, henter]
  exact hread _ ⟨rfl, hnodup, hinside⟩

/-- A field that may be refused, and what stands behind it. -/
theorem Fields.Holds.requiredIf {f : Fields} {entries : List (String × Json)} {name : String}
    (h : f.Holds entries) {next : α → Option β} (hmem : (name, j) ∈ entries)
    (hread : ReadsIf read j P) (hnext : ∀ a, (next a).isSome = true ↔ Q) :
    ((f.required name read).bind next).isSome = true ↔ P ∧ Q := by
  rw [Fields.required, h.get_eq hmem, Option.bind_eq_bind, Option.bind_some]
  exact isSome_bind (hread _ (h.within _ hmem)) hnext

/-- A field that may be refused, and then what is found. -/
theorem Fields.Holds.before {f : Fields} {entries : List (String × Json)} {name : String}
    (h : f.Holds entries) {next : α → Option β} (hmem : (name, j) ∈ entries)
    (hread : ReadsIf read j P) (hnext : ∀ a, ∃ b, next a = some b) :
    ((f.required name read).bind next).isSome = true ↔ P :=
  (h.requiredIf hmem hread fun a => (hnext a).elim fun _ => isSome_of_eq_some).trans
    (iff_of_eq (and_true _))

/-- A field that is found, and then what may be refused. -/
theorem Fields.Holds.behind {f : Fields} {entries : List (String × Json)} {name : String}
    (h : f.Holds entries) {next : α → Option β} {a : α} (hmem : (name, j) ∈ entries)
    (hread : ReadsAs read j a) (hnext : (next a).isSome = true ↔ P) :
    ((f.required name read).bind next).isSome = true ↔ P := by
  rwa [Fields.required, h.get_eq hmem, Option.bind_eq_bind, Option.bind_some,
    hread _ (h.within _ hmem), Option.bind_some]

end Json

/-! ## Bytes that may be refused -/

namespace Binary

/-- The decoder finds something at the front of everything that begins with `bytes`, and takes no
more than them, if `P` holds; else it fails. -/
def DecodesIf (take : Decoder α) (bytes : List UInt8) (P : Prop) : Prop :=
  bytes.length < 2 ^ 64 → ∀ rest,
    (P → ∃ a, take (bytes ++ rest) = some (a, rest)) ∧ (¬ P → take (bytes ++ rest) = none)

variable {take : Decoder α} {f : α → Decoder β} {bytes bytes' : List UInt8} {a : α}

theorem Decodes.decodesIf (h : Decodes take bytes a) : DecodesIf take bytes True :=
  fun hlength rest => ⟨fun _ => ⟨a, h hlength rest⟩, fun hfalse => absurd trivial hfalse⟩

namespace DecodesIf

theorem congr (h : DecodesIf take bytes P) (hiff : P ↔ Q) : DecodesIf take bytes Q := by
  rwa [← propext hiff]

/-- Content that may be refused behind other such content. -/
theorem bind (h : DecodesIf take bytes P) (hf : ∀ a, DecodesIf (f a) bytes' Q) :
    DecodesIf (take >>= f) (bytes ++ bytes') (P ∧ Q) := fun hlength rest => by
  rw [List.length_append] at hlength
  obtain ⟨hfound, hrefused⟩ := h (by omega) (bytes' ++ rest)
  rw [List.append_assoc, bind_apply]
  by_cases hP : P
  · obtain ⟨a, ha⟩ := hfound hP
    obtain ⟨hfound', hrefused'⟩ := hf a (by omega) rest
    rw [ha, Option.bind_some]
    exact ⟨fun h => hfound' h.2, fun h => hrefused' fun hQ => h ⟨hP, hQ⟩⟩
  · rw [hrefused hP, Option.bind_none]
    exact ⟨fun h => absurd h.1 hP, fun _ => rfl⟩

/-- Content that may be refused, and then content that is found. -/
theorem before (h : DecodesIf take bytes P) (hf : ∀ a, ∃ b, Decodes (f a) bytes' b) :
    DecodesIf (take >>= f) (bytes ++ bytes') P :=
  (h.bind fun a => (hf a).elim fun _ => Decodes.decodesIf).congr (iff_of_eq (and_true _))

theorem map (h : DecodesIf take bytes P) (g : α → β) :
    DecodesIf (take >>= fun a => pure (g a)) bytes P := by
  rw [← List.append_nil bytes]
  exact h.before fun a => ⟨g a, .pure _⟩

/-- Shorter content may be assumed. -/
theorem of_length (h : bytes.length < 2 ^ 64 → DecodesIf take bytes P) : DecodesIf take bytes P :=
  fun hlength => h hlength hlength

/-- The bytes alone are enough. -/
theorem isSome (h : DecodesIf take bytes P) (hlength : bytes.length < 2 ^ 64) :
    (take bytes).isSome = true ↔ P := by
  obtain ⟨hfound, hrefused⟩ := h hlength []
  rw [List.append_nil] at hfound hrefused
  by_cases hP : P
  · obtain ⟨a, ha⟩ := hfound hP
    simp only [ha, Option.isSome_some, hP]
  · simp only [hrefused hP, Option.isSome_none, Bool.false_eq_true, hP]

end DecodesIf

/-- Content that may be refused behind content that is found. -/
theorem Decodes.bindIf (h : Decodes take bytes a) (hf : DecodesIf (f a) bytes' P) :
    DecodesIf (take >>= f) (bytes ++ bytes') P := fun hlength rest => by
  rw [List.length_append] at hlength
  have hfirst := h (by omega) (bytes' ++ rest)
  rw [List.append_assoc, bind_apply, hfirst, Option.bind_some]
  exact hf (by omega) rest

section

variable {encode : α → List UInt8} {ok : α → Prop}

theorem decodesIf_items : ∀ {items : List α}, (∀ a ∈ items, DecodesIf take (encode a) (ok a)) →
    DecodesIf (takeItems take items.length) (items.flatMap encode) (∀ a ∈ items, ok a)
  | [], _ => (Decodes.pure []).decodesIf.congr (by simp)
  | a :: items, h => by
    rw [List.flatMap_cons]
    refine DecodesIf.congr ?_ List.forall_mem_cons.symm
    exact (h a List.mem_cons_self).bind fun a' =>
      (decodesIf_items fun b hb => h b (List.mem_cons_of_mem _ hb)).map (a' :: ·)

/-- A list behind its length is found if its items are. -/
theorem decodesIf_list {items : List α} (h : ∀ a ∈ items, DecodesIf take (encode a) (ok a))
    (hpos : ∀ a ∈ items, 0 < (encode a).length) :
    DecodesIf (takeList take) (list encode items) (∀ a ∈ items, ok a) := by
  refine .of_length fun hlength => ?_
  have := length_le_length_flatMap hpos
  rw [list, List.length_append] at hlength
  exact (decodes_natural (by omega)).bindIf (decodesIf_items h)

end

end Binary

/-! ## Values -/

/-- A value whose time, if it is one, is read from the text that both forms write for it. -/
def Value.Dated : Value → Prop
  | .time t => (Time.parseExact? t.exact).isSome = true
  | _ => True

/-- A value that is no infinity and not NaN. -/
def Value.IsFinite : Value → Prop
  | .float x => x.isFinite = true
  | _ => True

instance : DecidablePred Value.Dated
  | .time t => inferInstanceAs (Decidable ((Time.parseExact? t.exact).isSome = true))
  | .null | .bool _ | .int _ | .uint _ | .float _ | .text _ | .bytes _ | .uuid _ => isTrue trivial

instance : DecidablePred Value.IsFinite
  | .float x => inferInstanceAs (Decidable (x.isFinite = true))
  | .null | .bool _ | .int _ | .uint _ | .text _ | .bytes _ | .time _ | .uuid _ => isTrue trivial

/-- A value is read from its text form unless its time is not, or it is a double without digits. -/
theorem Value.readsIf (v : Value) : ReadsIf Value.read v.toStored (v.Dated ∧ v.IsFinite) := by
  have hread {v : Value} (hv : v.Writable) (hfloat : v.isFloat = false) (hdated : v.Dated)
      (hfinite : v.IsFinite) : ReadsIf Value.read v.toStored (v.Dated ∧ v.IsFinite) :=
    (Value.readsAs hv hfloat).readsIf.congr (by simp only [hdated, hfinite, and_self])
  have hcontent {name : String} {content : Json} {P : Prop}
      (h : ReadsIf (Value.readContent name) content P) :
      ReadsIf Value.read (ofEntries [(name, content)]) P := fun depth hwithin => by
    obtain ⟨hvariant, hinside⟩ := hwithin.variant
    simp only [Value.read, hvariant, Option.bind_eq_bind, Option.bind_some]
    exact h _ hinside
  cases v with
  | float x =>
    refine hcontent fun _ _ => ?_
    change ((ofFloat x).float?.map Value.float).isSome = true ↔ True ∧ x.isFinite = true
    rw [Option.isSome_map, true_and]
    by_cases hfinite : x.isFinite = true
    · simp only [isSome_float?_ofFloat hfinite, hfinite]
    · rw [ofFloat, if_neg hfinite]
      simp only [float?, Option.isSome_none, Bool.false_eq_true, hfinite]
  | time t =>
    refine hcontent fun _ _ => ?_
    change (((ofText t.exact).text?.bind Time.parseExact?).map Value.time).isSome = true ↔
      (Time.parseExact? t.exact).isSome = true ∧ True
    rw [Option.isSome_map, and_true, ofText, text?, spelled_escape, Option.bind_some]
  | _ => exact hread trivial rfl trivial trivial

theorem decodesIf_option (o : Option α) : DecodesIf (ofOption? o) [] (o.isSome = true) := by
  intro _ rest
  cases o with
  | none => exact ⟨nofun, fun _ => rfl⟩
  | some a => exact ⟨fun _ => ⟨a, rfl⟩, fun h => absurd rfl h⟩

/-- A value is found in its binary form unless its time is not. -/
theorem Value.decodesIf (v : Value) : DecodesIf Value.take v.encode v.Dated := by
  have hfound {v : Value} (hv : v.Writable) (hdated : v.Dated) :
      DecodesIf Value.take v.encode v.Dated :=
    (Value.decodes hv).decodesIf.congr (by simp only [hdated])
  cases v with
  | time t =>
    refine (decodes_short (n := 7) (by decide)).bindIf ?_
    rw [← List.append_nil (Binary.text t.exact)]
    refine (decodes_text t.exact).bindIf ?_
    refine (decodesIf_option _).congr (iff_of_eq (congrArg (· = true) ?_))
    exact Option.isSome_map
  | _ => exact hfound trivial trivial

/-! ## Nodes -/

namespace Node

section

variable {readNode : Reader Node} {take : Decoder Node} {ok : Node → Prop}

/-- What is asked of the lists of a query, in their order in its forms, is asked of its nodes. -/
theorem parts_iff (q : Query) : (ok q.root ∧ (∀ n ∈ q.selects, ok n) ∧ (∀ n ∈ q.conditions, ok n) ∧
    (∀ s ∈ q.orderBys, ok s.node) ∧ (∀ n ∈ q.groupBys, ok n) ∧
      (∀ k ∈ q.calculations, ok k.target ∧ ok k.expression) ∧ ∀ n ∈ q.having, ok n) ↔
    ∀ n ∈ q.nodes, ok n := by
  rw [QueryOf.forall_mem_nodes]
  tauto

/-- A query is read if its nodes are. -/
theorem readsIf_query {q : Query} (h : ∀ n ∈ q.nodes, ReadsIf readNode n.toJson (ok n)) :
    ReadsIf (readQuery readNode) (queryToJson q) (∀ n ∈ q.nodes, ok n) := by
  obtain ⟨hroot, hgroupBys, hselects, hconditions, horderBys, hhaving, hcalculations⟩ :=
    QueryOf.forall_mem_nodes.1 h
  have hsort : ∀ s ∈ q.orderBys, ReadsIf (readSort readNode) (sortToJson s) (ok s.node) :=
    fun s hs => by
      rw [sortToJson_eq]
      exact fun _ h => h.recordIf (by simp) fun _ hf =>
        hf.before (by simp) (horderBys s hs) fun _ =>
          ⟨_, hf.required (by simp) (readsAs_bool s.descending) rfl⟩
  have hcalculation : ∀ k ∈ q.calculations, ReadsIf (readCalculation readNode) (calculationToJson k)
      (ok k.target ∧ ok k.expression) := fun k hk => by
    rw [calculationToJson_eq]
    exact fun _ h => h.recordIf (by simp) fun _ hf =>
      hf.requiredIf (by simp) (hcalculations k hk).1 fun _ =>
      hf.behind (by simp) (readsAs_text k.name) <|
      hf.before (by simp) (hcalculations k hk).2 fun _ => ⟨_, rfl⟩
  let word (n : UInt64) : Json := ofNat n.toNat
  have hword (n : UInt64) : word n ≠ .null := fun h => by cases h
  rw [queryToJson_eq, queryEntries]
  refine ReadsIf.congr (fun _ h => h.recordIf (by simp) fun _ hf => ?_) (parts_iff q)
  exact hf.requiredIf (by simp) hroot fun _ =>
    hf.requiredIf (by simp) (readsIf_list hselects) fun _ =>
    hf.requiredIf (by simp) (readsIf_list hconditions) fun _ =>
    hf.requiredIf (by simp) (readsIf_list hsort) fun _ =>
    hf.requiredIf (by simp) (readsIf_list hgroupBys) fun _ =>
    hf.requiredIf (by simp) (readsIf_list hcalculation) fun _ =>
    hf.before (by simp) (readsIf_list hhaving) fun _ => ⟨_,
    hf.nullable (g := word) (o := q.limit) (by simp [word]) hword readsAs_uint64 <|
    hf.nullable (g := word) (o := q.offset) (by simp [word]) hword readsAs_uint64 <|
    hf.required (by simp) (readsAs_bool q.distinct) <|
    hf.required (by simp) (readsAs_bool q.forUpdate) rfl⟩

theorem readsIf_kind {kind : String} {content : Json} {levels : Nat}
    (h : ReadsIf (readNodeContent (readNodeWithin levels) kind) content P) :
    ReadsIf (readNodeWithin (levels + 1)) (ofEntries [(kind, content)]) P := fun depth hwithin => by
  obtain ⟨henter, hinside⟩ := hwithin.ofEntries
  rw [readNodeWithin_succ, henter, Option.bind_some]
  exact h _ (hinside _ List.mem_cons_self)

/-- A node is read with one level more than the nodes that it is made of, if they are. -/
theorem readsIf_step {n : Node} {levels : Nat} (hinner : ∀ p ∈ n.inner,
      ReadsIf (readNodeWithin levels) p.toJson (∀ v ∈ p.values, v.Dated ∧ v.IsFinite)) :
    ReadsIf (readNodeWithin (levels + 1)) n.toJson (∀ v ∈ n.values, v.Dated ∧ v.IsFinite) := by
  have hparent {p : Node} (h : n.inner = [p]) :
      ReadsIf (readNodeWithin levels) p.toJson (∀ v ∈ p.values, v.Dated ∧ v.IsFinite) :=
    hinner p (h ▸ List.mem_singleton_self p)
  cases n with
  | table t =>
    have h : ReadsAs (readNodeWithin (levels + 1)) (Node.table t).toJson (.table t) :=
      readsAs_step nofun nofun nofun
    exact h.readsIf.congr (by simp [values])
  | column p c =>
    rw [toJson, values]
    exact readsIf_kind fun _ h => h.recordIf (by simp) fun _ hf =>
      hf.before (by simp) (hparent rfl) fun _ => ⟨_, hf.required (by simp) c.readsAs rfl⟩
  | reference p r t =>
    rw [toJson, values]
    exact readsIf_kind fun _ h => h.recordIf (by simp) fun _ hf =>
      hf.before (by simp) (hparent rfl) fun _ =>
        ⟨_, hf.required (by simp) r.readsAs <| hf.required (by simp) t.readsAs rfl⟩
  | reverse p r t =>
    rw [toJson, values]
    exact readsIf_kind fun _ h => h.recordIf (by simp) fun _ hf =>
      hf.before (by simp) (hparent rfl) fun _ =>
        ⟨_, hf.required (by simp) r.readsAs <| hf.required (by simp) t.readsAs rfl⟩
  | manyMany p m t =>
    rw [toJson, values]
    exact readsIf_kind fun _ h => h.recordIf (by simp) fun _ hf =>
      hf.before (by simp) (hparent rfl) fun _ =>
        ⟨_, hf.required (by simp) m.readsAs <| hf.required (by simp) t.readsAs rfl⟩
  | calculated p name =>
    rw [toJson, values]
    exact readsIf_kind fun _ h => h.recordIf (by simp) fun _ hf =>
      hf.before (by simp) (hparent rfl) fun _ =>
        ⟨_, hf.required (by simp) (readsAs_text name) rfl⟩
  | operation op operands =>
    have hoperands : ∀ p ∈ operands, ReadsIf (readNodeWithin levels) p.toJson
      (∀ v ∈ p.values, v.Dated ∧ v.IsFinite) := hinner
    rw [toJson, listToJson_eq, values_operation]
    refine ReadsIf.congr (readsIf_kind fun _ h => h.recordIf (by simp) fun _ hf => ?_)
      List.forall_mem_flatMap.symm
    exact hf.behind (by simp) (readsAs_name (Op.ofName_name op)) <|
      hf.before (by simp) (readsIf_list hoperands) fun _ => ⟨_, rfl⟩
  | value v =>
    rw [toJson]
    refine ReadsIf.congr (readsIf_kind fun depth h => ?_) List.forall_mem_singleton.symm
    exact (iff_of_eq (congrArg (· = true) Option.isSome_map)).trans (v.readsIf depth h)
  | subquery q =>
    rw [toJson, values, queryValues_eq, QueryOf.values]
    refine ReadsIf.congr (readsIf_kind fun depth h => ?_) List.forall_mem_flatMap.symm
    exact (iff_of_eq (congrArg (· = true) Option.isSome_map)).trans (readsIf_query hinner depth h)

/-- A node is read by a reader with a level for each that its document opens, if its values are. -/
theorem readsIf (n : Node) {levels : Nat} (hlevels : n.toJson.levels ≤ levels) :
    ReadsIf (readNodeWithin levels) n.toJson (∀ v ∈ n.values, v.Dated ∧ v.IsFinite) := by
  induction n using inner_induction generalizing levels with
  | step n ih =>
    obtain _ | levels := levels
    · have := n.levels_pos
      omega
    · refine readsIf_step fun p hp => ih p hp ?_
      have := levels_lt_of_mem_inner hp
      omega

end

/-! ## Nodes in binary -/

section

variable {take : Decoder Node} {ok : Node → Prop}

theorem decodesIf_nodes {ns : List Node} (h : ∀ n ∈ ns, DecodesIf take n.encode (ok n)) :
    DecodesIf (takeList take) (list encode ns) (∀ n ∈ ns, ok n) :=
  decodesIf_list h fun n _ => n.length_encode_pos

/-- A query is found if its nodes are. -/
theorem decodesIf_query {q : Query} (h : ∀ n ∈ q.nodes, DecodesIf take n.encode (ok n)) :
    DecodesIf (takeQuery take) (encodeQuery q) (∀ n ∈ q.nodes, ok n) := by
  obtain ⟨hroot, hgroupBys, hselects, hconditions, horderBys, hhaving, hcalculations⟩ :=
    QueryOf.forall_mem_nodes.1 h
  have hsort : ∀ s ∈ q.orderBys, DecodesIf (takeSort take) (encodeSort s) (ok s.node) :=
    fun s hs => by
      rw [encodeSort_eq]
      exact (horderBys s hs).before fun _ => ⟨_, (decodes_flag _).map _⟩
  have hcalculation : ∀ k ∈ q.calculations, DecodesIf (takeCalculation take) (encodeCalculation k)
      (ok k.target ∧ ok k.expression) := fun k hk => by
    rw [encodeCalculation_eq]
    exact (hcalculations k hk).1.bind fun _ => (decodes_text _).bindIf <|
      (hcalculations k hk).2.map _
  rw [encodeQuery_eq]
  refine DecodesIf.congr ?_ (parts_iff q)
  exact hroot.bind fun _ => (decodesIf_nodes hselects).bind fun _ =>
    (decodesIf_nodes hconditions).bind fun _ =>
    (decodesIf_list hsort fun s _ => by
      rw [encodeSort_eq]
      exact length_append_pos s.node.length_encode_pos).bind fun _ =>
    (decodesIf_nodes hgroupBys).bind fun _ =>
    (decodesIf_list hcalculation fun k _ => by
      rw [encodeCalculation_eq]
      exact length_append_pos k.target.length_encode_pos).bind fun _ =>
    (decodesIf_nodes hhaving).before fun _ => ⟨_, (decodes_optional decodes_word _).bind <|
      (decodes_optional decodes_word _).bind <| (decodes_flag _).bind <| (decodes_flag _).map _⟩

/-- A node is found from its number and its content if the nodes that it is made of are. -/
theorem decodesIf_content (n : Node)
    (hinner : ∀ p ∈ n.inner, DecodesIf take p.encode (∀ v ∈ p.values, v.Dated)) :
    DecodesIf (takeShort >>= takeNodeContent take) n.encode (∀ v ∈ n.values, v.Dated) := by
  have hparent {p : Node} (h : n.inner = [p]) : DecodesIf take p.encode (∀ v ∈ p.values, v.Dated) :=
    hinner p (h ▸ List.mem_singleton_self p)
  cases n with
  | table t =>
    have h : Decodes (takeShort >>= takeNodeContent take) (encode (.table t)) (.table t) :=
      decodes_content _ nofun nofun
    exact h.decodesIf.congr (by simp [values])
  | column p c =>
    rw [encode, List.append_assoc]
    exact (decodes_short (n := 1) (by decide)).bindIf <| (hparent rfl).before fun _ =>
      ⟨_, c.decodes.map _⟩
  | reference p r t =>
    simp only [encode, List.append_assoc]
    exact (decodes_short (n := 2) (by decide)).bindIf <| (hparent rfl).before fun _ =>
      ⟨_, r.decodes.bind (t.decodes.map _)⟩
  | reverse p r t =>
    simp only [encode, List.append_assoc]
    exact (decodes_short (n := 3) (by decide)).bindIf <| (hparent rfl).before fun _ =>
      ⟨_, r.decodes.bind (t.decodes.map _)⟩
  | manyMany p m t =>
    simp only [encode, List.append_assoc]
    exact (decodes_short (n := 4) (by decide)).bindIf <| (hparent rfl).before fun _ =>
      ⟨_, m.decodes.bind (t.decodes.map _)⟩
  | calculated p name =>
    rw [encode, List.append_assoc]
    exact (decodes_short (n := 5) (by decide)).bindIf <| (hparent rfl).before fun _ =>
      ⟨_, (decodes_text name).map _⟩
  | operation op operands =>
    simp only [encode, encodeAll_eq, values_operation, List.append_assoc]
    refine DecodesIf.congr ?_ List.forall_mem_flatMap.symm
    exact (decodes_short (n := 6) (by decide)).bindIf <|
      (decodes_choice op.mem_all (by decide)).bindIf ((decodesIf_nodes hinner).map _)
  | value v =>
    refine DecodesIf.congr ?_ List.forall_mem_singleton.symm
    exact (decodes_short (n := 7) (by decide)).bindIf (v.decodesIf.map _)
  | subquery q =>
    rw [values, queryValues_eq, QueryOf.values]
    refine DecodesIf.congr ?_ List.forall_mem_flatMap.symm
    exact (decodes_short (n := 8) (by decide)).bindIf ((decodesIf_query hinner).map _)

end

/-- A node is found by a decoder with a level for each of its bytes, if its values are. -/
theorem decodesIf (n : Node) {levels : Nat} (hlevels : n.encode.length ≤ levels) :
    DecodesIf (takeNodeWithin levels) n.encode (∀ v ∈ n.values, v.Dated) := by
  induction n using inner_induction generalizing levels with
  | step n ih =>
    obtain _ | levels := levels
    · have := n.length_encode_pos
      omega
    · refine n.decodesIf_content fun p hp => ih p hp ?_
      have := length_encode_lt_of_mem_inner hp
      omega

/-- The text form of a node is read if its values are. -/
theorem isSome_ofText {n : Node} (hlevels : n.toJson.levels < depthLimit)
    (hlength : n.toText.length < 2 ^ 64) :
    (ofText? n.toText).isSome = true ↔ ∀ v ∈ n.values, v.Dated ∧ v.IsFinite := by
  rw [toText, render, String.length_ofList] at hlength
  rw [ofText?, toText, parse_render n.plain, Option.bind_some]
  exact n.readsIf (Nat.le_of_lt hlevels) _ ⟨hlevels, hlength⟩

/-- The binary form of a node is read if its values are. -/
theorem isSome_ofBytes {n : Node} (hlength : n.toBytes.length < 2 ^ 64) :
    (ofBytes? n.toBytes).isSome = true ↔ ∀ v ∈ n.values, v.Dated := by
  rw [ofBytes?, Option.isSome_map]
  exact (n.decodesIf (Nat.le_refl _)).isSome hlength

end Node

/-! ## Queries -/

namespace Query

variable {q : Query}

theorem isSome_ofText (hlevels : (Node.queryToJson q).levels < depthLimit)
    (hlength : (toText q).length < 2 ^ 64) :
    (ofText? (toText q)).isSome = true ↔ ∀ v ∈ q.values, v.Dated ∧ v.IsFinite := by
  have hplain : (Node.queryToJson q).Plain := Node.queryToJson_plain fun n _ => n.plain
  have hread : ReadsIf (readQuery Node.read) (Node.queryToJson q)
      (∀ n ∈ q.nodes, ∀ v ∈ n.values, v.Dated ∧ v.IsFinite) :=
    Node.readsIf_query fun n _ depth h => n.readsIf (Nat.le_of_lt h.levels_lt) depth h
  rw [toText, render, String.length_ofList] at hlength
  rw [ofText?, toText, parse_render hplain, Option.bind_some, QueryOf.values,
    List.forall_mem_flatMap]
  exact hread _ ⟨hlevels, hlength⟩

theorem isSome_ofBytes (hlength : (toBytes q).length < 2 ^ 64) :
    (ofBytes? (toBytes q)).isSome = true ↔ ∀ v ∈ q.values, v.Dated := by
  rw [ofBytes?, Option.isSome_map, QueryOf.values, List.forall_mem_flatMap]
  exact (Node.decodesIf_query fun n hn =>
    n.decodesIf (Node.length_encode_le_of_mem_nodes hn)).isSome hlength

end Query

/-- The text form of a node or query is read exactly if its binary form is and all of its doubles
are finite. It nests less deep than `depthLimit`, and like every text and every byte string, its
forms have fewer than `2 ^ 64` characters and bytes. -/
theorem text_read_iff (n : Node) (q : Query) :
    (n.toJson.levels < depthLimit → n.toText.length < 2 ^ 64 → n.toBytes.length < 2 ^ 64 →
      ((Node.ofText? n.toText).isSome = true ↔
        (Node.ofBytes? n.toBytes).isSome = true ∧ ∀ v ∈ n.values, v.IsFinite)) ∧
    ((Node.queryToJson q).levels < depthLimit → (Query.toText q).length < 2 ^ 64 →
      (Query.toBytes q).length < 2 ^ 64 → ((Query.ofText? (Query.toText q)).isSome = true ↔
        (Query.ofBytes? (Query.toBytes q)).isSome = true ∧ ∀ v ∈ q.values, v.IsFinite)) := by
  refine ⟨fun hlevels htext hbytes => ?_, fun hlevels htext hbytes => ?_⟩
  · rw [Node.isSome_ofText hlevels htext, Node.isSome_ofBytes hbytes, forall₂_and]
  · rw [Query.isSome_ofText hlevels htext, Query.isSome_ofBytes hbytes, forall₂_and]

namespace Library

/-- A search for a name and for what is greater than every number. -/
def infiniteNamed : Except Error Query := do
  let s ← Schema.ofDeclaration declaration
  named s "É" (.float (.infinity false))

theorem infiniteNamed_forms : ∃ q, infiniteNamed = .ok q ∧
    (Node.queryToJson q).levels < depthLimit ∧ (Query.toText q).length < 2 ^ 64 ∧
      (Query.toBytes q).length < 2 ^ 64 ∧ (∀ v ∈ q.values, v.Dated) ∧
        ¬ ∀ v ∈ q.values, v.IsFinite := by
  simp only [Query.toText, render, String.length_ofList]
  exact exists_ok_of_decide (by decide +kernel)

/-- The search is not read from its text. A tenth is. -/
theorem infiniteNamed_text : ∃ q, infiniteNamed = .ok q ∧
    (Query.ofText? (Query.toText q)).isSome = false ∧
      (Node.ofText? (Node.value (.float ⟨0x3fb999999999999a⟩)).toText).isSome = true := by
  obtain ⟨q, hq, hlevels, htext, hbytes, -, hinfinite⟩ := infiniteNamed_forms
  have htenth : (Node.value (.float ⟨0x3fb999999999999a⟩)).toText.length < 2 ^ 64 := by
    rw [Node.toText, render, String.length_ofList]
    decide +kernel
  obtain ⟨hnode, hquery⟩ := text_read_iff (.value (.float ⟨0x3fb999999999999a⟩)) q
  refine ⟨q, hq, Bool.eq_false_iff.2 fun h => ?_, ?_⟩
  · exact hinfinite ((hquery hlevels htext hbytes).1 h).2
  · exact (hnode (by decide) htenth (by decide)).2 ⟨by decide, by decide⟩

/-- The search is read from its bytes, but not from its text. -/
theorem exists_infinite_unread : ∃ q, infiniteNamed = .ok q ∧
    (Node.queryToJson q).levels < depthLimit ∧ (Query.ofBytes? (Query.toBytes q)).isSome = true ∧
      (Query.ofText? (Query.toText q)).isSome = false := by
  obtain ⟨q, hq, hlevels, htext, hbytes, hdated, hinfinite⟩ := infiniteNamed_forms
  refine ⟨q, hq, hlevels, (Query.isSome_ofBytes hbytes).2 hdated, Bool.eq_false_iff.2 fun h => ?_⟩
  exact hinfinite fun v hv => ((Query.isSome_ofText hlevels htext).1 h v hv).2

end Library

end RecordGraph
