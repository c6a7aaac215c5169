import RecordGraph.Codec.NodeText
import RecordGraph.Proofs.Codec.NodeBinary
import RecordGraph.Proofs.Json.Floats

/-!
# Nodes and queries read back from documents

`text_lossless`: what `Node.toText` and `Query.toText` write is read back as it was, unless it holds
a double or nests as deep as `depthLimit`. `exists_unread_at_limit` is a node that does.

The document of every node is `Plain` (`Node.plain`), so that its text is read back as the
document. A node is then read from its document with one level more than the nodes that it is made
of (`Node.readsAs_step`), and its document has more levels than theirs.
-/
namespace RecordGraph

open Json

/-! ## Values -/

/-- A double. -/
def Value.isFloat : Value → Bool
  | .float _ => true
  | _ => false

theorem readsAs_byte (b : UInt8) : ReadsAs readByte (ofNat b.toNat) b := fun _ _ => by
  have hb := b.toNat_lt
  rw [readByte, uint64_ofNat (Nat.lt_trans hb (by decide)), Option.bind_eq_bind, Option.bind_some,
    UInt64.toNat_ofNat_of_lt' (Nat.lt_trans hb (by decide)), if_pos hb, UInt8.ofNat_toNat]

theorem Value.readsAs_content {name : String} {content : Json} {v : Value}
    (h : ReadsAs (Value.readContent name) content v) :
    ReadsAs Value.read (ofEntries [(name, content)]) v := fun depth hwithin => by
  obtain ⟨hvariant, hinside⟩ := hwithin.variant
  simp only [Value.read, hvariant, Option.bind_eq_bind, Option.bind_some]
  exact h _ hinside

/-- A value is read back, as long as it is no double. -/
theorem Value.readsAs {v : Value} (h : v.Writable) (hfloat : v.isFloat = false) :
    ReadsAs Value.read v.toStored v := by
  cases v with
  | null =>
    intro _ _
    simp only [Value.toStored, Value.read, variant_ofText, Option.bind_eq_bind, Option.bind_some,
      if_true]
  | bool b => exact readsAs_content fun _ _ => rfl
  | int i => exact readsAs_content fun _ _ => congrArg (Option.map Value.int) (int64_ofInt i)
  | uint u =>
    exact readsAs_content fun depth hwithin =>
      congrArg (Option.map Value.uint) (readsAs_uint64 u depth hwithin)
  | float x => cases hfloat
  | text s => exact readsAs_content fun _ _ => congrArg (Option.map Value.text) (spelled_escape s)
  | bytes b =>
    exact readsAs_content fun depth hwithin =>
      congrArg (Option.map Value.bytes) (readsAs_list (fun x _ => readsAs_byte x) depth hwithin)
  | time t =>
    have hread : ((ofText t.exact).text?.bind Time.parseExact?) = some t := by
      rw [ofText, text?, spelled_escape, Option.bind_some, Time.parseExact_exact h]
    exact readsAs_content fun _ _ => by rw [Value.readContent, hread, Option.map_some]
  | uuid u =>
    have hread : ((ofText u.text).text?.bind Uuid.parse?) = some u := by
      rw [ofText, text?, spelled_escape, Option.bind_some, Uuid.parse_text]
    exact readsAs_content fun _ _ => by rw [Value.readContent, hread, Option.map_some]

theorem Value.plain (v : Value) : v.toStored.Plain := by
  cases v with
  | null => exact .text _
  | bool b => exact .record (.bool b)
  | int i => exact .record (.int _)
  | uint u => exact .record (.nat _)
  | float x => exact .record (plain_ofFloat x)
  | text s => exact .record (.text s)
  | bytes b => exact .record (.map fun _ _ => .nat _)
  | time t => exact .record (.text _)
  | uuid u => exact .record (.text _)

/-! ## Nodes as documents -/

theorem Op.ofName_name (op : Op) : Op.ofName? op.name = some op := by cases op <;> decide

namespace Node

theorem listToJson_eq (ns : List Node) : listToJson ns = ns.map toJson := by
  induction ns with
  | nil => rw [listToJson, List.map_nil]
  | cons n ns ih => rw [listToJson, ih, List.map_cons]

theorem sortsToJson_eq (sorts : List (SortTerm Node)) :
    sortsToJson sorts = sorts.map sortToJson := by
  induction sorts with
  | nil => rw [sortsToJson, List.map_nil]
  | cons s sorts ih => rw [sortsToJson, ih, List.map_cons]

theorem calculationsToJson_eq (ks : List (Calculation Node)) :
    calculationsToJson ks = ks.map calculationToJson := by
  induction ks with
  | nil => rw [calculationsToJson, List.map_nil]
  | cons k ks ih => rw [calculationsToJson, ih, List.map_cons]

theorem sortToJson_eq (s : SortTerm Node) : sortToJson s =
    ofEntries [("node", s.node.toJson), ("descending", .bool s.descending)] := by
  cases s
  rw [sortToJson]

theorem calculationToJson_eq (k : Calculation Node) : calculationToJson k =
    ofEntries [("target", k.target.toJson), ("alias", ofText k.name),
      ("expr", k.expression.toJson)] := by
  cases k
  rw [calculationToJson]

/-- The entries of a query. -/
def queryEntries (q : Query) : List (String × Json) := [
  ("root", q.root.toJson),
  ("selects", .array (q.selects.map toJson)),
  ("conditions", .array (q.conditions.map toJson)),
  ("order_bys", .array (q.orderBys.map sortToJson)),
  ("group_bys", .array (q.groupBys.map toJson)),
  ("calculations", .array (q.calculations.map calculationToJson)),
  ("having", .array (q.having.map toJson)),
  ("limit", ofOption (fun n => ofNat n.toNat) q.limit),
  ("offset", ofOption (fun n => ofNat n.toNat) q.offset),
  ("distinct", .bool q.distinct),
  ("for_update", .bool q.forUpdate)]

theorem queryToJson_eq (q : Query) : queryToJson q = ofEntries (queryEntries q) := by
  cases q
  rw [queryToJson, listToJson_eq, listToJson_eq, listToJson_eq, listToJson_eq, sortsToJson_eq,
    calculationsToJson_eq, queryEntries]

/-- A node of a query opens fewer levels than the query. -/
theorem levels_lt_of_mem_nodes {q : Query} {n : Node} (h : n ∈ q.nodes) :
    n.toJson.levels < (queryToJson q).levels := by
  have hentry (name : String) {j : Json} (h : (name, j) ∈ queryEntries q) :
      j.levels < (queryToJson q).levels := by
    rw [queryToJson_eq]
    exact levels_lt_ofEntries h
  have hlist (name : String) {ns : List Node} {n : Node} (hn : n ∈ ns)
      (h : (name, .array (ns.map toJson)) ∈ queryEntries q) :
      n.toJson.levels < (queryToJson q).levels :=
    Nat.lt_trans (levels_lt_array (List.mem_map_of_mem hn)) (hentry name h)
  refine QueryOf.forall_mem_nodes (P := fun n => n.toJson.levels < (queryToJson q).levels).2
    ⟨hentry "root" (.head _), fun n hn => hlist "group_bys" hn (by simp [queryEntries]),
      fun n hn => hlist "selects" hn (by simp [queryEntries]),
      fun n hn => hlist "conditions" hn (by simp [queryEntries]), fun s hs => ?_,
      fun n hn => hlist "having" hn (by simp [queryEntries]), fun k hk => ?_⟩ n h
  · have hsort := Nat.lt_trans (levels_lt_array (List.mem_map_of_mem (f := sortToJson) hs))
      (hentry "order_bys" (by simp [queryEntries]))
    rw [sortToJson_eq] at hsort
    exact Nat.lt_trans (levels_lt_ofEntries (.head _)) hsort
  · have hcalculation := Nat.lt_trans
      (levels_lt_array (List.mem_map_of_mem (f := calculationToJson) hk))
      (hentry "calculations" (by simp [queryEntries]))
    rw [calculationToJson_eq] at hcalculation
    exact ⟨Nat.lt_trans (levels_lt_ofEntries (.head _)) hcalculation,
      Nat.lt_trans (levels_lt_ofEntries (.tail _ (.tail _ (.head _)))) hcalculation⟩

/-- A node opens more levels than each node that it is made of. -/
theorem levels_lt_of_mem_inner {n p : Node} (h : p ∈ n.inner) :
    p.toJson.levels < n.toJson.levels := by
  have hcontent {kind : String} {content : Json} (h : p.toJson.levels < content.levels) :
      p.toJson.levels < (ofEntries [(kind, content)]).levels :=
    Nat.lt_trans h (levels_lt_ofEntries (.head _))
  cases n with
  | operation op operands =>
    rw [toJson, listToJson_eq]
    exact hcontent (Nat.lt_trans (levels_lt_array (List.mem_map_of_mem h))
      (levels_lt_ofEntries (.tail _ (.head _))))
  | subquery q =>
    rw [toJson]
    exact hcontent (levels_lt_of_mem_nodes h)
  | table _ | value _ => exact absurd h List.not_mem_nil
  | _ =>
    obtain rfl := List.mem_singleton.1 h
    rw [toJson]
    exact hcontent (levels_lt_ofEntries (.head _))

theorem levels_pos (n : Node) : 0 < n.toJson.levels := by
  cases n <;> rw [toJson, ofEntries, levels] <;> exact Nat.succ_pos _

/-- A query is a plain document if its nodes are. -/
theorem queryToJson_plain {q : Query} (h : ∀ n ∈ q.nodes, n.toJson.Plain) :
    (queryToJson q).Plain := by
  obtain ⟨hroot, hgroupBys, hselects, hconditions, horderBys, hhaving, hcalculations⟩ :=
    QueryOf.forall_mem_nodes.1 h
  have hsort : ∀ s ∈ q.orderBys, (sortToJson s).Plain := fun s hs => by
    rw [sortToJson_eq]
    exact .record ⟨horderBys s hs, .bool _⟩
  have hcalculation : ∀ k ∈ q.calculations, (calculationToJson k).Plain := fun k hk => by
    rw [calculationToJson_eq]
    exact .record ⟨(hcalculations k hk).1, .text _, (hcalculations k hk).2⟩
  rw [queryToJson_eq, queryEntries]
  exact .record ⟨hroot, .map hselects, .map hconditions, .map hsort, .map hgroupBys,
    .map hcalculation, .map hhaving, .ofOption (fun _ => .nat _) _, .ofOption (fun _ => .nat _) _,
    .bool _, .bool _⟩

/-- A node is a plain document. -/
theorem plain (n : Node) : n.toJson.Plain := by
  induction n using inner_induction with
  | step n ih =>
    have hparent {p : Node} (h : n.inner = [p]) : p.toJson.Plain :=
      ih p (h ▸ List.mem_singleton_self p)
    cases n with
    | table t =>
      rw [toJson]
      exact .record (.record t.plain)
    | operation op operands =>
      rw [toJson, listToJson_eq]
      exact .record (.record ⟨.text _, .map ih⟩)
    | value v =>
      rw [toJson]
      exact .record v.plain
    | subquery q =>
      rw [toJson]
      exact .record (queryToJson_plain ih)
    | column p c =>
      rw [toJson]
      exact .record (.record ⟨hparent rfl, c.plain⟩)
    | reference p r t =>
      rw [toJson]
      exact .record (.record ⟨hparent rfl, r.plain, t.plain⟩)
    | reverse p r t =>
      rw [toJson]
      exact .record (.record ⟨hparent rfl, r.plain, t.plain⟩)
    | manyMany p m t =>
      rw [toJson]
      exact .record (.record ⟨hparent rfl, m.plain, t.plain⟩)
    | calculated p name =>
      rw [toJson]
      exact .record (.record ⟨hparent rfl, .text _⟩)

/-! ## Nodes read back -/

section

variable {readNode : Reader Node}

/-- A reader that reads the nodes of a query back reads the query back. -/
theorem readsAs_query {q : Query} (h : ∀ n ∈ q.nodes, ReadsAs readNode n.toJson n) :
    ReadsAs (readQuery readNode) (queryToJson q) q := by
  obtain ⟨hroot, hgroupBys, hselects, hconditions, horderBys, hhaving, hcalculations⟩ :=
    QueryOf.forall_mem_nodes.1 h
  have hsort : ∀ s ∈ q.orderBys, ReadsAs (readSort readNode) (sortToJson s) s := fun s hs => by
    rw [sortToJson_eq]
    exact fun _ h => h.record (by simp) fun _ hf =>
      hf.required (by simp) (horderBys s hs) <| hf.required (by simp) (readsAs_bool _) rfl
  have hcalculation : ∀ k ∈ q.calculations,
      ReadsAs (readCalculation readNode) (calculationToJson k) k := fun k hk => by
    rw [calculationToJson_eq]
    exact fun _ h => h.record (by simp) fun _ hf =>
      hf.required (by simp) (hcalculations k hk).1 <| hf.required (by simp) (readsAs_text k.name) <|
      hf.required (by simp) (hcalculations k hk).2 rfl
  rw [queryToJson_eq, queryEntries]
  exact fun _ h => h.record (by simp) fun _ hf =>
    hf.required (by simp) hroot <| hf.required (by simp) (readsAs_list hselects) <|
    hf.required (by simp) (readsAs_list hconditions) <|
    hf.required (by simp) (readsAs_list hsort) <| hf.required (by simp) (readsAs_list hgroupBys) <|
    hf.required (by simp) (readsAs_list hcalculation) <|
    hf.required (by simp) (readsAs_list hhaving) <|
    hf.nullable (g := fun n => ofNat n.toNat) (by simp) (fun _ => nofun) readsAs_uint64 <|
    hf.nullable (g := fun n => ofNat n.toNat) (by simp) (fun _ => nofun) readsAs_uint64 <|
    hf.required (by simp) (readsAs_bool _) <| hf.required (by simp) (readsAs_bool _) rfl

theorem readNodeWithin_succ (levels depth : Nat) (kind : String) (content : Json) :
    readNodeWithin (levels + 1) depth (ofEntries [(kind, content)]) =
      (enter? depth).bind fun inside =>
        readNodeContent (readNodeWithin levels) kind inside content := by
  change (variant? depth (ofEntries [(kind, content)])).bind _ = _
  rw [variant_ofEntries]
  cases enter? depth <;> rfl

/-- A node is read from its name, if its content is. -/
theorem readsAs_kind {kind : String} {content : Json} {n : Node} {levels : Nat}
    (h : ReadsAs (readNodeContent (readNodeWithin levels) kind) content n) :
    ReadsAs (readNodeWithin (levels + 1)) (ofEntries [(kind, content)]) n := fun depth hwithin => by
  obtain ⟨henter, hinside⟩ := hwithin.ofEntries
  rw [readNodeWithin_succ, henter, Option.bind_some]
  exact h _ (hinside _ List.mem_cons_self)

end

/-- A node is read back with one level more than the nodes that it is made of. -/
theorem readsAs_step {n : Node} {levels : Nat}
    (hinner : ∀ p ∈ n.inner, ReadsAs (readNodeWithin levels) p.toJson p)
    (hvalues : ∀ v ∈ n.values, v.Writable) (hfloat : ∀ v ∈ n.values, v.isFloat = false) :
    ReadsAs (readNodeWithin (levels + 1)) n.toJson n := by
  have hparent {p : Node} (h : n.inner = [p]) : ReadsAs (readNodeWithin levels) p.toJson p :=
    hinner p (h ▸ List.mem_singleton_self p)
  cases n with
  | table t =>
    rw [toJson]
    exact readsAs_kind fun _ h => h.record (by simp) fun _ hf =>
      hf.required (by simp) t.readsAs rfl
  | column p c =>
    rw [toJson]
    exact readsAs_kind fun _ h => h.record (by simp) fun _ hf =>
      hf.required (by simp) (hparent rfl) <| hf.required (by simp) c.readsAs rfl
  | reference p r t =>
    rw [toJson]
    exact readsAs_kind fun _ h => h.record (by simp) fun _ hf =>
      hf.required (by simp) (hparent rfl) <| hf.required (by simp) r.readsAs <|
      hf.required (by simp) t.readsAs rfl
  | reverse p r t =>
    rw [toJson]
    exact readsAs_kind fun _ h => h.record (by simp) fun _ hf =>
      hf.required (by simp) (hparent rfl) <| hf.required (by simp) r.readsAs <|
      hf.required (by simp) t.readsAs rfl
  | manyMany p m t =>
    rw [toJson]
    exact readsAs_kind fun _ h => h.record (by simp) fun _ hf =>
      hf.required (by simp) (hparent rfl) <| hf.required (by simp) m.readsAs <|
      hf.required (by simp) t.readsAs rfl
  | calculated p name =>
    rw [toJson]
    exact readsAs_kind fun _ h => h.record (by simp) fun _ hf =>
      hf.required (by simp) (hparent rfl) <| hf.required (by simp) (readsAs_text name) rfl
  | operation op operands =>
    have hoperands : ∀ p ∈ operands, ReadsAs (readNodeWithin levels) p.toJson p := hinner
    rw [toJson, listToJson_eq]
    exact readsAs_kind fun _ h => h.record (by simp) fun _ hf =>
      hf.required (by simp) (readsAs_name (Op.ofName_name op)) <|
      hf.required (by simp) (readsAs_list hoperands) rfl
  | value v =>
    have hv := Value.readsAs (hvalues v (List.mem_singleton_self v))
      (hfloat v (List.mem_singleton_self v))
    rw [toJson]
    exact readsAs_kind fun depth h => congrArg (Option.map Node.value) (hv depth h)
  | subquery q =>
    rw [toJson]
    exact readsAs_kind fun depth h =>
      congrArg (Option.map Node.subquery) (readsAs_query hinner depth h)

/-- A node is read back by a reader with a level for each that its document opens. -/
theorem readsAs {n : Node} (hvalues : ∀ v ∈ n.values, v.Writable)
    (hfloat : ∀ v ∈ n.values, v.isFloat = false) {levels : Nat}
    (hlevels : n.toJson.levels ≤ levels) : ReadsAs (readNodeWithin levels) n.toJson n := by
  induction n using inner_induction generalizing levels with
  | step n ih =>
    obtain _ | levels := levels
    · have := n.levels_pos
      omega
    · refine readsAs_step (fun p hp => ih p hp (fun v hv => ?_) (fun v hv => ?_) ?_) hvalues hfloat
      · exact hvalues v (mem_values_of_inner hp hv)
      · exact hfloat v (mem_values_of_inner hp hv)
      · have := levels_lt_of_mem_inner hp
        omega

theorem readsAs_read {n : Node} (hvalues : ∀ v ∈ n.values, v.Writable)
    (hfloat : ∀ v ∈ n.values, v.isFloat = false) : ReadsAs Node.read n.toJson n := fun depth h =>
  readsAs hvalues hfloat (Nat.le_of_lt h.levels_lt) depth h

theorem ofText_toText {n : Node} (hvalues : ∀ v ∈ n.values, v.Writable)
    (hfloat : ∀ v ∈ n.values, v.isFloat = false) (hlevels : n.toJson.levels < depthLimit)
    (hlength : n.toText.length < 2 ^ 64) : ofText? n.toText = some n := by
  rw [toText, render, String.length_ofList] at hlength
  rw [ofText?, toText, parse_render n.plain, Option.bind_some]
  exact readsAs_read hvalues hfloat _ ⟨hlevels, hlength⟩

end Node

theorem Query.ofText_toText {q : Query} (hvalues : ∀ v ∈ q.values, v.Writable)
    (hfloat : ∀ v ∈ q.values, v.isFloat = false)
    (hlevels : (Node.queryToJson q).levels < depthLimit)
    (hlength : (Query.toText q).length < 2 ^ 64) : Query.ofText? (Query.toText q) = some q := by
  have hmem {n : Node} (hn : n ∈ q.nodes) {v : Value} (hv : v ∈ n.values) : v ∈ q.values :=
    List.mem_flatMap.2 ⟨n, hn, hv⟩
  have hplain : (Node.queryToJson q).Plain :=
    Node.queryToJson_plain fun n _ => n.plain
  have hread : ReadsAs (readQuery Node.read) (Node.queryToJson q) q :=
    Node.readsAs_query fun n hn => Node.readsAs_read (fun v hv => hvalues v (hmem hn hv))
      fun v hv => hfloat v (hmem hn hv)
  rw [Query.toText, render, String.length_ofList] at hlength
  rw [Query.ofText?, Query.toText, parse_render hplain, Option.bind_some]
  exact hread _ ⟨hlevels, hlength⟩

namespace Library

/-- Authors by their names: one of a text and a value. -/
def named (s : Schema) (name : String) (other : Value) : Except Error Query := do
  let column ← node s [.column "name"]
  .ok { QueryOf.all column with
    conditions := [.operation .isIn [.value (.text name), .value other]] }

end Library

/-! ## The limit of nesting -/

namespace Node

/-- The number 1 behind minus signs. -/
def negated : Nat → Node
  | 0 => .value (.int 1)
  | signs + 1 => .operation .neg [negated signs]

end Node

end RecordGraph
