import RecordGraph.Codec.NodeBinary
import RecordGraph.Proofs.Codec.SchemaText
import RecordGraph.Proofs.Query.SameText
import RecordGraph.Proofs.Time.Exact
import RecordGraph.Proofs.Value.Uuid

/-!
# Nodes and queries read back from bytes

`binary_lossless`: what `Node.toBytes` and `Query.toBytes` write is read back as it was, with any
bytes behind it.

Every form of content has its lemma: `Table.decodes`, `Value.decodes`, `Node.decodes_query`. A node
is read back if the nodes that it is made of are (`Node.decodes_content`), and it takes more bytes
than each of them, so that the levels of the decoder suffice (`Node.decodes`).
-/
namespace RecordGraph

open Binary

/-! ## Tables -/

theorem Receiver.mem_all (r : Receiver) : r ∈ Receiver.all := by cases r <;> decide

theorem Role.mem_all (r : Role) : r ∈ Role.all := by cases r <;> decide

theorem Op.mem_all (op : Op) : op ∈ Op.all := by cases op <;> decide

theorem Column.decodes (c : Column) : Decodes Column.take c.encode c := by
  simp only [Column.encode, List.append_assoc]
  exact (decodes_text _).bind <| (decodes_text _).bind <|
    (decodes_choice (Receiver.mem_all _) (by decide)).bind <|
    (decodes_choice (Role.mem_all _) (by decide)).bind <| (decodes_flag _).bind <|
    (decodes_flag _).bind <| (decodes_flag _).bind <| (decodes_optional decodes_text _).map _

theorem Reference.decodes (r : Reference) : Decodes Reference.take r.encode r := by
  simp only [Reference.encode, List.append_assoc]
  exact (decodes_text _).bind <| (decodes_text _).bind <| (decodes_text _).bind <|
    (decodes_text _).map _

theorem Reverse.decodes (r : Reverse) : Decodes Reverse.take r.encode r := by
  simp only [Reverse.encode, List.append_assoc]
  exact (decodes_text _).bind <| (decodes_text _).bind <| (decodes_text _).bind <|
    (decodes_flag _).map _

theorem ManyMany.decodes (m : ManyMany) : Decodes ManyMany.take m.encode m := by
  simp only [ManyMany.encode, List.append_assoc]
  exact (decodes_text _).bind <| (decodes_text _).bind <| (decodes_text _).bind <|
    (decodes_text _).bind <| (decodes_text _).map _

theorem length_append_pos {as bs : List UInt8} (h : 0 < as.length) : 0 < (as ++ bs).length := by
  rw [List.length_append]
  omega

/-- A table is read back; the check of its key lets it pass. -/
theorem Table.decodes (t : Table) : Decodes Table.take t.encode t := .of_length fun hlength => by
  have hcolumns : ∀ c ∈ t.columns, 0 < c.encode.length := fun c _ => by
    simp only [Column.encode, List.append_assoc]
    exact length_append_pos (length_text_pos _)
  have hkey : t.keyIndex < 2 ^ 64 := by
    have := t.key_lt
    have := length_le_length_flatMap hcolumns
    simp only [Table.encode, list, List.length_append] at hlength
    omega
  simp only [Table.encode, List.append_assoc]
  refine (decodes_text _).bind <| (decodes_text _).bind <|
    (decodes_list (fun c _ => c.decodes) hcolumns).bind <| (decodes_natural hkey).bind <|
    (decodes_list (fun r _ => r.decodes) fun r _ => ?_).bind <|
    (decodes_list (fun r _ => r.decodes) fun r _ => ?_).bind <|
    (decodes_list (fun m _ => m.decodes) fun m _ => ?_).last ?_
  · simp only [Reference.encode, List.append_assoc]
    exact length_append_pos (length_text_pos _)
  · simp only [Reverse.encode, List.append_assoc]
    exact length_append_pos (length_text_pos _)
  · simp only [ManyMany.encode, List.append_assoc]
    exact length_append_pos (length_text_pos _)
  · rw [Table.ofParts_self]
    exact .pure t

/-! ## Values -/

/-- A value that a stored query holds: its times have years of four digits. -/
def Value.Writable : Value → Prop
  | .time t => t.Writable
  | _ => True

instance : DecidablePred Value.Writable := fun v => by
  cases v <;> unfold Value.Writable <;> infer_instance

/-- A value is read back: floats bit for bit, times as the same instant. -/
theorem Value.decodes {v : Value} (h : v.Writable) : Decodes Value.take v.encode v := by
  have hshort {n : Nat} (hn : n < 2 ^ 32) {body : List UInt8}
      (hbody : Decodes (Value.takeContent n) body v) : Decodes Value.take (natural n ++ body) v :=
    (decodes_short hn).bind hbody
  cases v with
  | null => exact hshort (n := 0) (by decide) (.pure _)
  | bool b => exact hshort (n := 1) (by decide) ((decodes_flag b).map _)
  | int i => exact hshort (n := 2) (by decide) ((decodes_integer i).map _)
  | uint u => exact hshort (n := 3) (by decide) ((decodes_word u).map _)
  | float x =>
    refine hshort (n := 4) (by decide) ?_
    have hword : x.bits.toNat < 256 ^ 8 := x.bits.toNat_lt
    have hbits := (decodes_fixed hword).map fun n => Value.float ⟨UInt64.ofNat n⟩
    rwa [UInt64.ofNat_toNat] at hbits
  | text s => exact hshort (n := 5) (by decide) ((decodes_text s).map _)
  | bytes b => exact hshort (n := 6) (by decide) ((decodes_block b).map _)
  | time t =>
    refine hshort (n := 7) (by decide) ((decodes_text t.exact).last ?_)
    rw [Time.parseExact_exact h]
    exact .pure _
  | uuid u =>
    refine hshort (n := 8) (by decide) ((decodes_block u.bytes).last ?_)
    rw [Uuid.ofBytes_bytes]
    exact .pure _

/-! ## Nodes -/

namespace Node

theorem encodeAll_eq (ns : List Node) : encodeAll ns = ns.flatMap encode := by
  induction ns with
  | nil => rw [encodeAll, List.flatMap_nil]
  | cons n ns ih => rw [encodeAll, ih, List.flatMap_cons]

theorem encodeSort_eq (s : SortTerm Node) :
    encodeSort s = s.node.encode ++ flag s.descending := by
  cases s
  rw [encodeSort]

theorem encodeCalculation_eq (k : Calculation Node) : encodeCalculation k =
    k.target.encode ++ (Binary.text k.name ++ k.expression.encode) := by
  cases k
  rw [encodeCalculation, List.append_assoc]

theorem encodeSorts_eq (sorts : List (SortTerm Node)) :
    encodeSorts sorts = sorts.flatMap encodeSort := by
  induction sorts with
  | nil => rw [encodeSorts, List.flatMap_nil]
  | cons s sorts ih => rw [encodeSorts, ih, List.flatMap_cons]

theorem encodeCalculations_eq (ks : List (Calculation Node)) :
    encodeCalculations ks = ks.flatMap encodeCalculation := by
  induction ks with
  | nil => rw [encodeCalculations, List.flatMap_nil]
  | cons k ks ih => rw [encodeCalculations, ih, List.flatMap_cons]

/-- The parts of an encoded query, one behind the other. -/
theorem encodeQuery_eq (q : Query) : encodeQuery q =
    q.root.encode ++ (list encode q.selects ++ (list encode q.conditions
      ++ (list encodeSort q.orderBys ++ (list encode q.groupBys
      ++ (list encodeCalculation q.calculations ++ (list encode q.having
      ++ (optional word q.limit ++ (optional word q.offset ++ (flag q.distinct
      ++ flag q.forUpdate))))))))) := by
  cases q
  simp only [encodeQuery, encodeAll_eq, encodeSorts_eq, encodeCalculations_eq, list,
    List.append_assoc]

theorem length_encode_pos (n : Node) : 0 < n.encode.length := by
  cases n <;> simp only [encode, List.append_assoc] <;>
    exact length_append_pos (length_natural_pos _)

theorem length_le_of_mem_flatMap {f : α → List UInt8} {items : List α} {a : α} (ha : a ∈ items) :
    (f a).length ≤ (items.flatMap f).length := by
  obtain ⟨before, after, rfl⟩ := List.append_of_mem ha
  simp only [List.flatMap_append, List.flatMap_cons, List.length_append]
  omega

/-- A node of a query takes no more bytes than the query. -/
theorem length_encode_le_of_mem_nodes {q : Query} {n : Node} (h : n ∈ q.nodes) :
    n.encode.length ≤ (encodeQuery q).length := by
  have hparts := congrArg List.length (encodeQuery_eq q)
  simp only [list, List.length_append] at hparts
  have hlist {ns : List Node} (hle : (ns.flatMap encode).length ≤ (encodeQuery q).length)
      {n : Node} (hn : n ∈ ns) : n.encode.length ≤ (encodeQuery q).length :=
    Nat.le_trans (length_le_of_mem_flatMap hn) hle
  refine QueryOf.forall_mem_nodes (P := fun n => n.encode.length ≤ (encodeQuery q).length).2
    ⟨by omega, fun _ => hlist (by omega), fun _ => hlist (by omega), fun _ => hlist (by omega),
      fun s hs => ?_, fun _ => hlist (by omega), fun k hk => ?_⟩ n h
  · have := length_le_of_mem_flatMap (f := encodeSort) hs
    rw [encodeSort_eq, List.length_append] at this
    omega
  · have := length_le_of_mem_flatMap (f := encodeCalculation) hk
    rw [encodeCalculation_eq, List.length_append, List.length_append] at this
    omega

/-- A node takes more bytes than each node that it is made of. -/
theorem length_encode_lt_of_mem_inner {n p : Node} (h : p ∈ n.inner) :
    p.encode.length < n.encode.length := by
  cases n with
  | operation op operands =>
    have := length_le_of_mem_flatMap (f := encode) (show p ∈ operands from h)
    have := length_natural_pos 6
    simp only [encode, encodeAll_eq, List.length_append]
    omega
  | subquery q =>
    have := length_encode_le_of_mem_nodes (show p ∈ q.nodes from h)
    have := length_natural_pos 8
    simp only [encode, List.length_append]
    omega
  | table _ | value _ => exact absurd h List.not_mem_nil
  | _ =>
    obtain rfl := List.mem_singleton.1 h
    have := length_natural_pos
    simp only [encode, List.length_append]
    grind

section

variable {take : Decoder Node}

theorem decodes_nodes {ns : List Node} (h : ∀ n ∈ ns, Decodes take n.encode n) :
    Decodes (takeList take) (list encode ns) ns :=
  decodes_list h fun n _ => n.length_encode_pos

/-- A decoder that reads the nodes of a query back reads the query back. -/
theorem decodes_query {q : Query} (h : ∀ n ∈ q.nodes, Decodes take n.encode n) :
    Decodes (takeQuery take) (encodeQuery q) q := by
  obtain ⟨hroot, hgroupBys, hselects, hconditions, horderBys, hhaving, hcalculations⟩ :=
    QueryOf.forall_mem_nodes.1 h
  have hsort : ∀ s ∈ q.orderBys, Decodes (takeSort take) (encodeSort s) s := fun s hs => by
    rw [encodeSort_eq]
    exact (horderBys s hs).bind ((decodes_flag _).map _)
  have hcalculation : ∀ k ∈ q.calculations,
      Decodes (takeCalculation take) (encodeCalculation k) k := fun k hk => by
    rw [encodeCalculation_eq]
    exact (hcalculations k hk).1.bind <| (decodes_text _).bind <| (hcalculations k hk).2.map _
  rw [encodeQuery_eq]
  exact hroot.bind <| (decodes_nodes hselects).bind <| (decodes_nodes hconditions).bind <|
    (decodes_list hsort fun s _ => by
      rw [encodeSort_eq]
      exact length_append_pos s.node.length_encode_pos).bind <|
    (decodes_nodes hgroupBys).bind <|
    (decodes_list hcalculation fun k _ => by
      rw [encodeCalculation_eq]
      exact length_append_pos k.target.length_encode_pos).bind <|
    (decodes_nodes hhaving).bind <| (decodes_optional decodes_word _).bind <|
    (decodes_optional decodes_word _).bind <| (decodes_flag _).bind <| (decodes_flag _).map _

/-- A decoder that reads the inner nodes of a node back reads the node back from its number and
its content. -/
theorem decodes_content (n : Node) (hinner : ∀ p ∈ n.inner, Decodes take p.encode p)
    (hvalues : ∀ v ∈ n.values, v.Writable) :
    Decodes (takeShort >>= takeNodeContent take) n.encode n := by
  have hshort {k : Nat} (hk : k < 2 ^ 32) {body : List UInt8}
      (hbody : Decodes (takeNodeContent take k) body n) :
      Decodes (takeShort >>= takeNodeContent take) (natural k ++ body) n :=
    (decodes_short hk).bind hbody
  have hparent {p : Node} (h : n.inner = [p]) : Decodes take p.encode p :=
    hinner p (h ▸ List.mem_singleton_self p)
  cases n with
  | table t => exact hshort (k := 0) (by decide) (t.decodes.map _)
  | column p c =>
    rw [encode, List.append_assoc]
    exact hshort (k := 1) (by decide) ((hparent rfl).bind (c.decodes.map _))
  | reference p r t =>
    simp only [encode, List.append_assoc]
    exact hshort (k := 2) (by decide) ((hparent rfl).bind (r.decodes.bind (t.decodes.map _)))
  | reverse p r t =>
    simp only [encode, List.append_assoc]
    exact hshort (k := 3) (by decide) ((hparent rfl).bind (r.decodes.bind (t.decodes.map _)))
  | manyMany p m t =>
    simp only [encode, List.append_assoc]
    exact hshort (k := 4) (by decide) ((hparent rfl).bind (m.decodes.bind (t.decodes.map _)))
  | calculated p name =>
    rw [encode, List.append_assoc]
    exact hshort (k := 5) (by decide) ((hparent rfl).bind ((decodes_text name).map _))
  | operation op operands =>
    simp only [encode, encodeAll_eq, List.append_assoc]
    exact hshort (k := 6) (by decide) ((decodes_choice op.mem_all (by decide)).bind
      ((decodes_nodes hinner).map _))
  | value v =>
    exact hshort (k := 7) (by decide) ((Value.decodes (hvalues v (List.mem_singleton_self v))).map _)
  | subquery q => exact hshort (k := 8) (by decide) ((decodes_query hinner).map _)

end

/-- A node is read back by a decoder with a level for each of its bytes. -/
theorem decodes {n : Node} (hvalues : ∀ v ∈ n.values, v.Writable) {levels : Nat}
    (hlevels : n.encode.length ≤ levels) : Decodes (takeNodeWithin levels) n.encode n := by
  induction n using inner_induction generalizing levels with
  | step n ih =>
    obtain _ | levels := levels
    · have := n.length_encode_pos
      omega
    · refine n.decodes_content (fun p hp => ih p hp (fun v hv => ?_) ?_) hvalues
      · exact hvalues v (mem_values_of_inner hp hv)
      · have := length_encode_lt_of_mem_inner hp
        omega

theorem ofBytes_toBytes {n : Node} (hvalues : ∀ v ∈ n.values, v.Writable)
    (hlength : n.toBytes.length < 2 ^ 64) (rest : List UInt8) :
    ofBytes? (n.toBytes ++ rest) = some n := by
  have hlevels : n.encode.length ≤ (n.encode ++ rest).length := by
    rw [List.length_append]
    exact Nat.le_add_right _ _
  rw [ofBytes?, toBytes, decodes hvalues hlevels hlength rest, Option.map_some]

end Node

theorem Query.ofBytes_toBytes {q : Query} (hvalues : ∀ v ∈ q.values, v.Writable)
    (hlength : (Query.toBytes q).length < 2 ^ 64) (rest : List UInt8) :
    Query.ofBytes? (Query.toBytes q ++ rest) = some q := by
  have hnodes : ∀ n ∈ q.nodes, Decodes (takeNodeWithin (Query.toBytes q ++ rest).length)
      n.encode n := fun n hn => by
    refine Node.decodes (fun v hv => hvalues v (List.mem_flatMap.2 ⟨n, hn, hv⟩)) ?_
    have := Node.length_encode_le_of_mem_nodes hn
    rw [List.length_append, Query.toBytes]
    omega
  rw [Query.ofBytes?, Query.toBytes] at *
  rw [Node.decodes_query hnodes hlength rest, Option.map_some]

namespace Library

end Library

end RecordGraph
