import RecordGraph.Codec.SchemaText
import RecordGraph.Proofs.Json.Fields

/-!
# Tables read back from documents

`Table.readsAs`: a table is read back from its document, and so are columns and relations. The
check of a table's key lets every table pass.
-/
namespace RecordGraph

open Json

/-! ## Names of alternatives -/

theorem Receiver.ofName_name (r : Receiver) : Receiver.ofName? r.name = some r := by
  cases r <;> decide

theorem Role.ofName_name (r : Role) : Role.ofName? r.name = some r := by cases r <;> decide

/-! ## Columns and relations -/

theorem Column.plain (c : Column) : c.toJson.Plain :=
  .record ⟨.text _, .text _, .text _, .text _, .bool _, .bool _, .bool _, .ofOption .text _⟩

theorem Column.readsAs (c : Column) : ReadsAs Column.read c.toJson c := fun _ h =>
  h.record (by simp) fun _ hf =>
    hf.required (by simp) (readsAs_text _) <| hf.required (by simp) (readsAs_text _) <|
    hf.required (by simp) (readsAs_name (Receiver.ofName_name _)) <|
    hf.required (by simp) (readsAs_name (Role.ofName_name _)) <|
    hf.required (by simp) (readsAs_bool _) <| hf.required (by simp) (readsAs_bool _) <|
    hf.required (by simp) (readsAs_bool _) <|
    hf.nullable (g := ofText) (by simp) (fun _ => nofun) readsAs_text rfl

theorem Reference.plain (r : Reference) : r.toJson.Plain :=
  .record ⟨.text _, .text _, .text _, .text _⟩

theorem Reference.readsAs (r : Reference) : ReadsAs Reference.read r.toJson r := fun _ h =>
  h.record (by simp) fun _ hf =>
    hf.required (by simp) (readsAs_text _) <| hf.required (by simp) (readsAs_text _) <|
    hf.required (by simp) (readsAs_text _) <| hf.required (by simp) (readsAs_text _) rfl

theorem Reverse.plain (r : Reverse) : r.toJson.Plain :=
  .record ⟨.text _, .text _, .text _, .bool _⟩

theorem Reverse.readsAs (r : Reverse) : ReadsAs Reverse.read r.toJson r := fun _ h =>
  h.record (by simp) fun _ hf =>
    hf.required (by simp) (readsAs_text _) <| hf.required (by simp) (readsAs_text _) <|
    hf.required (by simp) (readsAs_text _) <| hf.required (by simp) (readsAs_bool _) rfl

theorem ManyMany.plain (m : ManyMany) : m.toJson.Plain :=
  .record ⟨.text _, .text _, .text _, .text _, .text _⟩

theorem ManyMany.readsAs (m : ManyMany) : ReadsAs ManyMany.read m.toJson m := fun _ h =>
  h.record (by simp) fun _ hf =>
    hf.required (by simp) (readsAs_text _) <| hf.required (by simp) (readsAs_text _) <|
    hf.required (by simp) (readsAs_text _) <| hf.required (by simp) (readsAs_text _) <|
    hf.required (by simp) (readsAs_text _) rfl

/-! ## Tables -/

theorem Table.plain (t : Table) : t.toJson.Plain :=
  .record ⟨.text _, .text _, .map fun c _ => c.plain, .nat _, .map fun r _ => r.plain,
      .map fun r _ => r.plain, .map fun m _ => m.plain⟩

theorem Table.ofParts_self (t : Table) :
    Table.ofParts? t.database t.name t.columns t.keyIndex t.references t.reverses t.manyManys
      = some t := by
  rw [Table.ofParts?, dif_pos t.key_lt, dif_pos t.key_primary]

/-- A table is read back; the check of its key lets it pass. -/
theorem Table.readsAs (t : Table) : ReadsAs Table.read t.toJson t := fun _ h =>
  h.record (by simp) fun f hf => by
    have hcolumns : t.columns.length < 2 ^ 64 := by
      have hwithin : (Json.array (t.columns.map Column.toJson)).Within f.depth :=
        hf.within ("columns", _) (by simp)
      have := hwithin.length_items_lt
      rwa [List.length_map] at this
    have hkey : t.keyIndex < 2 ^ 64 := Nat.lt_trans t.key_lt hcolumns
    have hindex : ReadsAs readUInt64 (ofNat t.keyIndex) (UInt64.ofNat t.keyIndex) :=
      fun _ _ => uint64_ofNat hkey
    exact hf.required (by simp) (readsAs_text t.database) <|
      hf.required (by simp) (readsAs_text t.name) <|
      hf.required (by simp) (readsAs_list fun c (_ : c ∈ t.columns) => c.readsAs) <|
      hf.required (by simp) hindex <|
      hf.required (by simp) (readsAs_list fun r (_ : r ∈ t.references) => r.readsAs) <|
      hf.required (by simp) (readsAs_list fun r (_ : r ∈ t.reverses) => r.readsAs) <|
      hf.required (by simp) (readsAs_list fun m (_ : m ∈ t.manyManys) => m.readsAs) <| by
        rw [UInt64.toNat_ofNat_of_lt' hkey, Table.ofParts_self]

end RecordGraph
