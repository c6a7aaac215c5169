import Mathlib.Algebra.Group.Nat.Defs
import RecordGraph.Codec.Binary
import RecordGraph.Proofs.Text.Utf8

/-!
# Binary content read back

`Decodes take bytes a`: a decoder finds `a` at the front of `bytes`, whatever follows them, and
leaves what follows. Content is put together by `Decodes.bind`, and every form of content has its
lemma.

Counts and lengths are written with at most 64 bits, so `Decodes` says nothing of longer content.
-/
namespace RecordGraph.Binary

variable {α β : Type}

/-- The decoder reads `a` from the front of everything that begins with `bytes`, and nothing
behind them. -/
def Decodes (take : Decoder α) (bytes : List UInt8) (a : α) : Prop :=
  bytes.length < 2 ^ 64 → ∀ rest, take (bytes ++ rest) = some (a, rest)

variable {take : Decoder α} {f : α → Decoder β} {bytes bytes' : List UInt8} {a : α} {b : β}

theorem bind_apply : (take >>= f) bytes = (take bytes).bind fun p => f p.1 p.2 := rfl

namespace Decodes

theorem pure (a : α) : Decodes (Pure.pure a) [] a := fun _ _ => rfl

/-- Content behind other content. -/
theorem bind (h : Decodes take bytes a) (hf : Decodes (f a) bytes' b) :
    Decodes (take >>= f) (bytes ++ bytes') b := fun hlength rest => by
  rw [List.length_append] at hlength
  have hfirst := h (by omega) (bytes' ++ rest)
  rw [List.append_assoc, bind_apply, hfirst, Option.bind_some]
  exact hf (by omega) rest

/-- Content that nothing more is read for. -/
theorem last (h : Decodes take bytes a) (hf : Decodes (f a) [] b) :
    Decodes (take >>= f) bytes b := by
  rw [← List.append_nil bytes]
  exact h.bind hf

theorem map (h : Decodes take bytes a) (g : α → β) :
    Decodes (take >>= fun a => Pure.pure (g a)) bytes (g a) := h.last (pure _)

/-- Shorter content may be assumed. -/
theorem of_length (h : bytes.length < 2 ^ 64 → Decodes take bytes a) : Decodes take bytes a :=
  fun hlength => h hlength hlength

end Decodes

/-! ## Bytes and fixed widths -/

theorem decodes_byte (b : UInt8) : Decodes takeByte [b] b := fun _ _ => rfl

theorem decodes_bytes (bytes : List UInt8) : Decodes (takeBytes bytes.length) bytes bytes :=
  fun _ rest => by
    rw [takeBytes, if_pos (by rw [List.length_append]; omega), List.take_left, List.drop_left]

@[simp] theorem length_littleEndian (width n : Nat) : (littleEndian width n).length = width := by
  rw [littleEndian, List.length_map, List.length_range]

theorem littleEndian_succ (width n : Nat) :
    littleEndian (width + 1) n = UInt8.ofNat (n % 256) :: littleEndian width (n / 256) := by
  rw [littleEndian, littleEndian, List.range_succ_eq_map, List.map_cons, List.map_map,
    Nat.pow_eq, Nat.pow_zero, Nat.div_one]
  congr 1
  refine List.map_congr_left fun i _ => ?_
  simp only [Function.comp_apply, Nat.pow_eq, Nat.pow_succ', Nat.div_div_eq_div_mul]

/-- The bytes of a number spell it, as far as they go. -/
theorem ofLittleEndian_littleEndian (width n : Nat) :
    ofLittleEndian (littleEndian width n) = n % 256 ^ width := by
  induction width generalizing n with
  | zero => rw [Nat.pow_zero, Nat.mod_one]; rfl
  | succ width ih =>
    rw [littleEndian_succ, ofLittleEndian, ih, Utf8.toNat_ofNat (Nat.mod_lt n (by decide)),
      Nat.pow_succ', Nat.mod_mul]

theorem decodes_fixed {width n : Nat} (hn : n < 256 ^ width) :
    Decodes (takeFixed width) (littleEndian width n) n := by
  have h := (decodes_bytes (littleEndian width n)).map ofLittleEndian
  rwa [length_littleEndian, ofLittleEndian_littleEndian, Nat.mod_eq_of_lt hn] at h

/-! ## Integers -/

theorem length_natural_pos (n : Nat) : 0 < (natural n).length := by
  rw [natural]
  split_ifs <;> simp

/-- Bytes below the marks are numbers themselves. -/
theorem decodes_small {n : Nat} (hn : n < 251) (larger : UInt8 → Decoder Nat) :
    Decodes (takeByte >>= fun b => if b < 251 then Pure.pure b.toNat else larger b)
      [UInt8.ofNat n] n := by
  have hbyte := Utf8.toNat_ofNat (show n < 256 by omega)
  refine (decodes_byte _).last ?_
  rw [if_pos (UInt8.lt_iff_toNat_lt.2 (by rwa [hbyte])), hbyte]
  exact .pure n

/-- A mark tells the number of bytes behind it. -/
theorem decodes_natural {n : Nat} (hn : n < 2 ^ 64) : Decodes takeNatural (natural n) n := by
  rw [natural]
  split_ifs with h1 h2 h4
  · exact decodes_small h1 _
  · exact (decodes_byte 251).bind (decodes_fixed h2)
  · exact (decodes_byte 252).bind (decodes_fixed h4)
  · exact (decodes_byte 253).bind (decodes_fixed hn)

theorem decodes_short {n : Nat} (hn : n < 2 ^ 32) : Decodes takeShort (natural n) n := by
  have h4 : n < 0x100000000 := hn
  rw [natural, if_pos h4]
  split_ifs with h1 h2
  · exact decodes_small h1 _
  · exact (decodes_byte 251).bind (decodes_fixed h2)
  · exact (decodes_byte 252).bind (decodes_fixed h4)

theorem unfold_fold (i : Int) : unfold (fold i) = i := by
  rw [fold, unfold]
  split_ifs <;> omega

theorem decodes_integer (i : Int64) : Decodes takeInteger (integer i) i := by
  have hfold : fold i.toInt < 2 ^ 64 := by
    have := i.toInt_lt
    have := i.le_toInt
    rw [fold]
    split_ifs <;> omega
  have h := (decodes_natural hfold).map fun n => Int64.ofInt (unfold n)
  rwa [unfold_fold, Int64.ofInt_toInt] at h

theorem decodes_word (u : UInt64) : Decodes takeWord (word u) u := by
  have h := (decodes_natural u.toNat_lt).map UInt64.ofNat
  rwa [UInt64.ofNat_toNat] at h

/-! ## Other content -/

theorem decodes_flag (b : Bool) : Decodes takeFlag (flag b) b := by
  cases b
  · exact fun _ _ => rfl
  · exact fun _ _ => rfl

theorem decodes_block (bytes : List UInt8) : Decodes takeBlock (block bytes) bytes :=
  .of_length fun hlength => by
    rw [block, List.length_append] at hlength
    exact (decodes_natural (by omega)).bind (decodes_bytes bytes)

/-- A text is read back, whatever its characters are. -/
theorem decodes_text (s : String) : Decodes takeText (text s) s :=
  (decodes_block (Utf8.encode s)).last (by
    rw [Utf8.decode_encode]
    exact .pure s)

theorem length_text_pos (s : String) : 0 < (text s).length := by
  rw [text, block, List.length_append]
  have := length_natural_pos (Utf8.encode s).length
  omega

theorem decodes_optional {take : Decoder α} {f : α → List UInt8}
    (h : ∀ a, Decodes take (f a) a) : ∀ o : Option α, Decodes (takeOptional take) (optional f o) o
  | none => fun _ _ => rfl
  | some a => (decodes_flag true).bind ((h a).map some)

section

variable {take : Decoder α} {f : α → List UInt8}

theorem decodes_items : ∀ {items : List α}, (∀ a ∈ items, Decodes take (f a) a) →
    Decodes (takeItems take items.length) (items.flatMap f) items
  | [], _ => .pure []
  | a :: items, h => by
    rw [List.flatMap_cons]
    exact (h a List.mem_cons_self).bind
      ((decodes_items fun b hb => h b (List.mem_cons_of_mem _ hb)).map (a :: ·))

/-- Items that take bytes are no more than the bytes. -/
theorem length_le_length_flatMap : ∀ {items : List α}, (∀ a ∈ items, 0 < (f a).length) →
    items.length ≤ (items.flatMap f).length
  | [], _ => Nat.le_refl 0
  | a :: items, h => by
    have := h a List.mem_cons_self
    have := length_le_length_flatMap fun b hb => h b (List.mem_cons_of_mem _ hb)
    rw [List.flatMap_cons, List.length_append, List.length_cons]
    omega

/-- A list behind its length is read back item by item. -/
theorem decodes_list {items : List α} (h : ∀ a ∈ items, Decodes take (f a) a)
    (hpos : ∀ a ∈ items, 0 < (f a).length) : Decodes (takeList take) (list f items) items :=
  .of_length fun hlength => by
    have := length_le_length_flatMap hpos
    rw [list, List.length_append] at hlength
    exact (decodes_natural (by omega)).bind (decodes_items h)

end

/-- An alternative is read back from its number among all of them. -/
theorem decodes_choice [DecidableEq α] {all : List α} {a : α} (ha : a ∈ all)
    (hall : all.length < 2 ^ 32) : Decodes (takeChoice all) (choice all a) a :=
  have hindex := List.idxOf_lt_length_of_mem ha
  (decodes_short (Nat.lt_trans hindex hall)).last (by
    rw [List.getElem?_eq_getElem hindex, List.getElem_idxOf]
    exact .pure a)

end RecordGraph.Binary
