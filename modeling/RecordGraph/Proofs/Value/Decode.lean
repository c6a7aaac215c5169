import Mathlib.Algebra.Group.Int.Defs
import Mathlib.Algebra.Group.Nat.Defs
import RecordGraph.Proofs.Outcome
import RecordGraph.Proofs.Value.Ulid
import RecordGraph.Value.Decode

/-!
# What receivers promise

Every receiver has a range of values, `Receiver.Holds`. A decoder *settles on* a range when it gives
values of the range only, and leaves those as they are; each family of receivers has one lemma for
it.

**Results.**
* `Receiver.decodePresent_settlesOn`: every receiver but that of short floats settles on its range.
* `Receiver.decode_self_iff`: the values that decoding leaves as they are, null among them.
* `Receiver.decode_settled`: a decoded value is in the range, and decoded again it is the same.
-/
namespace RecordGraph.Receiver

/-- An integer with a sign, of so many bits. -/
def IsSigned (bits : Nat) (v : Value) : Prop :=
  ∃ i, v = .int i ∧ -(2 ^ (bits - 1) : Int) ≤ i.toInt ∧ i.toInt < 2 ^ (bits - 1)

/-- An integer without a sign, of so many bits. -/
def IsUnsigned (bits : Nat) (v : Value) : Prop := ∃ u, v = .uint u ∧ u.toNat < 2 ^ bits

/-- The values that a receiver stands for, apart from null. -/
def Holds : Receiver → Value → Prop
  | .string, v => ∃ s, v = .text s
  | .int8, v => IsSigned 8 v
  | .int16, v => IsSigned 16 v
  | .int32, v => IsSigned 32 v
  | .int64, v => IsSigned 64 v
  | .autoPrimaryKey, v => IsSigned 64 v
  | .uint8, v => IsUnsigned 8 v
  | .uint16, v => IsUnsigned 16 v
  | .uint32, v => IsUnsigned 32 v
  | .uint64, v => IsUnsigned 64 v
  | .time, v => ∃ t, v = .time t
  | .float32, v => ∃ x, v = .float x
  | .float64, v => ∃ x, v = .float x
  | .bool, v => ∃ b, v = .bool b
  | .uuid, v => ∃ u, v = .uuid u
  | .ulid, v => ∃ s, v = .text s ∧ Ulid.Canonical s
  | .bytes, v => ∃ b, v = .bytes b

/-- A decoder gives values of a range, and leaves them as they are. -/
structure SettlesOn (decoder : Value → Except DecodeFault Value) (range : Value → Prop) : Prop where
  sound : ∀ {raw v}, decoder raw = .ok v → range v
  fixed : ∀ {v}, range v → decoder v = .ok v

/-! ## Integers -/

/-- Whatever a signed integer is read from, it has 64 bits. -/
theorem signed?_bounds {raw : Value} {i : Int} (h : signed? raw = .ok i) :
    -2 ^ 63 ≤ i ∧ i < 2 ^ 63 := by
  cases raw with
  | int j =>
    cases h
    exact ⟨j.le_toInt, j.toInt_lt⟩
  | uint u =>
    -- Unfolded as a whole, for the equations of the single kinds are slow to derive.
    unfold signed? at h
    dsimp only at h
    split at h
    · cases h
      omega
    · cases h
  | bool b =>
    cases h
    cases b <;> decide
  | float x =>
    unfold signed? at h
    dsimp only at h
    split at h
    · cases h
      rw [clampSigned]
      omega
    · cases h
  | text s =>
    unfold signed? at h
    dsimp only at h
    split at h
    · rename_i j _
      cases h
      exact ⟨j.le_toInt, j.toInt_lt⟩
    · cases h
  | null | bytes _ | time _ | uuid _ => cases h

theorem unsigned?_lt {raw : Value} {n : Nat} (h : unsigned? raw = .ok n) : n < 2 ^ 64 := by
  cases raw with
  | uint u =>
    cases h
    exact u.toNat_lt
  | int i =>
    have hi := i.toInt_lt
    unfold unsigned? at h
    dsimp only at h
    split at h
    · cases h
      omega
    · cases h
  | bool b =>
    cases h
    cases b <;> decide
  | float x =>
    unfold unsigned? at h
    dsimp only at h
    split at h
    · cases h
      rw [clampUnsigned]
      omega
    · cases h
  | text s =>
    unfold unsigned? at h
    dsimp only at h
    split at h
    · rename_i u _
      cases h
      exact u.toNat_lt
    · cases h
  | null | bytes _ | time _ | uuid _ => cases h

theorem decodeSigned_eq_ok_iff {bits : Nat} {raw v : Value} : decodeSigned bits raw = .ok v ↔
    ∃ i, signed? raw = .ok i ∧
      ¬(bits < 64 ∧ (i < -(bound (bits - 1) : Int) ∨ bound (bits - 1) ≤ i)) ∧
        v = .int (Int64.ofInt i) := by
  rw [decodeSigned, bind_eq_ok_iff]
  exact exists_congr fun _ => and_congr_right fun _ => ite_error_eq_ok_iff

theorem decodeUnsigned_eq_ok_iff {bits : Nat} {raw v : Value} : decodeUnsigned bits raw = .ok v ↔
    ∃ n, unsigned? raw = .ok n ∧ ¬(bits < 64 ∧ bound bits ≤ n) ∧ v = .uint (UInt64.ofNat n) := by
  rw [decodeUnsigned, bind_eq_ok_iff]
  exact exists_congr fun _ => and_congr_right fun _ => ite_error_eq_ok_iff

theorem decodeSigned_settlesOn {bits : Nat} (hbits : bits ≤ 64) :
    SettlesOn (decodeSigned bits) (IsSigned bits) where
  sound {raw v} h := by
    obtain ⟨i, hi, hfits, rfl⟩ := decodeSigned_eq_ok_iff.1 h
    obtain ⟨hle, hlt⟩ := signed?_bounds hi
    refine ⟨_, rfl, ?_⟩
    rw [Int64.toInt_ofInt_of_le hle hlt]
    rcases Nat.lt_or_eq_of_le hbits with hnarrow | rfl
    · have hbound : (bound (bits - 1) : Int) = 2 ^ (bits - 1) := by simp [bound]
      rw [hbound] at hfits
      omega
    · exact ⟨hle, hlt⟩
  fixed {v} h := by
    obtain ⟨i, rfl, hle, hlt⟩ := h
    have hbound : (bound (bits - 1) : Int) = 2 ^ (bits - 1) := by simp [bound]
    refine decodeSigned_eq_ok_iff.2 ⟨i.toInt, rfl, ?_, by rw [Int64.ofInt_toInt]⟩
    rw [hbound]
    omega

theorem decodeUnsigned_settlesOn {bits : Nat} (hbits : bits ≤ 64) :
    SettlesOn (decodeUnsigned bits) (IsUnsigned bits) where
  sound {raw v} h := by
    obtain ⟨n, hn, hfits, rfl⟩ := decodeUnsigned_eq_ok_iff.1 h
    have hlt := unsigned?_lt hn
    refine ⟨_, rfl, ?_⟩
    rw [UInt64.toNat_ofNat_of_lt' hlt]
    rcases Nat.lt_or_eq_of_le hbits with hnarrow | rfl
    · exact Nat.not_le.1 fun hle => hfits ⟨hnarrow, hle⟩
    · exact hlt
  fixed {v} h := by
    obtain ⟨u, rfl, hlt⟩ := h
    exact decodeUnsigned_eq_ok_iff.2 ⟨u.toNat, rfl, fun hwide => Nat.not_le.2 hlt hwide.2,
      by rw [UInt64.ofNat_toNat]⟩

/-! ## Other receivers -/

theorem decodeString_settlesOn : SettlesOn decodeString fun v => ∃ s, v = .text s where
  sound {raw v} h := by
    cases raw with
    | bytes b =>
      rw [decodeString] at h
      split at h
      · cases h
        exact ⟨_, rfl⟩
      · cases h
    | _ =>
      cases h
      exact ⟨_, rfl⟩
  fixed := by
    rintro _ ⟨s, rfl⟩
    rfl

theorem float_settlesOn :
    SettlesOn (fun raw => (float? raw).map .float) fun v => ∃ x, v = .float x where
  sound {raw v} h := by
    cases hx : float? raw with
    | error fault =>
      rw [hx] at h
      cases h
    | ok x =>
      rw [hx] at h
      cases h
      exact ⟨x, rfl⟩
  fixed := by
    rintro _ ⟨x, rfl⟩
    rfl

theorem decodeBool_settlesOn : SettlesOn decodeBool fun v => ∃ b, v = .bool b where
  sound {raw v} h := by
    cases raw with
    | text s =>
      rw [decodeBool] at h
      split at h
      · cases h
        exact ⟨true, rfl⟩
      · split at h
        · cases h
          exact ⟨false, rfl⟩
        · cases h
    | bool _ | int _ | uint _ =>
      cases h
      exact ⟨_, rfl⟩
    | null | float _ | bytes _ | time _ | uuid _ => cases h
  fixed := by
    rintro _ ⟨b, rfl⟩
    rfl

theorem decodeTime_settlesOn : SettlesOn decodeTime fun v => ∃ t, v = .time t where
  sound {raw v} h := by
    cases raw with
    | text _ | int _ =>
      rw [decodeTime] at h
      split at h
      · cases h
        exact ⟨_, rfl⟩
      · cases h
    | time t =>
      cases h
      exact ⟨t, rfl⟩
    | null | bool _ | uint _ | float _ | bytes _ | uuid _ => cases h
  fixed := by
    rintro _ ⟨t, rfl⟩
    rfl

theorem decodeUuid_settlesOn : SettlesOn decodeUuid fun v => ∃ u, v = .uuid u where
  sound {raw v} h := by
    cases raw with
    | text _ | bytes _ =>
      rw [decodeUuid] at h
      split at h
      · cases h
        exact ⟨_, rfl⟩
      · cases h
    | uuid u =>
      cases h
      exact ⟨u, rfl⟩
    | null | bool _ | int _ | uint _ | float _ | time _ => cases h
  fixed := by
    rintro _ ⟨u, rfl⟩
    rfl

theorem decodeUlid_settlesOn :
    SettlesOn decodeUlid fun v => ∃ s, v = .text s ∧ Ulid.Canonical s where
  sound {raw v} h := by
    cases raw with
    | text s =>
      rw [decodeUlid] at h
      split at h
      · rename_i hs
        cases h
        exact ⟨_, rfl, Ulid.isUlid_iff.1 hs⟩
      · cases h
    | bytes b =>
      rw [decodeUlid] at h
      split at h
      · cases h
        exact ⟨_, rfl, Ulid.canonical_encode _⟩
      · cases h
    | null | bool _ | int _ | uint _ | float _ | time _ | uuid _ => cases h
  fixed := by
    rintro _ ⟨s, rfl, hs⟩
    have hulid : Ulid.isUlid s = true := Ulid.isUlid_iff.2 (hs.canonical_eq.symm ▸ hs)
    rw [decodeUlid, if_pos hulid, hs.canonical_eq]

theorem decodeBytes_settlesOn : SettlesOn decodeBytes fun v => ∃ b, v = .bytes b where
  sound {raw v} h := by
    cases raw with
    | text _ | bytes _ =>
      cases h
      exact ⟨_, rfl⟩
    | null | bool _ | int _ | uint _ | float _ | time _ | uuid _ => cases h
  fixed := by
    rintro _ ⟨b, rfl⟩
    rfl

/-- Every receiver but that of short floats settles on its range. -/
theorem decodePresent_settlesOn {receiver : Receiver} (hr : receiver ≠ .float32) :
    SettlesOn receiver.decodePresent receiver.Holds := by
  cases receiver with
  | string => exact decodeString_settlesOn
  | int8 | int16 | int32 | int64 | autoPrimaryKey => exact decodeSigned_settlesOn (by decide)
  | uint8 | uint16 | uint32 | uint64 => exact decodeUnsigned_settlesOn (by decide)
  | time => exact decodeTime_settlesOn
  | float32 => exact absurd rfl hr
  | float64 => exact float_settlesOn
  | bool => exact decodeBool_settlesOn
  | uuid => exact decodeUuid_settlesOn
  | ulid => exact decodeUlid_settlesOn
  | bytes => exact decodeBytes_settlesOn

/-! ## Decoding -/

theorem decode_eq_ok_iff {receiver : Receiver} {column : String} {raw v : Value} :
    receiver.decode column raw = .ok v ↔
      raw = .null ∧ v = .null ∨ raw ≠ .null ∧ receiver.decodePresent raw = .ok v := by
  have hnull : raw.isNull = true ↔ raw = .null := by cases raw <;> simp [Value.isNull]
  rw [decode, Ne, ← hnull]
  split
  · rename_i h
    simp [h, eq_comm]
  · rename_i h
    cases hp : receiver.decodePresent raw with
    | ok w => simp [h]
    | error fault => simp [h]

theorem Holds.ne_null {receiver : Receiver} {v : Value} (h : receiver.Holds v) : v ≠ .null := by
  rintro rfl
  cases receiver with
  | ulid =>
    obtain ⟨_, h, -⟩ := h
    cases h
  | int8 | int16 | int32 | int64 | autoPrimaryKey | uint8 | uint16 | uint32 | uint64 =>
    obtain ⟨_, h, -⟩ := h
    cases h
  | string | time | float32 | float64 | bool | uuid | bytes =>
    obtain ⟨_, h⟩ := h
    cases h

/-- Decoding leaves null and the range of the receiver as they are, and nothing else. -/
theorem decode_self_iff {receiver : Receiver} (hr : receiver ≠ .float32) {column : String}
    {v : Value} : receiver.decode column v = .ok v ↔ v = .null ∨ receiver.Holds v := by
  rw [decode_eq_ok_iff]
  constructor
  · rintro (⟨h, -⟩ | ⟨-, h⟩)
    · exact .inl h
    · exact .inr ((decodePresent_settlesOn hr).sound h)
  · rintro (rfl | h)
    · exact .inl ⟨rfl, rfl⟩
    · exact .inr ⟨h.ne_null, (decodePresent_settlesOn hr).fixed h⟩

/-- A decoded value is null exactly when the raw one is, and otherwise in the range of its receiver;
decoded again it is the same, like every value of the range. -/
theorem decode_settled {receiver : Receiver} (hr : receiver ≠ .float32) {column : String}
    {raw v : Value} (h : receiver.decode column raw = .ok v) :
    (v = .null ↔ raw = .null) ∧ (v ≠ .null → receiver.Holds v) ∧
      receiver.decode column v = .ok v ∧
        ∀ w, receiver.Holds w → receiver.decode column w = .ok w := by
  have hfixed : ∀ w, receiver.Holds w → receiver.decode column w = .ok w :=
    fun _ hw => (decode_self_iff hr).2 (.inr hw)
  rcases decode_eq_ok_iff.1 h with ⟨rfl, rfl⟩ | ⟨hraw, hpresent⟩
  · exact ⟨Iff.rfl, absurd rfl, (decode_self_iff hr).2 (.inl rfl), hfixed⟩
  · have hv := (decodePresent_settlesOn hr).sound hpresent
    exact ⟨⟨fun hnull => absurd hnull hv.ne_null, fun hnull => absurd hnull hraw⟩, fun _ => hv,
      hfixed v hv, hfixed⟩

/-- A ULID in small letters is decoded to one in capital letters, which is kept. -/
theorem small_ulid_settled :
    Receiver.decode .ulid "id" (.text "01arz3ndektsv4rrffq69g5fav") =
        .ok (.text "01ARZ3NDEKTSV4RRFFQ69G5FAV") ∧
      Receiver.Holds .ulid (.text "01ARZ3NDEKTSV4RRFFQ69G5FAV") ∧
      Receiver.decode .ulid "id" (.text "01ARZ3NDEKTSV4RRFFQ69G5FAV") =
        .ok (.text "01ARZ3NDEKTSV4RRFFQ69G5FAV") := by
  have hdecoded : Receiver.decode .ulid "id" (.text "01arz3ndektsv4rrffq69g5fav") =
      .ok (.text "01ARZ3NDEKTSV4RRFFQ69G5FAV") := rfl
  obtain ⟨-, hholds, hagain, -⟩ := decode_settled (by decide) hdecoded
  exact ⟨hdecoded, hholds (by decide), hagain⟩

end RecordGraph.Receiver
