/-
The 64-bit varint functions of `util/coding.cpp`, and the codec as a whole: the
unrolled writer, the looping writer, the length loop and the two readers agree
on every value and every bound.
-/
import SimpleKV.Coding

namespace SimpleKV

/-- The loop of `EncodeVarint64`.  A 64-bit value loses 7 bits each round, so
ten rounds always reach the exit. -/
def encodeVarint64Loop : Nat → UInt64 → Bytes
  | 0, v => [v.toUInt8]
  | rounds + 1, v =>
      if 128 ≤ v then
        ((v &&& 127) ||| 128).toUInt8 :: encodeVarint64Loop rounds (v >>> 7)
      else [v.toUInt8]

/-- `EncodeVarint64`: the bytes stored through `ptr`. -/
def encodeVarint64 (v : UInt64) : Bytes :=
  encodeVarint64Loop 10 v

/-- The loop of `GetVarint64Ptr`, as that of `GetVarint32Ptr`. -/
def getVarint64Ptr : Bytes → Nat → UInt32 → UInt64 → Option (Nat × UInt64)
  | byte :: p, limit + 1, shift, result =>
      if shift ≤ 63 then
        if byte &&& 128 ≠ 0 then
          (getVarint64Ptr p limit (shift + 7)
            (result ||| ((byte &&& 127).toUInt64 <<< shift.toUInt64))).map
            fun r => (r.1 + 1, r.2)
        else some (1, result ||| (byte.toUInt64 <<< shift.toUInt64))
      else none
  | _, _, _, _ => none

/-- `GetVarint64`: the returned length and the decoded value; `none` is -1. -/
def getVarint64 (data : Bytes) (size : Nat) : Option (Nat × UInt64) :=
  getVarint64Ptr data size 0 0

theorem word64 : Leb128.Word UInt64.toNat 64 (fun a b => a ||| b)
    (fun a shift => a <<< shift.toUInt64) UInt8.toUInt64 where
  injective _ _ := UInt64.toNat_inj.mp
  toNat_join := UInt64.toNat_or
  toNat_shl a shift hshift := by
    rw [UInt64.toNat_shiftLeft, UInt32.toNat_toUInt64, Nat.mod_eq_of_lt hshift]
  toNat_widen := UInt8.toNat_toUInt64

theorem readLoop_getVarint64Ptr :
    Leb128.ReadLoop (fun a b : UInt64 => a ||| b)
      (fun a shift => a <<< shift.toUInt64) UInt8.toUInt64 63
      getVarint64Ptr where
  nil _ _ _ := by simp [getVarint64Ptr]
  zero _ _ _ := by simp [getVarint64Ptr]
  cons _ _ _ _ _ := rfl

/-- `GetVarint64` reads at most ten bytes and keeps 64 bits. -/
theorem getVarint64_eq_cut (data : Bytes) (size : Nat) :
    getVarint64 data size = (Leb128.cut (min size 10) data).map fun bytes =>
      (bytes.length, UInt64.ofNat (Leb128.value bytes)) :=
  readLoop_getVarint64Ptr.read_eq_cut word64 (by decide) (by decide)
    (by decide) (by decide) (fun _ => UInt64.toNat_ofNat') rfl data size

theorem encodeVarint64Loop_eq (rounds : Nat) {v : UInt64}
    (hv : v.toNat < 128 ^ (rounds + 1)) :
    encodeVarint64Loop rounds v = Leb128.groups v.toNat := by
  have hlast (w : UInt64) : w.toUInt8 = UInt8.ofNat w.toNat := by
    apply UInt8.toNat_inj.mp
    simp
  induction rounds generalizing v with
  | zero =>
      rw [encodeVarint64Loop, Leb128.groups_of_lt (by simpa using hv), hlast]
  | succ rounds ih =>
      rw [encodeVarint64Loop]
      by_cases hle : 128 ≤ v
      · have hshift : (v >>> 7).toNat = v.toNat / 128 := by
          simp [Nat.shiftRight_eq_div_pow]
        have hrest : (v >>> 7).toNat < 128 ^ (rounds + 1) := by
          rw [hshift, Nat.div_lt_iff_lt_mul (by decide), ← Nat.pow_succ]
          exact hv
        have hbyte : ((v &&& 127) ||| 128).toUInt8 =
            UInt8.ofNat (v.toNat % 128 + 128) := by
          have hlow : v.toNat &&& 127 = v.toNat % 128 :=
            Nat.and_two_pow_sub_one_eq_mod v.toNat 7
          have hor := mod_256_or_128 (v.toNat % 128)
          have hsmall := Nat.mod_lt v.toNat (show 0 < 128 by decide)
          rw [Nat.mod_eq_of_lt (hsmall.trans (by decide)), Nat.mod_mod] at hor
          apply UInt8.toNat_inj.mp
          rw [Leb128.toNat_ofNat (by omega), UInt64.toNat_toUInt8,
            UInt64.toNat_or, UInt64.toNat_and]
          change ((v.toNat &&& 127) ||| 128) % 256 = _
          rw [hlow, hor]
          omega
        rw [if_pos hle, hbyte, ih hrest, hshift,
          Leb128.groups_of_le (UInt64.le_iff_toNat_le.mp hle)]
      · rw [if_neg hle, hlast, Leb128.groups_of_lt]
        rw [UInt64.le_iff_toNat_le] at hle
        exact not_le.mp hle

theorem encodeVarint64_eq_groups (v : UInt64) :
    encodeVarint64 v = Leb128.groups v.toNat :=
  encodeVarint64Loop_eq 10 (v.toNat_lt.trans (by decide))

theorem length_encodeVarint64_le (v : UInt64) :
    (encodeVarint64 v).length ≤ 10 := by
  rw [encodeVarint64_eq_groups]
  exact Leb128.length_groups_le (v.toNat_lt.trans (by decide))

/-- What a writer, its reader and `VarintLength` owe each other: the writer
stores as many bytes as the length says, the reader bounded by `n` gives the
value back when these fit and fails when they do not, and on any bytes it fails
exactly when no byte that it may look at has its high bit clear. -/
structure VarintCodec {V : Type} (encode : V → Bytes)
    (get : Bytes → Nat → Option (Nat × V)) (length : V → Nat) (most : Nat) :
    Prop where
  length_eq : ∀ v, (encode v).length = length v
  get_encode : ∀ v rest n, length v ≤ n →
    get (encode v ++ rest) n = some (length v, v)
  get_cut : ∀ v rest n, n < length v → get (encode v ++ rest) n = none
  get_eq_none_iff : ∀ data n, get data n = none ↔
    ∀ byte ∈ data.take (min n most), byte &&& 128 ≠ 0

/-- A writer of groups and a reader that cuts them off make a codec. -/
theorem VarintCodec.of_groups {V : Type} {encode : V → Bytes}
    {get : Bytes → Nat → Option (Nat × V)} {length : V → Nat} {most : Nat}
    (toNat : V → Nat) (ofNat : Nat → V) (hcast : ∀ v, ofNat (toNat v) = v)
    (hencode : ∀ v, encode v = Leb128.groups (toNat v))
    (hmost : ∀ v, (encode v).length ≤ most)
    (hlength : ∀ v, length v = (Leb128.groups (toNat v)).length)
    (hget : ∀ data n, get data n = (Leb128.cut (min n most) data).map
      fun bytes => (bytes.length, ofNat (Leb128.value bytes))) :
    VarintCodec encode get length most where
  length_eq v := by rw [hencode, hlength]
  get_encode v rest n hn := by
    have hfits := hmost v
    rw [hencode] at hfits
    rw [hlength] at hn
    rw [hget, hencode, Leb128.cut_groups _ _ (le_min hn hfits),
      Option.map_some, Leb128.value_groups, hcast, hlength]
  get_cut v rest n hn := by
    rw [hlength] at hn
    rw [hget, hencode, Leb128.cut_groups_eq_none _ _
      (lt_of_le_of_lt (min_le_left n most) hn), Option.map_none]
  get_eq_none_iff data n := by
    rw [hget, Option.map_eq_none_iff, Leb128.cut_eq_none_iff]
    exact forall₂_congr fun byte _ => (Leb128.and_128_ne_zero_iff byte).symm

/-- The varint codec of both widths; on 32-bit values the two writers store the
same bytes. -/
theorem varint_codec :
    VarintCodec encodeVarint32 getVarint32 (fun v => varintLength v.toUInt64)
        5 ∧
      VarintCodec encodeVarint64 getVarint64 varintLength 10 ∧
      ∀ v : UInt32, encodeVarint32 v = encodeVarint64 v.toUInt64 := by
  refine ⟨?_, ?_, fun v => ?_⟩
  · apply VarintCodec.of_groups UInt32.toNat UInt32.ofNat
    · exact fun v => UInt32.ofNat_toNat
    · exact encodeVarint32_eq_groups
    · exact fun v => (length_encodeVarint32_le v).2
    · intro v
      rw [varintLength_eq, UInt32.toNat_toUInt64]
    · exact getVarint32_eq_cut
  · apply VarintCodec.of_groups UInt64.toNat UInt64.ofNat
    · exact fun v => UInt64.ofNat_toNat
    · exact encodeVarint64_eq_groups
    · exact length_encodeVarint64_le
    · exact varintLength_eq
    · exact getVarint64_eq_cut
  · rw [encodeVarint32_eq_groups, encodeVarint64_eq_groups,
      UInt32.toNat_toUInt64]

example : getVarint32 (encodeVarint64 300 ++ [7]) 2 = some (2, 300) := by
  decide

end SimpleKV
