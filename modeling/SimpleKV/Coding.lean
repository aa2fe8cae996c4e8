/-
Byte strings and the integer codings of `util/coding.cpp`: the unrolled
32-bit varint writer, its looping reader, and the fixed 4-byte integer of the
file header.  A `char*` is the list of bytes readable from it.
-/
import SimpleKV.Lib.Leb128
import Mathlib.Data.List.Lex
import Mathlib.Tactic.Common
import Mathlib.Tactic.Linarith
import Mathlib.Tactic.Ring

namespace SimpleKV

/-- `std::string` contents, file contents and memory blocks. -/
abbrev Bytes := List UInt8

/-- `std::string` compares bytes as `unsigned char`, so the lexicographic order
of `List UInt8` is its `operator<`. -/
instance instLinearOrderUInt8 : LinearOrder UInt8 where
  le_refl := UInt8.le_refl
  le_trans _ _ _ := UInt8.le_trans
  le_antisymm _ _ := UInt8.le_antisymm
  le_total := UInt8.le_total
  lt_iff_le_not_ge a b := by
    rw [UInt8.lt_iff_toNat_lt, UInt8.le_iff_toNat_le, UInt8.le_iff_toNat_le]
    omega
  toDecidableLE := fun a b => inferInstanceAs (Decidable (a ≤ b))
  toDecidableLT := fun a b => inferInstanceAs (Decidable (a < b))
  toDecidableEq := inferInstance

/-- `EncodeVarint32`: the bytes stored through `ptr`. -/
def encodeVarint32 (v : UInt32) : Bytes :=
  if v < (1 : UInt32) <<< 7 then
    [v.toUInt8]
  else if v < (1 : UInt32) <<< 14 then
    [(v ||| 128).toUInt8, (v >>> 7).toUInt8]
  else if v < (1 : UInt32) <<< 21 then
    [(v ||| 128).toUInt8, ((v >>> 7) ||| 128).toUInt8, (v >>> 14).toUInt8]
  else if v < (1 : UInt32) <<< 28 then
    [(v ||| 128).toUInt8, ((v >>> 7) ||| 128).toUInt8,
      ((v >>> 14) ||| 128).toUInt8, (v >>> 21).toUInt8]
  else
    [(v ||| 128).toUInt8, ((v >>> 7) ||| 128).toUInt8,
      ((v >>> 14) ||| 128).toUInt8, ((v >>> 21) ||| 128).toUInt8,
      (v >>> 28).toUInt8]

/-- The loop of `GetVarint32Ptr` from `p` with `limit` bytes to go.  The count
is how far the returned pointer is past `p`; `none` is the null pointer, also
when the readable bytes end first. -/
def getVarint32Ptr : Bytes → Nat → UInt32 → UInt32 → Option (Nat × UInt32)
  | byte :: p, limit + 1, shift, result =>
      if shift ≤ 28 then
        if byte &&& 128 ≠ 0 then
          (getVarint32Ptr p limit (shift + 7)
            (result ||| ((byte &&& 127).toUInt32 <<< shift))).map
            fun r => (r.1 + 1, r.2)
        else some (1, result ||| (byte.toUInt32 <<< shift))
      else none
  | _, _, _, _ => none

/-- `GetVarint32`: the returned length and the decoded value; `none` is -1. -/
def getVarint32 (data : Bytes) (size : Nat) : Option (Nat × UInt32) :=
  getVarint32Ptr data size 0 0

/-- The loop of `VarintLength`.  A 64-bit value loses 7 bits each round, so ten
rounds always reach the exit. -/
def varintLengthLoop : Nat → UInt64 → Nat → Nat
  | 0, _, len => len
  | rounds + 1, v, len =>
      if 128 ≤ v then varintLengthLoop rounds (v >>> 7) (len + 1) else len

def varintLength (v : UInt64) : Nat :=
  varintLengthLoop 10 v 1

/-- `EncodeFixed32` with `kLittleEndian`, which `getEndianness` makes true. -/
def encodeFixed32 (value : UInt32) : Bytes :=
  [value.toUInt8, (value >>> 8).toUInt8, (value >>> 16).toUInt8,
    (value >>> 24).toUInt8]

/-- `GetFixed32` from a little-endian buffer. -/
def getFixed32 : Bytes → Option UInt32
  | b0 :: b1 :: b2 :: b3 :: _ =>
      some (b0.toUInt32 ||| (b1.toUInt32 <<< 8) ||| (b2.toUInt32 <<< 16) |||
        (b3.toUInt32 <<< 24))
  | _ => none

/-- Setting the continuation flag of a byte keeps its low seven bits. -/
theorem mod_256_or_128 (n : Nat) : n % 256 ||| 128 = n % 128 + 128 := by
  have hall : ∀ i : Fin 256, i.val ||| 128 = i.val % 128 + 128 := by
    decide +kernel
  have hbyte := hall ⟨n % 256, Nat.mod_lt _ (by decide)⟩
  simp only at hbyte
  omega

theorem word32 : Leb128.Word UInt32.toNat 32 (fun a b => a ||| b)
    (fun a shift => a <<< shift) UInt8.toUInt32 where
  injective _ _ := UInt32.toNat_inj.mp
  toNat_join := UInt32.toNat_or
  toNat_shl a shift hshift := by
    rw [UInt32.toNat_shiftLeft, Nat.mod_eq_of_lt hshift]
  toNat_widen := UInt8.toNat_toUInt32

theorem toNat_or_shiftLeft (result group shift : UInt32)
    (hshift : shift.toNat < 32) (hresult : result.toNat < 2 ^ shift.toNat)
    (hfit : group.toNat * 2 ^ shift.toNat < 2 ^ 32) :
    (result ||| (group <<< shift)).toNat =
      result.toNat + group.toNat * 2 ^ shift.toNat := by
  rw [word32.toNat_push result group hshift hresult]
  apply Nat.mod_eq_of_lt
  have hsplit : (2 : Nat) ^ 32 = 2 ^ (32 - shift.toNat) * 2 ^ shift.toNat := by
    rw [← Nat.pow_add, Nat.sub_add_cancel hshift.le]
  rw [hsplit] at hfit ⊢
  have hgroup := Nat.lt_of_mul_lt_mul_right hfit
  nlinarith

theorem readLoop_getVarint32Ptr :
    Leb128.ReadLoop (fun a b : UInt32 => a ||| b) (fun a shift => a <<< shift)
      UInt8.toUInt32 28 getVarint32Ptr where
  nil _ _ _ := by simp [getVarint32Ptr]
  zero _ _ _ := by simp [getVarint32Ptr]
  cons _ _ _ _ _ := rfl

/-- `GetVarint32` reads at most five bytes and keeps 32 bits. -/
theorem getVarint32_eq_cut (data : Bytes) (size : Nat) :
    getVarint32 data size = (Leb128.cut (min size 5) data).map fun bytes =>
      (bytes.length, UInt32.ofNat (Leb128.value bytes)) :=
  readLoop_getVarint32Ptr.read_eq_cut word32 (by decide) (by decide)
    (by decide) (by decide) (fun _ => UInt32.toNat_ofNat') rfl data size

theorem encodeVarint32_eq_groups (v : UInt32) :
    encodeVarint32 v = Leb128.groups v.toNat := by
  have hlt := v.toNat_lt
  have hflagged (w : UInt32) :
      (w ||| 128).toUInt8 = UInt8.ofNat (w.toNat % 128 + 128) := by
    apply UInt8.toNat_inj.mp
    rw [Leb128.toNat_ofNat (by omega), ← mod_256_or_128]
    simp
  have hlast (w : UInt32) : w.toUInt8 = UInt8.ofNat w.toNat := by
    apply UInt8.toNat_inj.mp
    simp
  have h7 : (v >>> 7).toNat = v.toNat / 128 := by
    simp [Nat.shiftRight_eq_div_pow]
  have h14 : (v >>> 14).toNat = v.toNat / 128 / 128 := by
    simp [Nat.shiftRight_eq_div_pow, Nat.div_div_eq_div_mul]
  have h21 : (v >>> 21).toNat = v.toNat / 128 / 128 / 128 := by
    simp [Nat.shiftRight_eq_div_pow, Nat.div_div_eq_div_mul]
  have h28 : (v >>> 28).toNat = v.toNat / 128 / 128 / 128 / 128 := by
    simp [Nat.shiftRight_eq_div_pow, Nat.div_div_eq_div_mul]
  unfold encodeVarint32
  simp only [UInt32.lt_iff_toNat_lt, UInt32.toNat_shiftLeft,
    UInt32.reduceToNat, Nat.reduceMod, Nat.reduceShiftLeft, Nat.reducePow]
  split_ifs
  · rw [Leb128.groups_of_lt (by omega), hlast]
  · rw [Leb128.groups_of_le (by omega), Leb128.groups_of_lt (by omega),
      hflagged, hlast, h7]
  · rw [Leb128.groups_of_le (by omega), Leb128.groups_of_le (by omega),
      Leb128.groups_of_lt (by omega), hflagged, hflagged, hlast, h7, h14]
  · rw [Leb128.groups_of_le (by omega), Leb128.groups_of_le (by omega),
      Leb128.groups_of_le (by omega), Leb128.groups_of_lt (by omega),
      hflagged, hflagged, hflagged, hlast, h7, h14, h21]
  · rw [Leb128.groups_of_le (by omega), Leb128.groups_of_le (by omega),
      Leb128.groups_of_le (by omega), Leb128.groups_of_le (by omega),
      Leb128.groups_of_lt (by omega), hflagged, hflagged, hflagged, hflagged,
      hlast, h7, h14, h21, h28]

theorem length_encodeVarint32_le (v : UInt32) :
    1 ≤ (encodeVarint32 v).length ∧ (encodeVarint32 v).length ≤ 5 := by
  rw [encodeVarint32_eq_groups]
  refine ⟨Leb128.length_groups_pos _, Leb128.length_groups_le ?_⟩
  exact v.toNat_lt.trans (by decide)

/-- The reader inverts the writer, whatever bytes follow and for every bound
that does not cut the encoding. -/
theorem getVarint32_encodeVarint32 (v : UInt32) (rest : Bytes) {size : Nat}
    (hsize : (encodeVarint32 v).length ≤ size) :
    getVarint32 (encodeVarint32 v ++ rest) size =
      some ((encodeVarint32 v).length, v) := by
  have hfive := (length_encodeVarint32_le v).2
  rw [encodeVarint32_eq_groups] at hsize hfive ⊢
  rw [getVarint32_eq_cut, Leb128.cut_groups _ _ (le_min hsize hfive),
    Option.map_some, Leb128.value_groups, UInt32.ofNat_toNat]

/-- The loop of `VarintLength` counts the bytes still to come. -/
theorem varintLengthLoop_eq (rounds : Nat) {v : UInt64} (len : Nat)
    (hv : v.toNat < 128 ^ (rounds + 1)) :
    varintLengthLoop rounds v len + 1 =
      len + (Leb128.groups v.toNat).length := by
  induction rounds generalizing v len with
  | zero =>
      rw [varintLengthLoop, Leb128.groups_of_lt (by simpa using hv)]
      rfl
  | succ rounds ih =>
      rw [varintLengthLoop]
      by_cases hle : 128 ≤ v
      · have hshift : (v >>> 7).toNat = v.toNat / 128 := by
          simp [Nat.shiftRight_eq_div_pow]
        have hrest : (v >>> 7).toNat < 128 ^ (rounds + 1) := by
          rw [hshift, Nat.div_lt_iff_lt_mul (by decide), ← Nat.pow_succ]
          exact hv
        rw [if_pos hle, ih (len + 1) hrest, hshift,
          Leb128.groups_of_le (UInt64.le_iff_toNat_le.mp hle), List.length_cons]
        omega
      · rw [if_neg hle, Leb128.groups_of_lt]
        · rfl
        · rw [UInt64.le_iff_toNat_le] at hle
          exact not_le.mp hle

/-- `VarintLength` counts the bytes of a number. -/
theorem varintLength_eq (v : UInt64) :
    varintLength v = (Leb128.groups v.toNat).length := by
  have hloop := varintLengthLoop_eq 10 1 (v.toNat_lt.trans (by decide))
  rw [varintLength]
  omega

/-- `VarintLength` counts the bytes `EncodeVarint32` stores. -/
theorem varintLength_toUInt64 (v : UInt32) :
    varintLength v.toUInt64 = (encodeVarint32 v).length := by
  rw [varintLength_eq, encodeVarint32_eq_groups, UInt32.toNat_toUInt64]

theorem getFixed32_encodeFixed32 (value : UInt32) (rest : Bytes) :
    getFixed32 (encodeFixed32 value ++ rest) = some value := by
  have hlt := value.toNat_lt
  have hbyte (s : UInt32) (hs : s.toNat < 32) :
      (value >>> s).toUInt8.toUInt32.toNat =
        value.toNat / 2 ^ s.toNat % 256 := by
    rw [UInt8.toNat_toUInt32, UInt32.toNat_toUInt8, UInt32.toNat_shiftRight,
      Nat.mod_eq_of_lt hs, Nat.shiftRight_eq_div_pow]
  have hfirst : value.toUInt8.toUInt32.toNat = value.toNat % 256 := by
    rw [UInt8.toNat_toUInt32, UInt32.toNat_toUInt8]
  have h8 := hbyte 8 (by decide)
  have h16 := hbyte 16 (by decide)
  have h24 := hbyte 24 (by decide)
  simp only [UInt32.reduceToNat, Nat.reducePow] at h8 h16 h24
  have hsecond := toNat_or_shiftLeft value.toUInt8.toUInt32
    (value >>> 8).toUInt8.toUInt32 8 (by decide) (by simp; omega)
    (by simp only [UInt32.reduceToNat]; omega)
  have hthird := toNat_or_shiftLeft _ (value >>> 16).toUInt8.toUInt32 16
    (by decide) (by rw [hsecond]; simp only [UInt32.reduceToNat]; omega)
    (by simp only [UInt32.reduceToNat]; omega)
  have hfourth := toNat_or_shiftLeft _ (value >>> 24).toUInt8.toUInt32 24
    (by decide) (by rw [hthird, hsecond]; simp only [UInt32.reduceToNat]; omega)
    (by simp only [UInt32.reduceToNat]; omega)
  simp only [encodeFixed32, List.cons_append, List.nil_append, getFixed32,
    Option.some.injEq]
  apply UInt32.toNat_inj.mp
  rw [hfourth, hthird, hsecond]
  simp only [UInt32.reduceToNat]
  omega

end SimpleKV
