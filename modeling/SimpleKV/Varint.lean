/-
What the varint reader accepts, over arbitrary bytes: a run of bytes with the
continuation flag and one without, of the size bound and the 28-bit shift at
most.
-/
import SimpleKV.Coding

namespace SimpleKV

/-- The number that the bytes of a varint stand for, low bits first. -/
def varintValue : Bytes → Nat
  | [] => 0
  | byte :: bytes => byte.toNat % 128 + 128 * varintValue bytes

/-- A varint of at most five bytes, ended by the first byte below 128.  Its
value is cut to 32 bits. -/
structure IsVarint (bytes : Bytes) (value : UInt32) : Prop where
  shape : ∃ groups last, bytes = groups ++ [last] ∧
    (∀ byte ∈ groups, 128 ≤ byte.toNat) ∧ last.toNat < 128
  length_le : bytes.length ≤ 5
  toNat_value : value.toNat = varintValue bytes % 2 ^ 32

theorem varintValue_eq (bytes : Bytes) :
    varintValue bytes = Leb128.value bytes := by
  induction bytes with
  | nil => rfl
  | cons byte bytes ih => rw [varintValue, Leb128.value, ih]

/-- The reader bounded by five accepts exactly a varint and what follows. -/
theorem getVarint32_eq_some_iff (data : Bytes) (count : Nat) (value : UInt32) :
    getVarint32 data 5 = some (count, value) ↔
      ∃ bytes rest, data = bytes ++ rest ∧ IsVarint bytes value ∧
        count = bytes.length := by
  rw [getVarint32_eq_cut, Option.map_eq_some_iff]
  constructor
  · rintro ⟨bytes, hcut, hread⟩
    obtain ⟨front, last, rest, hdata, hbytes, hfront, hlast, hlength⟩ :=
      Leb128.cut_eq_some_iff.mp hcut
    rw [Prod.mk.injEq] at hread
    refine ⟨bytes, rest, hdata, ⟨⟨front, last, hbytes, hfront, hlast⟩, hlength,
      ?_⟩, hread.1.symm⟩
    rw [← hread.2, UInt32.toNat_ofNat', varintValue_eq]
  · rintro ⟨bytes, rest, hdata, ⟨⟨front, last, hbytes, hfront, hlast⟩, hlength,
      hvalue⟩, rfl⟩
    refine ⟨bytes, Leb128.cut_eq_some_iff.mpr ⟨front, last, rest, hdata, hbytes,
      hfront, hlast, hlength⟩, ?_⟩
    rw [varintValue_eq] at hvalue
    rw [Prod.mk.injEq]
    refine ⟨rfl, UInt32.toNat_inj.mp ?_⟩
    rw [UInt32.toNat_ofNat', hvalue]

/-- The writer's bytes are the shortest varint of their value. -/
theorem IsVarint.length_encodeVarint32_le {bytes : Bytes} {value : UInt32}
    (h : IsVarint bytes value) :
    (encodeVarint32 value).length ≤ bytes.length := by
  obtain ⟨front, last, hbytes, _⟩ := h.shape
  obtain ⟨k, hk⟩ : ∃ k, bytes.length = k + 1 := by
    rw [hbytes]
    exact ⟨front.length, by simp⟩
  have hlt : value.toNat < 2 ^ (7 * bytes.length) := by
    rw [h.toNat_value, varintValue_eq]
    exact lt_of_le_of_lt (Nat.mod_le _ _) (Leb128.value_lt bytes)
  rw [encodeVarint32_eq_groups, hk]
  apply Leb128.length_groups_le
  rw [hk, Nat.pow_mul] at hlt
  exact hlt

theorem isVarint_encodeVarint32 (value : UInt32) :
    IsVarint (encodeVarint32 value) value := by
  have hread := getVarint32_encodeVarint32 value []
    (length_encodeVarint32_le value).2
  obtain ⟨bytes, rest, heq, hvarint, hlength⟩ :=
    (getVarint32_eq_some_iff _ _ _).mp hread
  rw [List.append_nil] at heq
  have hbytes : bytes = encodeVarint32 value := by
    rw [heq] at hlength ⊢
    simp only [List.length_append, Nat.add_eq_left, List.length_eq_zero_iff] at hlength
    rw [hlength, List.append_nil]
  rwa [hbytes] at hvarint

end SimpleKV
