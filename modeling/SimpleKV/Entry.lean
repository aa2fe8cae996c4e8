/-
The entry record of `util/utils.h` and `storage_buffer.cpp`: a varint key
size, the key, a varint value size, the value.  Every decoder below redoes the
two-varint walk with the source's own 32-bit arithmetic.
-/
import SimpleKV.Coding

namespace SimpleKV

/-- A `ByteArray` of the source: a block whose `size_` is a `uint32_t`. -/
structure ByteArray where
  data : Bytes
  size_lt : data.length < 2 ^ 32

namespace ByteArray

/-- `ByteArray(s.c_str(), s.size())`: the size is cut to 32 bits. -/
def ofString (s : Bytes) : ByteArray where
  data := s.take (s.length % 2 ^ 32)
  size_lt := by
    rw [List.length_take]
    exact Nat.lt_of_le_of_lt (Nat.min_le_left _ _) (Nat.mod_lt _ (by decide))

def size (array : ByteArray) : UInt32 :=
  UInt32.ofNat array.data.length

@[simp] theorem ofString_data {s : Bytes} (hs : s.length < 2 ^ 32) :
    (ofString s).data = s := by
  change s.take (s.length % 2 ^ 32) = s
  rw [Nat.mod_eq_of_lt hs, List.take_length]

end ByteArray

/-- `std::string(p, size)`: undefined when the block ends first. -/
def readBytes (p : Bytes) (size : Nat) : Option Bytes :=
  if size ≤ p.length then some (p.take size) else none

@[simp] theorem readBytes_append (block rest : Bytes) :
    readBytes (block ++ rest) block.length = some block := by
  simp [readBytes]

/-- A size-prefixed string: half an entry, a file bound, an index key. -/
def encodeString (s : Bytes) : Bytes :=
  encodeVarint32 (UInt32.ofNat s.length) ++ s

/-- The bytes `StorageBuffer::Add` stores for one entry. -/
def encodeEntry (key value : Bytes) : Bytes :=
  encodeString key ++ encodeString value

/-- `ExtractUserKey`, both overloads. -/
def extractUserKey (entry : Bytes) : Option Bytes := do
  let (length, keySize) ← getVarint32 entry 5
  readBytes (entry.drop length) keySize.toNat

/-- `EntrySize`. -/
def entrySize (entry : Bytes) : Option UInt32 := do
  let (length, size) ← getVarint32 entry 5
  let totalLen := UInt32.ofNat length + size
  let (length, size) ← getVarint32 (entry.drop totalLen.toNat) 5
  some (totalLen + UInt32.ofNat length + size)

/-- `ExtractUserValue`, both overloads. -/
def extractUserValue (entry : Bytes) : Option Bytes := do
  let (length, size) ← getVarint32 entry 5
  let p := entry.drop (UInt32.ofNat length + size).toNat
  let (length, size) ← getVarint32 p 5
  readBytes (p.drop length) size.toNat

/-- The key a comparison sees.  Entries in a list are always decodable; the
default stands for memory no caller passes. -/
def userKey (entry : Bytes) : Bytes :=
  (extractUserKey entry).getD []

/-- `Comparator::operator()`: `lt`, `eq` and `gt` are -1, 0 and 1. -/
def comparator (a b : Bytes) : Ordering :=
  if userKey a < userKey b then .lt
  else if userKey a = userKey b then .eq
  else .gt

theorem toNat_ofNat_length {s : Bytes} (hs : s.length < 2 ^ 32) :
    (UInt32.ofNat s.length).toNat = s.length := by
  rw [UInt32.toNat_ofNat', Nat.mod_eq_of_lt hs]

theorem length_encodeString (s : Bytes) :
    (encodeString s).length =
      (encodeVarint32 (UInt32.ofNat s.length)).length + s.length := by
  rw [encodeString, List.length_append]

theorem length_lt_length_encodeString (s : Bytes) :
    s.length < (encodeString s).length := by
  have hprefix := length_encodeVarint32_le (UInt32.ofNat s.length)
  rw [length_encodeString]
  omega

theorem length_encodeEntry (key value : Bytes) :
    (encodeEntry key value).length =
      (encodeString key).length + (encodeString value).length := by
  rw [encodeEntry, List.length_append]

/-- Reading the size prefix of a string. -/
theorem getVarint32_encodeString (s rest : Bytes) :
    getVarint32 (encodeString s ++ rest) 5 =
      some ((encodeVarint32 (UInt32.ofNat s.length)).length,
        UInt32.ofNat s.length) := by
  rw [encodeString, List.append_assoc]
  exact getVarint32_encodeVarint32 _ _ (length_encodeVarint32_le _).2

/-- Skipping the size prefix of a string. -/
theorem drop_encodeString_prefix (s rest : Bytes) :
    (encodeString s ++ rest).drop
      (encodeVarint32 (UInt32.ofNat s.length)).length = s ++ rest := by
  rw [encodeString, List.append_assoc, List.drop_left]

/-- The 32-bit sum `length + size` of a string that fits. -/
theorem toNat_prefix_add_size {s : Bytes}
    (hs : (encodeString s).length < 2 ^ 32) :
    (UInt32.ofNat (encodeVarint32 (UInt32.ofNat s.length)).length +
      UInt32.ofNat s.length).toNat = (encodeString s).length := by
  rw [length_encodeString] at hs ⊢
  rw [← UInt32.ofNat_add, UInt32.toNat_ofNat', Nat.mod_eq_of_lt hs]

@[simp] theorem extractUserKey_encodeString {key : Bytes} (rest : Bytes)
    (hkey : key.length < 2 ^ 32) :
    extractUserKey (encodeString key ++ rest) = some key := by
  simp only [extractUserKey, getVarint32_encodeString, Option.bind_eq_bind,
    Option.bind_some, drop_encodeString_prefix, toNat_ofNat_length hkey,
    readBytes_append]

theorem userKey_encodeString {key : Bytes} (rest : Bytes)
    (hkey : key.length < 2 ^ 32) :
    userKey (encodeString key ++ rest) = key := by
  rw [userKey, extractUserKey_encodeString rest hkey, Option.getD_some]

theorem userKey_encodeEntry {key : Bytes} (value : Bytes)
    (hkey : key.length < 2 ^ 32) : userKey (encodeEntry key value) = key :=
  userKey_encodeString (encodeString value) hkey

/-- Every decoder that skips the key lands on the value's size prefix. -/
theorem drop_encodeEntry {key : Bytes} (value rest : Bytes)
    (hkey : (encodeString key).length < 2 ^ 32) :
    (encodeEntry key value ++ rest).drop
      (UInt32.ofNat (encodeVarint32 (UInt32.ofNat key.length)).length +
        UInt32.ofNat key.length).toNat = encodeString value ++ rest := by
  rw [toNat_prefix_add_size hkey, encodeEntry, List.append_assoc,
    List.drop_left]

theorem extractUserValue_encodeEntry {key value : Bytes} (rest : Bytes)
    (hkey : (encodeString key).length < 2 ^ 32)
    (hvalue : value.length < 2 ^ 32) :
    extractUserValue (encodeEntry key value ++ rest) = some value := by
  have hfirst : getVarint32 (encodeEntry key value ++ rest) 5 =
      some ((encodeVarint32 (UInt32.ofNat key.length)).length,
        UInt32.ofNat key.length) := by
    rw [encodeEntry, List.append_assoc]
    exact getVarint32_encodeString key _
  simp only [extractUserValue, hfirst, Option.bind_eq_bind, Option.bind_some,
    drop_encodeEntry value rest hkey, getVarint32_encodeString,
    drop_encodeString_prefix, toNat_ofNat_length hvalue, readBytes_append]

theorem entrySize_encodeEntry {key value : Bytes} (rest : Bytes)
    (hentry : (encodeEntry key value).length < 2 ^ 32) :
    entrySize (encodeEntry key value ++ rest) =
      some (UInt32.ofNat (encodeEntry key value).length) := by
  have hkey : (encodeString key).length < 2 ^ 32 := by
    rw [length_encodeEntry] at hentry
    omega
  have hfirst : getVarint32 (encodeEntry key value ++ rest) 5 =
      some ((encodeVarint32 (UInt32.ofNat key.length)).length,
        UInt32.ofNat key.length) := by
    rw [encodeEntry, List.append_assoc]
    exact getVarint32_encodeString key _
  simp only [entrySize, hfirst, Option.bind_eq_bind, Option.bind_some,
    drop_encodeEntry value rest hkey, getVarint32_encodeString]
  simp only [← UInt32.ofNat_add, length_encodeEntry, length_encodeString,
    Nat.add_assoc]

end SimpleKV
