/-
The entry record as a codec: what `StorageBuffer::Add` writes has the length it
announced, and every decoder of the source reads it back whatever memory
follows the entry.
-/
import SimpleKV.StorageBuffer

namespace SimpleKV

/-- The overload of `ExtractUserKey` for a `ByteArray` followed by the bytes
`after`: it goes by `Data()` alone. -/
def ByteArray.extractUserKey (entry : ByteArray) (after : Bytes) :
    Option Bytes :=
  SimpleKV.extractUserKey (entry.data ++ after)

/-- The overload of `ExtractUserValue` for a `ByteArray`. -/
def ByteArray.extractUserValue (entry : ByteArray) (after : Bytes) :
    Option Bytes :=
  SimpleKV.extractUserValue (entry.data ++ after)

/-- What the writer and the decoders of one entry owe each other. -/
structure EntryCodec (key value : Bytes) : Prop where
  length_eq : (encodeEntry key value).length =
    (StorageBuffer.encodedLen (.ofString key) (.ofString value)).toNat
  assertion : ∀ buffer : StorageBuffer,
    (buffer.add (.ofString key) (.ofString value)).isSome
  stored : ∀ buffer : StorageBuffer,
    (buffer.insert (.ofString key) (.ofString value)).incomeBuffer =
      SkipList.insert comparator (encodeEntry key value) buffer.incomeBuffer
  userKey : ∀ rest, extractUserKey (encodeEntry key value ++ rest) = some key
  userKeyArray : ∀ rest,
    (ByteArray.ofString (encodeEntry key value)).extractUserKey rest = some key
  userValue : ∀ rest,
    extractUserValue (encodeEntry key value ++ rest) = some value
  userValueArray : ∀ rest,
    (ByteArray.ofString (encodeEntry key value)).extractUserValue rest =
      some value
  entrySize : ∀ rest, ∃ size,
    entrySize (encodeEntry key value ++ rest) = some size ∧
      size.toNat = (encodeEntry key value).length
  extractEntry : ∀ (file : File) (p index : Nat) (rest : Bytes),
    file.mmap.drop p = encodeEntry key value ++ rest →
    extractEntry file p index = some
      ({ key, levelId := file.levelId, fileId := file.fileId, index,
         isDelete := decide (value = tombValue),
         data := encodeEntry key value },
        p + (encodeEntry key value).length)

theorem Short.entryCodec {key value : Bytes} (hshort : Short (key, value)) :
    EntryCodec key value := by
  have hfits : Fits (key, value) := hshort.fits
  obtain ⟨hkey, hkeyLength, hvalueLength⟩ := hfits.bounds
  have hsize : (UInt32.ofNat (encodeEntry key value).length).toNat =
      (encodeEntry key value).length := by
    rw [UInt32.toNat_ofNat', Nat.mod_eq_of_lt hfits]
  have hkeyData : (ByteArray.ofString key).data = key :=
    ByteArray.ofString_data hkeyLength
  have hvalueData : (ByteArray.ofString value).data = value :=
    ByteArray.ofString_data hvalueLength
  have harray : (ByteArray.ofString (encodeEntry key value)).data =
      encodeEntry key value :=
    ByteArray.ofString_data hfits
  have huserKey (rest : Bytes) :
      extractUserKey (encodeEntry key value ++ rest) = some key := by
    rw [encodeEntry, List.append_assoc]
    exact extractUserKey_encodeString _ hkeyLength
  have huserValue (rest : Bytes) :
      extractUserValue (encodeEntry key value ++ rest) = some value :=
    extractUserValue_encodeEntry rest hkey hvalueLength
  constructor
  · rw [StorageBuffer.encodedLen_eq, hkeyData, hvalueData, hsize]
  · intro buffer
    rw [Option.isSome_iff_exists]
    refine ⟨_, StorageBuffer.add_eq_some_iff.mpr ⟨?_, rfl⟩⟩
    rw [hkeyData, hvalueData]
    exact hshort
  · intro buffer
    rw [StorageBuffer.insert, hkeyData, hvalueData]
  · exact huserKey
  · intro rest
    rw [ByteArray.extractUserKey, harray, huserKey]
  · exact huserValue
  · intro rest
    rw [ByteArray.extractUserValue, harray, huserValue]
  · intro rest
    exact ⟨_, entrySize_encodeEntry rest hfits, hsize⟩
  · intro file p index rest hdrop
    exact extractEntry_of_drop index hfits hdrop

/-- The codec of entries shorter than 2^31 bytes, and the order of the
comparator on them: that of the keys. -/
theorem entry_codec {key value : Bytes} (hshort : Short (key, value)) :
    EntryCodec key value ∧
      ∀ other otherValue rest rest' : Bytes, Short (other, otherValue) →
        comparator (encodeEntry key value ++ rest)
            (encodeEntry other otherValue ++ rest') =
          if key < other then .lt else if key = other then .eq else .gt := by
  refine ⟨hshort.entryCodec, ?_⟩
  intro other otherValue rest rest' hother
  apply comparator_of_userKey
  · rw [userKey, hshort.entryCodec.userKey, Option.getD_some]
  · rw [userKey, hother.entryCodec.userKey, Option.getD_some]

/-- A tombstone and an empty value under neighbouring keys. -/
theorem entry_codec_tombstone :
    (Short ([97], tombValue) ∧ Short ([98], [])) ∧
      EntryCodec [97] tombValue ∧
      comparator (encodeEntry [97] tombValue ++ [255])
        (encodeEntry [98] [] ++ []) = .lt := by
  have hshort : Short ([97], tombValue) := by
    unfold Short
    decide
  have hother : Short ([98], []) := by
    unfold Short
    decide
  obtain ⟨hcodec, hcompare⟩ := entry_codec hshort
  exact ⟨⟨hshort, hother⟩, hcodec, hcompare [98] [] [255] [] hother⟩

end SimpleKV
