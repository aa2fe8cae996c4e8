/-
The data file format: `StorageBuffer::Flush` writes it, and the `File`
constructor, `LoadKeyOffset`, `GetValueByOffset` and the scan of
`NWayCompaction` read it, each with its own offset arithmetic.

    lower bound | upper bound | index offset | entries | (key, offset) index
-/
import SimpleKV.Entry
import SimpleKV.FileName
import SimpleKV.SkipList
import SimpleKV.Lib.SortedAssoc
import Mathlib.Algebra.Order.BigOperators.Group.List
import Mathlib.Data.List.AList

namespace SimpleKV

open SortedAssoc

/-- `std::unordered_map<std::string, uint32_t>`. -/
abbrev KeyOffset := AList fun _ : Bytes => UInt32

/-- An item of a key-offset table. -/
abbrev KeyOffsetItem := Sigma fun _ : Bytes => UInt32

/-- The order in which an `unordered_map` happens to be iterated. -/
structure IterOrder where
  order : List KeyOffsetItem → List KeyOffsetItem
  perm : ∀ items, (order items).Perm items

/-- A table iterated as it was filled. -/
def IterOrder.inOrder : IterOrder :=
  ⟨id, fun items => List.Perm.refl items⟩

/-- `std::string("00000")`, the initial `prev` of `Flush`. -/
def flushPrev : Bytes := [48, 48, 48, 48, 48]

/-- `Constant::TombValue`, `"###TOMB_VALUE###"`. -/
def tombValue : Bytes :=
  [35, 35, 35, 84, 79, 77, 66, 95, 86, 65, 76, 85, 69, 35, 35, 35]

/-- The size-prefixed key at the start of an entry, as `Flush` copies it to
the header. -/
def boundBytes (entry : Bytes) : Option Bytes := do
  let (len, keySize) ← getVarint32 entry 5
  readBytes entry (UInt32.ofNat len + keySize).toNat

/-- The entry loop of `Flush`: bytes written and offsets recorded.  `none` is
the failed order assertion. -/
def flushEntries : List Bytes → Bytes → UInt32 → KeyOffset →
    Option (Bytes × KeyOffset)
  | [], _, _, keyOffset => some ([], keyOffset)
  | entry :: content, prev, offset, keyOffset => do
      let key ← extractUserKey entry
      if key < prev then none
      else
        let (written, keyOffset) ← flushEntries content key
          (offset + UInt32.ofNat entry.length) (keyOffset.insert key offset)
        some (entry ++ written, keyOffset)

/-- One item of the index section. -/
def indexItem (item : KeyOffsetItem) : Bytes :=
  encodeString item.1 ++ encodeVarint32 item.2

/-- `StorageBuffer::Flush` with an empty `key_offset`, as both callers pass:
the file's bytes and the filled table.  `front()` of an empty `content` is
undefined. -/
def flush (iter : IterOrder) (content : List Bytes) (dataSize : UInt32) :
    Option (Bytes × KeyOffset) := do
  let lower ← content.head?
  let upper ← content.getLast?
  let lowerBytes ← boundBytes lower
  let upperBytes ← boundBytes upper
  let offset := UInt32.ofNat lowerBytes.length + UInt32.ofNat upperBytes.length
  let indexOffset := offset + 4 + dataSize
  let (written, keyOffset) ← flushEntries content flushPrev (offset + 4) ∅
  some (lowerBytes ++ upperBytes ++ encodeFixed32 indexOffset ++ written ++
    (iter.order keyOffset.entries).flatMap indexItem, keyOffset)

/-- The entry loop of `Flush` compiled without its assertion. -/
def flushEntriesRelease : List Bytes → UInt32 → KeyOffset →
    Option (Bytes × KeyOffset)
  | [], _, keyOffset => some ([], keyOffset)
  | entry :: content, offset, keyOffset => do
      let key ← extractUserKey entry
      let (written, keyOffset) ← flushEntriesRelease content
        (offset + UInt32.ofNat entry.length) (keyOffset.insert key offset)
      some (entry ++ written, keyOffset)

/-- `StorageBuffer::Flush` compiled without its assertion. -/
def flushRelease (iter : IterOrder) (content : List Bytes)
    (dataSize : UInt32) : Option (Bytes × KeyOffset) := do
  let lower ← content.head?
  let upper ← content.getLast?
  let lowerBytes ← boundBytes lower
  let upperBytes ← boundBytes upper
  let offset := UInt32.ofNat lowerBytes.length + UInt32.ofNat upperBytes.length
  let indexOffset := offset + 4 + dataSize
  let (written, keyOffset) ← flushEntriesRelease content (offset + 4) ∅
  some (lowerBytes ++ upperBytes ++ encodeFixed32 indexOffset ++ written ++
    (iter.order keyOffset.entries).flatMap indexItem, keyOffset)

/-- With or without assertions. -/
inductive Build where
  | debug
  | release
deriving DecidableEq

/-- `Flush` of a build. -/
def Build.flush : Build → IterOrder → List Bytes → UInt32 →
    Option (Bytes × KeyOffset)
  | .debug => SimpleKV.flush
  | .release => flushRelease

/-- A `File` object.  `mmap` is the whole file; the mapping of a file of 2^32
bytes or more is shorter, and reading past it ends the process. -/
structure File where
  levelId : Nat
  fileId : Int
  fileSize : UInt32
  fileName : Name
  lowerBound : Bytes
  upperBound : Bytes
  mmap : Bytes
deriving DecidableEq

/-- The `File` constructor on the file `name` of the data folder. -/
def File.ofName (name : Name) (bytes : Bytes) : Option File := do
  let (levelId, fileId) ← parseFileName name
  let (len, keySize) ← getVarint32 bytes 5
  let p := bytes.drop len
  let lowerBound ← readBytes p keySize.toNat
  let p := p.drop keySize.toNat
  let (len, keySize) ← getVarint32 p 5
  let upperBound ← readBytes (p.drop len) keySize.toNat
  some
    { levelId, fileId, fileSize := UInt32.ofNat bytes.length, fileName := name,
      lowerBound, upperBound, mmap := bytes }

/-- The index loop of `LoadKeyOffset` from position `p`; each round moves `p`
forward, so `fileSize` rounds reach the end.  Returns the final `p` too. -/
def loadIndex (buf : Bytes) (fileSize : Nat) :
    Nat → Nat → KeyOffset → Option (KeyOffset × Nat)
  | 0, p, keyOffset => if p < fileSize then none else some (keyOffset, p)
  | rounds + 1, p, keyOffset =>
      if p < fileSize then do
        let (length, size) ← getVarint32 (buf.drop p) 5
        let p := p + length
        let key ← readBytes (buf.drop p) size.toNat
        let p := p + size.toNat
        let (length, offset) ← getVarint32 (buf.drop p) 5
        loadIndex buf fileSize rounds (p + length) (keyOffset.insert key offset)
      else some (keyOffset, p)

/-- `StorageEngine::LoadKeyOffset` on a file, with the position it stops at. -/
def loadKeyOffsetAt (file : File) : Option (KeyOffset × Nat) := do
  let buf := file.mmap
  let (length, size) ← getVarint32 buf 5
  let p := (UInt32.ofNat length + size).toNat
  let (length, size) ← getVarint32 (buf.drop p) 5
  let p := p + (UInt32.ofNat length + size).toNat
  let indexOffset ← getFixed32 (buf.drop p)
  loadIndex buf file.fileSize.toNat file.fileSize.toNat indexOffset.toNat ∅

def loadKeyOffset (file : File) : Option KeyOffset :=
  (loadKeyOffsetAt file).map Prod.fst

/-- `StorageEngine::GetValueByOffset` on a file. -/
def getValueByOffset (file : File) (offset : UInt32) : Option Bytes :=
  extractUserValue (file.mmap.drop offset.toNat)

/-- A `StorageEngine::Entry`: `data` is the `size_` bytes at `p_`. -/
structure Entry where
  key : Bytes
  levelId : Nat
  fileId : Int
  index : Nat
  isDelete : Bool
  data : Bytes
deriving DecidableEq

/-- `StorageEngine::ExtractEntry` at position `p` of `file`: the entry and the
advanced position. -/
def extractEntry (file : File) (p : Nat) (index : Nat) :
    Option (Entry × Nat) := do
  let original := p
  let (length, size) ← getVarint32 (file.mmap.drop p) 5
  let p := p + length
  let key ← readBytes (file.mmap.drop p) size.toNat
  let totalLen := UInt32.ofNat length + size
  let p := p + size.toNat
  let (length, size) ← getVarint32 (file.mmap.drop p) 5
  let p := p + length
  let totalLen := totalLen + (UInt32.ofNat length + size)
  let value ← readBytes (file.mmap.drop p) size.toNat
  let data ← readBytes (file.mmap.drop original) totalLen.toNat
  some
    ({ key, levelId := file.levelId, fileId := file.fileId, index,
       isDelete := decide (value = tombValue), data },
      p + size.toNat)

/-- The header skip of `NWayCompaction`: the cursor on the first entry and the
index offset.  `none` also stands for its failed size assertion. -/
def openCursor (file : File) (index : Nat) : Option (Nat × UInt32) := do
  let (entry, p) ← extractEntry file 0 index
  if entry.data.length = p then
    let indexOffset ← getFixed32 (file.mmap.drop p)
    some (p + 4, indexOffset)
  else none

/-- The entries a cursor at `p` still yields, as `NWayCompaction` extracts them
one at a time. -/
def scanEntries (file : File) (index : Nat) (indexOffset : UInt32) :
    Nat → Nat → Option (List Entry)
  | 0, p => if p < indexOffset.toNat then none else some []
  | rounds + 1, p =>
      if p < indexOffset.toNat then do
        let (entry, p) ← extractEntry file p index
        let entries ← scanEntries file index indexOffset rounds p
        some (entry :: entries)
      else some []

/-- All entries of a file in the order the merge reads them. -/
def scanFile (file : File) (index : Nat) : Option (List Entry) := do
  let (p, indexOffset) ← openCursor file index
  scanEntries file index indexOffset file.mmap.length p

/-- An entry whose encoding has a 32-bit size. -/
def Fits (entry : Bytes × Bytes) : Prop :=
  (encodeEntry entry.1 entry.2).length < 2 ^ 32

theorem Fits.bounds {entry : Bytes × Bytes} (hfits : Fits entry) :
    (encodeString entry.1).length < 2 ^ 32 ∧ entry.1.length < 2 ^ 32 ∧
      entry.2.length < 2 ^ 32 := by
  have hkey := length_lt_length_encodeString entry.1
  have hvalue := length_lt_length_encodeString entry.2
  rw [Fits, length_encodeEntry] at hfits
  omega

theorem Short.fits {entry : Bytes × Bytes} (hshort : Short entry) :
    Fits entry :=
  Nat.lt_trans hshort (by decide)

/-- The data section. -/
def dataBytes (entries : List (Bytes × Bytes)) : Bytes :=
  (encodeEntries entries).flatten

@[simp] theorem dataBytes_nil : dataBytes [] = [] := rfl

@[simp] theorem dataBytes_cons (entry : Bytes × Bytes)
    (entries : List (Bytes × Bytes)) :
    dataBytes (entry :: entries) =
      encodeEntry entry.1 entry.2 ++ dataBytes entries := rfl

theorem dataBytes_append (first second : List (Bytes × Bytes)) :
    dataBytes (first ++ second) = dataBytes first ++ dataBytes second := by
  simp [dataBytes, encodeEntries]

/-- The table `Flush` fills for entries that start at `offset`. -/
def recordOffsets : List (Bytes × Bytes) → UInt32 → KeyOffset → KeyOffset
  | [], _, keyOffset => keyOffset
  | entry :: entries, offset, keyOffset =>
      recordOffsets entries
        (offset + UInt32.ofNat (encodeEntry entry.1 entry.2).length)
        (keyOffset.insert entry.1 offset)

/-- The bytes of a file with these entries. -/
def layout (lower upper : Bytes) (indexOffset : UInt32)
    (entries : List (Bytes × Bytes)) (index : List KeyOffsetItem) : Bytes :=
  encodeString lower ++ encodeString upper ++ encodeFixed32 indexOffset ++
    dataBytes entries ++ index.flatMap indexItem

theorem boundBytes_encodeEntry {entry : Bytes × Bytes} (hfits : Fits entry) :
    boundBytes (encodeEntry entry.1 entry.2) =
      some (encodeString entry.1) := by
  simp only [boundBytes, encodeEntry, getVarint32_encodeString,
    Option.bind_eq_bind, Option.bind_some,
    toNat_prefix_add_size hfits.bounds.1, readBytes_append]

/-- On increasing keys not below `prev` the order assertion holds at every
entry. -/
theorem flushEntries_encodeEntries {entries : List (Bytes × Bytes)}
    (hinc : Increasing entries) (hfits : ∀ entry ∈ entries, Fits entry)
    (prev : Bytes) (hprev : ∀ entry ∈ entries, prev ≤ entry.1)
    (offset : UInt32) (keyOffset : KeyOffset) :
    flushEntries (encodeEntries entries) prev offset keyOffset =
      some (dataBytes entries, recordOffsets entries offset keyOffset) := by
  induction entries generalizing prev offset keyOffset with
  | nil => rfl
  | cons entry entries ih =>
      have hkey : extractUserKey (encodeEntry entry.1 entry.2) =
          some entry.1 :=
        extractUserKey_encodeString _
          (hfits entry List.mem_cons_self).bounds.2.1
      have hle : ¬ entry.1 < prev :=
        not_lt.mpr (hprev entry List.mem_cons_self)
      have hrest := ih hinc.tail
        (fun other hother => hfits other (List.mem_cons_of_mem _ hother))
        entry.1 (fun other hother => (hinc.head_lt other hother).le)
        (offset + UInt32.ofNat (encodeEntry entry.1 entry.2).length)
        (keyOffset.insert entry.1 offset)
      simp only [encodeEntries, List.map_cons] at hrest ⊢
      simp only [flushEntries, hkey, Option.bind_eq_bind, Option.bind_some,
        if_neg hle, hrest, dataBytes_cons, recordOffsets]

/-- The first key below the initial `prev` fails the assertion. -/
theorem flushEntries_eq_none {entry : Bytes × Bytes} (hfits : Fits entry)
    (content : List Bytes) {prev : Bytes} (hlt : entry.1 < prev)
    (offset : UInt32) (keyOffset : KeyOffset) :
    flushEntries (encodeEntry entry.1 entry.2 :: content) prev offset
      keyOffset = none := by
  have hkey : extractUserKey (encodeEntry entry.1 entry.2) = some entry.1 :=
    extractUserKey_encodeString _ hfits.bounds.2.1
  simp [flushEntries, hkey, hlt]

/-- The header size, 4 bytes of index offset included. -/
def headerSize (lower upper : Bytes) : Nat :=
  (encodeString lower).length + (encodeString upper).length + 4

/-- The table `Flush` fills for a whole file. -/
def offsetTable (lower upper : Bytes) (entries : List (Bytes × Bytes)) :
    KeyOffset :=
  recordOffsets entries (UInt32.ofNat (headerSize lower upper)) ∅

theorem getLast?_encodeEntries {entries : List (Bytes × Bytes)}
    {last : Bytes × Bytes} (hlast : entries.getLast? = some last) :
    (encodeEntries entries).getLast? = some (encodeEntry last.1 last.2) := by
  rw [encodeEntries, List.getLast?_map, hlast]
  rfl

/-- The header size in 32-bit arithmetic. -/
theorem ofNat_headerSize (lower upper : Bytes) :
    UInt32.ofNat (encodeString lower).length +
      UInt32.ofNat (encodeString upper).length + 4 =
        UInt32.ofNat (headerSize lower upper) := by
  rw [headerSize, UInt32.ofNat_add, UInt32.ofNat_add]
  rfl

/-- What `Flush` returns on increasing entries: nothing when the first key is
below `"00000"`, else the laid out file and its offset table. -/
theorem flush_encodeEntries (iter : IterOrder) (dataSize : UInt32)
    {first last : Bytes × Bytes} {entries : List (Bytes × Bytes)}
    (hhead : entries.head? = some first) (hlast : entries.getLast? = some last)
    (hinc : Increasing entries) (hfits : ∀ entry ∈ entries, Fits entry) :
    flush iter (encodeEntries entries) dataSize =
      if first.1 < flushPrev then none
      else
        some (layout first.1 last.1
            (UInt32.ofNat (headerSize first.1 last.1) + dataSize) entries
            (iter.order (offsetTable first.1 last.1 entries).entries),
          offsetTable first.1 last.1 entries) := by
  obtain ⟨rest, rfl⟩ : ∃ rest, entries = first :: rest := by
    cases entries with
    | nil => simp at hhead
    | cons head rest => exact ⟨rest, by simpa using hhead⟩
  have hfirst := boundBytes_encodeEntry (hfits first List.mem_cons_self)
  have hupper := boundBytes_encodeEntry
    (hfits last (List.mem_of_getLast? hlast))
  have hfront : (encodeEntries (first :: rest)).head? =
      some (encodeEntry first.1 first.2) := rfl
  simp only [flush, hfront, getLast?_encodeEntries hlast, hfirst, hupper,
    Option.bind_eq_bind, Option.bind_some, ofNat_headerSize]
  split_ifs with hlow
  · rw [encodeEntries, List.map_cons,
      flushEntries_eq_none (hfits first List.mem_cons_self) _ hlow]
    rfl
  · have hprev : ∀ entry ∈ first :: rest, flushPrev ≤ entry.1 := by
      intro entry hentry
      rcases List.mem_cons.mp hentry with rfl | hentry
      · exact not_lt.mp hlow
      · exact (not_lt.mp hlow).trans (hinc.head_lt entry hentry).le
    rw [flushEntries_encodeEntries hinc hfits flushPrev hprev]
    rfl

theorem flushEntriesRelease_encodeEntries {entries : List (Bytes × Bytes)}
    (hfits : ∀ entry ∈ entries, Fits entry) (offset : UInt32)
    (keyOffset : KeyOffset) :
    flushEntriesRelease (encodeEntries entries) offset keyOffset =
      some (dataBytes entries, recordOffsets entries offset keyOffset) := by
  induction entries generalizing offset keyOffset with
  | nil => rfl
  | cons entry entries ih =>
      have hkey : extractUserKey (encodeEntry entry.1 entry.2) =
          some entry.1 :=
        extractUserKey_encodeString _
          (hfits entry List.mem_cons_self).bounds.2.1
      have hrest := ih
        (fun other hother => hfits other (List.mem_cons_of_mem _ hother))
        (offset + UInt32.ofNat (encodeEntry entry.1 entry.2).length)
        (keyOffset.insert entry.1 offset)
      simp only [encodeEntries, List.map_cons] at hrest ⊢
      simp only [flushEntriesRelease, hkey, Option.bind_eq_bind,
        Option.bind_some, hrest, dataBytes_cons, recordOffsets]

/-- Without the assertion every non-empty list of entries is laid out. -/
theorem flushRelease_encodeEntries (iter : IterOrder) (dataSize : UInt32)
    {first last : Bytes × Bytes} {entries : List (Bytes × Bytes)}
    (hhead : entries.head? = some first) (hlast : entries.getLast? = some last)
    (hfits : ∀ entry ∈ entries, Fits entry) :
    flushRelease iter (encodeEntries entries) dataSize =
      some (layout first.1 last.1
          (UInt32.ofNat (headerSize first.1 last.1) + dataSize) entries
          (iter.order (offsetTable first.1 last.1 entries).entries),
        offsetTable first.1 last.1 entries) := by
  have hfirst := boundBytes_encodeEntry
    (hfits first (List.mem_of_mem_head? hhead))
  have hupper := boundBytes_encodeEntry
    (hfits last (List.mem_of_getLast? hlast))
  have hfront : (encodeEntries entries).head? =
      some (encodeEntry first.1 first.2) := by
    rw [encodeEntries, List.head?_map, hhead]
    rfl
  simp only [flushRelease, hfront, getLast?_encodeEntries hlast, hfirst,
    hupper, Option.bind_eq_bind, Option.bind_some, ofNat_headerSize,
    flushEntriesRelease_encodeEntries hfits]
  rfl

/-- What the two builds return on increasing entries. -/
theorem Build.flush_encodeEntries (build : Build) (iter : IterOrder)
    (dataSize : UInt32) {first last : Bytes × Bytes}
    {entries : List (Bytes × Bytes)}
    (hhead : entries.head? = some first) (hlast : entries.getLast? = some last)
    (hinc : Increasing entries) (hfits : ∀ entry ∈ entries, Fits entry) :
    build.flush iter (encodeEntries entries) dataSize =
      if build = .debug ∧ first.1 < flushPrev then none
      else
        some (layout first.1 last.1
            (UInt32.ofNat (headerSize first.1 last.1) + dataSize) entries
            (iter.order (offsetTable first.1 last.1 entries).entries),
          offsetTable first.1 last.1 entries) := by
  cases build with
  | debug =>
      simpa [Build.flush] using SimpleKV.flush_encodeEntries iter dataSize
        hhead hlast hinc hfits
  | release =>
      simpa [Build.flush] using flushRelease_encodeEntries iter dataSize hhead
        hlast hfits

theorem flushEntriesRelease_of_flushEntries {content : List Bytes}
    {prev : Bytes} {offset : UInt32} {keyOffset : KeyOffset}
    {result : Bytes × KeyOffset}
    (h : flushEntries content prev offset keyOffset = some result) :
    flushEntriesRelease content offset keyOffset = some result := by
  induction content generalizing prev offset keyOffset result with
  | nil => exact h
  | cons entry content ih =>
      simp only [flushEntries, Option.bind_eq_bind,
        Option.bind_eq_some_iff] at h
      obtain ⟨key, hkey, h⟩ := h
      split_ifs at h
      obtain ⟨rest, hrest, h⟩ := Option.bind_eq_some_iff.mp h
      simp only [flushEntriesRelease, hkey, ih hrest, Option.bind_eq_bind,
        Option.bind_some]
      exact h

/-- Where the assertion holds the builds agree. -/
theorem flushRelease_of_flush {iter : IterOrder} {content : List Bytes}
    {dataSize : UInt32} {result : Bytes × KeyOffset}
    (h : flush iter content dataSize = some result) :
    flushRelease iter content dataSize = some result := by
  simp only [flush, Option.bind_eq_bind, Option.bind_eq_some_iff] at h
  obtain ⟨lower, hlower, upper, hupper, lowerBytes, hlowerBytes, upperBytes,
    hupperBytes, written, hwritten, h⟩ := h
  simp only [flushRelease, hlower, hupper, hlowerBytes, hupperBytes,
    flushEntriesRelease_of_flushEntries hwritten, Option.bind_eq_bind,
    Option.bind_some]
  exact h

/-! ### The readers on a laid out file -/

/-- The constructor recovers the bounds from the header alone. -/
theorem File.ofName_layout {name : Name} {levelId : Nat} {fileId : Int}
    (hname : parseFileName name = some (levelId, fileId))
    {lower upper : Bytes} (hlower : lower.length < 2 ^ 32)
    (hupper : upper.length < 2 ^ 32) (indexOffset : UInt32)
    (entries : List (Bytes × Bytes)) (index : List KeyOffsetItem) :
    File.ofName name (layout lower upper indexOffset entries index) =
      some
        { levelId, fileId,
          fileSize := UInt32.ofNat
            (layout lower upper indexOffset entries index).length,
          fileName := name, lowerBound := lower, upperBound := upper,
          mmap := layout lower upper indexOffset entries index } := by
  have hshape : layout lower upper indexOffset entries index =
      encodeString lower ++ (encodeString upper ++ (encodeFixed32 indexOffset ++
        dataBytes entries ++ index.flatMap indexItem)) := by
    simp [layout]
  simp only [File.ofName, hname, Option.bind_eq_bind, Option.bind_some]
  rw [hshape]
  simp only [getVarint32_encodeString, drop_encodeString_prefix,
    Option.bind_some, toNat_ofNat_length hlower, toNat_ofNat_length hupper,
    readBytes_append, List.drop_left]

/-- One `ExtractEntry` at the start of an encoded entry. -/
theorem extractEntry_of_drop {file : File} {p : Nat} (index : Nat)
    {entry : Bytes × Bytes} {rest : Bytes} (hfits : Fits entry)
    (hdrop : file.mmap.drop p = encodeEntry entry.1 entry.2 ++ rest) :
    extractEntry file p index =
      some ({ key := entry.1, levelId := file.levelId, fileId := file.fileId,
              index, isDelete := decide (entry.2 = tombValue),
              data := encodeEntry entry.1 entry.2 },
        p + (encodeEntry entry.1 entry.2).length) := by
  obtain ⟨_, hkey, hvalue⟩ := hfits.bounds
  have hkeyDrop : file.mmap.drop
      (p + (encodeVarint32 (UInt32.ofNat entry.1.length)).length) =
        entry.1 ++ (encodeString entry.2 ++ rest) := by
    rw [← List.drop_drop, hdrop, encodeEntry, List.append_assoc,
      drop_encodeString_prefix]
  have hvalueDrop : file.mmap.drop
      (p + (encodeVarint32 (UInt32.ofNat entry.1.length)).length +
        entry.1.length) = encodeString entry.2 ++ rest := by
    rw [← List.drop_drop, hkeyDrop, List.drop_left]
  have hbodyDrop : file.mmap.drop
      (p + (encodeVarint32 (UInt32.ofNat entry.1.length)).length +
        entry.1.length +
        (encodeVarint32 (UInt32.ofNat entry.2.length)).length) =
          entry.2 ++ rest := by
    rw [← List.drop_drop, hvalueDrop, drop_encodeString_prefix]
  have hfirst : getVarint32 (file.mmap.drop p) 5 =
      some ((encodeVarint32 (UInt32.ofNat entry.1.length)).length,
        UInt32.ofNat entry.1.length) := by
    rw [hdrop, encodeEntry, List.append_assoc, getVarint32_encodeString]
  have htotal : (UInt32.ofNat
        (encodeVarint32 (UInt32.ofNat entry.1.length)).length +
      UInt32.ofNat entry.1.length + (UInt32.ofNat
        (encodeVarint32 (UInt32.ofNat entry.2.length)).length +
      UInt32.ofNat entry.2.length)).toNat =
        (encodeEntry entry.1 entry.2).length := by
    rw [← UInt32.ofNat_add, ← UInt32.ofNat_add, ← UInt32.ofNat_add,
      ← length_encodeString, ← length_encodeString, ← length_encodeEntry,
      UInt32.toNat_ofNat', Nat.mod_eq_of_lt hfits]
  have hdata : readBytes (file.mmap.drop p)
      (encodeEntry entry.1 entry.2).length =
        some (encodeEntry entry.1 entry.2) := by
    rw [hdrop, readBytes_append]
  simp only [extractEntry, hfirst, Option.bind_eq_bind, Option.bind_some,
    toNat_ofNat_length hkey, hkeyDrop, readBytes_append, hvalueDrop,
    getVarint32_encodeString, hbodyDrop, toNat_ofNat_length hvalue, htotal,
    hdata]
  simp only [length_encodeEntry, length_encodeString, Nat.add_assoc]

/-- The tagged entry a scan of `file` yields for a key and value. -/
def File.entry (file : File) (index : Nat) (entry : Bytes × Bytes) : Entry where
  key := entry.1
  levelId := file.levelId
  fileId := file.fileId
  index := index
  isDelete := decide (entry.2 = tombValue)
  data := encodeEntry entry.1 entry.2

/-- A cursor on the data section yields the entries whose start lies before
the index offset. -/
theorem scanEntries_of_drop {file : File} (indexOffset : UInt32)
    {rest : Bytes} (entries : List (Bytes × Bytes))
    (hfits : ∀ entry ∈ entries, Fits entry) :
    ∀ (rounds p : Nat), file.mmap.drop p = dataBytes entries ++ rest →
      indexOffset.toNat ≤ p + (dataBytes entries).length →
      entries.length ≤ rounds →
      ∃ count, (∀ index, scanEntries file index indexOffset rounds p =
          some ((entries.take count).map (file.entry index))) ∧
        (indexOffset.toNat = p + (dataBytes entries).length →
          count = entries.length) := by
  induction entries with
  | nil =>
      intro rounds p _ hoffset _
      have hstop : ¬ p < indexOffset.toNat := by simpa using hoffset
      refine ⟨0, fun index => ?_, fun _ => rfl⟩
      cases rounds <;> simp [scanEntries, hstop]
  | cons entry entries ih =>
      intro rounds p hdrop hoffset hrounds
      obtain ⟨rounds, rfl⟩ := Nat.exists_eq_succ_of_ne_zero
        (Nat.ne_of_gt (Nat.lt_of_lt_of_le (Nat.zero_lt_succ _) hrounds))
      rw [dataBytes_cons, List.append_assoc] at hdrop
      simp only [dataBytes_cons, List.length_append] at hoffset ⊢
      by_cases hstop : p < indexOffset.toNat
      · have hnext : file.mmap.drop
            (p + (encodeEntry entry.1 entry.2).length) =
              dataBytes entries ++ rest := by
          rw [← List.drop_drop, hdrop, List.drop_left]
        obtain ⟨count, hscan, hexact⟩ := ih
          (fun other hother => hfits other (List.mem_cons_of_mem _ hother))
          rounds _ hnext (by omega) (by simpa using hrounds)
        refine ⟨count + 1, fun index => ?_, ?_⟩
        · simp only [scanEntries, if_pos hstop,
            extractEntry_of_drop index (hfits entry List.mem_cons_self) hdrop,
            Option.bind_eq_bind, Option.bind_some, hscan, List.take_succ_cons,
            List.map_cons]
          rfl
        · intro heq
          rw [hexact (by omega), List.length_cons]
      · refine ⟨0, by simp [scanEntries, hstop], ?_⟩
        intro heq
        have hpos := length_lt_length_encodeString entry.1
        rw [length_encodeEntry] at heq
        omega

/-- The header skip of the merge lands on the data section. -/
theorem openCursor_layout {file : File} {lower upper : Bytes}
    {indexOffset : UInt32} {entries : List (Bytes × Bytes)}
    {index : List KeyOffsetItem} (hbounds : Fits (lower, upper))
    (hmmap : file.mmap = layout lower upper indexOffset entries index)
    (cursor : Nat) :
    openCursor file cursor = some (headerSize lower upper, indexOffset) := by
  have hdrop : file.mmap.drop 0 = encodeEntry lower upper ++
      (encodeFixed32 indexOffset ++ (dataBytes entries ++
        index.flatMap indexItem)) := by
    rw [hmmap]
    simp [layout, encodeEntry]
  have hfixed : file.mmap.drop (encodeEntry lower upper).length =
      encodeFixed32 indexOffset ++ (dataBytes entries ++
        index.flatMap indexItem) := by
    have := congrArg (List.drop (encodeEntry lower upper).length) hdrop
    simpa using this
  have hskip := extractEntry_of_drop cursor hbounds hdrop
  simp only [Nat.zero_add] at hskip
  simp only [openCursor, hskip, Option.bind_eq_bind, Option.bind_some, if_true,
    hfixed, getFixed32_encodeFixed32]
  rw [headerSize, length_encodeEntry]

theorem drop_headerSize_layout (lower upper : Bytes) (indexOffset : UInt32)
    (entries : List (Bytes × Bytes)) (index : List KeyOffsetItem) :
    (layout lower upper indexOffset entries index).drop
      (headerSize lower upper) = dataBytes entries ++
        index.flatMap indexItem := by
  have hlength : headerSize lower upper = (encodeString lower ++
      encodeString upper ++ encodeFixed32 indexOffset).length := by
    simp [headerSize, encodeFixed32, Nat.add_assoc]
  rw [layout, List.append_assoc, hlength, List.drop_left]

/-- The index loop inserts the items in file order and stops at the end. -/
theorem loadIndex_of_drop {buf : Bytes} (items : List KeyOffsetItem)
    (hitems : ∀ item ∈ items, item.1.length < 2 ^ 32) :
    ∀ (rounds p : Nat) (keyOffset : KeyOffset),
      p + (items.flatMap indexItem).length = buf.length →
      buf.drop p = items.flatMap indexItem → items.length ≤ rounds →
      loadIndex buf buf.length rounds p keyOffset =
        some (items.foldl (fun table item => table.insert item.1 item.2)
          keyOffset, buf.length) := by
  induction items with
  | nil =>
      intro rounds p keyOffset hend _ _
      have hp : p = buf.length := by simpa using hend
      subst hp
      cases rounds <;> simp [loadIndex]
  | cons item items ih =>
      intro rounds p keyOffset hend hdrop hrounds
      obtain ⟨rounds, rfl⟩ := Nat.exists_eq_succ_of_ne_zero
        (Nat.ne_of_gt (Nat.lt_of_lt_of_le (Nat.zero_lt_succ _) hrounds))
      have hkey := hitems item List.mem_cons_self
      simp only [List.flatMap_cons, indexItem, List.append_assoc] at hdrop
      simp only [List.flatMap_cons, indexItem, List.length_append] at hend
      have hpos := length_lt_length_encodeString item.1
      have hmore : p < buf.length := by omega
      have hfirst : getVarint32 (buf.drop p) 5 =
          some ((encodeVarint32 (UInt32.ofNat item.1.length)).length,
            UInt32.ofNat item.1.length) := by
        rw [hdrop, getVarint32_encodeString]
      have hkeyDrop : buf.drop
          (p + (encodeVarint32 (UInt32.ofNat item.1.length)).length) =
            item.1 ++ (encodeVarint32 item.2 ++ items.flatMap indexItem) := by
        rw [← List.drop_drop, hdrop, drop_encodeString_prefix]
      have hoffsetDrop : buf.drop
          (p + (encodeVarint32 (UInt32.ofNat item.1.length)).length +
            item.1.length) =
            encodeVarint32 item.2 ++ items.flatMap indexItem := by
        rw [← List.drop_drop, hkeyDrop, List.drop_left]
      have hoffset : getVarint32
          (encodeVarint32 item.2 ++ items.flatMap indexItem) 5 =
            some ((encodeVarint32 item.2).length, item.2) :=
        getVarint32_encodeVarint32 _ _ (length_encodeVarint32_le _).2
      have hnext : buf.drop
          (p + (encodeVarint32 (UInt32.ofNat item.1.length)).length +
            item.1.length + (encodeVarint32 item.2).length) =
            items.flatMap indexItem := by
        rw [← List.drop_drop, hoffsetDrop, List.drop_left]
      rw [length_encodeString] at hend
      have hrest := ih
        (fun other hother => hitems other (List.mem_cons_of_mem _ hother))
        rounds _ (keyOffset.insert item.1 item.2) (by omega) hnext
        (by simpa using hrounds)
      simp only [loadIndex, if_pos hmore, hfirst, Option.bind_eq_bind,
        Option.bind_some, toNat_ofNat_length hkey, hkeyDrop, readBytes_append,
        hoffsetDrop, hoffset, hrest, List.foldl_cons]

theorem length_le_length_flatMap_indexItem (items : List KeyOffsetItem) :
    items.length ≤ (items.flatMap indexItem).length := by
  induction items with
  | nil => simp
  | cons item items ih =>
      have hpos := length_lt_length_encodeString item.1
      simp only [List.length_cons, List.flatMap_cons, indexItem,
        List.length_append] at ih ⊢
      omega

theorem layout_length (lower upper : Bytes) (indexOffset : UInt32)
    (entries : List (Bytes × Bytes)) (index : List KeyOffsetItem) :
    (layout lower upper indexOffset entries index).length =
      headerSize lower upper + (dataBytes entries).length +
        (index.flatMap indexItem).length := by
  simp only [layout, headerSize, encodeFixed32, List.length_append,
    List.length_cons, List.length_nil]

/-- `LoadKeyOffset` on a file below 2^32 bytes. -/
theorem loadKeyOffsetAt_layout {file : File} {lower upper : Bytes}
    {indexOffset : UInt32} {entries : List (Bytes × Bytes)}
    {index : List KeyOffsetItem}
    (hmmap : file.mmap = layout lower upper indexOffset entries index)
    (hsize : file.fileSize = UInt32.ofNat file.mmap.length)
    (hsmall : file.mmap.length < 2 ^ 32)
    (hindex : indexOffset.toNat =
      headerSize lower upper + (dataBytes entries).length)
    (hitems : ∀ item ∈ index, item.1.length < 2 ^ 32) :
    loadKeyOffsetAt file =
      some (index.foldl (fun table item => table.insert item.1 item.2) ∅,
        file.mmap.length) := by
  have hlength := layout_length lower upper indexOffset entries index
  have hshape : file.mmap = encodeString lower ++ (encodeString upper ++
      (encodeFixed32 indexOffset ++ (dataBytes entries ++
        index.flatMap indexItem))) := by
    rw [hmmap]
    simp [layout]
  have htotal : file.fileSize.toNat = file.mmap.length := by
    rw [hsize, UInt32.toNat_ofNat', Nat.mod_eq_of_lt hsmall]
  rw [← hmmap] at hlength
  have hlower : (encodeString lower).length < 2 ^ 32 := by
    rw [headerSize] at hlength
    omega
  have hupper : (encodeString upper).length < 2 ^ 32 := by
    rw [headerSize] at hlength
    omega
  have hupperDrop : file.mmap.drop (encodeString lower).length =
      encodeString upper ++ (encodeFixed32 indexOffset ++
        (dataBytes entries ++ index.flatMap indexItem)) := by
    rw [hshape, List.drop_left]
  have hfixedDrop : file.mmap.drop
      ((encodeString lower).length + (encodeString upper).length) =
        encodeFixed32 indexOffset ++
          (dataBytes entries ++ index.flatMap indexItem) := by
    rw [← List.drop_drop, hupperDrop, List.drop_left]
  have hindexDrop : file.mmap.drop indexOffset.toNat =
      index.flatMap indexItem := by
    rw [hindex, ← List.drop_drop, hmmap, drop_headerSize_layout,
      List.drop_left]
  have hfirst : getVarint32 file.mmap 5 =
      some ((encodeVarint32 (UInt32.ofNat lower.length)).length,
        UInt32.ofNat lower.length) := by
    rw [hshape, getVarint32_encodeString]
  have hrounds := length_le_length_flatMap_indexItem index
  have hloop := loadIndex_of_drop index hitems file.mmap.length
    indexOffset.toNat ∅ (by omega) hindexDrop (by omega)
  simp only [loadKeyOffsetAt, hfirst, Option.bind_eq_bind, Option.bind_some,
    toNat_prefix_add_size hlower, hupperDrop, getVarint32_encodeString,
    toNat_prefix_add_size hupper, hfixedDrop, getFixed32_encodeFixed32,
    htotal, hloop]

theorem mem_recordOffsets {entries : List (Bytes × Bytes)} {offset : UInt32}
    {keyOffset : KeyOffset} {key : Bytes} :
    key ∈ recordOffsets entries offset keyOffset ↔
      key ∈ entries.map Prod.fst ∨ key ∈ keyOffset := by
  induction entries generalizing offset keyOffset with
  | nil => simp [recordOffsets]
  | cons entry entries ih =>
      rw [recordOffsets, ih, AList.mem_insert, List.map_cons, List.mem_cons]
      tauto

theorem lookup_recordOffsets_of_notMem {entries : List (Bytes × Bytes)}
    {offset : UInt32} {keyOffset : KeyOffset} {key : Bytes}
    (hkey : key ∉ entries.map Prod.fst) :
    (recordOffsets entries offset keyOffset).lookup key =
      keyOffset.lookup key := by
  induction entries generalizing offset keyOffset with
  | nil => rfl
  | cons entry entries ih =>
      rw [List.map_cons, List.mem_cons, not_or] at hkey
      rw [recordOffsets, ih hkey.2, AList.lookup_insert_ne hkey.1]

/-- The recorded offset of an entry is where its bytes start. -/
theorem lookup_recordOffsets_append {pre post : List (Bytes × Bytes)}
    {key value : Bytes} (hkey : key ∉ post.map Prod.fst) (offset : UInt32)
    (keyOffset : KeyOffset) :
    (recordOffsets (pre ++ (key, value) :: post) offset keyOffset).lookup key =
      some (offset + UInt32.ofNat (dataBytes pre).length) := by
  induction pre generalizing offset keyOffset with
  | nil =>
      rw [List.nil_append, recordOffsets, lookup_recordOffsets_of_notMem hkey,
        AList.lookup_insert]
      simp
  | cons entry pre ih =>
      rw [List.cons_append, recordOffsets, ih, dataBytes_cons,
        List.length_append, UInt32.ofNat_add, ← UInt32.add_assoc]

/-- Loading an index rebuilds the table it was written from. -/
theorem lookup_foldl_insert (items : List KeyOffsetItem)
    (hnodup : items.NodupKeys) (table : KeyOffset) (key : Bytes) :
    (items.foldl (fun table item => table.insert item.1 item.2) table).lookup
      key = (items.dlookup key).or (table.lookup key) := by
  induction items generalizing table with
  | nil => simp
  | cons item items ih =>
      obtain ⟨name, offset⟩ := item
      have hrest := List.nodupKeys_cons.mp hnodup
      rw [List.foldl_cons, ih hrest.2]
      by_cases hkey : key = name
      · subst hkey
        have hnone : items.dlookup key = none :=
          List.dlookup_eq_none.mpr hrest.1
        rw [hnone, AList.lookup_insert, List.dlookup_cons_eq]
        rfl
      · rw [AList.lookup_insert_ne hkey, List.dlookup_cons_ne _ _ hkey]

theorem lookup_foldl_insert_order (iter : IterOrder) (table : KeyOffset)
    (key : Bytes) :
    ((iter.order table.entries).foldl
      (fun table item => table.insert item.1 item.2) ∅ : KeyOffset).lookup key =
        table.lookup key := by
  have hperm := iter.perm table.entries
  have hnodup : (iter.order table.entries).NodupKeys :=
    (List.perm_nodupKeys hperm).mpr table.nodupKeys
  rw [lookup_foldl_insert _ hnodup, AList.lookup_empty, Option.or_none,
    List.perm_dlookup key hnodup hperm]
  rfl

/-! ### Files and the entries they hold -/

/-- `file` is a file that `Flush` wrote for `entries`, opened by the `File`
constructor.  Files of 2^32 bytes or more are allowed; only the readers that
depend on 32-bit offsets ask for less. -/
structure File.Holds (file : File) (entries : List (Bytes × Bytes)) : Prop where
  increasing : Increasing entries
  fits : ∀ entry ∈ entries, Fits entry
  lower : entries.head?.map Prod.fst = some file.lowerBound
  upper : entries.getLast?.map Prod.fst = some file.upperBound
  bounds_fit : Fits (file.lowerBound, file.upperBound)
  size : file.fileSize = UInt32.ofNat file.mmap.length
  bytes : ∃ iter : IterOrder, file.mmap =
    layout file.lowerBound file.upperBound
      (UInt32.ofNat (headerSize file.lowerBound file.upperBound +
        (dataBytes entries).length)) entries
      (iter.order
        (offsetTable file.lowerBound file.upperBound entries).entries)

/-- Size of a file below which no 32-bit offset wraps. -/
def File.Small (file : File) : Prop :=
  file.mmap.length < 2 ^ 32

namespace File.Holds

variable {file : File} {entries : List (Bytes × Bytes)}

theorem length_mmap_ge (h : file.Holds entries) :
    headerSize file.lowerBound file.upperBound +
      (dataBytes entries).length ≤ file.mmap.length := by
  obtain ⟨iter, hbytes⟩ := h.bytes
  rw [hbytes, layout_length]
  exact Nat.le_add_right _ _

theorem lower_le (h : file.Holds entries) :
    ∀ entry ∈ entries, file.lowerBound ≤ entry.1 := by
  obtain ⟨hinc, _, hlower⟩ := h
  cases entries with
  | nil => simp at hlower
  | cons head rest =>
      intro entry hentry
      simp only [List.head?_cons, Option.map_some, Option.some.injEq] at hlower
      rw [← hlower]
      rcases List.mem_cons.mp hentry with rfl | hentry
      · exact le_refl _
      · exact (hinc.head_lt entry hentry).le

theorem le_upper (h : file.Holds entries) :
    ∀ entry ∈ entries, entry.1 ≤ file.upperBound := by
  intro entry hentry
  have hupper := h.upper
  rw [Option.map_eq_some_iff] at hupper
  obtain ⟨last, hlast, hbound⟩ := hupper
  obtain ⟨init, rfl⟩ : ∃ init, entries = init ++ [last] :=
    List.getLast?_eq_some_iff.mp hlast
  rw [← hbound]
  rcases List.mem_append.mp hentry with hinit | hend
  · exact ((List.pairwise_append.mp h.increasing).2.2 entry hinit last
      (List.mem_singleton.mpr rfl)).le
  · rw [List.mem_singleton.mp hend]

theorem lowerBound_mem (h : file.Holds entries) :
    file.lowerBound ∈ entries.map Prod.fst := by
  have hlower := h.lower
  rw [Option.map_eq_some_iff] at hlower
  obtain ⟨first, hfirst, hbound⟩ := hlower
  exact hbound ▸ List.mem_map_of_mem (List.mem_of_mem_head? hfirst)

theorem upperBound_mem (h : file.Holds entries) :
    file.upperBound ∈ entries.map Prod.fst := by
  have hupper := h.upper
  rw [Option.map_eq_some_iff] at hupper
  obtain ⟨last, hlast, hbound⟩ := hupper
  exact hbound ▸ List.mem_map_of_mem (List.mem_of_getLast? hlast)

/-- The merge reads a prefix of the entries, all of them when the index offset
did not wrap. -/
theorem scanFile (h : file.Holds entries) :
    ∃ count, (∀ index, SimpleKV.scanFile file index =
        some ((entries.take count).map (file.entry index))) ∧
      (headerSize file.lowerBound file.upperBound +
        (dataBytes entries).length < 2 ^ 32 → count = entries.length) := by
  have hlength := h.length_mmap_ge
  obtain ⟨iter, hbytes⟩ := h.bytes
  have hdrop := drop_headerSize_layout file.lowerBound file.upperBound
    (UInt32.ofNat (headerSize file.lowerBound file.upperBound +
      (dataBytes entries).length)) entries (iter.order
        (offsetTable file.lowerBound file.upperBound entries).entries)
  rw [← hbytes] at hdrop
  have hcount : entries.length ≤ (dataBytes entries).length := by
    clear h hbytes hdrop hlength
    induction entries with
    | nil => simp
    | cons entry entries ih =>
        have hpos := length_lt_length_encodeString entry.1
        rw [dataBytes_cons, List.length_append, length_encodeEntry,
          List.length_cons]
        omega
  obtain ⟨count, hscan, hexact⟩ := scanEntries_of_drop
    (UInt32.ofNat (headerSize file.lowerBound file.upperBound +
      (dataBytes entries).length)) entries h.fits file.mmap.length _ hdrop
    (by rw [UInt32.toNat_ofNat']; exact Nat.mod_le _ _) (by omega)
  refine ⟨count, fun index => ?_, ?_⟩
  · simp only [SimpleKV.scanFile, openCursor_layout h.bounds_fit hbytes index,
      Option.bind_eq_bind, Option.bind_some, hscan]
  · intro hsmall
    apply hexact
    rw [UInt32.toNat_ofNat', Nat.mod_eq_of_lt hsmall]

/-- `LoadKeyOffset` ends at the end of the file with the table of `Flush`. -/
theorem loadKeyOffsetAt (h : file.Holds entries) (hsmall : file.Small) :
    ∃ table, SimpleKV.loadKeyOffsetAt file = some (table, file.mmap.length) ∧
      ∀ key, table.lookup key =
        (offsetTable file.lowerBound file.upperBound entries).lookup key := by
  have hlength := h.length_mmap_ge
  obtain ⟨iter, hbytes⟩ := h.bytes
  have hitems : ∀ item ∈ iter.order
      (offsetTable file.lowerBound file.upperBound entries).entries,
      item.1.length < 2 ^ 32 := by
    intro item hitem
    have hmem : item.1 ∈
        offsetTable file.lowerBound file.upperBound entries :=
      List.mem_map_of_mem ((iter.perm _).mem_iff.mp hitem)
    rw [offsetTable, mem_recordOffsets] at hmem
    rcases hmem with hmem | hmem
    · obtain ⟨entry, hentry, hkey⟩ := List.mem_map.mp hmem
      exact hkey ▸ (h.fits entry hentry).bounds.2.1
    · exact absurd hmem (AList.notMem_empty _)
  refine ⟨_, loadKeyOffsetAt_layout hbytes h.size hsmall ?_ hitems,
    lookup_foldl_insert_order iter _⟩
  rw [UInt32.toNat_ofNat', Nat.mod_eq_of_lt
    (Nat.lt_of_le_of_lt hlength hsmall)]

theorem lookup_offsetTable_eq_none {key : Bytes}
    (hkey : find key entries = none) (lower upper : Bytes) :
    (offsetTable lower upper entries).lookup key = none := by
  rw [offsetTable, lookup_recordOffsets_of_notMem (find_eq_none_iff.mp hkey),
    AList.lookup_empty]

/-- A recorded offset is never 0 and `GetValueByOffset` finds the value
there. -/
theorem getValueByOffset (h : file.Holds entries) (hsmall : file.Small)
    {key value : Bytes} (hmem : (key, value) ∈ entries) :
    ∃ offset, (offsetTable file.lowerBound file.upperBound entries).lookup
        key = some offset ∧ offset ≠ 0 ∧
      SimpleKV.getValueByOffset file offset = some value := by
  have hlength := h.length_mmap_ge
  obtain ⟨iter, hbytes⟩ := h.bytes
  obtain ⟨pre, post, rfl⟩ := List.append_of_mem hmem
  have hpost : key ∉ post.map Prod.fst := by
    have hnodup := h.increasing.nodup_keys
    rw [List.map_append, List.map_cons, List.nodup_append] at hnodup
    exact (List.nodup_cons.mp hnodup.2.1).1
  have hfits := h.fits (key, value) (by simp)
  simp only [dataBytes_append, List.length_append] at hlength
  have hoffset : (UInt32.ofNat (headerSize file.lowerBound file.upperBound) +
      UInt32.ofNat (dataBytes pre).length).toNat =
        headerSize file.lowerBound file.upperBound +
          (dataBytes pre).length := by
    rw [← UInt32.ofNat_add, UInt32.toNat_ofNat', Nat.mod_eq_of_lt]
    have : file.mmap.length < 2 ^ 32 := hsmall
    omega
  refine ⟨_, lookup_recordOffsets_append hpost _ _, ?_, ?_⟩
  · intro hzero
    rw [hzero, headerSize] at hoffset
    simp at hoffset
    omega
  · rw [SimpleKV.getValueByOffset, hoffset, ← List.drop_drop, hbytes,
      drop_headerSize_layout, dataBytes_append, List.append_assoc,
      List.drop_left, dataBytes_cons, List.append_assoc]
    exact extractUserValue_encodeEntry _ hfits.bounds.1 hfits.bounds.2.2

end File.Holds

/-- Opening what `Flush` wrote gives a file that holds the entries, with the
table `Flush` filled. -/
theorem File.exists_holds_of_flush (build : Build) (iter : IterOrder)
    {entries : List (Bytes × Bytes)} (hinc : Increasing entries)
    (hfits : ∀ entry ∈ entries, Fits entry)
    (hbounds : ∀ first last, entries.head? = some first →
      entries.getLast? = some last → Fits (first.1, last.1))
    {bytes : Bytes} {keyOffset : KeyOffset}
    (hflush : build.flush iter (encodeEntries entries)
      (UInt32.ofNat (dataBytes entries).length) = some (bytes, keyOffset))
    {name : Name} {levelId : Nat} {fileId : Int}
    (hname : parseFileName name = some (levelId, fileId)) :
    ∃ file, File.ofName name bytes = some file ∧ file.Holds entries ∧
      file.levelId = levelId ∧ file.fileId = fileId ∧ file.fileName = name ∧
      file.mmap = bytes ∧
      keyOffset = offsetTable file.lowerBound file.upperBound entries := by
  have hne : entries ≠ [] := by
    rintro rfl
    cases build <;> simp [Build.flush, flush, flushRelease, encodeEntries]
      at hflush
  obtain ⟨first, rest, hcons⟩ := List.exists_cons_of_ne_nil hne
  have hhead : entries.head? = some first := by simp [hcons]
  have hlast : entries.getLast? = some (entries.getLast hne) :=
    List.getLast?_eq_some_getLast hne
  have hboth := hbounds _ _ hhead hlast
  have hlower := (hfits first (List.mem_of_mem_head? hhead)).bounds.2.1
  have hupper := (hfits _ (List.mem_of_getLast? hlast)).bounds.2.1
  rw [build.flush_encodeEntries iter _ hhead hlast hinc hfits] at hflush
  split_ifs at hflush
  rw [Option.some.injEq, Prod.mk.injEq] at hflush
  obtain ⟨rfl, rfl⟩ := hflush
  refine ⟨_, File.ofName_layout hname hlower hupper _ _ _, ?_, rfl, rfl, rfl,
    rfl, rfl⟩
  refine ⟨hinc, hfits, by simp [hhead], by simp [hlast], hboth, rfl, iter, ?_⟩
  rw [UInt32.ofNat_add]

/-- Round trip of the file format.  For every non-empty list of entries with
increasing keys whose file stays below 2^32 bytes, and every iteration order of
the table, all readers agree with the writer: the constructor on the bounds,
`LoadKeyOffset` on the table and on where the file ends, `GetValueByOffset` on
every value, and the scan of the merge on the entries and their bytes. -/
theorem flush_round_trip (iter : IterOrder) (dataSize : UInt32)
    (entries : List (Bytes × Bytes)) (hne : entries ≠ [])
    (hinc : Increasing entries)
    (hfirst : ∀ entry ∈ entries.head?, flushPrev ≤ entry.1)
    (hdata : dataSize.toNat =
      ((encodeEntries entries).map List.length).sum)
    (hfile : ∀ result, flush iter (encodeEntries entries) dataSize =
      some result → result.1.length < 2 ^ 32) :
    ∃ bytes keyOffset,
      flush iter (encodeEntries entries) dataSize = some (bytes, keyOffset) ∧
      (∀ key, key ∈ keyOffset ↔ key ∈ entries.map Prod.fst) ∧
      (∀ key, keyOffset.lookup key ≠ some 0) ∧
      ∀ name levelId fileId,
        parseFileName name = some (levelId, fileId) →
        ∃ file, File.ofName name bytes = some file ∧
          entries.head?.map Prod.fst = some file.lowerBound ∧
          entries.getLast?.map Prod.fst = some file.upperBound ∧
          file.fileSize.toNat = bytes.length ∧
          (∃ table, loadKeyOffsetAt file = some (table, bytes.length) ∧
            ∀ key, table.lookup key = keyOffset.lookup key) ∧
          (∀ entry ∈ entries, ∃ offset,
            keyOffset.lookup entry.1 = some offset ∧
              getValueByOffset file offset = some entry.2) ∧
          ∀ index, scanFile file index =
            some (entries.map (file.entry index)) := by
  have hsum : dataSize.toNat = (dataBytes entries).length := by
    rw [hdata, dataBytes, List.length_flatten]
  have hsize : dataSize = UInt32.ofNat (dataBytes entries).length := by
    rw [← hsum, UInt32.ofNat_toNat]
  have hfits : ∀ entry ∈ entries, Fits entry := by
    intro entry hentry
    have hle : (encodeEntry entry.1 entry.2).length ≤
        ((encodeEntries entries).map List.length).sum := by
      apply List.le_sum_of_mem
      exact List.mem_map_of_mem (List.mem_map_of_mem hentry)
    have hlt := dataSize.toNat_lt
    rw [Fits]
    omega
  obtain ⟨first, rest, hcons⟩ := List.exists_cons_of_ne_nil hne
  have hhead : entries.head? = some first := by simp [hcons]
  have hlast : entries.getLast? = some (entries.getLast hne) :=
    List.getLast?_eq_some_getLast hne
  have hlow : ¬ first.1 < flushPrev := not_lt.mpr (hfirst first hhead)
  have hflush := flush_encodeEntries iter dataSize hhead hlast hinc hfits
  rw [if_neg hlow] at hflush
  have hbounds : ∀ a b, entries.head? = some a → entries.getLast? = some b →
      Fits (a.1, b.1) := by
    intro a b ha hb
    have hsmall := hfile _ hflush
    rw [hhead, Option.some.injEq] at ha
    rw [hlast, Option.some.injEq] at hb
    subst ha hb
    simp only [layout_length, headerSize] at hsmall
    simp only [Fits, length_encodeEntry]
    omega
  generalize layout first.1 (entries.getLast hne).1
    (UInt32.ofNat (headerSize first.1 (entries.getLast hne).1) + dataSize)
    entries (iter.order (offsetTable first.1 (entries.getLast hne).1
      entries).entries) = bytes at hflush
  -- The same file, opened under any name that parses.
  have hopen (name : Name) (levelId : Nat) (fileId : Int)
      (hname : parseFileName name = some (levelId, fileId)) :
      ∃ file, File.ofName name bytes = some file ∧ file.Holds entries ∧
        file.Small ∧ file.mmap = bytes ∧
        offsetTable first.1 (entries.getLast hne).1 entries =
          offsetTable file.lowerBound file.upperBound entries := by
    obtain ⟨file, hofName, hholds, _, _, _, hmmap, htable⟩ :=
      File.exists_holds_of_flush .debug iter hinc hfits hbounds
        (hsize ▸ hflush) hname
    have hsmall : file.Small := by
      rw [File.Small, hmmap]
      exact hfile _ hflush
    exact ⟨file, hofName, hholds, hsmall, hmmap, htable⟩
  refine ⟨_, _, hflush, ?_, ?_, ?_⟩
  · intro key
    simp [offsetTable, mem_recordOffsets]
  · intro key hzero
    obtain ⟨file, _, hholds, hsmall, _, htable⟩ := hopen _ 0 0
      (parseFileName_fileName (by decide) (by decide) (by decide))
    cases hfind : find key entries with
    | none =>
        rw [File.Holds.lookup_offsetTable_eq_none hfind] at hzero
        exact absurd hzero (by simp)
    | some value =>
        obtain ⟨offset, hlookup, hoffset, _⟩ :=
          hholds.getValueByOffset hsmall (mem_of_find_eq_some hfind)
        rw [htable, hlookup, Option.some.injEq] at hzero
        exact hoffset hzero
  · intro name levelId fileId hname
    obtain ⟨file, hofName, hholds, hsmall, hmmap, htable⟩ :=
      hopen name levelId fileId hname
    refine ⟨file, hofName, hholds.lower, hholds.upper, ?_, ?_, ?_, ?_⟩
    · rw [hholds.size, UInt32.toNat_ofNat', Nat.mod_eq_of_lt hsmall, hmmap]
    · obtain ⟨table, hload, hlookup⟩ := hholds.loadKeyOffsetAt hsmall
      exact ⟨table, by rw [hload, hmmap], by simpa [htable] using hlookup⟩
    · intro entry hentry
      obtain ⟨offset, hlookup, _, hvalue⟩ :=
        hholds.getValueByOffset hsmall hentry
      exact ⟨offset, by rw [htable]; exact hlookup, hvalue⟩
    · intro index
      obtain ⟨count, hscan, hcount⟩ := hholds.scanFile
      rw [hscan, hcount (hholds.length_mmap_ge.trans_lt hsmall),
        List.take_length]

/-- Two entries, one of them a tombstone, written and read back. -/
theorem flush_round_trip_two_entries :
    ∃ bytes keyOffset,
      flush .inOrder
          (encodeEntries [([107, 49], [118]), ([107, 50], tombValue)]) 25 =
        some (bytes, keyOffset) ∧
      ∃ file, File.ofName (fileName 0 7) bytes = some file ∧
        scanFile file 0 = some ([([107, 49], [118]), ([107, 50], tombValue)].map
          (file.entry 0)) := by
  obtain ⟨bytes, keyOffset, hflush, _, _, hopen⟩ := flush_round_trip
    .inOrder 25
    [([107, 49], [118]), ([107, 50], tombValue)] (by decide)
    (by unfold Increasing; decide) (by decide +kernel) (by decide +kernel)
    (by decide +kernel)
  obtain ⟨file, hfile, _, _, _, _, _, hscan⟩ := hopen (fileName 0 7) 0 7
    (parseFileName_fileName (by decide) (by decide) (by decide))
  exact ⟨bytes, keyOffset, hflush, file, hfile, hscan 0⟩

end SimpleKV
