/-
`StorageBuffer`: the income buffer that takes writes, the flush buffer that the
flush thread writes out, and the two flags that hand one to the other.
-/
import SimpleKV.FileFormat

namespace SimpleKV

open SortedAssoc

/-- The members of a `StorageBuffer`; the arenas only own the entries' bytes. -/
structure StorageBuffer where
  bufferSize : UInt32
  incomeSize : UInt32
  incomeBuffer : SkipList Bytes
  flushBuffer : Option (SkipList Bytes)
  flushThreadReady : Bool
  flushBufferReady : Bool
deriving DecidableEq

namespace StorageBuffer

/-- The constructor. -/
def new (bufferSize : UInt32) : StorageBuffer where
  bufferSize
  incomeSize := 0
  incomeBuffer := []
  flushBuffer := none
  flushThreadReady := false
  flushBufferReady := false

/-- `SwapBuffer`. -/
def swapBuffer (buffer : StorageBuffer) : StorageBuffer :=
  { buffer with
    incomeSize := 0
    flushBuffer := some buffer.incomeBuffer
    incomeBuffer := []
    flushBufferReady := true }

/-- `SetFlushThreadIdle`. -/
def setFlushThreadIdle (buffer : StorageBuffer) : StorageBuffer :=
  { buffer with flushThreadReady := true }

/-- `SetFlushThreadBusy`. -/
def setFlushThreadBusy (buffer : StorageBuffer) : StorageBuffer :=
  { buffer with flushThreadReady := false }

/-- `encoded_len` of `Add`. -/
def encodedLen (key value : ByteArray) : UInt32 :=
  UInt32.ofNat (varintLength key.size.toUInt64) + key.size +
    UInt32.ofNat (varintLength value.size.toUInt64) + value.size

/-- The test after the insertion in `Add`. -/
def swaps (buffer : StorageBuffer) : Bool :=
  decide (buffer.bufferSize < buffer.incomeSize) && buffer.flushThreadReady

/-- The body of `Add` up to the swap test: the entry goes to the income
buffer. -/
def insert (key value : ByteArray) (buffer : StorageBuffer) : StorageBuffer :=
  { buffer with
    incomeBuffer := SkipList.insert comparator
      (encodeEntry key.data value.data) buffer.incomeBuffer
    incomeSize := buffer.incomeSize + encodedLen key value }

/-- `StorageBuffer::Add` up to its `Notify`, and whether it will notify.
`none` is a failed assertion: `Allocate` wants a positive `int`, and the bytes
written must number `encoded_len`. -/
def add (key value : ByteArray) (buffer : StorageBuffer) :
    Option (StorageBuffer × Bool) :=
  if 0 < (encodedLen key value).toNat ∧
      (encodedLen key value).toNat < 2 ^ 31 ∧
      (encodeEntry key.data value.data).length =
        (encodedLen key value).toNat then
    if (buffer.insert key value).swaps then
      some ((buffer.insert key value).setFlushThreadBusy.swapBuffer, true)
    else some (buffer.insert key value, false)
  else none

/-- The loop of `FlushBuffer`: the entries of the list and `flush_size`. -/
def flushContent : SkipList Bytes → Option (List Bytes × UInt32)
  | [] => some ([], 0)
  | node :: list => do
      let size ← entrySize node
      let data ← readBytes node size.toNat
      let (content, flushSize) ← flushContent list
      some (data :: content, size + flushSize)

/-- `FlushBuffer`: the bytes of the file and the filled table; `none` when
`flush_buffer_` is null or an assertion fails. -/
def writeFlushBuffer (iter : IterOrder) (buffer : StorageBuffer) :
    Option (Bytes × KeyOffset) := do
  let list ← buffer.flushBuffer
  let (content, flushSize) ← flushContent list
  flush iter content flushSize

/-- `ClearFlushBuffer`. -/
def clearFlushBuffer (buffer : StorageBuffer) : StorageBuffer :=
  { buffer with flushBufferReady := false, flushBuffer := none }

/-- `StorageBuffer::Get`: `some value` is status 0, `none` status -1.  The outer
`none` is a probe whose `int encoded_len` is negative or wraps, on which
`new char[encoded_len]` throws or is too small. -/
def get (key : Bytes) (buffer : StorageBuffer) : Option (Option Bytes) :=
  if varintLength (UInt64.ofNat key.length) + key.length < 2 ^ 31 then
    match SkipList.seek comparator (encodeString key) buffer.incomeBuffer with
    | some entry => (extractUserValue entry).map some
    | none =>
        match buffer.flushBuffer with
        | none => some none
        | some list =>
            match SkipList.seek comparator (encodeString key) list with
            | some entry => (extractUserValue entry).map some
            | none => some none
  else none

end StorageBuffer

/-- `list` is the encoding of a sorted table of short entries. -/
structure Encodes (list : SkipList Bytes) (entries : List (Bytes × Bytes)) :
    Prop where
  nodes : list = encodeEntries entries
  increasing : Increasing entries
  short : ∀ entry ∈ entries, Short entry

theorem Encodes.nil : Encodes [] [] :=
  ⟨rfl, List.Pairwise.nil, fun entry hentry => absurd hentry (by simp)⟩

theorem Encodes.fits {list : SkipList Bytes} {entries : List (Bytes × Bytes)}
    (h : Encodes list entries) : ∀ entry ∈ entries, Fits entry :=
  fun entry hentry => (h.short entry hentry).fits

theorem Encodes.insert {list : SkipList Bytes}
    {entries : List (Bytes × Bytes)} (h : Encodes list entries)
    {key value : Bytes} (hentry : Short (key, value)) :
    Encodes (SkipList.insert comparator (encodeEntry key value) list)
      (upsert key value entries) where
  nodes := by rw [h.nodes, insert_encodeEntries h.short hentry]
  increasing := h.increasing.upsert key value
  short := by
    intro entry hmem
    rcases mem_upsert_imp hmem with rfl | hmem
    · exact hentry
    · exact h.short entry hmem

/-- The key and value of an encoded entry. -/
def decodeEntry (node : Bytes) : Option (Bytes × Bytes) := do
  let key ← extractUserKey node
  let value ← extractUserValue node
  some (key, value)

theorem decodeEntry_encodeEntry {entry : Bytes × Bytes} (hfits : Fits entry) :
    decodeEntry (encodeEntry entry.1 entry.2) = some entry := by
  have hkey : extractUserKey (encodeEntry entry.1 entry.2) = some entry.1 :=
    extractUserKey_encodeString _ hfits.bounds.2.1
  have hvalue := extractUserValue_encodeEntry [] hfits.bounds.1
    hfits.bounds.2.2
  rw [List.append_nil] at hvalue
  simp [decodeEntry, hkey, hvalue]

/-- The keys and values in a list of encoded entries. -/
def SkipList.entries (list : SkipList Bytes) : List (Bytes × Bytes) :=
  list.filterMap decodeEntry

theorem Encodes.entries_eq {list : SkipList Bytes}
    {entries : List (Bytes × Bytes)} (h : Encodes list entries) :
    list.entries = entries := by
  have hfits := h.fits
  rw [h.nodes]
  clear h
  induction entries with
  | nil => rfl
  | cons entry entries ih =>
      rw [encodeEntries, List.map_cons, SkipList.entries,
        List.filterMap_cons_some
          (decodeEntry_encodeEntry (hfits entry List.mem_cons_self))]
      exact congrArg (entry :: ·) (ih fun other hother =>
        hfits other (List.mem_cons_of_mem _ hother))

/-- A list that `Add` built. -/
def SkipList.Built (list : SkipList Bytes) : Prop :=
  Encodes list list.entries

theorem Encodes.built {list : SkipList Bytes} {entries : List (Bytes × Bytes)}
    (h : Encodes list entries) : list.Built := by
  rw [SkipList.Built, h.entries_eq]
  exact h

/-- Looking a key up in an encoded table. -/
theorem Encodes.seek {list : SkipList Bytes} {entries : List (Bytes × Bytes)}
    (h : Encodes list entries) {key : Bytes} (hkey : key.length < 2 ^ 32) :
    (SkipList.seek comparator (encodeString key) list).map
        extractUserValue = (find key entries).map some := by
  rw [h.nodes, seek_encodeEntries h.increasing h.short hkey, Option.map_map]
  cases hfind : find key entries with
  | none => rfl
  | some value =>
      have hfits := h.fits _ (mem_of_find_eq_some hfind)
      have hvalue := extractUserValue_encodeEntry [] hfits.bounds.1
        hfits.bounds.2.2
      simpa using hvalue

namespace StorageBuffer

/-- A probe that `StorageBuffer::Get` can allocate. -/
def ProbeFits (key : Bytes) : Prop :=
  (encodeString key).length < 2 ^ 31

theorem probe_length {key : Bytes} (hkey : key.length < 2 ^ 32) :
    varintLength (UInt64.ofNat key.length) + key.length =
      (encodeString key).length := by
  have hcast : UInt64.ofNat key.length =
      (UInt32.ofNat key.length).toUInt64 := by
    apply UInt64.toNat_inj.mp
    rw [UInt64.toNat_ofNat', UInt32.toNat_toUInt64, UInt32.toNat_ofNat',
      Nat.mod_eq_of_lt hkey, Nat.mod_eq_of_lt (hkey.trans (by decide))]
  rw [hcast, varintLength_toUInt64, length_encodeString]

/-- What `StorageBuffer::Get` returns on encoded tables: the income buffer
first, then the flush buffer. -/
theorem get_eq {buffer : StorageBuffer} {income : List (Bytes × Bytes)}
    {flushing : Option (List (Bytes × Bytes))}
    (hincome : Encodes buffer.incomeBuffer income)
    (hflush : Option.Rel Encodes buffer.flushBuffer flushing) {key : Bytes}
    (hprobe : ProbeFits key) :
    buffer.get key =
      some ((find key income).or (flushing.bind (find key))) := by
  have hlength : key.length < 2 ^ 32 :=
    (length_lt_length_encodeString key).trans (hprobe.trans (by decide))
  have hfits : varintLength (UInt64.ofNat key.length) + key.length < 2 ^ 31 := by
    rw [probe_length hlength]
    exact hprobe
  have hseek := hincome.seek hlength
  simp only [get, if_pos hfits]
  cases hfirst : SkipList.seek comparator (encodeString key)
      buffer.incomeBuffer with
  | some entry =>
      cases hfind : find key income with
      | none => simp [hfirst, hfind] at hseek
      | some value =>
          simp only [hfirst, hfind, Option.map_some, Option.some.injEq] at hseek
          simp [hseek]
  | none =>
      cases hfind : find key income with
      | some value => simp [hfirst, hfind] at hseek
      | none =>
          generalize buffer.flushBuffer = list at hflush
          cases hflush with
          | none => simp
          | @some list entries hlist =>
              have hseek' := hlist.seek hlength
              cases hsecond : SkipList.seek comparator (encodeString key)
                  list with
              | none =>
                  cases hfind' : find key entries with
                  | none => simp [hsecond, hfind']
                  | some value => simp [hsecond, hfind'] at hseek'
              | some entry =>
                  cases hfind' : find key entries with
                  | none => simp [hsecond, hfind'] at hseek'
                  | some value =>
                      simp only [hsecond, hfind', Option.map_some,
                        Option.some.injEq] at hseek'
                      simp [hsecond, hseek', hfind']

theorem get_eq_none {buffer : StorageBuffer} {key : Bytes}
    (hprobe : ¬ ProbeFits key) : buffer.get key = none := by
  by_cases hlength : key.length < 2 ^ 32
  · rw [get, if_neg]
    rw [probe_length hlength]
    exact hprobe
  · rw [get, if_neg]
    omega

/-- `Add` succeeds exactly on short entries and inserts them. -/
theorem encodedLen_eq (key value : ByteArray) :
    encodedLen key value =
      UInt32.ofNat (encodeEntry key.data value.data).length := by
  simp only [encodedLen, varintLength_toUInt64, length_encodeEntry,
    length_encodeString, UInt32.ofNat_add, ByteArray.size]
  rw [UInt32.add_assoc, UInt32.add_assoc]

theorem add_eq_some_iff {buffer : StorageBuffer} {key value : ByteArray}
    {result : StorageBuffer × Bool} :
    buffer.add key value = some result ↔
      Short (key.data, value.data) ∧
      result = if (buffer.insert key value).swaps then
        ((buffer.insert key value).setFlushThreadBusy.swapBuffer, true)
      else (buffer.insert key value, false) := by
  have hpos : 0 < (encodeEntry key.data value.data).length := by
    have := length_lt_length_encodeString key.data
    rw [length_encodeEntry]
    omega
  have hguard : (0 < (encodedLen key value).toNat ∧
      (encodedLen key value).toNat < 2 ^ 31 ∧
      (encodeEntry key.data value.data).length =
        (encodedLen key value).toNat) ↔ Short (key.data, value.data) := by
    rw [encodedLen_eq, UInt32.toNat_ofNat', Short]
    constructor
    · rintro ⟨_, hlt, heq⟩
      exact heq.trans_lt hlt
    · intro hshort
      rw [Nat.mod_eq_of_lt (hshort.trans (by decide))]
      exact ⟨hpos, hshort, rfl⟩
  unfold add
  by_cases hshort : Short (key.data, value.data)
  · rw [if_pos (hguard.mpr hshort)]
    split_ifs <;> simp [hshort, eq_comm]
  · rw [if_neg (fun h => hshort (hguard.mp h))]
    simp [hshort]

/-- `FlushBuffer` collects the table it was given. -/
theorem flushContent_encodeEntries {list : SkipList Bytes}
    {entries : List (Bytes × Bytes)} (h : Encodes list entries) :
    flushContent list = some (encodeEntries entries,
      UInt32.ofNat (dataBytes entries).length) := by
  have hfits := h.fits
  rw [h.nodes]
  clear h
  induction entries with
  | nil => rfl
  | cons entry entries ih =>
      have hentry : Fits entry := hfits entry List.mem_cons_self
      have hrest := ih fun other hother =>
        hfits other (List.mem_cons_of_mem _ hother)
      have hsize := entrySize_encodeEntry [] hentry
      have htoNat : (UInt32.ofNat
          (encodeEntry entry.1 entry.2).length).toNat =
            (encodeEntry entry.1 entry.2).length := by
        rw [UInt32.toNat_ofNat', Nat.mod_eq_of_lt hentry]
      have hread : readBytes (encodeEntry entry.1 entry.2)
          (encodeEntry entry.1 entry.2).length =
            some (encodeEntry entry.1 entry.2) := by
        simpa using readBytes_append (encodeEntry entry.1 entry.2) []
      rw [List.append_nil] at hsize
      simp only [encodeEntries, List.map_cons] at hrest ⊢
      simp only [flushContent, hsize, hrest, htoNat, hread,
        Option.bind_eq_bind, Option.bind_some, dataBytes_cons,
        List.length_append, UInt32.ofNat_add]

end StorageBuffer

end SimpleKV
