/-
`StorageBuffer` down to its bytes: two arenas with a skip list each, entries
written into them piece by piece, a probe in a block of its own, and the flush
thread that gives an arena back.  Every run of it is a run of the buffer of
lists, touches nothing else and leaves no block behind.
-/
import SimpleKV.RawInsert
import SimpleKV.SizeArithmetic

namespace SimpleKV

open ByteMemory Memory SkipListNodes

/-- The members of a `StorageBuffer`; null is `none`. -/
structure RawBuffer where
  bufferSize : UInt32
  incomeSize : UInt32
  incomeBuffer : RawSkipList
  flushBuffer : Option RawSkipList
  incomeMemory : Memory
  flushMemory : Option Memory
  flushThreadReady : Bool
  flushBufferReady : Bool

namespace RawBuffer

section Code

variable (allocator : Allocator) (headKey : Nat)

/-- The constructor; `headKey` is where the head's string literal lies. -/
def new (bufferSize : UInt32) (m : Machine) :
    Except Fault (Machine × RawBuffer) := do
  let (m, incomeMemory, incomeBuffer) ←
    RawSkipList.new allocator headKey m .new
  .ok (m,
    { bufferSize, incomeSize := 0, incomeBuffer, flushBuffer := none,
      incomeMemory, flushMemory := none, flushThreadReady := false,
      flushBufferReady := false })

/-- `SwapBuffer`. -/
def swapBuffer (m : Machine) (buffer : RawBuffer) :
    Except Fault (Machine × RawBuffer) := do
  let (m, incomeMemory, incomeBuffer) ←
    RawSkipList.new allocator headKey m .new
  .ok (m,
    { buffer with
      incomeSize := 0
      flushMemory := some buffer.incomeMemory
      incomeMemory
      flushBuffer := some buffer.incomeBuffer
      incomeBuffer
      flushBufferReady := true })

/-- The writes of `Add` and the last value of `p`. -/
def writeEntry (buf : Nat) (key value : ByteArray) (m : Machine) :
    Option (Nat × Machine) := do
  let m ← m.write buf (encodeVarint32 key.size)
  let p := buf + (encodeVarint32 key.size).length
  let m ← m.write p key.data
  let p := p + key.data.length
  let m ← m.write p (encodeVarint32 value.size)
  let p := p + (encodeVarint32 value.size).length
  let m ← m.write p value.data
  some (p, m)

/-- The test after the insertion in `Add`. -/
def swaps (buffer : RawBuffer) : Bool :=
  decide (buffer.bufferSize < buffer.incomeSize) && buffer.flushThreadReady

/-- `Add` up to the swap test. -/
def insert (key value : ByteArray) (m : Machine) (buffer : RawBuffer) :
    Except Fault (Machine × RawBuffer) := do
  let encodedLen := StorageBuffer.encodedLen key value
  let (buf, m, incomeMemory) ← buffer.incomeMemory.allocate allocator
    (StorageBuffer.allocateBytes key value) m
  let (p, m) ← defined (writeEntry buf key value m)
  if p + value.data.length - buf = encodedLen.toNat then
    let (m, incomeMemory, incomeBuffer) ←
      buffer.incomeBuffer.insert allocator buf m incomeMemory
    .ok (m,
      { buffer with
        incomeMemory, incomeBuffer
        incomeSize := buffer.incomeSize + encodedLen })
  else .error .undefined

/-- `Add`, and whether it notifies. -/
def add (key value : ByteArray) (m : Machine) (buffer : RawBuffer) :
    Except Fault (Bool × Machine × RawBuffer) := do
  let (m, buffer) ← buffer.insert allocator key value m
  if buffer.swaps then
    let (m, buffer) ← swapBuffer allocator headKey m
      { buffer with flushThreadReady := false }
    .ok (true, m, buffer)
  else .ok (false, m, buffer)

/-- The search of `Get` in one list. -/
def find (m : Machine) (probe : Nat) (list : RawSkipList) :
    Option (Option Bytes) := do
  let node ← list.iterSeek m probe
  if node = 0 then some none
  else do
    let entry ← RawSkipList.key m node
    (extractUserValue (m.readable entry)).map some

/-- The searches of `Get`. -/
def lookup (m : Machine) (probe : Nat) (buffer : RawBuffer) :
    Option (Option Bytes) := do
  match ← find m probe buffer.incomeBuffer with
  | some value => some (some value)
  | none =>
      match buffer.flushBuffer with
      | none => some none
      | some list => find m probe list

/-- `Get`.  As in `StorageBuffer.get`, an `encoded_len` that is no `int` is
undefined. -/
def get (key : Bytes) (m : Machine) (buffer : RawBuffer) :
    Except Fault (Option Bytes × Machine) := do
  let encodedLen := varintLength (UInt64.ofNat key.length) + key.length
  if encodedLen < 2 ^ 31 then
    match m.new allocator encodedLen with
    | none => .error .badAlloc
    | some (temp, m) =>
        let length := encodeVarint32 (UInt32.ofNat key.length)
        let m ← defined (m.write temp length)
        let m ← defined (m.write (temp + length.length) key)
        let value ← defined (lookup m temp buffer)
        let m ← defined (m.delete temp)
        .ok (value, m)
  else .error .undefined

/-- The loop of `FlushBuffer`. -/
def flushContent (m : Machine) : List Nat → Option (List Bytes × UInt32)
  | [] => some ([], 0)
  | entry :: entries => do
      let size ← entrySize (m.readable entry)
      let data ← readBytes (m.readable entry) size.toNat
      let (content, flushSize) ← flushContent m entries
      some (data :: content, size + flushSize)

/-- `FlushBuffer`. -/
def writeFlushBuffer (iter : IterOrder) (m : Machine) (buffer : RawBuffer) :
    Option (Bytes × KeyOffset) := do
  let list ← buffer.flushBuffer
  let first ← RawSkipList.next m list.head 0
  let entries ← RawSkipList.enumerate m list.made first
  let (content, flushSize) ← flushContent m entries
  flush iter content flushSize

/-- `delete` of an arena that may be null. -/
def deleteMemory (m : Machine) : Option Memory → Option Machine
  | none => some m
  | some memory => memory.destroy m

/-- `ClearFlushBuffer`. -/
def clearFlushBuffer (m : Machine) (buffer : RawBuffer) :
    Option (Machine × RawBuffer) := do
  let m ← deleteMemory m buffer.flushMemory
  some (m,
    { buffer with
      flushBufferReady := false
      flushMemory := none
      flushBuffer := none })

/-- The destructor. -/
def destroy (m : Machine) (buffer : RawBuffer) : Option Machine := do
  let m ← buffer.incomeMemory.destroy m
  deleteMemory m buffer.flushMemory

end Code

/-- The list in memory holds these entries. -/
def Lists (m : Machine) (memory : Memory) (raw : RawSkipList)
    (entries : SkipList Bytes) : Prop :=
  ∃ list towers own, RawSkipList.Rep m memory raw list own RawSkipList.all ∧
    Holds list towers ∧ Increasing userKey towers ∧
    towers.map Tower.key = entries

section Lists

variable {m m' : Machine} {memory memory' : Memory} {raw : RawSkipList}
  {entries : SkipList Bytes}

theorem Lists.owned (h : Lists m memory raw entries) :
    m.Valid ∧ memory.Inv m := by
  obtain ⟨_, _, _, hrep, _⟩ := h
  exact ⟨hrep.owns.valid, hrep.owns.inv⟩

theorem Lists.keep (h : Lists m memory raw entries) (hvalid : m'.Valid)
    (hkept : memory.Kept m m') : Lists m' memory raw entries := by
  obtain ⟨list, towers, own, hrep, hholds, hinc, hkeys⟩ := h
  exact ⟨list, towers, own, hrep.keep hvalid hkept, hholds, hinc, hkeys⟩

theorem ends_newList (hvalid : m.Valid) (allocator : Allocator)
    (headKey : Nat) :
    Ends (RawSkipList.new allocator headKey m .new) fun result =>
      Lists result.1 result.2.1 result.2.2 [] ∧
        Worked m .new result.1 result.2.1 := by
  apply (RawSkipList.Rep.new hvalid (.new m) allocator [] headKey).mono
  rintro result ⟨own, hrep, hworked⟩
  exact ⟨⟨_, [], own, hrep, .new [], .nil, rfl⟩, hworked⟩

/-- An entry of a list, as the reading functions see it. -/
def Reads (m : Machine) (entry : Bytes) (p : Nat) : Prop :=
  ∃ key value rest, Short (key, value) ∧ entry = encodeEntry key value ∧
    m.readable p = entry ++ rest

theorem Reads.extractUserValue {entry : Bytes} {p : Nat} (h : Reads m entry p) :
    SimpleKV.extractUserValue (m.readable p) =
      SimpleKV.extractUserValue entry := by
  obtain ⟨key, value, rest, hshort, rfl, hread⟩ := h
  have hself := hshort.entryCodec.userValue []
  rw [List.append_nil] at hself
  rw [hread, hshort.entryCodec.userValue, hself]

theorem Reads.flushData {entry : Bytes} {p : Nat} (h : Reads m entry p) :
    ∃ size, entrySize (m.readable p) = some size ∧
      readBytes (m.readable p) size.toNat = some entry ∧
      entrySize entry = some size ∧ readBytes entry size.toNat = some entry := by
  obtain ⟨key, value, rest, hshort, rfl, hread⟩ := h
  obtain ⟨size, hsize, hlength⟩ := hshort.entryCodec.entrySize rest
  obtain ⟨size', hsize', hlength'⟩ := hshort.entryCodec.entrySize []
  obtain rfl : size = size' :=
    UInt32.toNat_inj.mp (hlength.trans hlength'.symm)
  rw [List.append_nil] at hsize'
  rw [hread]
  refine ⟨size, hsize, ?_, hsize', ?_⟩
  · rw [hlength]
    exact readBytes_append _ rest
  · rw [hlength]
    simpa using readBytes_append (encodeEntry key value) []

theorem reads_of_entryAt {list : SkipListNodes Bytes}
    {own : RawSkipList.Cell → Option Region} {ready : Nat → Nat → Prop}
    (h : RawSkipList.Rep m memory raw list own ready) {entry : Bytes} {p : Nat}
    (hentry : RawSkipList.EntryAt m.ram own entry p) : Reads m entry p := by
  obtain ⟨rest, hread⟩ := h.readable hentry
  obtain ⟨_, _, _, _, _, key, value, hshort, heq⟩ := hentry
  exact ⟨key, value, rest, hshort, heq, hread⟩

theorem Lists.find (h : Lists m memory raw entries) {probe : Bytes} {q : Nat}
    (hq : RawSkipList.Probe m probe q) :
    RawBuffer.find m q raw =
      match SkipList.seek comparator probe entries with
      | some entry => (extractUserValue entry).map some
      | none => some none := by
  obtain ⟨list, towers, own, hrep, hholds, hinc, rfl⟩ := h
  obtain ⟨node, hseek, hresult⟩ :=
    hholds.iterSeek_eq orders_comparator hinc probe
  obtain ⟨p, hp, hpoints, hfound⟩ := hrep.iterSeek hq hseek
  rw [← hresult]
  unfold RawBuffer.find
  rw [hp]
  simp only [Option.bind_eq_bind, Option.bind_some]
  cases node with
  | none =>
      rw [if_pos (show p = 0 from hpoints)]
      rfl
  | some n =>
      obtain ⟨hhead, entry, hkey⟩ := hfound n rfl
      obtain ⟨e, he, hentry⟩ := hrep.key hkey hhead hpoints
      rw [if_neg (hrep.points_bounds hpoints).1.ne', Option.bind_some, hkey,
        he, Option.bind_some,
        (reads_of_entryAt hrep hentry).extractUserValue]

theorem flushContent_eq {pointers : List Nat}
    (h : List.Forall₂ (Reads m) entries pointers) :
    flushContent m pointers = StorageBuffer.flushContent entries := by
  induction h with
  | nil => rfl
  | cons hhead _ ih =>
      obtain ⟨size, hsize, hdata, hsize', hdata'⟩ := hhead.flushData
      simp only [flushContent, StorageBuffer.flushContent, hsize, hdata,
        hsize', hdata', ih, Option.bind_eq_bind, Option.bind_some]

/-- The loop of `FlushBuffer` reads the entries in their order. -/
theorem Lists.flushContent (h : Lists m memory raw entries) :
    ∃ first pointers, RawSkipList.next m raw.head 0 = some first ∧
      RawSkipList.enumerate m raw.made first = some pointers ∧
      RawBuffer.flushContent m pointers =
        StorageBuffer.flushContent entries := by
  obtain ⟨list, towers, own, hrep, hholds, hinc, rfl⟩ := h
  have hzero := hholds.head_next 0 (by decide)
  rw [link_zero hholds.height_pos] at hzero
  have hall := hholds.enumerate_next list.fresh [] towers rfl (by
    rw [hholds.fresh_eq]
    omega)
  obtain ⟨first, hfirst, hpoints⟩ := hrep.next hzero hrep.head trivial
  have hhead : towers.head?.map Tower.addr ≠ some SkipListNodes.head := by
    intro heq
    rw [heq] at hzero
    exact hrep.ne_head hzero rfl
  obtain ⟨pointers, hpointers, hrel⟩ :=
    hrep.enumerate list.fresh hpoints hhead hall
  rw [← hrep.made] at hpointers
  exact ⟨first, pointers, hfirst, hpointers, flushContent_eq
    (hrel.imp fun entry p hentry => reads_of_entryAt hrep hentry)⟩

/-- Where `p` ends up does not depend on memory. -/
theorem writeEntry_length {buf p : Nat} {key value : ByteArray}
    (h : writeEntry buf key value m = some (p, m')) :
    p + value.data.length - buf =
      (encodeEntry key.data value.data).length := by
  obtain ⟨m1, _, h⟩ := Option.bind_eq_some_iff.mp h
  obtain ⟨m2, _, h⟩ := Option.bind_eq_some_iff.mp h
  obtain ⟨m3, _, h⟩ := Option.bind_eq_some_iff.mp h
  obtain ⟨m4, _, h⟩ := Option.bind_eq_some_iff.mp h
  rw [Option.some.injEq, Prod.mk.injEq] at h
  rw [← h.1, length_encodeEntry, length_encodeString, length_encodeString,
    ByteArray.size, ByteArray.size]
  omega

/-- The four writes of `Add` store the entry. -/
theorem writeEntry_eq (hvalid : m.Valid) {block : Region}
    (hblock : block ∈ m.blocks) {buf : Nat} {key value : ByteArray}
    (hwithin : (⟨buf, (encodeEntry key.data value.data).length⟩ :
      Region).Within block) :
    ∃ p, writeEntry buf key value m = some (p,
      { m with ram := stored m.ram buf (encodeEntry key.data value.data) }) := by
  have hentry : encodeEntry key.data value.data =
      encodeVarint32 key.size ++ key.data ++ encodeVarint32 value.size ++
        value.data := by
    simp only [encodeEntry, encodeString, ByteArray.size, List.append_assoc]
  -- Each write stores one more piece of the entry.
  have hpiece : ∀ data more rest : Bytes,
      encodeEntry key.data value.data = data ++ more ++ rest →
      ({ m with ram := stored m.ram buf data } : Machine).write
          (buf + data.length) more =
        some { m with ram := stored m.ram buf (data ++ more) } := by
    intro data more rest heq
    apply hvalid.write_more hblock
    apply Region.Within.trans _ hwithin
    refine ⟨le_refl _, Nat.add_le_add_left ?_ buf⟩
    simp only [heq, List.length_append]
    exact Nat.le_add_right _ _
  have h1 := hpiece [] (encodeVarint32 key.size) _ (by
    rw [hentry, List.append_assoc, List.append_assoc, List.nil_append])
  have h2 := hpiece (encodeVarint32 key.size) key.data _ (by
    rw [hentry, List.append_assoc])
  have h3 := hpiece (encodeVarint32 key.size ++ key.data)
    (encodeVarint32 value.size) value.data hentry
  have h4 := hpiece (encodeVarint32 key.size ++ key.data ++
    encodeVarint32 value.size) value.data [] (by rw [hentry, List.append_nil])
  simp only [stored_nil, List.length_nil, Nat.add_zero, List.nil_append,
    List.length_append, ← Nat.add_assoc] at h1 h2 h3 h4
  change m.write buf _ = _ at h1
  exact ⟨buf + (encodeVarint32 key.size).length + key.data.length +
    (encodeVarint32 value.size).length, by
      simp only [writeEntry, h1, h2, h3, h4, Option.bind_eq_bind,
        Option.bind_some, hentry]⟩

theorem toNat_encodedLen {key value : ByteArray}
    (hshort : Short (key.data, value.data)) :
    (StorageBuffer.encodedLen key value).toNat =
      (encodeEntry key.data value.data).length := by
  rw [StorageBuffer.encodedLen_eq, UInt32.toNat_ofNat',
    Nat.mod_eq_of_lt (hshort.trans (by decide))]

/-- `Allocate` and the assertion behind the writes let short entries through
only. -/
theorem short_of_insert {allocator : Allocator} {key value : ByteArray}
    {buffer : RawBuffer} {result : Machine × RawBuffer}
    (h : buffer.insert allocator key value m = .ok result) :
    Short (key.data, value.data) := by
  obtain ⟨⟨buf, m1, memory1⟩, halloc, h⟩ := bind_eq_ok.mp h
  obtain ⟨⟨p, m2⟩, hwrite, h⟩ := bind_eq_ok.mp h
  dsimp only at h
  split_ifs at h with hassert
  have hpos : 0 < StorageBuffer.allocateBytes key value := by
    unfold Memory.allocate at halloc
    split_ifs at halloc <;> omega
  have hwritten : writeEntry buf key value m1 = some (p, m2) := by
    cases hentry : writeEntry buf key value m1 with
    | none => exact absurd (hentry ▸ hwrite) (by simp [defined])
    | some written =>
        rw [hentry] at hwrite
        exact congrArg some (Except.ok.inj hwrite)
  rw [writeEntry_length hwritten] at hassert
  rw [Short, hassert]
  exact ((StorageBuffer.allocateBytes_pos_iff key value).mp hpos).2

theorem ends_insert {buffer : RawBuffer}
    (h : Lists m buffer.incomeMemory buffer.incomeBuffer entries)
    (allocator : Allocator) {key value : ByteArray}
    (hshort : Short (key.data, value.data)) :
    Ends (buffer.insert allocator key value m) fun result =>
      ∃ incomeMemory incomeBuffer,
        result.2 = { buffer with
          incomeMemory, incomeBuffer
          incomeSize := buffer.incomeSize +
            StorageBuffer.encodedLen key value } ∧
        Lists result.1 incomeMemory incomeBuffer
          (SkipList.insert comparator (encodeEntry key.data value.data)
            entries) ∧
        Worked m buffer.incomeMemory result.1 incomeMemory := by
  obtain ⟨list, towers, own, hrep, hholds, hinc, rfl⟩ := h
  have hsize := toNat_encodedLen hshort
  have hentryPos := length_lt_length_encodeString key.data
  rw [Short] at hshort
  have hbytes : StorageBuffer.allocateBytes key value =
      (encodeEntry key.data value.data).length := by
    rw [StorageBuffer.allocateBytes_eq, hsize, if_pos hshort]
  have hpos : 0 < StorageBuffer.allocateBytes key value := by
    rw [hbytes, length_encodeEntry]
    omega
  apply (hrep.owns.inv.ends_allocate hrep.owns.valid allocator hpos).bind
  rintro ⟨buf, m1, memory1⟩ halloc
  dsimp only at halloc ⊢
  rw [hbytes, Int.toNat_natCast] at halloc
  obtain ⟨block, hblock, _, hwithin⟩ := halloc.handed.within
  obtain ⟨p, hwrite⟩ := writeEntry_eq halloc.valid hblock hwithin
  apply Ends.bind_defined hwrite
  dsimp only
  rw [if_pos (by rw [writeEntry_length hwrite, hsize])]
  obtain ⟨own1, hrep1, hentry, hworked1⟩ := hrep.newEntry halloc hshort rfl
  obtain ⟨hheight, hmax, _⟩ := Random.randomHeight_spec hrep.random
  obtain ⟨list', towers', hinsert, hholds', hinc', hkeys⟩ :=
    hholds.insert orders_comparator hinc (encodeEntry key.data value.data)
      hheight hmax
  have hfresh : 0 < list.fresh := by
    rw [hholds.fresh_eq]
    omega
  apply (hrep1.insert allocator hentry hfresh hinsert).bind
  rintro ⟨m2, memory2, raw2⟩ ⟨own2, hrep2, hworked2⟩
  exact ⟨memory2, raw2, rfl,
    ⟨list', towers', own2, hrep2, hholds', hinc', hkeys⟩,
    hworked1.trans hworked2⟩

end Lists

/-- The flush arena and its list, apart from the income arena. -/
inductive Flushing (m : Machine) (income : Memory) :
    Option Memory → Option RawSkipList → Option (SkipList Bytes) → Prop where
  | absent : Flushing m income none none none
  | present {memory : Memory} {raw : RawSkipList} {entries : SkipList Bytes} :
      Lists m memory raw entries →
      (∀ a ∈ memory.blocks, a ∉ income.blocks) →
      Flushing m income (some memory) (some raw) (some entries)

/-- The blocks of an arena that may be null. -/
def blocksOf : Option Memory → List Nat
  | none => []
  | some memory => memory.blocks

theorem filter_not_mem_nil (blocks : List Region) :
    blocks.filter (fun block => block.start ∉ ([] : List Nat)) = blocks :=
  List.filter_eq_self.mpr (by simp)

/-- The buffer in memory is the given one.  The machine had the blocks of `m₀`
before and has them still, with their bytes; every other block belongs to one of
the arenas. -/
structure Shows (m₀ m : Machine) (raw : RawBuffer) (buffer : StorageBuffer) :
    Prop where
  income : Lists m raw.incomeMemory raw.incomeBuffer buffer.incomeBuffer
  flushing : Flushing m raw.incomeMemory raw.flushMemory raw.flushBuffer
    buffer.flushBuffer
  bufferSize : raw.bufferSize = buffer.bufferSize
  incomeSize : raw.incomeSize = buffer.incomeSize
  flushThreadReady : raw.flushThreadReady = buffer.flushThreadReady
  flushBufferReady : raw.flushBufferReady = buffer.flushBufferReady
  others : (m.blocks.filter fun block =>
      block.start ∉ raw.incomeMemory.blocks).filter (fun block =>
      block.start ∉ blocksOf raw.flushMemory) = m₀.blocks
  untouched : ∀ block ∈ m₀.blocks, Agree m₀.ram m.ram block

section Shows

variable {m₀ m m' : Machine} {raw : RawBuffer} {buffer : StorageBuffer}
  {income income' : Memory} {memory : Option Memory}
  {list : Option RawSkipList} {entries : Option (SkipList Bytes)}

namespace Flushing

theorem keep (h : Flushing m income memory list entries) (hvalid : m'.Valid)
    (hkept : ∀ arena : Memory, arena.Kept m m') :
    Flushing m' income memory list entries := by
  cases h with
  | absent => exact .absent
  | @present arena _ _ hlist hdisjoint =>
      exact .present (hlist.keep hvalid (hkept arena)) hdisjoint

theorem eq_none (h : Flushing m income memory list none) : memory = none := by
  cases h with
  | absent => rfl

/-- Work in the income arena leaves the flush arena alone. -/
theorem worked (h : Flushing m income memory list entries)
    (hvalid : m'.Valid) (hworked : Worked m income m' income') :
    Flushing m' income' memory list entries := by
  cases h with
  | absent => exact .absent
  | @present arena _ _ hlist hdisjoint =>
      exact .present (hlist.keep hvalid (hworked.kept hdisjoint))
        (hworked.disjoint hlist.owned.2 hdisjoint)

end Flushing

namespace Shows

theorem valid (h : Shows m₀ m raw buffer) : m.Valid :=
  h.income.owned.1

theorem mem_blocks (h : Shows m₀ m raw buffer) {block : Region}
    (hblock : block ∈ m₀.blocks) : block ∈ m.blocks ∧
      block.start ∉ raw.incomeMemory.blocks ∧
      block.start ∉ blocksOf raw.flushMemory := by
  rw [← h.others, List.mem_filter, List.mem_filter] at hblock
  obtain ⟨⟨hmem, hincome⟩, hflush⟩ := hblock
  exact ⟨hmem, by simpa using hincome, by simpa using hflush⟩

/-- No arena has a block of `m₀`, so work in one leaves these alone. -/
theorem untouched_worked (h : Shows m₀ m raw buffer)
    (hworked : Worked m raw.incomeMemory m' income') :
    ∀ block ∈ m₀.blocks, Agree m₀.ram m'.ram block := by
  intro block hblock
  obtain ⟨hmem, hnot, _⟩ := h.mem_blocks hblock
  exact (h.untouched block hblock).trans (hworked.outside block hmem hnot)

theorem swaps_eq (h : Shows m₀ m raw buffer) : raw.swaps = buffer.swaps := by
  rw [RawBuffer.swaps, StorageBuffer.swaps, h.bufferSize, h.incomeSize,
    h.flushThreadReady]

theorem insert (h : Shows m₀ m raw buffer) (allocator : Allocator)
    {key value : ByteArray} (hshort : Short (key.data, value.data)) :
    Ends (raw.insert allocator key value m) fun result =>
      Shows m₀ result.1 result.2 (buffer.insert key value) := by
  apply (ends_insert h.income allocator hshort).mono
  rintro ⟨m', raw'⟩ ⟨incomeMemory, incomeBuffer, hraw, hlists, hworked⟩
  dsimp only at hraw hlists hworked ⊢
  subst hraw
  refine ⟨hlists, h.flushing.worked hlists.owned.1 hworked, h.bufferSize,
    congrArg (· + _) h.incomeSize, h.flushThreadReady, h.flushBufferReady, ?_,
    h.untouched_worked hworked⟩
  dsimp only
  rw [hworked.others]
  exact h.others

/-- The income arena becomes the flush arena, when there is none. -/
theorem swapBuffer (h : Shows m₀ m raw buffer) (allocator : Allocator)
    (headKey : Nat) (hnone : buffer.flushBuffer = none) :
    Ends (raw.swapBuffer allocator headKey m) fun result =>
      Shows m₀ result.1 result.2 buffer.swapBuffer := by
  apply (ends_newList h.valid allocator headKey).bind
  rintro ⟨m', incomeMemory, incomeBuffer⟩ ⟨hlists, hworked⟩
  dsimp only at hlists hworked ⊢
  have hnull : raw.flushMemory = none := (hnone ▸ h.flushing).eq_none
  have hdisjoint : ∀ a ∈ raw.incomeMemory.blocks, a ∉ Memory.new.blocks :=
    fun a _ => List.not_mem_nil
  have hothers := h.others
  rw [hnull] at hothers
  refine ⟨hlists, .present (h.income.keep hlists.owned.1
    (hworked.kept hdisjoint)) (hworked.disjoint h.income.owned.2 hdisjoint),
    h.bufferSize, rfl, h.flushThreadReady, rfl, ?_, ?_⟩
  · dsimp only
    rw [hworked.others, show Memory.new.blocks = [] from rfl,
      filter_not_mem_nil]
    exact (filter_not_mem_nil _).symm.trans hothers
  · intro block hblock
    exact (h.untouched block hblock).trans (hworked.outside block
      (h.mem_blocks hblock).1 List.not_mem_nil)

theorem probe_of_bytes (hvalid : m.Valid) {key : Bytes}
    (hkey : key.length < 2 ^ 32) {temp : Nat}
    (hblock : ⟨temp, (encodeString key).length⟩ ∈ m.blocks)
    (hbytes : bytes m.ram temp (encodeString key).length = encodeString key) :
    RawSkipList.Probe m (encodeString key) temp := by
  obtain ⟨rest, hread⟩ := hvalid.readable_eq hblock (.refl _)
    (Nat.zero_lt_of_lt (length_lt_length_encodeString key))
  have hself := extractUserKey_encodeString [] hkey
  rw [List.append_nil] at hself
  rw [RawSkipList.Probe, userKey, hself, Option.getD_some,
    show m.readable temp = encodeString key ++ rest from
      hread.trans (congrArg (· ++ rest) hbytes),
    extractUserKey_encodeString rest hkey]

/-- The block of the probe: two writes fill it, a search can start with it, and
after its deletion all is as before. -/
theorem exists_probe (hvalid : m.Valid) {allocator : Allocator} {key : Bytes}
    (hkey : key.length < 2 ^ 32) {temp : Nat} {m1 : Machine}
    (hnew : m.new allocator (encodeString key).length = some (temp, m1)) :
    ∃ m2 m3 m4,
      m1.write temp (encodeVarint32 (UInt32.ofNat key.length)) = some m2 ∧
      m2.write (temp + (encodeVarint32 (UInt32.ofNat key.length)).length) key =
        some m3 ∧
      m3.delete temp = some m4 ∧ m3.Valid ∧
      (∀ arena : Memory, arena.Kept m m3) ∧
      RawSkipList.Probe m3 (encodeString key) temp ∧
      m4.blocks = m.blocks ∧ ∀ block ∈ m.blocks, Agree m.ram m4.ram block := by
  have hpos : 0 < (encodeString key).length :=
    Nat.zero_lt_of_lt (length_lt_length_encodeString key)
  obtain ⟨rfl, hvalid1, _, hapart⟩ := hvalid.new hpos hnew
  have hwithin := Region.Within.refl ⟨temp, (encodeString key).length⟩
  have hfirst := hvalid1.write_eq List.mem_cons_self
    (show (⟨temp, (encodeVarint32 (UInt32.ofNat key.length)).length⟩ :
        Region).Within ⟨temp, (encodeString key).length⟩ from
      ⟨le_refl _, Nat.add_le_add_left (by
        rw [length_encodeString]
        exact Nat.le_add_right _ _) temp⟩)
  have hsecond := hvalid1.write_more List.mem_cons_self hwithin
  have hagree : ∀ block ∈ m.blocks,
      Agree m.ram (stored m.ram temp (encodeString key)) block :=
    fun block hblock => .stored (hapart block hblock)
  refine ⟨_, _, _, hfirst, hsecond, hvalid.delete_last hpos rfl hapart,
    hvalid1.withRam _, ?_, ?_, rfl, hagree⟩
  · intro arena block hblock _
    exact ⟨List.mem_cons_of_mem _ hblock, hagree block hblock⟩
  · exact probe_of_bytes (hvalid1.withRam _) hkey List.mem_cons_self
      (bytes_stored ..)

/-- Somebody else's blocks came and went. -/
theorem keep (h : Shows m₀ m raw buffer) (hblocks : m'.blocks = m.blocks)
    (hagree : ∀ block ∈ m.blocks, Agree m.ram m'.ram block) :
    Shows m₀ m' raw buffer := by
  have hvalid : m'.Valid :=
    h.valid.filter (hblocks.trans (List.filter_true m.blocks).symm)
  have hkept : ∀ arena : Memory, arena.Kept m m' := by
    intro arena block hblock _
    rw [hblocks]
    exact ⟨hblock, hagree block hblock⟩
  refine ⟨h.income.keep hvalid (hkept _), h.flushing.keep hvalid hkept,
    h.bufferSize, h.incomeSize, h.flushThreadReady, h.flushBufferReady,
    hblocks ▸ h.others, ?_⟩
  intro block hblock
  exact (h.untouched block hblock).trans
    (hagree block (h.mem_blocks hblock).1)

/-- The searches of `Get`, with a probe in a block of its own. -/
theorem lookup_eq (h : Shows m₀ m raw buffer) (hvalid : m'.Valid)
    (hkept : ∀ arena : Memory, arena.Kept m m') {key : Bytes} {temp : Nat}
    (hprobe : RawSkipList.Probe m' (encodeString key) temp)
    (hfits : varintLength (UInt64.ofNat key.length) + key.length < 2 ^ 31) :
    lookup m' temp raw = buffer.get key := by
  have hincome := (h.income.keep hvalid (hkept _)).find hprobe
  have hflushing := h.flushing.keep hvalid hkept
  rw [lookup, StorageBuffer.get, if_pos hfits, hincome]
  generalize raw.flushMemory = memory at hflushing
  generalize raw.flushBuffer = list at hflushing
  generalize buffer.flushBuffer = entries at hflushing
  cases SkipList.seek comparator (encodeString key) buffer.incomeBuffer with
  | some entry =>
      cases hvalue : extractUserValue entry with
      | none => simp [hvalue]
      | some value => simp [hvalue]
  | none =>
      cases hflushing with
      | absent => rfl
      | present hlists _ => exact hlists.find hprobe

/-- `Get` with its probe. -/
theorem get (h : Shows m₀ m raw buffer) (allocator : Allocator)
    (key : Bytes) :
    Implements (raw.get allocator key m) (buffer.get key) fun result value =>
      result.1 = value ∧ Shows m₀ result.2 raw buffer := by
  by_cases hfits : varintLength (UInt64.ofNat key.length) + key.length < 2 ^ 31
  · have hkey : key.length < 2 ^ 32 := by omega
    unfold RawBuffer.get
    dsimp only
    rw [if_pos hfits]
    cases hnew : m.new allocator
        (varintLength (UInt64.ofNat key.length) + key.length) with
    | none => exact implements_error (by decide)
    | some result =>
        obtain ⟨temp, m1⟩ := result
        rw [StorageBuffer.probe_length hkey] at hnew
        obtain ⟨m2, m3, m4, hfirst, hsecond, hdelete, hvalid, hkept, hprobe,
          hblocks, hagree⟩ := exists_probe h.valid hkey hnew
        have hlookup := h.lookup_eq hvalid hkept hprobe hfits
        dsimp only
        rw [hfirst]
        change Implements (defined (m2.write _ key) >>= _) _ _
        rw [hsecond]
        change Implements (defined (lookup m3 temp raw) >>= _) _ _
        rw [hlookup]
        cases buffer.get key with
        | none => exact .excluded
        | some value =>
            change Implements (defined (m3.delete temp) >>= _) _ _
            rw [hdelete]
            exact .returns ⟨rfl, h.keep hblocks hagree⟩
  · rw [RawBuffer.get, StorageBuffer.get, if_neg hfits, if_neg hfits]
    exact .excluded

theorem writeFlushBuffer_eq (h : Shows m₀ m raw buffer) (iter : IterOrder) :
    raw.writeFlushBuffer iter m = buffer.writeFlushBuffer iter := by
  have hflushing := h.flushing
  rw [RawBuffer.writeFlushBuffer, StorageBuffer.writeFlushBuffer]
  generalize raw.flushMemory = memory at hflushing
  generalize raw.flushBuffer = list at hflushing
  generalize buffer.flushBuffer = entries at hflushing
  cases hflushing with
  | absent => rfl
  | present hlists _ =>
      obtain ⟨first, pointers, hfirst, hpointers, hcontent⟩ :=
        hlists.flushContent
      simp only [Option.bind_eq_bind, Option.bind_some, hfirst, hpointers,
        hcontent]

/-- `ClearFlushBuffer` gives the flush arena back and nothing else. -/
theorem clearFlushBuffer (h : Shows m₀ m raw buffer) :
    ∃ m' raw', raw.clearFlushBuffer m = some (m', raw') ∧
      Shows m₀ m' raw' buffer.clearFlushBuffer := by
  have hflushing := h.flushing
  have hothers := h.others
  unfold RawBuffer.clearFlushBuffer
  generalize raw.flushMemory = memory at hflushing hothers
  generalize raw.flushBuffer = list at hflushing
  generalize buffer.flushBuffer = entries at hflushing
  cases hflushing with
  | absent =>
      exact ⟨m, _, rfl, h.income, .absent, h.bufferSize, h.incomeSize,
        h.flushThreadReady, rfl, hothers, h.untouched⟩
  | @present arena _ _ hlists hdisjoint =>
      obtain ⟨last, hlast, hblocks, hram, _⟩ := hlists.owned.2.exists_destroy
      have hvalid : last.Valid := h.valid.filter hblocks
      refine ⟨last, { raw with
        flushBufferReady := false
        flushMemory := none
        flushBuffer := none }, ?_, ?_⟩
      · rw [deleteMemory, hlast]
        rfl
      · refine ⟨h.income.keep hvalid ?_, .absent, h.bufferSize, h.incomeSize,
          h.flushThreadReady, rfl, ?_, ?_⟩
        · intro block hblock hmine
          rw [hblocks, hram]
          refine ⟨List.mem_filter.mpr ⟨hblock, ?_⟩, .refl _ _⟩
          simpa using fun hother => hdisjoint _ hother hmine
        · refine (filter_not_mem_nil _).trans ?_
          rw [hblocks, List.filter_filter, ← hothers, List.filter_filter]
          apply List.filter_congr
          intro block _
          exact Bool.and_comm _ _
        · intro block hblock
          rw [hram]
          exact h.untouched block hblock

/-- The destructor leaves the blocks that were there before. -/
theorem destroy (h : Shows m₀ m raw buffer) :
    ∃ last, raw.destroy m = some last ∧ last.blocks = m₀.blocks ∧
      ∀ block ∈ m₀.blocks, Agree m₀.ram last.ram block := by
  have hflushing := h.flushing
  have hothers := h.others
  obtain ⟨m1, hm1, hblocks1, hram1, _⟩ := h.income.owned.2.exists_destroy
  unfold RawBuffer.destroy
  rw [hm1]
  generalize raw.flushMemory = memory at hflushing hothers
  generalize raw.flushBuffer = list at hflushing
  generalize buffer.flushBuffer = entries at hflushing
  cases hflushing with
  | absent =>
      refine ⟨m1, rfl, ?_, fun block hblock => hram1 ▸ h.untouched block hblock⟩
      rw [hblocks1, ← hothers]
      exact (filter_not_mem_nil _).symm
  | @present arena _ _ hlists hdisjoint =>
      have hkept : arena.Kept m m1 := by
        intro block hblock hmine
        rw [hblocks1, hram1]
        refine ⟨List.mem_filter.mpr ⟨hblock, ?_⟩, .refl _ _⟩
        simpa using hdisjoint _ hmine
      obtain ⟨last, hlast, hblocks, hram, _⟩ :=
        (hlists.owned.2.keep hkept).exists_destroy
      refine ⟨last, hlast, ?_, fun block hblock => ?_⟩
      · rw [hblocks, hblocks1]
        exact hothers
      · rw [hram, hram1]
        exact h.untouched block hblock

end Shows

end Shows

end RawBuffer

end SimpleKV
