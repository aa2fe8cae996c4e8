/-
Whole runs of the storage buffer in memory: calls of `Add` and `Get` and steps of
the flush thread in any order.  They follow the runs of the buffer of lists.
-/
import SimpleKV.RawBuffer

namespace SimpleKV

open ByteMemory Memory

namespace RawBuffer

/-- Where the flush thread stands in its loop. -/
inductive FlushPc where
  | top
  | waiting
  | clearing
deriving DecidableEq

/-- A call or the next step of the flush thread; the table of a file is iterated
in some order. -/
inductive Op where
  | add (key value : ByteArray)
  | get (key : Bytes)
  | flushThread (iter : IterOrder)

/-- What an operation shows. -/
inductive Out where
  | added (notified : Bool)
  | found (value : Option Bytes)
  | idle
  | waits
  | wrote (file : Bytes) (keyOffset : KeyOffset)
  | cleared
deriving DecidableEq

/-- An operation on the buffer of lists. -/
def specStep : Op → FlushPc → StorageBuffer →
    Option (Out × FlushPc × StorageBuffer)
  | .add key value, pc, buffer => do
      let (buffer, notified) ← buffer.add key value
      some (.added notified, pc, buffer)
  | .get key, pc, buffer => do
      let value ← buffer.get key
      some (.found value, pc, buffer)
  | .flushThread _, .top, buffer =>
      some (.idle, .waiting, buffer.setFlushThreadIdle)
  | .flushThread iter, .waiting, buffer =>
      if buffer.flushBufferReady then do
        let (file, keyOffset) ← buffer.writeFlushBuffer iter
        some (.wrote file keyOffset, .clearing, buffer)
      else some (.waits, .waiting, buffer)
  | .flushThread _, .clearing, buffer =>
      some (.cleared, .top, buffer.clearFlushBuffer)

def specSteps : List Op → FlushPc → StorageBuffer → Option (List Out)
  | [], _, _ => some []
  | op :: ops, pc, buffer => do
      let (out, pc, buffer) ← specStep op pc buffer
      let outs ← specSteps ops pc buffer
      some (out :: outs)

section Code

variable (allocator : Allocator) (headKey : Nat)

/-- An operation on the buffer in memory. -/
def step : Op → FlushPc → Machine → RawBuffer →
    Except Fault (Out × FlushPc × Machine × RawBuffer)
  | .add key value, pc, m, buffer => do
      let (notified, m, buffer) ← buffer.add allocator headKey key value m
      .ok (.added notified, pc, m, buffer)
  | .get key, pc, m, buffer => do
      let (value, m) ← buffer.get allocator key m
      .ok (.found value, pc, m, buffer)
  | .flushThread _, .top, m, buffer =>
      .ok (.idle, .waiting, m, { buffer with flushThreadReady := true })
  | .flushThread iter, .waiting, m, buffer =>
      if buffer.flushBufferReady then do
        let (file, keyOffset) ← defined (buffer.writeFlushBuffer iter m)
        .ok (.wrote file keyOffset, .clearing, m, buffer)
      else .ok (.waits, .waiting, m, buffer)
  | .flushThread _, .clearing, m, buffer => do
      let (m, buffer) ← defined (buffer.clearFlushBuffer m)
      .ok (.cleared, .top, m, buffer)

def steps : List Op → FlushPc → Machine → RawBuffer →
    Except Fault (List Out × Machine × RawBuffer)
  | [], _, m, buffer => .ok ([], m, buffer)
  | op :: ops, pc, m, buffer => do
      let (out, pc, m, buffer) ← step allocator headKey op pc m buffer
      let (outs, m, buffer) ← steps ops pc m buffer
      .ok (out :: outs, m, buffer)

/-- The constructor and then the operations. -/
def run (bufferSize : UInt32) (ops : List Op) (m : Machine) :
    Except Fault (List Out × Machine × RawBuffer) := do
  let (m, buffer) ← new allocator headKey bufferSize m
  steps allocator headKey ops .top m buffer

end Code

section Steps

variable {m₀ m : Machine} {raw : RawBuffer} {buffer : StorageBuffer}
  {pc : FlushPc}

/-- A swap finds no flush buffer. -/
def Phase : FlushPc → StorageBuffer → Prop
  | .top, buffer => buffer.flushThreadReady = false ∧
      buffer.flushBuffer = none ∧ buffer.flushBufferReady = false
  | .waiting, buffer => buffer.flushThreadReady = true →
      buffer.flushBuffer = none ∧ buffer.flushBufferReady = false
  | .clearing, buffer => buffer.flushThreadReady = false

theorem Phase.eq_none (h : Phase pc buffer)
    (hready : buffer.flushThreadReady = true) :
    buffer.flushBuffer = none := by
  cases pc with
  | top => exact h.2.1
  | waiting => exact (h hready).1
  | clearing =>
      have hbusy : buffer.flushThreadReady = false := h
      rw [hready] at hbusy
      exact absurd hbusy (by simp)

/-- The flags as `Add` leaves them. -/
theorem Phase.add (h : Phase pc buffer) {key value : ByteArray}
    {result : StorageBuffer × Bool}
    (hadd : buffer.add key value = some result) : Phase pc result.1 := by
  obtain ⟨_, rfl⟩ := StorageBuffer.add_eq_some_iff.mp hadd
  split_ifs with hswaps
  · have hready : buffer.flushThreadReady = true := by
      rw [StorageBuffer.swaps, Bool.and_eq_true] at hswaps
      exact hswaps.2
    cases pc with
    | top =>
        rw [h.1] at hready
        exact absurd hready (by simp)
    | waiting => exact fun hbusy => absurd hbusy (by
        simp [StorageBuffer.swapBuffer, StorageBuffer.setFlushThreadBusy])
    | clearing => rfl
  · cases pc with
    | top => exact h
    | waiting => exact h
    | clearing => exact h

theorem Shows.add (h : Shows m₀ m raw buffer) (allocator : Allocator)
    (headKey : Nat) (key value : ByteArray)
    (hidle : buffer.flushThreadReady = true → buffer.flushBuffer = none) :
    Implements (raw.add allocator headKey key value m) (buffer.add key value)
      fun result spec => result.1 = spec.2 ∧
        Shows m₀ result.2.1 result.2.2 spec.1 := by
  by_cases hshort : Short (key.data, value.data)
  · rw [StorageBuffer.add_eq_some_iff.mpr ⟨hshort, rfl⟩]
    apply Ends.implements _ fun result hresult => hresult
    apply (h.insert allocator hshort).bind
    rintro ⟨m1, raw1⟩ h1
    dsimp only at h1 ⊢
    rw [h1.swaps_eq]
    by_cases hswaps : (buffer.insert key value).swaps = true
    · rw [if_pos hswaps, if_pos hswaps]
      have hready : buffer.flushThreadReady = true := by
        rw [StorageBuffer.swaps, Bool.and_eq_true] at hswaps
        exact hswaps.2
      have hbusy : Shows m₀ m1 { raw1 with flushThreadReady := false }
          (buffer.insert key value).setFlushThreadBusy :=
        ⟨h1.income, h1.flushing, h1.bufferSize, h1.incomeSize, rfl,
          h1.flushBufferReady, h1.others, h1.untouched⟩
      apply (hbusy.swapBuffer allocator headKey (hidle hready)).bind
      rintro ⟨m2, raw2⟩ h2
      exact ⟨rfl, h2⟩
    · rw [if_neg hswaps, if_neg hswaps]
      exact ⟨rfl, h1⟩
  · have hnone : buffer.add key value = none := by
      cases hadd : buffer.add key value with
      | none => rfl
      | some result =>
          exact absurd (StorageBuffer.add_eq_some_iff.mp hadd).1 hshort
    rw [hnone]
    cases hraw : raw.add allocator headKey key value m with
    | error fault => exact .excluded
    | ok result =>
        obtain ⟨inserted, hinsert, _⟩ := bind_eq_ok.mp hraw
        exact absurd (short_of_insert hinsert) hshort

/-- One operation in memory and on lists. -/
theorem implements_step (h : Shows m₀ m raw buffer) (hphase : Phase pc buffer)
    (allocator : Allocator) (headKey : Nat) (op : Op) :
    Implements (step allocator headKey op pc m raw) (specStep op pc buffer)
      fun result spec => result.1 = spec.1 ∧ result.2.1 = spec.2.1 ∧
        Shows m₀ result.2.2.1 result.2.2.2 spec.2.2 ∧
        Phase spec.2.1 spec.2.2 := by
  cases op with
  | add key value =>
      apply (h.add allocator headKey key value hphase.eq_none).and_spec.bind
      rintro ⟨notified, m1, raw1⟩ ⟨buffer1, _⟩ ⟨⟨rfl, h1⟩, hadd⟩
      exact .returns ⟨rfl, rfl, h1, hphase.add hadd⟩
  | get key =>
      apply (h.get allocator key).bind
      rintro ⟨value, m1⟩ _ ⟨rfl, h1⟩
      exact .returns ⟨rfl, rfl, h1, hphase⟩
  | flushThread iter =>
      cases pc with
      | top =>
          exact .returns ⟨rfl, rfl, ⟨h.income, h.flushing, h.bufferSize, h.incomeSize,
            rfl, h.flushBufferReady, h.others, h.untouched⟩,
            fun _ => hphase.2⟩
      | waiting =>
          unfold step specStep
          dsimp only
          rw [h.flushBufferReady]
          split_ifs with hready
          · rw [h.writeFlushBuffer_eq]
            cases buffer.writeFlushBuffer iter with
            | none => exact .excluded
            | some written =>
                refine .returns ⟨rfl, rfl, h, ?_⟩
                by_contra hidle
                have hnot := (hphase (by simpa [Phase] using hidle)).2
                rw [hready] at hnot
                exact absurd hnot (by simp)
          · exact .returns ⟨rfl, rfl, h, hphase⟩
      | clearing =>
          obtain ⟨m1, raw1, hclear, h1⟩ := h.clearFlushBuffer
          unfold step specStep
          dsimp only
          rw [hclear]
          exact .returns ⟨rfl, rfl, h1, hphase, rfl, rfl⟩

/-- The operations in memory and on lists. -/
theorem implements_steps (allocator : Allocator) (headKey : Nat)
    (ops : List Op) :
    ∀ {m : Machine} {raw : RawBuffer} {buffer : StorageBuffer} {pc : FlushPc},
      Shows m₀ m raw buffer → Phase pc buffer →
      Implements (steps allocator headKey ops pc m raw) (specSteps ops pc buffer)
        fun result outs => result.1 = outs ∧
          ∃ last, Shows m₀ result.2.1 result.2.2 last := by
  induction ops with
  | nil => exact fun h _ => .returns ⟨rfl, _, h⟩
  | cons op ops ih =>
      intro m raw buffer pc h hphase
      apply (implements_step h hphase allocator headKey op).bind
      rintro ⟨out, pc', m1, raw1⟩ ⟨_, _, buffer1⟩ ⟨rfl, rfl, h1, hphase1⟩
      apply (ih h1 hphase1).bind
      rintro ⟨outs, m2, raw2⟩ _ ⟨rfl, hlast⟩
      exact .returns ⟨rfl, hlast⟩

end Steps

/-- A storage buffer in memory, from its constructor to its destructor, with any
allocator behind it and any calls of `Add` and `Get` between the steps of the
flush thread.  Unless it runs out of memory it returns exactly where the buffer
of lists does, with the same results, notifications and files; no access leaves
the live blocks, and none is undefined that the buffer of lists does not
exclude.  The blocks of others keep their bytes, and the destructor gives back
every block that was taken. -/
theorem buffer_in_memory (allocator : Allocator) (headKey : Nat)
    (bufferSize : UInt32) (ops : List Op) {m : Machine} (hvalid : m.Valid) :
    Implements (run allocator headKey bufferSize ops m)
      (specSteps ops .top (.new bufferSize))
      fun result outs => result.1 = outs ∧
        (∀ block ∈ m.blocks, block ∈ result.2.1.blocks ∧
          Agree m.ram result.2.1.ram block) ∧
        ∃ last, result.2.2.destroy result.2.1 = some last ∧
          last.blocks = m.blocks ∧
          ∀ block ∈ m.blocks, Agree m.ram last.ram block := by
  have hnew : Ends (new allocator headKey bufferSize m) fun result =>
      Shows m result.1 result.2 (.new bufferSize) := by
    apply (ends_newList hvalid allocator headKey).bind
    rintro ⟨m1, incomeMemory, incomeBuffer⟩ ⟨hlists, hworked⟩
    refine ⟨hlists, .absent, rfl, rfl, rfl, rfl, ?_, ?_⟩
    · refine (filter_not_mem_nil _).trans ?_
      exact hworked.others.trans (filter_not_mem_nil _)
    · exact fun block hblock => hworked.outside block hblock List.not_mem_nil
  have hstart : Implements (new allocator headKey bufferSize m)
      (some (StorageBuffer.new bufferSize))
      fun result buffer => Shows m result.1 result.2 buffer ∧
        Phase .top buffer :=
    hnew.implements fun result h => ⟨h, rfl, rfl, rfl⟩
  have hrun := hstart.bind fun result buffer h =>
    implements_steps allocator headKey ops h.1 h.2
  apply hrun.mono
  rintro ⟨outs, m1, raw⟩ _ ⟨rfl, buffer, h⟩
  exact ⟨rfl, fun block hblock =>
    ⟨(h.mem_blocks hblock).1, h.untouched block hblock⟩, h.destroy⟩

/-- An idle flush thread, an entry that makes the buffers swap, and a look for
it in the flush buffer. -/
def swapOps : List Op :=
  [.flushThread .inOrder, .add (.ofString [97]) (.ofString [49]), .get [97]]

theorem buffer_in_memory_swap :
    ∃ m buffer last, oneBlock.Valid ∧
      run .above 64 2 swapOps oneBlock =
        .ok ([.idle, .added true, .found (some [49])], m, buffer) ∧
      buffer.destroy m = some last ∧ last.blocks = oneBlock.blocks := by
  have hvalid : oneBlock.Valid := ⟨by decide, by decide, by decide, by decide⟩
  have hspec : specSteps swapOps .top (.new 2) =
      some [.idle, .added true, .found (some [49])] := by
    decide +kernel
  have hok : (run .above 64 2 swapOps oneBlock).toBool = true := by
    decide +kernel
  obtain ⟨⟨outs, m, buffer⟩, hrun, rfl, _, last, hlast, hblocks, _⟩ :=
    (buffer_in_memory .above 64 2 swapOps hvalid).exists_ok hspec hok
  exact ⟨m, buffer, last, hvalid, hrun, hlast, hblocks⟩

end RawBuffer

end SimpleKV
