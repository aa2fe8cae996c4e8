/-
The hand-off of a full buffer from the writers to the flush thread: what the
two flags, the program counter of the flush thread and the two buffers say of
each other in every state.
-/
import SimpleKV.Steps
import SimpleKV.CompactionInvariant

namespace SimpleKV

/-- What the flush thread may rely on at each point of its loop. -/
def PcInv (buffer : StorageBuffer) (isStop : Bool) (flight : Flight) :
    FlushPc → Prop
  | .loop | .setIdle =>
      buffer.flushThreadReady = false ∧ buffer.flushBuffer = none ∧
        flight = .none
  | .test | .park | .parked =>
      (buffer.flushThreadReady = true ∨ buffer.flushBuffer ≠ none) ∧
        flight = .none
  | .check =>
      (buffer.flushThreadReady = true ∨ buffer.flushBuffer ≠ none) ∧
        (buffer.flushBuffer ≠ none ∨ isStop = true) ∧ flight = .none
  | .newFile => buffer.flushBuffer ≠ none ∧ flight = .none
  | .write => buffer.flushBuffer ≠ none ∧ ∃ id name, flight = .created id name
  | .clear _ =>
      buffer.flushBuffer ≠ none ∧ ∃ id name, flight = .written id name
  | .cacheSet _ | .addFile =>
      buffer.flushThreadReady = false ∧ buffer.flushBuffer = none ∧
        ∃ id name, flight = .written id name
  | .done => flight = .none

/-- The hand-off invariant. -/
structure HandoffInv (db : DataBase) : Prop where
  income : db.buffer.incomeBuffer.Built
  flushing : ∀ list ∈ db.buffer.flushBuffer, list.Built ∧ list ≠ []
  ready : db.buffer.flushBufferReady = db.buffer.flushBuffer.isSome
  idle : db.buffer.flushThreadReady = true → db.buffer.flushBuffer = none
  notifying : db.notifying = true → db.buffer.flushBuffer ≠ none
  pc : PcInv db.buffer db.isStop db.store.flight db.flushPc

namespace EngineState

variable {state state' : EngineState}

theorem newFile_eq (h : state.newFile = some state') :
    state.flight = .none ∧ state'.flight = .created (state.engine.fileId + 1)
        (fileName 0 (state.engine.fileId + 1)) ∧
      state'.engine.fileId = state.engine.fileId + 1 := by
  unfold newFile at h
  split at h
  · rename_i hflight
    simp only [StorageEngine.newWritableFile, Option.some.injEq] at h
    exact h ▸ ⟨hflight, rfl, rfl⟩
  · exact absurd h (by simp)

theorem write_eq {bytes : Bytes} (h : state.write bytes = some state') :
    ∃ id name, state.flight = .created id name ∧
      state'.flight = .written id name ∧
      state'.engine.fileId = state.engine.fileId := by
  unfold write at h
  split at h
  · rename_i id name hflight
    rw [Option.some.injEq] at h
    exact h ▸ ⟨id, name, hflight, rfl, rfl⟩
  · exact absurd h (by simp)

theorem addFile_eq (h : state.addFile = some state') :
    state'.flight = .none ∧ state'.engine.fileId = state.engine.fileId := by
  unfold addFile at h
  split at h
  · obtain ⟨engine, hengine, hstate⟩ := Option.bind_eq_some_iff.mp h
    rw [Option.some.injEq] at hstate
    rw [StorageEngine.addFile, Option.map_eq_some_iff] at hengine
    obtain ⟨file, _, rfl⟩ := hengine
    exact hstate ▸ ⟨rfl, rfl⟩
  · exact absurd h (by simp)

end EngineState

namespace Merge

variable {engine engine' : StorageEngine} {merge merge' : Merge}

theorem fileId_le_flushCompactedFile {build : Build} {iter : IterOrder}
    {levelId : Nat} (h : merge.flushCompactedFile build iter levelId engine =
      some (engine', merge')) : engine.fileId ≤ engine'.fileId := by
  have hid := fileId_flushCompactedFile h
  simp only at hid
  omega

theorem fileId_le_consume {build : Build} {iter : IterOrder}
    {bufferSize : UInt32} {levelId : Nat} {entry : Entry}
    (h : consumeWith (flushCompactedFile build iter levelId) bufferSize entry
      engine merge = some (engine', merge')) :
    engine.fileId ≤ engine'.fileId := by
  simp only [consumeWith] at h
  split_ifs at h
  · rw [Option.some.injEq, Prod.mk.injEq] at h
    rw [h.1]
  · exact fileId_le_flushCompactedFile h
  · rw [Option.some.injEq, Prod.mk.injEq] at h
    rw [h.1]
  · rw [Option.some.injEq, Prod.mk.injEq] at h
    rw [h.1]

theorem fileId_le_round {build : Build} {queue : PriorityQueue}
    {iter : IterOrder} {bufferSize : UInt32} {levelId : Nat}
    (h : merge.round build queue iter bufferSize levelId engine =
      some (engine', merge')) : engine.fileId ≤ engine'.fileId := by
  unfold round roundWith at h
  obtain ⟨⟨entry, pq⟩, _, h⟩ := Option.bind_eq_some_iff.mp h
  obtain ⟨⟨engine'', merge''⟩, hconsume, h⟩ := Option.bind_eq_some_iff.mp h
  obtain ⟨_, _, h⟩ := Option.bind_eq_some_iff.mp h
  rw [Option.some.injEq, Prod.mk.injEq] at h
  rw [← h.1]
  exact fileId_le_consume hconsume

theorem fileId_le_finish {build : Build} {iter : IterOrder} {levelId : Nat}
    (h : merge.finish build iter levelId engine = some (engine', merge')) :
    engine.fileId ≤ engine'.fileId := by
  unfold finish finishWith at h
  split_ifs at h
  · rw [Option.some.injEq, Prod.mk.injEq] at h
    rw [h.1]
  · exact fileId_le_flushCompactedFile h

end Merge

theorem fileId_le_trivialMove {file moved : File}
    {engine engine' : StorageEngine}
    (h : trivialMove file engine = some (moved, engine')) :
    engine.fileId ≤ engine'.fileId := by
  unfold trivialMove at h
  obtain ⟨bytes, _, h⟩ := Option.bind_eq_some_iff.mp h
  obtain ⟨opened, _, h⟩ := Option.bind_eq_some_iff.mp h
  rw [Option.some.injEq, Prod.mk.injEq] at h
  rw [← h.2]
  exact Int.le_add_one (le_refl _)

/-- A compaction leaves the flush thread's file alone and draws ids upwards. -/
theorem CompactStep.flight_eq {bufferSize : UInt32}
    {state state' : EngineState} (h : CompactStep bufferSize state state') :
    state'.flight = state.flight ∧
      state.engine.fileId ≤ state'.engine.fileId := by
  cases h with
  | call h =>
      unfold EngineState.call at h
      split_ifs at h
      rw [← Option.some.inj h]
      exact ⟨rfl, le_refl _⟩
  | select h =>
      unfold EngineState.select at h
      split at h
      · split at h <;> rw [← Option.some.inj h] <;> exact ⟨rfl, le_refl _⟩
      · exact absurd h (by simp)
  | merge h =>
      unfold EngineState.merge at h
      split at h
      · obtain ⟨⟨moved, engine⟩, hmove, h⟩ := Option.bind_eq_some_iff.mp h
        rw [← Option.some.inj h]
        exact ⟨rfl, fileId_le_trivialMove hmove⟩
      · obtain ⟨merge, _, h⟩ := Option.bind_eq_some_iff.mp h
        rw [← Option.some.inj h]
        exact ⟨rfl, le_refl _⟩
      · split_ifs at h
        · obtain ⟨⟨engine, merge⟩, hfinish, h⟩ := Option.bind_eq_some_iff.mp h
          rw [← Option.some.inj h]
          exact ⟨rfl, Merge.fileId_le_finish hfinish⟩
        · obtain ⟨⟨engine, merge⟩, hround, h⟩ := Option.bind_eq_some_iff.mp h
          rw [← Option.some.inj h]
          exact ⟨rfl, Merge.fileId_le_round hround⟩
      · exact absurd h (by simp)
  | remove h =>
      unfold EngineState.remove at h
      split at h
      · rw [← Option.some.inj h]
        exact ⟨rfl, le_refl _⟩
      · exact absurd h (by simp)
  | finish h =>
      unfold EngineState.finish at h
      split at h
      · rw [← Option.some.inj h]
        exact ⟨rfl, le_refl _⟩
      · exact absurd h (by simp)

theorem EngineState.update_flight {state state' : EngineState}
    (h : state.update = some state') :
    state'.flight = state.flight ∧
      state.engine.fileId ≤ state'.engine.fileId := by
  unfold EngineState.update at h
  split at h
  · rename_i levelId files compactedFiles needRemoveFile _
    rw [← Option.some.inj h]
    refine ⟨rfl, le_of_eq ?_⟩
    exact (StorageEngine.fileId_updateMap compactedFiles files
      state.engine).1.symm
  · exact absurd h (by simp)

/-- What `Add` does to an encoded income buffer. -/
theorem StorageBuffer.add_cases {buffer buffer' : StorageBuffer}
    {key value : ByteArray} {notifying : Bool}
    (hincome : buffer.incomeBuffer.Built)
    (h : buffer.add key value = some (buffer', notifying)) :
    Short (key.data, value.data) ∧
      Encodes (buffer.insert key value).incomeBuffer
        (SortedAssoc.upsert key.data value.data
          buffer.incomeBuffer.entries) ∧
      notifying = (buffer.insert key value).swaps ∧
      ((notifying = false ∧
          buffer'.incomeBuffer = (buffer.insert key value).incomeBuffer ∧
          buffer'.flushBuffer = buffer.flushBuffer ∧
          buffer'.flushThreadReady = buffer.flushThreadReady ∧
          buffer'.flushBufferReady = buffer.flushBufferReady) ∨
        (notifying = true ∧ buffer.flushThreadReady = true ∧
          buffer'.incomeBuffer = [] ∧
          buffer'.flushBuffer = some (buffer.insert key value).incomeBuffer ∧
          buffer'.flushThreadReady = false ∧
          buffer'.flushBufferReady = true)) := by
  obtain ⟨hshort, hresult⟩ := add_eq_some_iff.mp h
  refine ⟨hshort, hincome.insert hshort, ?_⟩
  split_ifs at hresult with hswaps
  · rw [Prod.mk.injEq] at hresult
    obtain ⟨rfl, rfl⟩ := hresult
    exact ⟨hswaps.symm, Or.inr ⟨rfl, (Bool.and_eq_true_iff.mp hswaps).2, rfl,
      rfl, rfl, rfl⟩⟩
  · rw [Prod.mk.injEq] at hresult
    obtain ⟨rfl, rfl⟩ := hresult
    exact ⟨by simpa using hswaps, Or.inl ⟨rfl, rfl, rfl, rfl, rfl⟩⟩

theorem Encodes.ne_nil {list : SkipList Bytes} {entries : List (Bytes × Bytes)}
    (h : Encodes list entries) (hne : entries ≠ []) : list ≠ [] := by
  rw [h.nodes, encodeEntries]
  simpa using hne

namespace HandoffInv

variable {db db' : DataBase}

theorem start (bufferSize : UInt32) (cache : LRUCache)
    (engine : StorageEngine) : HandoffInv (.start bufferSize cache engine) where
  income := Encodes.nil
  flushing := fun list hlist => absurd hlist (by simp [DataBase.start,
    StorageBuffer.new])
  ready := rfl
  idle := fun _ => rfl
  notifying := fun h => absurd h (by simp [DataBase.start])
  pc := ⟨rfl, rfl, rfl⟩

/-- Steps outside the hand-off. -/
theorem congr (h : HandoffInv db) (hbuffer : db'.buffer = db.buffer)
    (hnotifying : db'.notifying = db.notifying)
    (hpc : db'.flushPc = db.flushPc)
    (hflight : db'.store.flight = db.store.flight)
    (hstop : db.isStop = true → db'.isStop = true) : HandoffInv db' := by
  refine ⟨hbuffer ▸ h.income, hbuffer ▸ h.flushing, hbuffer ▸ h.ready,
    hbuffer ▸ h.idle, ?_, ?_⟩
  · rw [hbuffer, hnotifying]
    exact h.notifying
  · have hold := h.pc
    rw [hbuffer, hflight, hpc]
    generalize db.flushPc = pc at hold
    cases pc with
    | check => exact ⟨hold.1, hold.2.1.imp_right hstop, hold.2.2⟩
    | _ => exact hold

/-- A move of the flush thread to another point of its loop. -/
theorem withPc (h : HandoffInv db) {pc : FlushPc}
    (hpc : PcInv db.buffer db.isStop db.store.flight pc) :
    HandoffInv { db with flushPc := pc } :=
  ⟨h.income, h.flushing, h.ready, h.idle, h.notifying, hpc⟩

theorem notifyFlush (h : HandoffInv db) : HandoffInv db.notifyFlush := by
  unfold DataBase.notifyFlush
  split
  · rename_i hpc
    have hold := h.pc
    rw [hpc] at hold
    exact h.withPc hold
  · exact h

/-- A swap only happens into an empty slot. -/
theorem flushBuffer_eq_none_of_swap (h : HandoffInv db)
    {order : OrderType} {key value : Bytes} {buffer : StorageBuffer}
    (hadd : db.buffer.add (.ofString key)
      (.ofString (DataBase.orderValue order value)) = some (buffer, true)) :
    db.buffer.flushBuffer = none := by
  obtain ⟨_, _, _, ⟨hfalse, _⟩ | ⟨_, hready, _⟩⟩ :=
    StorageBuffer.add_cases h.income hadd
  · exact absurd hfalse (by simp)
  · exact h.idle hready

theorem add (h : HandoffInv db) {order : OrderType} {key value : Bytes}
    {buffer : StorageBuffer} {notifying : Bool}
    (hadd : db.buffer.add (.ofString key)
      (.ofString (DataBase.orderValue order value)) =
        some (buffer, notifying)) :
    HandoffInv { db with buffer, notifying } := by
  obtain ⟨_, hlist, _, hcases⟩ := StorageBuffer.add_cases h.income hadd
  have hold := h.pc
  rcases hcases with ⟨rfl, hincome, hflush, hthread, hready⟩ |
    ⟨rfl, hthread, hincome, hflush, hthread', hready⟩
  · refine ⟨?_, ?_, ?_, ?_, fun hfalse => absurd hfalse (by simp), ?_⟩
    · change buffer.incomeBuffer.Built
      rw [hincome]
      exact hlist.built
    · change ∀ list ∈ buffer.flushBuffer, _
      rw [hflush]
      exact h.flushing
    · change buffer.flushBufferReady = buffer.flushBuffer.isSome
      rw [hready, hflush]
      exact h.ready
    · change buffer.flushThreadReady = true → buffer.flushBuffer = none
      rw [hthread, hflush]
      exact h.idle
    · change PcInv buffer db.isStop db.store.flight db.flushPc
      generalize db.flushPc = pc at hold
      cases pc <;> simp only [PcInv, hflush, hthread] at hold ⊢ <;> exact hold
  · have hnone := h.idle hthread
    refine ⟨?_, ?_, ?_, ?_, ?_, ?_⟩
    · change buffer.incomeBuffer.Built
      rw [hincome]
      exact Encodes.nil
    · change ∀ list ∈ buffer.flushBuffer, _
      rw [hflush]
      intro other hother
      rw [Option.mem_some_iff] at hother
      subst hother
      exact ⟨hlist.built, hlist.ne_nil (SortedAssoc.upsert_ne_nil _ _ _)⟩
    · change buffer.flushBufferReady = buffer.flushBuffer.isSome
      rw [hready, hflush]
      rfl
    · change buffer.flushThreadReady = true → _
      rw [hthread']
      exact fun hfalse => absurd hfalse (by simp)
    · intro _
      change buffer.flushBuffer ≠ none
      rw [hflush]
      simp
    · change PcInv buffer db.isStop db.store.flight db.flushPc
      generalize db.flushPc = pc at hold
      -- The flags exclude every point but the waiting ones.
      cases pc <;>
        simp_all [PcInv]

theorem addNotify (h : HandoffInv db) :
    HandoffInv { db.notifyFlush with notifying := false } :=
  ⟨h.notifyFlush.income, h.notifyFlush.flushing, h.notifyFlush.ready,
    h.notifyFlush.idle, fun hfalse => absurd hfalse (by simp),
    h.notifyFlush.pc⟩

theorem setIdle (h : HandoffInv db) (hat : db.flushPc = .setIdle) :
    HandoffInv
      { db with
        buffer := db.buffer.setFlushThreadIdle
        flushPc := .test } := by
  have hpc := h.pc
  rw [hat] at hpc
  exact ⟨h.income, h.flushing, h.ready, fun _ => hpc.2.1, h.notifying,
    Or.inl rfl, hpc.2.2⟩

theorem flushLoop (h : HandoffInv db) (hat : db.flushPc = .loop) :
    HandoffInv
      { db with flushPc := if db.isStop then .done else .setIdle } := by
  have hpc := h.pc
  rw [hat] at hpc
  refine h.withPc ?_
  split_ifs
  · exact hpc.2.2
  · exact hpc

/-- The flush thread goes past its wait with a buffer or after a stop. -/
theorem flushTest (h : HandoffInv db) (hat : db.flushPc = .test) :
    HandoffInv
      { db with
        flushPc :=
          if !db.buffer.flushBufferReady && !db.isStop then .park
          else .check } := by
  have hpc := h.pc
  rw [hat] at hpc
  refine h.withPc ?_
  split_ifs with hwait
  · exact hpc
  · refine ⟨hpc.1, ?_, hpc.2⟩
    rw [h.ready] at hwait
    cases hflush : db.buffer.flushBuffer with
    | none => exact Or.inr (by simpa [hflush] using hwait)
    | some list => exact Or.inl (by simp)

theorem flushCheck (h : HandoffInv db) (hat : db.flushPc = .check) :
    HandoffInv
      { db with flushPc := if db.isStop then .done else .newFile } := by
  have hpc := h.pc
  rw [hat] at hpc
  refine h.withPc ?_
  split_ifs with hstop
  · exact hpc.2.2
  · exact ⟨hpc.2.1.resolve_right hstop, hpc.2.2⟩

/-- The steps that only move threads along. -/
theorem control (h : HandoffInv db) {act : Act}
    (hstep : db.ControlStep act db') : HandoffInv db' := by
  have hpc := h.pc
  cases hstep with
  | addNotify _ => exact h.addNotify
  | setIdle hat => exact h.setIdle hat
  | flushLoop hat => exact h.flushLoop hat
  | flushTest hat => exact h.flushTest hat
  | flushPark hat | flushWake hat =>
      rw [hat] at hpc
      exact h.withPc hpc
  | flushCheck hat => exact h.flushCheck hat
  | shutDown _ => exact h.congr rfl rfl rfl rfl fun _ => rfl
  | shutNotifyFlush _ => exact h.notifyFlush.congr rfl rfl rfl rfl id
  | shutNotifyCompact _ =>
      obtain ⟨pc, hnotify⟩ := db.notifyCompact_eq
      rw [hnotify]
      exact h.congr rfl rfl rfl rfl id
  | compactCall _ _ hcall =>
      have hflight : CompactStep 0 db.store _ := .call hcall
      exact h.congr rfl rfl rfl hflight.flight_eq.1 id
  | compactLoop _ | compactPark _ | compactWake _ | compactEnd _ _
  | compactReturn _ _ => exact h.congr rfl rfl rfl rfl id

/-- Every step keeps the hand-off invariant. -/
theorem step (h : HandoffInv db) {act : Act}
    (hstep : DataBase.step act db = some db') : HandoffInv db' := by
  have hpc := h.pc
  cases DataBase.step_data hstep with
  | control hact _ => exact h.control (DataBase.step_control hstep hact)
  | add _ hadd => exact h.add hadd
  | getFiles hget =>
      obtain ⟨cache, rfl⟩ := DataBase.getFiles_eq hget
      exact h.congr rfl rfl rfl rfl id
  | clearCache => exact h.congr rfl rfl rfl rfl id
  | newFile hat hstore =>
      rw [hat] at hpc
      obtain ⟨_, hflight, _⟩ := EngineState.newFile_eq hstore
      exact ⟨h.income, h.flushing, h.ready, h.idle, h.notifying, hpc.1, _, _,
        hflight⟩
  | write hat _ hstore =>
      rw [hat] at hpc
      obtain ⟨id, name, _, hflight, _⟩ := EngineState.write_eq hstore
      exact ⟨h.income, h.flushing, h.ready, h.idle, h.notifying, hpc.1, id,
        name, hflight⟩
  | clear hat hnotifying =>
      rw [hat] at hpc
      refine ⟨h.income, fun list hlist => absurd hlist (by simp
        [StorageBuffer.clearFlushBuffer]), rfl, fun _ => rfl,
        fun htrue => ?_, ?_, rfl, hpc.2⟩
      · change db.notifying = true at htrue
        rw [hnotifying] at htrue
        exact absurd htrue (by simp)
      · change db.buffer.flushThreadReady = false
        by_contra hready
        exact hpc.1 (h.idle (by simpa using hready))
  | cacheSet hat hflight =>
      rw [hat] at hpc
      exact ⟨h.income, h.flushing, h.ready, h.idle, h.notifying, hpc⟩
  | addFile hat hstore =>
      rw [hat] at hpc
      obtain ⟨hflight, _⟩ := EngineState.addFile_eq hstore
      exact ⟨h.income, h.flushing, h.ready, h.idle, h.notifying, hpc.1,
        hpc.2.1, hflight⟩
  | compact _ hcompact =>
      exact h.congr rfl rfl rfl hcompact.flight_eq.1 id
  | update hupdate =>
      exact h.congr rfl rfl rfl (EngineState.update_flight hupdate).1 id

end HandoffInv

end SimpleKV
