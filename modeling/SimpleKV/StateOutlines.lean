/-
Two engines with their compactions, and two buffers, that differ in the bytes of
values only: each operation, made on both, keeps them so.
-/
import SimpleKV.MergeOutlines
import SimpleKV.PlainSearch

namespace SimpleKV

open SortedAssoc

inductive PhaseAlike : Phase → Phase → Prop where
  | ready : PhaseAlike .ready .ready
  | selected (level : Nat) {files files' : List File} :
      FilesAlike files files' →
      PhaseAlike (.selected level files) (.selected level files')
  | merging (level : Nat) {files files' : List File} {merge merge' : Merge} :
      FilesAlike files files' → Merge.MergeAlike files files' merge merge' →
      PhaseAlike (.merging level files merge) (.merging level files' merge')
  | merged (level : Nat) (needRemoveFile : Bool)
      {files files' compacted compacted' : List File} :
      FilesAlike files files' → FilesAlike compacted compacted' →
      PhaseAlike (.merged level files compacted needRemoveFile)
        (.merged level files' compacted' needRemoveFile)
  | removing (level : Nat) {files files' : List File} :
      FilesAlike files files' →
      PhaseAlike (.removing level files) (.removing level files')

structure StateAlike (state state' : EngineState) : Prop where
  engine : EngineAlike state.engine state'.engine
  flight : state.flight = state'.flight
  calls : state.calls = state'.calls
  phase : PhaseAlike state.phase state'.phase

theorem limit_trivialMove {file moved : File} {engine engine' : StorageEngine}
    (h : trivialMove file engine = some (moved, engine')) :
    engine'.level0FilesNumberLimit = engine.level0FilesNumberLimit := by
  unfold trivialMove at h
  obtain ⟨bytes, _, h⟩ := Option.bind_eq_some_iff.mp h
  obtain ⟨opened, _, h⟩ := Option.bind_eq_some_iff.mp h
  rw [Option.some.injEq, Prod.mk.injEq] at h
  rw [← h.2]

namespace StateAlike

variable {state state' next next' : EngineState}
  {transit transit' : Option File}

theorem call (h : StateAlike state state') {level : Nat}
    (hcall : state.call level = some next)
    (hcall' : state'.call level = some next') : StateAlike next next' := by
  unfold EngineState.call at hcall hcall'
  split_ifs at hcall
  split_ifs at hcall'
  rw [← Option.some.inj hcall, ← Option.some.inj hcall']
  exact ⟨h.engine, h.flight, rfl, h.phase⟩

theorem select (h : StateAlike state state')
    (hselect : state.select = some next)
    (hselect' : state'.select = some next') : StateAlike next next' := by
  have hphase := h.phase
  unfold EngineState.select at hselect hselect'
  rw [h.calls] at hselect
  generalize state.phase = phase at hphase hselect
  cases hphase' : state'.phase with
  | ready =>
      rw [hphase'] at hphase hselect'
      cases hphase
      cases hcalls : state'.calls with
      | nil => simp [hcalls] at hselect
      | cons level calls =>
          have hfiles := h.engine.compactFiles level
          simp only [hcalls] at hselect hselect'
          generalize compactFiles state.engine level = files
            at hfiles hselect
          generalize compactFiles state'.engine level = files'
            at hfiles hselect'
          cases hfiles with
          | none =>
              rw [← Option.some.inj hselect, ← Option.some.inj hselect']
              exact ⟨h.engine, h.flight, rfl, .ready⟩
          | some hfiles =>
              rw [← Option.some.inj hselect, ← Option.some.inj hselect']
              exact ⟨h.engine, h.flight, rfl, .selected level hfiles⟩
  | _ => simp [hphase'] at hselect'

/-- `TrivialMove` of alike files. -/
theorem trivialMove (h : StateAlike state state')
    (hinv : EngineInv state transit) (hinv' : EngineInv state' transit')
    {level : Nat} {file file' moved moved' : File}
    {engine engine' : StorageEngine}
    (hphase : state.phase = .selected level [file])
    (hphase' : state'.phase = .selected level [file'])
    (hfile : Alike file file')
    (hmove : SimpleKV.trivialMove file state.engine = some (moved, engine))
    (hmove' : SimpleKV.trivialMove file' state'.engine =
      some (moved', engine'))
    (hids : engine.fileId < 10 ^ 8) (hids' : engine'.fileId < 10 ^ 8) :
    StateAlike
      { state with engine, phase := .merged level [file] [moved] false }
      { state' with
        engine := engine'
        phase := .merged level [file'] [moved'] false } := by
  have hsel := hinv.phase
  have hsel' := hinv'.phase
  rw [hphase] at hsel
  rw [hphase'] at hsel'
  obtain ⟨lo, hi, hsel⟩ := hsel
  obtain ⟨lo', hi', hsel'⟩ := hsel'
  obtain ⟨hafter, hlevels, _, hid, hmovedId⟩ :=
    hinv.trivialMove hphase hsel hmove hids state.calls
  obtain ⟨hafter', hlevels', _, hid', hmovedId'⟩ :=
    hinv'.trivialMove hphase' hsel' hmove' hids' state'.calls
  obtain ⟨_, old, new, hold, hnew, hmoved⟩ := hafter.phase
  obtain ⟨_, old', new', hold', hnew', hmoved'⟩ := hafter'.phase
  rw [List.cons.injEq] at hold hnew hold' hnew'
  rw [← hold.1, ← hnew.1] at hmoved
  rw [← hold'.1, ← hnew'.1] at hmoved'
  have hsame : state.engine.fileId = state'.engine.fileId := h.engine.fileId
  have hmovedAlike := hfile.moved hmoved hmoved'
    (hmovedId.trans (hsame ▸ hmovedId'.symm))
  refine ⟨⟨?_, ?_, ?_⟩, h.flight, h.calls, .merged level false
    (List.Forall₂.cons hfile List.Forall₂.nil)
    (List.Forall₂.cons hmovedAlike List.Forall₂.nil)⟩
  · simp only
    rw [hid, hid', hsame]
  · exact (limit_trivialMove hmove).trans
      (h.engine.limit.trans (limit_trivialMove hmove').symm)
  · simp only
    rw [hlevels, hlevels']
    exact h.engine.levels

/-- The start of two alike merges. -/
theorem startMerge (h : StateAlike state state')
    (hinv : EngineInv state transit) (hinv' : EngineInv state' transit')
    {level : Nat} {files files' : List File} {merge merge' : Merge}
    (hphase : state.phase = .selected level files)
    (hphase' : state'.phase = .selected level files')
    (hfiles : FilesAlike files files') (hstart : Merge.start files = some merge)
    (hstart' : Merge.start files' = some merge') :
    StateAlike { state with phase := .merging level files merge }
      { state' with phase := .merging level files' merge' } := by
  have hsel := hinv.phase
  have hsel' := hinv'.phase
  rw [hphase] at hsel
  rw [hphase'] at hsel'
  obtain ⟨lo, hi, hsel⟩ := hsel
  obtain ⟨lo', hi', hsel'⟩ := hsel'
  exact ⟨h.engine, h.flight, h.calls, .merging level hfiles
    (Merge.exists_start_alike hfiles
      (EngineInv.inputs hinv.levels hsel).1.sources.holds
      (EngineInv.inputs hinv'.levels hsel').1.sources.holds hstart hstart')⟩

/-- One piece of two alike merges. -/
theorem continueMerge (h : StateAlike state state')
    (hinv : EngineInv state transit) (hinv' : EngineInv state' transit')
    {level : Nat} {files files' : List File} {merge merge' : Merge}
    (hphase : state.phase = .merging level files merge)
    (hphase' : state'.phase = .merging level files' merge')
    (hfiles : FilesAlike files files')
    (halike : Merge.MergeAlike files files' merge merge') {build : Build}
    {queue : PriorityQueue} {iter : IterOrder} {bufferSize : UInt32}
    (hmerge : state.merge build queue iter bufferSize = some next)
    (hmerge' : state'.merge build queue iter bufferSize = some next')
    (hids : next.engine.fileId < 10 ^ 8) (hids' : next'.engine.fileId < 10 ^ 8)
    (hsmall : ∀ file ∈ next.phase.extra, file.Small)
    (hsmall' : ∀ file ∈ next'.phase.extra, file.Small) :
    StateAlike next next' := by
  have hmerging := hinv.phase
  have hmerging' := hinv'.phase
  rw [hphase] at hmerging
  rw [hphase'] at hmerging'
  obtain ⟨⟨lo, hi, hsel⟩, hmerging⟩ := hmerging
  obtain ⟨⟨lo', hi', hsel'⟩, hmerging'⟩ := hmerging'
  obtain ⟨hinputs, hlevel⟩ := EngineInv.inputs hinv.levels hsel
  obtain ⟨hinputs', _⟩ := EngineInv.inputs hinv'.levels hsel'
  have hempty : merge.pq = [] ↔ merge'.pq = [] := by
    obtain ⟨_, _, _, hinput⟩ := halike
    have hlength := hinput.pq.length_eq
    rw [List.length_map, List.length_map] at hlength
    rw [← List.length_eq_zero_iff, hlength, List.length_eq_zero_iff]
  simp only [EngineState.merge, hphase] at hmerge
  simp only [EngineState.merge, hphase'] at hmerge'
  by_cases hpq : merge.pq = []
  · rw [if_pos hpq] at hmerge
    rw [if_pos (hempty.mp hpq)] at hmerge'
    obtain ⟨⟨engine, after⟩, hfinish, hnext⟩ := Option.bind_eq_some_iff.mp hmerge
    obtain ⟨⟨engine', after'⟩, hfinish', hnext'⟩ :=
      Option.bind_eq_some_iff.mp hmerge'
    rw [Option.some.injEq] at hnext hnext'
    subst hnext hnext'
    obtain ⟨hcompacted, hengine⟩ := halike.finish h.engine hmerging hmerging'
      hinputs hinputs' hlevel hfinish hfinish' hids hids' hsmall hsmall'
    exact ⟨hengine, h.flight, h.calls, .merged level true hfiles hcompacted⟩
  · rw [if_neg hpq] at hmerge
    rw [if_neg fun hnil => hpq (hempty.mpr hnil)] at hmerge'
    obtain ⟨⟨engine, after⟩, hround, hnext⟩ := Option.bind_eq_some_iff.mp hmerge
    obtain ⟨⟨engine', after'⟩, hround', hnext'⟩ :=
      Option.bind_eq_some_iff.mp hmerge'
    rw [Option.some.injEq] at hnext hnext'
    subst hnext hnext'
    obtain ⟨hafter, hengine⟩ := halike.round h.engine hmerging hmerging'
      hinputs hinputs' hlevel hpq (fun hnil => hpq (hempty.mpr hnil)) hround
      hround' hids hids' hsmall hsmall'
    exact ⟨hengine, h.flight, h.calls, .merging level hfiles hafter⟩

theorem merge (h : StateAlike state state')
    (hinv : EngineInv state transit) (hinv' : EngineInv state' transit')
    {build : Build} {queue : PriorityQueue} {iter : IterOrder}
    {bufferSize : UInt32}
    (hmerge : state.merge build queue iter bufferSize = some next)
    (hmerge' : state'.merge build queue iter bufferSize = some next')
    (hids : next.engine.fileId < 10 ^ 8) (hids' : next'.engine.fileId < 10 ^ 8)
    (hsmall : ∀ file ∈ next.phase.extra, file.Small)
    (hsmall' : ∀ file ∈ next'.phase.extra, file.Small) :
    StateAlike next next' := by
  have hboth := h.phase
  generalize hphase : state.phase = phase at hboth
  generalize hphase' : state'.phase = phase' at hboth
  cases hboth with
  | ready => simp [EngineState.merge, hphase] at hmerge
  | merged level needRemoveFile _ _ =>
      simp [EngineState.merge, hphase] at hmerge
  | removing level _ => simp [EngineState.merge, hphase] at hmerge
  | merging level hfiles halike =>
      exact h.continueMerge hinv hinv' hphase hphase' hfiles halike hmerge
        hmerge' hids hids' hsmall hsmall'
  | selected level hfiles =>
      cases hfiles with
      | nil =>
          simp only [EngineState.merge, hphase] at hmerge
          simp only [EngineState.merge, hphase'] at hmerge'
          obtain ⟨started, hstart, hnext⟩ := Option.bind_eq_some_iff.mp hmerge
          obtain ⟨started', hstart', hnext'⟩ :=
            Option.bind_eq_some_iff.mp hmerge'
          rw [← Option.some.inj hnext, ← Option.some.inj hnext']
          exact h.startMerge hinv hinv' hphase hphase' List.Forall₂.nil hstart
            hstart'
      | cons hfile hfiles =>
          cases hfiles with
          | nil =>
              simp only [EngineState.merge, hphase] at hmerge
              simp only [EngineState.merge, hphase'] at hmerge'
              obtain ⟨⟨moved, engine⟩, hmove, hnext⟩ :=
                Option.bind_eq_some_iff.mp hmerge
              obtain ⟨⟨moved', engine'⟩, hmove', hnext'⟩ :=
                Option.bind_eq_some_iff.mp hmerge'
              rw [Option.some.injEq] at hnext hnext'
              subst hnext hnext'
              exact h.trivialMove hinv hinv' hphase hphase' hfile hmove hmove'
                hids hids'
          | cons hsecond hrest =>
              simp only [EngineState.merge, hphase] at hmerge
              simp only [EngineState.merge, hphase'] at hmerge'
              obtain ⟨started, hstart, hnext⟩ :=
                Option.bind_eq_some_iff.mp hmerge
              obtain ⟨started', hstart', hnext'⟩ :=
                Option.bind_eq_some_iff.mp hmerge'
              rw [← Option.some.inj hnext, ← Option.some.inj hnext']
              exact h.startMerge hinv hinv' hphase hphase'
                (.cons hfile (.cons hsecond hrest)) hstart hstart'

theorem update (h : StateAlike state state')
    (hupdate : state.update = some next)
    (hupdate' : state'.update = some next') : StateAlike next next' := by
  have hboth := h.phase
  unfold EngineState.update at hupdate hupdate'
  generalize state.phase = phase at hboth hupdate
  generalize state'.phase = phase' at hboth hupdate'
  cases hboth with
  | merged level needRemoveFile hfiles hcompacted =>
      rw [← Option.some.inj hupdate, ← Option.some.inj hupdate']
      refine ⟨h.engine.updateMap hfiles hcompacted, h.flight, h.calls,
        .removing level ?_⟩
      cases needRemoveFile with
      | true => exact hfiles
      | false => exact List.Forall₂.nil
  | _ => simp at hupdate

theorem remove (h : StateAlike state state')
    (hremove : state.remove = some next)
    (hremove' : state'.remove = some next') : StateAlike next next' := by
  have hboth := h.phase
  unfold EngineState.remove at hremove hremove'
  generalize state.phase = phase at hboth hremove
  generalize state'.phase = phase' at hboth hremove'
  cases hboth with
  | removing level hfiles =>
      cases hfiles with
      | nil => simp at hremove
      | cons hfile hrest =>
          rw [← Option.some.inj hremove, ← Option.some.inj hremove']
          exact ⟨⟨h.engine.fileId, h.engine.limit, h.engine.levels⟩, h.flight,
            h.calls, .removing level hrest⟩
  | _ => simp at hremove

theorem finish (h : StateAlike state state')
    (hfinish : state.finish = some next)
    (hfinish' : state'.finish = some next') : StateAlike next next' := by
  have hboth := h.phase
  unfold EngineState.finish at hfinish hfinish'
  generalize state.phase = phase at hboth hfinish
  generalize state'.phase = phase' at hboth hfinish'
  cases hboth with
  | removing level hfiles =>
      cases hfiles with
      | cons hfile hrest => simp at hfinish
      | nil =>
          rw [← Option.some.inj hfinish, ← Option.some.inj hfinish']
          exact ⟨h.engine, h.flight, by rw [h.calls], .ready⟩
  | _ => simp at hfinish

theorem newFile (h : StateAlike state state')
    (hnew : state.newFile = some next)
    (hnew' : state'.newFile = some next') : StateAlike next next' := by
  have hid := h.engine.fileId
  unfold EngineState.newFile at hnew hnew'
  rw [h.flight] at hnew
  cases hflight : state'.flight with
  | none =>
      simp only [hflight] at hnew hnew'
      rw [← Option.some.inj hnew, ← Option.some.inj hnew']
      refine ⟨⟨?_, h.engine.limit, h.engine.levels⟩, ?_, h.calls, h.phase⟩
      · simp only [StorageEngine.newWritableFile]
        rw [hid]
      · simp only [StorageEngine.newWritableFile]
        rw [hid]
  | _ => simp [hflight] at hnew

theorem write (h : StateAlike state state') {bytes bytes' : Bytes}
    (hwrite : state.write bytes = some next)
    (hwrite' : state'.write bytes' = some next') : StateAlike next next' := by
  unfold EngineState.write at hwrite hwrite'
  rw [h.flight] at hwrite
  cases hflight : state'.flight with
  | created id name =>
      simp only [hflight] at hwrite hwrite'
      rw [← Option.some.inj hwrite, ← Option.some.inj hwrite']
      exact ⟨⟨h.engine.fileId, h.engine.limit, h.engine.levels⟩, rfl, h.calls,
        h.phase⟩
  | _ => simp [hflight] at hwrite

theorem addFile (h : StateAlike state state')
    (hinv : EngineInv state transit) (hinv' : EngineInv state' transit')
    (htransit : Option.Rel Alike transit transit')
    (hids : state.engine.fileId < 10 ^ 8) (hids' : state'.engine.fileId < 10 ^ 8)
    (hadd : state.addFile = some next)
    (hadd' : state'.addFile = some next') : StateAlike next next' := by
  obtain ⟨file, rfl, _, _, _, hnext, _⟩ := hinv.addFile hids hadd
  obtain ⟨file', rfl, _, _, _, hnext', _⟩ := hinv'.addFile hids' hadd'
  cases htransit with
  | some hfile =>
      rw [hnext, hnext']
      exact ⟨h.engine.installFile hfile, rfl, h.calls, h.phase⟩

end StateAlike

/-- Two buffers that differ in the bytes of values only. -/
structure BufferAlike (buffer buffer' : StorageBuffer) : Prop where
  bufferSize : buffer.bufferSize = buffer'.bufferSize
  incomeSize : buffer.incomeSize = buffer'.incomeSize
  incomeBuffer : outline buffer.incomeBuffer.entries =
    outline buffer'.incomeBuffer.entries
  flushBuffer : buffer.flushBuffer.map (fun list => outline list.entries) =
    buffer'.flushBuffer.map fun list => outline list.entries
  flushThreadReady : buffer.flushThreadReady = buffer'.flushThreadReady

namespace BufferAlike

variable {buffer buffer' next next' : StorageBuffer}

/-- Writing values of one shape under one key. -/
theorem add (h : BufferAlike buffer buffer')
    (hbuilt : buffer.incomeBuffer.Built) (hbuilt' : buffer'.incomeBuffer.Built)
    {key value value' : ByteArray} (hshape : shape value.data = shape value'.data)
    {notifying notifying' : Bool}
    (hadd : buffer.add key value = some (next, notifying))
    (hadd' : buffer'.add key value' = some (next', notifying')) :
    BufferAlike next next' := by
  obtain ⟨hshort, hresult⟩ := StorageBuffer.add_eq_some_iff.mp hadd
  obtain ⟨hshort', hresult'⟩ := StorageBuffer.add_eq_some_iff.mp hadd'
  have hincome : outline (buffer.insert key value).incomeBuffer.entries =
      outline (buffer'.insert key value').incomeBuffer.entries := by
    have hinsert := (hbuilt.insert hshort).entries_eq
    have hinsert' := (hbuilt'.insert hshort').entries_eq
    change (buffer.insert key value).incomeBuffer.entries = _ at hinsert
    change (buffer'.insert key value').incomeBuffer.entries = _ at hinsert'
    have hold := h.incomeBuffer
    unfold outline at hold ⊢
    rw [hinsert, hinsert', map_upsert, map_upsert, hold, hshape]
  have hsize : (buffer.insert key value).incomeSize =
      (buffer'.insert key value').incomeSize := by
    have hlength : value.data.length = value'.data.length :=
      congrArg Prod.fst hshape
    simp only [StorageBuffer.insert, StorageBuffer.encodedLen, ByteArray.size]
    rw [h.incomeSize, hlength]
  have hinserted : BufferAlike (buffer.insert key value)
      (buffer'.insert key value') :=
    ⟨h.bufferSize, hsize, hincome, h.flushBuffer, h.flushThreadReady⟩
  have hswaps : (buffer.insert key value).swaps =
      (buffer'.insert key value').swaps := by
    rw [StorageBuffer.swaps, StorageBuffer.swaps, hinserted.bufferSize,
      hinserted.incomeSize, hinserted.flushThreadReady]
  rw [hswaps] at hresult
  split_ifs at hresult hresult' with htest
  · rw [Prod.mk.injEq] at hresult hresult'
    rw [hresult.1, hresult'.1]
    exact ⟨h.bufferSize, rfl, rfl, congrArg some hincome, rfl⟩
  · rw [Prod.mk.injEq] at hresult hresult'
    rw [hresult.1, hresult'.1]
    exact hinserted

theorem clearFlushBuffer (h : BufferAlike buffer buffer') :
    BufferAlike buffer.clearFlushBuffer buffer'.clearFlushBuffer :=
  ⟨h.bufferSize, h.incomeSize, h.incomeBuffer, rfl, h.flushThreadReady⟩

theorem setFlushThreadIdle (h : BufferAlike buffer buffer') :
    BufferAlike buffer.setFlushThreadIdle buffer'.setFlushThreadIdle :=
  ⟨h.bufferSize, h.incomeSize, h.incomeBuffer, h.flushBuffer, rfl⟩

/-- A lookup finds a key in both buffers or in neither. -/
theorem get (h : BufferAlike buffer buffer')
    (hbuilt : buffer.incomeBuffer.Built) (hbuilt' : buffer'.incomeBuffer.Built)
    (hflush : ∀ list ∈ buffer.flushBuffer, list.Built)
    (hflush' : ∀ list ∈ buffer'.flushBuffer, list.Built) (key : Bytes) :
    (buffer.get key).map Option.isSome =
      (buffer'.get key).map Option.isSome := by
  have hrel : ∀ flushing : Option (SkipList Bytes),
      (∀ list ∈ flushing, list.Built) →
        Option.Rel Encodes flushing (flushing.map SkipList.entries) := by
    intro flushing hflushing
    cases flushing with
    | none => exact Option.Rel.none
    | some list => exact Option.Rel.some (hflushing list rfl)
  by_cases hprobe : StorageBuffer.ProbeFits key
  · rw [StorageBuffer.get_eq hbuilt (hrel _ hflush) hprobe,
      StorageBuffer.get_eq hbuilt' (hrel _ hflush') hprobe]
    have hincome : (find key buffer.incomeBuffer.entries).isSome =
        (find key buffer'.incomeBuffer.entries).isSome := by
      rw [← isSome_find_outline, h.incomeBuffer, isSome_find_outline]
    have hflushing : ((buffer.flushBuffer.map SkipList.entries).bind
          (find key)).isSome =
        ((buffer'.flushBuffer.map SkipList.entries).bind
          (find key)).isSome := by
      have hsame := h.flushBuffer
      cases hone : buffer.flushBuffer <;> cases htwo : buffer'.flushBuffer <;>
        simp only [hone, htwo, Option.map_none, Option.map_some,
          Option.some.injEq, reduceCtorEq] at hsame
      · rfl
      · simp only [Option.map_some, Option.bind_some]
        rw [← isSome_find_outline, hsame, isSome_find_outline]
    simp only [Option.map_some, Option.isSome_or, hincome, hflushing]
  · rw [StorageBuffer.get_eq_none hprobe, StorageBuffer.get_eq_none hprobe]

end BufferAlike

end SimpleKV
