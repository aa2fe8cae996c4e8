/-
The order assertion of `StorageBuffer::Flush`.  Both producers deliver
increasing keys, so only the initial `prev`, `"00000"`, can be above a key: a
flush aborts exactly when a smaller key was added, and no merge of flushed files
ever does.
-/
import SimpleKV.DoubleBuffer
import SimpleKV.CacheInvariant

namespace SimpleKV

/-- `Flush` on increasing entries aborts exactly on a key below `"00000"`. -/
theorem exists_flush_iff (iter : IterOrder) {entries : List (Bytes × Bytes)}
    (hne : entries ≠ []) (hinc : SortedAssoc.Increasing entries)
    (hshort : ∀ entry ∈ entries, Short entry) (size : UInt32) :
    (∃ result, flush iter (encodeEntries entries) size = some result) ↔
      ∀ entry ∈ entries, flushPrev ≤ entry.1 := by
  constructor
  · rintro ⟨result, hflush⟩
    obtain ⟨first, rest, rfl⟩ := List.exists_cons_of_ne_nil hne
    rw [flush_encodeEntries iter size rfl (List.getLast?_eq_some_getLast hne)
      hinc fun entry hentry => (hshort entry hentry).fits] at hflush
    have hfirst : flushPrev ≤ first.1 := by
      by_contra hlow
      rw [if_pos (not_le.mp hlow)] at hflush
      cases hflush
    intro entry hentry
    rcases List.mem_cons.mp hentry with rfl | hentry
    · exact hfirst
    · exact hfirst.trans (hinc.head_lt entry hentry).le
  · intro hprev
    obtain ⟨bytes, keyOffset, hflush⟩ := exists_flush iter hne hinc hshort
      hprev size
    exact ⟨(bytes, keyOffset), hflush⟩

/-- A file without keys below `"00000"`. -/
def File.Above (file : File) : Prop :=
  ∃ entries, file.Holds entries ∧ ∀ entry ∈ entries, flushPrev ≤ entry.1

/-- All files installed or in transit are such files. -/
def AboveInv (state : EngineState) : Prop :=
  ∀ file, file ∈ state.engine.files ∨ file ∈ state.transit → file.Above

theorem Merge.above_of_forall {files : List File}
    (h : ∀ file ∈ files, file.Above) : Above files := by
  rintro entry ⟨i, file, hi, hmem⟩
  obtain ⟨version, hversion, rfl⟩ := mem_source.mp hmem
  obtain ⟨entries, hholds, habove⟩ := h file (List.mem_of_getElem? hi)
  exact habove version (hholds.mem_of_mem_scan hversion)

/-- A compaction makes such files from such files. -/
theorem Compacted.above {level : Nat} {files compacted : List File} {top : Int}
    {needRemoveFile : Bool}
    (h : Compacted level files top compacted needRemoveFile)
    (habove : ∀ file ∈ files, file.Above) :
    ∀ made ∈ compacted, made.Above := by
  intro made hmade
  cases needRemoveFile with
  | true =>
      obtain ⟨chunks, houtputs, _⟩ := h
      obtain ⟨chunk, hchunk, hout⟩ := houtputs.exists_chunk hmade
      refine ⟨_, hout.holds, fun version hversion => ?_⟩
      obtain ⟨entry, hwinner, _, rfl⟩ := houtputs.winner hchunk hout hversion
      exact Merge.above_of_forall habove entry hwinner.1
  | false =>
      obtain ⟨file, moved, rfl, rfl, hmoved⟩ := h
      obtain ⟨entries, hholds, hentries⟩ := habove file List.mem_cons_self
      rw [List.mem_singleton.mp hmade]
      exact ⟨entries, hmoved.holds hholds, hentries⟩

/-- Every step keeps keys below `"00000"` out. -/
theorem AboveInv.step {db db' : DataBase} {transit : Option File}
    (h : AboveInv db.store) (hstore : StoreInv db transit)
    (hids : db.IdsFit) {act : Act}
    (hstep : DataBase.step act db = some db') (hids' : db'.IdsFit) :
    AboveInv db'.store := by
  cases DataBase.step_data hstep with
  | control _ hsame =>
      rw [hsame.store]
      exact h
  | getFiles hget =>
      obtain ⟨cache, rfl⟩ := DataBase.getFiles_eq hget
      exact h
  | @newFile store _ hnew =>
      obtain ⟨hafter, _, _, hlevels, _⟩ := hstore.engine.newFile hnew hids'
      intro file hfile
      change file ∈ store.engine.files ∨ file ∈ store.transit at hfile
      rw [← hafter.transit_eq hids', StorageEngine.files, hlevels] at hfile
      exact h file (Or.inl (hfile.resolve_right (by simp)))
  | @write iter bytes keyOffset store _ hbytes hwrite =>
      obtain ⟨id, name, hflight, _, _⟩ := EngineState.write_eq hwrite
      obtain ⟨written, list, hlist, hholds, hstored, hlevel, hid, hmmap, _⟩ :=
        hstore.exists_written hbytes hids hflight
      obtain ⟨hafter, _, _, hlevels, _⟩ :=
        hstore.engine.write hflight hstored hlevel hid hmmap hwrite
      intro file hfile
      change file ∈ store.engine.files ∨ file ∈ store.transit at hfile
      rw [← hafter.transit_eq hids', StorageEngine.files, hlevels,
        Option.mem_some_iff] at hfile
      rcases hfile with hfile | rfl
      · exact h file (Or.inl hfile)
      · obtain ⟨hbuilt, _⟩ := hstore.handoff.flushing list hlist
        have hne : list.entries ≠ [] := by
          intro hnil
          have hlower := hholds.lower
          rw [hnil] at hlower
          cases hlower
        simp only [StorageBuffer.writeFlushBuffer, hlist,
          StorageBuffer.flushContent_encodeEntries hbuilt, Option.bind_eq_bind,
          Option.bind_some] at hbytes
        exact ⟨list.entries, hholds, (exists_flush_iff iter hne
          hbuilt.increasing hbuilt.short _).mp ⟨_, hbytes⟩⟩
  | @addFile store _ _ hadd =>
      obtain ⟨written, htransit, _, _, _, hstate, _⟩ :=
        hstore.engine.addFile hids hadd
      subst hstate
      intro file hfile
      rcases hfile with hfile | hfile
      · rcases hstore.engine.levels.mem_files_installFile.mp hfile with rfl |
          hfile
        · refine h file (Or.inr ?_)
          rw [← hstore.engine.transit_eq hids]
          exact htransit ▸ rfl
        · exact h file (Or.inl hfile)
      · exact absurd hfile (by simp [EngineState.transit])
  | @compact _ store _ _ hcompact =>
      obtain ⟨hafter, hsame⟩ := hstore.engine.compact hcompact hids'
      intro file hfile
      change file ∈ store.engine.files ∨ file ∈ store.transit at hfile
      rw [← hafter.transit_eq hids', hstore.engine.transit_eq hids,
        StorageEngine.files, hsame.levelFiles] at hfile
      exact h file hfile
  | @update store hupdate =>
      obtain ⟨level, files, compacted, needRemoveFile, hphase, _, hfiles,
        hafter⟩ := hstore.engine.update hupdate
      have hinv := hstore.engine.phase
      rw [hphase] at hinv
      obtain ⟨⟨lo, hi, hsel⟩, hcompacted⟩ := hinv
      intro file hfile
      change file ∈ store.engine.files ∨ file ∈ store.transit at hfile
      rw [← hafter.transit_eq hids', hstore.engine.transit_eq hids, hfiles]
        at hfile
      rcases hfile with (hmade | hkept) | hflight
      · exact hcompacted.above
          (fun input hinput => h input (Or.inl (hsel.live input hinput))) file
          hmade
      · exact h file (Or.inl hkept.1)
      · exact h file (Or.inr hflight)
  | _ => exact h

theorem aboveInv_run {bufferSize : UInt32} {cache : LRUCache} {limit : Nat}
    {acts : List Act} {db : DataBase}
    (hrun : DataBase.Reaches DataBase.IdsFit
      (.start bufferSize cache (.new limit)) acts db) :
    AboveInv db.store := by
  induction hrun with
  | start _ =>
      intro file hfile
      simp [DataBase.start, EngineState.start, StorageEngine.new,
        StorageEngine.files, EngineState.transit] at hfile
  | step hbefore hstep hnext ih =>
      obtain ⟨transit, hstore⟩ := exists_storeInv (fun _ hids => hids) hbefore
      exact ih.step hstore hbefore.last hstep hnext

/-- A round or the end of `NWayCompaction` never aborts while ids last, unless
an assertion is compiled in and a key is below `"00000"`. -/
theorem EngineInv.exists_merge {state : EngineState} {transit : Option File}
    (h : EngineInv state transit) {level : Nat} {files : List File}
    {merge : Merge} (hphase : state.phase = .merging level files merge)
    (htop : state.engine.fileId + 1 < 10 ^ 8) (build : Build)
    (habove : build = .debug → Merge.Above files) (queue : PriorityQueue)
    (iter : IterOrder) (bufferSize : UInt32) :
    ∃ state', state.merge build queue iter bufferSize = some state' := by
  have hinv := h.phase
  rw [hphase] at hinv
  obtain ⟨⟨lo, hi, hsel⟩, hmerge⟩ := hinv
  obtain ⟨hinputs, hlevel⟩ := inputs h.levels hsel
  simp only [EngineState.merge, hphase]
  by_cases hpq : merge.pq = []
  · obtain ⟨engine, merge', hfinish, _⟩ :=
      hmerge.finish hinputs hlevel hpq build iter (Or.inr ⟨htop, habove⟩)
    rw [if_pos hpq, hfinish]
    exact ⟨_, rfl⟩
  · obtain ⟨engine, merge', hround, _⟩ :=
      hmerge.round hinputs hlevel hpq build queue iter bufferSize
        (Or.inr ⟨htop, habove⟩)
    rw [if_neg hpq, hround]
    exact ⟨_, rfl⟩

namespace DataBase

/-- `FlushBuffer` at its point of the loop, for the buffer it was given. -/
theorem exists_write_iff {db : DataBase} (h : HandoffInv db)
    (hat : db.flushPc = .write) {list : SkipList Bytes}
    (hlist : db.buffer.flushBuffer = some list) (iter : IterOrder) :
    (∃ db', step (.write iter) db = some db') ↔
      ∀ key, list.HasKey key → flushPrev ≤ key := by
  have hpc := h.pc
  rw [hat] at hpc
  obtain ⟨_, id, name, hflight⟩ := hpc
  obtain ⟨hbuilt, hne⟩ := h.flushing list hlist
  have hentries : list.entries ≠ [] := by
    intro hnil
    have hnodes := hbuilt.nodes
    rw [hnil] at hnodes
    exact hne hnodes
  have hwrite : db.buffer.writeFlushBuffer iter = flush iter
      (encodeEntries list.entries)
      (UInt32.ofNat (dataBytes list.entries).length) := by
    simp only [StorageBuffer.writeFlushBuffer, hlist,
      StorageBuffer.flushContent_encodeEntries hbuilt, Option.bind_eq_bind,
      Option.bind_some]
  have hkeys : (∀ key, list.HasKey key → flushPrev ≤ key) ↔
      ∀ entry ∈ list.entries, flushPrev ≤ entry.1 := by
    simp [SkipList.HasKey]
  rw [hkeys, ← exists_flush_iff iter hentries hbuilt.increasing hbuilt.short
    (UInt32.ofNat (dataBytes list.entries).length), ← hwrite]
  simp only [step, hat, EngineState.write, hflight, Option.bind_eq_bind]
  cases db.buffer.writeFlushBuffer iter with
  | none => simp
  | some result => simp

/-- In every run: the flush of a swapped buffer passes the order assertion
exactly when every key added to it is at least `"00000"`, whatever order the
table is iterated in; and no later merge of flushed files fails it. -/
theorem flush_passes_iff (bufferSize : UInt32) (cache : LRUCache)
    (limit : Nat) {acts : List Act} {db : DataBase}
    (hrun : Reaches IdsFit (.start bufferSize cache (.new limit)) acts db) :
    (db.flushPc = .write → ∀ list, db.buffer.flushBuffer = some list →
      (∀ key, list.HasKey key → ∃ order name value,
        .add order name value ∈ acts ∧
          (ByteArray.ofString name).data = key) ∧
      ∀ iter, (∃ db', step (.write iter) db = some db') ↔
        ∀ key, list.HasKey key → flushPrev ≤ key) ∧
    (∀ level files merge, db.store.phase = .merging level files merge →
      db.store.engine.fileId + 1 < 10 ^ 8 →
      ∀ queue iter, ∃ db', step (.merge queue iter) db = some db') := by
  have hhistory := historyInv_run hrun.run
  obtain ⟨transit, hstore⟩ := exists_storeInv (fun _ hids => hids) hrun
  constructor
  · intro hat list hlist
    refine ⟨fun key hkey => ?_, exists_write_iff hstore.handoff hat hlist⟩
    apply (hhistory.keys key).mp
    refine Or.inr ⟨list, ?_, hkey⟩
    rw [hhistory.swapped, hlist]
    simp
  · intro level files merge hphase htop queue iter
    have hinv := hstore.engine.phase
    rw [hphase] at hinv
    obtain ⟨⟨lo, hi, hsel⟩, _⟩ := hinv
    have habove : Merge.Above files := Merge.above_of_forall fun file hfile =>
      aboveInv_run hrun file (Or.inl (hsel.live file hfile))
    obtain ⟨store, hmerge⟩ := hstore.engine.exists_merge hphase htop .debug
      (fun _ => habove) queue iter db.buffer.bufferSize
    exact ⟨{ db with store }, by simp [step, onStore, hmerge]⟩

/-- A single write up to the call of `FlushBuffer`. -/
def untilWrite (key : Bytes) : List Act :=
  [.flushLoop, .setIdle, .add .put key [1], .addNotify, .flushTest,
    .flushCheck, .newFile]

/-- A buffer of three keys, written while a merge of two flushed files is half
way. -/
def flushAndMerge : List Act :=
  writeAndFlush .put [97] [1] ++ writeAndFlush .put [97] [2] ++
    [.call 0, .select, .merge .sorted .inOrder, .merge .sorted .inOrder,
      .add .put [99] [1], .add .put [98] [1]] ++ untilWrite [97]

theorem flush_passes_iff_three_keys :
    ∃ db list level files merge,
      Reaches IdsFit (.start 0 (.empty 1 (by decide)) (.new 1)) flushAndMerge
        db ∧
      db.flushPc = .write ∧ db.buffer.flushBuffer = some list ∧
      db.store.phase = .merging level files merge ∧
      (∀ key, list.HasKey key → ∃ order name value,
        .add order name value ∈ flushAndMerge ∧
          (ByteArray.ofString name).data = key) ∧
      (∀ iter, ∃ db', step (.write iter) db = some db') ∧
      ∀ queue iter, ∃ db', step (.merge queue iter) db = some db' := by
  obtain ⟨db, hrun, hat, hlist, hphase, htop⟩ := exists_reaches
    (show Along (fun db _ => db.IdsFit) flushAndMerge
      (.start 0 (.empty 1 (by decide)) (.new 1)) by decide +kernel)
    (show (run flushAndMerge (.start 0 (.empty 1 (by decide)) (.new 1))).any
      (fun db => decide (db.IdsFit ∧ db.flushPc = .write ∧
        db.buffer.flushBuffer.any (fun list => decide (list.entries.map
          Prod.fst = [[97], [98], [99]])) = true ∧
        (match db.store.phase with
          | .merging _ _ _ => true
          | _ => false) = true ∧
        db.store.engine.fileId + 1 < 10 ^ 8)) = true by decide +kernel)
  obtain ⟨list, hlist, hkeys⟩ := (Option.any_eq_true _ _).mp hlist
  rw [decide_eq_true_eq] at hkeys
  obtain ⟨hflush, hmerge⟩ := flush_passes_iff 0 (.empty 1 (by decide)) 1 hrun
  obtain ⟨hadded, hpasses⟩ := hflush hat list hlist
  have hhigh : ∀ key, list.HasKey key → flushPrev ≤ key := by
    intro key hkey
    rw [SkipList.HasKey, hkeys] at hkey
    revert key
    decide
  cases hmerging : db.store.phase with
  | merging level files merge =>
      exact ⟨db, list, level, files, merge, hrun, hat, hlist, hmerging, hadded,
        fun iter => (hpasses iter).mpr hhigh,
        hmerge level files merge hmerging htop⟩
  | _ => simp [hmerging] at hphase

/-- A key below `"00000"` aborts the flush. -/
theorem flush_aborts_low_key :
    ∃ db, Reaches IdsFit (.start 0 (.empty 1 (by decide)) (.new 1))
        (untilWrite [33]) db ∧ db.flushPc = .write ∧
      step (.write .inOrder) db = none := by
  obtain ⟨db, hrun, hat, hnone⟩ := exists_reaches
    (show Along (fun db _ => db.IdsFit) (untilWrite [33])
      (.start 0 (.empty 1 (by decide)) (.new 1)) by decide +kernel)
    (show (run (untilWrite [33])
      (.start 0 (.empty 1 (by decide)) (.new 1))).any (fun db =>
        decide (db.IdsFit ∧ db.flushPc = .write ∧
          (step (.write .inOrder) db).isNone = true)) = true by
      decide +kernel)
  exact ⟨db, hrun, hat, Option.isNone_iff_eq_none.mp hnone⟩

end DataBase

end SimpleKV
