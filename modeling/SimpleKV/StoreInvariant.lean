/-
The engine invariant along runs of the whole store, and the level invariant
that follows for every reachable state.
-/
import SimpleKV.Handoff
import SimpleKV.CachedSearch

namespace SimpleKV

namespace DataBase

/-- All file ids have the 8 digits that file names keep. -/
def IdsFit (db : DataBase) : Prop :=
  db.store.engine.fileId < 10 ^ 8

instance (db : DataBase) : Decidable db.IdsFit :=
  inferInstanceAs (Decidable (_ < _))

/-- The file of the flush thread once it is written. -/
def Written (db : DataBase) (transit : Option File) : Prop :=
  match db.flushPc with
  | .clear keyOffset => ∃ file list, transit = some file ∧
      db.buffer.flushBuffer = some list ∧ file.Holds list.entries ∧
      keyOffset = offsetTable file.lowerBound file.upperBound list.entries
  | .cacheSet keyOffset => ∃ file, transit = some file ∧
      TableOf file keyOffset
  | _ => True

end DataBase

/-- What holds of the whole store. -/
structure StoreInv (db : DataBase) (transit : Option File) : Prop where
  handoff : HandoffInv db
  engine : EngineInv db.store transit
  written : db.Written transit

namespace EngineInv

variable {state state' : EngineState} {transit : Option File}

/-- Every step of a compaction but its update keeps the levels. -/
theorem compact (h : EngineInv state transit) {bufferSize : UInt32}
    (hstep : CompactStep bufferSize state state')
    (htop : state'.engine.fileId < 10 ^ 8) :
    EngineInv state' transit ∧ SameLevels state state' := by
  have hle := hstep.flight_eq.2
  cases hstep with
  | call hcall => exact h.call hcall
  | select hselect => exact h.select hselect
  | merge hmerge => exact h.merge hmerge htop
  | remove hremove => exact h.remove (by omega) hremove
  | finish hfinish => exact h.finish hfinish

/-- The flush thread's file can be opened under its name. -/
theorem openFile_transit (h : EngineInv state transit)
    (htop : state.engine.fileId < 10 ^ 8) {id : Int} {name : Name}
    (hflight : state.flight = .written id name) :
    ∃ file, transit = some file ∧ state.engine.openFile name = some file ∧
      file.fileId = id := by
  have hinv := h.flight
  rw [FlightInv, hflight] at hinv
  obtain ⟨file, rfl, hstored, _, rfl, rfl, _⟩ := hinv
  have hlookup := (h.folder file.fileName file.mmap).mpr
    (Or.inr (Or.inr ⟨file, rfl, rfl, rfl⟩))
  refine ⟨file, rfl, ?_, rfl⟩
  rw [StorageEngine.openFile, hlookup]
  exact hstored.ofName htop

end EngineInv

namespace StoreInv

variable {db db' : DataBase} {transit : Option File}

theorem start (bufferSize : UInt32) (cache : LRUCache) (limit : Nat) :
    StoreInv (.start bufferSize cache (.new limit)) none :=
  ⟨.start bufferSize cache _, .start limit, trivial⟩

/-- Elsewhere in its loop the flush thread has no written file to speak of. -/
theorem written_of_idle {pc : FlushPc} (hpc : db.flushPc = pc)
    (hidle : pc.Idle ∨ pc = .write ∨ pc = .addFile) : db.Written transit := by
  unfold DataBase.Written
  rw [hpc]
  rcases hidle with hidle | rfl | rfl
  · cases pc with
    | clear _ => exact absurd hidle id
    | cacheSet _ => exact absurd hidle id
    | _ => trivial
  · trivial
  · trivial

theorem written_congr (h : db.Written transit)
    (hpc : db'.flushPc = db.flushPc)
    (hflush : db'.buffer.flushBuffer = db.buffer.flushBuffer) :
    db'.Written transit := by
  unfold DataBase.Written at h ⊢
  rw [hpc, hflush]
  exact h

/-- What `FlushBuffer` writes is the flush buffer. -/
theorem exists_written (h : StoreInv db transit)
    {iter : IterOrder} {bytes : Bytes} {keyOffset : KeyOffset}
    (hbytes : db.buffer.writeFlushBuffer iter = some (bytes, keyOffset))
    (hids : db.IdsFit) {id : Int} {name : Name}
    (hflight : db.store.flight = .created id name) :
    ∃ (file : File) (list : SkipList Bytes),
      db.buffer.flushBuffer = some list ∧
      file.Holds list.entries ∧ file.Stored id ∧ file.levelId = 0 ∧
      file.fileId = id ∧ file.mmap = bytes ∧
      keyOffset = offsetTable file.lowerBound file.upperBound
        list.entries := by
  obtain ⟨list, hlist, hcontent⟩ := Option.bind_eq_some_iff.mp hbytes
  obtain ⟨⟨content, flushSize⟩, hcontent, hflush⟩ :=
    Option.bind_eq_some_iff.mp hcontent
  obtain ⟨hbuilt, _⟩ := h.handoff.flushing list hlist
  rw [StorageBuffer.flushContent_encodeEntries hbuilt, Option.some.injEq,
    Prod.mk.injEq] at hcontent
  obtain ⟨rfl, rfl⟩ := hcontent
  have hinv := h.engine.flight
  rw [FlightInv, hflight] at hinv
  obtain ⟨_, hnew, _⟩ := hinv
  have hle := hnew.le_top
  unfold DataBase.IdsFit at hids
  obtain ⟨file, _, hholds, hstored, hlevel, hid, _, hmmap, htable⟩ :=
    File.exists_stored_of_flush .debug hbuilt.increasing hbuilt.short hflush 0
      id hnew.nonneg (by omega) (by
        have := hnew.nonneg
        simpa using this)
  exact ⟨file, list, hlist, hholds, hstored, hlevel, hid, hmmap, htable⟩

/-- Every step keeps the store invariant while ids last. -/
theorem step (h : StoreInv db transit) {act : Act}
    (hstep : DataBase.step act db = some db') (hids : db'.IdsFit) :
    ∃ transit', StoreInv db' transit' := by
  have hinv := h.handoff.step hstep
  cases DataBase.step_data hstep with
  | control _ hsame =>
      refine ⟨transit, hinv, hsame.store ▸ h.engine, ?_⟩
      rcases hsame.pc with hpc | ⟨_, hidle⟩
      · exact written_congr h.written hpc hsame.flushBuffer
      · exact written_of_idle rfl (Or.inl hidle)
  | @add _ _ _ buffer notifying _ hadd =>
      refine ⟨transit, hinv, h.engine, ?_⟩
      obtain ⟨_, _, _, ⟨_, _, hflush, _⟩ | ⟨_, hready, _⟩⟩ :=
        StorageBuffer.add_cases h.handoff.income hadd
      · exact written_congr h.written rfl hflush
      · -- A swap finds the flush thread waiting.
        refine written_of_idle rfl (Or.inl ?_)
        have hpc := h.handoff.pc
        have hnone := h.handoff.idle hready
        change db.flushPc.Idle
        generalize db.flushPc = pc at hpc
        cases pc <;> simp_all [PcInv, FlushPc.Idle]
  | getFiles hget =>
      obtain ⟨cache, rfl⟩ := DataBase.getFiles_eq hget
      exact ⟨transit, hinv, h.engine, written_congr h.written rfl rfl⟩
  | clearCache =>
      exact ⟨transit, hinv, h.engine, written_congr h.written rfl rfl⟩
  | newFile _ hstore =>
      exact ⟨none, hinv, (h.engine.newFile hstore hids).1,
        written_of_idle rfl (Or.inr (Or.inl rfl))⟩
  | @write _ _ _ store _ hbytes hstore =>
      obtain ⟨id, name, hflight, _, hid⟩ := EngineState.write_eq hstore
      have hidsOld : db.IdsFit := by
        have hnow : store.engine.fileId < 10 ^ 8 := hids
        unfold DataBase.IdsFit
        omega
      obtain ⟨file, list, hlist, hholds, hstored, hlevel, hfileId, hmmap,
        htable⟩ := h.exists_written hbytes hidsOld hflight
      exact ⟨some file, hinv, (h.engine.write hflight hstored hlevel hfileId
        hmmap hstore).1, file, list, rfl, hlist, hholds, htable⟩
  | clear hat _ =>
      have hwritten := h.written
      rw [DataBase.Written, hat] at hwritten
      obtain ⟨file, list, rfl, _, hholds, htable⟩ := hwritten
      exact ⟨some file, hinv, h.engine, file, rfl, list.entries, hholds,
        fun key => by rw [htable]⟩
  | cacheSet _ _ =>
      exact ⟨transit, hinv, h.engine,
        written_of_idle rfl (Or.inr (Or.inr rfl))⟩
  | @addFile store _ _ hstore =>
      have hid := (EngineState.addFile_eq hstore).2
      have htop : db.store.engine.fileId < 10 ^ 8 := by
        have hnow : store.engine.fileId < 10 ^ 8 := hids
        omega
      obtain ⟨_, _, _, _, _, _, hengine⟩ := h.engine.addFile htop hstore
      exact ⟨none, hinv, hengine, written_of_idle rfl (Or.inl trivial)⟩
  | compact _ hcompact =>
      exact ⟨transit, hinv, (h.engine.compact hcompact hids).1,
        written_congr h.written rfl rfl⟩
  | update hupdate =>
      obtain ⟨_, _, _, _, _, _, _, hengine⟩ := h.engine.update hupdate
      exact ⟨transit, hinv, hengine, written_congr h.written rfl rfl⟩

end StoreInv

/-- The store invariant holds along every run in which ids last. -/
theorem StoreInv.reaches {P : DataBase → Prop}
    (hP : ∀ db, P db → db.IdsFit) {first db : DataBase}
    {transit : Option File} (hfirst : StoreInv first transit)
    {acts : List Act} (hrun : DataBase.Reaches P first acts db) :
    ∃ transit, StoreInv db transit := by
  induction hrun with
  | start _ => exact ⟨transit, hfirst⟩
  | step _ hstep hnext ih =>
      obtain ⟨transit, h⟩ := ih
      exact h.step hstep (hP _ hnext)

theorem exists_storeInv {P : DataBase → Prop} (hP : ∀ db, P db → db.IdsFit)
    {bufferSize : UInt32} {cache : LRUCache} {limit : Nat} {acts : List Act}
    {db : DataBase} (hrun : DataBase.Reaches P
      (.start bufferSize cache (.new limit)) acts db) :
    ∃ transit, StoreInv db transit :=
  (StoreInv.start bufferSize cache limit).reaches hP hrun

theorem LevelInv.nodup_files {engine : StorageEngine} (h : LevelInv engine) :
    engine.files.Nodup := by
  rw [StorageEngine.files, List.nodup_flatten]
  constructor
  · intro files hfiles
    obtain ⟨i, hi, rfl⟩ := List.getElem_of_mem hfiles
    rw [← Searchable.level_eq_getElem engine hi]
    exact h.nodup i
  · rw [List.pairwise_iff_getElem]
    intro i j hi hj hij file hfile hother
    rw [← Searchable.level_eq_getElem engine hi] at hfile
    rw [← Searchable.level_eq_getElem engine hj] at hother
    have hfirst := h.levelId i file hfile
    have hsecond := h.levelId j file hother
    omega

theorem LevelInv.nodup_ids {engine : StorageEngine} (h : LevelInv engine) :
    (engine.files.map File.fileId).Nodup :=
  h.nodup_files.map_on h.ids

/-- In every reachable state with ids below 10^8: each level is sorted by lower
bound; the ranges of distinct files of a level from 1 on are disjoint; the keys
of each file increase and its bounds are its first and last key; the map holds
exactly the files of the levels, each listed once, under its own id and level;
and the ids are distinct and handed out. -/
theorem level_invariant (bufferSize : UInt32) (cache : LRUCache)
    (limit : Nat) {acts : List Act} {db : DataBase}
    (hrun : DataBase.Reaches DataBase.IdsFit
      (.start bufferSize cache (.new limit)) acts db) :
    (∀ i, (db.store.engine.level i).Pairwise fun a b =>
      a.lowerBound ≤ b.lowerBound) ∧
    (∀ i, 0 < i → ∀ file ∈ db.store.engine.level i,
      ∀ other ∈ db.store.engine.level i, file ≠ other →
        file.upperBound < other.lowerBound ∨
          other.upperBound < file.lowerBound) ∧
    (∀ file ∈ db.store.engine.files, ∃ entries : List (Bytes × Bytes),
      file.Holds entries ∧ entries.Pairwise (fun a b => a.1 < b.1) ∧
      entries.head?.map Prod.fst = some file.lowerBound ∧
      entries.getLast?.map Prod.fst = some file.upperBound) ∧
    (∀ id file, db.store.engine.filesMap.lookup id = some file ↔
      file ∈ db.store.engine.files ∧ file.fileId = id) ∧
    (∀ i, ∀ file ∈ db.store.engine.level i, file.levelId = i) ∧
    db.store.engine.files.Nodup ∧
    (db.store.engine.files.map File.fileId).Nodup ∧
    ∀ file ∈ db.store.engine.files,
      0 ≤ file.fileId ∧ file.fileId ≤ db.store.engine.fileId := by
  obtain ⟨transit, h⟩ := exists_storeInv (fun _ hids => hids) hrun
  have hlevels := h.engine.levels
  refine ⟨hlevels.sorted, hlevels.apart, fun file hfile => ?_, hlevels.map,
    hlevels.levelId, hlevels.nodup_files, hlevels.nodup_ids,
    fun file hfile => ?_⟩
  · obtain ⟨entries, hholds, _⟩ := (hlevels.stored file hfile).holds
    exact ⟨entries, hholds, hholds.increasing, hholds.lower, hholds.upper⟩
  · have hstored := hlevels.stored file hfile
    exact ⟨hstored.nonneg, hstored.le_top⟩

/-- A merge of two overlapping files into level 1, and a third file that is
written and installed between the choice of the two and their removal from the
maps. -/
def DataBase.mergeAndFlush : List Act :=
  .add .put [97] [1] :: writeAndFlush .put [99] [1] ++
    .add .put [97] [2] :: writeAndFlush .put [98] [2] ++
    [.call 0, .select] ++ writeAndFlush .put [98] [3] ++
    List.replicate 6 (.merge .sorted .inOrder) ++ [.update]

theorem level_invariant_merge_and_flush :
    ∃ db, DataBase.Reaches DataBase.IdsFit
        (.start 0 (.empty 1 (by decide)) (.new 1)) DataBase.mergeAndFlush db ∧
      (db.store.engine.level 0).map File.lowerBound = [[98]] ∧
      (db.store.engine.level 1).map File.lowerBound = [[97], [98], [99]] ∧
      (∀ i, 0 < i → ∀ file ∈ db.store.engine.level i,
        ∀ other ∈ db.store.engine.level i, file ≠ other →
          file.upperBound < other.lowerBound ∨
            other.upperBound < file.lowerBound) ∧
      (∀ file ∈ db.store.engine.files, ∃ entries : List (Bytes × Bytes),
        file.Holds entries ∧ entries.Pairwise (fun a b => a.1 < b.1) ∧
        entries.head?.map Prod.fst = some file.lowerBound ∧
        entries.getLast?.map Prod.fst = some file.upperBound) ∧
      (∀ id file, db.store.engine.filesMap.lookup id = some file ↔
        file ∈ db.store.engine.files ∧ file.fileId = id) ∧
      (db.store.engine.files.map File.fileId).Nodup := by
  obtain ⟨db, hrun, hzero, hone⟩ := DataBase.exists_reaches
    (show DataBase.Along (fun db _ => db.IdsFit) DataBase.mergeAndFlush
      (.start 0 (.empty 1 (by decide)) (.new 1)) by decide +kernel)
    (show (DataBase.run DataBase.mergeAndFlush
      (.start 0 (.empty 1 (by decide)) (.new 1))).any (fun db =>
        decide (db.IdsFit ∧
          (db.store.engine.level 0).map File.lowerBound = [[98]] ∧
          (db.store.engine.level 1).map File.lowerBound =
            [[97], [98], [99]])) = true by decide +kernel)
  obtain ⟨_, hapart, hholds, hmap, _, _, hids, _⟩ :=
    level_invariant 0 (.empty 1 (by decide)) 1 hrun
  exact ⟨db, hrun, hzero, hone, hapart, hholds, hmap, hids⟩

end SimpleKV
