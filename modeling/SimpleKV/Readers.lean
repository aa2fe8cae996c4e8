/-
Several `Get` calls in their file part at once.  Each holds the read lock and
takes one step per file and per call of the cache, while flushes, compactions
and other readers go on; only `AddFile` and the update of the maps wait for the
write lock.  A compaction deletes its old `File` objects after it has given the
lock back.  No reader meets a deleted file, and a reader's steps add up to the
file part of `Get` done at once.
-/
import SimpleKV.PlainSearch

namespace SimpleKV

/-- Where a `Get` stands in its file part. -/
inductive ReaderPc where
  | outside
  /-- Past `ReadLock`. -/
  | locked (key : Bytes)
  /-- Before `cache_->Get` of the next file. -/
  | visiting (key : Bytes) (files : List File)
  /-- The cache had no table, before `LoadKeyOffset`. -/
  | loading (key : Bytes) (file : File) (files : List File)
  /-- Before `cache_->Set`. -/
  | caching (key : Bytes) (file : File) (files : List File)
      (keyOffset : KeyOffset)
  /-- Before `GetValueByOffset`. -/
  | fetching (key : Bytes) (file : File) (offset : UInt32)
  /-- Before `ReadUnlock`. -/
  | done (key : Bytes) (value : Option Bytes)
deriving DecidableEq

/-- A store with `n` readers, and the `File` objects that compactions have taken
out of the maps: first `retired`, then `deleted`. -/
structure SharedStore (n : Nat) where
  db : DataBase
  readers : Fin n → ReaderPc
  retired : List File
  deleted : List File

/-- A step of some thread. -/
inductive SharedAct (n : Nat) where
  /-- A step of a client, of the flush thread or of the compaction thread. -/
  | store (act : Act)
  /-- `delete compact_file` behind an update of the maps. -/
  | delete
  /-- `ReadLock`. -/
  | enter (reader : Fin n) (key : Bytes)
  /-- The next step of a reader. -/
  | read (reader : Fin n)

/-- The steps under the write lock. -/
def Act.exclusive : Act → Bool
  | .addFile | .update => true
  | _ => false

/-- The files whose objects an update of the maps leaves to be deleted. -/
def Phase.inputs : Phase → List File
  | .selected _ files => files
  | .merging _ files _ => files
  | .merged _ files _ _ => files
  | _ => []

namespace SharedStore

variable {n : Nat}

/-- A store just after `Start`, with no reader. -/
def start (n : Nat) (db : DataBase) : SharedStore n where
  db
  readers _ := .outside
  retired := []
  deleted := []

/-- A reader moves on. -/
def goto (reader : Fin n) (pc : ReaderPc) (shared : SharedStore n) :
    SharedStore n :=
  { shared with readers := Function.update shared.readers reader pc }

/-- `files_map_[file_id]` for a file that is to be read.  `none` is a null
pointer or a deleted object. -/
def mapped (id : Int) (shared : SharedStore n) : Option File := do
  let file ← shared.db.store.engine.filesMap.lookup id
  if file ∈ shared.deleted then none else some file

/-- Where an offset leads: on to the next file, or to the value. -/
def found (key : Bytes) (file : File) (files : List File) (offset : UInt32) :
    ReaderPc :=
  if offset = 0 then .visiting key files else .fetching key file offset

/-- The next step of a reader. -/
def read (reader : Fin n) (shared : SharedStore n) : Option (SharedStore n) :=
  match shared.readers reader with
  | .outside => none
  | .locked key =>
      some (shared.goto reader (.visiting key
        (shared.db.store.engine.getContainsFiles key).flatten))
  | .visiting key [] => some (shared.goto reader (.done key none))
  | .visiting key (file :: files) =>
      if file ∈ shared.deleted then none
      else
        let ((offset, ifExists), cache) := shared.db.cache.get file.fileId key
        some
          { shared.goto reader
              (if ifExists then found key file files offset
              else .loading key file files) with
            db := { shared.db with cache } }
  | .loading key file files => do
      let mapped ← shared.mapped file.fileId
      let keyOffset ← loadKeyOffset mapped
      some (shared.goto reader (.caching key file files keyOffset))
  | .caching key file files keyOffset =>
      some
        { shared.goto reader
            (found key file files ((keyOffset.lookup key).getD 0)) with
          db :=
            { shared.db with
              cache := shared.db.cache.set file.fileId keyOffset } }
  | .fetching key file offset => do
      let mapped ← shared.mapped file.fileId
      let value ← getValueByOffset mapped offset
      some (shared.goto reader (.done key (some value)))
  | .done _ _ => some (shared.goto reader .outside)

/-- One step. -/
def step : SharedAct n → SharedStore n → Option (SharedStore n)
  | .store act, shared =>
      if act.exclusive ∧ ¬ ∀ reader, shared.readers reader = .outside then none
      else do
        let db ← DataBase.step act shared.db
        some
          { shared with
            db
            retired :=
              match act with
              | .update => shared.retired ++ shared.db.store.phase.inputs
              | _ => shared.retired }
  | .delete, shared =>
      match shared.retired with
      | [] => none
      | file :: retired =>
          some { shared with retired, deleted := file :: shared.deleted }
  | .enter reader key, shared =>
      match shared.readers reader with
      | .outside => some (shared.goto reader (.locked key))
      | _ => none
  | .read reader, shared => shared.read reader

/-- The states a store with readers can get to with all sizes in range. -/
inductive Reachable (db : DataBase) : SharedStore n → Prop
  | start : db.InRange → Reachable db (start n db)
  | step {act : SharedAct n} {shared next : SharedStore n} :
      Reachable db shared → step act shared = some next → next.db.InRange →
      Reachable db next

end SharedStore

/-- Files that are installed or will be. -/
def EngineState.Uses (state : EngineState) (file : File) : Prop :=
  file ∈ state.transit ∨ file ∈ state.engine.files ∨ file ∈ state.phase.made

/-- The id of a file will never be that of an installed file again. -/
structure Gone (state : EngineState) (file : File) : Prop where
  le_top : file.fileId ≤ state.engine.fileId
  created : ∀ name, state.flight ≠ .created file.fileId name
  uses : ∀ other, state.Uses other → other.fileId ≠ file.fileId

namespace Gone

variable {state state' : EngineState} {transit : Option File} {file : File}

/-- What comes into use has an id handed out since, or the one of the file being
written. -/
theorem congr (h : Gone state file)
    (hid : state.engine.fileId ≤ state'.engine.fileId)
    (hcreated : ∀ id name, state'.flight = .created id name →
      state.flight = .created id name ∨ state.engine.fileId < id)
    (huses : ∀ other, state'.Uses other → state.Uses other ∨
      state.engine.fileId < other.fileId ∨
        ∃ name, state.flight = .created other.fileId name) :
    Gone state' file where
  le_top := h.le_top.trans hid
  created := by
    intro name hflight
    rcases hcreated _ name hflight with hold | hnew
    · exact h.created name hold
    · exact absurd h.le_top (not_le.mpr hnew)
  uses := by
    intro other hother heq
    rcases huses other hother with hold | hnew | ⟨name, hname⟩
    · exact h.uses other hold heq
    · rw [heq] at hnew
      exact absurd h.le_top (not_le.mpr hnew)
    · rw [heq] at hname
      exact h.created name hname

end Gone

theorem Phase.made_subset_extra {phase : Phase} {file : File}
    (hfile : file ∈ phase.made) : file ∈ phase.extra := by
  cases phase with
  | merging | merged => exact hfile
  | _ => exact absurd hfile (by simp [Phase.made])

/-- A compaction makes files with new ids. -/
theorem CompactStep.made {bufferSize : UInt32} {state state' : EngineState}
    (h : CompactStep bufferSize state state')
    (hsame : EngineInv.SameLevels state state') {file : File}
    (hfile : file ∈ state'.phase.made) :
    file ∈ state.phase.made ∨ state.engine.fileId < file.fileId := by
  have hmade := hsame.made file (Phase.made_subset_extra hfile)
  cases hphase : state.phase with
  | merging | merged => rwa [hphase] at hmade
  | ready | selected =>
      rw [hphase] at hmade
      exact Or.inr (hmade.resolve_left (by simp [Phase.extra]))
  | removing level files =>
      -- From here a call only removes the next file or ends.
      cases h with
      | call hcall => simp [EngineState.call, hphase] at hcall
      | select hselect => simp [EngineState.select, hphase] at hselect
      | merge hmerge => simp [EngineState.merge, hphase] at hmerge
      | remove hremove =>
          cases files with
          | nil => simp [EngineState.remove, hphase] at hremove
          | cons first files =>
              simp only [EngineState.remove, hphase, Option.some.injEq]
                at hremove
              rw [← hremove] at hfile
              exact absurd hfile (by simp [Phase.made])
      | finish hfinish =>
          cases files with
          | nil =>
              simp only [EngineState.finish, hphase, Option.some.injEq]
                at hfinish
              rw [← hfinish] at hfile
              exact absurd hfile (by simp [Phase.made])
          | cons first files => simp [EngineState.finish, hphase] at hfinish

namespace Gone

variable {db db' : DataBase} {transit : Option File} {file : File}
  {store : EngineState}

theorem newFile (h : Gone db.store file) (hstore : StoreInv db transit)
    (hnew : db.store.newFile = some store)
    (htop : store.engine.fileId < 10 ^ 8) : Gone store file := by
  obtain ⟨hafter, hflight, hid, hlevels, _, hphase, _⟩ :=
    hstore.engine.newFile hnew htop
  refine h.congr (by omega) (fun id name hcreated => Or.inr ?_)
    fun other hother => Or.inl ?_
  · have heq := hflight.symm.trans hcreated
    rw [Flight.created.injEq] at heq
    omega
  · unfold EngineState.Uses at hother ⊢
    rw [← hafter.transit_eq htop, StorageEngine.files, hlevels,
      hphase] at hother
    exact Or.inr (hother.resolve_left (by simp))

theorem write (h : Gone db.store file) (hstore : StoreInv db transit)
    (htop : db.store.engine.fileId < 10 ^ 8) {iter : IterOrder}
    {bytes : Bytes} {keyOffset : KeyOffset}
    (hbytes : db.buffer.writeFlushBuffer iter = some (bytes, keyOffset))
    (hwrite : db.store.write bytes = some store)
    (htop' : store.engine.fileId < 10 ^ 8) : Gone store file := by
  obtain ⟨id, name, hflight, _, hid⟩ := EngineState.write_eq hwrite
  obtain ⟨written, list, _, _, hstored, hlevel, hfileId, hmmap, _⟩ :=
    hstore.exists_written hbytes htop hflight
  obtain ⟨hafter, hflight', _, hlevels, _, hphase, _⟩ :=
    hstore.engine.write hflight hstored hlevel hfileId hmmap hwrite
  refine h.congr hid.ge (fun other name' hcreated => ?_) fun other hother => ?_
  · exact absurd (hflight'.symm.trans hcreated) (by simp)
  · unfold EngineState.Uses at hother ⊢
    rw [← hafter.transit_eq htop', StorageEngine.files, hlevels, hphase,
      Option.mem_some_iff] at hother
    rcases hother with hother | hother
    · exact Or.inr (Or.inr ⟨name, by rw [← hother, hfileId, hflight]⟩)
    · exact Or.inl (Or.inr hother)

theorem addFile (h : Gone db.store file) (hstore : StoreInv db transit)
    (htop : db.store.engine.fileId < 10 ^ 8)
    (hadd : db.store.addFile = some store) : Gone store file := by
  obtain ⟨added, htransit, _, _, _, hstate, _⟩ := hstore.engine.addFile htop hadd
  subst hstate
  refine h.congr (le_refl _) (fun _ _ hcreated => absurd hcreated (by simp))
    fun other hother => Or.inl ?_
  rcases hother with hother | hother | hother
  · exact absurd hother (by simp [EngineState.transit])
  · rcases hstore.engine.levels.mem_files_installFile.mp hother with rfl |
      hother
    · refine Or.inl ?_
      rw [← hstore.engine.transit_eq htop]
      exact htransit ▸ rfl
    · exact Or.inr (Or.inl hother)
  · exact Or.inr (Or.inr hother)

theorem compact (h : Gone db.store file) (hstore : StoreInv db transit)
    (htop : db.store.engine.fileId < 10 ^ 8) {bufferSize : UInt32}
    (hcompact : CompactStep bufferSize db.store store)
    (htop' : store.engine.fileId < 10 ^ 8) : Gone store file := by
  obtain ⟨hafter, hsame⟩ := hstore.engine.compact hcompact htop'
  refine h.congr hsame.fileId_le
    (fun id name hcreated => Or.inl (hsame.flight ▸ hcreated))
    fun other hother => ?_
  unfold EngineState.Uses at hother ⊢
  rw [← hafter.transit_eq htop', hstore.engine.transit_eq htop,
    StorageEngine.files, hsame.levelFiles] at hother
  rcases hother with hother | hother | hother
  · exact Or.inl (Or.inl hother)
  · exact Or.inl (Or.inr (Or.inl hother))
  · exact (hcompact.made hsame hother).imp
      (fun hold => Or.inr (Or.inr hold)) Or.inl

/-- An update of the maps keeps what is gone, and the files it took are gone
from then on. -/
theorem update (hstore : StoreInv db transit)
    (htop : db.store.engine.fileId < 10 ^ 8)
    (hupdate : db.store.update = some store)
    (htop' : store.engine.fileId < 10 ^ 8) :
    (Gone db.store file → Gone store file) ∧
      (file ∈ db.store.phase.inputs → Gone store file) := by
  obtain ⟨level, files, compactedFiles, needRemoveFile, hphase, hstate,
    hfiles, hafter⟩ := hstore.engine.update hupdate
  have hflight := EngineState.update_flight hupdate
  have htransit : store.transit = db.store.transit :=
    (hafter.transit_eq htop').symm.trans (hstore.engine.transit_eq htop)
  have hmade : store.phase.made = [] := by
    rw [hstate]
    rfl
  constructor
  · intro h
    refine h.congr hflight.2 (fun id name hcreated =>
      Or.inl (hflight.1 ▸ hcreated)) fun other hother => Or.inl ?_
    unfold EngineState.Uses at hother ⊢
    rw [htransit, hfiles, hmade] at hother
    rcases hother with hother | (hother | hother) | hother
    · exact Or.inl hother
    · refine Or.inr (Or.inr ?_)
      rw [hphase]
      exact hother
    · exact Or.inr (Or.inl hother.1)
    · exact absurd hother (by simp)
  · intro hfile
    rw [hphase] at hfile
    change file ∈ files at hfile
    have hinv := hstore.engine.phase
    rw [hphase] at hinv
    obtain ⟨⟨lo, hi, hsel⟩, hcompacted⟩ := hinv
    have hlive := hsel.live file hfile
    obtain ⟨_, hplaced⟩ :=
      hcompacted.placed (EngineInv.inputs hstore.engine.levels hsel).1
    refine ⟨(hstore.engine.levels.stored file hlive).le_top.trans hflight.2,
      fun name hcreated => ?_, fun other hother heq => ?_⟩
    · have hfresh := hstore.engine.flight
      rw [hflight.1] at hcreated
      rw [FlightInv, hcreated] at hfresh
      exact hfresh.2.1.fresh file (Or.inl hlive) rfl
    · unfold EngineState.Uses at hother
      rw [htransit, hfiles, hmade, ← hstore.engine.transit_eq htop] at hother
      rcases hother with hother | (hother | hother) | hother
      · obtain ⟨_, _, hnew⟩ := hstore.engine.transit_stored hother
        exact hnew.fresh file (Or.inl hlive) heq.symm
      · obtain ⟨_, _, _, _, hnewer⟩ := hplaced other hother
        exact absurd heq (hnewer file hfile).ne'
      · exact hother.2 (hstore.engine.levels.ids other hother.1 file hlive
          heq ▸ hfile)
      · exact absurd hother (by simp)

/-- Every step keeps what is gone. -/
theorem step (h : Gone db.store file) (hstore : StoreInv db transit)
    (hrange : db.InRange) {act : Act}
    (hstep : DataBase.step act db = some db') (hrange' : db'.InRange) :
    Gone db'.store file := by
  cases DataBase.step_data hstep with
  | control _ hsame => exact hsame.store ▸ h
  | getFiles hget =>
      obtain ⟨cache, rfl⟩ := DataBase.getFiles_eq hget
      exact h
  | newFile _ hnew => exact h.newFile hstore hnew hrange'.1
  | write _ hbytes hwrite =>
      exact h.write hstore hrange.1 hbytes hwrite hrange'.1
  | addFile _ hadd => exact h.addFile hstore hrange.1 hadd
  | compact _ hcompact => exact h.compact hstore hrange.1 hcompact hrange'.1
  | update hupdate =>
      exact (Gone.update hstore hrange.1 hupdate hrange'.1).1 h
  | _ => exact h

end Gone

/-! ### Readers -/

/-- A reader has tried some of the files it found, without success. -/
def Tried (key : Bytes) (files : List File) (engine : StorageEngine) : Prop :=
  ∃ tried, (engine.getContainsFiles key).flatten = tried ++ files ∧
    ∀ file ∈ tried, file.get key = none

/-- What a reader has done so far. -/
def ReaderInv (engine : StorageEngine) : ReaderPc → Prop
  | .outside | .locked _ => True
  | .visiting key files => Tried key files engine
  | .loading key file files => Tried key (file :: files) engine
  | .caching key file files keyOffset =>
      Tried key (file :: files) engine ∧ TableOf file keyOffset
  | .fetching key file offset => ∃ files keyOffset,
      Tried key (file :: files) engine ∧ TableOf file keyOffset ∧
        offset = (keyOffset.lookup key).getD 0 ∧ offset ≠ 0
  | .done key value => value = engine.lookup key

theorem ReaderInv.congr {engine engine' : StorageEngine} {pc : ReaderPc}
    (h : ReaderInv engine pc)
    (hlevels : engine'.levelFiles = engine.levelFiles) :
    ReaderInv engine' pc := by
  have hfiles (key : Bytes) :
      engine'.getContainsFiles key = engine.getContainsFiles key := by
    rw [StorageEngine.getContainsFiles, hlevels, StorageEngine.getContainsFiles]
  cases pc with
  | outside => trivial
  | locked key => trivial
  | done key value => exact Eq.trans h (DataBase.lookup_congr hlevels key).symm
  | visiting key files =>
      obtain ⟨tried, heq, htried⟩ := h
      exact ⟨tried, by rw [hfiles, heq], htried⟩
  | loading key file files =>
      obtain ⟨tried, heq, htried⟩ := h
      exact ⟨tried, by rw [hfiles, heq], htried⟩
  | caching key file files keyOffset =>
      obtain ⟨⟨tried, heq, htried⟩, htable⟩ := h
      exact ⟨⟨tried, by rw [hfiles, heq], htried⟩, htable⟩
  | fetching key file offset =>
      obtain ⟨files, keyOffset, ⟨tried, heq, htried⟩, hrest⟩ := h
      exact ⟨files, keyOffset, ⟨tried, by rw [hfiles, heq], htried⟩, hrest⟩

/-- All steps but those under the write lock keep the levels. -/
theorem StoreInv.levelFiles_step {db db' : DataBase} {transit : Option File}
    (h : StoreInv db transit) (hrange : db.InRange) {act : Act}
    (hact : act.exclusive = false)
    (hstep : DataBase.step act db = some db') (hrange' : db'.InRange) :
    db'.store.engine.levelFiles = db.store.engine.levelFiles := by
  cases DataBase.step_data hstep with
  | control _ hsame => rw [hsame.store]
  | getFiles hget =>
      obtain ⟨cache, rfl⟩ := DataBase.getFiles_eq hget
      rfl
  | newFile _ hnew =>
      obtain ⟨_, _, _, hlevels, _⟩ := h.engine.newFile hnew hrange'.1
      exact hlevels
  | write _ hbytes hwrite =>
      obtain ⟨id, name, hflight, _, _⟩ := EngineState.write_eq hwrite
      obtain ⟨file, list, _, _, hstored, hlevel, hfileId, hmmap, _⟩ :=
        h.exists_written hbytes hrange.1 hflight
      obtain ⟨_, _, _, hlevels, _⟩ :=
        h.engine.write hflight hstored hlevel hfileId hmmap hwrite
      exact hlevels
  | addFile _ _ => exact absurd hact (by simp [Act.exclusive])
  | compact _ hcompact =>
      exact (h.engine.compact hcompact hrange'.1).2.levelFiles
  | update _ => exact absurd hact (by simp [Act.exclusive])
  | _ => rfl

/-- What holds of a store with readers. -/
structure SharedInv {n : Nat} (shared : SharedStore n) : Prop where
  store : ∃ transit, StoreInv shared.db transit
  cache : CacheInv shared.db.store shared.db.cache
  range : shared.db.InRange
  gone : ∀ file ∈ shared.retired ++ shared.deleted, Gone shared.db.store file
  once : (shared.retired ++ shared.deleted).Nodup
  readers : ∀ reader,
    ReaderInv shared.db.store.engine (shared.readers reader)

theorem Tried.mem {key : Bytes} {file : File} {files : List File}
    {engine : StorageEngine} (h : Tried key (file :: files) engine)
    (hlevels : LevelInv engine) : file ∈ engine.files := by
  obtain ⟨tried, heq, _⟩ := h
  have hmem : file ∈ (engine.getContainsFiles key).flatten := by
    rw [heq]
    simp
  exact (hlevels.searchable.mem_getContainsFiles.mp hmem).1

/-- A file without the key is one more that was tried. -/
theorem Tried.next {key : Bytes} {file : File} {files : List File}
    {engine : StorageEngine} (h : Tried key (file :: files) engine)
    (hnone : file.get key = none) : Tried key files engine := by
  obtain ⟨tried, heq, htried⟩ := h
  refine ⟨tried ++ [file], by rw [heq, List.append_assoc]; rfl, ?_⟩
  intro other hother
  rcases List.mem_append.mp hother with hother | hother
  · exact htried other hother
  · rw [List.mem_singleton.mp hother]
    exact hnone

/-- What the files that are left make of the search. -/
theorem Tried.lookup_eq {key : Bytes} {files : List File}
    {engine : StorageEngine} (h : Tried key files engine) :
    engine.lookup key = files.findSome? fun file => file.get key := by
  obtain ⟨tried, heq, htried⟩ := h
  rw [StorageEngine.lookup, heq, List.findSome?_append,
    List.findSome?_eq_none_iff.mpr htried, Option.none_or]

theorem readerInv_found {key : Bytes} {file : File} {files : List File}
    {engine : StorageEngine} {keyOffset : KeyOffset}
    (h : Tried key (file :: files) engine) (htable : TableOf file keyOffset)
    (hsmall : file.Small) :
    ReaderInv engine
      (SharedStore.found key file files ((keyOffset.lookup key).getD 0)) := by
  rw [SharedStore.found]
  split_ifs with hzero
  · rcases htable.cases hsmall key with ⟨_, hnone⟩ | ⟨_, hne, _⟩
    · exact h.next hnone
    · exact absurd hzero hne
  · exact ⟨files, keyOffset, h, htable, rfl, hzero⟩

/-- A table that a reader has loaded may be cached, whatever happened since. -/
theorem CacheInv.set_table {db : DataBase} {transit : Option File}
    (h : CacheInv db.store db.cache) (hstore : StoreInv db transit)
    (hids : db.IdsFit) {file : File} (hfile : file ∈ db.store.engine.files)
    {keyOffset : KeyOffset} (htable : TableOf file keyOffset) :
    CacheInv db.store (db.cache.set file.fileId keyOffset) := by
  intro node hnode
  rcases LRUCache.mem_nodes_set hnode with rfl | hnode
  · refine ⟨(hstore.engine.levels.stored file hfile).le_top,
      fun name hflight => ?_, fun other hother heq => ?_⟩
    · have hinv := hstore.engine.flight
      rw [FlightInv, hflight] at hinv
      exact hinv.2.1.fresh file (Or.inl hfile) rfl
    · rw [hstore.engine.knows_ids hids hfile hother heq]
      exact htable
  · exact h node hnode

/-- How many steps a reader has left at most. -/
def ReaderPc.left (engine : StorageEngine) : ReaderPc → Nat
  | .outside => 0
  | .locked key => 3 * (engine.getContainsFiles key).flatten.length + 3
  | .visiting _ files => 3 * files.length + 2
  | .loading _ _ files => 3 * files.length + 4
  | .caching _ _ files _ => 3 * files.length + 3
  | .fetching _ _ _ => 2
  | .done _ _ => 1

theorem left_found {engine : StorageEngine} (key : Bytes) (file : File)
    {files : List File} (offset : UInt32) {count : Nat}
    (hcount : 3 * files.length + 3 ≤ count) :
    (SharedStore.found key file files offset).left engine < count := by
  rw [SharedStore.found]
  split_ifs
  · simp only [ReaderPc.left]
    omega
  · simp only [ReaderPc.left]
    omega

/-- The reader can take its next step, which touches nothing but the cache and
brings it nearer to the end. -/
def SharedStore.Reads {n : Nat} (shared : SharedStore n) (reader : Fin n) :
    Prop :=
  ∃ pc cache, shared.read reader =
      some { shared.goto reader pc with db := { shared.db with cache } } ∧
    ReaderInv shared.db.store.engine pc ∧ CacheInv shared.db.store cache ∧
    pc.left shared.db.store.engine <
      (shared.readers reader).left shared.db.store.engine

namespace SharedInv

variable {n : Nat} {shared next : SharedStore n}

theorem start {db : DataBase} (hstore : ∃ transit, StoreInv db transit)
    (hcache : CacheInv db.store db.cache) (hrange : db.InRange) :
    SharedInv (SharedStore.start n db) where
  store := hstore
  cache := hcache
  range := hrange
  gone := fun file hfile => absurd hfile (by simp [SharedStore.start])
  once := List.nodup_nil
  readers := fun _ => trivial

/-- An installed file is not deleted and is in the map. -/
theorem mapped (h : SharedInv shared) {file : File}
    (hfile : file ∈ shared.db.store.engine.files) :
    file ∉ shared.deleted ∧ shared.mapped file.fileId = some file := by
  have hnot : file ∉ shared.deleted := fun hmem =>
    (h.gone file (List.mem_append_right _ hmem)).uses file
      (Or.inr (Or.inl hfile)) rfl
  obtain ⟨transit, hstore⟩ := h.store
  refine ⟨hnot, ?_⟩
  rw [SharedStore.mapped, (hstore.engine.levels.map _ _).mpr ⟨hfile, rfl⟩]
  exact if_neg hnot

/-- The files a compaction works on are installed. -/
theorem inputs_live (h : SharedInv shared) {file : File}
    (hfile : file ∈ shared.db.store.phase.inputs) :
    file ∈ shared.db.store.engine.files := by
  obtain ⟨transit, hstore⟩ := h.store
  have hinv := hstore.engine.phase
  generalize shared.db.store.phase = phase at hfile hinv
  cases phase with
  | selected level files =>
      obtain ⟨lo, hi, hsel⟩ := hinv
      exact hsel.live file hfile
  | merging level files merge =>
      obtain ⟨⟨lo, hi, hsel⟩, _⟩ := hinv
      exact hsel.live file hfile
  | merged level files compactedFiles needRemoveFile =>
      obtain ⟨⟨lo, hi, hsel⟩, _⟩ := hinv
      exact hsel.live file hfile
  | _ => exact absurd hfile (by simp [Phase.inputs])

theorem inputs_nodup (h : SharedInv shared) :
    shared.db.store.phase.inputs.Nodup := by
  obtain ⟨transit, hstore⟩ := h.store
  have hinv := hstore.engine.phase
  generalize shared.db.store.phase = phase at hinv
  cases phase with
  | selected level files =>
      obtain ⟨lo, hi, hsel⟩ := hinv
      exact hsel.nodup
  | merging level files merge =>
      obtain ⟨⟨lo, hi, hsel⟩, _⟩ := hinv
      exact hsel.nodup
  | merged level files compactedFiles needRemoveFile =>
      obtain ⟨⟨lo, hi, hsel⟩, _⟩ := hinv
      exact hsel.nodup
  | _ => exact List.nodup_nil

/-- Steps of the other threads. -/
theorem store_step (h : SharedInv shared) {act : Act}
    (hstep : SharedStore.step (.store act) shared = some next)
    (hrange : next.db.InRange) : SharedInv next := by
  simp only [SharedStore.step] at hstep
  split_ifs at hstep with hguard
  obtain ⟨db, hdb, hnext⟩ := Option.bind_eq_some_iff.mp hstep
  rw [Option.some.injEq] at hnext
  subst hnext
  obtain ⟨transit, hstore⟩ := h.store
  have hkept : ∀ file ∈ shared.retired ++ shared.deleted,
      Gone db.store file := fun file hfile =>
    (h.gone file hfile).step hstore h.range hdb hrange
  refine ⟨hstore.step hdb hrange.1, h.cache.step hstore h.range hdb hrange,
    hrange, ?_, ?_, fun reader => ?_⟩
  · cases act with
    | update =>
        intro file hfile
        rw [List.append_assoc, List.mem_append, List.mem_append] at hfile
        rcases hfile with hfile | hfile | hfile
        · exact hkept file (List.mem_append_left _ hfile)
        · obtain ⟨store, hupdate, rfl⟩ := Option.map_eq_some_iff.mp hdb
          exact (Gone.update hstore h.range.1 hupdate hrange.1).2 hfile
        · exact hkept file (List.mem_append_right _ hfile)
    | _ => exact hkept
  · cases act with
    | update =>
        -- What is retired now was installed until now.
        have hnew : ∀ file ∈ shared.db.store.phase.inputs,
            file ∉ shared.retired ++ shared.deleted := fun file hfile hold =>
          (h.gone file hold).uses file (Or.inr (Or.inl (h.inputs_live hfile)))
            rfl
        have hperm : (shared.retired ++ shared.db.store.phase.inputs ++
            shared.deleted).Perm (shared.db.store.phase.inputs ++
              (shared.retired ++ shared.deleted)) := by
          rw [← List.append_assoc]
          exact List.perm_append_comm.append_right _
        refine hperm.nodup_iff.mpr (List.nodup_append.mpr
          ⟨h.inputs_nodup, h.once, fun file hfile other hother => ?_⟩)
        rintro rfl
        exact hnew file hfile hother
    | _ => exact h.once
  · cases hact : act.exclusive with
    | true =>
        have hout : ∀ reader, shared.readers reader = .outside := by
          by_contra hsome
          exact hguard ⟨hact, hsome⟩
        change ReaderInv db.store.engine (shared.readers reader)
        rw [hout]
        trivial
    | false =>
        exact (h.readers reader).congr
          (hstore.levelFiles_step h.range hact hdb hrange)

/-- A reader that goes on with the same store. -/
theorem goto (h : SharedInv shared) (reader : Fin n) (pc : ReaderPc)
    (hpc : ReaderInv shared.db.store.engine pc) {cache : LRUCache}
    (hcache : CacheInv shared.db.store cache) :
    SharedInv { shared.goto reader pc with
      db := { shared.db with cache } } := by
  refine ⟨?_, hcache, h.range, h.gone, h.once, fun other => ?_⟩
  · obtain ⟨transit, hstore⟩ := h.store
    exact ⟨transit, hstore.handoff.congr rfl rfl rfl rfl id, hstore.engine,
      hstore.written⟩
  · change ReaderInv shared.db.store.engine
      (Function.update shared.readers reader pc other)
    by_cases hother : other = reader
    · rw [hother, Function.update_self]
      exact hpc
    · rw [Function.update_of_ne hother]
      exact h.readers other

/-- The files of a reader are there, small and hold entries. -/
theorem tried_file (h : SharedInv shared) {key : Bytes} {file : File}
    {files : List File}
    (htried : Tried key (file :: files) shared.db.store.engine) :
    file ∈ shared.db.store.engine.files ∧ file.Small ∧
      ∃ table, loadKeyOffset file = some table ∧ TableOf file table := by
  obtain ⟨transit, hstore⟩ := h.store
  have hfile := htried.mem hstore.engine.levels
  have hsmall := hstore.engine.small h.range.2 (Or.inl hfile)
  obtain ⟨entries, hholds, _⟩ := (hstore.engine.levels.stored file hfile).holds
  exact ⟨hfile, hsmall, exists_loadKeyOffset hholds hsmall⟩

/-- A call of `cache_->Get`. -/
theorem visit (h : SharedInv shared) {reader : Fin n} {key : Bytes}
    {file : File} {files : List File}
    (htried : Tried key (file :: files) shared.db.store.engine)
    (hpc : shared.readers reader = .visiting key (file :: files)) :
    shared.Reads reader := by
  obtain ⟨hfile, hsmall, _⟩ := h.tried_file htried
  refine ⟨if (shared.db.cache.get file.fileId key).1.2 then
      SharedStore.found key file files (shared.db.cache.get file.fileId key).1.1
    else .loading key file files,
    (shared.db.cache.get file.fileId key).2, ?_, ?_,
    fun node hnode => h.cache node (LRUCache.mem_nodes_get hnode), ?_⟩
  · simp only [SharedStore.read, hpc, if_neg (h.mapped hfile).1]
  · split_ifs with hexists
    · obtain ⟨table, hnode, hoffset⟩ := LRUCache.get_of_exists hexists
      rw [hoffset]
      exact readerInv_found htried (h.cache.cachedFor _ hnode file hfile rfl)
        hsmall
    · exact htried
  · rw [hpc]
    split_ifs
    · refine left_found _ _ _ ?_
      simp only [ReaderPc.left, List.length_cons]
      omega
    · simp only [ReaderPc.left, List.length_cons]
      omega

/-- Every reader under the lock can go on, and keeps what holds. -/
theorem reads (h : SharedInv shared) {reader : Fin n}
    (hinside : shared.readers reader ≠ .outside) : shared.Reads reader := by
  have hinv := h.readers reader
  cases hpc : shared.readers reader with
  | outside => exact absurd hpc hinside
  | locked key =>
      refine ⟨.visiting key (shared.db.store.engine.getContainsFiles key).flatten,
        shared.db.cache, by simp only [SharedStore.read, hpc]; rfl, ?_, h.cache,
        ?_⟩
      · exact ⟨[], rfl, fun file hfile => absurd hfile (by simp)⟩
      · rw [hpc]
        simp only [ReaderPc.left]
        omega
  | visiting key files =>
      rw [hpc] at hinv
      cases files with
      | nil =>
          refine ⟨.done key none, shared.db.cache,
            by simp only [SharedStore.read, hpc]; rfl, ?_, h.cache, ?_⟩
          · exact (Tried.lookup_eq hinv).symm
          · rw [hpc]
            simp [ReaderPc.left]
      | cons file files => exact h.visit hinv hpc
  | loading key file files =>
      rw [hpc] at hinv
      obtain ⟨hfile, _, table, hload, htable⟩ := h.tried_file hinv
      refine ⟨.caching key file files table, shared.db.cache, ?_,
        ⟨hinv, htable⟩, h.cache, ?_⟩
      · simp only [SharedStore.read, hpc, (h.mapped hfile).2, hload,
          Option.bind_eq_bind, Option.bind_some]
        rfl
      · rw [hpc]
        simp only [ReaderPc.left]
        omega
  | caching key file files keyOffset =>
      rw [hpc] at hinv
      obtain ⟨htried, htable⟩ := hinv
      obtain ⟨hfile, hsmall, _⟩ := h.tried_file htried
      obtain ⟨transit, hstore⟩ := h.store
      refine ⟨SharedStore.found key file files
          ((keyOffset.lookup key).getD 0), _,
        by simp only [SharedStore.read, hpc],
        readerInv_found htried htable hsmall,
        h.cache.set_table hstore h.range.1 hfile htable, ?_⟩
      rw [hpc]
      exact left_found _ _ _ (le_refl _)
  | fetching key file offset =>
      rw [hpc] at hinv
      obtain ⟨files, keyOffset, htried, htable, rfl, hne⟩ := hinv
      obtain ⟨hfile, hsmall, _⟩ := h.tried_file htried
      rcases htable.cases hsmall key with ⟨hzero, _⟩ | ⟨value, _, hget, hvalue⟩
      · exact absurd hzero hne
      · refine ⟨.done key (some value), shared.db.cache, ?_, ?_, h.cache, ?_⟩
        · simp only [SharedStore.read, hpc, (h.mapped hfile).2, hvalue,
            Option.bind_eq_bind, Option.bind_some]
          rfl
        · change some value = shared.db.store.engine.lookup key
          rw [htried.lookup_eq, List.findSome?_cons, hget]
        · rw [hpc]
          simp [ReaderPc.left]
  | done key value =>
      refine ⟨.outside, shared.db.cache,
        by simp only [SharedStore.read, hpc]; rfl, trivial, h.cache, ?_⟩
      rw [hpc]
      simp [ReaderPc.left]

/-- Every step keeps what holds. -/
theorem step (h : SharedInv shared) {act : SharedAct n}
    (hstep : SharedStore.step act shared = some next)
    (hrange : next.db.InRange) : SharedInv next := by
  cases act with
  | store act => exact h.store_step hstep hrange
  | delete =>
      cases hretired : shared.retired with
      | nil => simp [SharedStore.step, hretired] at hstep
      | cons file retired =>
          simp only [SharedStore.step, hretired, Option.some.injEq] at hstep
          subst hstep
          -- The object moves from one list to the other.
          have hperm : (retired ++ file :: shared.deleted).Perm
              (shared.retired ++ shared.deleted) := by
            rw [hretired]
            exact List.perm_middle
          exact ⟨h.store, h.cache, hrange,
            fun other hother => h.gone other (hperm.mem_iff.mp hother),
            hperm.nodup_iff.mpr h.once, h.readers⟩
  | enter reader key =>
      simp only [SharedStore.step] at hstep
      split at hstep
      · rw [Option.some.injEq] at hstep
        subst hstep
        exact h.goto reader (.locked key) trivial h.cache
      · exact absurd hstep (by simp)
  | read reader =>
      have hinside : shared.readers reader ≠ .outside := by
        intro hpc
        simp [SharedStore.step, SharedStore.read, hpc] at hstep
      obtain ⟨pc, cache, hread, hpc, hcache, _⟩ := h.reads hinside
      have hsame := Option.some.inj (hread.symm.trans hstep)
      exact hsame ▸ h.goto reader pc hpc hcache

end SharedInv

namespace SharedStore

variable {n : Nat} {db : DataBase} {shared : SharedStore n}

theorem Reachable.inv (h : Reachable db shared) (hlife : db.Life) :
    SharedInv shared := by
  induction h with
  | start hrange =>
      obtain ⟨hstore, hcache⟩ := hlife.invariants
      exact .start hstore hcache hrange
  | step _ hstep hrange ih => exact ih.step hstep hrange

/-- What other threads do leaves a reader's steps as they are. -/
theorem left_step (h : SharedInv shared) {act : SharedAct n} {reader : Fin n}
    (hinside : shared.readers reader ≠ .outside)
    (hother : ∀ other, act = .read other → other ≠ reader)
    {next : SharedStore n} (hstep : step act shared = some next)
    (hrange : next.db.InRange) :
    next.readers reader = shared.readers reader ∧
      (next.readers reader).left next.db.store.engine =
        (shared.readers reader).left shared.db.store.engine := by
  cases act with
  | store act =>
      simp only [step] at hstep
      split_ifs at hstep with hguard
      obtain ⟨db', hdb, hnext⟩ := Option.bind_eq_some_iff.mp hstep
      rw [Option.some.injEq] at hnext
      subst hnext
      have hact : act.exclusive = false := by
        by_contra hact
        rw [Bool.not_eq_false] at hact
        exact hguard ⟨hact, fun hout => hinside (hout reader)⟩
      obtain ⟨transit, hstore⟩ := h.store
      have hlevels := hstore.levelFiles_step h.range hact hdb hrange
      refine ⟨rfl, ?_⟩
      change (shared.readers reader).left db'.store.engine = _
      cases shared.readers reader with
      | locked key =>
          simp only [ReaderPc.left, StorageEngine.getContainsFiles, hlevels]
      | _ => rfl
  | delete =>
      simp only [step] at hstep
      split at hstep
      · exact absurd hstep (by simp)
      · rw [Option.some.injEq] at hstep
        subst hstep
        exact ⟨rfl, rfl⟩
  | enter other key =>
      simp only [step] at hstep
      split at hstep
      · rename_i hout
        rw [Option.some.injEq] at hstep
        subst hstep
        have hne : reader ≠ other := by
          rintro rfl
          exact hinside hout
        simp only [goto, Function.update_of_ne hne, and_self]
      · exact absurd hstep (by simp)
  | read other =>
      have hne : reader ≠ other := (hother other rfl).symm
      have hother' : shared.readers other ≠ .outside := by
        intro hpc
        simp [step, read, hpc] at hstep
      obtain ⟨pc, cache, hread, _⟩ := h.reads hother'
      have hsame := Option.some.inj (hread.symm.trans hstep)
      subst hsame
      simp only [goto, Function.update_of_ne hne, and_self]

/-- Any number of `Get` calls in their file part, in any interleaving with
flushes, compactions and the deletion of compacted files: a reader under the
lock can always take its next step, which lowers the number of steps it has
left, and no step of another thread changes that number.  A reader that is done
has what the file part of `Get` returns when done at once.  No deleted file is
installed or read by a compaction, and none is deleted twice. -/
theorem readers_safe (hlife : db.Life) (hreach : Reachable db shared) :
    (∀ reader, shared.readers reader ≠ .outside →
      (∃ next, step (.read reader) shared = some next ∧
        (next.readers reader).left next.db.store.engine <
          (shared.readers reader).left shared.db.store.engine) ∧
      ∀ act next, (∀ other, act = .read other → other ≠ reader) →
        step act shared = some next → next.db.InRange →
          (next.readers reader).left next.db.store.engine =
            (shared.readers reader).left shared.db.store.engine) ∧
    (∀ reader key value, shared.readers reader = .done key value →
      ∃ cache, shared.db.getFiles key =
        some (value, { shared.db with cache })) ∧
    (∀ file ∈ shared.deleted, file ∉ shared.db.store.engine.files ∧
      file ∉ shared.db.store.phase.inputs) ∧
    (shared.retired ++ shared.deleted).Nodup := by
  have h := hreach.inv hlife
  refine ⟨fun reader hinside => ⟨?_, fun act next hother hstep hrange =>
      (left_step h hinside hother hstep hrange).2⟩,
    fun reader key value hpc => ?_, fun file hfile => ?_, h.once⟩
  · obtain ⟨pc, cache, hread, _, _, hleft⟩ := h.reads hinside
    refine ⟨_, hread, ?_⟩
    simpa only [goto, Function.update_self] using hleft
  · have hvalue := h.readers reader
    rw [hpc] at hvalue
    obtain ⟨transit, hstore⟩ := h.store
    obtain ⟨cache, hget, _⟩ := DataBase.getFiles_eq_lookup
      hstore.engine.levels
      (fun file hfile => hstore.engine.small h.range.2 (Or.inl hfile))
      h.cache.cachedFor key
    exact ⟨cache, by rw [hget, hvalue]⟩
  · have hgone := h.gone file (List.mem_append_right _ hfile)
    have hnot : file ∉ shared.db.store.engine.files := fun hmem =>
      hgone.uses file (Or.inr (Or.inl hmem)) rfl
    exact ⟨hnot, fun hmem => hnot (h.inputs_live hmem)⟩

/-- A run that stops when a size is out of range. -/
def run (acts : List (SharedAct n)) (shared : SharedStore n) :
    Option (SharedStore n) :=
  acts.foldlM (fun shared act => (step act shared).filter
    fun next => decide next.db.InRange) shared

theorem Reachable.run {acts : List (SharedAct n)} {last : SharedStore n}
    (h : Reachable db shared) (hrun : shared.run acts = some last) :
    Reachable db last := by
  induction acts generalizing shared with
  | nil => exact Option.some.inj hrun ▸ h
  | cons act acts ih =>
      obtain ⟨next, hnext, hrest⟩ := Option.bind_eq_some_iff.mp hrun
      obtain ⟨hstep, hrange⟩ := Option.filter_eq_some_iff.mp hnext
      exact ih (.step h hstep (of_decide_eq_true hrange)) hrest

/-- Reader 0 goes through its file while a compaction merges it away, reader 1
comes when both old files are deleted. -/
def whileMerging : List (SharedAct 2) :=
  (DataBase.twoVersions ++ [Act.call 0, Act.select]).map .store ++
    [.enter 0 [97], .read 0] ++
    (DataBase.fourMerges.map fun m => .store (.merge m.1 m.2)) ++
    [.read 0, .read 0, .read 0, .store .update, .delete, .delete,
      .enter 1 [97], .read 1, .read 1, .read 1, .read 1, .read 1]

theorem readers_safe_while_merging :
    ∃ shared : SharedStore 2, DataBase.tiny.Life ∧
      Reachable DataBase.tiny shared ∧ shared.deleted.length = 2 ∧
      shared.readers 1 = .done [97] (some [2]) ∧
      (∃ cache, shared.db.getFiles [97] =
        some (some [2], { shared.db with cache })) ∧
      ∀ file ∈ shared.deleted, file ∉ shared.db.store.engine.files := by
  obtain ⟨shared, hrun, hlast⟩ := (Option.any_eq_true _ _).mp
    (show ((start 2 DataBase.tiny).run whileMerging).any (fun shared =>
      decide (shared.deleted.length = 2 ∧
        shared.readers 1 = .done [97] (some [2]))) = true by decide +kernel)
  obtain ⟨hdeleted, hdone⟩ := of_decide_eq_true hlast
  have hrange : DataBase.tiny.InRange := by decide +kernel
  have hlife : DataBase.tiny.Life := .new 0 1 1 (by decide) (.start hrange)
  have hreach : Reachable DataBase.tiny shared :=
    (Reachable.start hrange).run hrun
  obtain ⟨_, hvalue, hgone, _⟩ := readers_safe hlife hreach
  exact ⟨shared, hlife, hreach, hdeleted, hdone, hvalue 1 [97] _ hdone,
    fun file hfile => (hgone file hfile).1⟩

end SharedStore

end SimpleKV
