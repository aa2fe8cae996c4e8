/-
The cache along runs.  An id belongs to one file for ever, so a cached table
stays right through flushes and compactions, and after its file is gone it is
never asked for again.
-/
import SimpleKV.View

namespace SimpleKV

/-- The flush thread's file once it is written. -/
def EngineState.transit (state : EngineState) : Option File :=
  match state.flight with
  | .written _ name => state.engine.openFile name
  | _ => none

/-- Files that are installed, made or in flight. -/
def EngineState.Knows (state : EngineState) (file : File) : Prop :=
  file ∈ state.engine.files ∨ file ∈ state.phase.extra ∨ file ∈ state.transit

/-- Every cached table belongs to a file whose id is handed out and which is
not just being written. -/
def CacheInv (state : EngineState) (cache : LRUCache) : Prop :=
  ∀ node ∈ cache.nodes, node.1 ≤ state.engine.fileId ∧
    (∀ name, state.flight ≠ .created node.1 name) ∧
    ∀ file, state.Knows file → file.fileId = node.1 → TableOf file node.2

namespace EngineInv

variable {state : EngineState} {transit : Option File}

theorem transit_eq (h : EngineInv state transit)
    (htop : state.engine.fileId < 10 ^ 8) : transit = state.transit := by
  have hinv := h.flight
  unfold FlightInv at hinv
  cases hflight : state.flight with
  | none =>
      rw [hflight] at hinv
      rw [hinv, EngineState.transit, hflight]
  | created id name =>
      rw [hflight] at hinv
      rw [hinv.1, EngineState.transit, hflight]
  | written id name =>
      obtain ⟨file, htransit, hopen, _⟩ := h.openFile_transit htop hflight
      rw [htransit, EngineState.transit, hflight]
      exact hopen.symm

/-- Ids tell known files apart. -/
theorem knows_ids (h : EngineInv state transit)
    (htop : state.engine.fileId < 10 ^ 8) {file other : File}
    (hfile : file ∈ state.engine.files) (hother : state.Knows other)
    (hid : other.fileId = file.fileId) : other = file := by
  rcases hother with hother | hother | hother
  · exact h.known_ids (Or.inl hother) (Or.inl hfile) hid
  · exact h.known_ids (Or.inr hother) (Or.inl hfile) hid
  · rw [← h.transit_eq htop] at hother
    obtain ⟨_, _, hnew⟩ := h.transit_stored hother
    exact absurd hid.symm (hnew.fresh file (Or.inl hfile))

end EngineInv

namespace CacheInv

variable {state state' : EngineState} {cache cache' : LRUCache}

theorem cachedFor (h : CacheInv state cache) :
    CachedFor state.engine.files cache :=
  fun node hnode file hfile => (h node hnode).2.2 file (Or.inl hfile)

theorem empty (state : EngineState) (capacity : Nat) (hpos : 0 < capacity) :
    CacheInv state (.empty capacity hpos) :=
  fun node hnode => absurd hnode (by simp [LRUCache.empty])

/-- The cache only loses nodes, and every file that becomes known has an id
handed out since, or the one of the file being written. -/
theorem congr (h : CacheInv state cache)
    (hnodes : ∀ node ∈ cache'.nodes, node ∈ cache.nodes)
    (hid : state.engine.fileId ≤ state'.engine.fileId)
    (hcreated : ∀ id name, state'.flight = .created id name →
      state.flight = .created id name ∨ state.engine.fileId < id)
    (hknows : ∀ file, state'.Knows file → state.Knows file ∨
      state.engine.fileId < file.fileId ∨
        ∃ name, state.flight = .created file.fileId name) :
    CacheInv state' cache' := by
  intro node hnode
  obtain ⟨hle, hnot, htable⟩ := h node (hnodes node hnode)
  refine ⟨hle.trans hid, fun name hflight => ?_, fun file hfile heq => ?_⟩
  · rcases hcreated _ name hflight with hold | hnew
    · exact hnot name hold
    · omega
  · rcases hknows file hfile with hold | hnew | ⟨name, hname⟩
    · exact htable file hold heq
    · omega
    · rw [heq] at hname
      exact absurd hname (hnot name)

end CacheInv

namespace CacheInv

variable {db : DataBase} {transit : Option File} {store : EngineState}

/-- A `Get` caches tables of files it found. -/
theorem getFiles (h : CacheInv db.store db.cache) (hstore : StoreInv db transit)
    (hrange : db.InRange) {key : Bytes} {value : Option Bytes}
    {db' : DataBase} (hget : db.getFiles key = some (value, db')) :
    CacheInv db'.store db'.cache := by
  have htop : db.store.engine.fileId < 10 ^ 8 := hrange.1
  obtain ⟨cache, hget', hnodes⟩ := DataBase.getFiles_eq_lookup
    hstore.engine.levels
    (fun file hfile => hstore.engine.small hrange.2 (Or.inl hfile))
    h.cachedFor key
  rw [hget', Option.some.injEq, Prod.mk.injEq] at hget
  rw [← hget.2]
  intro node hnode
  rcases hnodes node hnode with hold | ⟨file, hfile, hid, htable⟩
  · exact h node hold
  · have hstored := hstore.engine.levels.stored file hfile
    refine ⟨hid ▸ hstored.le_top, fun name hflight => ?_,
      fun other hother heq => ?_⟩
    · have hinv := hstore.engine.flight
      change db.store.flight = _ at hflight
      rw [FlightInv, hflight] at hinv
      exact hinv.2.1.fresh file (Or.inl hfile) hid.symm
    · rw [hstore.engine.knows_ids htop hfile hother (heq.trans hid)]
      exact htable

/-- The flush thread draws an id that no table has. -/
theorem newFile (h : CacheInv db.store db.cache) (hstore : StoreInv db transit)
    (hnew : db.store.newFile = some store)
    (htop' : store.engine.fileId < 10 ^ 8) : CacheInv store db.cache := by
  obtain ⟨hafter, hflight, hid, hlevels, _, hphase, _⟩ :=
    hstore.engine.newFile hnew htop'
  refine h.congr (fun _ hnode => hnode) (by omega)
    (fun id name hcreated => Or.inr ?_) fun file hfile => Or.inl ?_
  · have heq := hflight.symm.trans hcreated
    rw [Flight.created.injEq] at heq
    omega
  · unfold EngineState.Knows at hfile ⊢
    rw [← hafter.transit_eq htop', StorageEngine.files, hlevels,
      hphase] at hfile
    exact hfile.imp_right fun hrest => Or.inl (hrest.resolve_right (by simp))

/-- The file written has the id that was drawn. -/
theorem write (h : CacheInv db.store db.cache) (hstore : StoreInv db transit)
    (htop : db.store.engine.fileId < 10 ^ 8) {iter : IterOrder} {bytes : Bytes}
    {keyOffset : KeyOffset}
    (hbytes : db.buffer.writeFlushBuffer iter = some (bytes, keyOffset))
    (hwrite : db.store.write bytes = some store)
    (htop' : store.engine.fileId < 10 ^ 8) : CacheInv store db.cache := by
  obtain ⟨id, name, hflight, _, hid⟩ := EngineState.write_eq hwrite
  obtain ⟨file, list, _, _, hstored, hlevel, hfileId, hmmap, _⟩ :=
    hstore.exists_written hbytes htop hflight
  obtain ⟨hafter, hflight', _, hlevels, _, hphase, _⟩ :=
    hstore.engine.write hflight hstored hlevel hfileId hmmap hwrite
  refine h.congr (fun _ hnode => hnode) hid.ge (fun other name' hcreated =>
    ?_) fun other hother => ?_
  · exact absurd (hflight'.symm.trans hcreated) (by simp)
  · unfold EngineState.Knows at hother ⊢
    rw [← hafter.transit_eq htop', StorageEngine.files, hlevels, hphase,
      Option.mem_some_iff] at hother
    rcases hother with hother | hother | hother
    · exact Or.inl (Or.inl hother)
    · exact Or.inl (Or.inr (Or.inl hother))
    · exact Or.inr (Or.inr ⟨name, by rw [← hother, hfileId, hflight]⟩)

/-- The flush thread caches the table of its own file. -/
theorem cacheSet (h : CacheInv db.store db.cache) (hstore : StoreInv db transit)
    (htop : db.store.engine.fileId < 10 ^ 8) {keyOffset : KeyOffset} {id : Int}
    {name : Name} (hat : db.flushPc = .cacheSet keyOffset)
    (hflight : db.store.flight = .written id name) :
    CacheInv db.store (db.cache.set id keyOffset) := by
  have hwritten := hstore.written
  rw [DataBase.Written, hat] at hwritten
  obtain ⟨file, htransit, htable⟩ := hwritten
  obtain ⟨hstored, _, hnew⟩ := hstore.engine.transit_stored
    (htransit ▸ rfl : file ∈ transit)
  obtain ⟨file', htransit', _, hid⟩ :=
    hstore.engine.openFile_transit htop hflight
  rw [htransit, Option.some.injEq] at htransit'
  subst htransit'
  intro node hnode
  rcases LRUCache.mem_nodes_set hnode with rfl | hnode
  · refine ⟨hid ▸ hstored.le_top, fun name' hcreated => ?_,
      fun other hother heq => ?_⟩
    · exact absurd (hflight.symm.trans hcreated) (by simp)
    · change other.fileId = id at heq
      rcases hother with hother | hother | hother
      · exact absurd (heq.trans hid.symm) (hnew.fresh other (Or.inl hother))
      · exact absurd (heq.trans hid.symm) (hnew.fresh other (Or.inr hother))
      · rw [← hstore.engine.transit_eq htop, htransit,
          Option.mem_some_iff] at hother
        exact hother ▸ htable
  · exact h node hnode

/-- The flush thread's file becomes one of level 0. -/
theorem addFile (h : CacheInv db.store db.cache) (hstore : StoreInv db transit)
    (htop : db.store.engine.fileId < 10 ^ 8)
    (hadd : db.store.addFile = some store) : CacheInv store db.cache := by
  obtain ⟨file, htransit, _, _, _, hstate, hafter⟩ :=
    hstore.engine.addFile htop hadd
  subst hstate
  refine h.congr (fun _ hnode => hnode) (le_refl _) (fun _ _ hcreated =>
    absurd hcreated (by simp)) fun other hother => Or.inl ?_
  rcases hother with hother | hother | hother
  · rcases hstore.engine.levels.mem_files_installFile.mp hother with rfl |
      hother
    · refine Or.inr (Or.inr ?_)
      rw [← hstore.engine.transit_eq htop]
      exact htransit ▸ rfl
    · exact Or.inl hother
  · exact Or.inr (Or.inl hother)
  · exact absurd hother (by simp [EngineState.transit])

/-- A compaction makes files with new ids only. -/
theorem compact (h : CacheInv db.store db.cache) (hstore : StoreInv db transit)
    (htop : db.store.engine.fileId < 10 ^ 8)
    (hcompact : CompactStep db.buffer.bufferSize db.store store)
    (htop' : store.engine.fileId < 10 ^ 8) : CacheInv store db.cache := by
  obtain ⟨hafter, hsame⟩ := hstore.engine.compact hcompact htop'
  refine h.congr (fun _ hnode => hnode) hsame.fileId_le
    (fun id name hcreated => Or.inl (hsame.flight ▸ hcreated))
    fun file hfile => ?_
  unfold EngineState.Knows at hfile ⊢
  rw [← hafter.transit_eq htop', StorageEngine.files,
    hsame.levelFiles] at hfile
  rcases hfile with hfile | hfile | hfile
  · exact Or.inl (Or.inl hfile)
  · exact (hsame.made file hfile).imp (fun hold => Or.inr (Or.inl hold)) Or.inl
  · rw [hstore.engine.transit_eq htop] at hfile
    exact Or.inl (Or.inr (Or.inr hfile))

/-- The maps change to files that were known before. -/
theorem update (h : CacheInv db.store db.cache) (hstore : StoreInv db transit)
    (htop : db.store.engine.fileId < 10 ^ 8)
    (hupdate : db.store.update = some store)
    (htop' : store.engine.fileId < 10 ^ 8) : CacheInv store db.cache := by
  obtain ⟨level, files, compactedFiles, needRemoveFile, hphase, hstate,
    hfiles, hafter⟩ := hstore.engine.update hupdate
  have hinv := hstore.engine.phase
  rw [hphase] at hinv
  obtain ⟨⟨lo, hi, hsel⟩, _⟩ := hinv
  refine h.congr (fun _ hnode => hnode) (EngineState.update_flight hupdate).2
    (fun id name hcreated => Or.inl
      ((EngineState.update_flight hupdate).1 ▸ hcreated))
    fun file hfile => Or.inl ?_
  unfold EngineState.Knows at hfile ⊢
  rw [← hafter.transit_eq htop', hfiles] at hfile
  rcases hfile with (hmade | hkept) | hold | hflight
  · refine Or.inr (Or.inl ?_)
    rw [hphase]
    exact hmade
  · exact Or.inl hkept.1
  · rw [hstate] at hold
    change file ∈ (if needRemoveFile then files else []) at hold
    split_ifs at hold
    · exact Or.inl (hsel.live file hold)
    · exact absurd hold (by simp)
  · rw [hstore.engine.transit_eq htop] at hflight
    exact Or.inr (Or.inr hflight)

/-- Every step keeps the cache right. -/
theorem step {db' : DataBase} (h : CacheInv db.store db.cache)
    (hstore : StoreInv db transit) (hrange : db.InRange) {act : Act}
    (hstep : DataBase.step act db = some db') (hrange' : db'.InRange) :
    CacheInv db'.store db'.cache := by
  cases DataBase.step_data hstep with
  | control _ hsame =>
      rw [hsame.store, hsame.cache]
      exact h
  | add _ _ => exact h
  | getFiles hget => exact h.getFiles hstore hrange hget
  | clearCache =>
      exact fun node hnode => absurd hnode (by simp [LRUCache.clear])
  | newFile _ hnew => exact h.newFile hstore hnew hrange'.1
  | write _ hbytes hwrite =>
      exact h.write hstore hrange.1 hbytes hwrite hrange'.1
  | clear _ _ => exact h
  | cacheSet hat hflight => exact h.cacheSet hstore hrange.1 hat hflight
  | addFile _ hadd => exact h.addFile hstore hrange.1 hadd
  | compact _ hcompact => exact h.compact hstore hrange.1 hcompact hrange'.1
  | update hupdate => exact h.update hstore hrange.1 hupdate hrange'.1

end CacheInv

end SimpleKV
