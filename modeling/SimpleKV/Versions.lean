/-
The newest version of a key anywhere in the store.  It moves from the income
buffer to the flush buffer, to the flush thread's file, to level 0 and on to
deeper levels; only a write to the key changes it, or a compaction that drops a
tombstone.
-/
import SimpleKV.CacheInvariant

namespace SimpleKV

open SortedAssoc

/-- What the two buffers hold for a key. -/
def StorageBuffer.newest (key : Bytes) (buffer : StorageBuffer) :
    Option Bytes :=
  (find key buffer.incomeBuffer.entries).or
    (buffer.flushBuffer.bind fun list => find key list.entries)

/-- The newest version of a key: in the buffers, in the flush thread's file, or
in the levels. -/
def DataBase.version (key : Bytes) (db : DataBase) : Option Bytes :=
  (db.buffer.newest key).or
    ((db.store.transit.bind fun file => file.get key).or
      (db.store.engine.lookup key))

/-- What a step may make of the newest version of a key. -/
def Act.Carries (key : Bytes) (version version' : Option Bytes) : Act → Prop
  | .add order name value =>
      version' = if (ByteArray.ofString name).data = key then
        some (ByteArray.ofString (DataBase.orderValue order value)).data
      else version
  | .update => (version = none → version' = none) ∧
      ∀ value, version = some value → value ≠ tombValue →
        version' = some value
  | _ => version' = version

theorem Act.Carries.of_eq {key : Bytes} {version version' : Option Bytes}
    {act : Act} (hact : ∀ order name value, act ≠ .add order name value)
    (h : version' = version) : act.Carries key version version' := by
  cases act with
  | add order name value => exact absurd rfl (hact order name value)
  | update => exact ⟨fun hnone => h.trans hnone, fun _ hsome _ => h.trans hsome⟩
  | _ => exact h

theorem HandoffInv.get_eq {db : DataBase} (h : HandoffInv db) {key : Bytes}
    (hprobe : StorageBuffer.ProbeFits key) :
    db.buffer.get key = some (db.buffer.newest key) := by
  have hflush : Option.Rel Encodes db.buffer.flushBuffer
      (db.buffer.flushBuffer.map SkipList.entries) := by
    cases hlist : db.buffer.flushBuffer with
    | none => exact .none
    | some list => exact .some (h.flushing list hlist).1
  rw [StorageBuffer.get_eq h.income hflush hprobe, StorageBuffer.newest,
    Option.bind_map]
  rfl

/-- `Add` puts its entry in front of everything. -/
theorem HandoffInv.newest_add {db : DataBase} (h : HandoffInv db)
    {name value : ByteArray} {buffer : StorageBuffer} {notifying : Bool}
    (hadd : db.buffer.add name value = some (buffer, notifying))
    (key : Bytes) :
    buffer.newest key = if name.data = key then some value.data
      else db.buffer.newest key := by
  obtain ⟨_, hlist, _, hcases⟩ := StorageBuffer.add_cases h.income hadd
  have hfind : find key (db.buffer.insert name value).incomeBuffer.entries =
      if name.data = key then some value.data
      else find key db.buffer.incomeBuffer.entries := by
    rw [hlist.entries_eq]
    split_ifs with hkey
    · rw [← hkey, find_upsert_self]
    · exact find_upsert_of_ne _ _ (Ne.symm hkey)
  rcases hcases with ⟨_, hincome, hflush, _⟩ | ⟨_, hready, hincome, hflush, _⟩
  · rw [StorageBuffer.newest, hincome, hflush, hfind, StorageBuffer.newest]
    split_ifs <;> rfl
  · rw [StorageBuffer.newest, hincome, hflush, StorageBuffer.newest,
      h.idle hready]
    change (none : Option Bytes).or
      (find key (db.buffer.insert name value).incomeBuffer.entries) = _
    rw [hfind]
    split_ifs <;> simp

/-- A newly installed file of level 0 is searched first. -/
theorem EngineInv.lookup_installFile {state : EngineState}
    {transit : Option File} (h : EngineInv state transit) {file : File}
    (hlevel : file.levelId = 0)
    (hnewer : ∀ other ∈ state.engine.level 0, other.fileId < file.fileId)
    (hafter : LevelInv (state.engine.installFile file)) (key : Bytes) :
    (state.engine.installFile file).lookup key =
      (file.get key).or (state.engine.lookup key) := by
  have hset : {other | other ∈ (state.engine.installFile file).files} =
      insert file {other | other ∈ state.engine.files} := by
    ext other
    exact h.levels.mem_files_installFile
  have hfirst : ∀ other ∈ {other | other ∈ state.engine.files},
      fileLayout.Before file other := by
    intro other hother
    rcases Nat.eq_zero_or_pos other.levelId with hzero | hpos
    · refine Or.inr ⟨hlevel.trans hzero.symm, hnewer other ?_⟩
      exact h.levels.mem_level_iff.mpr ⟨hother, hzero⟩
    · exact Or.inl (by change file.levelId < other.levelId; omega)
  cases hget : file.get key with
  | some value =>
      rw [Option.some_or, hafter.searchable.lookup_eq_some_iff, hset]
      exact Recency.Layout.reads_insert hfirst hget
  | none =>
      rw [Option.none_or]
      refine Option.ext fun value => ?_
      rw [hafter.searchable.lookup_eq_some_iff, hset,
        h.levels.searchable.lookup_eq_some_iff]
      exact Recency.Layout.reads_insert_of_none hget

/-- A file that holds a list's entries answers like the list. -/
theorem File.Holds.get_eq_find {file : File} {entries : List (Bytes × Bytes)}
    (h : file.Holds entries) (hsmall : file.Small) (key : Bytes) :
    file.get key = find key entries := by
  rw [File.get, h.scan_eq hsmall]

/-- The update of the maps keeps live values and adds no key. -/
theorem EngineInv.lookup_update {state state' : EngineState}
    {transit : Option File} (h : EngineInv state transit)
    (hsizes : ∀ file ∈ state.engine.folder.entries, file.2.length < 2 ^ 32)
    (hstep : state.update = some state') (key : Bytes) :
    (state.engine.lookup key = none → state'.engine.lookup key = none) ∧
      ∀ value, state.engine.lookup key = some value → value ≠ tombValue →
        state'.engine.lookup key = some value := by
  obtain ⟨level, files, compactedFiles, needRemoveFile, hphase, _, hfiles,
    hafter⟩ := h.update hstep
  have hreplaces := h.replaces hsizes hphase key
  constructor
  · intro hnone
    rw [h.levels.searchable.lookup_eq_none_iff] at hnone
    rw [hafter.levels.searchable.lookup_eq_none_iff]
    intro file hfile
    rcases (hfiles file).mp hfile with hmade | hkept
    · by_contra hget
      obtain ⟨value, hvalue⟩ := Option.ne_none_iff_exists'.mp hget
      obtain ⟨⟨input, hstop, _⟩, _⟩ := hreplaces.sound file hmade value hvalue
      exact hstop.has (hnone input (hreplaces.subset hstop.mem))
    · exact hnone file hkept.1
  · intro value hvalue hlive
    rw [h.levels.searchable.lookup_eq_some_iff] at hvalue
    rw [hafter.levels.searchable.lookup_eq_some_iff]
    have hreads := hreplaces.reads_of_live hvalue fun hdead => hlive hdead.2
    refine (Recency.Layout.reads_congr fun file _ => ?_).mp hreads
    change (file ∈ state.engine.files ∧ file ∉ files) ∨
      file ∈ compactedFiles ↔ file ∈ state'.engine.files
    rw [hfiles, or_comm]

namespace StoreInv

variable {db db' : DataBase} {transit : Option File}

theorem newest_congr
    (hincome : db'.buffer.incomeBuffer = db.buffer.incomeBuffer)
    (hflush : db'.buffer.flushBuffer = db.buffer.flushBuffer) (key : Bytes) :
    db'.buffer.newest key = db.buffer.newest key := by
  rw [StorageBuffer.newest, hincome, hflush, StorageBuffer.newest]

/-- Before its first write the flush thread's file holds nothing. -/
theorem transit_eq_none (h : StoreInv db transit)
    (htop : db.store.engine.fileId < 10 ^ 8)
    (hflight : ∀ id name, db.store.flight ≠ .written id name) :
    db.store.transit = none := by
  rw [← h.engine.transit_eq htop]
  have hinv := h.engine.flight
  unfold FlightInv at hinv
  split at hinv
  · exact hinv
  · exact hinv.1
  · rename_i id name hwritten
    exact absurd hwritten (hflight id name)

/-- What every step makes of the newest version of a key. -/
theorem carries (h : StoreInv db transit) (hrange : db.InRange) {act : Act}
    (hstep : DataBase.step act db = some db') (hrange' : db'.InRange)
    (key : Bytes) : act.Carries key (db.version key) (db'.version key) := by
  have htop : db.store.engine.fileId < 10 ^ 8 := hrange.1
  have htransit := h.engine.transit_eq htop
  cases DataBase.step_data hstep with
  | control hact hsame =>
      refine .of_eq (fun order name value heq => ?_) ?_
      · rw [heq] at hact
        exact hact
      · rw [DataBase.version, newest_congr hsame.incomeBuffer
          hsame.flushBuffer, hsame.store]
        rfl
  | @add order name value buffer notifying _ hadd =>
      change DataBase.version key { db with buffer, notifying } = _
      rw [DataBase.version, h.handoff.newest_add hadd key]
      split_ifs <;> rfl
  | getFiles hget =>
      obtain ⟨cache, rfl⟩ := DataBase.getFiles_eq hget
      exact rfl
  | clearCache => exact rfl
  | @newFile store _ hnew =>
      obtain ⟨hflight, _, _⟩ := EngineState.newFile_eq hnew
      obtain ⟨hafter, _, _, hlevels, _, _, _⟩ :=
        h.engine.newFile hnew hrange'.1
      have hbefore := h.transit_eq_none htop (by simp [hflight])
      refine .of_eq (fun _ _ _ => by simp) ?_
      change (db.buffer.newest key).or
        ((store.transit.bind fun file => file.get key).or
          (store.engine.lookup key)) = _
      rw [← hafter.transit_eq hrange'.1, DataBase.lookup_congr hlevels,
        DataBase.version, hbefore]
  | @write _ _ _ store _ hbytes hwrite =>
      obtain ⟨id, name, hflight, _, _⟩ := EngineState.write_eq hwrite
      obtain ⟨file, list, hlist, hholds, hstored, hlevel, hfileId, hmmap, _⟩ :=
        h.exists_written hbytes hrange.1 hflight
      obtain ⟨hafter, _, _, hlevels, _, _, _⟩ :=
        h.engine.write hflight hstored hlevel hfileId hmmap hwrite
      have hbefore := h.transit_eq_none htop (by simp [hflight])
      have hsmall := hafter.small_transit hrange'.2 rfl
      refine .of_eq (fun _ _ _ => by simp) ?_
      change (db.buffer.newest key).or
        ((store.transit.bind fun file => file.get key).or
          (store.engine.lookup key)) = _
      -- The new file repeats the flush buffer.
      rw [← hafter.transit_eq hrange'.1, DataBase.lookup_congr hlevels,
        DataBase.version, hbefore, Option.bind_some,
        hholds.get_eq_find hsmall, StorageBuffer.newest, hlist,
        Option.bind_some, Option.bind_none, Option.none_or]
      cases find key db.buffer.incomeBuffer.entries <;>
        cases find key list.entries <;> simp
  | clear hat _ =>
      have hwritten := h.written
      rw [DataBase.Written, hat] at hwritten
      obtain ⟨file, list, hfile, hlist, hholds, _⟩ := hwritten
      have hsmall := h.engine.small_transit hrange.2
        (hfile ▸ rfl : file ∈ transit)
      refine .of_eq (fun _ _ _ => by simp) ?_
      change ((find key db.buffer.incomeBuffer.entries).or none).or
        ((db.store.transit.bind fun file => file.get key).or
          (db.store.engine.lookup key)) = _
      rw [DataBase.version, ← htransit, hfile, Option.bind_some,
        hholds.get_eq_find hsmall, StorageBuffer.newest, hlist,
        Option.bind_some]
      cases find key db.buffer.incomeBuffer.entries <;>
        cases find key list.entries <;> simp
  | cacheSet _ _ => exact rfl
  | @addFile store _ _ hadd =>
      obtain ⟨file, hfile, hnew, _, hlevel, hstate, hafter⟩ :=
        h.engine.addFile htop hadd
      subst hstate
      refine .of_eq (fun _ _ _ => by simp) ?_
      change (db.buffer.newest key).or ((none : Option Bytes).or
        ((db.store.engine.installFile file).lookup key)) = _
      rw [h.engine.lookup_installFile hlevel hnew.newer hafter.levels,
        DataBase.version, ← htransit, hfile, Option.none_or, Option.bind_some]
  | @compact _ store _ hact hcompact =>
      obtain ⟨hafter, hsame⟩ := h.engine.compact hcompact hrange'.1
      refine .of_eq (fun order name value heq => ?_) ?_
      · rw [heq] at hact
        exact hact
      · change (db.buffer.newest key).or
          ((store.transit.bind fun file => file.get key).or
            (store.engine.lookup key)) = _
        rw [← hafter.transit_eq hrange'.1,
          DataBase.lookup_congr hsame.levelFiles, DataBase.version, htransit]
  | @update store hupdate =>
      obtain ⟨_, _, _, _, _, _, _, hafter⟩ := h.engine.update hupdate
      obtain ⟨hnone, hlive⟩ := h.engine.lookup_update hrange.2 hupdate key
      have hversion : DataBase.version key { db with store } =
          (db.buffer.newest key).or
            ((db.store.transit.bind fun file => file.get key).or
              (store.engine.lookup key)) := by
        rw [← htransit, hafter.transit_eq hrange'.1]
        rfl
      change (_ → DataBase.version key { db with store } = none) ∧ ∀ value,
        _ → _ → DataBase.version key { db with store } = some value
      rw [hversion, DataBase.version]
      cases hnewest : db.buffer.newest key with
      | some newest => simp
      | none =>
          cases hflight : db.store.transit.bind fun file => file.get key with
          | some value => simp
          | none => simpa using ⟨hnone, hlive⟩

end StoreInv

end SimpleKV
