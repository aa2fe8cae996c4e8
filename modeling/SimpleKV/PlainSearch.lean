/-
The file search of `Get` against the plain one, which scans all entries of all
files, levels upwards and ids downwards, and takes the first with the key.
-/
import SimpleKV.Reads
import SimpleKV.Reopen

namespace SimpleKV

open SortedAssoc

namespace StorageEngine

/-- All files, levels upwards and ids downwards. -/
def scanOrder (engine : StorageEngine) : List File :=
  (engine.levelFiles.map fun files =>
    files.insertionSort fun a b => b.fileId ≤ a.fileId).flatten

/-- The value of the first entry with the key. -/
def plainSearch (key : Bytes) (engine : StorageEngine) : Option Bytes :=
  find key (engine.scanOrder.flatMap File.scan)

end StorageEngine

namespace Searchable

variable {engine : StorageEngine}

theorem mem_scanOrder {file : File} :
    file ∈ engine.scanOrder ↔ file ∈ engine.files := by
  rw [StorageEngine.scanOrder, StorageEngine.files, List.mem_flatten,
    List.mem_flatten]
  constructor
  · rintro ⟨_, hsorted, hfile⟩
    obtain ⟨files, hfiles, rfl⟩ := List.mem_map.mp hsorted
    exact ⟨files, hfiles, (List.mem_insertionSort _).mp hfile⟩
  · rintro ⟨files, hfiles, hfile⟩
    exact ⟨_, List.mem_map_of_mem hfiles, (List.mem_insertionSort _).mpr hfile⟩

/-- The plain search goes from new to old. -/
theorem pairwise_scanOrder (h : Searchable engine) :
    engine.scanOrder.Pairwise fileLayout.Before := by
  rw [StorageEngine.scanOrder, List.pairwise_flatten]
  constructor
  · intro sorted hsorted
    obtain ⟨files, hfiles, rfl⟩ := List.mem_map.mp hsorted
    obtain ⟨i, hi, rfl⟩ := List.getElem_of_mem hfiles
    rw [← level_eq_getElem engine hi]
    exact h.pairwise_insertionSort (List.Sublist.refl _)
  · rw [List.pairwise_map, List.pairwise_iff_getElem]
    intro i j hi hj hij file hfile other hother
    rw [List.mem_insertionSort, ← level_eq_getElem engine hi] at hfile
    rw [List.mem_insertionSort, ← level_eq_getElem engine hj] at hother
    exact h.before_of_level_lt hij hfile hother

/-- The pruned search finds what the plain one finds. -/
theorem lookup_eq_plainSearch (h : Searchable engine) (key : Bytes) :
    engine.lookup key = engine.plainSearch key := by
  refine Option.ext fun value => ?_
  rw [h.lookup_eq_some_iff, StorageEngine.plainSearch, find_flatMap]
  refine Iff.trans ?_ (Recency.Layout.findSome?_eq_some_iff
    h.pairwise_scanOrder).symm
  exact Recency.Layout.reads_congr fun file _ => mem_scanOrder.symm

end Searchable

/-- A table of a small file is the one `LoadKeyOffset` loads. -/
theorem TableOf.exists_loaded {file : File} {table : KeyOffset}
    (h : TableOf file table) (hsmall : file.Small) :
    ∃ stored, loadKeyOffset file = some stored ∧
      ∀ key, table.lookup key = stored.lookup key := by
  obtain ⟨entries, hholds, htable⟩ := h
  obtain ⟨stored, hload, entries', hholds', hstored⟩ :=
    exists_loadKeyOffset hholds hsmall
  have hsame : entries' = entries :=
    (hholds'.scan_eq hsmall).symm.trans (hholds.scan_eq hsmall)
  exact ⟨stored, hload, fun key => by rw [htable, hstored, hsame]⟩

/-- The states of a store from its first start on: a run, and after a stop with
no flush and no compaction under way further runs on the folder it left. -/
inductive DataBase.Life : DataBase → Prop
  | new (bufferSize : UInt32) (capacity limit : Nat) (hpos : 0 < capacity)
      {acts : List Act} {db : DataBase} :
      Reaches InRange (.start bufferSize (.empty capacity hpos) (.new limit))
        acts db → Life db
  | reopen {last : DataBase} (sort : StorageEngine.BoundSort)
      {listing : List Name} (bufferSize : UInt32) (capacity limit : Nat)
      (hpos : 0 < capacity) {engine : StorageEngine} {acts : List Act}
      {db : DataBase} :
      Life last → last.store.flight = .none → last.store.phase = .ready →
      Lists listing last.store.engine.folder →
      StorageEngine.ofFolder sort limit last.store.engine.folder listing =
        some engine →
      Reaches InRange (.start bufferSize (.empty capacity hpos) engine) acts
        db → Life db

namespace DataBase

theorem Life.inRange {db : DataBase} (h : db.Life) : db.InRange := by
  cases h with
  | new _ _ _ _ hrun => exact hrun.last
  | reopen _ _ _ _ _ _ _ _ _ _ hrun => exact hrun.last

theorem Life.invariants {db : DataBase} (h : db.Life) :
    (∃ transit, StoreInv db transit) ∧ CacheInv db.store db.cache := by
  induction h with
  | new _ _ _ _ hrun => exact invariants_run hrun
  | reopen sort bufferSize capacity limit hpos hlast hflight hphase hlisting
      hopen hrun ih =>
      obtain ⟨⟨transit, hstore⟩, _⟩ := ih
      have hdisk := hstore.engine.onDisk_of_ready hflight hphase
      obtain ⟨engine, hopen', hfolder, hreopened⟩ :=
        hdisk.exists_ofFolder hlast.inRange.1 sort limit hlisting
      rw [hopen, Option.some.injEq] at hopen'
      subst hopen'
      exact invariants_reaches ⟨none, .start _ _ _,
        .ofReopened hreopened hstore.engine.levels hdisk hfolder, trivial⟩
        (.empty _ capacity hpos) hrun

/-- In every state of a store's life the file part of `Get` returns what the
plain search over all entries of all files finds, and every cached table under
the id of an installed file is the table stored in that file. -/
theorem getFiles_eq_plainSearch {db : DataBase} (hlife : db.Life)
    (key : Bytes) :
    (∃ cache, db.getFiles key =
        some (db.store.engine.plainSearch key, { db with cache })) ∧
      ∀ id table, (id, table) ∈ db.cache.nodes →
        ∀ file ∈ db.store.engine.files, file.fileId = id →
          ∃ stored, loadKeyOffset file = some stored ∧
            ∀ name, table.lookup name = stored.lookup name := by
  obtain ⟨⟨transit, hstore⟩, hcache⟩ := hlife.invariants
  have hsmall : ∀ file ∈ db.store.engine.files, file.Small :=
    fun file hfile => hstore.engine.small hlife.inRange.2 (Or.inl hfile)
  constructor
  · obtain ⟨cache, hfiles, _⟩ := getFiles_eq_lookup hstore.engine.levels hsmall
      hcache.cachedFor key
    rw [hstore.engine.levels.searchable.lookup_eq_plainSearch] at hfiles
    exact ⟨cache, hfiles⟩
  · intro id table hnode file hfile hid
    exact (hcache.cachedFor _ hnode file hfile hid).exists_loaded
      (hsmall file hfile)

/-- Two versions in two files, the newer one's table cached. -/
theorem getFiles_eq_plainSearch_two_versions :
    ∃ db : DataBase, (db.Life ∧ db.store.engine.files.length = 2 ∧
        db.cache.nodes.length = 1) ∧
      ∃ cache, db.getFiles [97] = some (some [2], { db with cache }) := by
  obtain ⟨db, hrun, hfiles, hnodes, hvalue⟩ := exists_reaches
    (show Along (fun db _ => db.InRange) twoVersions tiny by decide +kernel)
    (show (run twoVersions tiny).any (fun db => decide (db.InRange ∧
      db.store.engine.files.length = 2 ∧ db.cache.nodes.length = 1 ∧
        db.store.engine.plainSearch [97] = some [2])) = true by
      decide +kernel)
  have hlife : db.Life := .new 0 1 1 (by decide) hrun
  refine ⟨db, ⟨hlife, hfiles, hnodes⟩, ?_⟩
  obtain ⟨cache, hget⟩ := (getFiles_eq_plainSearch hlife [97]).1
  exact ⟨cache, hvalue ▸ hget⟩

end DataBase

end SimpleKV
