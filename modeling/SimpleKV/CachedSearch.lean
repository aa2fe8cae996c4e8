/-
The file search of `Get` with its cache of offset tables.  As long as every
cached table belongs to the file of its id, the search returns what the files
hold.
-/
import SimpleKV.DataBase
import SimpleKV.Search

namespace SimpleKV

open SortedAssoc

/-- `table` gives the offsets of the entries of `file`. -/
def TableOf (file : File) (table : KeyOffset) : Prop :=
  ∃ entries, file.Holds entries ∧ ∀ key, table.lookup key =
    (offsetTable file.lowerBound file.upperBound entries).lookup key

/-- An offset from the file's table leads to the file's value, and 0 to none. -/
theorem TableOf.cases {file : File} {table : KeyOffset}
    (h : TableOf file table) (hsmall : file.Small) (key : Bytes) :
    ((table.lookup key).getD 0 = 0 ∧ file.get key = none) ∨
      ∃ value, (table.lookup key).getD 0 ≠ 0 ∧ file.get key = some value ∧
        getValueByOffset file ((table.lookup key).getD 0) = some value := by
  obtain ⟨entries, hholds, htable⟩ := h
  have hget : file.get key = find key entries := by
    rw [File.get, hholds.scan_eq hsmall]
  rw [htable, hget]
  cases hfind : find key entries with
  | none =>
      left
      rw [File.Holds.lookup_offsetTable_eq_none hfind]
      exact ⟨rfl, rfl⟩
  | some value =>
      right
      obtain ⟨offset, hoffset, hne, hvalue⟩ :=
        hholds.getValueByOffset hsmall (mem_of_find_eq_some hfind)
      rw [hoffset]
      exact ⟨value, hne, rfl, hvalue⟩

/-- `LoadKeyOffset` loads a file's table. -/
theorem exists_loadKeyOffset {file : File} {entries : List (Bytes × Bytes)}
    (hholds : file.Holds entries) (hsmall : file.Small) :
    ∃ table, loadKeyOffset file = some table ∧ TableOf file table := by
  obtain ⟨table, hload, htable⟩ := hholds.loadKeyOffsetAt hsmall
  exact ⟨table, by rw [loadKeyOffset, hload]; rfl, entries, hholds, htable⟩

/-- Every cached table belongs to the files of its id. -/
def CachedFor (files : List File) (cache : LRUCache) : Prop :=
  ∀ node ∈ cache.nodes, ∀ file ∈ files, file.fileId = node.1 →
    TableOf file node.2

/-- One round of the file loop: the offset, and a cache with at most the file's
own table added. -/
theorem exists_offset {file : File} {entries : List (Bytes × Bytes)}
    (hholds : file.Holds entries) (hsmall : file.Small)
    {filesMap : AList fun _ : Int => File}
    (hmap : filesMap.lookup file.fileId = some file) (cache : LRUCache)
    (hcache : CachedFor [file] cache) (key : Bytes) :
    ∃ table cache', TableOf file table ∧
      DataBase.fileOffset filesMap key file cache =
        some ((table.lookup key).getD 0, cache') ∧
      ∀ node ∈ cache'.nodes, node ∈ cache.nodes ∨
        (node.1 = file.fileId ∧ TableOf file node.2) := by
  by_cases hexists : (cache.get file.fileId key).1.2 = true
  · obtain ⟨table, hnode, hoffset⟩ := LRUCache.get_of_exists hexists
    refine ⟨table, (cache.get file.fileId key).2,
      hcache _ hnode file (List.mem_singleton.mpr rfl) rfl, ?_, ?_⟩
    · rw [DataBase.fileOffset]
      simp only [hexists, if_true, hoffset]
    · exact fun node hnode => Or.inl (LRUCache.mem_nodes_get hnode)
  · obtain ⟨table, hload, htable⟩ := exists_loadKeyOffset hholds hsmall
    refine ⟨table, (cache.get file.fileId key).2.set file.fileId table, htable,
      ?_, ?_⟩
    · rw [DataBase.fileOffset]
      simp only [hexists, if_false, hmap, Option.bind_eq_bind,
        Option.bind_some, hload, Bool.false_eq_true]
    · intro node hnode
      rcases LRUCache.mem_nodes_set hnode with rfl | hnode
      · exact Or.inr ⟨rfl, htable⟩
      · exact Or.inl (LRUCache.mem_nodes_get hnode)

/-- The file loop of `Get` finds the first file that has the key. -/
theorem searchFiles_eq {filesMap : AList fun _ : Int => File} (key : Bytes)
    (files : List File)
    (hmap : ∀ file ∈ files, filesMap.lookup file.fileId = some file)
    (hholds : ∀ file ∈ files, ∃ entries, file.Holds entries)
    (hsmall : ∀ file ∈ files, file.Small) (cache : LRUCache)
    (hcache : CachedFor files cache) :
    ∃ cache', DataBase.searchFiles filesMap key files cache =
        some (files.findSome? fun file => file.get key, cache') ∧
      ∀ node ∈ cache'.nodes, node ∈ cache.nodes ∨
        ∃ file ∈ files, node.1 = file.fileId ∧ TableOf file node.2 := by
  induction files generalizing cache with
  | nil => exact ⟨cache, rfl, fun node hnode => Or.inl hnode⟩
  | cons file files ih =>
      have hfile : file ∈ file :: files := List.mem_cons_self
      obtain ⟨entries, hentries⟩ := hholds file hfile
      obtain ⟨table, cache', htable, hoffset, hnodes⟩ := exists_offset hentries
        (hsmall file hfile) (hmap file hfile) cache
        (fun node hnode other hother => hcache node hnode other
          (List.mem_cons.mpr (Or.inl (List.mem_singleton.mp hother)))) key
      have hsearch : DataBase.searchFiles filesMap key (file :: files) cache =
          if (table.lookup key).getD 0 = 0 then
            DataBase.searchFiles filesMap key files cache'
          else (getValueByOffset file ((table.lookup key).getD 0)).bind
            fun value => some (some value, cache') := by
        rw [DataBase.searchFiles]
        simp only [hoffset, Option.bind_eq_bind, Option.bind_some,
          hmap file hfile]
      rw [hsearch]
      rcases htable.cases (hsmall file hfile) key with ⟨hzero, hnone⟩ |
        ⟨value, hne, hsome, hvalue⟩
      · obtain ⟨cache'', hrest, hnodes'⟩ := ih
          (fun other hother => hmap other (List.mem_cons_of_mem _ hother))
          (fun other hother => hholds other (List.mem_cons_of_mem _ hother))
          (fun other hother => hsmall other (List.mem_cons_of_mem _ hother))
          cache' (by
            intro node hnode other hother hid
            have hother' := List.mem_cons_of_mem file hother
            rcases hnodes node hnode with hold | ⟨hnew, htable'⟩
            · exact hcache node hold other hother' hid
            · -- Both files are what the map has under this id.
              have hsame := hmap other hother'
              rw [hid, hnew, hmap file hfile, Option.some.injEq] at hsame
              exact hsame ▸ htable')
        refine ⟨cache'', ?_, fun node hnode => ?_⟩
        · rw [if_pos hzero, hrest, List.findSome?_cons, hnone]
        · rcases hnodes' node hnode with hnode | ⟨other, hother, hid⟩
          · exact (hnodes node hnode).imp_right fun hnew => ⟨file, hfile, hnew⟩
          · exact Or.inr ⟨other, List.mem_cons_of_mem _ hother, hid⟩
      · refine ⟨cache', ?_, fun node hnode => ?_⟩
        · rw [if_neg hne, hvalue, List.findSome?_cons, hsome]
          rfl
        · exact (hnodes node hnode).imp_right fun hnew => ⟨file, hfile, hnew⟩

/-- The file part of `Get` returns what the file search finds. -/
theorem DataBase.getFiles_eq_lookup {db : DataBase}
    (hlevels : LevelInv db.store.engine)
    (hsmall : ∀ file ∈ db.store.engine.files, file.Small)
    (hcache : CachedFor db.store.engine.files db.cache) (key : Bytes) :
    ∃ cache, db.getFiles key =
        some (db.store.engine.lookup key, { db with cache }) ∧
      ∀ node ∈ cache.nodes, node ∈ db.cache.nodes ∨
        ∃ file ∈ db.store.engine.files, node.1 = file.fileId ∧
          TableOf file node.2 := by
  have hmem : ∀ file ∈ (db.store.engine.getContainsFiles key).flatten,
      file ∈ db.store.engine.files := fun file hfile =>
    (hlevels.searchable.mem_getContainsFiles.mp hfile).1
  obtain ⟨cache, hsearch, hnodes⟩ := searchFiles_eq key
    (db.store.engine.getContainsFiles key).flatten
    (fun file hfile => (hlevels.map _ _).mpr ⟨hmem file hfile, rfl⟩)
    (fun file hfile => by
      obtain ⟨entries, hholds, _⟩ := (hlevels.stored file
        (hmem file hfile)).holds
      exact ⟨entries, hholds⟩)
    (fun file hfile => hsmall file (hmem file hfile)) db.cache
    fun node hnode file hfile => hcache node hnode file (hmem file hfile)
  refine ⟨cache, ?_, fun node hnode => ?_⟩
  · simp only [DataBase.getFiles, hsearch, Option.bind_eq_bind,
      Option.bind_some, StorageEngine.lookup]
  · rcases hnodes node hnode with hnode | ⟨file, hfile, hid⟩
    · exact Or.inl hnode
    · exact Or.inr ⟨file, hmem file hfile, hid⟩

end SimpleKV
