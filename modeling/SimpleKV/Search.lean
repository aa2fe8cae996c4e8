/-
The file search of `Get` without its cache: `GetContainsFiles` prunes by bounds
and lists levels upwards and ids downwards, so the search finds the newest
version of a key.
-/
import SimpleKV.Levels

namespace SimpleKV

namespace StorageEngine

/-- The file search of `DataBase::Get`. -/
def lookup (key : Bytes) (engine : StorageEngine) : Option Bytes :=
  (engine.getContainsFiles key).flatten.findSome? fun file => file.get key

end StorageEngine

/-- What the file search relies on. -/
structure Searchable (engine : StorageEngine) : Prop where
  levelId : ∀ i, ∀ file ∈ engine.level i, file.levelId = i
  sorted : ∀ i, SortedByLower (engine.level i)
  nodup : ∀ i, (engine.level i).Nodup
  ids : ∀ file ∈ engine.files, ∀ other ∈ engine.files,
    file.fileId = other.fileId → file = other
  bounds : ∀ file ∈ engine.files, ∀ key, file.get key ≠ none →
    file.lowerBound ≤ key ∧ key ≤ file.upperBound

theorem LevelInv.searchable {engine : StorageEngine} (h : LevelInv engine) :
    Searchable engine :=
  ⟨h.levelId, h.sorted, h.nodup, h.ids,
    fun file hfile _ => (h.stored file hfile).bounds_of_get_ne_none⟩

/-- The walk along a sorted level misses no file that starts at or below the
key. -/
theorem mem_takeWhile_lowerBound {files : List File}
    (hsorted : SortedByLower files) {key : Bytes} {file : File} :
    file ∈ files.takeWhile (fun file => decide (file.lowerBound ≤ key)) ↔
      file ∈ files ∧ file.lowerBound ≤ key := by
  induction files with
  | nil => simp
  | cons head files ih =>
      obtain ⟨hhead, hrest⟩ := List.pairwise_cons.mp hsorted
      by_cases hle : head.lowerBound ≤ key
      · rw [List.takeWhile_cons_of_pos (by simpa using hle), List.mem_cons,
          List.mem_cons, ih hrest]
        constructor
        · rintro (rfl | ⟨hfile, hlower⟩)
          · exact ⟨Or.inl rfl, hle⟩
          · exact ⟨Or.inr hfile, hlower⟩
        · rintro ⟨rfl | hfile, hlower⟩
          · exact Or.inl rfl
          · exact Or.inr ⟨hfile, hlower⟩
      · rw [List.takeWhile_cons_of_neg (by simpa using hle)]
        constructor
        · exact fun hfile => absurd hfile (by simp)
        · rintro ⟨hfile, hlower⟩
          rcases List.mem_cons.mp hfile with rfl | hfile
          · exact absurd hlower hle
          · exact absurd ((hhead file hfile).trans hlower) hle

theorem mem_levelContainsFiles {files : List File}
    (hsorted : SortedByLower files) {key : Bytes} {file : File} :
    file ∈ StorageEngine.levelContainsFiles key files ↔
      file ∈ files ∧ file.lowerBound ≤ key ∧ key ≤ file.upperBound := by
  rw [StorageEngine.levelContainsFiles, List.mem_insertionSort,
    List.mem_filter, mem_takeWhile_lowerBound hsorted, decide_eq_true_eq,
    and_assoc]

instance : Std.Total fun a b : File => b.fileId ≤ a.fileId :=
  ⟨fun a b => le_total b.fileId a.fileId⟩

instance : IsTrans File fun a b => b.fileId ≤ a.fileId :=
  ⟨fun _ _ _ hab hbc => le_trans hbc hab⟩

namespace Searchable

variable {engine : StorageEngine}

/-- Files of one level, sorted by id, go from new to old. -/
theorem pairwise_insertionSort (h : Searchable engine) {i : Nat}
    {files : List File} (hsub : files.Sublist (engine.level i)) :
    (files.insertionSort fun a b => b.fileId ≤ a.fileId).Pairwise
      fileLayout.Before := by
  have hnodup : (files.insertionSort fun a b => b.fileId ≤ a.fileId).Nodup :=
    (List.perm_insertionSort _ _).nodup_iff.mpr ((h.nodup i).sublist hsub)
  have hsorted := List.pairwise_insertionSort
    (fun a b : File => b.fileId ≤ a.fileId) files
  refine (hsorted.and hnodup).imp_of_mem fun ha hb hab => Or.inr ?_
  have ha := hsub.mem ((List.mem_insertionSort _).mp ha)
  have hb := hsub.mem ((List.mem_insertionSort _).mp hb)
  refine ⟨(h.levelId i _ ha).trans (h.levelId i _ hb).symm,
    lt_of_le_of_ne hab.1 fun hid => hab.2 ?_⟩
  exact h.ids _ (StorageEngine.mem_files.mpr ⟨i, ha⟩) _
    (StorageEngine.mem_files.mpr ⟨i, hb⟩) hid.symm

/-- One level is searched from new to old. -/
theorem pairwise_level (h : Searchable engine) (key : Bytes) (i : Nat) :
    (StorageEngine.levelContainsFiles key (engine.level i)).Pairwise
      fileLayout.Before :=
  h.pairwise_insertionSort
    ((List.filter_sublist).trans (List.takeWhile_sublist _))

theorem before_of_level_lt (h : Searchable engine) {i j : Nat} (hij : i < j)
    {file other : File} (hfile : file ∈ engine.level i)
    (hother : other ∈ engine.level j) : fileLayout.Before file other := by
  refine Or.inl ?_
  change file.levelId < other.levelId
  rw [h.levelId i file hfile, h.levelId j other hother]
  exact hij

theorem level_eq_getElem (engine : StorageEngine) {i : Nat}
    (hi : i < engine.levelFiles.length) :
    engine.level i = engine.levelFiles[i] := by
  simp [StorageEngine.level, LevelFiles.level, hi]

theorem pairwise_getContainsFiles (h : Searchable engine) (key : Bytes) :
    (engine.getContainsFiles key).flatten.Pairwise fileLayout.Before := by
  rw [List.pairwise_flatten]
  constructor
  · intro files hfiles
    obtain ⟨level, hlevel, rfl⟩ := List.mem_map.mp hfiles
    obtain ⟨i, hi, rfl⟩ := List.getElem_of_mem hlevel
    rw [← level_eq_getElem engine hi]
    exact h.pairwise_level key i
  · rw [StorageEngine.getContainsFiles, List.pairwise_map,
      List.pairwise_iff_getElem]
    intro i j hi hj hij file hfile other hother
    rw [← level_eq_getElem engine hi] at hfile
    rw [← level_eq_getElem engine hj] at hother
    exact h.before_of_level_lt hij
      ((mem_levelContainsFiles (h.sorted i)).mp hfile).1
      ((mem_levelContainsFiles (h.sorted j)).mp hother).1

theorem mem_getContainsFiles (h : Searchable engine) {key : Bytes}
    {file : File} :
    file ∈ (engine.getContainsFiles key).flatten ↔
      file ∈ engine.files ∧ file.lowerBound ≤ key ∧
        key ≤ file.upperBound := by
  rw [List.mem_flatten, StorageEngine.mem_files]
  constructor
  · rintro ⟨files, hfiles, hfile⟩
    obtain ⟨level, hlevel, rfl⟩ := List.mem_map.mp hfiles
    obtain ⟨i, hi, rfl⟩ := List.getElem_of_mem hlevel
    rw [← level_eq_getElem engine hi, mem_levelContainsFiles (h.sorted i)]
      at hfile
    exact ⟨⟨i, hfile.1⟩, hfile.2⟩
  · rintro ⟨⟨i, hfile⟩, hbounds⟩
    have hi : i < engine.levelFiles.length := by
      by_contra hi
      simp [StorageEngine.level, LevelFiles.level, hi] at hfile
    refine ⟨_, List.mem_map_of_mem (List.getElem_mem hi), ?_⟩
    rw [← level_eq_getElem engine hi, mem_levelContainsFiles (h.sorted i)]
    exact ⟨hfile, hbounds⟩

/-- Pruning loses no version of the key. -/
theorem pruned (h : Searchable engine) (key : Bytes) (file : File)
    (hget : file.get key ≠ none) :
    file ∈ {t | t ∈ (engine.getContainsFiles key).flatten} ↔
      file ∈ {t | t ∈ engine.files} := by
  change file ∈ (engine.getContainsFiles key).flatten ↔ file ∈ engine.files
  rw [h.mem_getContainsFiles]
  exact ⟨fun hfile => hfile.1,
    fun hfile => ⟨hfile, h.bounds file hfile key hget⟩⟩

theorem lookup_eq_some_iff (h : Searchable engine) {key value : Bytes} :
    engine.lookup key = some value ↔
      fileLayout.Reads {file | file ∈ engine.files} key value :=
  (Recency.Layout.findSome?_eq_some_iff
    (h.pairwise_getContainsFiles key)).trans
    (Recency.Layout.reads_congr (h.pruned key))

theorem lookup_eq_none_iff (h : Searchable engine) {key : Bytes} :
    engine.lookup key = none ↔
      ∀ file ∈ engine.files, file.get key = none := by
  rw [StorageEngine.lookup, List.findSome?_eq_none_iff]
  constructor
  · intro hnone file hfile
    by_contra hget
    exact hget (hnone file ((h.pruned key file hget).mpr hfile))
  · intro hnone file hfile
    exact hnone file (h.mem_getContainsFiles.mp hfile).1

end Searchable

end SimpleKV
