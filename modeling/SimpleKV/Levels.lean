/-
The level invariant of a `StorageEngine`, and what installing and erasing files
does to it.
-/
import SimpleKV.Contents

namespace SimpleKV

/-- Key ranges that do not meet. -/
def Apart (file other : File) : Prop :=
  file.upperBound < other.lowerBound ∨ other.upperBound < file.lowerBound

theorem Apart.symm {file other : File} (h : Apart file other) :
    Apart other file :=
  Or.symm h

instance : Std.Symm Apart :=
  ⟨fun _ _ => Apart.symm⟩

/-- A key lies in one of two ranges that do not meet. -/
theorem Apart.not_both {file other : File} {top top' : Int} (h : Apart file other)
    (hfile : file.Stored top) (hother : other.Stored top') {key : Bytes}
    (hget : file.get key ≠ none) : other.get key = none := by
  by_contra hget'
  have hbounds := hfile.bounds_of_get_ne_none hget
  have hbounds' := hother.bounds_of_get_ne_none hget'
  rcases h with h | h
  · exact absurd (h.trans_le hbounds'.1) (not_lt.mpr hbounds.2)
  · exact absurd (h.trans_le hbounds.1) (not_lt.mpr hbounds'.2)

/-- What holds of the levels and of the map from ids to files. -/
structure LevelInv (engine : StorageEngine) : Prop where
  levelId : ∀ i, ∀ file ∈ engine.level i, file.levelId = i
  sorted : ∀ i, SortedByLower (engine.level i)
  nodup : ∀ i, (engine.level i).Nodup
  apart : ∀ i, 0 < i → ∀ file ∈ engine.level i, ∀ other ∈ engine.level i,
    file ≠ other → Apart file other
  stored : ∀ file ∈ engine.files, file.Stored engine.fileId
  ids : ∀ file ∈ engine.files, ∀ other ∈ engine.files,
    file.fileId = other.fileId → file = other
  map : ∀ id file, engine.filesMap.lookup id = some file ↔
    file ∈ engine.files ∧ file.fileId = id

theorem SortedByLower.sublist {files others : List File}
    (h : SortedByLower files) (hsub : others.Sublist files) :
    SortedByLower others :=
  List.Pairwise.sublist hsub h

/-- Erasing by id removes exactly the file with that id. -/
theorem mem_eraseP_fileId {files : List File} (hnodup : files.Nodup)
    {file : File}
    (hids : ∀ other ∈ files, other.fileId = file.fileId → other = file)
    {other : File} :
    other ∈ files.eraseP (fun candidate => candidate.fileId == file.fileId) ↔
      other ∈ files ∧ other ≠ file := by
  induction files with
  | nil => simp
  | cons head files ih =>
      have hrest := ih (List.nodup_cons.mp hnodup).2
        fun candidate hcandidate => hids candidate
          (List.mem_cons_of_mem _ hcandidate)
      by_cases hhead : head.fileId = file.fileId
      · have heq := hids head List.mem_cons_self hhead
        rw [List.eraseP_cons_of_pos (by simpa using hhead), List.mem_cons, heq]
        have hfresh : file ∉ files := heq ▸ (List.nodup_cons.mp hnodup).1
        constructor
        · exact fun hother => ⟨Or.inr hother, fun h => hfresh (h ▸ hother)⟩
        · rintro ⟨rfl | hother, hne⟩
          · exact absurd rfl hne
          · exact hother
      · have hne : head ≠ file := fun h => hhead (by rw [h])
        rw [List.eraseP_cons_of_neg (by simpa using hhead), List.mem_cons,
          hrest, List.mem_cons]
        constructor
        · rintro (rfl | ⟨hother, hne'⟩)
          · exact ⟨Or.inl rfl, hne⟩
          · exact ⟨Or.inr hother, hne'⟩
        · rintro ⟨rfl | hother, hne'⟩
          · exact Or.inl rfl
          · exact Or.inr ⟨hother, hne'⟩

namespace LevelInv

variable {engine : StorageEngine} {file other : File}

theorem mem_level (h : LevelInv engine) :
    file ∈ engine.files ↔ file ∈ engine.level file.levelId := by
  rw [StorageEngine.mem_files]
  constructor
  · rintro ⟨i, hfile⟩
    rwa [h.levelId i file hfile]
  · exact fun hfile => ⟨_, hfile⟩

theorem mem_level_iff (h : LevelInv engine) {i : Nat} :
    file ∈ engine.level i ↔ file ∈ engine.files ∧ file.levelId = i := by
  constructor
  · exact fun hfile => ⟨StorageEngine.mem_files.mpr ⟨i, hfile⟩,
      h.levelId i file hfile⟩
  · rintro ⟨hfile, rfl⟩
    exact h.mem_level.mp hfile

/-- Only the levels and the map matter, and the counter may grow. -/
theorem congr (h : LevelInv engine) {engine' : StorageEngine}
    (hlevels : engine'.levelFiles = engine.levelFiles)
    (hmap : engine'.filesMap = engine.filesMap)
    (hid : engine.fileId ≤ engine'.fileId) : LevelInv engine' := by
  have hlevel : ∀ i, engine'.level i = engine.level i := fun i => by
    rw [StorageEngine.level, hlevels, StorageEngine.level]
  have hfiles : engine'.files = engine.files := by
    rw [StorageEngine.files, hlevels, StorageEngine.files]
  refine ⟨fun i => ?_, fun i => ?_, fun i => ?_, fun i hi => ?_, ?_, ?_, ?_⟩
  · rw [hlevel]
    exact h.levelId i
  · rw [hlevel]
    exact h.sorted i
  · rw [hlevel]
    exact h.nodup i
  · rw [hlevel]
    exact h.apart i hi
  · rw [hfiles]
    exact fun file hfile => (h.stored file hfile).mono hid
  · rw [hfiles]
    exact h.ids
  · rw [hfiles, hmap]
    exact h.map

/-- The empty engine. -/
theorem new (limit : Nat) : LevelInv (.new limit) := by
  have hlevel : ∀ i, (StorageEngine.new limit).level i = [] := fun i => by
    simp [StorageEngine.new, StorageEngine.level, LevelFiles.level]
  refine ⟨fun i => ?_, fun i => ?_, fun i => ?_, fun i _ => ?_, ?_, ?_, ?_⟩
  · simp [hlevel]
  · rw [hlevel]
    exact List.Pairwise.nil
  · simp [hlevel]
  · simp [hlevel]
  · simp [StorageEngine.files, StorageEngine.new]
  · simp [StorageEngine.files, StorageEngine.new]
  · simp [StorageEngine.files, StorageEngine.new]

theorem mem_files_installFile (_ : LevelInv engine) :
    other ∈ (engine.installFile file).files ↔
      other = file ∨ other ∈ engine.files := by
  simp only [StorageEngine.mem_files, StorageEngine.mem_level_installFile]
  constructor
  · rintro ⟨i, ⟨rfl, _⟩ | hother⟩
    · exact Or.inl rfl
    · exact Or.inr ⟨i, hother⟩
  · rintro (rfl | ⟨i, hother⟩)
    · exact ⟨_, Or.inl ⟨rfl, rfl⟩⟩
    · exact ⟨i, Or.inr hother⟩

/-- Installing a new file that meets no file of its level. -/
theorem installFile (h : LevelInv engine) (hstored : file.Stored engine.fileId)
    (hfresh : ∀ other ∈ engine.files, other.fileId ≠ file.fileId)
    (hapart : 0 < file.levelId →
      ∀ other ∈ engine.level file.levelId, Apart file other) :
    LevelInv (engine.installFile file) where
  levelId := by
    intro i other hother
    rcases StorageEngine.mem_level_installFile.mp hother with ⟨rfl, rfl⟩ | hother
    · rfl
    · exact h.levelId i other hother
  sorted := by
    intro i
    rw [StorageEngine.level_installFile]
    split_ifs
    · exact (h.sorted i).insertFile file
    · exact h.sorted i
  nodup := by
    intro i
    rw [StorageEngine.level_installFile]
    split_ifs
    · refine nodup_insertFile (h.nodup i) fun hfile => ?_
      exact hfresh file (StorageEngine.mem_files.mpr ⟨i, hfile⟩) rfl
    · exact h.nodup i
  apart := by
    intro i hi a ha b hb hne
    rcases StorageEngine.mem_level_installFile.mp ha with
      ⟨ha', rfl⟩ | ha' <;>
      rcases StorageEngine.mem_level_installFile.mp hb with ⟨hb', hi'⟩ | hb'
    · exact absurd (ha'.trans hb'.symm) hne
    · exact ha' ▸ hapart hi b hb'
    · rw [hi'] at hi ha'
      exact hb' ▸ (hapart hi a ha').symm
    · exact h.apart i hi a ha' b hb' hne
  stored := by
    intro other hother
    rcases h.mem_files_installFile.mp hother with rfl | hother
    · exact hstored
    · exact h.stored other hother
  ids := by
    intro a ha b hb hid
    rcases h.mem_files_installFile.mp ha with ha' | ha' <;>
      rcases h.mem_files_installFile.mp hb with hb' | hb'
    · exact ha'.trans hb'.symm
    · exact absurd (ha' ▸ hid.symm) (hfresh b hb')
    · exact absurd (hb' ▸ hid) (hfresh a ha')
    · exact h.ids a ha' b hb' hid
  map := by
    intro id other
    rw [h.mem_files_installFile]
    by_cases hid : id = file.fileId
    · subst hid
      rw [StorageEngine.installFile, AList.lookup_insert, Option.some.injEq]
      constructor
      · rintro rfl
        exact ⟨Or.inl rfl, rfl⟩
      · rintro ⟨rfl | hother, hid⟩
        · rfl
        · exact absurd hid (hfresh other hother)
    · rw [StorageEngine.installFile, AList.lookup_insert_ne hid, h.map]
      constructor
      · exact fun hother => ⟨Or.inr hother.1, hother.2⟩
      · rintro ⟨rfl | hother, hother'⟩
        · exact absurd hother'.symm hid
        · exact ⟨hother, hother'⟩

theorem mem_level_eraseFile (h : LevelInv engine) (hfile : file ∈ engine.files)
    {i : Nat} :
    other ∈ (engine.eraseFile file).level i ↔
      other ∈ engine.level i ∧ other ≠ file := by
  rw [StorageEngine.level_eraseFile]
  split_ifs with hi
  · refine mem_eraseP_fileId (h.nodup i) fun candidate hcandidate hid => ?_
    exact h.ids candidate (StorageEngine.mem_files.mpr ⟨i, hcandidate⟩) file
      hfile hid
  · constructor
    · refine fun hother => ⟨hother, ?_⟩
      rintro rfl
      exact hi (h.levelId i other hother).symm
    · exact fun hother => hother.1

theorem mem_files_eraseFile (h : LevelInv engine)
    (hfile : file ∈ engine.files) :
    other ∈ (engine.eraseFile file).files ↔
      other ∈ engine.files ∧ other ≠ file := by
  simp only [StorageEngine.mem_files, h.mem_level_eraseFile hfile]
  constructor
  · rintro ⟨i, hother, hne⟩
    exact ⟨⟨i, hother⟩, hne⟩
  · rintro ⟨⟨i, hother⟩, hne⟩
    exact ⟨i, hother, hne⟩

theorem eraseFile (h : LevelInv engine) (hfile : file ∈ engine.files) :
    LevelInv (engine.eraseFile file) := by
  have hsub : ∀ i,
      ((engine.eraseFile file).level i).Sublist (engine.level i) := by
    intro i
    rw [StorageEngine.level_eraseFile]
    split_ifs
    · exact List.eraseP_sublist
    · exact List.Sublist.refl _
  refine ⟨fun i other hother => h.levelId i other ((hsub i).mem hother),
    fun i => (h.sorted i).sublist (hsub i),
    fun i => (h.nodup i).sublist (hsub i),
    fun i hi a ha b hb => h.apart i hi a ((hsub i).mem ha) b ((hsub i).mem hb),
    fun other hother => h.stored other ((h.mem_files_eraseFile hfile).mp
      hother).1, fun a ha b hb => h.ids a ((h.mem_files_eraseFile hfile).mp
      ha).1 b ((h.mem_files_eraseFile hfile).mp hb).1, fun id other => ?_⟩
  rw [h.mem_files_eraseFile hfile]
  by_cases hid : id = file.fileId
  · subst hid
    rw [StorageEngine.eraseFile, AList.lookup_erase]
    constructor
    · exact fun h => absurd h (by simp)
    · rintro ⟨⟨hother, hne⟩, hid⟩
      exact absurd (h.ids other hother file hfile hid) hne
  · rw [StorageEngine.eraseFile, AList.lookup_erase_ne hid, h.map]
    constructor
    · rintro ⟨hother, rfl⟩
      exact ⟨⟨hother, fun heq => hid (by rw [heq])⟩, rfl⟩
    · exact fun hother => ⟨hother.1.1, hother.2⟩

/-- The erasing loop of `UpdateMapAfterCompaction`. -/
theorem eraseFiles (h : LevelInv engine) {files : List File}
    (hnodup : files.Nodup) (hfiles : ∀ file ∈ files, file ∈ engine.files) :
    LevelInv (files.foldl StorageEngine.eraseFile engine) ∧
      ∀ i other, other ∈ (files.foldl StorageEngine.eraseFile engine).level i ↔
        other ∈ engine.level i ∧ other ∉ files := by
  induction files generalizing engine with
  | nil => exact ⟨h, fun i other => by simp⟩
  | cons file files ih =>
      have hfile := hfiles file List.mem_cons_self
      obtain ⟨hfresh, hnodup⟩ := List.nodup_cons.mp hnodup
      obtain ⟨hinv, hmem⟩ := ih (h.eraseFile hfile) hnodup (by
        intro other hother
        refine (h.mem_files_eraseFile hfile).mpr
          ⟨hfiles other (List.mem_cons_of_mem _ hother), ?_⟩
        rintro rfl
        exact hfresh hother)
      refine ⟨hinv, fun i other => ?_⟩
      rw [List.foldl_cons, hmem, h.mem_level_eraseFile hfile, List.mem_cons,
        not_or, and_assoc]

/-- The inserting loop of `UpdateMapAfterCompaction`. -/
theorem installFiles (h : LevelInv engine) (files : List File)
    (hstored : ∀ file ∈ files, file.Stored engine.fileId)
    (hids : files.Pairwise fun a b => a.fileId ≠ b.fileId)
    (hfresh : ∀ file ∈ files, ∀ other ∈ engine.files,
      other.fileId ≠ file.fileId)
    (hlevel : ∀ file ∈ files, 0 < file.levelId)
    (hpairwise : files.Pairwise Apart)
    (hapart : ∀ file ∈ files, ∀ other ∈ engine.level file.levelId,
      Apart file other) :
    LevelInv (files.foldl StorageEngine.installFile engine) ∧
      ∀ i other, other ∈ (files.foldl StorageEngine.installFile engine).level i ↔
        (other ∈ files ∧ other.levelId = i) ∨ other ∈ engine.level i := by
  induction files generalizing engine with
  | nil => exact ⟨h, fun i other => by simp⟩
  | cons file files ih =>
      rw [List.pairwise_cons] at hids hpairwise
      have hinstalled := h.installFile (hstored file List.mem_cons_self)
        (hfresh file List.mem_cons_self)
        fun _ => hapart file List.mem_cons_self
      obtain ⟨hinv, hmem⟩ := ih hinstalled
        (fun other hother => hstored other (List.mem_cons_of_mem _ hother))
        hids.2 (by
          intro other hother live hlive
          rcases h.mem_files_installFile.mp hlive with rfl | hlive
          · exact hids.1 other hother
          · exact hfresh other (List.mem_cons_of_mem _ hother) live hlive)
        (fun other hother => hlevel other (List.mem_cons_of_mem _ hother))
        hpairwise.2 (by
          intro other hother live hlive
          rcases StorageEngine.mem_level_installFile.mp hlive with
            ⟨rfl, _⟩ | hlive
          · exact (hpairwise.1 other hother).symm
          · exact hapart other (List.mem_cons_of_mem _ hother) live hlive)
      refine ⟨hinv, fun i other => ?_⟩
      rw [List.foldl_cons, hmem, StorageEngine.mem_level_installFile,
        List.mem_cons]
      constructor
      · rintro (⟨hother, hi⟩ | ⟨rfl, hi⟩ | hother)
        · exact Or.inl ⟨Or.inr hother, hi⟩
        · exact Or.inl ⟨Or.inl rfl, hi.symm⟩
        · exact Or.inr hother
      · rintro (⟨rfl | hother, hi⟩ | hother)
        · exact Or.inr (Or.inl ⟨rfl, hi.symm⟩)
        · exact Or.inl ⟨hother, hi⟩
        · exact Or.inr (Or.inr hother)

end LevelInv

end SimpleKV
