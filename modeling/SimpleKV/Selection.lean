/-
What the first half of `Compact` chooses: files of two levels whose ranges hang
together, so that no other file of these levels reaches between them.
-/
import SimpleKV.Compaction
import SimpleKV.Levels

namespace SimpleKV

/-- `files` is a choice of `Compact(level)` for the range from `lo` to `hi`.  It
stays one when newer files arrive in level 0. -/
structure Selection (engine : StorageEngine) (level : Nat) (files : List File)
    (lo hi : Bytes) : Prop where
  live : ∀ file ∈ files, file ∈ engine.files
  nodup : files.Nodup
  order : ∃ upper next, files = upper ++ next ∧ upper ≠ [] ∧
    (∀ file ∈ upper, file.levelId = level) ∧
    (∀ file ∈ next, file.levelId = level + 1) ∧
    (0 < level → upper.length = 1)
  within : ∀ file ∈ files, file.levelId = level →
    lo ≤ file.lowerBound ∧ file.upperBound ≤ hi
  meets : ∀ file ∈ files, file.levelId = level + 1 →
    file.lowerBound ≤ hi ∧ lo ≤ file.upperBound
  next_kept : ∀ other ∈ engine.level (level + 1), other ∉ files →
    other.upperBound < lo ∨ hi < other.lowerBound
  kept : ∀ other ∈ engine.level level, other ∉ files →
    ∀ file ∈ files, file.levelId = level →
      Apart file other ∨ file.fileId < other.fileId

/-- The level-0 scan takes a prefix of the candidates, and what it leaves starts
above the widened upper bound. -/
theorem findOverlapFilesLevel0_spec (candidates : List File)
    (hsorted : SortedByLower candidates) (files : List File)
    (upperbound : Bytes) :
    ∃ taken left, candidates = taken ++ left ∧
      (findOverlapFilesLevel0 candidates files upperbound).1 =
        files ++ taken ∧
      upperbound ≤ (findOverlapFilesLevel0 candidates files upperbound).2 ∧
      (∀ file ∈ taken, file.upperBound ≤
        (findOverlapFilesLevel0 candidates files upperbound).2) ∧
      ∀ file ∈ left, (findOverlapFilesLevel0 candidates files upperbound).2 <
        file.lowerBound := by
  induction candidates generalizing files upperbound with
  | nil => exact ⟨[], [], rfl, by simp [findOverlapFilesLevel0],
      le_refl _, by simp, by simp⟩
  | cons head candidates ih =>
      have hrest := List.pairwise_cons.mp hsorted
      by_cases hmeets : head.lowerBound ≤ upperbound
      · obtain ⟨taken, left, hsplit, hfiles, hle, htaken, hleft⟩ := ih hrest.2
          (files ++ [head]) (if upperbound < head.upperBound then
            head.upperBound else upperbound)
        have hupper : upperbound ≤ (if upperbound < head.upperBound then
            head.upperBound else upperbound) ∧
            head.upperBound ≤ (if upperbound < head.upperBound then
              head.upperBound else upperbound) := by
          split_ifs with hlt
          · exact ⟨hlt.le, le_refl _⟩
          · exact ⟨le_refl _, not_lt.mp hlt⟩
        refine ⟨head :: taken, left, by rw [hsplit, List.cons_append], ?_, ?_,
          ?_, ?_⟩ <;> simp only [findOverlapFilesLevel0, if_pos hmeets]
        · rw [hfiles, List.append_assoc]
          rfl
        · exact hupper.1.trans hle
        · intro file hfile
          rcases List.mem_cons.mp hfile with rfl | hfile
          · exact hupper.2.trans hle
          · exact htaken file hfile
        · exact hleft
      · refine ⟨[], head :: candidates, rfl, ?_, ?_, by simp, ?_⟩ <;>
          simp only [findOverlapFilesLevel0, if_neg hmeets]
        · rw [List.append_nil]
        · exact le_refl _
        · intro file hfile
          rcases List.mem_cons.mp hfile with rfl | hfile
          · exact not_le.mp hmeets
          · exact (not_le.mp hmeets).trans_le (hrest.1 file hfile)

/-- The files of the upper level that `Compact` starts from, with the upper
bound it goes on with. -/
theorem exists_upper_of_compactFiles {engine : StorageEngine} {level : Nat}
    {files : List File} (h : LevelInv engine)
    (hfiles : compactFiles engine level = some files) :
    ∃ first taken left hi, engine.level level = first :: (taken ++ left) ∧
      files = findOverlapFilesBasedOnBound (engine.level (level + 1))
        (first :: taken) first.lowerBound hi ∧
      (∀ file ∈ first :: taken, file.upperBound ≤ hi) ∧
      (level = 0 → ∀ file ∈ left, hi < file.lowerBound) ∧
      (0 < level → taken = []) := by
  unfold compactFiles at hfiles
  by_cases hlimit : (engine.level level).length ≤
      engine.level0FilesNumberLimit * 10 ^ level
  · rw [if_pos hlimit] at hfiles
    exact absurd hfiles (by simp)
  rw [if_neg hlimit] at hfiles
  cases hlevel : engine.level level with
  | nil => simp [hlevel] at hfiles
  | cons first candidates =>
      simp only [hlevel, Option.some.injEq] at hfiles
      by_cases hzero : level = 0
      · have hsorted := h.sorted level
        rw [hlevel, SortedByLower, List.pairwise_cons] at hsorted
        obtain ⟨taken, left, hsplit, htakes, hle, htaken, hleft⟩ :=
          findOverlapFilesLevel0_spec candidates hsorted.2 [first]
            first.upperBound
        rw [if_pos hzero] at hfiles
        refine ⟨first, taken, left, _, by rw [hsplit], ?_, ?_,
          fun _ => hleft, fun hpos => absurd hzero (by omega)⟩
        · rw [← hfiles, htakes]
          rfl
        · intro file hfile
          rcases List.mem_cons.mp hfile with rfl | hfile
          · exact hle
          · exact htaken file hfile
      · rw [if_neg hzero] at hfiles
        refine ⟨first, [], candidates, first.upperBound, rfl, hfiles.symm, ?_,
          fun heq => absurd heq hzero, fun _ => rfl⟩
        intro file hfile
        rw [List.mem_singleton.mp hfile]

theorem exists_selection {engine : StorageEngine} {level : Nat}
    {files : List File} (h : LevelInv engine)
    (hfiles : compactFiles engine level = some files) :
    ∃ lo hi, Selection engine level files lo hi := by
  obtain ⟨first, taken, left, hi, hlevel, rfl, hupper, hleft, hsingle⟩ :=
    exists_upper_of_compactFiles h hfiles
  have hsub : ∀ file ∈ first :: taken, file ∈ engine.level level := by
    intro file hfile
    rw [hlevel]
    rcases List.mem_cons.mp hfile with rfl | hfile
    · exact List.mem_cons_self
    · exact List.mem_cons_of_mem _ (List.mem_append_left _ hfile)
  have hlevelId : ∀ file ∈ first :: taken, file.levelId = level :=
    fun file hfile => h.levelId level file (hsub file hfile)
  have hnext : ∀ file, file ∈ ((engine.level (level + 1)).filter fun file =>
      decide (file.lowerBound ≤ hi ∧ first.lowerBound ≤ file.upperBound)) ↔
        file ∈ engine.level (level + 1) ∧ file.lowerBound ≤ hi ∧
          first.lowerBound ≤ file.upperBound := by
    intro file
    rw [List.mem_filter, decide_eq_true_eq]
  have hnextId : ∀ file ∈ engine.level (level + 1),
      file.levelId = level + 1 := h.levelId (level + 1)
  have hsorted := h.sorted level
  rw [hlevel, SortedByLower, List.pairwise_cons] at hsorted
  have hnodup := h.nodup level
  rw [hlevel, ← List.cons_append, List.nodup_append] at hnodup
  refine ⟨first.lowerBound, hi, ?_, ?_, ⟨first :: taken, _, rfl, by simp,
    hlevelId, ?_, ?_⟩, ?_, ?_, ?_, ?_⟩
  · intro file hfile
    rcases List.mem_append.mp hfile with hfile | hfile
    · exact StorageEngine.mem_files.mpr ⟨level, hsub file hfile⟩
    · exact StorageEngine.mem_files.mpr ⟨level + 1, ((hnext file).mp hfile).1⟩
  · refine List.nodup_append.mpr ⟨hnodup.1,
      (h.nodup (level + 1)).filter _, fun a ha b hb => ?_⟩
    rintro rfl
    have hone := hlevelId a ha
    have htwo := hnextId a ((hnext a).mp hb).1
    omega
  · exact fun file hfile => hnextId file ((hnext file).mp hfile).1
  · exact fun hpos => by rw [hsingle hpos]; rfl
  · intro file hfile hid
    rcases List.mem_append.mp hfile with hfile | hfile
    · refine ⟨?_, hupper file hfile⟩
      rcases List.mem_cons.mp hfile with rfl | hfile
      · exact le_refl _
      · exact hsorted.1 file (List.mem_append_left _ hfile)
    · have := hnextId file ((hnext file).mp hfile).1
      omega
  · intro file hfile hid
    rcases List.mem_append.mp hfile with hfile | hfile
    · have := hlevelId file hfile
      omega
    · exact ((hnext file).mp hfile).2
  · intro other hother hnot
    by_contra hmeets
    rw [not_or, not_lt, not_lt] at hmeets
    exact hnot (List.mem_append_right _ ((hnext other).mpr
      ⟨hother, hmeets.2, hmeets.1⟩))
  · intro other hother hnot file hfile hid
    left
    have hfile' : file ∈ first :: taken := by
      rcases List.mem_append.mp hfile with hfile | hfile
      · exact hfile
      · have := hnextId file ((hnext file).mp hfile).1
        omega
    have hother' : other ∈ left := by
      rw [hlevel, ← List.cons_append] at hother
      rcases List.mem_append.mp hother with hother | hother
      · exact absurd (List.mem_append_left _ hother) hnot
      · exact hother
    rcases Nat.eq_zero_or_pos level with hzero | hpos
    · exact Or.inl ((hupper file hfile').trans_lt (hleft hzero other hother'))
    · refine h.apart level hpos file (hsub file hfile') other hother ?_
      exact hnodup.2.2 file hfile' other hother'

namespace Selection

variable {engine : StorageEngine} {level : Nat} {files : List File}
  {lo hi : Bytes} {file other : File}

theorem level_eq (h : Selection engine level files lo hi)
    (hfile : file ∈ files) :
    file.levelId = level ∨ file.levelId = level + 1 := by
  obtain ⟨upper, next, rfl, _, hupper, hnext, _⟩ := h.order
  rcases List.mem_append.mp hfile with hfile | hfile
  · exact Or.inl (hupper file hfile)
  · exact Or.inr (hnext file hfile)

theorem exists_level (h : Selection engine level files lo hi) :
    ∃ file ∈ files, file.levelId = level := by
  obtain ⟨upper, next, rfl, hne, hupper, _⟩ := h.order
  obtain ⟨first, rest, rfl⟩ := List.exists_cons_of_ne_nil hne
  exact ⟨first, by simp, hupper first List.mem_cons_self⟩

/-- A file of the next level that was not chosen lies below all chosen files or
above all of them. -/
theorem beside (h : Selection engine level files lo hi)
    (hinv : LevelInv engine) (hother : other ∈ engine.level (level + 1))
    (hnot : other ∉ files) :
    (∀ file ∈ files, other.upperBound < file.lowerBound) ∨
      ∀ file ∈ files, file.upperBound < other.lowerBound := by
  have hotherRange := (hinv.stored other
    (StorageEngine.mem_files.mpr ⟨_, hother⟩)).lower_le_upper
  have hapart : ∀ file ∈ files, file.levelId = level + 1 →
      Apart file other := by
    intro file hfile hid
    refine hinv.apart (level + 1) (Nat.succ_pos _) file
      (hinv.mem_level_iff.mpr ⟨h.live file hfile, hid⟩) other hother ?_
    rintro rfl
    exact hnot hfile
  rcases h.next_kept other hother hnot with hbelow | habove
  · left
    intro file hfile
    rcases h.level_eq hfile with hid | hid
    · exact hbelow.trans_le (h.within file hfile hid).1
    · rcases hapart file hfile hid with hlt | hlt
      · exact absurd ((hlt.trans_le hotherRange).trans hbelow)
          (not_lt.mpr (h.meets file hfile hid).2)
      · exact hlt
  · right
    intro file hfile
    rcases h.level_eq hfile with hid | hid
    · exact (h.within file hfile hid).2.trans_lt habove
    · rcases hapart file hfile hid with hlt | hlt
      · exact hlt
      · exact absurd (habove.trans (hotherRange.trans_lt hlt))
          (not_lt.mpr (h.meets file hfile hid).1)

/-- A file between keys of chosen files meets no other file of the next
level. -/
theorem apart_of_bounds (h : Selection engine level files lo hi)
    (hinv : LevelInv engine) (hother : other ∈ engine.level (level + 1))
    (hnot : other ∉ files)
    (hlower : ∃ input ∈ files, input.lowerBound ≤ file.lowerBound)
    (hupper : ∃ input ∈ files, file.upperBound ≤ input.upperBound) :
    Apart file other := by
  obtain ⟨input, hinput, hle⟩ := hlower
  obtain ⟨input', hinput', hle'⟩ := hupper
  rcases h.beside hinv hother hnot with hbelow | habove
  · exact Or.inr ((hbelow input hinput).trans_le hle)
  · exact Or.inl (hle'.trans_lt (habove input' hinput'))

/-- Only the levels matter. -/
theorem congr (h : Selection engine level files lo hi)
    {engine' : StorageEngine}
    (hlevels : engine'.levelFiles = engine.levelFiles) :
    Selection engine' level files lo hi := by
  have hlevel : ∀ i, engine'.level i = engine.level i := fun i => by
    rw [StorageEngine.level, hlevels, StorageEngine.level]
  have hfiles : engine'.files = engine.files := by
    rw [StorageEngine.files, hlevels, StorageEngine.files]
  exact ⟨hfiles ▸ h.live, h.nodup, h.order, h.within, h.meets,
    hlevel (level + 1) ▸ h.next_kept, hlevel level ▸ h.kept⟩

/-- A newer file of level 0 leaves a choice intact. -/
theorem installFile (h : Selection engine level files lo hi)
    (hinv : LevelInv engine) (hzero : file.levelId = 0)
    (hnewer : ∀ other ∈ engine.level 0, other.fileId < file.fileId) :
    Selection (engine.installFile file) level files lo hi where
  live := fun other hother =>
    hinv.mem_files_installFile.mpr (Or.inr (h.live other hother))
  nodup := h.nodup
  order := h.order
  within := h.within
  meets := h.meets
  next_kept := by
    intro other hother hnot
    rcases StorageEngine.mem_level_installFile.mp hother with
      ⟨_, hlevel⟩ | hother
    · omega
    · exact h.next_kept other hother hnot
  kept := by
    intro other hother hnot input hinput hid
    rcases StorageEngine.mem_level_installFile.mp hother with
      ⟨rfl, hlevel⟩ | hother
    · refine Or.inr (hnewer input ?_)
      exact hinv.mem_level_iff.mpr ⟨h.live input hinput, by omega⟩
    · exact h.kept other hother hnot input hinput hid

end Selection

end SimpleKV
