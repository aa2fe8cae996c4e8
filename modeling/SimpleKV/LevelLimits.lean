/-
`Compact` returns and leaves every level within its limit.  It calls itself on
its own level and on the next, and a merge may put more files into the next
level than it takes; what falls is the number of entries, counted the more the
higher their level is.
-/
import SimpleKV.View
import SimpleKV.NWayMerge
import SimpleKV.Lib.ChoiceRun
import Mathlib.Algebra.BigOperators.Ring.List
import Mathlib.Algebra.Order.BigOperators.Group.Finset

namespace SimpleKV

open SortedAssoc

/-- `ExtractEntry` reads the file's bytes only. -/
theorem extractEntry_congr {file other : File} (h : other.mmap = file.mmap)
    (p index : Nat) :
    extractEntry other p index = (extractEntry file p index).map fun found =>
      ({ found.1 with levelId := other.levelId, fileId := other.fileId },
        found.2) := by
  simp only [extractEntry, h, Option.bind_eq_bind, Option.map_bind,
    Function.comp_def, Option.map_some]

theorem scanEntries_congr {file other : File} (h : other.mmap = file.mmap)
    (index : Nat) (indexOffset : UInt32) (rounds p : Nat) :
    scanEntries other index indexOffset rounds p =
      (scanEntries file index indexOffset rounds p).map (List.map fun entry =>
        { entry with levelId := other.levelId, fileId := other.fileId }) := by
  induction rounds generalizing p with
  | zero =>
      simp only [scanEntries]
      split_ifs <;> rfl
  | succ rounds ih =>
      simp only [scanEntries, extractEntry_congr h]
      split_ifs with hp
      · cases hfound : extractEntry file p index with
        | none => rfl
        | some found =>
            simp only [Option.map_some, Option.bind_eq_bind, Option.bind_some,
              ih, Option.map_bind]
            cases scanEntries file index indexOffset rounds found.2 <;> rfl
      · rfl

theorem File.scan_congr {file other : File} (h : other.mmap = file.mmap) :
    other.scan = file.scan := by
  have hcursor : openCursor other 0 = openCursor file 0 := by
    simp only [openCursor, extractEntry_congr h, h]
    cases extractEntry file 0 0 <;> rfl
  have hscan : scanFile other 0 = (scanFile file 0).map (List.map fun entry =>
      { entry with levelId := other.levelId, fileId := other.fileId }) := by
    simp only [scanFile, hcursor, h, scanEntries_congr h,
      Option.bind_eq_bind, Option.map_bind]
    rfl
  rw [File.scan, hscan, File.scan]
  cases scanFile file 0 with
  | none => rfl
  | some entries =>
      simp only [Option.map_some, Option.getD_some, List.map_map]
      rfl

/-- Entries of a file, at least one. -/
def File.weight (file : File) : Nat :=
  max 1 file.scan.length

namespace Merge

variable {files : List File} {top : Int}

/-- An output file holds no more than was put into it. -/
theorem Output.weight_le {levelId : Nat} {file : File} {chunk : List Entry}
    (h : Output levelId files top file chunk) : file.weight ≤ chunk.length := by
  obtain ⟨count, hscan, _⟩ := h.holds.scan_eq_take
  have hpos : 0 < chunk.length := by
    have hmem := h.holds.lowerBound_mem
    rw [List.length_pos_iff]
    rintro rfl
    simp at hmem
  have hle : file.scan.length ≤ chunk.length := by
    rw [hscan, List.length_take, List.length_map]
    exact Nat.min_le_right _ _
  rw [File.weight]
  omega

/-- The entries of the inputs, one file after the other. -/
theorem length_le_of_subset_all {entries : List Entry} (hnodup : entries.Nodup)
    (hall : ∀ entry ∈ entries, entry ∈ all files) :
    entries.length ≤ (files.map File.weight).sum := by
  have hsub : entries ⊆ files.zipIdx.flatMap fun found =>
      source found.1 found.2 := by
    intro entry hentry
    obtain ⟨i, file, hfile, hmem⟩ := hall entry hentry
    exact List.mem_flatMap.mpr ⟨(file, i),
      List.mk_mem_zipIdx_iff_getElem?.mpr hfile, hmem⟩
  have hsum : (files.zipIdx.map fun found =>
      (source found.1 found.2).length) =
        files.map fun file => file.scan.length := by
    have hfst : files = files.zipIdx.map Prod.fst := by
      rw [List.zipIdx_map_fst]
    conv_rhs => rw [hfst, List.map_map]
    refine List.map_congr_left fun found _ => ?_
    rw [source, List.length_map, Function.comp_apply]
  calc entries.length
      ≤ (files.zipIdx.flatMap fun found => source found.1 found.2).length :=
        (hnodup.subperm hsub).length_le
    _ = (files.map fun file => file.scan.length).sum := by
        rw [List.length_flatMap, hsum]
    _ ≤ (files.map File.weight).sum :=
        List.sum_le_sum fun file _ => Nat.le_max_right 1 _

/-- A merge makes no new entries. -/
theorem Outputs.weight_le {levelId : Nat} {compacted : List File}
    {chunks : List (List Entry)}
    (h : Outputs levelId files top compacted chunks) :
    (compacted.map File.weight).sum ≤ (files.map File.weight).sum := by
  obtain ⟨houtputs, hsorted, hwinner⟩ := h
  have hlength : (compacted.map File.weight).sum ≤ chunks.flatten.length := by
    clear hsorted hwinner
    induction houtputs with
    | nil => simp
    | cons hout _ ih =>
        have hle := hout.weight_le
        rw [List.map_cons, List.sum_cons, List.flatten_cons,
          List.length_append]
        omega
  refine hlength.trans (length_le_of_subset_all ?_ fun entry hentry =>
    (hwinner entry hentry).1.1)
  exact hsorted.imp fun hlt heq => absurd (heq ▸ hlt) (lt_irrefl _)

end Merge

/-- A compaction makes no new entries. -/
theorem Compacted.weight_le {level : Nat} {files compacted : List File}
    {top : Int} {needRemoveFile : Bool}
    (h : Compacted level files top compacted needRemoveFile) :
    (compacted.map File.weight).sum ≤ (files.map File.weight).sum := by
  cases needRemoveFile with
  | true =>
      obtain ⟨chunks, houtputs, _⟩ := h
      exact houtputs.weight_le
  | false =>
      obtain ⟨file, moved, rfl, rfl, hmoved⟩ := h
      simp [File.weight, File.scan_congr hmoved.mmap]

namespace StorageEngine

/-- The sum of a weight over all files. -/
def total (weight : File → Nat) (engine : StorageEngine) : Nat :=
  ∑ file ∈ engine.files.toFinset, weight file

/-- Entries, counted the more the higher their level is. -/
def potential (bound : Nat) (engine : StorageEngine) : Nat :=
  engine.total fun file => file.weight * (bound + 1 - file.levelId)

theorem total_congr {engine engine' : StorageEngine}
    (h : engine'.levelFiles = engine.levelFiles) (weight : File → Nat) :
    engine'.total weight = engine.total weight := by
  rw [total, total, files, files, h]

end StorageEngine

theorem LevelInv.length_level_le {engine : StorageEngine}
    (h : LevelInv engine) (level : Nat) :
    (engine.level level).length ≤ engine.total File.weight := by
  have hsub : (engine.level level).toFinset ⊆ engine.files.toFinset := by
    intro file hfile
    rw [List.mem_toFinset] at hfile ⊢
    exact StorageEngine.mem_files.mpr ⟨level, hfile⟩
  calc (engine.level level).length
      = (engine.level level).toFinset.card :=
        (List.toFinset_card_of_nodup (h.nodup level)).symm
    _ ≤ engine.files.toFinset.card := Finset.card_le_card hsub
    _ = ∑ _file ∈ engine.files.toFinset, 1 := Finset.card_eq_sum_ones _
    _ ≤ engine.total File.weight :=
        Finset.sum_le_sum fun file _ => Nat.le_max_left 1 _

theorem LevelInv.potential_pos {engine : StorageEngine} (h : LevelInv engine)
    {level bound : Nat} (hbound : level ≤ bound)
    (hlevel : engine.level level ≠ []) : 0 < engine.potential bound := by
  obtain ⟨file, hfile⟩ := List.exists_mem_of_ne_nil _ hlevel
  rw [StorageEngine.potential, StorageEngine.total]
  refine Finset.sum_pos' (fun _ _ => Nat.zero_le _) ⟨file, ?_, ?_⟩
  · rw [List.mem_toFinset]
    exact StorageEngine.mem_files.mpr ⟨level, hfile⟩
  · rw [h.levelId level file hfile]
    exact Nat.mul_pos (Nat.lt_of_lt_of_le Nat.one_pos (Nat.le_max_left 1 _))
      (by omega)

/-- Files made from a selection are no more than there are entries. -/
theorem Selection.length_le {engine : StorageEngine} {level : Nat}
    {files compacted : List File} {lo hi : Bytes}
    (h : Selection engine level files lo hi)
    (hweight : (compacted.map File.weight).sum ≤
      (files.map File.weight).sum) :
    compacted.length ≤ engine.total File.weight := by
  have hsub : files.toFinset ⊆ engine.files.toFinset := by
    intro file hfile
    rw [List.mem_toFinset] at hfile ⊢
    exact h.live file hfile
  calc compacted.length
      = (compacted.map File.weight).length := by rw [List.length_map]
    _ ≤ (compacted.map File.weight).sum := by
        refine List.length_le_sum_of_one_le _ fun weight hweight => ?_
        obtain ⟨file, _, rfl⟩ := List.mem_map.mp hweight
        exact Nat.le_max_left 1 _
    _ ≤ (files.map File.weight).sum := hweight
    _ = ∑ file ∈ files.toFinset, file.weight :=
        (List.sum_toFinset File.weight h.nodup).symm
    _ ≤ engine.total File.weight := Finset.sum_le_sum_of_subset hsub

namespace EngineInv

variable {state : EngineState} {transit : Option File} {level : Nat}
  {files compacted : List File} {needRemoveFile : Bool}

/-- An update takes the chosen files out of a sum and puts the new ones in. -/
theorem total_updateMap (h : EngineInv state transit)
    (hphase : state.phase = .merged level files compacted needRemoveFile)
    (weight : File → Nat) :
    (state.engine.updateMap compacted files).total weight +
        (files.map weight).sum =
      state.engine.total weight + (compacted.map weight).sum := by
  obtain ⟨_, hmem⟩ := h.updateMap hphase
  have hinv := h.phase
  rw [hphase] at hinv
  obtain ⟨⟨lo, hi, hsel⟩, _⟩ := hinv
  have hextra : state.phase.extra = compacted := by
    rw [hphase]
    rfl
  have hset : (state.engine.updateMap compacted files).files.toFinset =
      compacted.toFinset ∪ (state.engine.files.toFinset \ files.toFinset) := by
    ext other
    simp only [List.mem_toFinset, Finset.mem_union, Finset.mem_sdiff,
      StorageEngine.mem_files, hmem]
    constructor
    · rintro ⟨i, ⟨hother, _⟩ | ⟨hother, hnot⟩⟩
      · exact Or.inl hother
      · exact Or.inr ⟨⟨i, hother⟩, hnot⟩
    · rintro (hother | ⟨⟨i, hother⟩, hnot⟩)
      · exact ⟨_, Or.inl ⟨hother, rfl⟩⟩
      · exact ⟨i, Or.inr ⟨hother, hnot⟩⟩
  have hdisjoint : Disjoint compacted.toFinset
      (state.engine.files.toFinset \ files.toFinset) := by
    rw [Finset.disjoint_left]
    intro other hother hlive
    rw [List.mem_toFinset] at hother
    rw [Finset.mem_sdiff, List.mem_toFinset] at hlive
    exact h.apart other (hextra ▸ hother) hlive.1
  have hsub : files.toFinset ⊆ state.engine.files.toFinset := by
    intro file hfile
    rw [List.mem_toFinset] at hfile ⊢
    exact hsel.live file hfile
  rw [StorageEngine.total, hset, Finset.sum_union hdisjoint,
    List.sum_toFinset weight (hextra ▸ h.nodup),
    ← List.sum_toFinset weight hsel.nodup, add_assoc,
    Finset.sum_sdiff hsub, add_comm, StorageEngine.total]

/-- The number of entries does not grow. -/
theorem weight_updateMap_le (h : EngineInv state transit)
    (hphase : state.phase = .merged level files compacted needRemoveFile) :
    (state.engine.updateMap compacted files).total File.weight ≤
      state.engine.total File.weight := by
  have htotal := h.total_updateMap hphase File.weight
  have hinv := h.phase
  rw [hphase] at hinv
  have hle := hinv.2.weight_le
  omega

/-- Every entry a compaction keeps goes to the next level, so the potential
falls. -/
theorem potential_updateMap_lt (h : EngineInv state transit)
    (hphase : state.phase = .merged level files compacted needRemoveFile)
    {bound : Nat} (hbound : level ≤ bound) :
    (state.engine.updateMap compacted files).potential bound <
      state.engine.potential bound := by
  have htotal := h.total_updateMap hphase fun file =>
    file.weight * (bound + 1 - file.levelId)
  have hinv := h.phase
  rw [hphase] at hinv
  obtain ⟨⟨lo, hi, hsel⟩, hcompacted⟩ := hinv
  obtain ⟨_, hplaced⟩ := hcompacted.placed (inputs h.levels hsel).1
  obtain ⟨first, hfirst, hfirstLevel⟩ := hsel.exists_level
  have hweight : 0 < first.weight := Nat.lt_of_lt_of_le Nat.one_pos
    (Nat.le_max_left 1 _)
  have hless : (compacted.map fun file =>
      file.weight * (bound + 1 - file.levelId)).sum <
        (files.map fun file => file.weight * (bound + 1 - file.levelId)).sum :=
    calc (compacted.map fun file =>
          file.weight * (bound + 1 - file.levelId)).sum
        = (compacted.map fun file => file.weight * (bound - level)).sum := by
          congr 1
          refine List.map_congr_left fun made hmade => ?_
          rw [(hplaced made hmade).2.1, Nat.add_sub_add_right]
      _ = (compacted.map File.weight).sum * (bound - level) :=
          List.sum_map_mul_right _ _ _
      _ ≤ (files.map File.weight).sum * (bound - level) :=
          Nat.mul_le_mul_right _ hcompacted.weight_le
      _ = (files.map fun file => file.weight * (bound - level)).sum :=
          (List.sum_map_mul_right _ _ _).symm
      _ < _ := by
          refine List.sum_lt_sum _ _ (fun file hfile => ?_)
            ⟨first, hfirst, ?_⟩
          · refine Nat.mul_le_mul_left _ ?_
            rcases hsel.level_eq hfile with hlevel | hlevel <;> omega
          · refine Nat.mul_lt_mul_of_pos_left ?_ hweight
            omega
  rw [StorageEngine.potential, StorageEngine.potential]
  omega

/-- A compaction makes no more files than there are entries. -/
theorem length_made_le (h : EngineInv state transit) :
    state.phase.made.length ≤ state.engine.total File.weight := by
  have hinv := h.phase
  cases hphase : state.phase with
  | merging level files merge =>
      rw [hphase] at hinv
      obtain ⟨⟨lo, hi, hsel⟩, hmerging⟩ := hinv
      obtain ⟨chunks, houtputs⟩ := hmerging.outputs
      exact hsel.length_le houtputs.weight_le
  | merged level files compacted needRemoveFile =>
      rw [hphase] at hinv
      obtain ⟨⟨lo, hi, hsel⟩, hcompacted⟩ := hinv
      exact hsel.length_le hcompacted.weight_le
  | ready | selected | removing => exact Nat.zero_le _

/-- The other levels keep their files. -/
theorem length_level_updateMap (h : EngineInv state transit)
    (hphase : state.phase = .merged level files compacted needRemoveFile)
    {i : Nat} (hi : i ≠ level) (hnext : i ≠ level + 1) :
    ((state.engine.updateMap compacted files).level i).length =
      (state.engine.level i).length := by
  obtain ⟨hlevels, hmem⟩ := h.updateMap hphase
  have hinv := h.phase
  rw [hphase] at hinv
  obtain ⟨⟨lo, hi', hsel⟩, hcompacted⟩ := hinv
  obtain ⟨_, hplaced⟩ := hcompacted.placed (inputs h.levels hsel).1
  refine ((List.perm_ext_iff_of_nodup (hlevels.nodup i)
    (h.levels.nodup i)).mpr fun other => ?_).length_eq
  rw [hmem]
  constructor
  · rintro (⟨hother, hlevel⟩ | ⟨hother, _⟩)
    · exact absurd (hlevel ▸ (hplaced other hother).2.1) hnext
    · exact hother
  · intro hother
    refine Or.inr ⟨hother, fun hfile => ?_⟩
    have hlevel := h.levels.levelId i other hother
    rcases hsel.level_eq hfile with heq | heq <;> omega

end EngineInv

/-! ### `Compact` on its own -/

namespace EngineState

/-- The next step of the `Compact` call under way, without the assertion in
`Flush`.  A choice is how the queue breaks ties and how an offset table is
listed. -/
def compactStep (bufferSize : UInt32) (choice : PriorityQueue × IterOrder)
    (state : EngineState) : Option EngineState :=
  match state.phase with
  | .ready => state.select
  | .selected _ _ => state.merge .release choice.1 choice.2 bufferSize
  | .merging _ _ _ => state.merge .release choice.1 choice.2 bufferSize
  | .merged _ _ _ _ => state.update
  | .removing _ [] => state.finish
  | .removing _ (_ :: _) => state.remove

/-- `count` steps of `Compact` with no other thread in between. -/
def compactRun (bufferSize : UInt32)
    (choices : Nat → PriorityQueue × IterOrder) (count : Nat)
    (state : EngineState) : Option EngineState :=
  ChoiceRun.run (compactStep bufferSize) choices count state

/-- The levels whose `Compact` call is under way or still to come. -/
def due (state : EngineState) : List Nat :=
  match state.phase with
  | .ready => state.calls
  | .selected level _ => level :: state.calls
  | .merging level _ _ => level :: state.calls
  | .merged level _ _ _ => level :: state.calls
  | .removing level _ => level :: (level + 1) :: state.calls

/-- How far the call under way is, apart from the levels: what is left of the
calls, of its phases and of the loop it is in. -/
def rank (bound : Nat) (state : EngineState) : ℕ ×ₗ ℕ ×ₗ ℕ :=
  let before := 4 * state.engine.potential bound + state.calls.length
  match state.phase with
  | .ready => toLex (before, toLex (0, 0))
  | .selected _ _ => toLex (before, toLex (2, 0))
  | .merging _ _ merge => toLex (before, toLex (1, merge.left))
  | .merged _ _ _ _ => toLex (before, toLex (0, 0))
  | .removing _ files => toLex (before + 3, toLex (0, files.length))

end EngineState

/-- The level whose files are being compacted. -/
def Phase.compacts : Phase → Option Nat
  | .selected level _ => some level
  | .merging level _ _ => some level
  | .merged level _ _ _ => some level
  | _ => none

/-- A `Compact` call under way: every level above its limit is due, and the ids
drawn since `origin` are paid for by the potential. -/
structure Compacting (limit bound : Nat) (origin : Int)
    (transit : Option File) (state : EngineState) : Prop where
  inv : EngineInv state transit
  limit_eq : state.engine.level0FilesNumberLimit = limit
  weight_le : state.engine.total File.weight ≤ bound
  due : ∀ level, limit * 10 ^ level < (state.engine.level level).length →
    level ∈ state.due
  exceeds : ∀ level ∈ state.phase.compacts,
    limit * 10 ^ level < (state.engine.level level).length
  drawn : state.engine.fileId + ↑(bound * state.engine.potential bound) ≤
    origin + ↑state.phase.made.length

theorem Merge.Extends.same {levelId : Nat} {files : List File}
    {before after : StorageEngine} {compacted compacted' : List File}
    (h : Merge.Extends levelId files before after compacted compacted') :
    after.levelFiles = before.levelFiles ∧
      after.level0FilesNumberLimit = before.level0FilesNumberLimit ∧
      after.fileId ≤ before.fileId + 1 ∧
      after.fileId + compacted.length = before.fileId + compacted'.length := by
  rcases h with ⟨rfl, rfl⟩ | ⟨file, chunk, rfl, hid, _, rfl⟩
  · exact ⟨rfl, rfl, by omega, rfl⟩
  · refine ⟨rfl, rfl, hid.le, ?_⟩
    change file.fileId + _ = _
    rw [hid, List.length_append, List.length_singleton]
    omega

theorem StorageEngine.limit_updateMap (compacted files : List File)
    (engine : StorageEngine) :
    (engine.updateMap compacted files).level0FilesNumberLimit =
      engine.level0FilesNumberLimit := by
  have herase : ∀ engine : StorageEngine,
      (files.foldl eraseFile engine).level0FilesNumberLimit =
        engine.level0FilesNumberLimit := by
    induction files with
    | nil => exact fun _ => rfl
    | cons file files ih => exact fun engine => ih (engine.eraseFile file)
  have hinstall : ∀ engine : StorageEngine,
      (compacted.foldl installFile engine).level0FilesNumberLimit =
        engine.level0FilesNumberLimit := by
    induction compacted with
    | nil => exact fun _ => rfl
    | cons file compacted ih => exact fun engine => ih (engine.installFile file)
  rw [updateMap, hinstall, herase]

namespace Compacting

variable {limit bound : Nat} {origin : Int} {transit : Option File}
  {state next : EngineState}

/-- A level that is being compacted has a number below the number of
entries. -/
theorem level_le (h : Compacting limit bound origin transit state)
    (hpos : 1 ≤ limit) {level : Nat}
    (hlevel : level ∈ state.phase.compacts) : level ≤ bound := by
  have hpow : level < 10 ^ level := Nat.lt_pow_self (by decide)
  have hlimit : 10 ^ level ≤ limit * 10 ^ level :=
    Nat.le_mul_of_pos_left _ hpos
  have hlength := (h.inv.levels.length_level_le level).trans h.weight_le
  have hexceeds := h.exceeds level hlevel
  omega

/-- The potential still to come pays for the files that are made. -/
theorem fileId_le (h : Compacting limit bound origin transit state)
    (hpos : 1 ≤ limit) : state.engine.fileId ≤ origin := by
  have hdrawn := h.drawn
  by_cases hmade : state.phase.made = []
  · rw [hmade, List.length_nil] at hdrawn
    omega
  · obtain ⟨level, hlevel⟩ : ∃ level, level ∈ state.phase.compacts := by
      cases hphase : state.phase with
      | merging level _ _ | merged level _ _ _ => exact ⟨level, rfl⟩
      | ready | selected | removing =>
          exact absurd (by rw [hphase]; rfl) hmade
    have hlength := h.inv.length_made_le.trans h.weight_le
    have hpotential := h.inv.levels.potential_pos (h.level_le hpos hlevel)
      (List.ne_nil_of_length_pos (Nat.zero_lt_of_lt (h.exceeds level hlevel)))
    have hpaid := Nat.le_mul_of_pos_right bound hpotential
    omega

/-- Steps that leave the levels and what is due alone and draw an id for every
file they make. -/
theorem same (h : Compacting limit bound origin transit state)
    (hinv : EngineInv next transit)
    (hlevels : next.engine.levelFiles = state.engine.levelFiles)
    (hlimit : next.engine.level0FilesNumberLimit =
      state.engine.level0FilesNumberLimit)
    (hdue : next.due = state.due)
    (hcompacts : ∀ level ∈ next.phase.compacts,
      level ∈ state.phase.compacts)
    (hmade : next.engine.fileId + state.phase.made.length =
      state.engine.fileId + next.phase.made.length) :
    Compacting limit bound origin transit next := by
  have hlevel : ∀ i, next.engine.level i = state.engine.level i := fun i => by
    rw [StorageEngine.level, hlevels, StorageEngine.level]
  refine ⟨hinv, hlimit.trans h.limit_eq, ?_, ?_, ?_, ?_⟩
  · rw [StorageEngine.total_congr hlevels]
    exact h.weight_le
  · intro i hi
    rw [hlevel] at hi
    rw [hdue]
    exact h.due i hi
  · intro i hi
    rw [hlevel]
    exact h.exceeds i (hcompacts i hi)
  · have hdrawn := h.drawn
    rw [StorageEngine.potential, StorageEngine.total_congr hlevels,
      ← StorageEngine.potential]
    omega

/-- The snapshot and the choice of files. -/
theorem step_ready (h : Compacting limit bound origin transit state)
    (hphase : state.phase = .ready) (hcalls : state.calls ≠ []) :
    ∃ next, state.select = some next ∧
      Compacting limit bound origin transit next ∧
      next.rank bound < state.rank bound := by
  obtain ⟨level, calls, hcalls⟩ := List.exists_cons_of_ne_nil hcalls
  cases hfiles : compactFiles state.engine level with
  | none =>
      have hselect : state.select = some { state with calls } := by
        simp only [EngineState.select, hphase, hcalls, hfiles]
      refine ⟨_, hselect, ⟨(h.inv.select hselect).1, h.limit_eq, h.weight_le,
        fun i hi => ?_, h.exceeds, h.drawn⟩, ?_⟩
      · -- The level that is given up is within its limit.
        have hdue := h.due i hi
        simp only [EngineState.due, hphase, hcalls, List.mem_cons] at hdue ⊢
        refine hdue.resolve_left ?_
        rintro rfl
        change limit * 10 ^ i < (state.engine.level i).length at hi
        rw [compactFiles, h.limit_eq, if_neg (not_le.mpr hi)] at hfiles
        cases hlevel : state.engine.level i with
        | nil => simp [hlevel] at hi
        | cons first candidates => simp [hlevel] at hfiles
      · simp only [EngineState.rank, hphase, hcalls, List.length_cons,
          Prod.Lex.toLex_lt_toLex]
        exact Or.inl (Nat.lt_succ_self _)
  | some files =>
      have hselect : state.select =
          some { state with calls, phase := .selected level files } := by
        simp only [EngineState.select, hphase, hcalls, hfiles]
      refine ⟨_, hselect, ⟨(h.inv.select hselect).1, h.limit_eq, h.weight_le,
        fun i hi => ?_, fun i hi => ?_, ?_⟩, ?_⟩
      · have hdue := h.due i hi
        simpa only [EngineState.due, hphase, hcalls] using hdue
      · rw [show i = level from (Option.mem_some_iff.mp hi).symm]
        by_contra hle
        rw [compactFiles, h.limit_eq, if_pos (not_lt.mp hle)] at hfiles
        cases hfiles
      · simpa only [Phase.made, hphase] using h.drawn
      · simp only [EngineState.rank, hphase, hcalls, List.length_cons,
          Prod.Lex.toLex_lt_toLex]
        exact Or.inl (Nat.lt_succ_self _)

/-- The trivial move, or the start of a merge. -/
theorem step_selected (h : Compacting limit bound origin transit state)
    {level : Nat} {files : List File}
    (hphase : state.phase = .selected level files)
    (htop : state.engine.fileId + 1 < 10 ^ 8) (queue : PriorityQueue)
    (iter : IterOrder) (bufferSize : UInt32) :
    ∃ next, state.merge .release queue iter bufferSize = some next ∧
      Compacting limit bound origin transit next ∧
      next.rank bound < state.rank bound := by
  have hinv := h.inv.phase
  rw [hphase] at hinv
  obtain ⟨lo, hi, hsel⟩ := hinv
  by_cases hsingle : ∃ file, files = [file]
  · obtain ⟨file, rfl⟩ := hsingle
    obtain ⟨moved, folder, hmove⟩ := h.inv.exists_trivialMove hphase
      (hsel.live file List.mem_cons_self) htop
    have hmerge : state.merge .release queue iter bufferSize = some
        { state with
          engine := { state.engine with
            fileId := state.engine.fileId + 1
            folder }
          phase := .merged level [file] [moved] false } := by
      simp only [EngineState.merge, hphase, hmove, Option.bind_eq_bind,
        Option.bind_some]
    refine ⟨_, hmerge,
      h.same (h.inv.merge hmerge htop).1 rfl rfl ?_ ?_ ?_, ?_⟩
    · simp only [EngineState.due, hphase]
    · simp only [hphase, Phase.compacts]
      exact fun _ hlevel => hlevel
    · simp [hphase, Phase.made]
    · simp only [EngineState.rank, hphase, Prod.Lex.toLex_lt_toLex]
      exact Or.inr ⟨rfl, Or.inl (by decide)⟩
  · obtain ⟨merge, hstart, _, hnone⟩ := Merge.exists_start_inv
      (EngineInv.inputs h.inv.levels hsel).1 level
    have hmerge : state.merge .release queue iter bufferSize = some
        { state with phase := .merging level files merge } := by
      cases files with
      | nil =>
          simp only [EngineState.merge, hphase, hstart, Option.bind_eq_bind,
            Option.bind_some]
      | cons first files =>
          cases files with
          | nil => exact absurd ⟨first, rfl⟩ hsingle
          | cons second rest =>
              simp only [EngineState.merge, hphase, hstart,
                Option.bind_eq_bind, Option.bind_some]
    have hlt : state.engine.fileId < 10 ^ 8 := by omega
    refine ⟨_, hmerge,
      h.same (h.inv.merge hmerge hlt).1 rfl rfl ?_ ?_ ?_, ?_⟩
    · simp only [EngineState.due, hphase]
    · simp only [hphase, Phase.compacts]
      exact fun _ hlevel => hlevel
    · simp [hphase, Phase.made, hnone]
    · simp only [EngineState.rank, hphase, Prod.Lex.toLex_lt_toLex]
      exact Or.inr ⟨trivial, Or.inl (by decide)⟩

/-- A round of a merge, or its end. -/
theorem step_merging (h : Compacting limit bound origin transit state)
    {level : Nat} {files : List File} {merge : Merge}
    (hphase : state.phase = .merging level files merge)
    (htop : state.engine.fileId + 1 < 10 ^ 8) (queue : PriorityQueue)
    (iter : IterOrder) (bufferSize : UInt32) :
    ∃ next, state.merge .release queue iter bufferSize = some next ∧
      Compacting limit bound origin transit next ∧
      next.rank bound < state.rank bound := by
  have hinv := h.inv.phase
  rw [hphase] at hinv
  obtain ⟨⟨lo, hi, hsel⟩, hmerging⟩ := hinv
  obtain ⟨hinputs, hlevel⟩ := EngineInv.inputs h.inv.levels hsel
  by_cases hpq : merge.pq = []
  · obtain ⟨engine, merge', hfinish, _, hextends⟩ := hmerging.finish hinputs
      hlevel hpq .release iter (Or.inr ⟨htop, fun hbuild => by cases hbuild⟩)
    obtain ⟨hlevels, hlimit, hid, hmade⟩ := hextends.same
    have hmerge : state.merge .release queue iter bufferSize = some
        { state with
          engine
          phase := .merged level files merge'.compactedFiles true } := by
      simp only [EngineState.merge, hphase, if_pos hpq, hfinish,
        Option.bind_eq_bind, Option.bind_some]
    refine ⟨_, hmerge, h.same (h.inv.merge hmerge (hid.trans_lt htop)).1
      hlevels hlimit ?_ ?_ ?_, ?_⟩
    · simp only [EngineState.due, hphase]
    · simp only [hphase, Phase.compacts]
      exact fun _ hlevel => hlevel
    · simpa only [Phase.made, hphase] using hmade
    · simp only [EngineState.rank, hphase, Prod.Lex.toLex_lt_toLex,
        StorageEngine.potential, StorageEngine.total_congr hlevels]
      exact Or.inr ⟨trivial, Or.inl (by decide)⟩
  · obtain ⟨engine, merge', hround, _, hextends⟩ := hmerging.round hinputs
      hlevel hpq .release queue iter bufferSize
      (Or.inr ⟨htop, fun hbuild => by cases hbuild⟩)
    obtain ⟨hlevels, hlimit, hid, hmade⟩ := hextends.same
    have hmerge : state.merge .release queue iter bufferSize = some
        { state with engine, phase := .merging level files merge' } := by
      simp only [EngineState.merge, hphase, if_neg hpq, hround,
        Option.bind_eq_bind, Option.bind_some]
    refine ⟨_, hmerge, h.same (h.inv.merge hmerge (hid.trans_lt htop)).1
      hlevels hlimit ?_ ?_ ?_, ?_⟩
    · simp only [EngineState.due, hphase]
    · simp only [hphase, Phase.compacts]
      exact fun _ hlevel => hlevel
    · simpa only [Phase.made, hphase] using hmade
    · simp only [EngineState.rank, hphase, Prod.Lex.toLex_lt_toLex,
        StorageEngine.potential, StorageEngine.total_congr hlevels]
      have hleft := Merge.left_roundWith
        (Merge.keepsReading_flushCompactedFile .release iter (level + 1)) hround
      exact Or.inr ⟨trivial, Or.inr ⟨trivial, hleft⟩⟩

/-- The update of the maps. -/
theorem step_merged (h : Compacting limit bound origin transit state)
    (hpos : 1 ≤ limit) {level : Nat} {files compacted : List File}
    {needRemoveFile : Bool}
    (hphase : state.phase = .merged level files compacted needRemoveFile) :
    ∃ next, state.update = some next ∧
      Compacting limit bound origin transit next ∧
      next.rank bound < state.rank bound := by
  have hupdate : state.update = some
      { state with
        engine := state.engine.updateMap compacted files
        phase := .removing level (if needRemoveFile then files else []) } := by
    simp only [EngineState.update, hphase]
  obtain ⟨_, _, _, _, _, _, _, hinv⟩ := h.inv.update hupdate
  have hlevel : level ≤ bound := by
    refine h.level_le hpos ?_
    rw [hphase]
    rfl
  have hpotential := h.inv.potential_updateMap_lt hphase hlevel
  refine ⟨_, hupdate, ⟨hinv, ?_, ?_, fun i hi => ?_, ?_, ?_⟩, ?_⟩
  · exact (StorageEngine.limit_updateMap _ _ _).trans h.limit_eq
  · exact (h.inv.weight_updateMap_le hphase).trans h.weight_le
  · -- Only the two levels of the compaction have changed.
    change i ∈ level :: (level + 1) :: state.calls
    by_cases hsame : i = level ∨ i = level + 1
    · rcases hsame with rfl | rfl <;> simp
    · rw [not_or] at hsame
      change limit * 10 ^ i <
        ((state.engine.updateMap compacted files).level i).length at hi
      rw [h.inv.length_level_updateMap hphase hsame.1 hsame.2] at hi
      have hdue := h.due i hi
      simp only [EngineState.due, hphase, List.mem_cons] at hdue
      simp [hdue.resolve_left hsame.1]
  · exact fun i hi => absurd hi (by simp [Phase.compacts])
  · -- The potential that is lost pays for the ids of the new files.
    have hdrawn := h.drawn
    have hmade := h.inv.length_made_le.trans h.weight_le
    have hpaid := Nat.mul_le_mul_left bound hpotential
    rw [Nat.mul_succ] at hpaid
    simp only [hphase, Phase.made] at hdrawn hmade
    have hid : (state.engine.updateMap compacted files).fileId =
        state.engine.fileId := (StorageEngine.fileId_updateMap _ _ _).1
    simp only [Phase.made, List.length_nil, hid]
    omega
  · simp only [EngineState.rank, hphase, Prod.Lex.toLex_lt_toLex]
    exact Or.inl (by omega)

/-- The removal of the old files, and the recursive calls. -/
theorem step_removing (h : Compacting limit bound origin transit state)
    {level : Nat} {files : List File} (hphase : state.phase = .removing level files)
    (htop : state.engine.fileId < 10 ^ 8) (choice : PriorityQueue × IterOrder)
    (bufferSize : UInt32) :
    ∃ next, state.compactStep bufferSize choice = some next ∧
      Compacting limit bound origin transit next ∧
      next.rank bound < state.rank bound := by
  cases files with
  | nil =>
      have hfinish : state.finish = some
          { state with
            calls := level :: (level + 1) :: state.calls
            phase := .ready } := by
        simp only [EngineState.finish, hphase]
      refine ⟨_, ?_, h.same (h.inv.finish hfinish).1 rfl rfl ?_ ?_ ?_, ?_⟩
      · simp only [EngineState.compactStep, hphase, hfinish]
      · simp only [EngineState.due, hphase]
      · exact fun i hi => absurd hi (by simp [Phase.compacts])
      · simp only [Phase.made, hphase]
      · simp only [EngineState.rank, hphase, Prod.Lex.toLex_lt_toLex,
          List.length_cons]
        exact Or.inl (by omega)
  | cons file files =>
      have hremove : state.remove = some
          { state with
            engine := state.engine.removeFile file
            phase := .removing level files } := by
        simp only [EngineState.remove, hphase]
      refine ⟨_, ?_,
        h.same (h.inv.remove htop hremove).1 rfl rfl ?_ ?_ ?_, ?_⟩
      · simp only [EngineState.compactStep, hphase, hremove]
      · simp only [EngineState.due, hphase]
      · exact fun i hi => absurd hi (by simp [Phase.compacts])
      · simp only [Phase.made, hphase, StorageEngine.removeFile]
      · simp only [EngineState.rank, hphase, Prod.Lex.toLex_lt_toLex,
          List.length_cons]
        exact Or.inr ⟨rfl, Or.inr ⟨trivial, Nat.lt_succ_self _⟩⟩

/-- Until the calls are done or the ids are used up, there is a next step, and
it lowers the rank. -/
theorem step (h : Compacting limit bound origin transit state)
    (hpos : 1 ≤ limit) (htop : state.engine.fileId + 1 < 10 ^ 8)
    (hbusy : ¬ (state.calls = [] ∧ state.phase = .ready))
    (bufferSize : UInt32) (choice : PriorityQueue × IterOrder) :
    ∃ next, state.compactStep bufferSize choice = some next ∧
      Compacting limit bound origin transit next ∧
      next.rank bound < state.rank bound := by
  cases hphase : state.phase with
  | ready =>
      simp only [EngineState.compactStep, hphase]
      exact h.step_ready hphase fun hcalls => hbusy ⟨hcalls, hphase⟩
  | selected level files =>
      simp only [EngineState.compactStep, hphase]
      exact h.step_selected hphase htop choice.1 choice.2 bufferSize
  | merging level files merge =>
      simp only [EngineState.compactStep, hphase]
      exact h.step_merging hphase htop choice.1 choice.2 bufferSize
  | merged level files compacted needRemoveFile =>
      simp only [EngineState.compactStep, hphase]
      exact h.step_merged hpos hphase
  | removing level files =>
      exact h.step_removing hphase (by omega) choice bufferSize

end Compacting

/-- `Compact(0)` with no other thread in between, without the assertion in
`Flush`.  From every state in which level 0 may have any number of files and
the other levels are within their limits it comes to an end, whatever the ties
in the queue: it returns with every level within its limit, in a state from
which it can be called again, or it has used up the ids.  It draws at most as
many ids as there are entries for each unit of the potential, so it returns
wherever that many are left. -/
theorem compact_restores_limits (bufferSize : UInt32) {limit : Nat}
    (hpos : 1 ≤ limit) {state called : EngineState} {transit : Option File}
    (hinv : EngineInv state transit)
    (hlimit : state.engine.level0FilesNumberLimit = limit)
    (hlevels : ∀ level, 1 ≤ level →
      (state.engine.level level).length ≤ limit * 10 ^ level)
    (hcall : state.call 0 = some called)
    (choices : Nat → PriorityQueue × IterOrder) :
    ∃ count final, called.compactRun bufferSize choices count = some final ∧
      EngineInv final transit ∧
      final.engine.level0FilesNumberLimit = limit ∧
      final.engine.fileId ≤ state.engine.fileId +
        ↑(state.engine.total File.weight *
          state.engine.potential (state.engine.total File.weight)) ∧
      ((final.calls = [] ∧ final.phase = .ready ∧
          ∀ level, (final.engine.level level).length ≤ limit * 10 ^ level) ∨
        10 ^ 8 ≤ final.engine.fileId + 1) := by
  have hcalled := (hinv.call hcall).1
  unfold EngineState.call at hcall
  split_ifs at hcall with hidle
  rw [Option.some.injEq] at hcall
  have hstart : Compacting limit (state.engine.total File.weight)
      (state.engine.fileId + ↑(state.engine.total File.weight *
        state.engine.potential (state.engine.total File.weight)))
      transit called := by
    rw [← hcall] at hcalled ⊢
    refine ⟨hcalled, hlimit, le_refl _, fun level hover => ?_, ?_, ?_⟩
    · simp only [EngineState.due, hidle.2, List.mem_singleton]
      by_contra hne
      exact absurd (hlevels level (Nat.pos_of_ne_zero hne)) (not_le.mpr hover)
    · simp [hidle.2, Phase.compacts]
    · exact Int.le_add_of_nonneg_right (Int.natCast_nonneg _)
  obtain ⟨count, final, hrun, hfinal, hgoal⟩ := ChoiceRun.exists_run_of_rank
    (EngineState.compactStep bufferSize)
    (fun state => (state.calls = [] ∧ state.phase = .ready) ∨
      10 ^ 8 ≤ state.engine.fileId + 1)
    (EngineState.rank (state.engine.total File.weight))
    (fun reached hreached => by
      rw [or_iff_not_imp_left, not_or, not_le]
      exact fun hbusy choice =>
        hreached.step hpos hbusy.2 hbusy.1 bufferSize choice)
    hstart choices
  refine ⟨count, final, hrun, hfinal.inv, hfinal.limit_eq,
    hfinal.fileId_le hpos, ?_⟩
  rcases hgoal with ⟨hcalls, hphase⟩ | hids
  · refine Or.inl ⟨hcalls, hphase, fun level => ?_⟩
    by_contra hover
    have hdue := hfinal.due level (not_le.mp hover)
    simp [EngineState.due, hphase, hcalls] at hdue
  · exact Or.inr hids

/-- Two overlapping files in level 0, one too many. -/
theorem compact_restores_limits_two_versions :
    ∃ db called count final,
      DataBase.Reaches DataBase.InRange DataBase.tiny DataBase.twoVersions db ∧
      1 < (db.store.engine.level 0).length ∧
      db.store.call 0 = some called ∧
      called.compactRun 0 (fun _ => (.sorted, .inOrder)) count = some final ∧
      final.calls = [] ∧ final.phase = .ready ∧
      ∀ level, (final.engine.level level).length ≤ 1 * 10 ^ level := by
  obtain ⟨db, hreaches, hlimit, hlevels, hover, hcall⟩ := DataBase.exists_reaches
    (show DataBase.Along (fun db _ => db.InRange) DataBase.twoVersions
      DataBase.tiny by decide +kernel)
    (show (DataBase.run DataBase.twoVersions DataBase.tiny).any (fun db =>
      decide (db.InRange ∧ db.store.engine.level0FilesNumberLimit = 1 ∧
      db.store.engine.levelFiles.length = 1 ∧
      1 < (db.store.engine.level 0).length ∧
      (db.store.call 0).any (fun called =>
        (List.range 16).all (fun count =>
          (called.compactRun 0 (fun _ => (.sorted, .inOrder)) count).all
            fun later => decide (later.engine.fileId + 1 < 10 ^ 8)) &&
        (called.compactRun 0 (fun _ => (.sorted, .inOrder)) 16).isNone) =
          true)) = true by decide +kernel)
  obtain ⟨called, hcalled, hruns⟩ := (Option.any_eq_true _ _).mp hcall
  rw [Bool.and_eq_true, List.all_eq_true, Option.isNone_iff_eq_none] at hruns
  obtain ⟨transit, hstore⟩ := exists_storeInv (fun _ hids => hids.1) hreaches
  obtain ⟨count, final, hrun, _, _, _, hgoal⟩ :=
    compact_restores_limits 0 (le_refl 1) hstore.engine hlimit
      (fun level hlevel => by
        have hempty : db.store.engine.level level = [] := by
          have hnone : db.store.engine.levelFiles[level]? = none :=
            List.getElem?_eq_none (hlevels.le.trans hlevel)
          simp [StorageEngine.level, LevelFiles.level, hnone]
        simp [hempty])
      hcalled (fun _ => (.sorted, .inOrder))
  have hids : final.engine.fileId + 1 < 10 ^ 8 := by
    by_cases hcount : count < 16
    · have hall := hruns.1 count (List.mem_range.mpr hcount)
      rw [hrun] at hall
      exact of_decide_eq_true hall
    · have hnone := ChoiceRun.run_eq_none_of_le hruns.2 (not_lt.mp hcount)
      rw [EngineState.compactRun, hnone] at hrun
      cases hrun
  obtain ⟨hcalls, hphase, hfinal⟩ := hgoal.resolve_right (not_le.mpr hids)
  exact ⟨db, called, count, final, hreaches, hover, hcalled, hrun, hcalls,
    hphase, hfinal⟩

end SimpleKV
