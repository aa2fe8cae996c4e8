/-
The shape of the tree while all threads run.  A level from 1 on that is over
its limit has a `Compact` call on the way; a call goes one level down only from
a level over its limit, so the limits stay within an `int`, no file lies below
level 8, and a `Get` visits few files.
-/
import SimpleKV.LevelLimits
import SimpleKV.StateOutlines
import Mathlib.Data.Int.Interval
import Mathlib.Order.Interval.Finset.Nat

namespace SimpleKV

/-- A value of type `int`, or `none` when it does not fit. -/
def toInt (n : Nat) : Option Nat :=
  if n < 2 ^ 31 then some n else none

/-- `level0_files_number_limit_ * (int)pow(10, level_id)`. -/
def levelLimit (limit levelId : Nat) : Option Nat := do
  let power ← toInt (10 ^ levelId)
  toInt (limit * power)

/-- A level to which a `Compact` call can get: 0, or the level below one that
can be over its limit. -/
def Shallow (limit level : Nat) : Prop :=
  level = 0 ∨ limit * 10 ^ (level - 1) < 10 ^ 8

namespace Shallow

variable {limit level : Nat}

/-- Ten times more than there are files is still within an `int`. -/
theorem levelLimit_eq (h : Shallow limit level) (hpos : 1 ≤ limit)
    (hlimit : limit < 2 ^ 31) :
    levelLimit limit level = some (limit * 10 ^ level) := by
  have hproduct : limit * 10 ^ level < 2 ^ 31 := by
    cases level with
    | zero => simpa using hlimit
    | succ below =>
        have hless := h.resolve_left (Nat.succ_ne_zero below)
        rw [Nat.add_sub_cancel] at hless
        rw [pow_succ, ← Nat.mul_assoc]
        omega
  have hpower : 10 ^ level < 2 ^ 31 :=
    (Nat.le_mul_of_pos_left _ hpos).trans_lt hproduct
  simp only [levelLimit, toInt, if_pos hpower, Option.bind_eq_bind,
    Option.bind_some, if_pos hproduct]

theorem le_eight (h : Shallow limit level) (hpos : 1 ≤ limit) :
    level ≤ 8 := by
  rcases h with rfl | hless
  · exact Nat.zero_le 8
  · have hpower : 10 ^ (level - 1) < 10 ^ 8 :=
      (Nat.le_mul_of_pos_left _ hpos).trans_lt hless
    have hlevel := (Nat.pow_lt_pow_iff_right (by decide : 1 < 10)).mp hpower
    omega

end Shallow

theorem ne_of_before {file other : File}
    (h : fileLayout.Before file other) : file ≠ other := by
  rintro rfl
  exact h.asymm h

namespace LevelInv

variable {engine : StorageEngine}

/-- The files of a level have different ids. -/
theorem length_level_le_ids (h : LevelInv engine) (level : Nat) :
    (engine.level level).length ≤ (engine.fileId + 1).toNat := by
  have hmem : ∀ file ∈ engine.level level, file ∈ engine.files :=
    fun file hfile => StorageEngine.mem_files.mpr ⟨level, hfile⟩
  have hids : ((engine.level level).map File.fileId).Nodup :=
    (h.nodup level).map_on fun file hfile other hother =>
      h.ids file (hmem file hfile) other (hmem other hother)
  have hsub : ((engine.level level).map File.fileId).toFinset ⊆
      Finset.Ico 0 (engine.fileId + 1) := by
    intro id hid
    rw [List.mem_toFinset] at hid
    obtain ⟨file, hfile, rfl⟩ := List.mem_map.mp hid
    have hstored := h.stored file (hmem file hfile)
    rw [Finset.mem_Ico]
    exact ⟨hstored.nonneg, Int.lt_add_one_of_le hstored.le_top⟩
  have hcard := Finset.card_le_card hsub
  rwa [List.toFinset_card_of_nodup hids, List.length_map, Int.card_Ico,
    sub_zero] at hcard

/-- A key is in the range of at most one file of each level from 1 on, so with
no file below level `deepest` a search visits level 0 and that many files. -/
theorem length_getContainsFiles_le (h : LevelInv engine) {deepest : Nat}
    (hdeepest : ∀ level, engine.level level ≠ [] → level ≤ deepest)
    (key : Bytes) :
    (engine.getContainsFiles key).flatten.length ≤
      (engine.level 0).length + deepest := by
  have hnodup : (engine.getContainsFiles key).flatten.Nodup :=
    (h.searchable.pairwise_getContainsFiles key).imp ne_of_before
  let found := (engine.getContainsFiles key).flatten.toFinset
  have hfound : ∀ file ∈ found, file ∈ engine.level file.levelId ∧
      file.lowerBound ≤ key ∧ key ≤ file.upperBound := by
    intro file hfile
    obtain ⟨hlive, hbounds⟩ :=
      h.searchable.mem_getContainsFiles.mp (List.mem_toFinset.mp hfile)
    exact ⟨h.mem_level_iff.mpr ⟨hlive, rfl⟩, hbounds⟩
  have hdeep : (found.filter fun file => file.levelId ≠ 0).card ≤
      (Finset.Icc 1 deepest).card := by
    apply Finset.card_le_card_of_injOn File.levelId
    · intro file hfile
      obtain ⟨hfile, hne⟩ := Finset.mem_filter.mp hfile
      have hle := hdeepest file.levelId
        (List.ne_nil_of_mem (hfound file hfile).1)
      exact Finset.mem_Icc.mpr ⟨Nat.one_le_iff_ne_zero.mpr hne, hle⟩
    · -- Two files of one level with the key in both ranges are one file.
      intro file hfile other hother hlevel
      obtain ⟨hfile, hne⟩ := Finset.mem_filter.mp hfile
      obtain ⟨hother, _⟩ := Finset.mem_filter.mp hother
      obtain ⟨hmem, hlower, hupper⟩ := hfound file hfile
      obtain ⟨hmem', hlower', hupper'⟩ := hfound other hother
      by_contra hdiffer
      rw [← hlevel] at hmem'
      rcases h.apart file.levelId (Nat.pos_of_ne_zero hne) file hmem other
        hmem' hdiffer with hapart | hapart
      · exact absurd (hapart.trans_le hlower') (not_lt.mpr hupper)
      · exact absurd (hapart.trans_le hlower) (not_lt.mpr hupper')
  have htop : (found.filter fun file => ¬ file.levelId ≠ 0).card ≤
      (engine.level 0).length := by
    rw [← List.toFinset_card_of_nodup (h.nodup 0)]
    apply Finset.card_le_card
    intro file hfile
    obtain ⟨hfile, hzero⟩ := Finset.mem_filter.mp hfile
    have hmem := (hfound file hfile).1
    rw [not_not.mp hzero] at hmem
    exact List.mem_toFinset.mpr hmem
  rw [Nat.card_Icc] at hdeep
  calc (engine.getContainsFiles key).flatten.length
      = found.card := (List.toFinset_card_of_nodup hnodup).symm
    _ = (found.filter fun file => file.levelId ≠ 0).card +
          (found.filter fun file => ¬ file.levelId ≠ 0).card :=
        (Finset.card_filter_add_card_filter_not _).symm
    _ ≤ (engine.level 0).length + deepest := by omega

end LevelInv

namespace Merge

variable {S A : Type} {flushFile : S → Merge → Option (S × Merge)}

/-- What every output file leaves alone in the state of the output, a round of
the main loop leaves alone. -/
theorem keeps_roundWith (part : S → A)
    (hkeeps : ∀ {out merge out' merge'},
      flushFile out merge = some (out', merge') → part out' = part out)
    {queue : PriorityQueue} {bufferSize : UInt32} {out out' : S}
    {merge merge' : Merge}
    (h : roundWith flushFile queue bufferSize out merge =
      some (out', merge')) : part out' = part out := by
  obtain ⟨⟨entry, pq⟩, _, h⟩ := Option.bind_eq_some_iff.mp h
  obtain ⟨⟨out'', merge''⟩, hconsume, h⟩ := Option.bind_eq_some_iff.mp h
  obtain ⟨pushed, _, h⟩ := Option.bind_eq_some_iff.mp h
  rw [Option.some.injEq, Prod.mk.injEq] at h
  rw [← h.1]
  simp only [consumeWith] at hconsume
  split_ifs at hconsume
  · rw [← (Prod.mk.inj (Option.some.inj hconsume)).1]
  · exact hkeeps hconsume
  · rw [← (Prod.mk.inj (Option.some.inj hconsume)).1]
  · rw [← (Prod.mk.inj (Option.some.inj hconsume)).1]

theorem keeps_finishWith (part : S → A)
    (hkeeps : ∀ {out merge out' merge'},
      flushFile out merge = some (out', merge') → part out' = part out)
    {out out' : S} {merge merge' : Merge}
    (h : finishWith flushFile out merge = some (out', merge')) :
    part out' = part out := by
  unfold finishWith at h
  split_ifs at h
  · rw [← (Prod.mk.inj (Option.some.inj h)).1]
  · exact hkeeps h

theorem limit_flushCompactedFile {build : Build} {iter : IterOrder}
    {levelId : Nat} {engine engine' : StorageEngine} {merge merge' : Merge}
    (h : flushCompactedFile build iter levelId engine merge =
      some (engine', merge')) :
    engine'.level0FilesNumberLimit = engine.level0FilesNumberLimit := by
  obtain ⟨⟨bytes, keyOffset⟩, _, h⟩ := Option.bind_eq_some_iff.mp h
  obtain ⟨file, _, h⟩ := Option.bind_eq_some_iff.mp h
  rw [Option.some.injEq, Prod.mk.injEq] at h
  rw [← h.1]
  rfl

end Merge

namespace EngineState

variable {state next : EngineState}

/-- A piece of a merge leaves the limit and the calls alone. -/
theorem merge_keeps {build : Build} {queue : PriorityQueue}
    {iter : IterOrder} {bufferSize : UInt32}
    (h : state.merge build queue iter bufferSize = some next) :
    next.engine.level0FilesNumberLimit =
        state.engine.level0FilesNumberLimit ∧
      next.due = state.due ∧ next.phase.compacts = state.phase.compacts := by
  unfold EngineState.merge at h
  split at h
  · rename_i level file hphase
    obtain ⟨⟨moved, engine⟩, hmove, h⟩ := Option.bind_eq_some_iff.mp h
    rw [← Option.some.inj h]
    exact ⟨limit_trivialMove hmove, by simp only [due, hphase],
      by simp only [Phase.compacts, hphase]⟩
  · rename_i level files hphase
    obtain ⟨merge, _, h⟩ := Option.bind_eq_some_iff.mp h
    rw [← Option.some.inj h]
    exact ⟨rfl, by simp only [due, hphase],
      by simp only [Phase.compacts, hphase]⟩
  · rename_i level files merge hphase
    split_ifs at h
    · obtain ⟨⟨engine, merge'⟩, hfinish, h⟩ := Option.bind_eq_some_iff.mp h
      rw [← Option.some.inj h]
      exact ⟨Merge.keeps_finishWith StorageEngine.level0FilesNumberLimit
        Merge.limit_flushCompactedFile hfinish, by simp only [due, hphase],
        by simp only [Phase.compacts, hphase]⟩
    · obtain ⟨⟨engine, merge'⟩, hround, h⟩ := Option.bind_eq_some_iff.mp h
      rw [← Option.some.inj h]
      exact ⟨Merge.keeps_roundWith StorageEngine.level0FilesNumberLimit
        Merge.limit_flushCompactedFile hround, by simp only [due, hphase],
        by simp only [Phase.compacts, hphase]⟩
  · exact absurd h (by simp)

end EngineState

/-- What the limits do to the tree: a level from 1 on is over its limit only
while its call is on the way, a call compacts a level over its limit, and calls
and files get no deeper than that. -/
structure ShapeInv (limit : Nat) (state : EngineState) : Prop where
  limit_eq : state.engine.level0FilesNumberLimit = limit
  excess : ∀ level, 1 ≤ level →
    limit * 10 ^ level < (state.engine.level level).length →
      level ∈ state.due
  exceeds : ∀ level ∈ state.phase.compacts,
    limit * 10 ^ level < (state.engine.level level).length
  due : ∀ level ∈ state.due, Shallow limit level
  reached : ∀ level, state.engine.level level ≠ [] → Shallow limit level

namespace ShapeInv

variable {limit : Nat} {transit : Option File} {state next : EngineState}

theorem start (limit : Nat) : ShapeInv limit (.start (.new limit)) where
  limit_eq := rfl
  excess := fun level _ hover => by
    simp [EngineState.start, StorageEngine.new, StorageEngine.level,
      LevelFiles.level] at hover
  exceeds := fun _ hlevel => by
    simp [EngineState.start, Phase.compacts] at hlevel
  due := fun _ hlevel => by
    simp [EngineState.start, EngineState.due] at hlevel
  reached := fun level hlevel => absurd (by
    simp [EngineState.start, StorageEngine.new, StorageEngine.level,
      LevelFiles.level]) hlevel

/-- Steps that leave the levels alone. -/
theorem same (h : ShapeInv limit state)
    (hlevels : next.engine.levelFiles = state.engine.levelFiles)
    (hlimit : next.engine.level0FilesNumberLimit =
      state.engine.level0FilesNumberLimit)
    (hover : ∀ level, 1 ≤ level → level ∈ state.due →
      limit * 10 ^ level < (state.engine.level level).length →
        level ∈ next.due)
    (hexceeds : ∀ level ∈ next.phase.compacts,
      limit * 10 ^ level < (state.engine.level level).length)
    (hdue : ∀ level ∈ next.due, Shallow limit level) :
    ShapeInv limit next := by
  have hlevel : ∀ i, next.engine.level i = state.engine.level i := fun i => by
    rw [StorageEngine.level, hlevels, StorageEngine.level]
  constructor
  · exact hlimit.trans h.limit_eq
  · intro i hi hlong
    rw [hlevel] at hlong
    exact hover i hi (h.excess i hi hlong) hlong
  · intro i hi
    rw [hlevel]
    exact hexceeds i hi
  · exact hdue
  · intro i hi
    rw [hlevel] at hi
    exact h.reached i hi

/-- Steps that leave the levels and the calls alone. -/
theorem same_calls (h : ShapeInv limit state)
    (hlevels : next.engine.levelFiles = state.engine.levelFiles)
    (hlimit : next.engine.level0FilesNumberLimit =
      state.engine.level0FilesNumberLimit)
    (hdue : next.due = state.due)
    (hcompacts : next.phase.compacts = state.phase.compacts) :
    ShapeInv limit next := by
  apply h.same hlevels hlimit
  · exact fun _ _ hlevel _ => hdue ▸ hlevel
  · rw [hcompacts]
    exact h.exceeds
  · rw [hdue]
    exact h.due

/-- A level over its limit lets a call one level down. -/
theorem shallow_succ (hlevels : LevelInv state.engine)
    (hids : state.engine.fileId < 10 ^ 8) {level : Nat}
    (hover : limit * 10 ^ level < (state.engine.level level).length) :
    Shallow limit (level + 1) := by
  have hle := hlevels.length_level_le_ids level
  right
  rw [Nat.add_sub_cancel]
  omega

theorem call (h : ShapeInv limit state)
    (hcall : state.call 0 = some next) : ShapeInv limit next := by
  unfold EngineState.call at hcall
  split_ifs at hcall with hidle
  rw [← Option.some.inj hcall]
  refine h.same rfl rfl ?_ ?_ ?_
  · intro level _ hlevel _
    simp [EngineState.due, hidle.2, hidle.1] at hlevel
  · intro level hlevel
    simp [hidle.2, Phase.compacts] at hlevel
  · intro level hlevel
    simp only [EngineState.due, hidle.2, List.mem_singleton] at hlevel
    exact Or.inl hlevel

theorem select (h : ShapeInv limit state)
    (hselect : state.select = some next) : ShapeInv limit next := by
  unfold EngineState.select at hselect
  split at hselect
  · rename_i level calls hphase hcalls
    have hdue : state.due = level :: calls := by
      simp only [EngineState.due, hphase, hcalls]
    split at hselect
    · -- The level that is given up is within its limit.
      rename_i hfiles
      rw [← Option.some.inj hselect]
      have hready : ({ state with calls } : EngineState).due = calls := by
        simp only [EngineState.due, hphase]
      refine h.same rfl rfl ?_ ?_ ?_
      · intro i hi hmem hlong
        rw [hdue, List.mem_cons] at hmem
        rw [hready]
        refine hmem.resolve_left ?_
        rintro rfl
        rw [compactFiles, h.limit_eq, if_neg (not_le.mpr hlong)] at hfiles
        cases hlevel : state.engine.level i with
        | nil => simp [hlevel] at hlong
        | cons first candidates => simp [hlevel] at hfiles
      · exact h.exceeds
      · intro i hi
        rw [hready] at hi
        exact h.due i (hdue ▸ List.mem_cons_of_mem _ hi)
    · rename_i files hfiles
      rw [← Option.some.inj hselect]
      refine h.same rfl rfl ?_ ?_ ?_
      · intro i _ hmem _
        rw [hdue] at hmem
        exact hmem
      · intro i hi
        rw [show i = level from (Option.mem_some_iff.mp hi).symm]
        by_contra hle
        rw [compactFiles, h.limit_eq, if_pos (not_lt.mp hle)] at hfiles
        cases hfiles
      · intro i hi
        exact h.due i (hdue ▸ hi)
  · exact absurd hselect (by simp)

theorem merge (h : ShapeInv limit state)
    (hsame : EngineInv.SameLevels state next)
    {build : Build} {queue : PriorityQueue} {iter : IterOrder}
    {bufferSize : UInt32}
    (hmerge : state.merge build queue iter bufferSize = some next) :
    ShapeInv limit next := by
  obtain ⟨hlimit, hdue, hcompacts⟩ := EngineState.merge_keeps hmerge
  exact h.same_calls hsame.levelFiles hlimit hdue hcompacts

theorem remove (h : ShapeInv limit state)
    (hremove : state.remove = some next) : ShapeInv limit next := by
  unfold EngineState.remove at hremove
  split at hremove
  · rename_i level file files hphase
    rw [← Option.some.inj hremove]
    refine h.same_calls rfl rfl ?_ ?_
    · simp only [EngineState.due, hphase]
    · simp only [Phase.compacts, hphase]
  · exact absurd hremove (by simp)

theorem finish (h : ShapeInv limit state)
    (hfinish : state.finish = some next) : ShapeInv limit next := by
  unfold EngineState.finish at hfinish
  split at hfinish
  · rename_i level hphase
    rw [← Option.some.inj hfinish]
    refine h.same_calls rfl rfl ?_ ?_
    · simp only [EngineState.due, hphase]
    · simp only [Phase.compacts, hphase]
  · exact absurd hfinish (by simp)

theorem newFile (h : ShapeInv limit state)
    (hnew : state.newFile = some next) : ShapeInv limit next := by
  unfold EngineState.newFile at hnew
  split at hnew
  · rw [← Option.some.inj hnew]
    exact h.same_calls rfl rfl rfl rfl
  · exact absurd hnew (by simp)

theorem write (h : ShapeInv limit state) {bytes : Bytes}
    (hwrite : state.write bytes = some next) : ShapeInv limit next := by
  unfold EngineState.write at hwrite
  split at hwrite
  · rw [← Option.some.inj hwrite]
    exact h.same_calls rfl rfl rfl rfl
  · exact absurd hwrite (by simp)

/-- A flushed file goes to level 0. -/
theorem addFile (h : ShapeInv limit state) (hinv : EngineInv state transit)
    (hids : state.engine.fileId < 10 ^ 8)
    (hadd : state.addFile = some next) : ShapeInv limit next := by
  obtain ⟨file, _, _, _, hfile, rfl, hafter⟩ := hinv.addFile hids hadd
  have hkept : ∀ i, 1 ≤ i → ∀ other,
      other ∈ (state.engine.installFile file).level i →
        other ∈ state.engine.level i := by
    intro i hi other hother
    rcases StorageEngine.mem_level_installFile.mp hother with
      ⟨_, hlevel⟩ | hother
    · omega
    · exact hother
  constructor
  · exact h.limit_eq
  · intro i hi hlong
    have hle := ((hafter.levels.nodup i).subperm (hkept i hi)).length_le
    exact h.excess i hi (hlong.trans_le hle)
  · intro i hi
    have hsub : state.engine.level i ⊆
        (state.engine.installFile file).level i := fun other hother =>
      StorageEngine.mem_level_installFile.mpr (Or.inr hother)
    have hle := ((hinv.levels.nodup i).subperm hsub).length_le
    exact (h.exceeds i hi).trans_le hle
  · exact h.due
  · intro i hne
    cases i with
    | zero => exact Or.inl rfl
    | succ i =>
        obtain ⟨other, hother⟩ := List.exists_mem_of_ne_nil _ hne
        exact h.reached (i + 1) (List.ne_nil_of_mem
          (hkept (i + 1) (by omega) other hother))

/-- The update of the maps changes two levels; both have a call after it. -/
theorem update (h : ShapeInv limit state) (hinv : EngineInv state transit)
    (hids : state.engine.fileId < 10 ^ 8)
    (hupdate : state.update = some next) : ShapeInv limit next := by
  obtain ⟨level, files, compacted, needRemoveFile, hphase, rfl, _, _⟩ :=
    hinv.update hupdate
  have hphaseInv := hinv.phase
  rw [hphase] at hphaseInv
  obtain ⟨⟨lo, hi, hsel⟩, hcompacted⟩ := hphaseInv
  obtain ⟨_, hplaced⟩ :=
    hcompacted.placed (EngineInv.inputs hinv.levels hsel).1
  have hshallow : Shallow limit (level + 1) := by
    apply shallow_succ hinv.levels hids
    apply h.exceeds
    rw [hphase]
    rfl
  have hdue : state.due = level :: state.calls := by
    simp only [EngineState.due, hphase]
  constructor
  · exact (StorageEngine.limit_updateMap _ _ _).trans h.limit_eq
  · intro i hi hlong
    change i ∈ level :: (level + 1) :: state.calls
    by_cases hsame : i = level ∨ i = level + 1
    · rcases hsame with rfl | rfl <;> simp
    · rw [not_or] at hsame
      change limit * 10 ^ i <
        ((state.engine.updateMap compacted files).level i).length at hlong
      rw [hinv.length_level_updateMap hphase hsame.1 hsame.2] at hlong
      have hmem := h.excess i hi hlong
      rw [hdue, List.mem_cons] at hmem
      simp [hmem.resolve_left hsame.1]
  · exact fun i hi => absurd hi (by simp [Phase.compacts])
  · intro i hi
    change i ∈ level :: (level + 1) :: state.calls at hi
    rw [List.mem_cons, List.mem_cons] at hi
    rcases hi with rfl | rfl | hi
    · exact h.due i (hdue ▸ List.mem_cons_self)
    · exact hshallow
    · exact h.due i (hdue ▸ List.mem_cons_of_mem _ hi)
  · intro i hne
    obtain ⟨other, hother⟩ := List.exists_mem_of_ne_nil _ hne
    rcases ((hinv.updateMap hphase).2 i other).mp hother with
      ⟨hmade, rfl⟩ | ⟨hkept, _⟩
    · rw [(hplaced other hmade).2.1]
      exact hshallow
    · exact h.reached i (List.ne_nil_of_mem hkept)

/-- A step of a compaction other than its update; calls from outside are for
level 0. -/
theorem compact (h : ShapeInv limit state) (hinv : EngineInv state transit)
    {bufferSize : UInt32} (hstep : CompactStep bufferSize state next)
    (hids : next.engine.fileId < 10 ^ 8)
    (hcalls : ∀ level, state.call level = some next → level = 0) :
    ShapeInv limit next := by
  have hsame := (hinv.compact hstep hids).2
  cases hstep with
  | call hcall =>
      rw [hcalls _ hcall] at hcall
      exact h.call hcall
  | select hselect => exact h.select hselect
  | merge hmerge => exact h.merge hsame hmerge
  | remove hremove => exact h.remove hremove
  | finish hfinish => exact h.finish hfinish

end ShapeInv

namespace DataBase

variable {db db' : DataBase}

/-- A call that enters `Compact` comes from the compaction thread, for level 0,
or from outside. -/
theorem level_of_call {act : Act} (hact : act.Compacts)
    (hstep : step act db = some db') {level : Nat}
    (hcall : db.store.call level = some db'.store) :
    act = .call level ∨ level = 0 := by
  unfold EngineState.call at hcall
  split_ifs at hcall with hidle
  have hafter : db'.store.calls = [level] := by
    rw [← Option.some.inj hcall]
  cases act with
  | compactCheck =>
      simp only [step] at hstep
      split at hstep
      · split_ifs at hstep
        · rw [← Option.some.inj hstep] at hafter
          simp [hidle.1] at hafter
        · obtain ⟨store, hstore, hstep⟩ := Option.bind_eq_some_iff.mp hstep
          rw [← Option.some.inj hstep] at hafter
          simp only [EngineState.call, if_pos hidle, Option.some.injEq]
            at hstore
          rw [← hstore] at hafter
          simp only [List.cons.injEq, and_true] at hafter
          exact Or.inr hafter.symm
      · exact absurd hstep (by simp)
  | call levelId =>
      obtain ⟨store, hstore, hstep⟩ := Option.map_eq_some_iff.mp hstep
      rw [← hstep] at hafter
      simp only [EngineState.call, if_pos hidle, Option.some.injEq] at hstore
      rw [← hstore] at hafter
      simp only [List.cons.injEq, and_true] at hafter
      exact Or.inl (by rw [hafter])
  | select => simp [step, onStore, EngineState.select, hidle] at hstep
  | merge queue iter =>
      simp [step, onStore, EngineState.merge, hidle] at hstep
  | remove => simp [step, onStore, EngineState.remove, hidle] at hstep
  | finish => simp [step, onStore, EngineState.finish, hidle] at hstep
  | _ => exact absurd hact id

end DataBase

/-- One step of any thread. -/
theorem ShapeInv.step {limit : Nat} {transit : Option File}
    {db db' : DataBase} (h : ShapeInv limit db.store)
    (hinv : StoreInv db transit) {act : Act}
    (hcalls : ∀ level, act = .call level → level = 0)
    (hstep : DataBase.step act db = some db') (hids : db.IdsFit)
    (hids' : db'.IdsFit) : ShapeInv limit db'.store := by
  cases DataBase.step_data hstep with
  | control _ hsame => exact hsame.store ▸ h
  | add _ _ => exact h
  | getFiles hget =>
      obtain ⟨cache, rfl⟩ := DataBase.getFiles_eq hget
      exact h
  | clearCache => exact h
  | newFile _ hstore => exact h.newFile hstore
  | write _ _ hstore => exact h.write hstore
  | clear _ _ => exact h
  | cacheSet _ _ => exact h
  | addFile _ hstore => exact h.addFile hinv.engine hids hstore
  | compact hact hcompact =>
      apply h.compact hinv.engine hcompact hids'
      intro level hcall
      rcases DataBase.level_of_call hact hstep hcall with rfl | rfl
      · exact hcalls level rfl
      · rfl
  | update hupdate => exact h.update hinv.engine hids hupdate

namespace DataBase

theorem exists_shapeInv {bufferSize : UInt32} {cache : LRUCache}
    {limit : Nat} {acts : List Act} {db : DataBase}
    (hcalls : ∀ level, Act.call level ∈ acts → level = 0)
    (hrun : Reaches IdsFit (.start bufferSize cache (.new limit)) acts db) :
    ∃ transit, StoreInv db transit ∧ ShapeInv limit db.store := by
  induction hrun with
  | start _ =>
      exact ⟨none, .start bufferSize cache limit, .start limit⟩
  | @step acts act last next hrun hstep hids ih =>
      obtain ⟨transit, hinv, hshape⟩ := ih fun level hlevel =>
        hcalls level (List.mem_append_left _ hlevel)
      obtain ⟨transit', hnext⟩ := hinv.step hstep hids
      refine ⟨transit', hnext, hshape.step hinv ?_ hstep hrun.last hids⟩
      rintro level rfl
      exact hcalls level (List.mem_append_right _ List.mem_cons_self)

/-- In every state of every run over a new store with at least one file allowed
in level 0: the limits of all `Compact` calls on the way are computed within an
`int`; a level from 1 on is over its limit only while its call is on the way;
no file lies below level 8; and a `Get` visits at most eight files besides
those of level 0. -/
theorem tree_shape (bufferSize : UInt32) (cache : LRUCache) {limit : Nat}
    (hpos : 1 ≤ limit) (hlimit : limit < 2 ^ 31) {acts : List Act}
    {db : DataBase} (hcalls : ∀ level, Act.call level ∈ acts → level = 0)
    (hrun : Reaches IdsFit (.start bufferSize cache (.new limit)) acts db) :
    (∀ level ∈ db.store.due,
      levelLimit db.store.engine.level0FilesNumberLimit level =
        some (limit * 10 ^ level)) ∧
    (∀ level, 1 ≤ level →
      limit * 10 ^ level < (db.store.engine.level level).length →
        level ∈ db.store.due) ∧
    (∀ level, db.store.engine.level level ≠ [] → level ≤ 8) ∧
    ∀ key, (db.store.engine.getContainsFiles key).flatten.length ≤
      (db.store.engine.level 0).length + 8 := by
  obtain ⟨transit, hinv, hshape⟩ := exists_shapeInv hcalls hrun
  have hdeepest : ∀ level, db.store.engine.level level ≠ [] → level ≤ 8 :=
    fun level hlevel => (hshape.reached level hlevel).le_eight hpos
  refine ⟨fun level hlevel => ?_, hshape.excess, hdeepest, fun key => ?_⟩
  · rw [hshape.limit_eq]
    exact (hshape.due level hlevel).levelLimit_eq hpos hlimit
  · exact hinv.engine.levels.length_getContainsFiles_le hdeepest key

/-- A call on level 1 is on the way, and the key is in one file of it. -/
theorem tree_shape_two_versions :
    ∃ db, Reaches IdsFit tiny
        (twoVersions ++ [.call 0] ++ oneCompaction fourMerges) db ∧
      1 ∈ db.store.due ∧
      levelLimit db.store.engine.level0FilesNumberLimit 1 = some (1 * 10 ^ 1) ∧
      (db.store.engine.getContainsFiles [97]).flatten.length ≤
        (db.store.engine.level 0).length + 8 := by
  obtain ⟨db, hrun, hdue⟩ := exists_reaches
    (show Along (fun db _ => db.IdsFit)
      (twoVersions ++ [.call 0] ++ oneCompaction fourMerges) tiny by
        decide +kernel)
    (show (run (twoVersions ++ [.call 0] ++ oneCompaction fourMerges)
      tiny).any (fun db => decide (db.IdsFit ∧ 1 ∈ db.store.due)) = true by
        decide +kernel)
  have hshape := tree_shape 0 (.empty 1 (by decide)) (le_refl 1)
    (by decide) (fun level hlevel => by
      simpa [twoVersions, writeAndFlush, oneCompaction, fourMerges]
        using hlevel) hrun
  exact ⟨db, hrun, hdue, hshape.1 1 hdue, hshape.2.2.2 [97]⟩

end DataBase

end SimpleKV
