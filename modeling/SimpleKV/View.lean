/-
What a compaction does to the contents of the store.  The files it makes
replace the files it took; a tombstone is dropped on the way, and with it the
only thing that may hide an older version in a deeper level.
-/
import SimpleKV.StoreInvariant

namespace SimpleKV

namespace DataBase

/-- All ids and all file sizes are in range. -/
def InRange (db : DataBase) : Prop :=
  db.IdsFit ∧ ∀ file ∈ db.store.engine.folder.entries, file.2.length < 2 ^ 32

instance : DecidablePred InRange := fun db =>
  inferInstanceAs (Decidable (db.IdsFit ∧ _))

end DataBase

namespace EngineInv

variable {state : EngineState} {transit : Option File}

theorem small_of_lookup {folder : Folder}
    (hsizes : ∀ file ∈ folder.entries, file.2.length < 2 ^ 32) {name : Name}
    {bytes : Bytes} (hlookup : folder.lookup name = some bytes) :
    bytes.length < 2 ^ 32 :=
  hsizes ⟨name, bytes⟩ (AList.mem_lookup_iff.mp hlookup)

/-- Every file the engine knows of is in the folder, under its name or under the
one a trivial move gave it. -/
theorem small (h : EngineInv state transit)
    (hsizes : ∀ file ∈ state.engine.folder.entries, file.2.length < 2 ^ 32)
    {file : File}
    (hfile : file ∈ state.engine.files ∨ file ∈ state.phase.extra) :
    file.Small := by
  have hknown : ∀ other, other ∈ state.engine.files ∨
      other ∈ state.phase.extra → other ∉ state.phase.renamed →
        other.Small := fun other hother hnot =>
    small_of_lookup hsizes ((h.folder other.fileName other.mmap).mpr
      (Or.inl ⟨other, hother, hnot, rfl, rfl⟩))
  by_cases hrenamed : file ∈ state.phase.renamed
  · cases hphase : state.phase with
    | merged level files compactedFiles needRemoveFile =>
        cases needRemoveFile with
        | true => simp [Phase.renamed, hphase] at hrenamed
        | false =>
            have hinv := h.phase
            rw [hphase] at hinv
            obtain ⟨_, old, moved, rfl, rfl, hmoved⟩ := hinv
            rw [hphase] at hrenamed
            have hfile' : file = old := List.mem_singleton.mp hrenamed
            have hextra : moved ∈ state.phase.extra := by
              rw [hphase]
              exact List.mem_singleton.mpr rfl
            have hsmall := hknown moved (Or.inr hextra) (by
              rw [hphase]
              intro hmem
              have hid := hmoved.newer
              rw [List.mem_singleton.mp hmem] at hid
              exact lt_irrefl _ hid)
            rw [File.Small, hmoved.mmap, ← hfile'] at hsmall
            exact hsmall
    | ready => simp [Phase.renamed, hphase] at hrenamed
    | selected _ _ => simp [Phase.renamed, hphase] at hrenamed
    | merging _ _ _ => simp [Phase.renamed, hphase] at hrenamed
    | removing _ _ => simp [Phase.renamed, hphase] at hrenamed
  · exact hknown file hfile hrenamed

theorem small_transit (h : EngineInv state transit)
    (hsizes : ∀ file ∈ state.engine.folder.entries, file.2.length < 2 ^ 32)
    {file : File} (hfile : file ∈ transit) : file.Small :=
  small_of_lookup hsizes ((h.folder file.fileName file.mmap).mpr
    (Or.inr (Or.inr ⟨file, hfile, rfl, rfl⟩)))

end EngineInv

/-- Values a compaction drops. -/
def Dropped (needRemoveFile : Bool) (value : Bytes) : Prop :=
  needRemoveFile = true ∧ value = tombValue

theorem before_total {file other : File} (hid : file.fileId ≠ other.fileId) :
    fileLayout.Before file other ∨ fileLayout.Before other file := by
  simp only [Recency.Layout.Before, fileLayout]
  omega

theorem Moved.get_eq {level : Nat} {top : Int} {file moved : File}
    (h : Moved level top file moved) (hstored : file.Stored top)
    (hsmall : file.Small) (key : Bytes) : moved.get key = file.get key := by
  obtain ⟨entries, hholds, _⟩ := hstored.holds
  have hsmall' : moved.Small := by
    rw [File.Small, h.mmap]
    exact hsmall
  rw [File.get, File.get, hholds.scan_eq hsmall,
    (h.holds hholds).scan_eq hsmall']

/-- Chosen files and the files kept beside them, for one key. -/
theorem Selection.kept_before {engine : StorageEngine} {level : Nat}
    {files : List File} {lo hi : Bytes}
    (hsel : Selection engine level files lo hi) (hinv : LevelInv engine)
    {key : Bytes} (hinput : ∃ input ∈ files, input.get key ≠ none)
    {other : File} (hother : other ∈ engine.files) (hnot : other ∉ files)
    (hget : other.get key ≠ none) :
    (other.levelId ≤ level ∧ ∀ input ∈ files, input.get key ≠ none →
      fileLayout.Before other input) ∨ level + 1 < other.levelId := by
  have hstored := hinv.stored other hother
  rcases lt_trichotomy other.levelId (level + 1) with hlt | heq | hgt
  · left
    refine ⟨by omega, fun input hin hgetIn => ?_⟩
    have hinputStored := hinv.stored input (hsel.live input hin)
    rcases hsel.level_eq hin with hlevel | hlevel
    · rcases Nat.lt_or_ge other.levelId level with hshallow | hsame
      · exact Or.inl (by change other.levelId < input.levelId; omega)
      · have hmem : other ∈ engine.level level :=
          hinv.mem_level_iff.mpr ⟨hother, by omega⟩
        rcases hsel.kept other hmem hnot input hin hlevel with hapart | hnewer
        · exact absurd (hapart.not_both hinputStored hstored hgetIn) hget
        · exact Or.inr ⟨by change other.levelId = input.levelId; omega, hnewer⟩
    · exact Or.inl (by change other.levelId < input.levelId; omega)
  · -- A kept file of the next level lies beside all chosen files.
    obtain ⟨input, hin, hgetIn⟩ := hinput
    have hinputStored := hinv.stored input (hsel.live input hin)
    have hmem : other ∈ engine.level (level + 1) :=
      hinv.mem_level_iff.mpr ⟨hother, heq⟩
    have hapart : Apart input other := by
      rcases hsel.beside hinv hmem hnot with hbelow | habove
      · exact Or.inr (hbelow input hin)
      · exact Or.inl (habove input hin)
    exact absurd (hapart.not_both hinputStored hstored hgetIn) hget
  · exact Or.inr hgt

/-- A finished compaction is ready to replace its inputs by its outputs. -/
theorem EngineInv.replaces {state : EngineState} {transit : Option File}
    (h : EngineInv state transit)
    (hsizes : ∀ file ∈ state.engine.folder.entries, file.2.length < 2 ^ 32)
    {level : Nat} {files compactedFiles : List File} {needRemoveFile : Bool}
    (hphase : state.phase = .merged level files compactedFiles needRemoveFile)
    (key : Bytes) :
    fileLayout.Replaces (Dropped needRemoveFile) level
      {file | file ∈ state.engine.files} {file | file ∈ files}
      {file | file ∈ compactedFiles} key := by
  have hinv := h.phase
  rw [hphase] at hinv
  obtain ⟨⟨lo, hi, hsel⟩, hcompacted⟩ := hinv
  have hinputs := (EngineInv.inputs h.levels hsel).1
  obtain ⟨hpairwise, hplaced⟩ := hcompacted.placed hinputs
  have hextra : ∀ made ∈ compactedFiles, made ∈ state.phase.extra := by
    rw [hphase]
    exact fun made hmade => hmade
  have htotal : ∀ a ∈ files, ∀ b ∈ files, a ≠ b →
      fileLayout.Before a b ∨ fileLayout.Before b a := fun a ha b hb hne =>
    before_total fun hid => hne (hinputs.ids a ha b hb hid)
  refine ⟨hsel.live, ?_, fun made hmade => (hplaced made hmade).2.1, ?_, ?_,
    ?_, ?_, ?_⟩
  · intro input hin
    rcases hsel.level_eq hin with hlevel | hlevel <;>
      change input.levelId ≤ level + 1 <;> omega
  · exact fun hinput other hother hnot hget =>
      hsel.kept_before h.levels hinput hother hnot hget
  · rintro ⟨input, hin, hget⟩
    rcases Recency.Layout.absent_or_reads files htotal key with habsent | hreads
    · exact absurd (habsent input hin) hget
    · exact hreads
  · intro made hmade value hget
    cases needRemoveFile with
    | true =>
        obtain ⟨chunks, houtputs, _⟩ := hcompacted
        obtain ⟨hreads, hlive⟩ := houtputs.sound hinputs hmade hget
        exact ⟨hreads, fun hdead => hlive hdead.2⟩
    | false =>
        obtain ⟨file, moved, rfl, rfl, hmoved⟩ := hcompacted
        have hsmall := h.small hsizes (Or.inl (hsel.live file
          (List.mem_singleton.mpr rfl)))
        change made.get key = some value at hget
        rw [List.mem_singleton.mp hmade, hmoved.get_eq
          (hinputs.stored file (List.mem_singleton.mpr rfl)) hsmall] at hget
        refine ⟨⟨file, ⟨List.mem_singleton.mpr rfl, ?_, ?_⟩, hget⟩,
          fun hdead => absurd hdead.1 (by simp)⟩
        · change file.get key ≠ none
          rw [hget]
          simp
        · exact fun other hother _ => Or.inl (List.mem_singleton.mp hother)
  · intro value hreads hlive
    cases needRemoveFile with
    | true =>
        exact Merge.Merged.complete hcompacted hinputs
          (fun made hmade => h.small hsizes (Or.inr (hextra made hmade)))
          hreads fun hdead => hlive ⟨rfl, hdead⟩
    | false =>
        obtain ⟨file, moved, rfl, rfl, hmoved⟩ := hcompacted
        have hsmall := h.small hsizes (Or.inl (hsel.live file
          (List.mem_singleton.mpr rfl)))
        obtain ⟨input, hstop, hget⟩ := hreads
        change input.get key = some value at hget
        rw [List.mem_singleton.mp hstop.mem] at hget
        refine ⟨moved, List.mem_singleton.mpr rfl, ?_⟩
        change moved.get key = some value
        rw [hmoved.get_eq (hinputs.stored file (List.mem_singleton.mpr rfl))
          hsmall, hget]
  · intro made hmade other hother hget hget'
    by_contra hne
    have hapart := hpairwise.forall hmade hother hne
    exact absurd (hapart.not_both (hplaced made hmade).1
      (hplaced other hother).1 hget) hget'

/-- The value of a key in the files: no entry and a tombstone both count as
absent. -/
def StorageEngine.view (key : Bytes) (engine : StorageEngine) : Option Bytes :=
  (engine.lookup key).filter fun value => decide (value ≠ tombValue)

theorem Searchable.view_eq_some_iff {engine : StorageEngine}
    (h : Searchable engine) {key value : Bytes} :
    engine.view key = some value ↔
      fileLayout.Reads {file | file ∈ engine.files} key value ∧
        value ≠ tombValue := by
  rw [StorageEngine.view, Option.filter_eq_some_iff, h.lookup_eq_some_iff]
  simp

/-- The compaction of `files` from `level` exposes an older version of `key`:
it is a merge, the newest version of the key is a tombstone in one of the
files, and the levels below the output hold a value. -/
def StorageEngine.Exposes (engine : StorageEngine) (level : Nat)
    (files : List File) (key : Bytes) : Prop :=
  1 < files.length ∧ fileLayout.Resurrects (fun value => value = tombValue)
    level {file | file ∈ engine.files} {file | file ∈ files} key

/-- The update of the maps keeps the view of a key unless it exposes an older
version. -/
theorem EngineInv.view_update {state state' : EngineState}
    {transit : Option File} (h : EngineInv state transit)
    (hsizes : ∀ file ∈ state.engine.folder.entries, file.2.length < 2 ^ 32)
    {level : Nat} {files compactedFiles : List File} {needRemoveFile : Bool}
    (hphase : state.phase = .merged level files compactedFiles needRemoveFile)
    (hremove : needRemoveFile = true ↔ 1 < files.length)
    (hstep : state.update = some state') (key : Bytes) :
    state'.engine.view key = state.engine.view key ↔
      ¬ state.engine.Exposes level files key := by
  obtain ⟨level', files', compactedFiles', needRemoveFile', hphase', _, hfiles,
    hafter⟩ := h.update hstep
  rw [hphase, Phase.merged.injEq] at hphase'
  obtain ⟨rfl, rfl, rfl, rfl⟩ := hphase'
  have hreplaces := h.replaces hsizes hphase key
  have hset : {file | file ∈ state'.engine.files} =
      {file | file ∈ state.engine.files} \ {file | file ∈ files} ∪
        {file | file ∈ compactedFiles} := by
    ext file
    change file ∈ state'.engine.files ↔
      (file ∈ state.engine.files ∧ file ∉ files) ∨ file ∈ compactedFiles
    rw [hfiles, or_comm]
  have hview : state'.engine.view key = state.engine.view key ↔
      ∀ value, fileLayout.Reads {file | file ∈ state'.engine.files} key value ∧
          value ≠ tombValue ↔
        fileLayout.Reads {file | file ∈ state.engine.files} key value ∧
          value ≠ tombValue := by
    simp only [← hafter.levels.searchable.view_eq_some_iff,
      ← h.levels.searchable.view_eq_some_iff]
    exact ⟨fun heq value => by rw [heq], fun hsame => Option.ext hsame⟩
  rw [hview, hset, StorageEngine.Exposes]
  have hkeeps := hreplaces.live_reads_iff
  cases needRemoveFile with
  | true =>
      have hdead : Dropped true = fun value => value = tombValue := by
        funext value
        simp [Dropped]
      rw [hdead] at hkeeps
      rw [hkeeps]
      simp [hremove.mp rfl]
  | false =>
      -- A trivial move drops nothing.
      have hnone : ¬ fileLayout.Resurrects (Dropped false) level
          {file | file ∈ state.engine.files} {file | file ∈ files} key := by
        rintro ⟨⟨_, _, _, _, _, hdead⟩, _⟩
        exact absurd hdead.1 (by simp)
      have hsame := hkeeps.mpr hnone
      have hone : ¬ 1 < files.length := fun hlong =>
        absurd (hremove.mpr hlong) (by simp)
      refine iff_of_true (fun value => ?_) (fun hexposes => hone hexposes.1)
      have hvalue := hsame value
      simp only [Dropped, Bool.false_eq_true, false_and, not_false_eq_true,
        and_true] at hvalue
      rw [hvalue]

/-- A compaction on its way from the choice of `files` to the update. -/
def Underway (level : Nat) (files : List File) (state : EngineState) : Prop :=
  state.phase = .selected level files ∨
    (∃ merge, state.phase = .merging level files merge ∧
      1 < files.length) ∨
    ∃ compactedFiles needRemoveFile,
      state.phase = .merged level files compactedFiles needRemoveFile ∧
        (needRemoveFile = true ↔ 1 < files.length)

/-- `Compact` makes a choice when its level is over the limit. -/
theorem select_cases {level : Nat} {state selected : EngineState}
    (hinv : LevelInv state.engine) (hcalls : state.calls.head? = some level)
    (hselect : state.select = some selected) :
    selected.engine = state.engine ∧ selected.flight = state.flight ∧
      (selected.phase = .ready ∨ ∃ files,
        compactFiles state.engine level = some files ∧ files ≠ [] ∧
          Underway level files selected) := by
  unfold EngineState.select at hselect
  split at hselect
  · rename_i levelId calls _ hcalls'
    rw [hcalls', List.head?_cons, Option.some.injEq] at hcalls
    subst hcalls
    cases hfiles : compactFiles state.engine levelId with
    | none =>
        simp only [hfiles, Option.some.injEq] at hselect
        subst hselect
        rename_i hready
        exact ⟨rfl, rfl, Or.inl hready⟩
    | some files =>
        simp only [hfiles, Option.some.injEq] at hselect
        subst hselect
        obtain ⟨lo, hi, hsel⟩ := exists_selection hinv hfiles
        obtain ⟨file, hfile, _⟩ := hsel.exists_level
        exact ⟨rfl, rfl,
          Or.inr ⟨files, rfl, List.ne_nil_of_mem hfile, Or.inl rfl⟩⟩
  · exact absurd hselect (by simp)

/-- Merging steps stay on the way. -/
theorem Underway.merge {level : Nat} {files : List File}
    {state state' : EngineState} (h : Underway level files state)
    (hne : files ≠ []) {build : Build} {queue : PriorityQueue}
    {iter : IterOrder} {bufferSize : UInt32}
    (hstep : state.merge build queue iter bufferSize = some state') :
    Underway level files state' := by
  rcases h with hphase | ⟨merge, hphase, hlong⟩ | ⟨_, _, hphase, _⟩
  · match files, hphase, hne with
    | [file], hphase, _ =>
        simp only [EngineState.merge, hphase] at hstep
        obtain ⟨⟨moved, engine⟩, _, hstate⟩ := Option.bind_eq_some_iff.mp hstep
        rw [← Option.some.inj hstate]
        exact Or.inr (Or.inr ⟨[moved], false, rfl, by simp⟩)
    | first :: second :: rest, hphase, _ =>
        simp only [EngineState.merge, hphase] at hstep
        obtain ⟨merge, _, hstate⟩ := Option.bind_eq_some_iff.mp hstep
        rw [← Option.some.inj hstate]
        exact Or.inr (Or.inl ⟨merge, rfl, by simp⟩)
  · simp only [EngineState.merge, hphase] at hstep
    split_ifs at hstep
    · obtain ⟨⟨engine, after⟩, _, hstate⟩ := Option.bind_eq_some_iff.mp hstep
      rw [← Option.some.inj hstate]
      exact Or.inr (Or.inr ⟨after.compactedFiles, true, rfl, by simp [hlong]⟩)
    · obtain ⟨⟨engine, after⟩, _, hstate⟩ := Option.bind_eq_some_iff.mp hstep
      rw [← Option.some.inj hstate]
      exact Or.inr (Or.inl ⟨after, rfl, hlong⟩)
  · simp [EngineState.merge, hphase] at hstep

namespace DataBase

/-- One compaction, for the next pending call, up to its update of the maps. -/
def oneCompaction (merges : List (PriorityQueue × IterOrder)) : List Act :=
  .select :: merges.map (fun m => .merge m.1 m.2) ++ [.update]

/-- The same, with its call. -/
def compaction (level : Nat) (merges : List (PriorityQueue × IterOrder)) :
    List Act :=
  .call level :: oneCompaction merges

/-- Before the update the levels are as they were, and a choice was made if the
level was over its limit. -/
theorem reaches_merges {bufferSize : UInt32} {cache : LRUCache} {limit : Nat}
    {acts : List Act} {before : DataBase}
    (hbefore : Reaches InRange (.start bufferSize cache (.new limit)) acts
      before) {level : Nat} (hcalls : before.store.calls.head? = some level)
    (merges : List (PriorityQueue × IterOrder)) {last : DataBase}
    (hrun : Reaches InRange before
      (.select :: merges.map fun m => .merge m.1 m.2) last) :
    last.store.engine.levelFiles = before.store.engine.levelFiles ∧
      last.store.flight = before.store.flight ∧
      (last.store.phase = .ready ∨ ∃ files,
        compactFiles before.store.engine level = some files ∧
          files ≠ [] ∧ Underway level files last.store) := by
  have hinv : ∀ {more : List Act} {db : DataBase},
      Reaches InRange before more db → ∃ transit, StoreInv db transit :=
    fun hmore => exists_storeInv (fun _ h => h.1) (hbefore.trans hmore)
  induction merges using List.reverseRecOn generalizing last with
  | nil =>
      obtain ⟨selected, hselect, hlast⟩ := hrun.cons
      rw [hlast.nil]
      obtain ⟨store, hselected, rfl⟩ := Option.map_eq_some_iff.mp hselect
      obtain ⟨transit, hinv⟩ := hinv (.start hrun.first)
      obtain ⟨hengine, hflight, hphase⟩ :=
        select_cases hinv.engine.levels hcalls hselected
      exact ⟨congrArg StorageEngine.levelFiles hengine, hflight, hphase⟩
  | append_singleton merges m ih =>
      rw [List.map_append, List.map_cons, List.map_nil,
        ← List.cons_append] at hrun
      obtain ⟨middle, hmiddle, hmerge⟩ := hrun.snoc
      obtain ⟨hlevels, hflight, hphase⟩ := ih hmiddle
      obtain ⟨transit, hstore⟩ := hinv hmiddle
      obtain ⟨store, hmerged, rfl⟩ := Option.map_eq_some_iff.mp hmerge
      obtain ⟨_, hsame⟩ := hstore.engine.merge hmerged hrun.last.1
      refine ⟨hsame.levelFiles.trans hlevels, hsame.flight.trans hflight, ?_⟩
      rcases hphase with hready | ⟨files, hfiles, hne, hunderway⟩
      · simp [EngineState.merge, hready] at hmerged
      · exact Or.inr ⟨files, hfiles, hne, hunderway.merge hne hmerged⟩

theorem lookup_congr {engine engine' : StorageEngine}
    (h : engine'.levelFiles = engine.levelFiles) (key : Bytes) :
    engine'.lookup key = engine.lookup key := by
  rw [StorageEngine.lookup, StorageEngine.getContainsFiles, h]
  rfl

/-- A compaction leaves the view of every key unchanged exactly when it merges
no tombstone that hides a value below its output level.  A trivial move always
does. -/
theorem compaction_keeps_view_iff (bufferSize : UInt32) (cache : LRUCache)
    (limit : Nat) {acts : List Act} {before after : DataBase}
    (hbefore : Reaches InRange (.start bufferSize cache (.new limit)) acts
      before) {level : Nat} (hcalls : before.store.calls.head? = some level)
    (merges : List (PriorityQueue × IterOrder))
    (hcompact : Reaches InRange before (oneCompaction merges) after) :
    ∃ files, compactFiles before.store.engine level = some files ∧
      ((∀ key, after.store.engine.view key = before.store.engine.view key) ↔
        ∀ key, ¬ before.store.engine.Exposes level files key) := by
  obtain ⟨last, hlast, hupdate⟩ := hcompact.snoc
  obtain ⟨hlevels, _, hphase⟩ := reaches_merges hbefore hcalls merges hlast
  obtain ⟨transit, hstore⟩ := exists_storeInv (fun _ h => h.1)
    (hbefore.trans hlast)
  obtain ⟨store, hupdated, rfl⟩ := Option.map_eq_some_iff.mp hupdate
  rcases hphase with hready | ⟨files, hfiles, _, hunderway⟩
  · simp [EngineState.update, hready] at hupdated
  · rcases hunderway with hphase | ⟨_, hphase, _⟩ |
      ⟨compactedFiles, needRemoveFile, hphase, hremove⟩
    · simp [EngineState.update, hphase] at hupdated
    · simp [EngineState.update, hphase] at hupdated
    · have hview : ∀ key, last.store.engine.view key =
          before.store.engine.view key := fun key => by
        rw [StorageEngine.view, lookup_congr hlevels]
        rfl
      have hexposes : ∀ key, last.store.engine.Exposes level files key ↔
          before.store.engine.Exposes level files key := fun key => by
        rw [StorageEngine.Exposes, StorageEngine.Exposes, StorageEngine.files,
          hlevels, StorageEngine.files]
      refine ⟨files, hfiles, forall_congr' fun key => ?_⟩
      rw [← hview key, ← hexposes key]
      exact hstore.engine.view_update hlast.last.2 hphase hremove hupdated key

/-- A store with empty buffers of size 0 and one file allowed in level 0. -/
def tiny : DataBase :=
  .start 0 (.empty 1 (by decide)) (.new 1)

/-- Two versions of one key in two files of level 0. -/
def twoVersions : List Act :=
  writeAndFlush .put [97] [1] ++ writeAndFlush .put [97] [2]

def fourMerges : List (PriorityQueue × IterOrder) :=
  List.replicate 4 (.sorted, .inOrder)

theorem compaction_keeps_view_iff_two_versions :
    ∃ before after files, Reaches InRange tiny (twoVersions ++ [.call 0])
        before ∧
      Reaches InRange before (oneCompaction fourMerges) after ∧
      compactFiles before.store.engine 0 = some files ∧
      ((∀ key, after.store.engine.view key = before.store.engine.view key) ↔
        ∀ key, ¬ before.store.engine.Exposes 0 files key) := by
  obtain ⟨before, hbefore, hcalls, halong, hafter⟩ := exists_reaches
    (show Along (fun db _ => db.InRange) (twoVersions ++ [.call 0]) tiny by
      decide +kernel)
    (show (run (twoVersions ++ [.call 0]) tiny).any (fun before =>
      decide (before.InRange ∧ before.store.calls.head? = some 0 ∧
      Along (fun db _ => db.InRange) (oneCompaction fourMerges) before ∧
      (run (oneCompaction fourMerges) before).any (fun after =>
        decide (after.InRange ∧ True)) = true)) = true by decide +kernel)
  obtain ⟨after, hcompact, _⟩ := exists_reaches halong hafter
  obtain ⟨files, hfiles, hiff⟩ := compaction_keeps_view_iff 0
    (.empty 1 (by decide)) 1 hbefore hcalls fourMerges hcompact
  exact ⟨before, after, files, hbefore, hcompact, hfiles, hiff⟩

/-- Eleven keys and a second version of the first. -/
def elevenKeys : List Act :=
  [97, 98, 99, 100, 101, 102, 103, 104, 105, 106].map
    (fun key => .add .put [key] [1]) ++
    writeAndFlush .put [107] [1] ++ writeAndFlush .put [97] [2]

/-- A compaction that fills level 1 with eleven files, and the trivial move of
the first of them to level 2. -/
def spread : List Act :=
  .call 0 :: .select :: List.replicate 14 (.merge .sorted .inOrder) ++
    [.update, .remove, .remove, .finish, .select, .select,
      .merge .sorted .inOrder, .update, .finish, .select, .select]

def deleteTwice : List Act :=
  writeAndFlush .delete [97] [] ++ writeAndFlush .delete [97] []

/-- The merge of the two tombstones makes the deleted key readable again. -/
theorem compaction_exposes_deleted_key :
    ∃ before after,
      Reaches InRange tiny (elevenKeys ++ spread ++ deleteTwice) before ∧
      Reaches InRange before (compaction 0 fourMerges) after ∧
      before.store.engine.view [97] = none ∧
      after.store.engine.view [97] = some [2] := by
  obtain ⟨before, hbefore, halong, hview, hafter⟩ := exists_reaches
    (show Along (fun db _ => db.InRange)
      (elevenKeys ++ spread ++ deleteTwice) tiny by decide +kernel)
    (show (run (elevenKeys ++ spread ++ deleteTwice) tiny).any
      (fun before => decide (before.InRange ∧
        Along (fun db _ => db.InRange) (compaction 0 fourMerges) before ∧
        before.store.engine.view [97] = none ∧
        (run (compaction 0 fourMerges) before).any (fun after =>
          decide (after.InRange ∧
            after.store.engine.view [97] = some [2])) = true)) = true by
      decide +kernel)
  obtain ⟨after, hcompact, hview'⟩ := exists_reaches halong hafter
  exact ⟨before, after, hbefore, hcompact, hview, hview'⟩

end DataBase

end SimpleKV
