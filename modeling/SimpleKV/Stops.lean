/-
A process that stops in the middle of a compaction.  The folder then holds some
of the inputs and some of the outputs, and the constructor takes them all in.
Old and new files agree, except where the removal of a newer level-0 input has
left an older one behind.
-/
import SimpleKV.Reopen
import SimpleKV.View

namespace SimpleKV

/-- The files an interrupted compaction of `files` leaves on disk: those of the
levels without the inputs `gone`, and the outputs `made`. -/
structure Leaves (engine : StorageEngine) (level : Nat)
    (files gone made : List File) (state : EngineState) : Prop where
  disk : ∀ file, file ∈ state.disk ↔
    (file ∈ engine.files ∧ file ∉ gone) ∨ file ∈ made
  subset : ∀ file ∈ gone, file ∈ files
  newer : ∀ file ∈ made, ∀ input ∈ files, input.fileId < file.fileId
  interrupted : ∀ key, (∀ file ∈ engine.files,
      file.get key ≠ some tombValue) →
    fileLayout.Interrupted level {file | file ∈ engine.files}
      {file | file ∈ files} {file | file ∈ gone} {file | file ∈ made} key

theorem LevelInv.exists_reads {engine : StorageEngine} (h : LevelInv engine)
    {key : Bytes} (U : Set File) (hU : U ⊆ {file | file ∈ engine.files})
    (hhas : ∃ file ∈ U, fileLayout.get file key ≠ none) :
    ∃ value, fileLayout.Reads U key value :=
  Recency.Layout.exists_reads engine.files (fun a ha b hb hne =>
    before_total fun hid => hne (h.ids a ha b hb hid)) hU hhas

/-- Files that follow each other share no key. -/
theorem eq_of_apart {made : List File} (hpairwise : made.Pairwise Apart)
    {top : Int} (hstored : ∀ file ∈ made, file.Stored top) {key : Bytes}
    {file other : File} (hfile : file ∈ made) (hother : other ∈ made)
    (hget : file.get key ≠ none) (hget' : other.get key ≠ none) :
    file = other := by
  by_contra hne
  exact absurd ((hpairwise.forall hfile hother hne).not_both
    (hstored file hfile) (hstored other hother) hget) hget'

/-- A merge of chosen files with a part of its outputs in place. -/
theorem Selection.interrupted {engine : StorageEngine} {level : Nat}
    {files gone made : List File} {lo hi : Bytes} {key : Bytes}
    (hsel : Selection engine level files lo hi) (hinv : LevelInv engine)
    (hgone : ∀ file ∈ gone, file ∈ files) (top : Int)
    (hpairwise : made.Pairwise Apart)
    (hmade : ∀ file ∈ made, file.Stored top ∧ file.levelId = level + 1 ∧
      ∀ input ∈ files, input.fileId < file.fileId)
    (hsound : ∀ file ∈ made, ∀ value, file.get key = some value →
      fileLayout.Reads {file | file ∈ files} key value)
    (hcomplete : (∃ file ∈ gone, file.get key ≠ none) → ∀ value,
      fileLayout.Reads {file | file ∈ files} key value →
        ∃ file ∈ made, file.get key = some value) :
    fileLayout.Interrupted level {file | file ∈ engine.files}
      {file | file ∈ files} {file | file ∈ gone} {file | file ∈ made} key where
  gone := hgone
  subset := hsel.live
  input_level := by
    intro input hinput
    rcases hsel.level_eq hinput with hlevel | hlevel <;>
      change input.levelId ≤ level + 1 <;> omega
  output_level := fun file hfile => (hmade file hfile).2.1
  newer := fun file hfile => (hmade file hfile).2.2
  kept := fun hinput other hother hnot hget =>
    (hsel.kept_before hinv hinput hother hnot hget).imp_left And.left
  search := fun U hU => hinv.exists_reads U hU
  sound := hsound
  complete := hcomplete
  unique := fun _ hfile _ hother => eq_of_apart hpairwise
    (fun made hmem => (hmade made hmem).1) hfile hother

namespace EngineInv

variable {state : EngineState} {transit : Option File} {level : Nat}
  {files : List File}

/-- While the merge runs all inputs are there. -/
theorem leaves_merging (h : EngineInv state transit) {merge : Merge}
    (hphase : state.phase = .merging level files merge) :
    Leaves state.engine level files [] merge.compactedFiles state := by
  have hinv := h.phase
  rw [hphase] at hinv
  obtain ⟨⟨lo, hi, hsel⟩, hmerge⟩ := hinv
  obtain ⟨chunks, houtputs⟩ := hmerge.outputs
  have hinputs := (inputs h.levels hsel).1
  refine ⟨fun file => ?_, by simp,
    fun file hfile => (houtputs.stored hfile).2.2, fun key _ => ?_⟩
  · simp [EngineState.disk, hphase, Phase.extra, Phase.renamed]
  · exact hsel.interrupted h.levels (by simp) state.engine.fileId
      (houtputs.pairwise.imp Or.inl) (fun file hfile => houtputs.stored hfile)
      (fun file hfile value hget => (houtputs.sound hinputs hfile hget).1)
      (by simp)

theorem leaves_selected (h : EngineInv state transit)
    (hphase : state.phase = .selected level files) :
    Leaves state.engine level files [] [] state := by
  have hinv := h.phase
  rw [hphase] at hinv
  obtain ⟨lo, hi, hsel⟩ := hinv
  refine ⟨fun file => ?_, by simp, by simp, fun key _ => ?_⟩
  · simp [EngineState.disk, hphase, Phase.extra, Phase.renamed]
  · exact hsel.interrupted h.levels (by simp) 0 .nil (by simp) (by simp)
      (by simp)

theorem leaves_ready (h : EngineInv state transit)
    (hphase : state.phase = .ready) (level : Nat) :
    Leaves state.engine level [] [] [] state := by
  refine ⟨fun file => ?_, by simp, by simp, fun key _ => ?_⟩
  · simp [EngineState.disk, hphase, Phase.extra, Phase.renamed]
  · exact ⟨by simp, by simp, by simp, by simp, by simp, by simp,
      fun U hU => h.levels.exists_reads U hU, by simp, by simp, by simp⟩

/-- Once all outputs are there any of the inputs may be gone. -/
theorem interrupted_merged (h : EngineInv state transit)
    (hsizes : ∀ file ∈ state.engine.folder.entries, file.2.length < 2 ^ 32)
    {compactedFiles : List File} {needRemoveFile : Bool}
    (hphase : state.phase = .merged level files compactedFiles needRemoveFile)
    {gone : List File} (hgone : ∀ file ∈ gone, file ∈ files) {key : Bytes}
    (hlive : ∀ file ∈ state.engine.files, file.get key ≠ some tombValue) :
    fileLayout.Interrupted level {file | file ∈ state.engine.files}
      {file | file ∈ files} {file | file ∈ gone}
      {file | file ∈ compactedFiles} key := by
  have hreplaces := h.replaces hsizes hphase key
  have hinv := h.phase
  rw [hphase] at hinv
  obtain ⟨⟨lo, hi, hsel⟩, hcompacted⟩ := hinv
  obtain ⟨hpairwise, hplaced⟩ := hcompacted.placed (inputs h.levels hsel).1
  refine hsel.interrupted h.levels hgone state.engine.fileId hpairwise
    (fun file hfile => ?_) (fun file hfile value hget =>
      (hreplaces.sound file hfile value hget).1) fun _ value hreads => ?_
  · obtain ⟨hstored, hlevel, _, _, hnewer⟩ := hplaced file hfile
    exact ⟨hstored, hlevel, hnewer⟩
  · refine hreplaces.complete value hreads fun hdead => ?_
    obtain ⟨input, hstop, hget⟩ := hreads
    exact hlive input (hsel.live input hstop.mem) (hdead.2 ▸ hget)

theorem newer_merged (h : EngineInv state transit)
    {compactedFiles : List File} {needRemoveFile : Bool}
    (hphase : state.phase = .merged level files compactedFiles
      needRemoveFile) :
    ∀ file ∈ compactedFiles, ∀ input ∈ files,
      input.fileId < file.fileId := by
  have hinv := h.phase
  rw [hphase] at hinv
  obtain ⟨⟨lo, hi, hsel⟩, hcompacted⟩ := hinv
  obtain ⟨_, hplaced⟩ := hcompacted.placed (inputs h.levels hsel).1
  exact fun file hfile => (hplaced file hfile).2.2.2.2

/-- Before the update a trivial move has taken its input's name. -/
theorem leaves_merged (h : EngineInv state transit)
    (hsizes : ∀ file ∈ state.engine.folder.entries, file.2.length < 2 ^ 32)
    {compactedFiles : List File} {needRemoveFile : Bool}
    (hphase : state.phase = .merged level files compactedFiles
      needRemoveFile) :
    Leaves state.engine level files state.phase.renamed compactedFiles
      state := by
  have hgone : ∀ file ∈ state.phase.renamed, file ∈ files := by
    rw [hphase]
    cases needRemoveFile with
    | true => exact fun file hfile => absurd hfile (by simp [Phase.renamed])
    | false => exact fun file hfile => hfile
  have hnewer := h.newer_merged hphase
  refine ⟨fun file => ?_, hgone, hnewer, fun key hlive =>
    h.interrupted_merged hsizes hphase hgone hlive⟩
  have hmade : file ∈ compactedFiles → file ∉ state.phase.renamed :=
    fun hfile hrenamed =>
      absurd (hnewer file hfile file (hgone file hrenamed)) (lt_irrefl _)
  have hextra : state.phase.extra = compactedFiles := by
    rw [hphase]
    rfl
  rw [EngineState.disk, List.mem_filter, List.mem_append, decide_eq_true_eq,
    hextra]
  tauto

/-- After the update the inputs go one by one; a trivial move has none to
remove. -/
theorem leaves_removing (h : EngineInv state transit)
    (hsizes : ∀ file ∈ state.engine.folder.entries, file.2.length < 2 ^ 32)
    {compactedFiles : List File} {needRemoveFile : Bool}
    (hphase : state.phase = .merged level files compactedFiles needRemoveFile)
    {updated stop : EngineState} (hupdate : state.update = some updated)
    {rest : List File} (hrest : ∀ file ∈ rest, file ∈ files)
    (hlevels : stop.engine.levelFiles = updated.engine.levelFiles)
    (hremoving : stop.phase = .removing level rest) :
    Leaves state.engine level files
      (files.filter fun file => decide (file ∉ rest)) compactedFiles stop := by
  have hgone : ∀ file ∈ files.filter (fun file => decide (file ∉ rest)),
      file ∈ files := fun file hfile => (List.mem_filter.mp hfile).1
  refine ⟨fun file => ?_, hgone, h.newer_merged hphase, fun key hlive =>
    h.interrupted_merged hsizes hphase hgone hlive⟩
  obtain ⟨_, files', compactedFiles', _, hphase', _, hfiles, _⟩ :=
    h.update hupdate
  rw [hphase, Phase.merged.injEq] at hphase'
  obtain ⟨_, rfl, rfl, _⟩ := hphase'
  have hinv := h.phase
  rw [hphase] at hinv
  obtain ⟨⟨lo, hi, hsel⟩, _⟩ := hinv
  have hlive := hsel.live file
  have hstays := hrest file
  have hfile := hfiles file
  rw [StorageEngine.files, ← hlevels, ← StorageEngine.files] at hfile
  rw [EngineState.disk, List.mem_filter, List.mem_append, List.mem_filter,
    hremoving]
  simp only [Phase.extra, Phase.renamed, List.not_mem_nil, not_false_eq_true,
    decide_true, and_true, decide_eq_true_eq, hfile]
  tauto

end EngineInv

theorem Leaves.congr {engine engine' : StorageEngine} {level : Nat}
    {files gone made : List File} {state : EngineState}
    (h : Leaves engine level files gone made state)
    (hlevels : engine.levelFiles = engine'.levelFiles) :
    Leaves engine' level files gone made state := by
  have hfiles : engine'.files = engine.files := by
    rw [StorageEngine.files, StorageEngine.files, hlevels]
  refine ⟨?_, h.subset, h.newer, ?_⟩
  · rw [hfiles]
    exact h.disk
  · rw [hfiles]
    exact h.interrupted

/-- Which of the old files are still in the folder. -/
theorem Leaves.fileName_mem_iff {engine : StorageEngine} {level : Nat}
    {files gone made : List File} {state : EngineState} {top : Int}
    (h : Leaves engine level files gone made state) (hinv : LevelInv engine)
    (hdisk : OnDisk state.disk top state.engine.folder) (htop : top < 10 ^ 8)
    (hle : engine.fileId ≤ top) {file : File} (hfile : file ∈ engine.files) :
    file.fileName ∈ state.engine.folder ↔ file ∉ gone := by
  rw [← AList.lookup_isSome, Option.isSome_iff_exists]
  constructor
  · rintro ⟨bytes, hbytes⟩ hgone
    obtain ⟨other, hother, hname, _⟩ := (hdisk.folder _ _).mp hbytes
    have hid : other.fileId = file.fileId := by
      by_contra hne
      exact (hdisk.stored other hother).fileName_ne
        ((hinv.stored file hfile).mono hle) htop hne hname
    rcases (h.disk other).mp hother with ⟨hlive, hnot⟩ | hmade
    · exact hnot (hinv.ids other hlive file hfile hid ▸ hgone)
    · have hnewer := h.newer other hmade file (h.subset file hgone)
      omega
  · exact fun hnot => ⟨file.mmap, hdisk.lookup ((h.disk file).mpr
      (Or.inl ⟨hfile, hnot⟩))⟩

namespace DataBase

/-- A compaction up to a stop: during its merge, or after its update and some
removals. -/
def untilStop (merges : List (PriorityQueue × IterOrder)) :
    Option Nat → List Act
  | none => .select :: merges.map fun m => .merge m.1 m.2
  | some removes => oneCompaction merges ++ List.replicate removes .remove

theorem reaches_removes {P : DataBase → Prop} {level n : Nat}
    {rest : List File} {db last : DataBase}
    (hphase : db.store.phase = .removing level rest)
    (hrun : Reaches P db (List.replicate n .remove) last) :
    last.store.phase = .removing level (rest.drop n) ∧
      last.store.engine.levelFiles = db.store.engine.levelFiles ∧
      last.store.flight = db.store.flight := by
  induction n generalizing db rest with
  | zero =>
      rw [hrun.nil]
      exact ⟨hphase, rfl, rfl⟩
  | succ n ih =>
      obtain ⟨next, hstep, hrest⟩ := hrun.cons
      obtain ⟨store, hremove, rfl⟩ := Option.map_eq_some_iff.mp hstep
      cases rest with
      | nil => simp [EngineState.remove, hphase] at hremove
      | cons file rest =>
          simp only [EngineState.remove, hphase, Option.some.injEq] at hremove
          rw [← hremove] at hrest
          obtain ⟨hphase', hlevels, hflight⟩ := ih rfl hrest
          exact ⟨hphase', hlevels, hflight⟩

/-- Every stop leaves the files of an interrupted merge. -/
theorem exists_leaves {bufferSize : UInt32} {cache : LRUCache} {limit : Nat}
    {acts : List Act} {before : DataBase}
    (hbefore : Reaches InRange (.start bufferSize cache (.new limit)) acts
      before) {level : Nat} (hcalls : before.store.calls.head? = some level)
    (merges : List (PriorityQueue × IterOrder)) (removes : Option Nat)
    {stop : DataBase}
    (hstop : Reaches InRange before (untilStop merges removes) stop) :
    stop.store.flight = before.store.flight ∧ ∃ files gone made,
      Leaves before.store.engine level files gone made stop.store := by
  have hinv : ∀ {more : List Act} {db : DataBase},
      Reaches InRange before more db → ∃ transit, StoreInv db transit :=
    fun hmore => exists_storeInv (fun _ h => h.1) (hbefore.trans hmore)
  cases removes with
  | none =>
      obtain ⟨hlevels, hflight, hphase⟩ :=
        reaches_merges hbefore hcalls merges hstop
      obtain ⟨transit, hstore⟩ := hinv hstop
      refine ⟨hflight, ?_⟩
      rcases hphase with hready | ⟨files, _, _, hphase | ⟨merge, hphase, _⟩ |
        ⟨compactedFiles, _, hphase, _⟩⟩
      · exact ⟨[], [], [],
          (hstore.engine.leaves_ready hready level).congr hlevels⟩
      · exact ⟨files, [], [],
          (hstore.engine.leaves_selected hphase).congr hlevels⟩
      · exact ⟨files, [], merge.compactedFiles,
          (hstore.engine.leaves_merging hphase).congr hlevels⟩
      · exact ⟨files, _, compactedFiles,
          (hstore.engine.leaves_merged hstop.last.2 hphase).congr hlevels⟩
  | some removes =>
      obtain ⟨updated, hupdated, hremoves⟩ := Reaches.split hstop
      obtain ⟨last, hlast, hupdate⟩ := hupdated.snoc
      obtain ⟨hlevels, hflight, hphase⟩ :=
        reaches_merges hbefore hcalls merges hlast
      obtain ⟨transit, hstore⟩ := hinv hlast
      obtain ⟨store, hstep, rfl⟩ := Option.map_eq_some_iff.mp hupdate
      obtain ⟨level', files, compactedFiles, needRemoveFile, hphase', hstate,
        _⟩ := hstore.engine.update hstep
      have hlevel : level' = level := by
        rcases hphase with hphase | ⟨_, _, _, hphase | ⟨_, hphase, _⟩ |
          ⟨_, _, hphase, _⟩⟩ <;> simp_all
      subst hlevel
      have hremoving : store.phase =
          .removing level' (if needRemoveFile then files else []) := by
        rw [hstate]
      obtain ⟨hphase'', hlevels', hflight'⟩ :=
        reaches_removes hremoving hremoves
      refine ⟨hflight'.trans ?_, files, _, compactedFiles,
        (hstore.engine.leaves_removing hlast.last.2 hphase' hstep ?_ hlevels'
          hphase'').congr hlevels⟩
      · change store.flight = _
        rw [hstate]
        exact hflight
      · intro file hfile
        have hmem := List.mem_of_mem_drop hfile
        cases needRemoveFile with
        | true => exact hmem
        | false => exact absurd hmem (by simp)

/-- At every stop in a compaction with no flush under way, the engine built from
the files then in the folder reads a key that has no tombstone as before,
exactly when the old files of the compacted level and above that are still in
the folder do not read an older version of it. -/
theorem stop_keeps_lookup_iff (bufferSize : UInt32) (cache : LRUCache)
    (limit : Nat) {acts : List Act} {before : DataBase}
    (hbefore : Reaches InRange (.start bufferSize cache (.new limit)) acts
      before) (hflight : before.store.flight = .none) {level : Nat}
    (hcalls : before.store.calls.head? = some level)
    (merges : List (PriorityQueue × IterOrder)) (removes : Option Nat)
    {stop : DataBase}
    (hstop : Reaches InRange before (untilStop merges removes) stop)
    (sort : StorageEngine.BoundSort) (limit' : Nat) {listing : List Name}
    (hlisting : Lists listing stop.store.engine.folder) :
    ∃ engine, StorageEngine.ofFolder sort limit' stop.store.engine.folder
        listing = some engine ∧
      ∀ key, (∀ file ∈ before.store.engine.files,
          file.get key ≠ some tombValue) →
        (engine.lookup key = before.store.engine.lookup key ↔
          ∀ value, fileLayout.Reads {file | file ∈ before.store.engine.files ∧
              file.fileName ∈ stop.store.engine.folder ∧
              file.levelId ≤ level} key value →
            fileLayout.Reads {file | file ∈ before.store.engine.files} key
              value) := by
  obtain ⟨hsame, files, gone, made, hleaves⟩ :=
    exists_leaves hbefore hcalls merges removes hstop
  obtain ⟨_, hstore⟩ := exists_storeInv (fun _ h => h.1) hbefore
  obtain ⟨_, hstore'⟩ := exists_storeInv (fun _ h => h.1)
    (hbefore.trans hstop)
  have hinv := hstore.engine.levels
  have hdisk := hstore'.engine.onDisk (hsame.trans hflight)
  obtain ⟨engine, hopen, _, hreopened⟩ :=
    hdisk.exists_ofFolder hstop.last.1 sort limit' hlisting
  refine ⟨engine, hopen, fun key hlive => ?_⟩
  have hlookup : engine.lookup key = before.store.engine.lookup key ↔
      ∀ value, fileLayout.Reads ({file | file ∈ before.store.engine.files} \
          {file | file ∈ gone} ∪ {file | file ∈ made}) key value ↔
        fileLayout.Reads {file | file ∈ before.store.engine.files} key
          value := by
    have hset : ∀ value, engine.lookup key = some value ↔
        fileLayout.Reads ({file | file ∈ before.store.engine.files} \
          {file | file ∈ gone} ∪ {file | file ∈ made}) key value := by
      intro value
      rw [(hreopened.searchable hdisk).lookup_eq_some_iff]
      exact Recency.Layout.reads_congr fun file _ =>
        hreopened.mem_files.trans (hleaves.disk file)
    simp only [← hset, ← hinv.searchable.lookup_eq_some_iff]
    exact ⟨fun heq value => by rw [heq], Option.ext⟩
  have hupper : ∀ value, fileLayout.Reads
      {file | file ∈ before.store.engine.files ∧
        file.fileName ∈ stop.store.engine.folder ∧ file.levelId ≤ level} key
        value ↔
      fileLayout.Reads {file | file ∈ {file |
          file ∈ before.store.engine.files} ∧ file ∉ {file | file ∈ gone} ∧
        fileLayout.level file ≤ level} key value := fun value =>
    Recency.Layout.reads_congr fun file _ => and_congr_right fun hfile =>
      and_congr (hleaves.fileName_mem_iff hinv hdisk hstop.last.1
        (fileId_le_reaches hstop) hfile) Iff.rfl
  rw [hlookup, (hleaves.interrupted key hlive).reads_iff]
  simp only [hupper]

/-- Two files of level 0 with two versions of one key; the newer one starts at
a smaller key. -/
def newerFirst : List Act :=
  writeAndFlush .put [98] [1] ++ [.add .put [97] [7]] ++
    writeAndFlush .put [98] [2] ++ [.call 0]

def fiveMerges : List (PriorityQueue × IterOrder) :=
  List.replicate 5 (.sorted, .inOrder)

theorem stop_keeps_lookup_iff_newer_first :
    ∃ before stop engine, Reaches InRange tiny newerFirst before ∧
      Reaches InRange before (untilStop fiveMerges (some 2)) stop ∧
      StorageEngine.ofFolder .insertion 1 stop.store.engine.folder
        (listingOf stop.store.engine.folder) = some engine ∧
      ((∀ file ∈ before.store.engine.files, file.get [98] ≠ some tombValue) →
        (engine.lookup [98] = before.store.engine.lookup [98] ↔
          ∀ value, fileLayout.Reads {file | file ∈ before.store.engine.files ∧
              file.fileName ∈ stop.store.engine.folder ∧
              file.levelId ≤ 0} [98] value →
            fileLayout.Reads {file | file ∈ before.store.engine.files} [98]
              value)) := by
  obtain ⟨before, hbefore, hflight, hcalls, halong, hafter⟩ := exists_reaches
    (show Along (fun db _ => db.InRange) newerFirst tiny by decide +kernel)
    (show (run newerFirst tiny).any (fun before => decide (before.InRange ∧
      before.store.flight = .none ∧ before.store.calls.head? = some 0 ∧
      Along (fun db _ => db.InRange) (untilStop fiveMerges (some 2)) before ∧
      (run (untilStop fiveMerges (some 2)) before).any (fun stop =>
        decide (stop.InRange ∧
          (listingOf stop.store.engine.folder).filter
            (fun name => decide (name.head? ≠ some '.')) =
              stop.store.engine.folder.keys)) = true)) = true by
      decide +kernel)
  obtain ⟨stop, hstop, hlists⟩ := exists_reaches halong hafter
  obtain ⟨engine, hopen, hiff⟩ := stop_keeps_lookup_iff 0
    (.empty 1 (by decide)) 1 hbefore hflight hcalls fiveMerges (some 2) hstop
    .insertion 1 (show Lists (listingOf stop.store.engine.folder) _ from
      List.Perm.of_eq hlists)
  exact ⟨before, stop, engine, hbefore, hstop, hopen, hiff [98]⟩

/-- After the first removal the older file of level 0 comes before the
output. -/
theorem stop_reads_older_version :
    ∃ before stop engine, Reaches InRange tiny newerFirst before ∧
      Reaches InRange before (untilStop fiveMerges (some 1)) stop ∧
      StorageEngine.ofFolder .insertion 1 stop.store.engine.folder
        (listingOf stop.store.engine.folder) = some engine ∧
      (∀ file ∈ before.store.engine.files, file.get [98] ≠ some tombValue) ∧
      before.store.engine.lookup [98] = some [2] ∧
      engine.lookup [98] = some [1] := by
  obtain ⟨before, hbefore, hlive, hvalue, halong, hafter⟩ := exists_reaches
    (show Along (fun db _ => db.InRange) newerFirst tiny by decide +kernel)
    (show (run newerFirst tiny).any (fun before => decide (before.InRange ∧
      (∀ file ∈ before.store.engine.files,
        file.get [98] ≠ some tombValue) ∧
      before.store.engine.lookup [98] = some [2] ∧
      Along (fun db _ => db.InRange) (untilStop fiveMerges (some 1)) before ∧
      (run (untilStop fiveMerges (some 1)) before).any (fun stop =>
        decide (stop.InRange ∧
          (StorageEngine.ofFolder .insertion 1 stop.store.engine.folder
            (listingOf stop.store.engine.folder)).map
              (fun engine => engine.lookup [98]) = some (some [1]))) =
        true)) = true by decide +kernel)
  obtain ⟨stop, hstop, hopen⟩ := exists_reaches halong hafter
  obtain ⟨engine, hopen, hread⟩ := Option.map_eq_some_iff.mp hopen
  exact ⟨before, stop, engine, hbefore, hstop, hopen, hlive, hvalue, hread⟩

end DataBase

end SimpleKV
