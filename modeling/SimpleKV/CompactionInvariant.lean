/-
Every step of a compaction keeps the engine invariant, also with a flush under
way.
-/
import SimpleKV.EngineInvariant

namespace SimpleKV

/-- Where the files that a compaction made belong. -/
theorem Compacted.placed {level : Nat} {files : List File} {top : Int}
    {compactedFiles : List File} {needRemoveFile : Bool}
    (h : Compacted level files top compactedFiles needRemoveFile)
    (hinputs : Merge.Inputs files top) :
    compactedFiles.Pairwise Apart ∧ ∀ made ∈ compactedFiles,
      made.Stored top ∧ made.levelId = level + 1 ∧
      (∃ input ∈ files, input.lowerBound ≤ made.lowerBound) ∧
      (∃ input ∈ files, made.upperBound ≤ input.upperBound) ∧
      ∀ input ∈ files, input.fileId < made.fileId := by
  cases needRemoveFile with
  | true =>
      obtain ⟨chunks, houtputs, _⟩ := h
      refine ⟨houtputs.pairwise.imp Or.inl, fun made hmade => ?_⟩
      obtain ⟨hstored, hlevel, hnewer⟩ := houtputs.stored hmade
      obtain ⟨⟨low, hlow, hlowLe, _⟩, high, hhigh, _, hhighLe⟩ :=
        houtputs.bounds hinputs hmade
      exact ⟨hstored, hlevel, ⟨low, hlow, hlowLe⟩, ⟨high, hhigh, hhighLe⟩,
        hnewer⟩
  | false =>
      obtain ⟨file, moved, rfl, rfl, hmoved⟩ := h
      refine ⟨List.pairwise_singleton _ _, fun made hmade => ?_⟩
      rw [List.mem_singleton.mp hmade]
      refine ⟨hmoved.stored, hmoved.level_eq,
        ⟨file, List.mem_cons_self, hmoved.lower.ge⟩,
        ⟨file, List.mem_cons_self, hmoved.upper.le⟩, fun input hinput => ?_⟩
      rw [List.mem_singleton.mp hinput]
      exact hmoved.newer

namespace StorageEngine

theorem fileId_updateMap (compactedFiles files : List File)
    (engine : StorageEngine) :
    (engine.updateMap compactedFiles files).fileId = engine.fileId ∧
      (engine.updateMap compactedFiles files).folder = engine.folder := by
  have herase : ∀ (files : List File) (engine : StorageEngine),
      (files.foldl eraseFile engine).fileId = engine.fileId ∧
        (files.foldl eraseFile engine).folder = engine.folder := by
    intro files
    induction files with
    | nil => exact fun engine => ⟨rfl, rfl⟩
    | cons file files ih => exact fun engine => ih (engine.eraseFile file)
  have hinstall : ∀ (files : List File) (engine : StorageEngine),
      (files.foldl installFile engine).fileId = engine.fileId ∧
        (files.foldl installFile engine).folder = engine.folder := by
    intro files
    induction files with
    | nil => exact fun engine => ⟨rfl, rfl⟩
    | cons file files ih => exact fun engine => ih (engine.installFile file)
  rw [updateMap, (hinstall _ _).1, (hinstall _ _).2]
  exact herase files engine

end StorageEngine

/-- A file under a new level, id and name, as `TrivialMove` leaves it. -/
theorem File.Stored.moved {file : File} {top : Int} (h : file.Stored top) :
    ({ file with
      levelId := file.levelId + 1
      fileId := top + 1
      fileName := SimpleKV.fileName (file.levelId + 1) (top + 1) } :
        File).Stored (top + 1) := by
  obtain ⟨entries, hholds, hshort⟩ := h.holds
  have hle := h.le_top
  have hlevel := h.level_le
  have hnonneg := h.nonneg
  refine ⟨rfl, ?_, le_refl _, ?_, entries, hholds.congr rfl rfl rfl rfl,
    hshort⟩
  · change 0 ≤ top + 1
    omega
  · change ((file.levelId + 1 : Nat) : Int) ≤ top + 1
    omega

namespace EngineInv

variable {engine : StorageEngine} {state state' : EngineState}
  {transit : Option File} {file other : File}

/-- The flush thread's file is unaffected by ids drawn after its own. -/
theorem flightInv_mono (h : EngineInv state transit) {after : EngineState}
    (hflight : after.flight = state.flight)
    (htop : state.engine.fileId ≤ after.engine.fileId)
    (hlevel : after.engine.level 0 ⊆ state.engine.level 0)
    (hfresh : ∀ file, file ∈ after.engine.files ∨ file ∈ after.phase.extra →
      (file ∈ state.engine.files ∨ file ∈ state.phase.extra) ∨
        state.engine.fileId < file.fileId) :
    FlightInv after transit := by
  have hnew : ∀ id, NewId state id → NewId after id := by
    intro id hnew
    refine ⟨hnew.nonneg, hnew.le_top.trans htop, fun file hfile => ?_,
      fun file hfile => hnew.newer file (hlevel hfile)⟩
    rcases hfresh file hfile with hold | hlt
    · exact hnew.fresh file hold
    · have := hnew.le_top
      omega
  have hinv := h.flight
  unfold FlightInv at hinv ⊢
  rw [hflight]
  split at hinv
  · exact hinv
  · exact ⟨hinv.1, hnew _ hinv.2.1, hinv.2.2⟩
  · obtain ⟨file, htransit, hstored, hlevelId, hid, hname, hnewId⟩ := hinv
    exact ⟨file, htransit, hstored.mono htop, hlevelId, hid, hname,
      hnew _ hnewId⟩

/-- A new phase with the same files, on the same engine. -/
theorem withPhase (h : EngineInv state transit) (calls : List Nat)
    {phase : Phase} (hextra : phase.extra = state.phase.extra)
    (hrenamed : phase.renamed = state.phase.renamed)
    (hphase : PhaseInv state.engine phase) :
    EngineInv { state with calls, phase } transit := by
  refine ⟨h.top, h.levels, hextra ▸ h.stored, hextra ▸ h.nodup,
    hextra ▸ h.apart, hextra ▸ h.ids, ?_, ?_, hphase⟩
  · refine h.flightInv_mono rfl (le_refl _) (fun _ hfile => hfile)
      fun file hfile => Or.inl ?_
    rwa [hextra] at hfile
  · intro name bytes
    rw [h.folder]
    simp only [InFolder, hextra, hrenamed]

/-- A merge adds one complete output file. -/
theorem withFile (h : EngineInv state transit) {made : File}
    (hid : made.fileId = state.engine.fileId + 1)
    (hstored : made.Stored (state.engine.fileId + 1))
    (htop : state.engine.fileId + 1 < 10 ^ 8) {phase : Phase}
    (hrenamed : state.phase.renamed = []) (hrenamed' : phase.renamed = [])
    (hextra : phase.extra = state.phase.extra ++ [made])
    (hphase : PhaseInv (state.engine.withFile made) phase) :
    EngineInv
      { state with engine := state.engine.withFile made, phase } transit := by
  have hge : state.engine.fileId ≤ (state.engine.withFile made).fileId := by
    change state.engine.fileId ≤ made.fileId
    omega
  have hfresh : ∀ other, other ∈ state.engine.files ∨
      other ∈ state.phase.extra → other.fileId ≠ made.fileId := by
    intro other hother
    have := (h.known_stored hother).le_top
    omega
  have hmade : made.Stored (state.engine.withFile made).fileId := by
    change made.Stored made.fileId
    rw [hid]
    exact hstored
  refine ⟨h.top.trans hge, h.levels.congr rfl rfl hge, ?_, ?_, ?_, ?_, ?_, ?_,
    hphase⟩
  · intro file hfile
    rw [hextra] at hfile
    rcases List.mem_append.mp hfile with hfile | hfile
    · exact (h.stored file hfile).mono hge
    · rw [List.mem_singleton.mp hfile]
      exact hmade
  · rw [hextra]
    refine List.nodup_append.mpr ⟨h.nodup, List.nodup_singleton _, ?_⟩
    intro a ha b hb hab
    rw [List.mem_singleton.mp hb] at hab
    exact hfresh a (Or.inr ha) (by rw [hab])
  · intro file hfile hlive
    rw [hextra] at hfile
    rcases List.mem_append.mp hfile with hfile | hfile
    · exact h.apart file hfile hlive
    · rw [List.mem_singleton.mp hfile] at hlive
      exact hfresh made (Or.inl hlive) rfl
  · intro file hfile other hother hids
    rw [hextra] at hfile hother
    have hcases : ∀ f, f ∈ state.phase.extra ++ [made] →
        f ∈ state.phase.extra ∨ f = made := fun f hf =>
      (List.mem_append.mp hf).imp_right fun hf => List.mem_singleton.mp hf
    have hother' : (other ∈ state.engine.files ∨ other ∈ state.phase.extra) ∨
        other = made := by
      rcases hother with hother | hother
      · exact Or.inl (Or.inl hother)
      · exact (hcases other hother).imp_left Or.inr
    rcases hcases file hfile with hold | hnew
    · rcases hother' with hother | hother
      · exact h.ids file hold other hother hids
      · exact absurd (hother ▸ hids) (hfresh file (Or.inr hold))
    · rcases hother' with hother | hother
      · exact absurd (hnew ▸ hids.symm) (hfresh other hother)
      · exact hnew.trans hother.symm
  · refine h.flightInv_mono rfl hge (fun _ hfile => hfile)
      fun file hfile => ?_
    rw [hextra] at hfile
    rcases hfile with hfile | hfile
    · exact Or.inl (Or.inl hfile)
    · rcases List.mem_append.mp hfile with hfile | hfile
      · exact Or.inl (Or.inr hfile)
      · rw [List.mem_singleton.mp hfile]
        exact Or.inr (by omega)
  · intro name bytes
    change (state.engine.folder.insert made.fileName made.mmap).lookup name =
      some bytes ↔ _
    have hparse := hstored.parse htop
    rw [lookup_insert_iff, h.folder]
    simp only [InFolder, hextra, hrenamed, hrenamed']
    constructor
    · rintro (⟨rfl, rfl⟩ | ⟨_, ⟨file, hfile, hrest⟩ | hrest⟩)
      · exact Or.inl ⟨made, Or.inr (by simp), by simp, rfl, rfl⟩
      · exact Or.inl ⟨file, hfile.imp_right fun h => by simp [h], hrest⟩
      · exact Or.inr hrest
    · intro hname
      have hsplit : (made.fileName = name ∧ made.mmap = bytes) ∨
          InFolder state transit name bytes := by
        rcases hname with ⟨file, hfile | hfile, _, hrest⟩ | hrest
        · exact Or.inr (Or.inl ⟨file, Or.inl hfile, by simp [hrenamed], hrest⟩)
        · rcases List.mem_append.mp hfile with hfile | hfile
          · exact Or.inr (Or.inl ⟨file, Or.inr hfile, by simp [hrenamed],
              hrest⟩)
          · rw [List.mem_singleton.mp hfile] at hrest
            exact Or.inl hrest
        · exact Or.inr (Or.inr hrest)
      rcases hsplit with ⟨rfl, rfl⟩ | hold
      · exact Or.inl ⟨rfl, rfl⟩
      · right
        refine ⟨?_, by simpa only [InFolder, hrenamed] using hold⟩
        rintro rfl
        exact h.not_inFolder (by omega) hparse (by omega) bytes hold

/-- Steps that leave the levels and the flush alone. -/
structure SameLevels (state state' : EngineState) : Prop where
  levelFiles : state'.engine.levelFiles = state.engine.levelFiles
  filesMap : state'.engine.filesMap = state.engine.filesMap
  flight : state'.flight = state.flight
  fileId_le : state.engine.fileId ≤ state'.engine.fileId
  made : ∀ file ∈ state'.phase.extra, file ∈ state.phase.extra ∨
    state.engine.fileId < file.fileId

theorem SameLevels.withPhase (state : EngineState) (calls : List Nat)
    {phase : Phase} (hextra : phase.extra = state.phase.extra) :
    SameLevels state { state with calls, phase } :=
  ⟨rfl, rfl, rfl, le_refl _, fun _ hfile => Or.inl (hextra ▸ hfile)⟩

theorem call (h : EngineInv state transit) {level : Nat}
    (hstep : state.call level = some state') :
    EngineInv state' transit ∧ SameLevels state state' := by
  unfold EngineState.call at hstep
  split_ifs at hstep
  rw [Option.some.injEq] at hstep
  subst hstep
  exact ⟨h.withPhase [level] rfl rfl h.phase, .withPhase state [level] rfl⟩

theorem select (h : EngineInv state transit)
    (hstep : state.select = some state') :
    EngineInv state' transit ∧ SameLevels state state' := by
  unfold EngineState.select at hstep
  split at hstep
  · rename_i level calls hphase hcalls
    split at hstep <;> rw [Option.some.injEq] at hstep <;> subst hstep
    · exact ⟨h.withPhase calls rfl rfl h.phase, .withPhase state calls rfl⟩
    · rename_i files hfiles
      refine ⟨h.withPhase calls ?_ ?_ (exists_selection h.levels hfiles),
        .withPhase state calls ?_⟩ <;> rw [hphase] <;> rfl
  · exact absurd hstep (by simp)

/-- Chosen files are inputs a merge can take. -/
theorem inputs (h : LevelInv engine) {level : Nat} {files : List File}
    {lo hi : Bytes} (hsel : Selection engine level files lo hi) :
    Merge.Inputs files engine.fileId ∧ (level : Int) ≤ engine.fileId := by
  refine ⟨⟨hsel.nodup, fun file hfile other hother => h.ids file
    (hsel.live file hfile) other (hsel.live other hother),
    fun file hfile => h.stored file (hsel.live file hfile)⟩, ?_⟩
  obtain ⟨file, hfile, rfl⟩ := hsel.exists_level
  have hstored := h.stored file (hsel.live file hfile)
  exact hstored.level_le.trans hstored.le_top

/-- `TrivialMove` finds the file it renames and can read it back. -/
theorem exists_trivialMove (h : EngineInv state transit) {level : Nat}
    (hphase : state.phase = .selected level [file])
    (hlive : file ∈ state.engine.files)
    (htop : state.engine.fileId + 1 < 10 ^ 8) :
    ∃ moved folder, SimpleKV.trivialMove file state.engine = some (moved,
      { state.engine with fileId := state.engine.fileId + 1, folder }) := by
  have hlookup := (h.folder file.fileName file.mmap).mpr
    (Or.inl ⟨file, Or.inl hlive, by simp [hphase, Phase.renamed], rfl, rfl⟩)
  have hofName := ((h.levels.stored file hlive).moved).ofName htop
  change File.ofName (fileName (file.levelId + 1) (state.engine.fileId + 1))
    file.mmap = some _ at hofName
  simp only [SimpleKV.trivialMove, hlookup, Option.bind_eq_bind,
    Option.bind_some, StorageEngine.openFile, AList.lookup_insert, hofName]
  exact ⟨_, _, rfl⟩

/-- No other file has the name of an installed one. -/
theorem fileName_ne_of_other (h : EngineInv state transit)
    (htop : state.engine.fileId < 10 ^ 8) (hlive : file ∈ state.engine.files)
    {name : Name}
    (hname : (∃ other ∈ state.engine.files, other ≠ file ∧
        other.fileName = name) ∨
      (∃ id, state.flight = .created id name) ∨
      ∃ other ∈ transit, other.fileName = name) :
    name ≠ file.fileName := by
  have hstored := h.levels.stored file hlive
  rcases hname with ⟨other, hother, hne, rfl⟩ | ⟨id, hcreated⟩ |
    ⟨other, hother, rfl⟩
  · exact (h.levels.stored other hother).fileName_ne hstored htop
      fun hid => hne (h.levels.ids other hother file hlive hid)
  · rintro rfl
    have hflight := h.flight
    rw [FlightInv, hcreated] at hflight
    obtain ⟨_, hnew, hnameEq⟩ := hflight
    have hparse := hstored.parse htop
    have hle := hnew.le_top
    rw [hnameEq, parseFileName_fileName (by decide) hnew.nonneg (by omega),
      Option.some.injEq, Prod.mk.injEq] at hparse
    exact hnew.fresh file (Or.inl hlive) hparse.2.symm
  · obtain ⟨hotherStored, _, hnew⟩ := h.transit_stored hother
    exact hotherStored.fileName_ne hstored htop
      (hnew.fresh file (Or.inl hlive)).symm

/-- The folder after the renaming of an installed file to the next id. -/
theorem folder_renamed (h : EngineInv state transit) {level : Nat}
    (hphase : state.phase = .selected level [file])
    (hlive : file ∈ state.engine.files) {moved : File}
    (hstored : moved.Stored (state.engine.fileId + 1))
    (hid : moved.fileId = state.engine.fileId + 1)
    (hmmap : moved.mmap = file.mmap) (htop : state.engine.fileId + 1 < 10 ^ 8)
    (hfiles : state'.engine.files = state.engine.files)
    (hflight : state'.flight = state.flight)
    (hphase' : state'.phase = .merged level [file] [moved] false)
    (name : Name) (bytes : Bytes) :
    ((state.engine.folder.erase file.fileName).insert moved.fileName
      file.mmap).lookup name = some bytes ↔
        InFolder state' transit name bytes := by
  have hle := (h.levels.stored file hlive).le_top
  rw [lookup_insert_iff, lookup_erase_iff, h.folder]
  simp only [InFolder, hfiles, hflight, hphase, hphase', Phase.extra,
    Phase.renamed, List.mem_singleton, List.not_mem_nil, or_false,
    not_false_eq_true, true_and]
  constructor
  · rintro (⟨rfl, rfl⟩ | ⟨_, hne, ⟨other, hother, rfl, hbytes⟩ | hrest⟩)
    · refine Or.inl ⟨moved, Or.inr rfl, ?_, rfl, hmmap⟩
      rintro rfl
      omega
    · exact Or.inl ⟨other, Or.inl hother, fun heq => hne (by rw [heq]), rfl,
        hbytes⟩
    · exact Or.inr hrest
  · intro hname
    have hsplit : (name = moved.fileName ∧ bytes = file.mmap) ∨
        name ≠ file.fileName ∧ InFolder state transit name bytes := by
      have hids : state.engine.fileId < 10 ^ 8 := by omega
      rcases hname with ⟨other, hlive' | rfl, hne, rfl, rfl⟩ |
        ⟨id, hcreated, rfl⟩ | ⟨other, htransit, rfl, rfl⟩
      · exact Or.inr ⟨h.fileName_ne_of_other hids hlive
            (Or.inl ⟨other, hlive', hne, rfl⟩),
          Or.inl ⟨other, Or.inl hlive', by simp [hphase, Phase.renamed], rfl,
            rfl⟩⟩
      · exact Or.inl ⟨rfl, hmmap⟩
      · exact Or.inr ⟨h.fileName_ne_of_other hids hlive
            (Or.inr (Or.inl ⟨id, hcreated⟩)),
          Or.inr (Or.inl ⟨id, hcreated, rfl⟩)⟩
      · exact Or.inr ⟨h.fileName_ne_of_other hids hlive
            (Or.inr (Or.inr ⟨other, htransit, rfl⟩)),
          Or.inr (Or.inr ⟨other, htransit, rfl, rfl⟩)⟩
    rcases hsplit with hnew | ⟨hne, hold⟩
    · exact Or.inl hnew
    · refine Or.inr ⟨?_, hne, ?_⟩
      · rintro rfl
        exact h.not_inFolder (by omega) (hstored.parse htop) (by omega) bytes
          hold
      · simpa [InFolder, hphase, Phase.extra, Phase.renamed] using hold

/-- `TrivialMove` renames one chosen file. -/
theorem trivialMove (h : EngineInv state transit) {level : Nat} {file : File}
    {lo hi : Bytes} (hphase : state.phase = .selected level [file])
    (hsel : Selection state.engine level [file] lo hi) {moved : File}
    {engine : StorageEngine}
    (hmove : SimpleKV.trivialMove file state.engine = some (moved, engine))
    (htop : engine.fileId < 10 ^ 8) (calls : List Nat) :
    EngineInv
      { state with
        engine, calls, phase := .merged level [file] [moved] false } transit ∧
      engine.levelFiles = state.engine.levelFiles ∧
      engine.filesMap = state.engine.filesMap ∧
      engine.fileId = state.engine.fileId + 1 ∧
      moved.fileId = state.engine.fileId + 1 := by
  have hlive := hsel.live file List.mem_cons_self
  have hstored := h.levels.stored file hlive
  have hlevel : file.levelId = level := by
    obtain ⟨first, hfirst, hlevel⟩ := hsel.exists_level
    rwa [← List.mem_singleton.mp hfirst]
  have hlookup := (h.folder file.fileName file.mmap).mpr
    (Or.inl ⟨file, Or.inl hlive, by simp [hphase, Phase.renamed], rfl, rfl⟩)
  simp only [SimpleKV.trivialMove, hlookup, Option.bind_eq_bind,
    Option.bind_some, Option.bind_eq_some_iff, Option.some.injEq,
    Prod.mk.injEq] at hmove
  obtain ⟨opened, hopen, rfl, rfl⟩ := hmove
  change state.engine.fileId + 1 < 10 ^ 8 at htop
  have hle := hstored.le_top
  have hlevelLe := hstored.level_le
  have hnonneg := hstored.nonneg
  have hstored' := hstored.moved
  have hofName := hstored'.ofName htop
  rw [StorageEngine.openFile, AList.lookup_insert] at hopen
  have hopened := hofName.symm.trans hopen
  rw [Option.some.injEq] at hopened
  subst hopened
  refine ⟨?_, rfl, rfl, rfl, rfl⟩
  have hge : state.engine.fileId ≤ state.engine.fileId + 1 := by omega
  refine ⟨h.top.trans hge, h.levels.congr rfl rfl hge, ?_,
    List.nodup_singleton _, ?_, ?_, ?_, ?_, ?_⟩
  · intro made hmade
    rw [List.mem_singleton.mp hmade]
    exact hstored'
  · intro made hmade hmadeLive
    rw [List.mem_singleton.mp hmade] at hmadeLive
    have := (h.levels.stored _ hmadeLive).le_top
    change state.engine.fileId + 1 ≤ state.engine.fileId at this
    omega
  · intro made hmade other hother hid
    rw [List.mem_singleton.mp hmade] at hid ⊢
    rcases hother with hother | hother
    · have := (h.levels.stored other hother).le_top
      change state.engine.fileId + 1 = other.fileId at hid
      omega
    · rw [List.mem_singleton.mp hother]
  · refine h.flightInv_mono rfl hge (fun _ hfile => hfile)
      fun made hmade => ?_
    rcases hmade with hmade | hmade
    · exact Or.inl (Or.inl hmade)
    · rw [List.mem_singleton.mp hmade]
      exact Or.inr (by change _ < state.engine.fileId + 1; omega)
  · exact h.folder_renamed hphase hlive hstored' rfl rfl htop rfl rfl rfl
  · exact ⟨⟨lo, hi, hsel.congr rfl⟩, file, _, rfl, rfl, hstored',
      by rw [← hlevel], by change file.fileId < state.engine.fileId + 1; omega,
      rfl, rfl, rfl, rfl⟩

/-- A piece of a merge: nothing new, or one complete output file. -/
theorem extended (h : EngineInv state transit) {level : Nat}
    {files : List File} {merge : Merge} {compacted : List File}
    (hphase : state.phase = .merging level files merge)
    (hextends : Merge.Extends level files state.engine engine
      merge.compactedFiles compacted)
    (htop : engine.fileId < 10 ^ 8) {phase : Phase}
    (hrenamed : phase.renamed = []) (hextra : phase.extra = compacted)
    (hinv : PhaseInv engine phase) :
    EngineInv { state with engine, phase } transit ∧
      SameLevels state { state with engine, phase } := by
  have hextraOld : state.phase.extra = merge.compactedFiles := by
    rw [hphase]
    rfl
  have hrenamedOld : state.phase.renamed = [] := by
    rw [hphase]
    rfl
  rcases hextends with ⟨rfl, hsame⟩ | ⟨made, chunk, rfl, hid, hout, hmore⟩
  · exact ⟨h.withPhase state.calls (by rw [hextra, hsame, hextraOld])
      (by rw [hrenamed, hrenamedOld]) hinv,
      .withPhase state state.calls (by rw [hextra, hsame, hextraOld])⟩
  · change made.fileId < 10 ^ 8 at htop
    refine ⟨h.withFile hid hout.stored (by omega) hrenamedOld hrenamed
      (by rw [hextra, hmore, hextraOld]) hinv, rfl, rfl, rfl, ?_, ?_⟩
    · change state.engine.fileId ≤ made.fileId
      omega
    · intro file hfile
      change file ∈ phase.extra at hfile
      rw [hextra, hmore, ← hextraOld] at hfile
      refine (List.mem_append.mp hfile).imp_right fun hnew => ?_
      rw [List.mem_singleton.mp hnew]
      omega

theorem merge (h : EngineInv state transit) {build : Build}
    {queue : PriorityQueue} {iter : IterOrder} {bufferSize : UInt32}
    (hstep : state.merge build queue iter bufferSize = some state')
    (htop : state'.engine.fileId < 10 ^ 8) :
    EngineInv state' transit ∧ SameLevels state state' := by
  have hinv := h.phase
  cases hphase : state.phase with
  | ready => simp [EngineState.merge, hphase] at hstep
  | removing level files => simp [EngineState.merge, hphase] at hstep
  | merged level files compactedFiles needRemoveFile =>
      simp [EngineState.merge, hphase] at hstep
  | selected level files =>
      rw [hphase] at hinv
      obtain ⟨lo, hi, hsel⟩ := hinv
      have hinputs := (inputs h.levels hsel).1
      -- A choice of one file is moved, any other is merged.
      have hstart : ∀ state'', (do
          let merge ← Merge.start files
          some ({ state with phase := .merging level files merge } :
            EngineState)) = some state'' →
          EngineInv state'' transit ∧ SameLevels state state'' := by
        intro state'' hstep
        obtain ⟨merge, hmerge, hmergeInv, hnone⟩ :=
          Merge.exists_start_inv hinputs level
        simp only [hmerge, Option.bind_eq_bind, Option.bind_some,
          Option.some.injEq] at hstep
        subst hstep
        refine ⟨h.withPhase state.calls ?_ ?_ ⟨⟨lo, hi, hsel⟩, hmergeInv⟩,
          .withPhase state state.calls ?_⟩ <;> rw [hphase]
        · exact hnone
        · rfl
        · exact hnone
      match files, hphase, hsel, hstart with
      | [file], hphase, hsel, _ =>
          simp only [EngineState.merge, hphase, Option.bind_eq_bind,
            Option.bind_eq_some_iff, Option.some.injEq] at hstep
          obtain ⟨⟨moved, engine⟩, hmove, rfl⟩ := hstep
          obtain ⟨hafter, hlevels, hmap, hid, hmoved⟩ :=
            h.trivialMove hphase hsel hmove htop state.calls
          refine ⟨hafter, hlevels, hmap, rfl, ?_, fun made hmade => Or.inr ?_⟩
          · change state.engine.fileId ≤ engine.fileId
            omega
          · rw [List.mem_singleton.mp hmade]
            change state.engine.fileId < moved.fileId
            omega
      | [], hphase, _, hstart =>
          simp only [EngineState.merge, hphase] at hstep
          exact hstart state' hstep
      | a :: b :: rest, hphase, _, hstart =>
          simp only [EngineState.merge, hphase] at hstep
          exact hstart state' hstep
  | merging level files merge =>
      rw [hphase] at hinv
      obtain ⟨⟨lo, hi, hsel⟩, hmerge⟩ := hinv
      obtain ⟨hinputs, hlevel⟩ := inputs h.levels hsel
      simp only [EngineState.merge, hphase] at hstep
      split_ifs at hstep with hpq
      · simp only [Option.bind_eq_bind, Option.bind_eq_some_iff,
          Option.some.injEq] at hstep
        obtain ⟨⟨engine, after⟩, hfinish, rfl⟩ := hstep
        obtain ⟨engine', after', hfinish', hmerged, hextends⟩ :=
          hmerge.finish hinputs hlevel hpq build iter
            (Or.inl ⟨_, hfinish, htop⟩)
        rw [hfinish, Option.some.injEq, Prod.mk.injEq] at hfinish'
        obtain ⟨rfl, rfl⟩ := hfinish'
        refine h.extended hphase hextends htop rfl rfl ⟨⟨lo, hi, ?_⟩, hmerged⟩
        rcases hextends with ⟨rfl, _⟩ | ⟨made, _, rfl, _⟩
        · exact hsel
        · exact hsel.congr rfl
      · simp only [Option.bind_eq_bind, Option.bind_eq_some_iff,
          Option.some.injEq] at hstep
        obtain ⟨⟨engine, after⟩, hround, rfl⟩ := hstep
        obtain ⟨engine', after', hround', hmerge', hextends⟩ :=
          hmerge.round hinputs hlevel hpq build queue iter bufferSize
            (Or.inl ⟨_, hround, htop⟩)
        rw [hround, Option.some.injEq, Prod.mk.injEq] at hround'
        obtain ⟨rfl, rfl⟩ := hround'
        refine h.extended hphase hextends htop rfl rfl ⟨⟨lo, hi, ?_⟩, hmerge'⟩
        rcases hextends with ⟨rfl, _⟩ | ⟨made, _, rfl, _⟩
        · exact hsel
        · exact hsel.congr rfl

/-- What `UpdateMapAfterCompaction` does to the levels. -/
theorem updateMap (h : EngineInv state transit) {level : Nat}
    {files compactedFiles : List File} {needRemoveFile : Bool}
    (hphase : state.phase = .merged level files compactedFiles needRemoveFile) :
    LevelInv (state.engine.updateMap compactedFiles files) ∧
      ∀ i other,
        other ∈ (state.engine.updateMap compactedFiles files).level i ↔
          (other ∈ compactedFiles ∧ other.levelId = i) ∨
            (other ∈ state.engine.level i ∧ other ∉ files) := by
  have hinv := h.phase
  rw [hphase] at hinv
  obtain ⟨⟨lo, hi, hsel⟩, hcompacted⟩ := hinv
  obtain ⟨hpairwise, hplaced⟩ := hcompacted.placed (inputs h.levels hsel).1
  have hextra : state.phase.extra = compactedFiles := by
    rw [hphase]
    rfl
  obtain ⟨herased, hmem⟩ := h.levels.eraseFiles hsel.nodup hsel.live
  have herasedId := (StorageEngine.fileId_updateMap [] files state.engine).1
  change (files.foldl StorageEngine.eraseFile state.engine).fileId = _
    at herasedId
  have hkept : ∀ other ∈
      (files.foldl StorageEngine.eraseFile state.engine).files,
      other ∈ state.engine.files := by
    intro other hother
    obtain ⟨i, hother⟩ := StorageEngine.mem_files.mp hother
    exact StorageEngine.mem_files.mpr ⟨i, ((hmem i other).mp hother).1⟩
  obtain ⟨hinstalled, hmem'⟩ := herased.installFiles compactedFiles
    (fun made hmade => herasedId.symm ▸ (hplaced made hmade).1) (by
      have hnodup := h.nodup
      rw [hextra] at hnodup
      refine hnodup.imp_of_mem fun ha hb hne hid => hne ?_
      exact h.ids _ (hextra ▸ ha) _ (Or.inr (hextra ▸ hb)) hid) (by
      intro made hmade live hlive hid
      have heq := h.ids made (hextra ▸ hmade) live (Or.inl (hkept live hlive))
        hid.symm
      exact h.apart made (hextra ▸ hmade) (heq ▸ hkept live hlive))
    (fun made hmade => by rw [(hplaced made hmade).2.1]; omega) hpairwise (by
      intro made hmade live hlive
      obtain ⟨_, hlevel, hlower, hupper, _⟩ := hplaced made hmade
      obtain ⟨hlive, hnot⟩ := (hmem _ live).mp hlive
      rw [hlevel] at hlive
      exact hsel.apart_of_bounds h.levels hlive hnot hlower hupper)
  refine ⟨hinstalled, fun i other => ?_⟩
  rw [StorageEngine.updateMap, hmem', hmem]

theorem update (h : EngineInv state transit)
    (hstep : state.update = some state') :
    ∃ level files compactedFiles needRemoveFile,
      state.phase = .merged level files compactedFiles needRemoveFile ∧
      state' = { state with
        engine := state.engine.updateMap compactedFiles files
        phase := .removing level (if needRemoveFile then files else []) } ∧
      (∀ other, other ∈ state'.engine.files ↔ other ∈ compactedFiles ∨
        (other ∈ state.engine.files ∧ other ∉ files)) ∧
      EngineInv state' transit := by
  cases hphase : state.phase with
  | ready => simp [EngineState.update, hphase] at hstep
  | selected level files => simp [EngineState.update, hphase] at hstep
  | merging level files merge => simp [EngineState.update, hphase] at hstep
  | removing level files => simp [EngineState.update, hphase] at hstep
  | merged level files compactedFiles needRemoveFile =>
      simp only [EngineState.update, hphase, Option.some.injEq] at hstep
      have hinv := h.phase
      rw [hphase] at hinv
      obtain ⟨⟨lo, hi, hsel⟩, hcompacted⟩ := hinv
      obtain ⟨_, hplaced⟩ := hcompacted.placed (inputs h.levels hsel).1
      obtain ⟨hlevels, hmem⟩ := h.updateMap hphase
      obtain ⟨hid, hfolder⟩ :=
        StorageEngine.fileId_updateMap compactedFiles files state.engine
      have hextra : state.phase.extra = compactedFiles := by
        rw [hphase]
        rfl
      have hfiles : ∀ other,
          other ∈ (state.engine.updateMap compactedFiles files).files ↔
            other ∈ compactedFiles ∨
              (other ∈ state.engine.files ∧ other ∉ files) := by
        intro other
        simp only [StorageEngine.mem_files, hmem]
        constructor
        · rintro ⟨i, ⟨hother, _⟩ | ⟨hother, hnot⟩⟩
          · exact Or.inl hother
          · exact Or.inr ⟨⟨i, hother⟩, hnot⟩
        · rintro (hother | ⟨⟨i, hother⟩, hnot⟩)
          · exact ⟨_, Or.inl ⟨hother, rfl⟩⟩
          · exact ⟨i, Or.inr ⟨hother, hnot⟩⟩
      have hnotMade : ∀ file ∈ files, file ∉ compactedFiles :=
        fun file hfile hmade => h.apart file (hextra ▸ hmade)
          (hsel.live file hfile)
      -- The files to remove are chosen files, so they were live.
      have hremoved : ∀ file ∈ (if needRemoveFile then files else []),
          file ∈ files := by
        intro file hfile
        split_ifs at hfile
        · exact hfile
        · exact absurd hfile (by simp)
      have hknown : ∀ other, other ∈
          (state.engine.updateMap compactedFiles files).files ∨
            other ∈ (if needRemoveFile then files else []) →
          other ∈ state.engine.files ∨ other ∈ state.phase.extra := by
        rintro other (hother | hother)
        · rcases (hfiles other).mp hother with hother | hother
          · exact Or.inr (hextra ▸ hother)
          · exact Or.inl hother.1
        · exact Or.inl (hsel.live other (hremoved other hother))
      refine ⟨level, files, compactedFiles, needRemoveFile, rfl, hstep.symm,
        hstep ▸ hfiles, ?_⟩
      rw [← hstep]
      refine ⟨hid.symm ▸ h.top, hlevels, ?_, ?_, ?_, ?_, ?_, ?_, trivial⟩
      · intro file hfile
        rw [hid]
        exact h.levels.stored file (hsel.live file (hremoved file hfile))
      · change (if needRemoveFile then files else []).Nodup
        split_ifs
        · exact hsel.nodup
        · exact List.nodup_nil
      · intro file hfile hlive
        have hfile' := hremoved file hfile
        rcases (hfiles file).mp hlive with hmade | hkept
        · exact hnotMade file hfile' hmade
        · exact hkept.2 hfile'
      · intro file hfile other hother hids
        exact h.known_ids (Or.inl (hsel.live file (hremoved file hfile)))
          (hknown other hother) hids
      · refine h.flightInv_mono rfl hid.ge (fun file hfile => ?_)
          fun file hfile => Or.inl (hknown file hfile)
        rcases (hmem 0 file).mp hfile with ⟨hmade, hlevel⟩ | hkept
        · have := (hplaced file hmade).2.1
          omega
        · exact hkept.1
      · intro name bytes
        change (state.engine.updateMap compactedFiles files).folder.lookup name
          = some bytes ↔ _
        rw [hfolder, h.folder]
        refine or_congr_left (exists_congr fun file => ?_)
        change _ ↔ ((file ∈ (state.engine.updateMap compactedFiles
          files).files ∨ file ∈ (if needRemoveFile then files else [])) ∧
            file ∉ [] ∧ _)
        rw [hfiles, hextra, hphase]
        have hnot := hnotMade file
        have hlive := hsel.live file
        cases needRemoveFile with
        | true =>
            simp only [Phase.renamed, if_true, List.not_mem_nil,
              not_false_eq_true, true_and]
            tauto
        | false =>
            simp only [Phase.renamed, Bool.false_eq_true, if_false,
              List.not_mem_nil, not_false_eq_true, true_and, or_false]
            tauto

theorem remove (h : EngineInv state transit)
    (htop : state.engine.fileId < 10 ^ 8)
    (hstep : state.remove = some state') :
    EngineInv state' transit ∧ SameLevels state state' := by
  unfold EngineState.remove at hstep
  split at hstep
  · rename_i level file files hphase
    rw [Option.some.injEq] at hstep
    subst hstep
    have hextra : state.phase.extra = file :: files := by
      rw [hphase]
      rfl
    have hrenamed : state.phase.renamed = [] := by
      rw [hphase]
      rfl
    have hnodup := h.nodup
    rw [hextra, List.nodup_cons] at hnodup
    have hmem : ∀ other ∈ files, other ∈ state.phase.extra := fun other hother =>
      hextra ▸ List.mem_cons_of_mem _ hother
    have hfile : file ∈ state.phase.extra := hextra ▸ List.mem_cons_self
    refine ⟨⟨h.top, h.levels.congr rfl rfl (le_refl _),
      fun other hother => h.stored other (hmem other hother), hnodup.2,
      fun other hother => h.apart other (hmem other hother),
      fun other hother live hlive => h.ids other (hmem other hother) live
        (hlive.imp_right (hmem live)), ?_, ?_, trivial⟩, rfl, rfl, rfl,
      le_refl _, fun other hother => Or.inl (hmem other hother)⟩
    · exact h.flightInv_mono rfl (le_refl _) (fun _ hother => hother)
        fun other hother => Or.inl (hother.imp_right (hmem other))
    · intro name bytes
      change (state.engine.folder.erase file.fileName).lookup name =
        some bytes ↔ _
      rw [lookup_erase_iff, h.folder]
      have hstored := h.stored file hfile
      constructor
      · rintro ⟨hne, ⟨other, hother, _, rfl, hbytes⟩ | hrest⟩
        · refine Or.inl ⟨other, ?_, by simp [Phase.renamed], rfl, hbytes⟩
          refine hother.imp_right fun hother => ?_
          rw [hextra] at hother
          rcases List.mem_cons.mp hother with rfl | hother
          · exact absurd rfl hne
          · exact hother
        · exact Or.inr hrest
      · rintro (⟨other, hother, _, rfl, hbytes⟩ | ⟨id, hcreated, rfl⟩ |
          ⟨other, hother, rfl, hbytes⟩)
        · have hknown := hother.imp_right (hmem other)
          refine ⟨?_, Or.inl ⟨other, hknown, by simp [hrenamed], rfl, hbytes⟩⟩
          refine (h.known_stored hknown).fileName_ne hstored htop fun hid => ?_
          have heq := h.ids file hfile other hknown hid.symm
          subst heq
          rcases hother with hother | hother
          · exact h.apart file hfile hother
          · exact hnodup.1 hother
        · refine ⟨?_, Or.inr (Or.inl ⟨id, hcreated, rfl⟩)⟩
          rintro rfl
          change state.flight = _ at hcreated
          have hflight := h.flight
          rw [FlightInv, hcreated] at hflight
          obtain ⟨_, hnew, hname⟩ := hflight
          have hparse := hstored.parse htop
          have hle := hnew.le_top
          rw [hname, parseFileName_fileName (by decide) hnew.nonneg (by omega),
            Option.some.injEq, Prod.mk.injEq] at hparse
          exact hnew.fresh file (Or.inr hfile) hparse.2.symm
        · refine ⟨?_, Or.inr (Or.inr ⟨other, hother, rfl, hbytes⟩)⟩
          obtain ⟨hotherStored, _, hnew⟩ := h.transit_stored hother
          exact hotherStored.fileName_ne hstored htop
            (hnew.fresh file (Or.inr hfile)).symm
  · exact absurd hstep (by simp)

theorem finish (h : EngineInv state transit)
    (hstep : state.finish = some state') :
    EngineInv state' transit ∧ SameLevels state state' := by
  unfold EngineState.finish at hstep
  split at hstep
  · rename_i level hphase
    rw [Option.some.injEq] at hstep
    subst hstep
    refine ⟨h.withPhase _ ?_ ?_ trivial, .withPhase state _ ?_⟩ <;>
      rw [hphase] <;> rfl
  · exact absurd hstep (by simp)

end EngineInv

end SimpleKV
