/-
The invariant of an engine with a flush and a compaction under way, and its
preservation by every step.  It ties the levels, the files the compaction has
made or is about to remove, the file the flush thread has written but not yet
installed, and the data folder.
-/
import SimpleKV.Selection
import SimpleKV.MergeCorrect

namespace SimpleKV

namespace Phase

/-- Files on disk that a compaction has made or will remove. -/
def extra : Phase → List File
  | .merging _ _ merge => merge.compactedFiles
  | .merged _ _ compactedFiles _ => compactedFiles
  | .removing _ files => files
  | _ => []

/-- Files that a compaction has made and not installed. -/
def made : Phase → List File
  | .merging _ _ merge => merge.compactedFiles
  | .merged _ _ compactedFiles _ => compactedFiles
  | _ => []

/-- Files of the levels whose name a trivial move has taken. -/
def renamed : Phase → List File
  | .merged _ files _ false => files
  | _ => []

end Phase

/-- `moved` is `file` after a `TrivialMove`. -/
structure Moved (level : Nat) (top : Int) (file moved : File) : Prop where
  stored : moved.Stored top
  level_eq : moved.levelId = level + 1
  newer : file.fileId < moved.fileId
  lower : moved.lowerBound = file.lowerBound
  upper : moved.upperBound = file.upperBound
  mmap : moved.mmap = file.mmap
  size : moved.fileSize = file.fileSize

/-- What a file holds depends on its bytes and bounds only. -/
theorem File.Holds.congr {file moved : File}
    {entries : List (Bytes × Bytes)} (h : file.Holds entries)
    (hlower : moved.lowerBound = file.lowerBound)
    (hupper : moved.upperBound = file.upperBound)
    (hmmap : moved.mmap = file.mmap) (hsize : moved.fileSize = file.fileSize) :
    moved.Holds entries where
  increasing := h.increasing
  fits := h.fits
  lower := hlower ▸ h.lower
  upper := hupper ▸ h.upper
  bounds_fit := by
    rw [hlower, hupper]
    exact h.bounds_fit
  size := by
    rw [hsize, hmmap]
    exact h.size
  bytes := by
    rw [hlower, hupper, hmmap]
    exact h.bytes

theorem Moved.holds {level : Nat} {top : Int} {file moved : File}
    (h : Moved level top file moved) {entries : List (Bytes × Bytes)}
    (hholds : file.Holds entries) : moved.Holds entries :=
  hholds.congr h.lower h.upper h.mmap h.size

/-- The result of a compaction before the maps are updated. -/
def Compacted (level : Nat) (files : List File) (top : Int)
    (compactedFiles : List File) : Bool → Prop
  | true => Merge.Merged level files top compactedFiles
  | false => ∃ file moved, files = [file] ∧ compactedFiles = [moved] ∧
      Moved level top file moved

/-- What each phase of a compaction relies on. -/
def PhaseInv (engine : StorageEngine) : Phase → Prop
  | .ready => True
  | .selected level files => ∃ lo hi, Selection engine level files lo hi
  | .merging level files merge =>
      (∃ lo hi, Selection engine level files lo hi) ∧
        merge.Inv level files engine.fileId
  | .merged level files compactedFiles needRemoveFile =>
      (∃ lo hi, Selection engine level files lo hi) ∧
        Compacted level files engine.fileId compactedFiles needRemoveFile
  | .removing _ _ => True

/-- An id drawn for a level-0 file that is not installed yet. -/
structure NewId (state : EngineState) (id : Int) : Prop where
  nonneg : 0 ≤ id
  le_top : id ≤ state.engine.fileId
  fresh : ∀ file, file ∈ state.engine.files ∨ file ∈ state.phase.extra →
    file.fileId ≠ id
  newer : ∀ file ∈ state.engine.level 0, file.fileId < id

/-- The flush thread's file; `transit` is that file once it is written. -/
def FlightInv (state : EngineState) (transit : Option File) : Prop :=
  match state.flight with
  | .none => transit = none
  | .created id name => transit = none ∧ NewId state id ∧ name = fileName 0 id
  | .written id name => ∃ file, transit = some file ∧
      file.Stored state.engine.fileId ∧ file.levelId = 0 ∧
      file.fileId = id ∧ file.fileName = name ∧ NewId state id

/-- What the data folder holds. -/
def InFolder (state : EngineState) (transit : Option File) (name : Name)
    (bytes : Bytes) : Prop :=
  (∃ file, (file ∈ state.engine.files ∨ file ∈ state.phase.extra) ∧
      file ∉ state.phase.renamed ∧ file.fileName = name ∧
      file.mmap = bytes) ∨
    (∃ id, state.flight = .created id name ∧ bytes = []) ∨
    ∃ file ∈ transit, file.fileName = name ∧ file.mmap = bytes

structure EngineInv (state : EngineState) (transit : Option File) : Prop where
  top : -1 ≤ state.engine.fileId
  levels : LevelInv state.engine
  stored : ∀ file ∈ state.phase.extra, file.Stored state.engine.fileId
  nodup : state.phase.extra.Nodup
  apart : ∀ file ∈ state.phase.extra, file ∉ state.engine.files
  ids : ∀ file ∈ state.phase.extra,
    ∀ other, other ∈ state.engine.files ∨ other ∈ state.phase.extra →
      file.fileId = other.fileId → file = other
  flight : FlightInv state transit
  folder : ∀ name bytes, state.engine.folder.lookup name = some bytes ↔
    InFolder state transit name bytes
  phase : PhaseInv state.engine state.phase

theorem Merge.Inv.mono {level : Nat} {files : List File} {top top' : Int}
    {merge : Merge} (h : merge.Inv level files top) (htop : top ≤ top') :
    merge.Inv level files top' := by
  obtain ⟨rest, chunks, current, hreading, hemitting, houtputs⟩ := h
  exact ⟨rest, chunks, current, hreading, hemitting,
    houtputs.imp fun _ _ hout => hout.mono htop⟩

theorem Compacted.mono {level : Nat} {files : List File} {top top' : Int}
    {compactedFiles : List File} {needRemoveFile : Bool}
    (h : Compacted level files top compactedFiles needRemoveFile)
    (htop : top ≤ top') :
    Compacted level files top' compactedFiles needRemoveFile := by
  cases needRemoveFile with
  | true =>
      obtain ⟨chunks, ⟨houtputs, hsound⟩, hcomplete⟩ := h
      exact ⟨chunks, ⟨houtputs.imp fun _ _ hout => hout.mono htop, hsound⟩,
        hcomplete⟩
  | false =>
      obtain ⟨file, moved, hfiles, hcompacted, hmoved⟩ := h
      exact ⟨file, moved, hfiles, hcompacted,
        { hmoved with stored := hmoved.stored.mono htop }⟩

/-- A phase relies on the levels, and on the counter not falling back. -/
theorem PhaseInv.congr {engine engine' : StorageEngine} {phase : Phase}
    (h : PhaseInv engine phase)
    (hselection : ∀ level files lo hi, Selection engine level files lo hi →
      Selection engine' level files lo hi)
    (hid : engine.fileId ≤ engine'.fileId) : PhaseInv engine' phase := by
  cases phase with
  | ready => trivial
  | selected level files =>
      obtain ⟨lo, hi, h⟩ := h
      exact ⟨lo, hi, hselection level files lo hi h⟩
  | merging level files merge =>
      obtain ⟨⟨lo, hi, h⟩, hmerge⟩ := h
      exact ⟨⟨lo, hi, hselection level files lo hi h⟩, hmerge.mono hid⟩
  | merged level files compactedFiles needRemoveFile =>
      obtain ⟨⟨lo, hi, h⟩, hcompacted⟩ := h
      exact ⟨⟨lo, hi, hselection level files lo hi h⟩, hcompacted.mono hid⟩
  | removing level files => trivial

theorem PhaseInv.renamed_live {engine : StorageEngine} {phase : Phase}
    (h : PhaseInv engine phase) {file : File} (hfile : file ∈ phase.renamed) :
    file ∈ engine.files := by
  cases phase with
  | merged level files compactedFiles needRemoveFile =>
      cases needRemoveFile with
      | true => simp [Phase.renamed] at hfile
      | false =>
          obtain ⟨⟨lo, hi, hsel⟩, _⟩ := h
          exact hsel.live file hfile
  | ready => simp [Phase.renamed] at hfile
  | selected _ _ => simp [Phase.renamed] at hfile
  | merging _ _ _ => simp [Phase.renamed] at hfile
  | removing _ _ => simp [Phase.renamed] at hfile

namespace EngineInv

variable {engine : StorageEngine} {state state' : EngineState}
  {transit : Option File} {file other : File}

/-- All files the engine knows of are stored. -/
theorem known_stored (h : EngineInv state transit)
    (hfile : file ∈ state.engine.files ∨ file ∈ state.phase.extra) :
    file.Stored state.engine.fileId :=
  hfile.elim (h.levels.stored file) (h.stored file)

theorem known_ids (h : EngineInv state transit)
    (hfile : file ∈ state.engine.files ∨ file ∈ state.phase.extra)
    (hother : other ∈ state.engine.files ∨ other ∈ state.phase.extra)
    (hid : file.fileId = other.fileId) : file = other := by
  rcases hfile with hfile | hfile
  · rcases hother with hother | hother
    · exact h.levels.ids file hfile other hother hid
    · exact (h.ids other hother file (Or.inl hfile) hid.symm).symm
  · exact h.ids file hfile other hother hid

theorem transit_stored (h : EngineInv state transit)
    (hfile : file ∈ transit) :
    file.Stored state.engine.fileId ∧ file.levelId = 0 ∧
      NewId state file.fileId := by
  have hflight := h.flight
  unfold FlightInv at hflight
  split at hflight
  · rw [hflight] at hfile
    exact absurd hfile (by simp)
  · rw [hflight.1] at hfile
    exact absurd hfile (by simp)
  · obtain ⟨file', htransit, hstored, hlevel, rfl, _, hnew⟩ := hflight
    rw [htransit, Option.mem_some_iff] at hfile
    exact hfile ▸ ⟨hstored, hlevel, hnew⟩

/-- A name in the folder has an id the counter has handed out. -/
theorem exists_id_of_inFolder (h : EngineInv state transit)
    (htop : state.engine.fileId < 10 ^ 8) {name : Name} {bytes : Bytes}
    (hname : InFolder state transit name bytes) :
    ∃ level id, parseFileName name = some (level, id) ∧
      id ≤ state.engine.fileId := by
  rcases hname with ⟨file, hfile, _, rfl, _⟩ | ⟨id, hflight, _⟩ |
    ⟨file, hfile, rfl, _⟩
  · have hstored := h.known_stored hfile
    exact ⟨_, _, hstored.parse htop, hstored.le_top⟩
  · have hinv := h.flight
    rw [FlightInv, hflight] at hinv
    obtain ⟨_, hnew, rfl⟩ := hinv
    have hle := hnew.le_top
    exact ⟨0, id, parseFileName_fileName (by decide) hnew.nonneg (by omega),
      hle⟩
  · have hstored := (h.transit_stored hfile).1
    exact ⟨_, _, hstored.parse htop, hstored.le_top⟩

/-- A name with an id not handed out yet is not in the folder. -/
theorem not_inFolder (h : EngineInv state transit)
    (htop : state.engine.fileId < 10 ^ 8) {name : Name} {level : Nat}
    {id : Int} (hparse : parseFileName name = some (level, id))
    (hid : state.engine.fileId < id) (bytes : Bytes) :
    ¬ InFolder state transit name bytes := by
  intro hname
  obtain ⟨level', id', hparse', hle⟩ := h.exists_id_of_inFolder htop hname
  rw [hparse, Option.some.injEq, Prod.mk.injEq] at hparse'
  omega

/-- Lookup after an insertion. -/
theorem lookup_insert_iff {folder : Folder} {name other : Name}
    {bytes content : Bytes} :
    (folder.insert name content).lookup other = some bytes ↔
      (other = name ∧ bytes = content) ∨
        (other ≠ name ∧ folder.lookup other = some bytes) := by
  by_cases hname : other = name
  · subst hname
    rw [AList.lookup_insert, Option.some.injEq]
    simp [eq_comm]
  · rw [AList.lookup_insert_ne hname]
    simp [hname]

theorem lookup_erase_iff {folder : Folder} {name other : Name}
    {bytes : Bytes} :
    (folder.erase name).lookup other = some bytes ↔
      other ≠ name ∧ folder.lookup other = some bytes := by
  by_cases hname : other = name
  · subst hname
    rw [AList.lookup_erase]
    simp
  · rw [AList.lookup_erase_ne hname]
    simp [hname]

/-- An empty folder. -/
theorem start (limit : Nat) :
    EngineInv (.start (.new limit)) none where
  top := le_refl _
  levels := LevelInv.new limit
  stored := fun _ hfile => absurd hfile (by simp [Phase.extra, EngineState.start])
  nodup := List.nodup_nil
  apart := fun _ hfile => absurd hfile (by simp [Phase.extra, EngineState.start])
  ids := fun _ hfile => absurd hfile (by simp [Phase.extra, EngineState.start])
  flight := rfl
  folder := by
    intro name bytes
    constructor
    · intro hlookup
      simp [EngineState.start, StorageEngine.new] at hlookup
    · rintro (⟨file, hfile | hfile, _⟩ | ⟨id, hflight, _⟩ | ⟨file, hfile, _⟩)
      · simp [EngineState.start, StorageEngine.new, StorageEngine.files] at hfile
      · simp [EngineState.start, Phase.extra] at hfile
      · simp [EngineState.start] at hflight
      · simp at hfile
  phase := trivial

/-- Drawing an id and creating the file. -/
theorem newFile (h : EngineInv state transit)
    (hstep : state.newFile = some state')
    (htop : state'.engine.fileId < 10 ^ 8) :
    EngineInv state' none ∧
      state'.flight = .created (state.engine.fileId + 1)
        (fileName 0 (state.engine.fileId + 1)) ∧
      state'.engine.fileId = state.engine.fileId + 1 ∧
      state'.engine.levelFiles = state.engine.levelFiles ∧
      state'.engine.filesMap = state.engine.filesMap ∧
      state'.phase = state.phase ∧ state'.calls = state.calls := by
  have hflight := h.flight
  unfold EngineState.newFile at hstep
  cases hpc : state.flight with
  | created id name => simp [hpc] at hstep
  | written id name => simp [hpc] at hstep
  | none =>
      rw [FlightInv, hpc] at hflight
      subst hflight
      simp only [hpc, StorageEngine.newWritableFile, Option.some.injEq] at hstep
      subst hstep
      change state.engine.fileId + 1 < 10 ^ 8 at htop
      have hnonneg := h.top
      have hparse : parseFileName (fileName 0 (state.engine.fileId + 1)) =
          some (0, state.engine.fileId + 1) :=
        parseFileName_fileName (by decide) (by omega) htop
      refine ⟨⟨?_, ?_, ?_, h.nodup, h.apart, h.ids, ⟨rfl, ?_, rfl⟩, ?_, ?_⟩,
        rfl, rfl, rfl, rfl, rfl, rfl⟩
      · change -1 ≤ state.engine.fileId + 1
        omega
      · exact h.levels.congr rfl rfl (by simp)
      · exact fun file hfile => (h.stored file hfile).mono (by simp)
      · refine ⟨by omega, le_refl _, fun file hfile => ?_, fun file hfile => ?_⟩
        · have := (h.known_stored hfile).le_top
          omega
        · have := (h.levels.stored file
            (StorageEngine.mem_files.mpr ⟨0, hfile⟩)).le_top
          omega
      · intro name bytes
        rw [lookup_insert_iff]
        constructor
        · rintro (⟨rfl, rfl⟩ | ⟨_, hlookup⟩)
          · exact Or.inr (Or.inl ⟨_, rfl, rfl⟩)
          · rcases (h.folder name bytes).mp hlookup with hfile | hcreated | hfile
            · exact Or.inl hfile
            · rw [hpc] at hcreated
              exact absurd hcreated (by simp)
            · exact Or.inr (Or.inr hfile)
        · rintro (hfile | ⟨id, hcreated, rfl⟩ | ⟨file, hfile, _⟩)
          · have hold : InFolder state none name bytes := Or.inl hfile
            right
            refine ⟨?_, (h.folder name bytes).mpr hold⟩
            rintro rfl
            exact h.not_inFolder (by omega) hparse (by omega) bytes hold
          · simp only [Flight.created.injEq] at hcreated
            exact Or.inl ⟨hcreated.2.symm, rfl⟩
          · simp at hfile
      · exact h.phase.congr (fun level files lo hi hsel => hsel.congr rfl)
          (by simp)

/-- Writing the file. -/
theorem write (h : EngineInv state transit) {id : Int} {name : Name}
    (hflight : state.flight = .created id name) {written : File}
    (hstored : written.Stored id) (hlevel : written.levelId = 0)
    (hid : written.fileId = id) {bytes : Bytes} (hbytes : written.mmap = bytes)
    (hstep : state.write bytes = some state') :
    EngineInv state' (some written) ∧ state'.flight = .written id name ∧
      state'.engine.fileId = state.engine.fileId ∧
      state'.engine.levelFiles = state.engine.levelFiles ∧
      state'.engine.filesMap = state.engine.filesMap ∧
      state'.phase = state.phase ∧ state'.calls = state.calls := by
  have hinv := h.flight
  rw [FlightInv, hflight] at hinv
  obtain ⟨rfl, hnew, hname⟩ := hinv
  simp only [EngineState.write, hflight, Option.some.injEq] at hstep
  subst hstep
  have hfileName : written.fileName = name := by
    rw [hstored.name, hlevel, hid, hname]
  refine ⟨⟨h.top, h.levels.congr rfl rfl (le_refl _), h.stored, h.nodup,
    h.apart, h.ids, ⟨written, rfl, hstored.mono hnew.le_top, hlevel, hid,
      hfileName, hnew.nonneg, hnew.le_top, hnew.fresh, hnew.newer⟩, ?_, ?_⟩,
    rfl, rfl, rfl, rfl, rfl, rfl⟩
  · intro other content
    rw [StorageEngine.writeFile, lookup_insert_iff]
    constructor
    · rintro (⟨rfl, rfl⟩ | ⟨hne, hlookup⟩)
      · exact Or.inr (Or.inr ⟨written, rfl, hfileName, hbytes⟩)
      · rcases (h.folder other content).mp hlookup with
          hfile | ⟨id', hcreated, _⟩ | ⟨file, hfile, _⟩
        · exact Or.inl hfile
        · rw [hflight, Flight.created.injEq] at hcreated
          exact absurd hcreated.2.symm hne
        · simp at hfile
    · rintro (hfile | ⟨id', hcreated, rfl⟩ | ⟨file, hfile, rfl, rfl⟩)
      · right
        refine ⟨?_, (h.folder other content).mpr (Or.inl hfile)⟩
        -- The created name still has its empty content, so no file owns it.
        rintro rfl
        obtain ⟨file, hfile, hrenamed, hfileName', rfl⟩ := hfile
        have hempty := (h.folder other []).mpr (Or.inr (Or.inl ⟨id, hflight, rfl⟩))
        have hfull := (h.folder other file.mmap).mpr
          (Or.inl ⟨file, hfile, hrenamed, hfileName', rfl⟩)
        rw [hempty, Option.some.injEq] at hfull
        obtain ⟨entries, hholds, _⟩ := (h.known_stored hfile).holds
        have hlength := hholds.length_mmap_ge
        rw [← hfull, headerSize] at hlength
        simp at hlength
      · simp at hcreated
      · rw [Option.mem_some_iff] at hfile
        subst hfile
        exact Or.inl ⟨hfileName, hbytes⟩
  · exact h.phase.congr (fun level files lo hi hsel => hsel.congr rfl)
      (le_refl _)

/-- Installing the file. -/
theorem addFile (h : EngineInv state transit)
    (htop : state.engine.fileId < 10 ^ 8)
    (hstep : state.addFile = some state') :
    ∃ file, transit = some file ∧ NewId state file.fileId ∧
      file.Stored state.engine.fileId ∧ file.levelId = 0 ∧
      state' = { state with
        engine := state.engine.installFile file, flight := .none } ∧
      EngineInv state' none := by
  have hflight := h.flight
  unfold EngineState.addFile at hstep
  cases hpc : state.flight with
  | none => simp [hpc] at hstep
  | created id name => simp [hpc] at hstep
  | written id name =>
      rw [FlightInv, hpc] at hflight
      obtain ⟨file, rfl, hstored, hlevel, rfl, rfl, hnew⟩ := hflight
      have hlookup := (h.folder file.fileName file.mmap).mpr
        (Or.inr (Or.inr ⟨file, rfl, rfl, rfl⟩))
      have hopen : state.engine.openFile file.fileName = some file := by
        rw [StorageEngine.openFile, hlookup]
        exact hstored.ofName htop
      simp only [hpc, StorageEngine.addFile, hopen, Option.map_some,
        Option.bind_eq_bind, Option.bind_some, Option.some.injEq] at hstep
      have hlevels := h.levels.installFile hstored
        (fun other hother => hnew.fresh other (Or.inl hother))
        (fun hpos => absurd hlevel (by omega))
      refine ⟨file, rfl, hnew, hstored, hlevel, hstep.symm, ?_⟩
      rw [← hstep]
      refine ⟨h.top, hlevels, h.stored, h.nodup, ?_, ?_, rfl, ?_, ?_⟩
      · intro other hother hlive
        rcases h.levels.mem_files_installFile.mp hlive with rfl | hlive
        · exact hnew.fresh other (Or.inr hother) rfl
        · exact h.apart other hother hlive
      · intro other hother live hlive hid
        rcases hlive with hlive | hlive
        · rcases h.levels.mem_files_installFile.mp hlive with rfl | hlive
          · exact absurd hid (hnew.fresh other (Or.inr hother))
          · exact h.ids other hother live (Or.inl hlive) hid
        · exact h.ids other hother live (Or.inr hlive) hid
      · intro name bytes
        rw [StorageEngine.folder_installFile, h.folder]
        have hnotRenamed : file ∉ state.phase.renamed := fun hmem =>
          hnew.fresh file (Or.inl (h.phase.renamed_live hmem)) rfl
        constructor
        · rintro (⟨other, hother, hrenamed, hname⟩ | ⟨id, hcreated, _⟩ |
            ⟨other, hother, hname⟩)
          · refine Or.inl ⟨other, ?_, hrenamed, hname⟩
            exact hother.imp (fun hlive =>
              h.levels.mem_files_installFile.mpr (Or.inr hlive)) id
          · rw [hpc] at hcreated
            exact absurd hcreated (by simp)
          · rw [Option.mem_some_iff] at hother
            subst hother
            exact Or.inl ⟨file, Or.inl
              (h.levels.mem_files_installFile.mpr (Or.inl rfl)), hnotRenamed,
              hname⟩
        · rintro (⟨other, hother, hrenamed, hname⟩ | ⟨id, hcreated, _⟩ |
            ⟨other, hother, _⟩)
          · rcases hother with hother | hother
            · rcases h.levels.mem_files_installFile.mp hother with rfl | hother
              · exact Or.inr (Or.inr ⟨other, rfl, hname⟩)
              · exact Or.inl ⟨other, Or.inl hother, hrenamed, hname⟩
            · exact Or.inl ⟨other, Or.inr hother, hrenamed, hname⟩
          · simp at hcreated
          · simp at hother
      · exact h.phase.congr (fun level files lo hi hsel =>
          hsel.installFile h.levels hlevel hnew.newer) (le_refl _)

end EngineInv

end SimpleKV
