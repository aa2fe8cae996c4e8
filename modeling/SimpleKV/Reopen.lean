/-
The constructor of `StorageEngine` on an existing folder.  Levels, ids, bounds
and the search order are read back from names and headers, so an engine
reopened between flushes and compactions answers like the one that was closed.
-/
import SimpleKV.StoreInvariant

namespace SimpleKV

/-- `readdir` lists the folder in some order, among hidden entries. -/
def Lists (listing : List Name) (folder : Folder) : Prop :=
  (listing.filter fun name => decide (name.head? ≠ some '.')).Perm folder.keys

/-- The folder holds these files and nothing else. -/
structure OnDisk (files : List File) (top : Int) (folder : Folder) :
    Prop where
  stored : ∀ file ∈ files, file.Stored top
  nodup : files.Nodup
  ids : ∀ file ∈ files, ∀ other ∈ files,
    file.fileId = other.fileId → file = other
  folder : ∀ name bytes, folder.lookup name = some bytes ↔
    ∃ file ∈ files, file.fileName = name ∧ file.mmap = bytes

/-- The engine of the `readdir` loop once it has read `done`. -/
structure ReadSoFar (done : List File) (engine : StorageEngine) : Prop where
  level : ∀ i, engine.level i =
    done.filter fun file => decide (file.levelId = i)
  map : ∀ id file, engine.filesMap.lookup id = some file ↔
    file ∈ done ∧ file.fileId = id
  le_top : ∀ file ∈ done, file.fileId ≤ engine.fileId
  top : engine.fileId = -1 ∨ ∃ file ∈ done, file.fileId = engine.fileId

/-- What the constructor builds from `files`. -/
structure Reopened (files : List File) (engine : StorageEngine) : Prop where
  level : ∀ i, (engine.level i).Perm
    (files.filter fun file => decide (file.levelId = i))
  sorted : ∀ i, SortedByLower (engine.level i)
  map : ∀ id file, engine.filesMap.lookup id = some file ↔
    file ∈ files ∧ file.fileId = id
  le_top : ∀ file ∈ files, file.fileId ≤ engine.fileId
  top : engine.fileId = -1 ∨ ∃ file ∈ files, file.fileId = engine.fileId

/-- Levels are sorted one by one. -/
theorem StorageEngine.BoundSort.level_map (sort : StorageEngine.BoundSort)
    (levels : LevelFiles) (i : Nat) :
    LevelFiles.level (levels.map sort.sort) i =
      sort.sort (levels.level i) := by
  by_cases hi : i < levels.length
  · simp [LevelFiles.level, hi]
  · simp [LevelFiles.level, hi, (sort.perm []).eq_nil]

namespace OnDisk

variable {files : List File} {top : Int} {folder : Folder}

theorem lookup (h : OnDisk files top folder) {file : File}
    (hfile : file ∈ files) : folder.lookup file.fileName = some file.mmap :=
  (h.folder _ _).mpr ⟨file, hfile, rfl, rfl⟩

theorem name_inj (h : OnDisk files top folder) (htop : top < 10 ^ 8)
    {file other : File} (hfile : file ∈ files) (hother : other ∈ files)
    (hname : file.fileName = other.fileName) : file = other := by
  refine h.ids file hfile other hother ?_
  by_contra hne
  exact (h.stored file hfile).fileName_ne (h.stored other hother) htop hne
    hname

/-- One file of the `readdir` loop. -/
theorem readFile (h : OnDisk files top folder) (htop : top < 10 ^ 8)
    {done : List File} {engine : StorageEngine}
    (hread : ReadSoFar done engine) (hdone : ∀ file ∈ done, file ∈ files)
    (hfolder : engine.folder = folder) {file : File} (hfile : file ∈ files)
    (hhead : file.fileName.head? ≠ some '.') :
    ∃ engine', engine.readFile file.fileName = some engine' ∧
      ReadSoFar (done ++ [file]) engine' ∧ engine'.folder = folder := by
  have hopen : engine.openFile file.fileName = some file := by
    rw [StorageEngine.openFile, hfolder, h.lookup hfile]
    exact (h.stored file hfile).ofName htop
  have hstep : engine.readFile file.fileName = some
      { engine with
        levelFiles := engine.levelFiles.setLevel file.levelId
          (engine.level file.levelId ++ [file])
        filesMap := engine.filesMap.insert file.fileId file
        fileId := max engine.fileId file.fileId } := by
    rw [StorageEngine.readFile, if_neg hhead, hopen]
    rfl
  refine ⟨_, hstep, ?_, hfolder⟩
  constructor
  · intro i
    rw [List.filter_append, ← hread.level i]
    change LevelFiles.level (LevelFiles.setLevel _ _ _) i = _
    rw [LevelFiles.level_setLevel]
    by_cases hi : i = file.levelId
    · simp [hi]
    · simp [hi, Ne.symm hi, StorageEngine.level]
  · intro id other
    change AList.lookup id (engine.filesMap.insert file.fileId file) = _ ↔ _
    by_cases hid : id = file.fileId
    · subst hid
      rw [AList.lookup_insert, Option.some.injEq]
      constructor
      · rintro rfl
        simp
      · rintro ⟨hother, hid⟩
        rcases List.mem_append.mp hother with hother | hother
        · exact h.ids file hfile other (hdone other hother) hid.symm
        · exact (List.mem_singleton.mp hother).symm
    · rw [AList.lookup_insert_ne hid, hread.map]
      constructor
      · rintro ⟨hother, heq⟩
        exact ⟨List.mem_append_left _ hother, heq⟩
      · rintro ⟨hother, rfl⟩
        rcases List.mem_append.mp hother with hother | hother
        · exact ⟨hother, rfl⟩
        · exact absurd (congrArg File.fileId (List.mem_singleton.mp hother)) hid
  · intro other hother
    change other.fileId ≤ max engine.fileId file.fileId
    rcases List.mem_append.mp hother with hother | hother
    · exact (hread.le_top other hother).trans (le_max_left _ _)
    · rw [List.mem_singleton.mp hother]
      exact le_max_right _ _
  · change max engine.fileId file.fileId = -1 ∨ _
    rcases le_total engine.fileId file.fileId with hle | hle
    · exact Or.inr ⟨file, by simp, (max_eq_right hle).symm⟩
    · have hmax : max engine.fileId file.fileId = engine.fileId :=
        max_eq_left hle
      rcases hread.top with htop | ⟨other, hother, hid⟩
      · exact Or.inl (hmax.trans htop)
      · exact Or.inr ⟨other, List.mem_append_left _ hother,
          hid.trans hmax.symm⟩

/-- The `readdir` loop reads the files in the order of the listing. -/
theorem readFiles (h : OnDisk files top folder) (htop : top < 10 ^ 8)
    (listing : List Name)
    (hlisting : ∀ name ∈ listing, name.head? ≠ some '.' → name ∈ folder)
    {done : List File} {engine : StorageEngine}
    (hread : ReadSoFar done engine) (hdone : ∀ file ∈ done, file ∈ files)
    (hfolder : engine.folder = folder) :
    ∃ engine' more, listing.foldlM StorageEngine.readFile engine =
        some engine' ∧ engine'.folder = folder ∧
      ReadSoFar (done ++ more) engine' ∧ (∀ file ∈ more, file ∈ files) ∧
      more.map File.fileName =
        listing.filter (fun name => decide (name.head? ≠ some '.')) := by
  induction listing generalizing done engine with
  | nil =>
      exact ⟨engine, [], rfl, hfolder, by simpa using hread, by simp, rfl⟩
  | cons name listing ih =>
      have hrest : ∀ name ∈ listing, name.head? ≠ some '.' → name ∈ folder :=
        fun name hname => hlisting name (List.mem_cons_of_mem _ hname)
      by_cases hhead : name.head? = some '.'
      · obtain ⟨engine', more, hfold, hmore⟩ := ih hrest hread hdone hfolder
        refine ⟨engine', more, ?_, ?_⟩
        · rw [List.foldlM_cons, StorageEngine.readFile, if_pos hhead]
          exact hfold
        · rw [List.filter_cons_of_neg (by simpa using hhead)]
          exact hmore
      · obtain ⟨bytes, hbytes⟩ := Option.isSome_iff_exists.mp
          (AList.lookup_isSome.mpr (hlisting name List.mem_cons_self hhead))
        obtain ⟨file, hfile, rfl, _⟩ := (h.folder name bytes).mp hbytes
        obtain ⟨engine', hstep, hread', hfolder'⟩ :=
          h.readFile htop hread hdone hfolder hfile hhead
        obtain ⟨engine'', more, hfold, hfolder'', hread'', hmem, hnames⟩ := ih
          hrest hread' (fun other hother => (List.mem_append.mp hother).elim
            (hdone other) fun hother => List.mem_singleton.mp hother ▸ hfile)
          hfolder'
        refine ⟨engine'', file :: more, ?_, hfolder'', ?_, ?_, ?_⟩
        · rw [List.foldlM_cons, hstep]
          exact hfold
        · rw [← List.singleton_append, ← List.append_assoc]
          exact hread''
        · intro other hother
          rcases List.mem_cons.mp hother with rfl | hother
          · exact hfile
          · exact hmem other hother
        · rw [List.filter_cons_of_pos (by simpa using hhead), List.map_cons,
            hnames]

/-- Files are the same once each name of the folder is read once. -/
theorem perm_of_names (h : OnDisk files top folder) (htop : top < 10 ^ 8)
    {done : List File} (hdone : ∀ file ∈ done, file ∈ files)
    (hnames : (done.map File.fileName).Perm folder.keys) :
    done.Perm files := by
  have hnodup : (done.map File.fileName).Nodup :=
    hnames.nodup_iff.mpr folder.nodupKeys
  refine (List.perm_ext_iff_of_nodup hnodup.of_map h.nodup).mpr fun file =>
    ⟨hdone file, fun hfile => ?_⟩
  have hkey : file.fileName ∈ folder.keys := AList.mem_keys.mp
    (AList.lookup_isSome.mp (by rw [h.lookup hfile]; rfl))
  obtain ⟨other, hother, hname⟩ := List.mem_map.mp (hnames.mem_iff.mpr hkey)
  exact h.name_inj htop (hdone other hother) hfile hname ▸ hother

/-- The constructor succeeds on every listing of the folder. -/
theorem exists_ofFolder (h : OnDisk files top folder) (htop : top < 10 ^ 8)
    (sort : StorageEngine.BoundSort) (limit : Nat) {listing : List Name}
    (hlisting : Lists listing folder) :
    ∃ engine, StorageEngine.ofFolder sort limit folder listing = some engine ∧
      engine.folder = folder ∧ Reopened files engine := by
  have hstart : ReadSoFar [] { StorageEngine.new limit with folder } :=
    ⟨fun i => by simp [StorageEngine.level, StorageEngine.new,
      LevelFiles.level], fun id file => by simp [StorageEngine.new],
      fun file hfile => absurd hfile (by simp), Or.inl rfl⟩
  obtain ⟨engine, done, hfold, hfolder, hread, hdone, hnames⟩ :=
    h.readFiles htop listing (fun name hname hhead => AList.mem_keys.mpr
      (hlisting.mem_iff.mp (List.mem_filter.mpr ⟨hname, by simpa using hhead⟩)))
      hstart (fun file hfile => absurd hfile (by simp)) rfl
  rw [List.nil_append] at hread
  have hperm := h.perm_of_names htop hdone (hnames ▸ hlisting)
  refine ⟨{ engine with levelFiles := engine.levelFiles.map sort.sort }, ?_,
    hfolder, ?_, fun i => ?_, fun id file => ?_, fun file hfile => ?_, ?_⟩
  · rw [StorageEngine.ofFolder, hfold]
    rfl
  · intro i
    rw [StorageEngine.level, sort.level_map]
    refine (sort.perm _).trans ?_
    rw [← StorageEngine.level, hread.level i]
    exact hperm.filter _
  · rw [StorageEngine.level, sort.level_map]
    exact sort.sorted _
  · exact (hread.map id file).trans (and_congr hperm.mem_iff Iff.rfl)
  · exact hread.le_top file (hperm.mem_iff.mpr hfile)
  · rcases hread.top with htop | ⟨file, hfile, hid⟩
    · exact Or.inl htop
    · exact Or.inr ⟨file, hperm.mem_iff.mp hfile, hid⟩

end OnDisk

namespace Reopened

variable {files : List File} {engine : StorageEngine}

theorem mem_level (h : Reopened files engine) {i : Nat} {file : File} :
    file ∈ engine.level i ↔ file ∈ files ∧ file.levelId = i := by
  rw [(h.level i).mem_iff, List.mem_filter, decide_eq_true_eq]

theorem mem_files (h : Reopened files engine) {file : File} :
    file ∈ engine.files ↔ file ∈ files := by
  rw [StorageEngine.mem_files]
  constructor
  · rintro ⟨_, hfile⟩
    exact (h.mem_level.mp hfile).1
  · exact fun hfile => ⟨file.levelId, h.mem_level.mpr ⟨hfile, rfl⟩⟩

theorem searchable (h : Reopened files engine) {top : Int} {folder : Folder}
    (hdisk : OnDisk files top folder) : Searchable engine where
  levelId := fun _ _ hfile => (h.mem_level.mp hfile).2
  sorted := h.sorted
  nodup := fun i => (h.level i).nodup_iff.mpr (hdisk.nodup.filter _)
  ids := fun file hfile other hother =>
    hdisk.ids file (h.mem_files.mp hfile) other (h.mem_files.mp hother)
  bounds := fun file hfile _ =>
    (hdisk.stored file (h.mem_files.mp hfile)).bounds_of_get_ne_none

/-- Reopening the files of a level invariant restores it. -/
theorem levelInv {original : StorageEngine}
    (h : Reopened original.files engine) (hinv : LevelInv original) :
    LevelInv engine where
  levelId := fun _ _ hfile => (h.mem_level.mp hfile).2
  sorted := h.sorted
  nodup := fun i => (h.level i).nodup_iff.mpr (hinv.nodup_files.filter _)
  apart := by
    intro i hpos file hfile other hother
    rw [h.mem_level, ← hinv.mem_level_iff] at hfile hother
    exact hinv.apart i hpos file hfile other hother
  stored := fun file hfile =>
    { hinv.stored file (h.mem_files.mp hfile) with
      le_top := h.le_top file (h.mem_files.mp hfile) }
  ids := fun file hfile other hother =>
    hinv.ids file (h.mem_files.mp hfile) other (h.mem_files.mp hother)
  map := fun id file => (h.map id file).trans
    (and_congr h.mem_files.symm Iff.rfl)

theorem level_perm {original : StorageEngine}
    (h : Reopened original.files engine) (hinv : LevelInv original) (i : Nat) :
    (engine.level i).Perm (original.level i) := by
  refine (List.perm_ext_iff_of_nodup ?_ (hinv.nodup i)).mpr fun file => ?_
  · exact (h.levelInv hinv).nodup i
  · rw [h.mem_level, hinv.mem_level_iff]

end Reopened

/-- The files a process that stops here leaves behind. -/
def EngineState.disk (state : EngineState) : List File :=
  (state.engine.files ++ state.phase.extra).filter fun file =>
    decide (file ∉ state.phase.renamed)

namespace EngineInv

variable {state : EngineState} {transit : Option File}

theorem transit_of_flight (h : EngineInv state transit)
    (hflight : state.flight = .none) : transit = none := by
  have hinv := h.flight
  rw [FlightInv, hflight] at hinv
  exact hinv

/-- With no flush under way the folder holds the files of the levels and those
of the compaction. -/
theorem onDisk (h : EngineInv state transit)
    (hflight : state.flight = .none) :
    OnDisk state.disk state.engine.fileId state.engine.folder := by
  have hknown : ∀ file, file ∈ state.disk ↔
      (file ∈ state.engine.files ∨ file ∈ state.phase.extra) ∧
        file ∉ state.phase.renamed := fun file => by
    rw [EngineState.disk, List.mem_filter, List.mem_append,
      decide_eq_true_eq]
  refine ⟨fun file hfile => ?_, ?_, fun file hfile other hother hid => ?_,
    fun name bytes => ?_⟩
  · rcases ((hknown file).mp hfile).1 with hlive | hextra
    · exact h.levels.stored file hlive
    · exact h.stored file hextra
  · refine List.Nodup.filter _ (List.nodup_append.mpr
      ⟨h.levels.nodup_files, h.nodup, fun file hlive other hextra => ?_⟩)
    rintro rfl
    exact h.apart file hextra hlive
  · exact h.known_ids ((hknown file).mp hfile).1 ((hknown other).mp hother).1
      hid
  · rw [h.folder, InFolder, h.transit_of_flight hflight, hflight]
    simp only [hknown, reduceCtorEq, false_and, exists_false, or_false,
      Option.mem_def, and_assoc]

/-- An engine reopened from its files can go on. -/
theorem ofReopened {engine original : StorageEngine} {folder : Folder}
    {top : Int} (h : Reopened original.files engine)
    (hinv : LevelInv original) (hdisk : OnDisk original.files top folder)
    (hfolder : engine.folder = folder) :
    EngineInv (.start engine) none where
  top := by
    rcases h.top with htop | ⟨file, hfile, hid⟩
    · exact htop.ge
    · have hnonneg := (hinv.stored file hfile).nonneg
      change -1 ≤ engine.fileId
      omega
  levels := h.levelInv hinv
  stored := fun file hfile => absurd hfile (by simp [EngineState.start,
    Phase.extra])
  nodup := List.nodup_nil
  apart := fun file hfile => absurd hfile (by simp [EngineState.start,
    Phase.extra])
  ids := fun file hfile => absurd hfile (by simp [EngineState.start,
    Phase.extra])
  flight := rfl
  folder := by
    intro name bytes
    change engine.folder.lookup name = some bytes ↔ _
    rw [hfolder, hdisk.folder]
    simp [InFolder, EngineState.start, Phase.extra, Phase.renamed,
      h.mem_files]
  phase := trivial

/-- With no flush and no compaction under way the folder holds the installed
files. -/
theorem onDisk_of_ready (h : EngineInv state transit)
    (hflight : state.flight = .none) (hphase : state.phase = .ready) :
    OnDisk state.engine.files state.engine.fileId state.engine.folder := by
  have hdisk := h.onDisk hflight
  have hready : state.disk = state.engine.files := by
    simp [EngineState.disk, hphase, Phase.extra, Phase.renamed]
  rwa [hready] at hdisk

/-- Every name in the folder carries an id that was handed out. -/
theorem id_le_of_mem_folder (h : EngineInv state transit)
    (htop : state.engine.fileId < 10 ^ 8) {name : Name}
    (hname : name ∈ state.engine.folder) {levelId : Nat} {id : Int}
    (hparse : parseFileName name = some (levelId, id)) :
    id ≤ state.engine.fileId := by
  obtain ⟨bytes, hbytes⟩ := Option.isSome_iff_exists.mp
    (AList.lookup_isSome.mpr hname)
  have hstored : ∀ file : File, file.Stored state.engine.fileId →
      file.fileName = name → id ≤ state.engine.fileId := by
    rintro file hstored rfl
    rw [hstored.parse htop, Option.some.injEq, Prod.mk.injEq] at hparse
    exact hparse.2 ▸ hstored.le_top
  rcases (h.folder name bytes).mp hbytes with ⟨file, hfile, _, heq, _⟩ |
    ⟨created, hflight, _⟩ | ⟨file, hfile, heq, _⟩
  · rcases hfile with hlive | hextra
    · exact hstored file (h.levels.stored file hlive) heq
    · exact hstored file (h.stored file hextra) heq
  · have hinv := h.flight
    rw [FlightInv, hflight] at hinv
    obtain ⟨_, hnew, rfl⟩ := hinv
    have hle := hnew.le_top
    rw [parseFileName_fileName (by decide) hnew.nonneg (by omega),
      Option.some.injEq, Prod.mk.injEq] at hparse
    exact hparse.2 ▸ hle
  · exact hstored file (h.transit_stored hfile).1 heq

end EngineInv

namespace DataBase

/-- Ids are drawn upwards. -/
theorem fileId_le_step {db db' : DataBase} {act : Act}
    (hstep : step act db = some db') :
    db.store.engine.fileId ≤ db'.store.engine.fileId := by
  cases step_data hstep with
  | control _ hsame => rw [hsame.store]
  | getFiles hget =>
      obtain ⟨cache, rfl⟩ := getFiles_eq hget
      exact le_refl _
  | @newFile store _ hnew =>
      have hid := (EngineState.newFile_eq hnew).2.2
      change db.store.engine.fileId ≤ store.engine.fileId
      omega
  | write _ _ hwrite =>
      obtain ⟨_, _, _, _, hid⟩ := EngineState.write_eq hwrite
      exact hid.ge
  | addFile _ hadd => exact (EngineState.addFile_eq hadd).2.ge
  | compact _ hcompact => exact hcompact.flight_eq.2
  | update hupdate => exact (EngineState.update_flight hupdate).2
  | _ => exact le_refl _

theorem fileId_le_reaches {P : DataBase → Prop} {db db' : DataBase}
    {acts : List Act} (hrun : Reaches P db acts db') :
    db.store.engine.fileId ≤ db'.store.engine.fileId := by
  induction hrun with
  | start _ => exact le_refl _
  | step _ hstep _ ih => exact ih.trans (fileId_le_step hstep)

end DataBase

/-- For every reachable state with no flush and no compaction under way and
every listing of its folder, the constructor succeeds; the new engine has the
same files in the same levels, satisfies the level invariant and finds the same
value for every key; and in every later run an id drawn is larger than the id of
every file that was ever in the folder before. -/
theorem reopen_faithful (bufferSize : UInt32) (cache : LRUCache) (limit : Nat)
    {acts : List Act} {db : DataBase}
    (hrun : DataBase.Reaches DataBase.IdsFit
      (.start bufferSize cache (.new limit)) acts db)
    (hflight : db.store.flight = .none) (hphase : db.store.phase = .ready)
    (sort : StorageEngine.BoundSort) (limit' : Nat) {listing : List Name}
    (hlisting : Lists listing db.store.engine.folder) :
    ∃ engine, StorageEngine.ofFolder sort limit' db.store.engine.folder
        listing = some engine ∧
      (∀ i, (engine.level i).Perm (db.store.engine.level i)) ∧
      LevelInv engine ∧
      (∀ key, engine.lookup key = db.store.engine.lookup key) ∧
      ∀ (bufferSize' : UInt32) (cache' : LRUCache) (acts' more : List Act)
          (db' later : DataBase),
        DataBase.Reaches DataBase.IdsFit (.start bufferSize' cache' engine)
          acts' db' →
        DataBase.Reaches DataBase.IdsFit db' more later →
        ∀ name ∈ db'.store.engine.folder, ∀ levelId id,
          parseFileName name = some (levelId, id) →
          ∀ newLevel, id < (later.store.engine.newWritableFile newLevel).1 := by
  obtain ⟨transit, hstore⟩ := exists_storeInv (fun _ hids => hids) hrun
  have hinv := hstore.engine.levels
  have hdisk := hstore.engine.onDisk_of_ready hflight hphase
  obtain ⟨engine, hopen, hfolder, hreopened⟩ :=
    hdisk.exists_ofFolder hrun.last sort limit' hlisting
  refine ⟨engine, hopen, hreopened.level_perm hinv, hreopened.levelInv hinv,
    fun key => Option.ext fun value => ?_, ?_⟩
  · rw [(hreopened.searchable hdisk).lookup_eq_some_iff,
      hinv.searchable.lookup_eq_some_iff]
    exact Recency.Layout.reads_congr fun file _ => hreopened.mem_files
  · intro bufferSize' cache' acts' more db' later hrun' hlater name hname
      levelId id hparse newLevel
    obtain ⟨transit', hstore'⟩ := StoreInv.reaches (fun _ hids => hids)
      ⟨.start bufferSize' cache' engine,
        .ofReopened hreopened hinv hdisk hfolder, trivial⟩ hrun'
    have hle := hstore'.engine.id_le_of_mem_folder hrun'.last hname hparse
    have hmono := DataBase.fileId_le_reaches hlater
    change id < later.store.engine.fileId + 1
    omega

/-- The folder as `readdir` may list it. -/
def listingOf (folder : Folder) : List Name :=
  [['.'], ['.', '.']] ++ folder.keys

/-- Three files in level 1 and two files of one key in level 0. -/
def DataBase.mergeAndRewrite : List Act :=
  mergeAndFlush ++ [.remove, .remove, .finish, .select, .select] ++
    writeAndFlush .put [98] [4]

/-- A listing that puts the two files of level 0 the other way round. -/
theorem reopen_faithful_reversed_listing :
    ∃ db engine, DataBase.Reaches DataBase.IdsFit
        (.start 0 (.empty 1 (by decide)) (.new 1))
        DataBase.mergeAndRewrite db ∧
      StorageEngine.ofFolder .insertion 1 db.store.engine.folder
        (listingOf db.store.engine.folder).reverse = some engine ∧
      (db.store.engine.level 0).map File.fileId = [6, 2] ∧
      (engine.level 0).map File.fileId = [2, 6] ∧
      (db.store.engine.level 1).length = 3 ∧
      (∀ i, (engine.level i).Perm (db.store.engine.level i)) ∧
      (∀ key, engine.lookup key = db.store.engine.lookup key) ∧
      engine.lookup [98] = some [4] ∧
      ∀ name ∈ engine.folder, ∀ levelId id,
        parseFileName name = some (levelId, id) →
        ∀ newLevel, id < (engine.newWritableFile newLevel).1 := by
  obtain ⟨db, hrun, hflight, hphase, hlists, hzero, hone, hvalue, hreopens⟩ :=
    DataBase.exists_reaches
      (show DataBase.Along (fun db _ => db.IdsFit) DataBase.mergeAndRewrite
        (.start 0 (.empty 1 (by decide)) (.new 1)) by decide +kernel)
      (show (DataBase.run DataBase.mergeAndRewrite
        (.start 0 (.empty 1 (by decide)) (.new 1))).any (fun db =>
          decide (db.IdsFit ∧
            db.store.flight = .none ∧ db.store.phase = .ready ∧
            ((listingOf db.store.engine.folder).reverse.filter
              fun name => decide (name.head? ≠ some '.')) =
                db.store.engine.folder.keys.reverse ∧
            (db.store.engine.level 0).map File.fileId = [6, 2] ∧
            (db.store.engine.level 1).length = 3 ∧
            db.store.engine.lookup [98] = some [4] ∧
            (StorageEngine.ofFolder .insertion 1 db.store.engine.folder
              (listingOf db.store.engine.folder).reverse).any (fun engine =>
                decide ((engine.level 0).map File.fileId = [2, 6] ∧
                  (DataBase.start 0 (.empty 1 (by decide)) engine).IdsFit)) =
              true)) = true by decide +kernel)
  obtain ⟨engine, hopen, hperm, _, hlookup, hlater⟩ := reopen_faithful 0
    (.empty 1 (by decide)) 1 hrun hflight hphase .insertion 1
    (show Lists (listingOf db.store.engine.folder).reverse _ from
      (List.Perm.of_eq hlists).trans (List.reverse_perm _))
  rw [hopen, Option.any_some, decide_eq_true_eq] at hreopens
  obtain ⟨hties, hids⟩ := hreopens
  have hstart := DataBase.Reaches.start hids
  exact ⟨db, engine, hrun, hopen, hzero, hties, hone, hperm, hlookup,
    (hlookup [98]).trans hvalue, hlater _ _ _ _ _ _ hstart hstart⟩

end SimpleKV
