/-
`StorageEngine`: the files of each level, the map from ids to files, the id
counter, and the data folder they live in.  The compaction that rearranges
them is in its own module.
-/
import SimpleKV.FileFormat
import Mathlib.Data.List.Sort

namespace SimpleKV

/-- `std::map<int, std::vector<File*>>`: a level without an entry is empty. -/
abbrev LevelFiles := List (List File)

namespace LevelFiles

/-- `level_files_[i]`. -/
def level (levels : LevelFiles) (i : Nat) : List File :=
  levels.getD i []

/-- Assignment to `level_files_[i]`. -/
def setLevel : LevelFiles → Nat → List File → LevelFiles
  | [], 0, files => [files]
  | [], i + 1, files => [] :: setLevel [] i files
  | _ :: levels, 0, files => files :: levels
  | head :: levels, i + 1, files => head :: setLevel levels i files

theorem level_setLevel (levels : LevelFiles) (i j : Nat) (files : List File) :
    level (setLevel levels i files) j =
      if j = i then files else level levels j := by
  induction levels, i, files using setLevel.induct generalizing j with
  | case1 files => cases j <;> simp [setLevel, level]
  | case2 i files ih =>
      cases j with
      | zero => simp [setLevel, level]
      | succ j => simpa [setLevel, level] using ih j
  | case3 head levels files => cases j <;> simp [setLevel, level]
  | case4 head levels i files ih =>
      cases j with
      | zero => simp [setLevel, level]
      | succ j => simpa [setLevel, level] using ih j

theorem mem_flatten_iff {levels : LevelFiles} {file : File} :
    file ∈ levels.flatten ↔ ∃ i, file ∈ level levels i := by
  rw [List.mem_flatten]
  constructor
  · rintro ⟨files, hfiles, hmem⟩
    obtain ⟨i, hi, rfl⟩ := List.getElem_of_mem hfiles
    exact ⟨i, by simpa [level, hi] using hmem⟩
  · rintro ⟨i, hmem⟩
    by_cases hi : i < levels.length
    · exact ⟨levels[i], List.getElem_mem hi, by simpa [level, hi] using hmem⟩
    · simp [level, hi] at hmem

end LevelFiles

/-- The data folder: file names and their bytes. -/
abbrev Folder := AList fun _ : Name => Bytes

structure StorageEngine where
  fileId : Int
  level0FilesNumberLimit : Nat
  levelFiles : LevelFiles
  filesMap : AList fun _ : Int => File
  folder : Folder

/-- The insertion loop of `AddFile` and `UpdateMapAfterCompaction`: before the
first file whose lower bound is not smaller. -/
def insertFile (file : File) (files : List File) : List File :=
  files.orderedInsert (fun a b => a.lowerBound ≤ b.lowerBound) file

namespace StorageEngine

/-- An engine over an empty data folder. -/
def new (level0FilesNumberLimit : Nat) : StorageEngine where
  fileId := -1
  level0FilesNumberLimit
  levelFiles := []
  filesMap := ∅
  folder := ∅

def level (engine : StorageEngine) (i : Nat) : List File :=
  engine.levelFiles.level i

/-- All files of `level_files_`. -/
def files (engine : StorageEngine) : List File :=
  engine.levelFiles.flatten

theorem mem_files {engine : StorageEngine} {file : File} :
    file ∈ engine.files ↔ ∃ i, file ∈ engine.level i :=
  LevelFiles.mem_flatten_iff

/-- `NewWritableFile`: the id, the name, and the truncated file. -/
def newWritableFile (levelId : Nat) (engine : StorageEngine) :
    Int × Name × StorageEngine :=
  let id := engine.fileId + 1
  let name := fileName levelId id
  (id, name,
    { engine with fileId := id, folder := engine.folder.insert name [] })

/-- Closing a stream after all its `fwrite`s. -/
def writeFile (name : Name) (bytes : Bytes) (engine : StorageEngine) :
    StorageEngine :=
  { engine with folder := engine.folder.insert name bytes }

/-- `new File(file_name)`. -/
def openFile (name : Name) (engine : StorageEngine) : Option File := do
  let bytes ← engine.folder.lookup name
  File.ofName name bytes

/-- The engine after a complete new file, not yet installed. -/
def withFile (file : File) (engine : StorageEngine) : StorageEngine :=
  { engine with
    fileId := file.fileId
    folder := engine.folder.insert file.fileName file.mmap }

/-- Entering a file in `level_files_` and `files_map_`. -/
def installFile (engine : StorageEngine) (file : File) : StorageEngine :=
  { engine with
    levelFiles := engine.levelFiles.setLevel file.levelId
      (insertFile file (engine.level file.levelId))
    filesMap := engine.filesMap.insert file.fileId file }

/-- `AddFile`. -/
def addFile (name : Name) (engine : StorageEngine) : Option StorageEngine :=
  (engine.openFile name).map engine.installFile

/-- The test for the `Notify` at the end of `AddFile`. -/
def wantsCompaction (engine : StorageEngine) : Bool :=
  decide (engine.level0FilesNumberLimit < (engine.level 0).length)

/-- One level of `GetContainsFiles`: a walk that stops at the first lower bound
above the key, then newest ids first. -/
def levelContainsFiles (key : Bytes) (files : List File) : List File :=
  ((files.takeWhile fun file => decide (file.lowerBound ≤ key)).filter
    fun file => decide (key ≤ file.upperBound)).insertionSort
      fun a b => b.fileId ≤ a.fileId

/-- `GetContainsFiles`. -/
def getContainsFiles (key : Bytes) (engine : StorageEngine) :
    List (List File) :=
  engine.levelFiles.map (levelContainsFiles key)

/-- The erasing loop of `UpdateMapAfterCompaction` for one file. -/
def eraseFile (engine : StorageEngine) (file : File) : StorageEngine :=
  { engine with
    levelFiles := engine.levelFiles.setLevel file.levelId
      ((engine.level file.levelId).eraseP fun other =>
        other.fileId == file.fileId)
    filesMap := engine.filesMap.erase file.fileId }

/-- The locked part of `UpdateMapAfterCompaction`. -/
def updateMap (compacted compact : List File) (engine : StorageEngine) :
    StorageEngine :=
  compacted.foldl installFile (compact.foldl eraseFile engine)

/-- `File::Delete`. -/
def removeFile (file : File) (engine : StorageEngine) : StorageEngine :=
  { engine with folder := engine.folder.erase file.fileName }

/-- `std::sort` with `StorageEngine::cmp`: equal lower bounds may come out in
any order. -/
structure BoundSort where
  sort : List File → List File
  perm : ∀ files, (sort files).Perm files
  sorted : ∀ files,
    (sort files).Pairwise fun a b => a.lowerBound ≤ b.lowerBound

instance : Std.Total fun a b : File => a.lowerBound ≤ b.lowerBound :=
  ⟨fun a b => le_total a.lowerBound b.lowerBound⟩

instance : IsTrans File fun a b => a.lowerBound ≤ b.lowerBound :=
  ⟨fun _ _ _ hab hbc => le_trans hab hbc⟩

/-- An insertion sort. -/
def BoundSort.insertion : BoundSort where
  sort files := files.insertionSort fun a b => a.lowerBound ≤ b.lowerBound
  perm := List.perm_insertionSort _
  sorted := List.pairwise_insertionSort _

/-- One round of the `readdir` loop. -/
def readFile (engine : StorageEngine) (name : Name) :
    Option StorageEngine :=
  if name.head? = some '.' then some engine
  else do
    let file ← engine.openFile name
    some
      { engine with
        levelFiles := engine.levelFiles.setLevel file.levelId
          (engine.level file.levelId ++ [file])
        filesMap := engine.filesMap.insert file.fileId file
        fileId := max engine.fileId file.fileId }

/-- The constructor, with the names in the order `readdir` lists them. -/
def ofFolder (sort : BoundSort) (level0FilesNumberLimit : Nat)
    (folder : Folder) (listing : List Name) : Option StorageEngine := do
  let engine ← listing.foldlM readFile
    { new level0FilesNumberLimit with folder }
  some { engine with levelFiles := engine.levelFiles.map sort.sort }

end StorageEngine

theorem mem_insertFile {file other : File} {files : List File} :
    other ∈ insertFile file files ↔ other = file ∨ other ∈ files :=
  List.mem_orderedInsert _

/-- A level is listed by lower bound. -/
def SortedByLower (files : List File) : Prop :=
  files.Pairwise fun a b => a.lowerBound ≤ b.lowerBound

theorem SortedByLower.insertFile {files : List File}
    (h : SortedByLower files) (file : File) :
    SortedByLower (insertFile file files) :=
  List.Pairwise.orderedInsert file files h

theorem nodup_insertFile {file : File} {files : List File}
    (hfiles : files.Nodup) (hfile : file ∉ files) :
    (insertFile file files).Nodup :=
  (List.perm_orderedInsert _ file files).nodup_iff.mpr
    (List.nodup_cons.mpr ⟨hfile, hfiles⟩)

namespace StorageEngine

theorem level_installFile (engine : StorageEngine) (file : File) (i : Nat) :
    (engine.installFile file).level i =
      if i = file.levelId then insertFile file (engine.level i)
      else engine.level i := by
  rw [level, installFile, LevelFiles.level_setLevel]
  split_ifs with hi
  · rw [hi]
  · rfl

theorem level_eraseFile (engine : StorageEngine) (file : File) (i : Nat) :
    (engine.eraseFile file).level i =
      if i = file.levelId then
        (engine.level i).eraseP fun other => other.fileId == file.fileId
      else engine.level i := by
  rw [level, eraseFile, LevelFiles.level_setLevel]
  split_ifs with hi
  · rw [hi]
  · rfl

theorem mem_level_installFile {engine : StorageEngine} {file other : File}
    {i : Nat} :
    other ∈ (engine.installFile file).level i ↔
      (other = file ∧ i = file.levelId) ∨ other ∈ engine.level i := by
  rw [level_installFile]
  split_ifs with hi
  · rw [mem_insertFile]
    simp [hi]
  · simp [hi]

@[simp] theorem folder_installFile (engine : StorageEngine) (file : File) :
    (engine.installFile file).folder = engine.folder := rfl

end StorageEngine

end SimpleKV
