/-
`StorageEngine::Compact` as the steps other threads can see: the choice of
files from a snapshot, the merge or the trivial move, the update of the maps,
and the removal of the old files.  One `EngineState` also carries the file the
flush thread has under way.
-/
import SimpleKV.StorageEngine
import Mathlib.Data.Prod.Lex

namespace SimpleKV

/-- `FindOverlapFilesLevel0` on the candidates after the first: the chosen
files and the widened upper bound. -/
def findOverlapFilesLevel0 : List File → List File → Bytes →
    List File × Bytes
  | [], compactFiles, upperbound => (compactFiles, upperbound)
  | file :: candidates, compactFiles, upperbound =>
      if file.lowerBound ≤ upperbound then
        findOverlapFilesLevel0 candidates (compactFiles ++ [file])
          (if upperbound < file.upperBound then file.upperBound
          else upperbound)
      else (compactFiles, upperbound)

/-- `FindOverlapFilesBasedOnBound`. -/
def findOverlapFilesBasedOnBound (candidates compactFiles : List File)
    (lowerbound upperbound : Bytes) : List File :=
  compactFiles ++ candidates.filter fun file =>
    decide (file.lowerBound ≤ upperbound ∧ lowerbound ≤ file.upperBound)

/-- The first half of `Compact`: the files to compact, or `none` when the level
is within its limit.  The limit is computed exactly. -/
def compactFiles (engine : StorageEngine) (levelId : Nat) :
    Option (List File) :=
  if (engine.level levelId).length ≤
      engine.level0FilesNumberLimit * 10 ^ levelId then none
  else
    match engine.level levelId with
    | [] => none
    | first :: candidates =>
        let (files, upperbound) :=
          if levelId = 0 then
            findOverlapFilesLevel0 candidates [first] first.upperBound
          else ([first], first.upperBound)
        some (findOverlapFilesBasedOnBound (engine.level (levelId + 1)) files
          first.lowerBound upperbound)

/-- `TrivialMove` of one file: rename it to a fresh id in the next level. -/
def trivialMove (file : File) (engine : StorageEngine) :
    Option (File × StorageEngine) := do
  let id := engine.fileId + 1
  let name := fileName (file.levelId + 1) id
  let bytes ← engine.folder.lookup file.fileName
  let engine :=
    { engine with
      fileId := id
      folder := (engine.folder.erase file.fileName).insert name bytes }
  let moved ← engine.openFile name
  some (moved, engine)

/-- `priority_queue_cmp`: `a` comes out after `b`. -/
def priorityQueueCmp (a b : Entry) : Bool :=
  decide (b.key < a.key ∨ (a.key = b.key ∧
    (b.levelId < a.levelId ∨
      (a.levelId = b.levelId ∧ a.fileId < b.fileId))))

/-- The order of the queue as a linear order: key, then level, then the id from
large to small. -/
def Entry.rank (entry : Entry) : Bytes ×ₗ ℕ ×ₗ ℤ :=
  toLex (entry.key, toLex (entry.levelId, -entry.fileId))

theorem rank_lt_iff {a b : Entry} :
    b.rank < a.rank ↔ priorityQueueCmp a b = true := by
  simp only [Entry.rank, Prod.Lex.toLex_lt_toLex, priorityQueueCmp,
    decide_eq_true_eq]
  constructor
  · rintro (hkey | ⟨hkey, hlevel | ⟨hlevel, hid⟩⟩)
    · exact Or.inl hkey
    · exact Or.inr ⟨hkey.symm, Or.inl hlevel⟩
    · exact Or.inr ⟨hkey.symm, Or.inr ⟨hlevel.symm, by omega⟩⟩
  · rintro (hkey | ⟨hkey, hlevel | ⟨hlevel, hid⟩⟩)
    · exact Or.inl hkey
    · exact Or.inr ⟨hkey.symm, Or.inl hlevel⟩
    · exact Or.inr ⟨hkey.symm, Or.inr ⟨hlevel.symm, by omega⟩⟩

/-- `std::priority_queue` with `priority_queue_cmp`: some maximum comes out. -/
structure PriorityQueue where
  pop : List Entry → Option (Entry × List Entry)
  pop_nil : pop [] = none
  pop_of_ne_nil : ∀ queue, queue ≠ [] → ∃ top others,
    pop queue = some (top, others) ∧ (top :: others).Perm queue ∧
      ∀ other ∈ others, priorityQueueCmp top other = false

instance : Std.Total fun a b : Entry => a.rank ≤ b.rank :=
  ⟨fun a b => le_total a.rank b.rank⟩

instance : IsTrans Entry fun a b => a.rank ≤ b.rank :=
  ⟨fun _ _ _ hab hbc => le_trans hab hbc⟩

/-- A queue kept sorted. -/
def PriorityQueue.sorted : PriorityQueue where
  pop queue :=
    match queue.insertionSort fun a b => a.rank ≤ b.rank with
    | [] => none
    | top :: others => some (top, others)
  pop_nil := rfl
  pop_of_ne_nil := by
    intro queue hqueue
    have hperm := List.perm_insertionSort (fun a b : Entry => a.rank ≤ b.rank)
      queue
    have hsorted := List.pairwise_insertionSort
      (fun a b : Entry => a.rank ≤ b.rank) queue
    cases hcases : queue.insertionSort fun a b => a.rank ≤ b.rank with
    | nil =>
        rw [hcases] at hperm
        exact absurd hperm.nil_eq.symm hqueue
    | cons top others =>
        rw [hcases] at hperm hsorted
        refine ⟨top, others, rfl, hperm, fun other hother => ?_⟩
        have hle := (List.pairwise_cons.mp hsorted).1 other hother
        exact Bool.eq_false_iff.mpr fun hcmp =>
          absurd (rank_lt_iff.mpr hcmp) (not_lt.mpr hle)

/-- One position of the arrays `compact_files`, `ptr_array` and
`index_offset`. -/
structure Cursor where
  file : File
  ptr : Nat
  indexOffset : UInt32
deriving DecidableEq

/-- The locals of `NWayCompaction`. -/
structure Merge where
  cursors : List Cursor
  pq : List Entry
  prev : Bytes
  hasInitial : Bool
  content : List Bytes
  contentSize : UInt32
  compactedFiles : List File
deriving DecidableEq

namespace Merge

/-- Push the next entry of input `i`, if it has one left. -/
def pushNext (i : Nat) (merge : Merge) : Option Merge := do
  let cursor ← merge.cursors[i]?
  if cursor.ptr < cursor.indexOffset.toNat then
    let (entry, ptr) ← extractEntry cursor.file cursor.ptr i
    some
      { merge with
        cursors := merge.cursors.set i { cursor with ptr }
        pq := entry :: merge.pq }
  else some merge

/-- The header loops of `NWayCompaction`. -/
def openCursors : List File → Nat → Option (List Cursor)
  | [], _ => some []
  | file :: files, i => do
      let (ptr, indexOffset) ← openCursor file i
      let cursors ← openCursors files (i + 1)
      some ({ file, ptr, indexOffset } :: cursors)

/-- `NWayCompaction` up to its main loop. -/
def start (compactFiles : List File) : Option Merge := do
  let cursors ← openCursors compactFiles 0
  (List.range compactFiles.length).foldlM (fun merge i => merge.pushNext i)
    { cursors, pq := [], prev := [], hasInitial := false, content := [],
      contentSize := 0, compactedFiles := [] }

/-- `FlushCompactedFile` and the `new File` on its result. -/
def flushCompactedFile (build : Build) (iter : IterOrder) (levelId : Nat)
    (engine : StorageEngine) (merge : Merge) :
    Option (StorageEngine × Merge) := do
  let (_, name, engine) := engine.newWritableFile levelId
  let (bytes, _) ← build.flush iter merge.content merge.contentSize
  let engine := engine.writeFile name bytes
  let file ← engine.openFile name
  some (engine,
    { merge with
      content := []
      contentSize := 0
      compactedFiles := merge.compactedFiles ++ [file] })

section Output

/-! The main loop, for any `FlushCompactedFile` with a state of its own. -/

variable {S : Type} (flushFile : S → Merge → Option (S × Merge))

/-- The body of the main loop before the next push: the first entry of a key
is kept unless it is a tombstone. -/
def consumeWith (bufferSize : UInt32) (entry : Entry) (out : S)
    (merge : Merge) : Option (S × Merge) :=
  if !merge.hasInitial || entry.key ≠ merge.prev then
    let merge := { merge with hasInitial := true, prev := entry.key }
    if entry.isDelete then some (out, merge)
    else
      let merge :=
        { merge with
          content := merge.content ++ [entry.data]
          contentSize := merge.contentSize + UInt32.ofNat entry.data.length }
      if bufferSize < merge.contentSize then flushFile out merge
      else some (out, merge)
  else some (out, merge)

/-- One round of the main loop. -/
def roundWith (queue : PriorityQueue) (bufferSize : UInt32) (out : S)
    (merge : Merge) : Option (S × Merge) := do
  let (entry, pq) ← queue.pop merge.pq
  let (out, merge) ←
    consumeWith flushFile bufferSize entry out { merge with pq }
  let merge ← merge.pushNext entry.index
  some (out, merge)

/-- After the main loop: the last output file. -/
def finishWith (out : S) (merge : Merge) : Option (S × Merge) :=
  if merge.content = [] then some (out, merge)
  else flushFile out merge

end Output

/-- One round of the main loop on the engine. -/
def round (build : Build) (queue : PriorityQueue) (iter : IterOrder)
    (bufferSize : UInt32) (levelId : Nat) (engine : StorageEngine)
    (merge : Merge) : Option (StorageEngine × Merge) :=
  roundWith (flushCompactedFile build iter (levelId + 1)) queue bufferSize
    engine merge

def finish (build : Build) (iter : IterOrder) (levelId : Nat)
    (engine : StorageEngine) (merge : Merge) :
    Option (StorageEngine × Merge) :=
  finishWith (flushCompactedFile build iter (levelId + 1)) engine merge

end Merge

/-- The local file of the flush loop: created by `NewWritableFile`, then
written by `FlushBuffer`. -/
inductive Flight where
  | none
  | created (id : Int) (name : Name)
  | written (id : Int) (name : Name)
deriving DecidableEq

/-- Where a `Compact` call stands. -/
inductive Phase where
  | ready
  | selected (levelId : Nat) (compactFiles : List File)
  | merging (levelId : Nat) (compactFiles : List File) (merge : Merge)
  | merged (levelId : Nat) (compactFiles compactedFiles : List File)
      (needRemoveFile : Bool)
  | removing (levelId : Nat) (files : List File)
deriving DecidableEq

/-- The engine, the flush under way, and the compaction under way with the
`Compact` calls still to make. -/
structure EngineState where
  engine : StorageEngine
  flight : Flight
  calls : List Nat
  phase : Phase

namespace EngineState

def start (engine : StorageEngine) : EngineState where
  engine
  flight := .none
  calls := []
  phase := .ready

/-- `NewWritableFile` in the flush loop. -/
def newFile (state : EngineState) : Option EngineState :=
  match state.flight with
  | .none =>
      let (id, name, engine) := state.engine.newWritableFile 0
      some { state with engine, flight := .created id name }
  | _ => none

/-- `FlushBuffer` in the flush loop, which writes `bytes`. -/
def write (bytes : Bytes) (state : EngineState) : Option EngineState :=
  match state.flight with
  | .created id name =>
      some
        { state with
          engine := state.engine.writeFile name bytes
          flight := .written id name }
  | _ => none

/-- `AddFile` in the flush loop. -/
def addFile (state : EngineState) : Option EngineState :=
  match state.flight with
  | .written _ name => do
      let engine ← state.engine.addFile name
      some { state with engine, flight := .none }
  | _ => none

/-- A caller enters `Compact(level_id)`. -/
def call (levelId : Nat) (state : EngineState) : Option EngineState :=
  if state.calls = [] ∧ state.phase = .ready then
    some { state with calls := [levelId] }
  else none

/-- The snapshot and the choice of files. -/
def select (state : EngineState) : Option EngineState :=
  match state.phase, state.calls with
  | .ready, levelId :: calls =>
      match compactFiles state.engine levelId with
      | none => some { state with calls }
      | some files =>
          some { state with calls, phase := .selected levelId files }
  | _, _ => none

/-- `TrivialMove` up to its update, or one piece of `NWayCompaction`: its start,
a round of its loop, or its end. -/
def merge (build : Build) (queue : PriorityQueue) (iter : IterOrder)
    (bufferSize : UInt32) (state : EngineState) : Option EngineState :=
  match state.phase with
  | .selected levelId [file] => do
      let (moved, engine) ← trivialMove file state.engine
      some
        { state with
          engine
          phase := .merged levelId [file] [moved] false }
  | .selected levelId files => do
      let merge ← Merge.start files
      some { state with phase := .merging levelId files merge }
  | .merging levelId files merge =>
      if merge.pq = [] then do
        let (engine, merge) ← merge.finish build iter levelId state.engine
        some
          { state with
            engine
            phase := .merged levelId files merge.compactedFiles true }
      else do
        let (engine, merge) ←
          merge.round build queue iter bufferSize levelId state.engine
        some { state with engine, phase := .merging levelId files merge }
  | _ => none

/-- The locked part of `UpdateMapAfterCompaction`. -/
def update (state : EngineState) : Option EngineState :=
  match state.phase with
  | .merged levelId files compactedFiles needRemoveFile =>
      some
        { state with
          engine := state.engine.updateMap compactedFiles files
          phase := .removing levelId (if needRemoveFile then files else []) }
  | _ => none

/-- One round of the removal loop of `UpdateMapAfterCompaction`. -/
def remove (state : EngineState) : Option EngineState :=
  match state.phase with
  | .removing levelId (file :: files) =>
      some
        { state with
          engine := state.engine.removeFile file
          phase := .removing levelId files }
  | _ => none

/-- The end of `Compact`: it calls itself on this level and the next. -/
def finish (state : EngineState) : Option EngineState :=
  match state.phase with
  | .removing levelId [] =>
      some
        { state with
          calls := levelId :: (levelId + 1) :: state.calls
          phase := .ready }
  | _ => none

end EngineState

end SimpleKV
