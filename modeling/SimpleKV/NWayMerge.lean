/-
`NWayCompaction` as a whole.  Whatever order the input files come in and
however the queue breaks ties, its output files, one after the other, are the
reference merge of the inputs, cut by size.
-/
import SimpleKV.MergeCorrect
import SimpleKV.Lib.Batching
import Mathlib.Data.List.Dedup
import Mathlib.Data.List.Perm.Subperm

namespace SimpleKV

open SortedAssoc KWayMerge

namespace Merge

/-- Bytes still to read and entries in the queue.  Every round lowers it. -/
def left (merge : Merge) : Nat :=
  merge.pq.length +
    (merge.cursors.map fun cursor =>
      cursor.indexOffset.toNat - cursor.ptr).sum

section Output

variable {S : Type} (flushFile : S → Merge → Option (S × Merge))
  (queues : Nat → PriorityQueue) (bufferSize : UInt32)

/-- The main loop; `none` when the rounds run out before the queue is empty. -/
def loopWith : Nat → S → Merge → Option (S × Merge)
  | 0, out, merge => if merge.pq = [] then some (out, merge) else none
  | rounds + 1, out, merge =>
      if merge.pq = [] then some (out, merge)
      else do
        let (out, merge) ←
          roundWith flushFile (queues rounds) bufferSize out merge
        loopWith rounds out merge

/-- `NWayCompaction`, for any `FlushCompactedFile`. -/
def nWayCompactionWith (compactFiles : List File) (out : S) :
    Option (S × Merge) := do
  let merge ← start compactFiles
  let (out, merge) ← loopWith flushFile queues bufferSize merge.left out merge
  finishWith flushFile out merge

end Output

/-- What goes into an output file: `content` and `content_size`. -/
abbrev Written := List Bytes × UInt32

/-- A `FlushCompactedFile` that only records what it is to write. -/
def record (written : List Written) (merge : Merge) :
    Option (List Written × Merge) :=
  some (written ++ [(merge.content, merge.contentSize)],
    { merge with content := [], contentSize := 0 })

end Merge

/-- `NWayCompaction`: the engine with the output files, and the output
files. -/
def nWayCompaction (build : Build) (queues : Nat → PriorityQueue)
    (iter : IterOrder) (bufferSize : UInt32) (levelId : Nat)
    (compactFiles : List File) (engine : StorageEngine) :
    Option (StorageEngine × List File) := do
  let (engine, merge) ← Merge.nWayCompactionWith
    (Merge.flushCompactedFile build iter (levelId + 1)) queues bufferSize
    compactFiles engine
  some (engine, merge.compactedFiles)

/-- The contents of the output files of `NWayCompaction`. -/
def nWayContents (queues : Nat → PriorityQueue) (bufferSize : UInt32)
    (compactFiles : List File) : Option (List Merge.Written) :=
  (Merge.nWayCompactionWith Merge.record queues bufferSize compactFiles
    []).map Prod.fst

theorem pos_of_getVarint32Ptr {p : Bytes} {limit : Nat}
    {shift result : UInt32} {found : Nat × UInt32}
    (h : getVarint32Ptr p limit shift result = some found) :
    0 < found.1 := by
  unfold getVarint32Ptr at h
  split at h
  · split_ifs at h
    · obtain ⟨rest, _, rfl⟩ := Option.map_eq_some_iff.mp h
      exact Nat.succ_pos _
    · rw [← Option.some.inj h]
      exact Nat.one_pos
  · cases h

/-- `ExtractEntry` moves its pointer forward. -/
theorem lt_of_extractEntry {file : File} {p index : Nat}
    {found : Entry × Nat} (h : extractEntry file p index = some found) :
    p < found.2 := by
  simp only [extractEntry, Option.bind_eq_bind, Option.bind_eq_some_iff,
    Option.some.injEq] at h
  obtain ⟨⟨length, size⟩, hkey, _, _, ⟨length', size'⟩, hvalue, _, _, _, _,
    rfl⟩ := h
  have hpos : 0 < length := pos_of_getVarint32Ptr hkey
  change p < p + length + size.toNat + length' + size'.toNat
  omega

/-- Replacing one item of a list changes a sum by the difference. -/
theorem sum_map_set {A : Type} (weight : A → Nat) {items : List A} {i : Nat}
    {old : A} (hold : items[i]? = some old) (new : A) :
    ((items.set i new).map weight).sum + weight old =
      (items.map weight).sum + weight new := by
  obtain ⟨hlt, rfl⟩ := List.getElem?_eq_some_iff.mp hold
  have hleft := List.sum_set (items.map weight) i (weight new)
  have hright := List.sum_set (items.map weight) i (weight items[i])
  rw [← List.map_set] at hleft hright
  rw [List.length_map, if_pos hlt] at hleft hright
  rw [List.set_getElem_self] at hright
  omega

namespace Merge

variable {merge merge' : Merge}

/-- Pushing an entry uses up at least a byte of its file. -/
theorem left_pushNext {i : Nat} (h : merge.pushNext i = some merge') :
    merge'.left ≤ merge.left := by
  unfold pushNext at h
  obtain ⟨cursor, hcursor, h⟩ := Option.bind_eq_some_iff.mp h
  split_ifs at h with hptr
  · obtain ⟨⟨entry, ptr⟩, hextract, h⟩ := Option.bind_eq_some_iff.mp h
    have hlt : cursor.ptr < ptr := lt_of_extractEntry hextract
    have hsum := sum_map_set
      (fun cursor : Cursor => cursor.indexOffset.toNat - cursor.ptr) hcursor
      { cursor with ptr }
    rw [← Option.some.inj h]
    simp only [left, List.length_cons]
    simp only at hsum
    omega
  · rw [← Option.some.inj h]

/-- A `FlushCompactedFile` that leaves the reading side alone. -/
def KeepsReading {S : Type} (flushFile : S → Merge → Option (S × Merge)) :
    Prop :=
  ∀ out merge result, flushFile out merge = some result →
    result.2.cursors = merge.cursors ∧ result.2.pq = merge.pq

theorem keepsReading_record : KeepsReading record := by
  intro out merge result h
  rw [← Option.some.inj h]
  exact ⟨rfl, rfl⟩

theorem keepsReading_flushCompactedFile (build : Build) (iter : IterOrder)
    (levelId : Nat) : KeepsReading (flushCompactedFile build iter levelId) := by
  intro engine merge result h
  simp only [flushCompactedFile, Option.bind_eq_bind, Option.bind_eq_some_iff]
    at h
  obtain ⟨_, _, _, _, h⟩ := h
  rw [← Option.some.inj h]
  exact ⟨rfl, rfl⟩

/-- Every round lowers what is left. -/
theorem left_roundWith {S : Type} {flushFile : S → Merge → Option (S × Merge)}
    (hkeeps : KeepsReading flushFile) {queue : PriorityQueue}
    {bufferSize : UInt32} {out : S} {result : S × Merge}
    (h : roundWith flushFile queue bufferSize out merge = some result) :
    result.2.left < merge.left := by
  unfold roundWith at h
  obtain ⟨⟨entry, others⟩, hpop, h⟩ := Option.bind_eq_some_iff.mp h
  obtain ⟨⟨out', consumed⟩, hconsume, h⟩ := Option.bind_eq_some_iff.mp h
  obtain ⟨next, hpush, h⟩ := Option.bind_eq_some_iff.mp h
  have hreading : consumed.cursors = merge.cursors ∧ consumed.pq = others := by
    simp only [consumeWith] at hconsume
    split_ifs at hconsume
    · rw [Option.some.injEq, Prod.mk.injEq] at hconsume
      exact hconsume.2 ▸ ⟨rfl, rfl⟩
    · exact hkeeps _ _ _ hconsume
    · rw [Option.some.injEq, Prod.mk.injEq] at hconsume
      exact hconsume.2 ▸ ⟨rfl, rfl⟩
    · rw [Option.some.injEq, Prod.mk.injEq] at hconsume
      exact hconsume.2 ▸ ⟨rfl, rfl⟩
  have hlength : merge.pq.length = others.length + 1 := by
    have hne : merge.pq ≠ [] := by
      intro hnil
      rw [hnil, queue.pop_nil] at hpop
      cases hpop
    obtain ⟨top, rest, hpop', hperm, _⟩ := queue.pop_of_ne_nil merge.pq hne
    rw [hpop, Option.some.injEq, Prod.mk.injEq] at hpop'
    rw [← hperm.length_eq, ← hpop'.2, List.length_cons]
  have hle := left_pushNext hpush
  rw [← Option.some.inj h]
  simp only [left, hreading.1, hreading.2] at hle ⊢
  omega

end Merge

/-! ### The reference merge -/

/-- The search comes to `a` before `b`, or they share level and id. -/
def File.NotAfter (a b : File) : Prop :=
  a.levelId < b.levelId ∨ (a.levelId = b.levelId ∧ b.fileId ≤ a.fileId)

instance : DecidableRel File.NotAfter :=
  fun a b => inferInstanceAs (Decidable (a.levelId < b.levelId ∨
    (a.levelId = b.levelId ∧ b.fileId ≤ a.fileId)))

instance : Std.Total File.NotAfter :=
  ⟨fun a b => by unfold File.NotAfter; omega⟩

instance : IsTrans File File.NotAfter :=
  ⟨fun a b c hab hbc => by unfold File.NotAfter at *; omega⟩

/-- The value of a key in the file of the lowest level, and there of the highest
id, that has it. -/
def newestVersion (files : List File) (key : Bytes) : Option Bytes :=
  (files.insertionSort File.NotAfter).findSome? fun file => file.get key

/-- For every key of the files, in order, its newest version, unless that is a
tombstone. -/
def referenceMerge (files : List File) : List (Bytes × Bytes) :=
  ((files.flatMap fun file => file.scan.map Prod.fst).dedup.insertionSort
    (· ≤ ·)).filterMap fun key =>
      (newestVersion files key).bind fun value =>
        if value = tombValue then none else some (key, value)

namespace Merge

variable {files : List File}

theorem Sources.newestVersion_eq_some_iff (h : Sources files)
    {key value : Bytes} : newestVersion files key = some value ↔
      fileLayout.Reads {file | file ∈ files} key value := by
  have hperm := List.perm_insertionSort File.NotAfter files
  have hdistinct := (hperm.pairwise_iff fun {a b} hne => Ne.symm hne).mpr
    h.distinct
  have hordered : (files.insertionSort File.NotAfter).Pairwise
      fileLayout.Before := by
    refine ((List.pairwise_insertionSort File.NotAfter files).and
      hdistinct).imp fun {a b} hab => ?_
    obtain ⟨hlt | ⟨hlevel, hid⟩, hne⟩ := hab
    · exact Or.inl hlt
    · exact Or.inr ⟨hlevel, lt_of_le_of_ne hid fun heq =>
        hne (Prod.ext hlevel heq.symm)⟩
  refine (Recency.Layout.findSome?_eq_some_iff hordered).trans ?_
  exact Recency.Layout.reads_congr fun file _ => hperm.mem_iff

/-- The reference merge has the newest version of every key that is not
deleted, and nothing else. -/
theorem Sources.mem_referenceMerge (h : Sources files) {key value : Bytes} :
    (key, value) ∈ referenceMerge files ↔
      fileLayout.Reads {file | file ∈ files} key value ∧
        value ≠ tombValue := by
  rw [referenceMerge, List.mem_filterMap]
  constructor
  · rintro ⟨other, _, hother⟩
    obtain ⟨newest, hnewest, hsome⟩ := Option.bind_eq_some_iff.mp hother
    split_ifs at hsome with hdead
    rw [Option.some.injEq, Prod.mk.injEq] at hsome
    obtain ⟨rfl, rfl⟩ := hsome
    exact ⟨h.newestVersion_eq_some_iff.mp hnewest, hdead⟩
  · rintro ⟨hreads, hlive⟩
    refine ⟨key, ?_, ?_⟩
    · obtain ⟨file, hstop, hget⟩ := hreads
      rw [List.mem_insertionSort, List.mem_dedup, List.mem_flatMap]
      exact ⟨file, hstop.mem,
        List.mem_map_of_mem (mem_of_find_eq_some hget)⟩
    · rw [h.newestVersion_eq_some_iff.mpr hreads, Option.bind_some,
        if_neg hlive]

theorem increasing_referenceMerge (files : List File) :
    Increasing (referenceMerge files) := by
  have hsorted := List.pairwise_insertionSort (· ≤ ·)
    (files.flatMap fun file => file.scan.map Prod.fst).dedup
  have hnodup := (List.perm_insertionSort (· ≤ ·)
    (files.flatMap fun file => file.scan.map Prod.fst).dedup).nodup_iff.mpr
    (List.nodup_dedup _)
  rw [Increasing, referenceMerge, List.pairwise_filterMap]
  refine (hsorted.and hnodup).imp fun {a b} hab first hfirst second hsecond =>
    ?_
  obtain ⟨_, _, hfirst⟩ := Option.bind_eq_some_iff.mp hfirst
  obtain ⟨_, _, hsecond⟩ := Option.bind_eq_some_iff.mp hsecond
  split_ifs at hfirst hsecond
  rw [Option.some.injEq] at hfirst hsecond
  rw [← hfirst, ← hsecond]
  exact lt_of_le_of_ne hab.1 hab.2

/-- Input files of a merge: no two share level and id, and all sums of their
sizes, an output file's header included, are below 2^32. -/
structure Mergeable (files : List File) : Prop where
  ne_nil : files ≠ []
  sources : Sources files
  sum_lt : (files.map fun file => file.mmap.length).sum < 2 ^ 32
  header_lt : ∀ first last, (∃ file ∈ files, file.get first ≠ none) →
    (∃ file ∈ files, file.get last ≠ none) →
    headerSize first last +
      (files.map fun file => file.mmap.length).sum < 2 ^ 32

theorem Mergeable.small (h : Mergeable files) {file : File}
    (hfile : file ∈ files) : file.Small := by
  refine lt_of_le_of_lt (List.le_sum_of_mem ?_) h.sum_lt
  exact List.mem_map_of_mem (f := fun file : File => file.mmap.length) hfile

theorem Mergeable.perm (h : Mergeable files) {others : List File}
    (hperm : others.Perm files) : Mergeable others := by
  have hsum : (others.map fun file => file.mmap.length).sum =
      (files.map fun file => file.mmap.length).sum :=
    (hperm.map _).sum_eq
  refine ⟨fun hnil => h.ne_nil ?_, ⟨fun file hfile => ?_, ?_⟩, ?_, ?_⟩
  · rw [hnil] at hperm
    exact hperm.nil_eq.symm
  · exact h.sources.holds file (hperm.mem_iff.mp hfile)
  · exact (hperm.pairwise_iff fun {a b} hne => Ne.symm hne).mpr
      h.sources.distinct
  · rw [hsum]
    exact h.sum_lt
  · rw [hsum]
    simpa only [hperm.mem_iff] using h.header_lt

theorem length_dataBytes (entries : List (Bytes × Bytes)) :
    (dataBytes entries).length = (entries.map fun entry =>
      (encodeEntry entry.1 entry.2).length).sum := by
  rw [dataBytes, List.length_flatten, encodeEntries, List.map_map]
  rfl

/-- Entries of different keys are no larger than all inputs together. -/
theorem Mergeable.length_dataBytes_le (h : Mergeable files)
    {entries : List (Bytes × Bytes)} (hinc : Increasing entries)
    (hmem : ∀ entry ∈ entries, ∃ file ∈ files, entry ∈ file.scan) :
    (dataBytes entries).length ≤
      (files.map fun file => file.mmap.length).sum := by
  have hnodup : entries.Nodup := List.Nodup.of_map Prod.fst hinc.nodup_keys
  obtain ⟨part, hperm, hsub⟩ := hnodup.subperm fun entry hentry =>
    List.mem_flatMap.mpr (hmem entry hentry)
  have hfile : ∀ file ∈ files, (dataBytes file.scan).length ≤
      file.mmap.length := by
    intro file hfile
    obtain ⟨entries, hholds⟩ := h.sources.holds file hfile
    have hlength := hholds.length_mmap_ge
    rw [hholds.scan_eq (h.small hfile)]
    omega
  calc (dataBytes entries).length = (dataBytes part).length := by
        rw [length_dataBytes, length_dataBytes]
        exact (hperm.symm.map _).sum_eq
    _ ≤ (dataBytes (files.flatMap File.scan)).length := by
        rw [length_dataBytes, length_dataBytes]
        exact (hsub.map _).sum_le_sum (by simp)
    _ = (files.map fun file => (dataBytes file.scan).length).sum := by
        simp only [length_dataBytes, List.flatMap, List.map_flatten,
          List.sum_flatten, List.map_map, Function.comp_def]
    _ ≤ _ := List.sum_le_sum hfile

/-- What is recorded for a chunk of entries. -/
def written (content : List Bytes) : Written :=
  (content, UInt32.ofNat content.flatten.length)

/-- The invariant of the main loop over recorded contents: the entries kept so
far, cut by size, are those recorded and those waiting. -/
def Gathers (bufferSize : UInt32) (files : List File) (recorded : List Written)
    (merge : Merge) : Prop :=
  ∃ rest chunks current, Reading files files.length merge rest ∧
    Emitting files (Pending merge.pq rest) merge chunks current ∧
    Batching.cut List.length bufferSize.toNat
        ((chunks.flatten ++ current).map Entry.data) =
      (chunks.map fun chunk => chunk.map Entry.data,
        current.map Entry.data) ∧
    recorded = chunks.map fun chunk => written (chunk.map Entry.data)

variable {pending : Set Entry} {chunks : List (List Entry)}
  {current : List Entry} {merge : Merge}

theorem Emitting.mem_all_kept (h : Emitting files pending merge chunks current)
    {entry : Entry} (hentry : entry ∈ chunks.flatten ++ current) :
    entry ∈ all files :=
  ((h.kept.mem_iff entry).mp hentry).1.1

/-- `content_size` does not wrap. -/
theorem Emitting.toNat_contentSize
    (h : Emitting files pending merge chunks current)
    (hfiles : Mergeable files) :
    merge.contentSize = UInt32.ofNat (current.map Entry.data).flatten.length ∧
      merge.contentSize.toNat =
        Batching.total List.length (current.map Entry.data) := by
  have hbytes : (dataBytes (current.map item)).length =
      (current.map Entry.data).flatten.length := by
    rw [dataBytes, ← h.content_eq hfiles.sources, h.content]
  have hlt := (hfiles.length_dataBytes_le h.increasing fun version hversion => by
    obtain ⟨entry, hentry, rfl⟩ := List.mem_map.mp hversion
    obtain ⟨_, _, _, file, hfile, hget, _⟩ :=
      hfiles.sources.entry (h.mem_all hentry)
    exact ⟨file, hfile, mem_of_find_eq_some hget⟩).trans_lt hfiles.sum_lt
  rw [h.size]
  constructor
  · rw [hbytes]
  · rw [UInt32.toNat_ofNat', Nat.mod_eq_of_lt hlt, hbytes, Batching.total,
      List.length_flatten]

theorem exists_start_gathers (bufferSize : UInt32) (hfiles : Mergeable files) :
    ∃ merge, start files = some merge ∧ Gathers bufferSize files [] merge := by
  obtain ⟨cursors, pq, rest, hstart, hreading, hpending, _⟩ :=
    exists_start hfiles.sources.holds
  refine ⟨_, hstart, rest, [], [], hreading, ⟨?_, KWayMerge.Kept.start, rfl, rfl⟩, rfl,
    rfl⟩
  rw [Set.ext hpending]
  exact Progress.start _

/-- One round keeps the invariant. -/
theorem Gathers.round {bufferSize : UInt32} {recorded : List Written}
    (h : Gathers bufferSize files recorded merge) (hfiles : Mergeable files)
    (hpq : merge.pq ≠ []) (queue : PriorityQueue) :
    ∃ recorded' merge',
      roundWith record queue bufferSize recorded merge =
        some (recorded', merge') ∧ Gathers bufferSize files recorded' merge' := by
  obtain ⟨rest, chunks, current, hreading, hemitting, hcut, hrecorded⟩ := h
  obtain ⟨entry, others, hpop, hqueue, htop, hleast⟩ := hreading.pop hpq queue
  have hemitting' : Emitting files (Pending merge.pq rest)
      { merge with pq := others } chunks current :=
    ⟨hemitting.progress, hemitting.kept, hemitting.content, hemitting.size⟩
  obtain ⟨prev, hasInitial, content, contentSize, current', hnext, hconsume⟩ :=
    hemitting'.consume hfiles.sources htop hleast
      (fun other => pending_pop hqueue) bufferSize
  obtain ⟨hsize, htotal⟩ := hnext.toNat_contentSize hfiles
  -- The cut after the entry, when the entry is kept.
  have hstep : current' = current ++ [entry] →
      Batching.cut List.length bufferSize.toNat
          ((chunks.flatten ++ current').map Entry.data) =
        if bufferSize.toNat < contentSize.toNat then
          ((chunks.map fun chunk => chunk.map Entry.data) ++
            [current'.map Entry.data], [])
        else (chunks.map fun chunk => chunk.map Entry.data,
          current'.map Entry.data) := by
    rintro rfl
    rw [← List.append_assoc, List.map_append, List.map_singleton,
      Batching.cut_snoc, hcut, Batching.step]
    rw [List.map_append, List.map_singleton] at htotal
    rw [← htotal, List.map_append, List.map_singleton]
  rcases hconsume with ⟨hkept, hconsume⟩ | ⟨hkept, hfull, hconsume⟩
  · obtain ⟨cursors, pq, rest', hpush, hreading', hpending, _⟩ :=
      hreading.pushNext hqueue
        { merge with pq := others, prev, hasInitial, content, contentSize }
        rfl rfl
    refine ⟨recorded, _, ?_, rest', chunks, current', hreading', ?_, ?_,
      hrecorded⟩
    · simp only [roundWith, hpop, hconsume, Option.bind_eq_bind,
        Option.bind_some, hpush]
    · rw [Set.ext hpending]
      exact ⟨hnext.progress, hnext.kept, hnext.content, hnext.size⟩
    · rcases hkept with rfl | ⟨hkept, hle⟩
      · exact hcut
      · rw [hstep hkept, if_neg (not_lt.mpr (UInt32.le_iff_toNat_le.mp hle))]
  · obtain ⟨cursors, pq, rest', hpush, hreading', hpending, _⟩ :=
      hreading.pushNext hqueue
        { merge with
          pq := others, prev, hasInitial, content := [], contentSize := 0 }
        rfl rfl
    refine ⟨recorded ++ [(content, contentSize)], _, ?_, rest',
      chunks ++ [current'], [], hreading', ?_, ?_, ?_⟩
    · simp only [roundWith, hpop, hconsume, record, Option.bind_eq_bind,
        Option.bind_some, hpush]
    · rw [Set.ext hpending]
      refine ⟨hnext.progress, ?_, rfl, rfl⟩
      rw [List.flatten_append, List.flatten_singleton, List.append_nil]
      exact hnext.kept
    · rw [List.flatten_append, List.flatten_singleton, List.append_nil,
        hstep hkept, if_pos (UInt32.lt_iff_toNat_lt.mp hfull), List.map_append]
      rfl
    · have hcontent : content = current'.map Entry.data := hnext.content
      have hsize' : contentSize =
          UInt32.ofNat (current'.map Entry.data).flatten.length := hsize
      rw [hrecorded, List.map_append, hcontent, hsize']
      rfl

/-- The main loop empties the queue. -/
theorem Gathers.loop {bufferSize : UInt32} (hfiles : Mergeable files)
    (queues : Nat → PriorityQueue) (rounds : Nat) {recorded : List Written}
    (h : Gathers bufferSize files recorded merge)
    (hrounds : merge.left ≤ rounds) :
    ∃ recorded' merge',
      loopWith record queues bufferSize rounds recorded merge =
        some (recorded', merge') ∧
      Gathers bufferSize files recorded' merge' ∧ merge'.pq = [] := by
  induction rounds generalizing recorded merge with
  | zero =>
      have hpq : merge.pq = [] := by
        rw [left] at hrounds
        exact List.eq_nil_of_length_eq_zero (by omega)
      exact ⟨recorded, merge, by rw [loopWith, if_pos hpq], h, hpq⟩
  | succ rounds ih =>
      by_cases hpq : merge.pq = []
      · exact ⟨recorded, merge, by rw [loopWith, if_pos hpq], h, hpq⟩
      · obtain ⟨recorded', merge', hround, h'⟩ :=
          h.round hfiles hpq (queues rounds)
        have hlt := left_roundWith keepsReading_record hround
        obtain ⟨recorded'', merge'', hloop, hend⟩ := ih h' (by
          simp only at hlt
          omega)
        refine ⟨recorded'', merge'', ?_, hend⟩
        rw [loopWith, if_neg hpq, hround]
        exact hloop

/-- What is kept in the end, as keys and values, is the reference merge. -/
theorem Emitting.map_item_eq (h : Emitting files pending merge chunks current)
    (hfiles : Mergeable files) (hempty : ∀ entry, entry ∉ pending) :
    (chunks.flatten ++ current).map item = referenceMerge files := by
  have hinc : Increasing ((chunks.flatten ++ current).map item) := by
    rw [Increasing, List.pairwise_map]
    exact h.kept.sorted
  refine hinc.eq_of_mem_iff (increasing_referenceMerge files) fun version => ?_
  obtain ⟨key, value⟩ := version
  rw [hfiles.sources.mem_referenceMerge, List.mem_map,
    reads_iff_winner hfiles.sources]
  have hlive : ∀ entry ∈ all files,
      (entry.isDelete = false ↔ entry.value ≠ tombValue) := by
    intro entry hentry
    rw [(hfiles.sources.entry hentry).2.2.1, decide_eq_false_iff_not]
  constructor
  · rintro ⟨entry, hentry, hitem⟩
    obtain ⟨hwinner, hdelete⟩ :=
      (h.kept.mem_iff_of_empty h.progress hempty).mp hentry
    refine ⟨⟨entry, hwinner, hitem⟩, ?_⟩
    rw [← (Prod.mk.inj hitem).2]
    exact (hlive entry hwinner.1).mp hdelete
  · rintro ⟨⟨entry, hwinner, hitem⟩, hvalue⟩
    refine ⟨entry, (h.kept.mem_iff_of_empty h.progress hempty).mpr ⟨hwinner,
      (hlive entry hwinner.1).mpr ?_⟩, hitem⟩
    rw [(Prod.mk.inj hitem).2]
    exact hvalue

end Merge

open Merge

/-- The contents of the output files are the reference merge cut by size. -/
theorem nWayContents_eq {files : List File} (hfiles : Mergeable files)
    (bufferSize : UInt32) (queues : Nat → PriorityQueue) :
    nWayContents queues bufferSize files =
      some ((Batching.batches List.length bufferSize.toNat
        (encodeEntries (referenceMerge files))).map written) := by
  obtain ⟨merge, hstart, hgathers⟩ := exists_start_gathers bufferSize hfiles
  obtain ⟨recorded, merge', hloop, ⟨rest, chunks, current, hreading, hemitting,
    hcut, hrecorded⟩, hpq⟩ :=
    hgathers.loop hfiles queues merge.left (le_refl _)
  have hdata : (chunks.flatten ++ current).map Entry.data =
      encodeEntries (referenceMerge files) := by
    rw [← hemitting.map_item_eq hfiles (hreading.not_pending hpq),
      encodeEntries, List.map_map]
    refine List.map_congr_left fun entry hentry => ?_
    exact (hfiles.sources.entry (hemitting.mem_all_kept hentry)).2.1
  rw [hdata] at hcut
  have hnone : merge'.content = [] ↔ current.map Entry.data = [] := by
    rw [hemitting.content]
  have hrun : nWayContents queues bufferSize files =
      (finishWith record recorded merge').map Prod.fst := by
    simp only [nWayContents, nWayCompactionWith, hstart, hloop,
      Option.bind_eq_bind, Option.bind_some]
  rw [hrun, finishWith, Batching.batches, hcut]
  by_cases hend : current.map Entry.data = []
  · rw [if_pos (hnone.mpr hend), if_pos hend, hrecorded, List.map_map]
    rfl
  · rw [if_neg fun h => hend (hnone.mp h), if_neg hend, record, hrecorded,
      List.map_append, List.map_map, hemitting.content,
      (hemitting.toNat_contentSize hfiles).1]
    rfl

/-! ### The output files -/

/-- `FlushCompactedFile` and `new File` for a recorded content. -/
def writeOutput (build : Build) (iter : IterOrder) (levelId : Nat)
    (state : StorageEngine × List File) (output : Written) :
    Option (StorageEngine × List File) := do
  let (_, name, engine) := state.1.newWritableFile levelId
  let (bytes, _) ← build.flush iter output.1 output.2
  let engine := engine.writeFile name bytes
  let file ← engine.openFile name
  some (engine, state.2 ++ [file])

/-- A piece of the merge on the engine goes the way it goes on recorded
contents, when what it records there can be written. -/
def Follows (build : Build) (iter : IterOrder) (levelId : Nat)
    (run : StorageEngine → Merge → Option (StorageEngine × Merge))
    (merge merge' : Merge) (outputs : List Written) : Prop :=
  ∀ engine engine' made made',
    outputs.foldlM (writeOutput build iter levelId) (engine, made) =
      some (engine', made') →
    run engine { merge with compactedFiles := made } =
      some (engine', { merge' with compactedFiles := made' })

namespace Merge

variable (build : Build) (iter : IterOrder) (levelId : Nat)
  {bufferSize : UInt32} {merge merge' : Merge}
  {recorded recorded' : List Written}

theorem follows_record (merge : Merge) :
    Follows build iter levelId (flushCompactedFile build iter levelId) merge
      { merge with content := [], contentSize := 0 }
      [(merge.content, merge.contentSize)] := by
  intro engine engine' made made' h
  simp only [List.foldlM_cons, List.foldlM_nil, writeOutput,
    Option.bind_eq_bind, Option.bind_eq_some_iff, Option.pure_def,
    Option.some.injEq] at h
  obtain ⟨_, ⟨flushed, hflush, file, hopen, rfl⟩, h⟩ := h
  obtain ⟨rfl, rfl⟩ := Prod.mk.inj h
  simp only [flushCompactedFile, hflush, hopen, Option.bind_eq_bind,
    Option.bind_some]

/-- Nothing written, nothing but locals changed. -/
theorem follows_nil {run : StorageEngine → Merge →
    Option (StorageEngine × Merge)}
    (h : ∀ engine made, run engine { merge with compactedFiles := made } =
      some (engine, { merge' with compactedFiles := made })) :
    Follows build iter levelId run merge merge' [] := by
  intro engine engine' made made' hnil
  simp only [List.foldlM_nil, Option.pure_def, Option.some.injEq,
    Prod.mk.injEq] at hnil
  obtain ⟨rfl, rfl⟩ := hnil
  exact h engine made

theorem exists_follows_consumeWith {entry : Entry}
    (h : consumeWith record bufferSize entry recorded merge =
      some (recorded', merge')) :
    ∃ outputs, recorded' = recorded ++ outputs ∧
      Follows build iter levelId
        (consumeWith (flushCompactedFile build iter levelId) bufferSize entry)
        merge merge' outputs := by
  simp only [consumeWith] at h
  split_ifs at h with hnew hdelete hfull
  · obtain ⟨rfl, rfl⟩ := Prod.mk.inj (Option.some.inj h)
    refine ⟨[], (List.append_nil _).symm, follows_nil _ _ _ fun engine made => ?_⟩
    simp only [consumeWith, hnew, hdelete, if_true]
  · obtain ⟨rfl, rfl⟩ := Prod.mk.inj (Option.some.inj h)
    refine ⟨_, rfl, fun engine engine' made made' hwritten => ?_⟩
    have hflush := follows_record build iter levelId _ engine engine' made made' hwritten
    simp only [consumeWith, hnew, hdelete, hfull, if_true]
    exact hflush
  · obtain ⟨rfl, rfl⟩ := Prod.mk.inj (Option.some.inj h)
    refine ⟨[], (List.append_nil _).symm, follows_nil _ _ _ fun engine made => ?_⟩
    simp only [consumeWith, hnew, hdelete, hfull, if_true, if_false]
    rfl
  · obtain ⟨rfl, rfl⟩ := Prod.mk.inj (Option.some.inj h)
    refine ⟨[], (List.append_nil _).symm, follows_nil _ _ _ fun engine made => ?_⟩
    simp only [consumeWith, hnew]
    rfl

theorem pushNext_compactedFiles {i : Nat} (h : merge.pushNext i = some merge')
    (made : List File) :
    ({ merge with compactedFiles := made } : Merge).pushNext i =
      some { merge' with compactedFiles := made } := by
  unfold pushNext at h ⊢
  obtain ⟨cursor, hcursor, h⟩ := Option.bind_eq_some_iff.mp h
  simp only [hcursor, Option.bind_eq_bind, Option.bind_some]
  split_ifs at h ⊢ with hptr
  · obtain ⟨⟨entry, ptr⟩, hextract, h⟩ := Option.bind_eq_some_iff.mp h
    simp only [hextract, Option.bind_some]
    rw [← Option.some.inj h]
  · rw [← Option.some.inj h]

theorem exists_follows_roundWith {queue : PriorityQueue}
    (h : roundWith record queue bufferSize recorded merge =
      some (recorded', merge')) :
    ∃ outputs, recorded' = recorded ++ outputs ∧
      Follows build iter levelId
        (roundWith (flushCompactedFile build iter levelId) queue bufferSize)
        merge merge' outputs := by
  unfold roundWith at h
  obtain ⟨⟨entry, others⟩, hpop, h⟩ := Option.bind_eq_some_iff.mp h
  obtain ⟨⟨recorded'', consumed⟩, hconsume, h⟩ := Option.bind_eq_some_iff.mp h
  obtain ⟨next, hpush, h⟩ := Option.bind_eq_some_iff.mp h
  obtain ⟨rfl, rfl⟩ := Prod.mk.inj (Option.some.inj h)
  obtain ⟨outputs, houtputs, hfollows⟩ :=
    exists_follows_consumeWith build iter levelId hconsume
  refine ⟨outputs, houtputs, fun engine engine' made made' hwritten => ?_⟩
  have hrun := hfollows engine engine' made made' hwritten
  simp only at hrun
  simp only [roundWith, hpop, hrun, pushNext_compactedFiles hpush,
    Option.bind_eq_bind, Option.bind_some]

theorem exists_follows_loopWith {queues : Nat → PriorityQueue} {rounds : Nat}
    (h : loopWith record queues bufferSize rounds recorded merge =
      some (recorded', merge')) :
    ∃ outputs, recorded' = recorded ++ outputs ∧
      Follows build iter levelId
        (loopWith (flushCompactedFile build iter levelId) queues bufferSize
          rounds) merge merge' outputs := by
  induction rounds generalizing recorded merge with
  | zero =>
      unfold loopWith at h
      split_ifs at h with hpq
      obtain ⟨rfl, rfl⟩ := Prod.mk.inj (Option.some.inj h)
      refine ⟨[], (List.append_nil _).symm, follows_nil _ _ _ fun engine made => ?_⟩
      rw [loopWith, if_pos hpq]
  | succ rounds ih =>
      unfold loopWith at h
      split_ifs at h with hpq
      · obtain ⟨rfl, rfl⟩ := Prod.mk.inj (Option.some.inj h)
        refine ⟨[], (List.append_nil _).symm, follows_nil _ _ _ fun engine made => ?_⟩
        rw [loopWith, if_pos hpq]
      · obtain ⟨⟨recorded'', next⟩, hround, h⟩ := Option.bind_eq_some_iff.mp h
        obtain ⟨first, rfl, hfirst⟩ :=
          exists_follows_roundWith build iter levelId hround
        obtain ⟨second, rfl, hsecond⟩ := ih h
        refine ⟨first ++ second, List.append_assoc _ _ _,
          fun engine engine' made made' hwritten => ?_⟩
        rw [List.foldlM_append] at hwritten
        obtain ⟨⟨engine'', made''⟩, hwritten, hwritten'⟩ :=
          Option.bind_eq_some_iff.mp hwritten
        rw [loopWith, if_neg hpq, hfirst engine engine'' made made'' hwritten]
        exact hsecond engine'' engine' made'' made' hwritten'

end Merge

/-- `NWayCompaction` writes its contents one after the other. -/
theorem nWayCompaction_of_nWayContents {build : Build}
    {queues : Nat → PriorityQueue} {iter : IterOrder} {bufferSize : UInt32}
    {levelId : Nat} {files made : List File} {outputs : List Written}
    {engine engine' : StorageEngine}
    (hfiles : ∀ file ∈ files, ∃ entries, file.Holds entries)
    (h : nWayContents queues bufferSize files = some outputs)
    (hwritten : outputs.foldlM (writeOutput build iter (levelId + 1))
      (engine, []) = some (engine', made)) :
    nWayCompaction build queues iter bufferSize levelId files engine =
      some (engine', made) := by
  obtain ⟨⟨_, merge⟩, hcontents, rfl⟩ := Option.map_eq_some_iff.mp h
  unfold nWayCompactionWith at hcontents
  obtain ⟨first, hstart, hcontents⟩ := Option.bind_eq_some_iff.mp hcontents
  obtain ⟨⟨recorded, last⟩, hloop, hfinish⟩ :=
    Option.bind_eq_some_iff.mp hcontents
  obtain ⟨looped, hlooped, hfollows⟩ :=
    exists_follows_loopWith build iter (levelId + 1) hloop
  rw [List.nil_append] at hlooped
  subst hlooped
  have hnone : ({ first with compactedFiles := [] } : Merge) = first := by
    obtain ⟨cursors, pq, rest, hstart', _⟩ := exists_start hfiles
    rw [hstart, Option.some.injEq] at hstart'
    rw [hstart']
  have hrun : ∀ engine'' made'', recorded.foldlM
      (writeOutput build iter (levelId + 1)) (engine, []) =
        some (engine'', made'') →
      nWayCompaction build queues iter bufferSize levelId files engine =
        (finishWith (flushCompactedFile build iter (levelId + 1)) engine''
          { last with compactedFiles := made'' }).bind fun result =>
            some (result.1, result.2.compactedFiles) := by
    intro engine'' made'' hlooped
    have hloop' := hfollows engine engine'' [] made'' hlooped
    rw [hnone] at hloop'
    simp only [nWayCompaction, nWayCompactionWith, hstart, hloop',
      Option.bind_eq_bind, Option.bind_some]
  change (if last.content = [] then some (recorded, last)
    else record recorded last) = _ at hfinish
  split_ifs at hfinish with hcontent
  · obtain ⟨rfl, rfl⟩ := Prod.mk.inj (Option.some.inj hfinish)
    rw [hrun engine' made hwritten, finishWith, if_pos hcontent]
    rfl
  · obtain ⟨rfl, rfl⟩ := Prod.mk.inj (Option.some.inj hfinish)
    rw [List.foldlM_append] at hwritten
    obtain ⟨⟨engine'', made''⟩, hlooped, hlast⟩ :=
      Option.bind_eq_some_iff.mp hwritten
    rw [hrun engine'' made'' hlooped, finishWith, if_neg hcontent,
      follows_record build iter (levelId + 1) last engine'' engine' made'' made
        hlast]
    rfl

/-- Without the assertion every list of entries that fits is written, and the
file read back holds them. -/
theorem exists_writeOutput {entries : List (Bytes × Bytes)}
    (hne : entries ≠ []) (hinc : Increasing entries)
    (hlt : ∀ first ∈ entries, ∀ last ∈ entries,
      headerSize first.1 last.1 + (dataBytes entries).length < 2 ^ 32)
    (iter : IterOrder) {levelId : Nat} (hlevel : levelId < 2 ^ 31)
    (engine : StorageEngine) (hnonneg : -1 ≤ engine.fileId)
    (hid : engine.fileId + 1 < 10 ^ 8) (made : List File) :
    ∃ engine' file,
      writeOutput .release iter levelId (engine, made)
          (written (encodeEntries entries)) = some (engine', made ++ [file]) ∧
        engine'.fileId = engine.fileId + 1 ∧ file.scan = entries := by
  have hfits : ∀ entry ∈ entries, Fits entry := by
    intro entry hentry
    have hsum := hlt entry hentry entry hentry
    have hle : (encodeEntry entry.1 entry.2).length ≤
        (dataBytes entries).length := by
      rw [length_dataBytes]
      exact List.le_sum_of_mem (List.mem_map_of_mem hentry)
    rw [Fits]
    omega
  have hlast : entries.getLast? = some (entries.getLast hne) :=
    List.getLast?_eq_some_getLast hne
  obtain ⟨first, rest, hcons⟩ := List.exists_cons_of_ne_nil hne
  have hhead : entries.head? = some first := by simp [hcons]
  have hflush := flushRelease_encodeEntries iter
    (UInt32.ofNat (dataBytes entries).length) hhead hlast hfits
  obtain ⟨file, hopen, hholds, _, _, _, hmmap, _⟩ :=
    File.exists_holds_of_flush .release iter hinc hfits
      (fun a b ha hb => by
        have hsum := hlt a (List.mem_of_mem_head? ha) b
          (List.mem_of_getLast? hb)
        rw [headerSize] at hsum
        change (encodeEntry a.1 b.1).length < 2 ^ 32
        rw [length_encodeEntry]
        omega) hflush
      (parseFileName_fileName hlevel (by omega) hid)
  refine ⟨(engine.newWritableFile levelId).2.2.writeFile
    (fileName levelId (engine.fileId + 1)) file.mmap, file, ?_, rfl,
    hholds.scan_eq_of_lt ?_⟩
  · rw [← hmmap] at hopen hflush
    rw [dataBytes] at hflush
    simp only [writeOutput, written, Build.flush, hflush,
      StorageEngine.newWritableFile, StorageEngine.writeFile,
      StorageEngine.openFile, AList.lookup_insert, hopen, Option.bind_eq_bind,
      Option.bind_some]
  · obtain ⟨lower, hlower, hlowerEq⟩ := List.mem_map.mp hholds.lowerBound_mem
    obtain ⟨upper, hupper, hupperEq⟩ := List.mem_map.mp hholds.upperBound_mem
    rw [← hlowerEq, ← hupperEq]
    exact hlt lower hlower upper hupper

/-- The same for one list after the other. -/
theorem exists_foldlM_writeOutput (iter : IterOrder) {levelId : Nat}
    (hlevel : levelId < 2 ^ 31) (parts : List (List (Bytes × Bytes)))
    (hparts : ∀ part ∈ parts, part ≠ [] ∧ Increasing part ∧
      ∀ first ∈ part, ∀ last ∈ part,
        headerSize first.1 last.1 + (dataBytes part).length < 2 ^ 32)
    (engine : StorageEngine) (hnonneg : -1 ≤ engine.fileId)
    (hid : engine.fileId + parts.length < 10 ^ 8) (made : List File) :
    ∃ engine' more,
      (parts.map fun part => written (encodeEntries part)).foldlM
          (writeOutput .release iter levelId) (engine, made) =
        some (engine', made ++ more) ∧ more.map File.scan = parts := by
  induction parts generalizing engine made with
  | nil => exact ⟨engine, [], by simp, rfl⟩
  | cons part parts ih =>
      obtain ⟨hne, hinc, hlt⟩ := hparts part List.mem_cons_self
      rw [List.length_cons, Nat.cast_succ] at hid
      obtain ⟨engine', file, hwrite, hfileId, hscan⟩ := exists_writeOutput hne
        hinc hlt iter hlevel engine hnonneg (by omega) made
      obtain ⟨engine'', more, hrest, hscans⟩ := ih
        (fun other hother => hparts other (List.mem_cons_of_mem _ hother))
        engine' (by omega) (by omega) (made ++ [file])
      refine ⟨engine'', file :: more, ?_, ?_⟩
      · rw [List.map_cons, List.foldlM_cons, hwrite]
        simpa using hrest
      · rw [List.map_cons, hscan, hscans]

theorem Merge.Mergeable.exists_mem_scan {files : List File}
    (hfiles : Mergeable files) {entry : Bytes × Bytes}
    (hentry : entry ∈ referenceMerge files) :
    ∃ file ∈ files, entry ∈ file.scan := by
  obtain ⟨⟨file, hstop, hget⟩, _⟩ :=
    hfiles.sources.mem_referenceMerge.mp hentry
  exact ⟨file, hstop.mem, mem_of_find_eq_some hget⟩

/-- The order of the inputs does not matter. -/
theorem Merge.Mergeable.referenceMerge_perm {files others : List File}
    (hfiles : Mergeable files) (hperm : others.Perm files) :
    referenceMerge others = referenceMerge files := by
  refine (increasing_referenceMerge others).eq_of_mem_iff
    (increasing_referenceMerge files) fun entry => ?_
  obtain ⟨key, value⟩ := entry
  rw [(hfiles.perm hperm).sources.mem_referenceMerge,
    hfiles.sources.mem_referenceMerge]
  simp only [hperm.mem_iff]

/-- A part of the reference merge fits a file. -/
theorem Merge.Mergeable.part_fits {files : List File}
    (hfiles : Mergeable files) {part : List (Bytes × Bytes)}
    (hsub : part.Sublist (referenceMerge files)) :
    Increasing part ∧ (dataBytes part).length < 2 ^ 32 ∧
      ∀ first ∈ part, ∀ last ∈ part,
        headerSize first.1 last.1 + (dataBytes part).length < 2 ^ 32 := by
  have hinc : Increasing part :=
    List.Pairwise.sublist hsub (increasing_referenceMerge files)
  have hle := hfiles.length_dataBytes_le hinc
    fun entry hentry => hfiles.exists_mem_scan (hsub.mem hentry)
  have hkey : ∀ entry ∈ part, ∃ file ∈ files, file.get entry.1 ≠ none := by
    intro entry hentry
    obtain ⟨file, hfile, hscan⟩ := hfiles.exists_mem_scan (hsub.mem hentry)
    obtain ⟨entries, hholds⟩ := hfiles.sources.holds file hfile
    refine ⟨file, hfile, ?_⟩
    rw [hholds.get_eq_some_iff.mpr hscan]
    exact Option.some_ne_none _
  refine ⟨hinc, hle.trans_lt hfiles.sum_lt, fun first hfirst last hlast => ?_⟩
  have hlt := hfiles.header_lt first.1 last.1 (hkey first hfirst)
    (hkey last hlast)
  omega

/-- `NWayCompaction` without the assertion in `Flush`.  For every non-empty list
of input files no two of which share level and id, and whose sizes sum up to
less than 2^32, every queue that pops a maximum and every buffer size: the
contents of the output files, one after the other, are the reference merge,
which has in key order the version of every key of the lowest level and there
the highest id, unless it is a tombstone, and nothing else; every output is
non-empty and its size exact; all but the last are larger than the buffer size,
and not so without their last entry; neither the queue nor the order of the
input files matters; and while ids last the files can be written and read
back. -/
theorem nWayCompaction_correct (files : List File) (hfiles : Mergeable files)
    (bufferSize : UInt32) (queues : Nat → PriorityQueue) :
    ∃ outputs : List Written,
      nWayContents queues bufferSize files = some outputs ∧
      (outputs.map Prod.fst).flatten = encodeEntries (referenceMerge files) ∧
      Increasing (referenceMerge files) ∧
      (∀ key value, (key, value) ∈ referenceMerge files ↔
        fileLayout.Reads {file | file ∈ files} key value ∧
          value ≠ tombValue) ∧
      (∀ output ∈ outputs, output.1 ≠ [] ∧
        output.2.toNat = output.1.flatten.length) ∧
      (∀ output ∈ outputs.dropLast,
        bufferSize.toNat < output.1.flatten.length ∧
          output.1.dropLast.flatten.length ≤ bufferSize.toNat) ∧
      (∀ others queues', others.Perm files →
        nWayContents queues' bufferSize others = some outputs) ∧
      ∀ (iter : IterOrder) (levelId : Nat) (engine : StorageEngine),
        levelId + 1 < 2 ^ 31 → -1 ≤ engine.fileId →
        engine.fileId + outputs.length < 10 ^ 8 →
        ∃ engine' made,
          nWayCompaction .release queues iter bufferSize levelId files engine =
            some (engine', made) ∧
          made.map (fun file => encodeEntries file.scan) =
            outputs.map Prod.fst := by
  -- The parts of the reference merge that become files.
  let parts := Batching.batches
    (fun entry : Bytes × Bytes => (encodeEntry entry.1 entry.2).length)
    bufferSize.toNat (referenceMerge files)
  have hparts : Batching.batches List.length bufferSize.toNat
      (encodeEntries (referenceMerge files)) = parts.map encodeEntries :=
    Batching.batches_map _ _
  have hsub : ∀ part ∈ parts, part.Sublist (referenceMerge files) := by
    intro part hpart
    have hmem := List.sublist_flatten_of_mem hpart
    rwa [Batching.flatten_batches] at hmem
  have hcontents := nWayContents_eq hfiles bufferSize queues
  have hfst : ((Batching.batches List.length bufferSize.toNat (encodeEntries
      (referenceMerge files))).map written).map Prod.fst =
        Batching.batches List.length bufferSize.toNat
          (encodeEntries (referenceMerge files)) := by
    rw [List.map_map]
    exact List.map_id _
  refine ⟨_, hcontents, ?_, increasing_referenceMerge files,
    fun key value => hfiles.sources.mem_referenceMerge, ?_, ?_, ?_, ?_⟩
  · rw [hfst, Batching.flatten_batches]
  · intro output houtput
    obtain ⟨content, hcontent, rfl⟩ := List.mem_map.mp houtput
    refine ⟨Batching.ne_nil_of_mem_batches hcontent, ?_⟩
    rw [hparts] at hcontent
    obtain ⟨part, hpart, rfl⟩ := List.mem_map.mp hcontent
    have hlt := (hfiles.part_fits (hsub part hpart)).2.1
    rw [dataBytes] at hlt
    rw [written, UInt32.toNat_ofNat', Nat.mod_eq_of_lt hlt]
  · intro output houtput
    rw [← List.map_dropLast] at houtput
    obtain ⟨content, hcontent, rfl⟩ := List.mem_map.mp houtput
    have hfull := Batching.full_of_mem_dropLast hcontent
    rw [Batching.Full, Batching.total, Batching.total, ← List.length_flatten,
      ← List.length_flatten] at hfull
    exact hfull
  · intro others queues' hperm
    rw [nWayContents_eq (hfiles.perm hperm), hfiles.referenceMerge_perm hperm]
  · intro iter levelId engine hlevel hnonneg hid
    rw [hfst]
    rw [hparts, List.map_map] at hcontents hid
    rw [List.length_map] at hid
    obtain ⟨engine', made, hwritten, hscans⟩ := exists_foldlM_writeOutput iter
      hlevel parts (fun part hpart => ⟨Batching.ne_nil_of_mem_batches hpart,
        (hfiles.part_fits (hsub part hpart)).1,
        (hfiles.part_fits (hsub part hpart)).2.2⟩) engine hnonneg hid []
    refine ⟨engine', made, nWayCompaction_of_nWayContents hfiles.sources.holds
      hcontents hwritten, ?_⟩
    rw [hparts, ← hscans, List.map_map]
    rfl

/-- A file with these entries, as the release build writes and opens it. -/
def sampleFile (levelId : Nat) (fileId : Int)
    (entries : List (Bytes × Bytes)) : Option File :=
  (flushRelease .inOrder (encodeEntries entries)
    (UInt32.ofNat (dataBytes entries).length)).bind fun result =>
      File.ofName (fileName levelId fileId) result.1

theorem holds_sampleFile {levelId : Nat} {fileId : Int}
    {entries : List (Bytes × Bytes)} {file : File}
    (h : sampleFile levelId fileId entries = some file)
    (hinc : Increasing entries) (hshort : ∀ entry ∈ entries, Short entry)
    (hlevel : levelId < 2 ^ 31) (hnonneg : 0 ≤ fileId)
    (hid : fileId < 10 ^ 8) :
    file.Holds entries ∧ file.levelId = levelId ∧ file.fileId = fileId := by
  obtain ⟨⟨bytes, keyOffset⟩, hflush, hopen⟩ := Option.bind_eq_some_iff.mp h
  obtain ⟨file', hopen', hholds, hlevelId, hfileId, _⟩ :=
    File.exists_holds_of_flush .release .inOrder hinc
      (fun entry hentry => (hshort entry hentry).fits)
      (fun first last hfirst hlast => fits_of_short
        (hshort first (List.mem_of_mem_head? hfirst))
        (hshort last (List.mem_of_getLast? hlast))) hflush
      (parseFileName_fileName hlevel hnonneg hid)
  rw [hopen, Option.some.injEq] at hopen'
  subst hopen'
  exact ⟨hholds, hlevelId, hfileId⟩

/-- A file with the empty key and a tombstone over a file with an older version
of the deleted key. -/
theorem nWayCompaction_correct_two_files :
    ∃ newer older, sampleFile 0 1 [([], [1]), ([97], tombValue)] = some newer ∧
      sampleFile 1 0 [([97], [2]), ([98], [3])] = some older ∧
      Mergeable [newer, older] ∧ ∃ outputs : List Written,
        nWayContents (fun _ => .sorted) 0 [newer, older] = some outputs ∧
          outputs.map Prod.fst =
            [[encodeEntry [] [1]], [encodeEntry [98] [3]]] := by
  obtain ⟨newer, hnewer⟩ : ∃ file, sampleFile 0 1
      [([], [1]), ([97], tombValue)] = some file :=
    Option.isSome_iff_exists.mp (by decide +kernel)
  obtain ⟨older, holder⟩ : ∃ file, sampleFile 1 0
      [([97], [2]), ([98], [3])] = some file :=
    Option.isSome_iff_exists.mp (by decide +kernel)
  obtain ⟨hholds, hlevel, _⟩ := holds_sampleFile hnewer
    (by unfold Increasing; decide) (by unfold Short; decide +kernel)
    (by decide) (by decide) (by decide)
  obtain ⟨hholds', hlevel', _⟩ := holds_sampleFile holder
    (by unfold Increasing; decide) (by unfold Short; decide +kernel)
    (by decide) (by decide) (by decide)
  have hsizes : (sampleFile 0 1 [([], [1]), ([97], tombValue)]).any
      (fun newer => (sampleFile 1 0 [([97], [2]), ([98], [3])]).any
        fun older => decide (newer.mmap.length + older.mmap.length ≤ 100)) =
          true := by decide +kernel
  rw [hnewer, holder] at hsizes
  have hsum : newer.mmap.length + older.mmap.length ≤ 100 :=
    of_decide_eq_true hsizes
  have hkey : ∀ key, (∃ file ∈ [newer, older], file.get key ≠ none) →
      (encodeString key).length ≤ 6 := by
    rintro key ⟨file, hfile, hget⟩
    obtain ⟨value, hvalue⟩ := Option.ne_none_iff_exists'.mp hget
    have hshort : ∀ entry ∈ [([], [1]), ([97], tombValue), ([97], [2]),
        (([98], [3]) : Bytes × Bytes)], (encodeString entry.1).length ≤ 6 := by
      decide +kernel
    rcases List.mem_pair.mp hfile with rfl | rfl
    · have hmem := hholds.mem_of_mem_scan (mem_of_find_eq_some hvalue)
      exact hshort (key, value) (List.mem_append_left _ hmem)
    · have hmem := hholds'.mem_of_mem_scan (mem_of_find_eq_some hvalue)
      exact hshort (key, value) (List.mem_append_right [_, _] hmem)
  have hfiles : Mergeable [newer, older] := by
    refine ⟨by simp, ⟨?_, ?_⟩, ?_, ?_⟩
    · intro file hfile
      rcases List.mem_pair.mp hfile with rfl | rfl
      · exact ⟨_, hholds⟩
      · exact ⟨_, hholds'⟩
    · simp [hlevel, hlevel']
    · simp only [List.map_cons, List.map_nil, List.sum_cons, List.sum_nil]
      omega
    · intro first last hfirst hlast
      have hlower := hkey first hfirst
      have hupper := hkey last hlast
      simp only [headerSize, List.map_cons, List.map_nil, List.sum_cons,
        List.sum_nil]
      omega
  obtain ⟨outputs, hcontents, _⟩ := nWayCompaction_correct [newer, older] hfiles
    0 fun _ => .sorted
  refine ⟨newer, older, hnewer, holder, hfiles, outputs, hcontents, ?_⟩
  have hrun : (sampleFile 0 1 [([], [1]), ([97], tombValue)]).bind
      (fun newer => (sampleFile 1 0 [([97], [2]), ([98], [3])]).bind
        fun older => (nWayContents (fun _ => .sorted) 0 [newer, older]).map
          (List.map Prod.fst)) =
      some [[encodeEntry [] [1]], [encodeEntry [98] [3]]] := by
    decide +kernel
  rw [hnewer, holder, Option.bind_some, Option.bind_some, hcontents,
    Option.map_some, Option.some.injEq] at hrun
  exact hrun

end SimpleKV
