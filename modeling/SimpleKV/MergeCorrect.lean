/-
`NWayCompaction` computes the merge it should: an invariant of its main loop
that relates the cursors, the queue, the pending content and the output files
to the versions in the input files.
-/
import SimpleKV.Compaction
import SimpleKV.Contents
import SimpleKV.Lib.KWayMerge

namespace SimpleKV

open SortedAssoc KWayMerge

/-- Bounds of short entries fit the header. -/
theorem fits_of_short {first last : Bytes × Bytes} (hfirst : Short first)
    (hlast : Short last) : Fits (first.1, last.1) := by
  have hlower := hfirst.bounds.1
  have hupper := hlast.bounds.1
  simp only [Fits, length_encodeEntry]
  omega

/-- Opening what `Flush` wrote for short entries gives a stored file. -/
theorem File.exists_stored_of_flush (build : Build) {iter : IterOrder}
    {entries : List (Bytes × Bytes)} (hinc : Increasing entries)
    (hshort : ∀ entry ∈ entries, Short entry) {bytes : Bytes}
    {keyOffset : KeyOffset}
    (hflush : build.flush iter (encodeEntries entries)
      (UInt32.ofNat (dataBytes entries).length) = some (bytes, keyOffset))
    (levelId : Nat) (id : Int) (hnonneg : 0 ≤ id) (hid : id < 10 ^ 8)
    (hlevel : (levelId : Int) ≤ id) :
    ∃ file, File.ofName (SimpleKV.fileName levelId id) bytes = some file ∧
      file.Holds entries ∧ file.Stored id ∧ file.levelId = levelId ∧
      file.fileId = id ∧ file.fileName = SimpleKV.fileName levelId id ∧
      file.mmap = bytes ∧
      keyOffset = offsetTable file.lowerBound file.upperBound entries := by
  have hname : parseFileName (SimpleKV.fileName levelId id) = some (levelId, id) :=
    parseFileName_fileName (by omega) hnonneg hid
  obtain ⟨file, hofName, hholds, hlevelId, hfileId, hfileName, hmmap, htable⟩ :=
    File.exists_holds_of_flush build iter hinc
      (fun entry hentry => (hshort entry hentry).fits)
      (fun first last hfirst hlast => fits_of_short
        (hshort first (List.mem_of_mem_head? hfirst))
        (hshort last (List.mem_of_getLast? hlast))) hflush hname
  refine ⟨file, hofName, hholds, ⟨?_, ?_, ?_, ?_, entries, hholds, hshort⟩,
    hlevelId, hfileId, hfileName, hmmap, htable⟩
  · rw [hfileName, hlevelId, hfileId]
  · rw [hfileId]
    exact hnonneg
  · rw [hfileId]
  · rw [hlevelId, hfileId]
    exact hlevel

/-- `Flush` succeeds on short entries with increasing keys, in the debug build
from `"00000"` on. -/
theorem Build.exists_flush (build : Build) (iter : IterOrder)
    {entries : List (Bytes × Bytes)} (hne : entries ≠ [])
    (hinc : Increasing entries) (hshort : ∀ entry ∈ entries, Short entry)
    (hprev : build = .debug → ∀ entry ∈ entries, flushPrev ≤ entry.1)
    (size : UInt32) :
    ∃ bytes keyOffset, build.flush iter (encodeEntries entries) size =
      some (bytes, keyOffset) := by
  obtain ⟨first, rest, rfl⟩ := List.exists_cons_of_ne_nil hne
  rw [build.flush_encodeEntries iter size rfl
    (List.getLast?_eq_some_getLast hne) hinc
    fun entry hentry => (hshort entry hentry).fits, if_neg]
  · exact ⟨_, _, rfl⟩
  · rintro ⟨hdebug, hlow⟩
    exact not_lt.mpr (hprev hdebug first List.mem_cons_self) hlow

theorem exists_flush (iter : IterOrder) {entries : List (Bytes × Bytes)}
    (hne : entries ≠ []) (hinc : Increasing entries)
    (hshort : ∀ entry ∈ entries, Short entry)
    (hprev : ∀ entry ∈ entries, flushPrev ≤ entry.1) (size : UInt32) :
    ∃ bytes keyOffset, flush iter (encodeEntries entries) size =
      some (bytes, keyOffset) :=
  Build.exists_flush .debug iter hne hinc hshort (fun _ => hprev) size

/-- The entries a cursor still yields. -/
def Cursor.Yields (cursor : Cursor) (i : Nat) (entries : List Entry) : Prop :=
  ∃ rounds, scanEntries cursor.file i cursor.indexOffset rounds cursor.ptr =
    some entries

/-- A cursor stands at its end, or on the next entry. -/
theorem Cursor.Yields.cases {cursor : Cursor} {i : Nat} {entries : List Entry}
    (h : cursor.Yields i entries) :
    (entries = [] ∧ ¬ cursor.ptr < cursor.indexOffset.toNat) ∨
      ∃ entry tail ptr, entries = entry :: tail ∧
        cursor.ptr < cursor.indexOffset.toNat ∧
        extractEntry cursor.file cursor.ptr i = some (entry, ptr) ∧
        ({ cursor with ptr } : Cursor).Yields i tail := by
  obtain ⟨rounds, hscan⟩ := h
  by_cases hptr : cursor.ptr < cursor.indexOffset.toNat
  · right
    cases rounds with
    | zero => simp [scanEntries, hptr] at hscan
    | succ rounds =>
        simp only [scanEntries, if_pos hptr, Option.bind_eq_bind,
          Option.bind_eq_some_iff, Option.some.injEq] at hscan
        obtain ⟨⟨entry, ptr⟩, hextract, tail, htail, rfl⟩ := hscan
        exact ⟨entry, tail, ptr, rfl, hptr, hextract, rounds, htail⟩
  · left
    refine ⟨?_, hptr⟩
    cases rounds <;> simpa [scanEntries, hptr, eq_comm] using hscan

namespace Merge

variable {files : List File} {merge : Merge} {rest : Nat → List Entry}

/-- Pushing the next entry of an input follows what its cursor yields. -/
theorem pushNext_of_yields {i : Nat} {cursor : Cursor}
    (hcursor : merge.cursors[i]? = some cursor) {entries : List Entry}
    (hyields : cursor.Yields i entries) :
    (entries = [] ∧ merge.pushNext i = some merge) ∨
      ∃ entry tail ptr, entries = entry :: tail ∧
        merge.pushNext i = some
          { merge with
            cursors := merge.cursors.set i { cursor with ptr }
            pq := entry :: merge.pq } ∧
        ({ cursor with ptr } : Cursor).Yields i tail := by
  rcases hyields.cases with ⟨rfl, hend⟩ |
    ⟨entry, tail, ptr, rfl, hptr, hextract, htail⟩
  · exact Or.inl ⟨rfl, by simp [pushNext, hcursor, hend]⟩
  · refine Or.inr ⟨entry, tail, ptr, rfl, ?_, htail⟩
    simp [pushNext, hcursor, hptr, hextract]

/-- What a file at position `i` yields from its start. -/
def source (file : File) (i : Nat) : List Entry :=
  file.scan.map (file.entry i)

/-- What input `i` yields from its start. -/
def sourceAt (files : List File) (i : Nat) : List Entry :=
  files[i]?.elim [] fun file => source file i

/-- The first entries of the first `count` inputs, the last input first. -/
def firsts (files : List File) : Nat → List Entry
  | 0 => []
  | count + 1 => (sourceAt files count).head?.toList ++ firsts files count

/-- All entries of the input files, tagged as the merge reads them. -/
def all (files : List File) : Set Entry :=
  {entry | ∃ i file, files[i]? = some file ∧ entry ∈ source file i}

/-- The cursors of the first `opened` inputs have given their first entry to
the queue and yield `rest`; the others are untouched. -/
structure Reading (files : List File) (opened : Nat) (merge : Merge)
    (rest : Nat → List Entry) : Prop where
  cursor_files : merge.cursors.map Cursor.file = files
  yields : ∀ i cursor, merge.cursors[i]? = some cursor → i < opened →
    cursor.Yields i (rest i)
  fresh : ∀ i cursor, merge.cursors[i]? = some cursor → opened ≤ i →
    cursor.Yields i (source cursor.file i)
  rest_nil : ∀ i, min opened files.length ≤ i → rest i = []
  index_lt : ∀ entry ∈ merge.pq, entry.index < files.length
  frontier : Frontier Entry.rank Entry.index merge.pq rest

theorem Reading.exists_cursor {opened : Nat}
    (h : Reading files opened merge rest) {i : Nat} (hi : i < files.length) :
    ∃ cursor, merge.cursors[i]? = some cursor ∧
      files[i]? = some cursor.file := by
  have hlength : merge.cursors.length = files.length := by
    rw [← h.cursor_files, List.length_map]
  refine ⟨merge.cursors[i], List.getElem?_eq_getElem (by omega), ?_⟩
  conv_lhs => rw [← h.cursor_files]
  rw [List.getElem?_map, List.getElem?_eq_getElem (by omega), Option.map_some]

/-- Advancing a cursor keeps the list of files. -/
theorem map_file_set {cursors : List Cursor} {i : Nat} {cursor : Cursor}
    (hcursor : cursors[i]? = some cursor) (ptr : Nat) :
    (cursors.set i { cursor with ptr }).map Cursor.file =
      cursors.map Cursor.file := by
  apply List.ext_getElem?
  intro j
  by_cases hj : i = j
  · subst hj
    have hlt : i < cursors.length := (List.getElem?_eq_some_iff.mp hcursor).1
    rw [List.getElem?_eq_getElem hlt, Option.some.injEq] at hcursor
    simp [hlt, hcursor]
  · simp [List.getElem?_set_ne hj]

theorem mem_source {file : File} {i : Nat} {entry : Entry} :
    entry ∈ source file i ↔ ∃ item ∈ file.scan, file.entry i item = entry :=
  List.mem_map

theorem pairwise_source {file : File} {entries : List (Bytes × Bytes)}
    (h : file.Holds entries) (i : Nat) :
    (source file i).Pairwise fun a b => a.rank < b.rank := by
  rw [source, List.pairwise_map]
  refine List.Pairwise.imp (fun hlt => ?_) h.increasing_scan
  exact Prod.Lex.toLex_lt_toLex.mpr (Or.inl hlt)

theorem index_of_mem_source {file : File} {i : Nat} {entry : Entry}
    (hentry : entry ∈ source file i) : entry.index = i := by
  obtain ⟨item, _, rfl⟩ := mem_source.mp hentry
  rfl

/-- Opening one input. -/
theorem exists_openCursor {file : File} {entries : List (Bytes × Bytes)}
    (h : file.Holds entries) (i : Nat) :
    ∃ ptr indexOffset, openCursor file i = some (ptr, indexOffset) ∧
      (Cursor.mk file ptr indexOffset).Yields i (source file i) := by
  have hscan := h.scanFile_eq i
  simp only [scanFile, Option.bind_eq_bind, Option.bind_eq_some_iff] at hscan
  obtain ⟨⟨ptr, indexOffset⟩, hopen, hentries⟩ := hscan
  exact ⟨ptr, indexOffset, hopen, _, hentries⟩

theorem exists_openCursors (files : List File)
    (hfiles : ∀ file ∈ files, ∃ entries, file.Holds entries) (first : Nat) :
    ∃ cursors : List Cursor, openCursors files first = some cursors ∧
      cursors.map Cursor.file = files ∧
      ∀ i (cursor : Cursor), cursors[i]? = some cursor →
        cursor.Yields (first + i) (source cursor.file (first + i)) := by
  induction files generalizing first with
  | nil => exact ⟨[], rfl, rfl, fun i cursor hcursor => by simp at hcursor⟩
  | cons file files ih =>
      obtain ⟨entries, hholds⟩ := hfiles file List.mem_cons_self
      obtain ⟨ptr, indexOffset, hopen, hyields⟩ :=
        exists_openCursor hholds first
      obtain ⟨cursors, hcursors, hmap, hrest⟩ := ih
        (fun other hother => hfiles other (List.mem_cons_of_mem _ hother))
        (first + 1)
      refine ⟨⟨file, ptr, indexOffset⟩ :: cursors, ?_, ?_, ?_⟩
      · simp [openCursors, hopen, hcursors]
      · simp [hmap]
      · intro i cursor hcursor
        cases i with
        | zero =>
            simp only [List.getElem?_cons_zero, Option.some.injEq] at hcursor
            subst hcursor
            exact hyields
        | succ i =>
            have hnext := hrest i cursor (by simpa using hcursor)
            rwa [Nat.add_right_comm, Nat.add_assoc] at hnext

/-- The entries of the first `opened` inputs. -/
def opened (files : List File) (count : Nat) : Set Entry :=
  {entry | entry ∈ all files ∧ entry.index < count}

/-- One round of the loop that fills the queue. -/
theorem Reading.openNext (hfiles : ∀ file ∈ files, ∃ entries, file.Holds entries)
    {count : Nat} (hcount : count < files.length)
    (h : Reading files count merge rest)
    (hpending : ∀ entry, entry ∈ Pending merge.pq rest ↔
      entry ∈ opened files count) :
    ∃ cursors pq rest', merge.pushNext count = some { merge with cursors, pq } ∧
      Reading files (count + 1) { merge with cursors, pq } rest' ∧
      (∀ entry, entry ∈ Pending pq rest' ↔
        entry ∈ opened files (count + 1)) ∧
      pq = (sourceAt files count).head?.toList ++ merge.pq ∧
      rest' = Function.update rest count (sourceAt files count).tail := by
  obtain ⟨cursor, hcursor, hfile⟩ := h.exists_cursor hcount
  have hsource : sourceAt files count = source cursor.file count := by
    rw [sourceAt, hfile]
    rfl
  obtain ⟨entries, hholds⟩ := hfiles cursor.file (List.mem_of_getElem? hfile)
  have hyields := h.fresh count cursor hcursor (le_refl _)
  have hempty : rest count = [] := h.rest_nil count (by omega)
  have hopened : ∀ entry, entry ∈ opened files (count + 1) ↔
      entry ∈ opened files count ∨ entry ∈ source cursor.file count := by
    intro entry
    constructor
    · rintro ⟨⟨i, file, hi, hmem⟩, hlt⟩
      have hindex := index_of_mem_source hmem
      by_cases heq : i = count
      · subst heq
        rw [hfile, Option.some.injEq] at hi
        exact Or.inr (hi ▸ hmem)
      · exact Or.inl ⟨⟨i, file, hi, hmem⟩, by omega⟩
    · rintro (⟨hmem, hlt⟩ | hmem)
      · exact ⟨hmem, by omega⟩
      · refine ⟨⟨count, cursor.file, hfile, hmem⟩, ?_⟩
        rw [index_of_mem_source hmem]
        omega
  rcases pushNext_of_yields hcursor hyields with
    ⟨hnil, hpush⟩ | ⟨entry, tail, ptr, hcons, hpush, htail⟩
  · refine ⟨merge.cursors, merge.pq, rest, hpush,
      ⟨h.cursor_files, ?_, ?_, ?_, h.index_lt, h.frontier⟩, ?_, ?_, ?_⟩
    · intro i other hother hi
      by_cases heq : i = count
      · subst heq
        rw [hcursor, Option.some.injEq] at hother
        rw [← hother, hempty, ← hnil]
        exact hyields
      · exact h.yields i other hother (by omega)
    · intro i other hother hi
      exact h.fresh i other hother (by omega)
    · intro i hi
      exact h.rest_nil i (by omega)
    · intro entry
      rw [hpending, hopened, hnil]
      simp
    · rw [hsource, hnil]
      rfl
    · rw [hsource, hnil, List.tail_nil, ← hempty, Function.update_eq_self]
  · have hsorted := pairwise_source hholds count
    have hindex : ∀ item ∈ source cursor.file count, item.index = count :=
      fun item hitem => index_of_mem_source hitem
    rw [hcons] at hsorted hindex
    refine ⟨_, _, Function.update rest count tail, hpush,
      ⟨?_, ?_, ?_, ?_, ?_, h.frontier.openSource hsorted hindex⟩, ?_, ?_, ?_⟩
    · rw [map_file_set hcursor, h.cursor_files]
    · intro i other hother hi
      by_cases heq : i = count
      · subst heq
        have hlt := (List.getElem?_eq_some_iff.mp hcursor).1
        simp only [List.getElem?_set_self hlt, Option.some.injEq] at hother
        rw [← hother, Function.update_self]
        exact htail
      · simp only [List.getElem?_set_ne (Ne.symm heq)] at hother
        rw [Function.update_of_ne heq]
        exact h.yields i other hother (by omega)
    · intro i other hother hi
      simp only [List.getElem?_set_ne (show count ≠ i by omega)] at hother
      exact h.fresh i other hother (by omega)
    · intro i hi
      rw [Function.update_of_ne (by omega)]
      exact h.rest_nil i (by omega)
    · intro item hitem
      rcases List.mem_cons.mp hitem with rfl | hitem
      · rw [hindex item List.mem_cons_self]
        exact hcount
      · exact h.index_lt item hitem
    · intro item
      rw [pending_openSource hempty, hpending, hopened, hcons]
    · rw [hsource, hcons]
      rfl
    · rw [hsource, hcons, List.tail_cons]

/-- The start of `NWayCompaction`: every input is open and everything is
pending. -/
theorem exists_start (hfiles : ∀ file ∈ files, ∃ entries, file.Holds entries) :
    ∃ cursors pq rest, start files = some
        { cursors, pq, prev := [], hasInitial := false, content := [],
          contentSize := 0, compactedFiles := [] } ∧
      Reading files files.length
        { cursors, pq, prev := [], hasInitial := false, content := [],
          contentSize := 0, compactedFiles := [] } rest ∧
      (∀ entry, entry ∈ Pending pq rest ↔ entry ∈ all files) ∧
      pq = firsts files files.length ∧
      ∀ i, rest i = (sourceAt files i).tail := by
  obtain ⟨cursors, hopen, hmap, hyields⟩ := exists_openCursors files hfiles 0
  simp only [Nat.zero_add] at hyields
  -- Induction over the number of inputs whose first entry is in the queue.
  have hloop : ∀ count, count ≤ files.length → ∃ cursors' pq rest,
      (List.range count).foldlM (fun merge i => pushNext i merge)
        ({ cursors, pq := [], prev := [], hasInitial := false, content := [],
           contentSize := 0, compactedFiles := [] } : Merge) =
        some { cursors := cursors', pq, prev := [], hasInitial := false,
               content := [], contentSize := 0, compactedFiles := [] } ∧
      Reading files count
        { cursors := cursors', pq, prev := [], hasInitial := false,
          content := [], contentSize := 0, compactedFiles := [] } rest ∧
      (∀ entry, entry ∈ Pending pq rest ↔ entry ∈ opened files count) ∧
      pq = firsts files count ∧
      ∀ i, i < count → rest i = (sourceAt files i).tail := by
    intro count
    induction count with
    | zero =>
        intro _
        refine ⟨cursors, [], fun _ => [], rfl,
          ⟨hmap, fun _ _ _ hi => absurd hi (by omega),
            fun i cursor hcursor _ => hyields i cursor hcursor,
            fun _ _ => rfl, fun _ hentry => absurd hentry (by simp),
            Frontier.empty⟩, ?_, rfl, fun i hi => absurd hi (by omega)⟩
        intro entry
        simp [Pending, opened]
    | succ count ih =>
        intro hcount
        obtain ⟨cursors', pq, rest, hfold, hreading, hpending, hpq, hrest⟩ :=
          ih (by omega)
        obtain ⟨cursors'', pq', rest', hpush, hreading', hpending', hpq',
          hrest'⟩ := hreading.openNext hfiles (by omega) hpending
        refine ⟨cursors'', pq', rest', ?_, hreading', hpending', ?_,
          fun i hi => ?_⟩
        · rw [List.range_succ, List.foldlM_append, hfold]
          simpa using hpush
        · rw [hpq', hpq, firsts]
        · by_cases heq : i = count
          · rw [heq, hrest', Function.update_self]
          · rw [hrest', Function.update_of_ne heq]
            exact hrest i (by omega)
  obtain ⟨cursors', pq, rest, hfold, hreading, hpending, hpq, hrest⟩ :=
    hloop files.length (le_refl _)
  refine ⟨cursors', pq, rest, ?_, hreading, fun entry => ?_, hpq,
    fun i => ?_⟩
  · simp only [start, hopen, Option.bind_eq_bind, Option.bind_some]
    exact hfold
  · rw [hpending]
    constructor
    · exact fun h => h.1
    · rintro ⟨i, file, hi, hmem⟩
      refine ⟨⟨i, file, hi, hmem⟩, ?_⟩
      rw [index_of_mem_source hmem]
      exact (List.getElem?_eq_some_iff.mp hi).1
  · by_cases hi : i < files.length
    · exact hrest i hi
    · rw [hreading.rest_nil i (by omega), sourceAt,
        List.getElem?_eq_none (not_lt.mp hi)]
      rfl

/-! ### The main loop -/

/-- Input files that no two share level and id. -/
structure Sources (files : List File) : Prop where
  holds : ∀ file ∈ files, ∃ entries, file.Holds entries
  distinct : files.Pairwise fun a b =>
    (a.levelId, a.fileId) ≠ (b.levelId, b.fileId)

/-- Input files with distinct ids that the counter `top` has handed out. -/
structure Inputs (files : List File) (top : Int) : Prop where
  nodup : files.Nodup
  ids : ∀ file ∈ files, ∀ other ∈ files, file.fileId = other.fileId →
    file = other
  stored : ∀ file ∈ files, file.Stored top

/-- The key and value of an entry. -/
def item (entry : Entry) : Bytes × Bytes :=
  (entry.key, entry.value)

namespace Sources

/-- Level and id tell the positions apart. -/
theorem index_eq (h : Sources files) {i j : Nat} {file other : File}
    (hi : files[i]? = some file) (hj : files[j]? = some other)
    (hlevel : file.levelId = other.levelId)
    (hid : file.fileId = other.fileId) : i = j := by
  obtain ⟨hlt, rfl⟩ := List.getElem?_eq_some_iff.mp hi
  obtain ⟨hlt', rfl⟩ := List.getElem?_eq_some_iff.mp hj
  rcases lt_trichotomy i j with hij | hij | hij
  · exact absurd (Prod.ext hlevel hid)
      (List.pairwise_iff_getElem.mp h.distinct i j hlt hlt' hij)
  · exact hij
  · exact absurd (Prod.ext hlevel.symm hid.symm)
      (List.pairwise_iff_getElem.mp h.distinct j i hlt' hlt hij)

theorem eq_of_same (h : Sources files) {file other : File}
    (hfile : file ∈ files) (hother : other ∈ files)
    (hlevel : file.levelId = other.levelId)
    (hid : file.fileId = other.fileId) : file = other := by
  obtain ⟨i, hi⟩ := List.getElem?_of_mem hfile
  obtain ⟨j, hj⟩ := List.getElem?_of_mem hother
  rw [h.index_eq hi hj hlevel hid, hj, Option.some.injEq] at hi
  exact hi.symm

/-- An entry the merge reads is a version in one of the files. -/
theorem entry (h : Sources files) {entry : Entry}
    (hentry : entry ∈ all files) :
    Fits (item entry) ∧
      entry.data = encodeEntry entry.key entry.value ∧
      entry.isDelete = decide (entry.value = tombValue) ∧
      ∃ file ∈ files, file.get entry.key = some entry.value ∧
        entry.levelId = file.levelId ∧ entry.fileId = file.fileId := by
  obtain ⟨i, file, hi, hmem⟩ := hentry
  obtain ⟨version, hversion, rfl⟩ := mem_source.mp hmem
  have hfile := List.mem_of_getElem? hi
  obtain ⟨entries, hholds⟩ := h.holds file hfile
  have hfits := hholds.fits version (hholds.mem_of_mem_scan hversion)
  have hvalue := file.entry_value i hfits
  refine ⟨?_, ?_, ?_, file, hfile, ?_, rfl, rfl⟩
  · rw [item, hvalue]
    exact hfits
  · rw [hvalue]
    rfl
  · rw [hvalue]
    rfl
  · rw [hvalue]
    exact hholds.get_eq_some_iff.mpr hversion

/-- The rank identifies an entry. -/
theorem injOn_rank (h : Sources files) :
    Set.InjOn Entry.rank (all files) := by
  rintro a ⟨i, file, hi, hmem⟩ b ⟨j, other, hj, hmem'⟩ hrank
  obtain ⟨version, hversion, rfl⟩ := mem_source.mp hmem
  obtain ⟨version', hversion', rfl⟩ := mem_source.mp hmem'
  have hparts := Prod.mk.inj (toLex.injective hrank)
  have hrest := Prod.mk.inj (toLex.injective hparts.2)
  have hlevel : file.levelId = other.levelId := hrest.1
  have hid : file.fileId = other.fileId := neg_injective hrest.2
  have hindex : i = j := h.index_eq hi hj hlevel hid
  subst hindex
  rw [hi, Option.some.injEq] at hj
  subst hj
  obtain ⟨entries, hholds⟩ := h.holds file (List.mem_of_getElem? hi)
  have hkey : version.1 = version'.1 := hparts.1
  have hvalue : version = version' := by
    have hget := hholds.get_eq_some_iff.mpr hversion
    rw [hkey, hholds.get_eq_some_iff.mpr hversion', Option.some.injEq] at hget
    exact Prod.ext hkey hget.symm
  rw [hvalue]

end Sources

namespace Inputs

variable {top : Int}

theorem sources (h : Inputs files top) : Sources files where
  holds := by
    intro file hfile
    obtain ⟨entries, hholds, _⟩ := (h.stored file hfile).holds
    exact ⟨entries, hholds⟩
  distinct := by
    refine h.nodup.imp_of_mem fun ha hb hne heq => hne ?_
    exact h.ids _ ha _ hb (Prod.mk.inj heq).2

/-- Entries of stored files are short. -/
theorem short (h : Inputs files top) {entry : Entry}
    (hentry : entry ∈ all files) : Short (item entry) := by
  obtain ⟨i, file, hi, hmem⟩ := hentry
  obtain ⟨version, hversion, rfl⟩ := mem_source.mp hmem
  obtain ⟨entries, hholds, hshort⟩ :=
    (h.stored file (List.mem_of_getElem? hi)).holds
  have hin := hholds.mem_of_mem_scan hversion
  rw [item, file.entry_value i (hholds.fits version hin)]
  exact hshort version hin

end Inputs

theorem key_le_of_rank_le (a b : Entry) (hrank : a.rank ≤ b.rank) :
    a.key ≤ b.key := by
  rcases Prod.Lex.toLex_le_toLex.mp hrank with hlt | heq
  · exact hlt.le
  · exact heq.1.le

/-- The last key taken from the queue. -/
def seen (merge : Merge) : Option Bytes :=
  if merge.hasInitial then some merge.prev else none

/-- What the loop has put out: the entries of the output files, `chunks`, and
those waiting in `content`, `current`. -/
structure Emitting (files : List File) (pending : Set Entry) (merge : Merge)
    (chunks : List (List Entry)) (current : List Entry) : Prop where
  progress : Progress Entry.key (all files) pending merge.seen
  kept : KWayMerge.Kept Entry.rank Entry.key (fun entry => entry.isDelete = false)
    (all files) merge.seen (chunks.flatten ++ current)
  content : merge.content = current.map Entry.data
  size : merge.contentSize =
    UInt32.ofNat (dataBytes (current.map item)).length

/-- An output file of a merge of `files` and the entries in it. -/
structure Output (levelId : Nat) (files : List File) (top : Int) (file : File)
    (chunk : List Entry) : Prop where
  holds : file.Holds (chunk.map item)
  stored : file.Stored top
  level : file.levelId = levelId
  newer : ∀ input ∈ files, input.fileId < file.fileId

variable {top : Int} {pending : Set Entry} {chunks : List (List Entry)}
  {current : List Entry}

theorem Emitting.mem_all (h : Emitting files pending merge chunks current)
    {entry : Entry} (hentry : entry ∈ current) : entry ∈ all files :=
  ((h.kept.mem_iff entry).mp (List.mem_append_right _ hentry)).1.1

theorem Emitting.increasing (h : Emitting files pending merge chunks current) :
    Increasing (current.map item) := by
  rw [Increasing, List.pairwise_map]
  exact (List.pairwise_append.mp h.kept.sorted).2.1

theorem Emitting.content_eq (h : Emitting files pending merge chunks current)
    (hsources : Sources files) :
    merge.content = encodeEntries (current.map item) := by
  rw [h.content, encodeEntries, List.map_map]
  refine List.map_congr_left fun entry hentry => ?_
  exact (hsources.entry (h.mem_all hentry)).2.1

/-- No input has a key below `"00000"`. -/
def Above (files : List File) : Prop :=
  ∀ entry ∈ all files, flushPrev ≤ entry.key

/-- `FlushCompactedFile` turns the waiting entries into an output file, unless
the assertion stops it. -/
theorem Emitting.flushCompactedFile
    (h : Emitting files pending merge chunks current)
    {engine : StorageEngine} (hinputs : Inputs files engine.fileId)
    (hcurrent : current ≠ []) (build : Build) (iter : IterOrder)
    {levelId : Nat} (hlevel : (levelId : Int) ≤ engine.fileId)
    (hid : engine.fileId + 1 < 10 ^ 8)
    (hpasses : (∃ result, merge.flushCompactedFile build iter (levelId + 1)
        engine = some result) ∨ (build = .debug → Above files)) :
    ∃ file, merge.flushCompactedFile build iter (levelId + 1) engine =
        some (engine.withFile file,
          { merge with
            content := []
            contentSize := 0
            compactedFiles := merge.compactedFiles ++ [file] }) ∧
      file.fileId = engine.fileId + 1 ∧
      Output (levelId + 1) files (engine.fileId + 1) file current ∧
      Emitting files pending
        { merge with
          content := []
          contentSize := 0
          compactedFiles := merge.compactedFiles ++ [file] }
        (chunks ++ [current]) [] := by
  have hshort : ∀ version ∈ current.map item, Short version := by
    intro version hversion
    obtain ⟨entry, hentry, rfl⟩ := List.mem_map.mp hversion
    exact hinputs.short (h.mem_all hentry)
  have hflush : ∃ bytes keyOffset, build.flush iter
      (encodeEntries (current.map item))
      (UInt32.ofNat (dataBytes (current.map item)).length) =
        some (bytes, keyOffset) := by
    rcases hpasses with ⟨result, hresult⟩ | habove
    · simp only [Merge.flushCompactedFile, Option.bind_eq_bind,
        Option.bind_eq_some_iff] at hresult
      obtain ⟨⟨bytes, keyOffset⟩, hflush, _⟩ := hresult
      rw [h.content_eq hinputs.sources, h.size] at hflush
      exact ⟨bytes, keyOffset, hflush⟩
    · refine build.exists_flush iter (by simpa using hcurrent) h.increasing
        hshort (fun hdebug version hversion => ?_) _
      obtain ⟨entry, hentry, rfl⟩ := List.mem_map.mp hversion
      exact habove hdebug entry (h.mem_all hentry)
  obtain ⟨bytes, keyOffset, hflush⟩ := hflush
  obtain ⟨file, hopen, hholds, hstored, hlevelId, hfileId, hname, hmmap, _⟩ :=
    File.exists_stored_of_flush build h.increasing hshort hflush (levelId + 1)
      (engine.fileId + 1) (by omega) hid (by omega)
  refine ⟨file, ?_, hfileId, ⟨hholds, hstored, hlevelId, ?_⟩, h.progress, ?_,
    rfl, rfl⟩
  · rw [← h.content_eq hinputs.sources, ← h.size] at hflush
    simp only [Merge.flushCompactedFile, StorageEngine.newWritableFile, hflush,
      StorageEngine.writeFile, StorageEngine.openFile, AList.insert_insert,
      AList.lookup_insert, hopen, Option.bind_eq_bind, Option.bind_some,
      StorageEngine.withFile, hfileId, hname, hmmap]
  · intro input hinput
    have hle := (hinputs.stored input hinput).le_top
    omega
  · rw [List.flatten_append, List.flatten_singleton, List.append_nil]
    exact h.kept

/-- Taking the least pending entry: a repeated key changes nothing, a new key
adds its entry to `content` unless it is a tombstone, and `content` is flushed
when it has grown past the buffer size. -/
theorem Emitting.consume (h : Emitting files pending merge chunks current)
    (hsources : Sources files) {entry : Entry} (htop : entry ∈ pending)
    (hleast : ∀ other ∈ pending, entry.rank ≤ other.rank) {left : Set Entry}
    (hleft : ∀ other, other ∈ pending ↔ other = entry ∨ other ∈ left)
    (bufferSize : UInt32) :
    ∃ prev hasInitial content contentSize current',
      Emitting files left
        { merge with prev, hasInitial, content, contentSize } chunks
        current' ∧
      (((current' = current ∨
          current' = current ++ [entry] ∧ contentSize ≤ bufferSize) ∧
        ∀ {S : Type} (flushFile : S → Merge → Option (S × Merge)) (out : S),
          consumeWith flushFile bufferSize entry out merge =
            some (out,
              { merge with prev, hasInitial, content, contentSize })) ∨
        (current' = current ++ [entry] ∧ bufferSize < contentSize ∧
        ∀ {S : Type} (flushFile : S → Merge → Option (S × Merge)) (out : S),
          consumeWith flushFile bufferSize entry out merge =
            flushFile out
              { merge with prev, hasInitial, content, contentSize })) := by
  have hprogress := h.progress.take key_le_of_rank_le htop hleast hleft
  by_cases hnew : entry.key ∈ merge.seen
  · have hseen : merge.hasInitial = true ∧ merge.prev = entry.key := by
      unfold seen at hnew
      split_ifs at hnew with hinitial
      · exact ⟨hinitial, by simpa using hnew⟩
      · simp at hnew
    refine ⟨merge.prev, merge.hasInitial, merge.content, merge.contentSize,
      current, ⟨?_, h.kept, h.content, h.size⟩, Or.inl ⟨Or.inl rfl, ?_⟩⟩
    · have heq : merge.seen = some entry.key := hnew
      rw [← heq] at hprogress
      exact hprogress
    · have htest : (!merge.hasInitial || decide (entry.key ≠ merge.prev)) =
          false := by
        rw [hseen.1, hseen.2]
        simp
      intro S flushFile out
      simp only [consumeWith, htest]
      rfl
  · have htest : (!merge.hasInitial || decide (entry.key ≠ merge.prev)) =
        true := by
      unfold seen at hnew
      split_ifs at hnew with hinitial
      · have hne : entry.key ≠ merge.prev := fun heq => hnew (by rw [heq]; rfl)
        simp [hne]
      · simp [hinitial]
    by_cases hdelete : entry.isDelete = true
    · have hkept := h.kept.drop h.progress key_le_of_rank_le
        hsources.injOn_rank htop hleast hnew (by simp [hdelete])
      refine ⟨entry.key, true, merge.content, merge.contentSize, current,
        ⟨hprogress, hkept, h.content, h.size⟩, Or.inl ⟨Or.inl rfl, ?_⟩⟩
      intro S flushFile out
      simp only [consumeWith, htest, if_true, hdelete]
    · have hdata := (hsources.entry (h.progress.subset htop)).2.1
      have hkept := h.kept.keep h.progress key_le_of_rank_le
        hsources.injOn_rank htop hleast hnew (by simpa using hdelete)
      rw [List.append_assoc] at hkept
      refine ⟨entry.key, true, merge.content ++ [entry.data],
        merge.contentSize + UInt32.ofNat entry.data.length,
        current ++ [entry], ⟨hprogress, hkept, ?_, ?_⟩, ?_⟩
      · rw [h.content, List.map_append]
        rfl
      · rw [h.size, List.map_append, dataBytes_append, List.length_append,
          UInt32.ofNat_add, hdata]
        simp [item]
      · by_cases hfull : bufferSize <
            merge.contentSize + UInt32.ofNat entry.data.length
        · right
          refine ⟨rfl, hfull, fun flushFile out => ?_⟩
          simp only [consumeWith, htest, if_true, hdelete, if_pos hfull]
          rfl
        · left
          refine ⟨Or.inr ⟨rfl, UInt32.not_lt.mp hfull⟩,
            fun flushFile out => ?_⟩
          simp only [consumeWith, htest, if_true, hdelete, if_neg hfull]
          rfl

/-- After popping an entry, pushing the next one of its input loses nothing. -/
theorem Reading.pushNext (h : Reading files files.length merge rest)
    {entry : Entry} {others : List Entry}
    (hqueue : ∀ other, other ∈ merge.pq ↔ other = entry ∨ other ∈ others)
    (after : Merge) (hcursors : after.cursors = merge.cursors)
    (hpq : after.pq = others) :
    ∃ cursors pq rest',
      after.pushNext entry.index = some { after with cursors, pq } ∧
      Reading files files.length { after with cursors, pq } rest' ∧
      (∀ other, other ∈ Pending pq rest' ↔ other ∈ Pending others rest) ∧
      pq = (rest entry.index).head?.toList ++ others ∧
      rest' =
        Function.update rest entry.index (rest entry.index).tail := by
  have hindex : entry.index < files.length :=
    h.index_lt entry ((hqueue entry).mpr (Or.inl rfl))
  have hothers : ∀ other ∈ others, other.index < files.length :=
    fun other hother => h.index_lt other ((hqueue other).mpr (Or.inr hother))
  obtain ⟨cursor, hcursor, _⟩ := h.exists_cursor hindex
  have hyields := h.yields entry.index cursor hcursor hindex
  rw [← hcursors] at hcursor
  rcases pushNext_of_yields hcursor hyields with
    ⟨hnil, hpush⟩ | ⟨next, tail, ptr, hcons, hpush, htail⟩
  · refine ⟨after.cursors, after.pq, rest, hpush, ?_, fun other => by rw [hpq],
      by rw [hpq, hnil]; rfl, by rw [hnil, List.tail_nil, ← hnil,
        Function.update_eq_self]⟩
    refine ⟨hcursors ▸ h.cursor_files, ?_, ?_, h.rest_nil, hpq ▸ hothers, ?_⟩
    · intro i other hother hi
      exact h.yields i other (hcursors ▸ hother) hi
    · intro i other hother hi
      exact h.fresh i other (hcursors ▸ hother) hi
    · exact hpq ▸ h.frontier.pop hqueue hnil
  · rw [hpq] at hpush
    refine ⟨_, _, Function.update rest entry.index tail, hpush,
      ⟨?_, ?_, ?_, ?_, ?_, h.frontier.advance hqueue hcons⟩,
      fun other => pending_advance hcons, by rw [hcons]; rfl,
      by rw [hcons, List.tail_cons]⟩
    · rw [map_file_set hcursor, hcursors, h.cursor_files]
    · intro i other hother hi
      by_cases heq : i = entry.index
      · subst heq
        have hlt := (List.getElem?_eq_some_iff.mp hcursor).1
        simp only [List.getElem?_set_self hlt, Option.some.injEq] at hother
        rw [← hother, Function.update_self]
        exact htail
      · simp only [List.getElem?_set_ne (Ne.symm heq), hcursors] at hother
        rw [Function.update_of_ne heq]
        exact h.yields i other hother hi
    · intro i other hother hi
      simp only [List.getElem?_set_ne (show entry.index ≠ i by omega),
        hcursors] at hother
      exact h.fresh i other hother hi
    · intro i hi
      rw [Function.update_of_ne (by omega)]
      exact h.rest_nil i hi
    · intro other hother
      rcases List.mem_cons.mp hother with rfl | hother
      · rw [h.frontier.source_eq entry.index other
          (hcons ▸ List.mem_cons_self)]
        exact hindex
      · exact hothers other hother

/-- The invariant of the main loop. -/
def Inv (levelId : Nat) (files : List File) (top : Int) (merge : Merge) :
    Prop :=
  ∃ rest chunks current, Reading files files.length merge rest ∧
    Emitting files (Pending merge.pq rest) merge chunks current ∧
    List.Forall₂ (Output (levelId + 1) files top) merge.compactedFiles chunks

/-- A piece of the merge leaves the engine alone or adds one complete file. -/
def Extends (levelId : Nat) (files : List File) (before after : StorageEngine)
    (compacted compacted' : List File) : Prop :=
  (after = before ∧ compacted' = compacted) ∨
    ∃ file chunk, after = before.withFile file ∧
      file.fileId = before.fileId + 1 ∧
      Output (levelId + 1) files (before.fileId + 1) file chunk ∧
      compacted' = compacted ++ [file]

theorem Output.mono {levelId : Nat} {file : File} {chunk : List Entry}
    (h : Output levelId files top file chunk) {top' : Int}
    (htop : top ≤ top') : Output levelId files top' file chunk :=
  { h with stored := h.stored.mono htop }

theorem forall₂_output_append {levelId : Nat} {compacted : List File}
    (h : List.Forall₂ (Output levelId files top) compacted chunks)
    {file : File} (hfile : Output levelId files (top + 1) file current) :
    List.Forall₂ (Output levelId files (top + 1)) (compacted ++ [file])
      (chunks ++ [current]) :=
  List.rel_append (h.imp fun _ _ hout => hout.mono (by omega))
    (List.Forall₂.cons hfile List.Forall₂.nil)

/-- The main loop starts in its invariant. -/
theorem exists_start_inv (hinputs : Inputs files top) (levelId : Nat) :
    ∃ merge, start files = some merge ∧ Inv levelId files top merge ∧
      merge.compactedFiles = [] := by
  obtain ⟨cursors, pq, rest, hstart, hreading, hpending, _⟩ :=
    exists_start hinputs.sources.holds
  have hall : Pending pq rest = all files := Set.ext hpending
  refine ⟨_, hstart, ⟨rest, [], [], hreading, ⟨?_, ?_, rfl, rfl⟩,
    List.Forall₂.nil⟩, rfl⟩
  · rw [hall]
    exact Progress.start _
  · exact KWayMerge.Kept.start

theorem fileId_flushCompactedFile {build : Build} {iter : IterOrder}
    {levelId : Nat} {engine : StorageEngine} {result : StorageEngine × Merge}
    (h : merge.flushCompactedFile build iter levelId engine = some result) :
    result.1.fileId = engine.fileId + 1 := by
  simp only [Merge.flushCompactedFile, StorageEngine.newWritableFile,
    StorageEngine.writeFile, Option.bind_eq_bind,
    Option.bind_eq_some_iff, Option.some.injEq] at h
  obtain ⟨_, _, _, _, rfl⟩ := h
  rfl

/-- What comes out of the queue is least among all that is pending. -/
theorem Reading.pop (h : Reading files files.length merge rest)
    (hpq : merge.pq ≠ []) (queue : PriorityQueue) :
    ∃ entry others, queue.pop merge.pq = some (entry, others) ∧
      (∀ other, other ∈ merge.pq ↔ other = entry ∨ other ∈ others) ∧
      entry ∈ Pending merge.pq rest ∧
      ∀ other ∈ Pending merge.pq rest, entry.rank ≤ other.rank := by
  obtain ⟨entry, others, hpop, hperm, hmax⟩ :=
    queue.pop_of_ne_nil merge.pq hpq
  have hqueue : ∀ other, other ∈ merge.pq ↔ other = entry ∨ other ∈ others :=
    fun other => hperm.symm.mem_iff.trans List.mem_cons
  refine ⟨entry, others, hpop, hqueue, Or.inl ((hqueue entry).mpr (Or.inl rfl)),
    h.frontier.rank_le entry fun other hother => ?_⟩
  rcases (hqueue other).mp hother with rfl | hother
  · exact le_refl _
  · by_contra hlt
    have hcmp := rank_lt_iff.mp (not_le.mp hlt)
    rw [hmax other hother] at hcmp
    exact absurd hcmp (by decide)

/-- One round of the main loop keeps the invariant. -/
theorem Inv.round {levelId : Nat} {engine : StorageEngine}
    (h : Inv levelId files engine.fileId merge)
    (hinputs : Inputs files engine.fileId)
    (hlevel : (levelId : Int) ≤ engine.fileId) (hpq : merge.pq ≠ [])
    (build : Build) (queue : PriorityQueue) (iter : IterOrder)
    (bufferSize : UInt32)
    (hid : (∃ result, merge.round build queue iter bufferSize levelId engine =
        some result ∧ result.1.fileId < 10 ^ 8) ∨
      engine.fileId + 1 < 10 ^ 8 ∧ (build = .debug → Above files)) :
    ∃ engine' merge',
      merge.round build queue iter bufferSize levelId engine =
        some (engine', merge') ∧
      Inv levelId files engine'.fileId merge' ∧
      Extends levelId files engine engine' merge.compactedFiles
        merge'.compactedFiles := by
  obtain ⟨rest, chunks, current, hreading, hemitting, houtputs⟩ := h
  obtain ⟨entry, others, hpop, hqueue, htop, hleast⟩ := hreading.pop hpq queue
  have hemitting' : Emitting files (Pending merge.pq rest)
      { merge with pq := others } chunks current :=
    ⟨hemitting.progress, hemitting.kept, hemitting.content, hemitting.size⟩
  obtain ⟨prev, hasInitial, content, contentSize, current', hnext, hconsume⟩ :=
    hemitting'.consume hinputs.sources htop hleast
      (fun other => pending_pop hqueue) bufferSize
  rcases hconsume with ⟨_, hconsume⟩ | ⟨hcurrent, _, hconsume⟩
  · obtain ⟨cursors, pq, rest', hpush, hreading', hpending, _⟩ :=
      hreading.pushNext hqueue
        { merge with pq := others, prev, hasInitial, content, contentSize }
        rfl rfl
    refine ⟨engine, _, ?_, ⟨rest', chunks, current', hreading', ?_, houtputs⟩,
      Or.inl ⟨rfl, rfl⟩⟩
    · simp only [Merge.round, roundWith, hpop, hconsume, Option.bind_eq_bind,
        Option.bind_some, hpush]
    · rw [Set.ext hpending]
      exact ⟨hnext.progress, hnext.kept, hnext.content, hnext.size⟩
  · have hcases : engine.fileId + 1 < 10 ^ 8 ∧
        ((∃ result, ({ merge with
            pq := others, prev, hasInitial, content, contentSize } :
              Merge).flushCompactedFile build iter (levelId + 1) engine =
                some result) ∨ (build = .debug → Above files)) := by
      rcases hid with ⟨result, hround, hlt⟩ | ⟨hlt, habove⟩
      · simp only [Merge.round, roundWith, hpop, hconsume, Option.bind_eq_bind,
          Option.bind_some, Option.bind_eq_some_iff] at hround
        obtain ⟨flushed, hflush, _, _, hresult⟩ := hround
        rw [Option.some.injEq] at hresult
        rw [← fileId_flushCompactedFile hflush]
        rw [← hresult] at hlt
        exact ⟨hlt, Or.inl ⟨_, hflush⟩⟩
      · exact ⟨hlt, Or.inr habove⟩
    obtain ⟨file, hflush, hfileId, hout, hafter⟩ :=
      hnext.flushCompactedFile hinputs (by simp [hcurrent]) build iter hlevel
        hcases.1 hcases.2
    obtain ⟨cursors, pq, rest', hpush, hreading', hpending, _⟩ :=
      hreading.pushNext hqueue
        { merge with
          pq := others, prev, hasInitial, content := [], contentSize := 0
          compactedFiles := merge.compactedFiles ++ [file] } rfl rfl
    refine ⟨engine.withFile file, _, ?_,
      ⟨rest', chunks ++ [current'], [], hreading', ?_, ?_⟩,
      Or.inr ⟨file, current', rfl, hfileId, hout, rfl⟩⟩
    · simp only [Merge.round, roundWith, hpop, hconsume, Option.bind_eq_bind,
        Option.bind_some, hflush, hpush]
    · rw [Set.ext hpending]
      exact ⟨hafter.progress, hafter.kept, hafter.content, hafter.size⟩
    · change List.Forall₂ (Output (levelId + 1) files file.fileId) _ _
      rw [hfileId]
      exact forall₂_output_append houtputs hout

/-- The output files of a merge so far hold live winners, in order. -/
def Outputs (levelId : Nat) (files : List File) (top : Int)
    (compacted : List File) (chunks : List (List Entry)) : Prop :=
  List.Forall₂ (Output (levelId + 1) files top) compacted chunks ∧
    chunks.flatten.Pairwise (fun a b => a.key < b.key) ∧
    ∀ entry ∈ chunks.flatten,
      Winner Entry.rank Entry.key (all files) entry ∧ entry.isDelete = false

/-- The output files of a complete merge hold all live winners. -/
def Merged (levelId : Nat) (files : List File) (top : Int)
    (compacted : List File) : Prop :=
  ∃ chunks, Outputs levelId files top compacted chunks ∧
    ∀ entry, Winner Entry.rank Entry.key (all files) entry →
      entry.isDelete = false → entry ∈ chunks.flatten

theorem Inv.outputs {levelId : Nat} (h : Inv levelId files top merge) :
    ∃ chunks, Outputs levelId files top merge.compactedFiles chunks := by
  obtain ⟨rest, chunks, current, _, hemitting, houtputs⟩ := h
  refine ⟨chunks, houtputs,
    (List.pairwise_append.mp hemitting.kept.sorted).1, fun entry hentry => ?_⟩
  obtain ⟨hwinner, hlive, _⟩ := (hemitting.kept.mem_iff entry).mp
    (List.mem_append_left _ hentry)
  exact ⟨hwinner, hlive⟩

/-- With an empty queue nothing is pending. -/
theorem Reading.not_pending (h : Reading files files.length merge rest)
    (hpq : merge.pq = []) (entry : Entry) :
    entry ∉ Pending merge.pq rest := by
  rw [hpq]
  rintro (hentry | ⟨i, hentry⟩)
  · exact absurd hentry (by simp)
  · obtain ⟨head, hhead, _⟩ := h.frontier.front i entry hentry
    rw [hpq] at hhead
    exact absurd hhead (by simp)

theorem Emitting.content_eq_nil (h : Emitting files pending merge chunks
    current) : merge.content = [] ↔ current = [] := by
  rw [h.content, List.map_eq_nil_iff]

/-- The end of `NWayCompaction`. -/
theorem Inv.finish {levelId : Nat} {engine : StorageEngine}
    (h : Inv levelId files engine.fileId merge)
    (hinputs : Inputs files engine.fileId)
    (hlevel : (levelId : Int) ≤ engine.fileId) (hpq : merge.pq = [])
    (build : Build) (iter : IterOrder)
    (hid : (∃ result, merge.finish build iter levelId engine = some result ∧
        result.1.fileId < 10 ^ 8) ∨
      engine.fileId + 1 < 10 ^ 8 ∧ (build = .debug → Above files)) :
    ∃ engine' merge',
      merge.finish build iter levelId engine = some (engine', merge') ∧
      Merged levelId files engine'.fileId merge'.compactedFiles ∧
      Extends levelId files engine engine' merge.compactedFiles
        merge'.compactedFiles := by
  obtain ⟨rest, chunks, current, hreading, hemitting, houtputs⟩ := h
  have hmem : ∀ entry, entry ∈ chunks.flatten ++ current ↔
      Winner Entry.rank Entry.key (all files) entry ∧
        entry.isDelete = false :=
    fun entry => hemitting.kept.mem_iff_of_empty hemitting.progress
      (hreading.not_pending hpq)
  have hsorted := hemitting.kept.sorted
  by_cases hcurrent : current = []
  · rw [hcurrent, List.append_nil] at hsorted hmem
    refine ⟨engine, merge, ?_, ⟨chunks, ⟨houtputs, hsorted, fun entry hentry =>
      (hmem entry).mp hentry⟩, fun entry hwinner hlive =>
        (hmem entry).mpr ⟨hwinner, hlive⟩⟩, Or.inl ⟨rfl, rfl⟩⟩
    rw [Merge.finish, finishWith,
      if_pos (hemitting.content_eq_nil.mpr hcurrent)]
  · have hflushes : merge.finish build iter levelId engine =
        merge.flushCompactedFile build iter (levelId + 1) engine := by
      rw [Merge.finish, finishWith,
        if_neg fun h => hcurrent (hemitting.content_eq_nil.mp h)]
    have hcases : engine.fileId + 1 < 10 ^ 8 ∧
        ((∃ result, merge.flushCompactedFile build iter (levelId + 1) engine =
          some result) ∨ (build = .debug → Above files)) := by
      rcases hid with ⟨result, hresult, hlt⟩ | ⟨hlt, habove⟩
      · rw [hflushes] at hresult
        rw [← fileId_flushCompactedFile hresult]
        exact ⟨hlt, Or.inl ⟨_, hresult⟩⟩
      · exact ⟨hlt, Or.inr habove⟩
    obtain ⟨file, hflush, hfileId, hout, _⟩ :=
      hemitting.flushCompactedFile hinputs hcurrent build iter hlevel hcases.1
        hcases.2
    have hflat : (chunks ++ [current]).flatten = chunks.flatten ++ current := by
      simp
    rw [← hflat] at hsorted hmem
    refine ⟨engine.withFile file, _, hflushes.trans hflush,
      ⟨chunks ++ [current], ⟨?_, hsorted, fun entry hentry =>
        (hmem entry).mp hentry⟩, fun entry hwinner hlive =>
          (hmem entry).mpr ⟨hwinner, hlive⟩⟩,
      Or.inr ⟨file, current, rfl, hfileId, hout, rfl⟩⟩
    change List.Forall₂ (Output (levelId + 1) files file.fileId) _ _
    rw [hfileId]
    exact forall₂_output_append houtputs hout

/-! ### What a merge means -/

/-- The winner of a key is the version a search of the inputs reads. -/
theorem reads_iff_winner (hsources : Sources files) {key value : Bytes} :
    fileLayout.Reads {file | file ∈ files} key value ↔
      ∃ entry, Winner Entry.rank Entry.key (all files) entry ∧
        item entry = (key, value) := by
  constructor
  · rintro ⟨file, hstop, hvalue⟩
    obtain ⟨i, hi⟩ := List.getElem?_of_mem hstop.mem
    obtain ⟨entries, hholds⟩ := hsources.holds file hstop.mem
    have hscan : (key, value) ∈ file.scan := hholds.get_eq_some_iff.mp hvalue
    have hfits := hholds.fits _ (hholds.mem_of_mem_scan hscan)
    refine ⟨file.entry i (key, value), ⟨⟨i, file, hi,
      mem_source.mpr ⟨_, hscan, rfl⟩⟩, fun other hother hkey => ?_⟩, ?_⟩
    · obtain ⟨_, _, _, rival, hrival, hget, hlevel, hid⟩ :=
        hsources.entry hother
      have hsame : other.key = key := hkey
      have hhas : fileLayout.get rival key ≠ none := by
        change rival.get key ≠ none
        rw [← hsame, hget]
        exact Option.some_ne_none _
      refine Prod.Lex.toLex_le_toLex.mpr (Or.inr ⟨hsame.symm,
        Prod.Lex.toLex_le_toLex.mpr ?_⟩)
      simp only [hlevel, hid]
      rcases hstop.first rival hrival hhas with rfl | hlt | ⟨heq, hgt⟩
      · exact Or.inr ⟨rfl, le_refl _⟩
      · exact Or.inl hlt
      · exact Or.inr ⟨heq, neg_le_neg (le_of_lt hgt)⟩
    · rw [item, file.entry_value i hfits]
      rfl
  · rintro ⟨entry, ⟨hentry, hleast⟩, hitem⟩
    obtain ⟨_, _, _, file, hfile, hget, hlevel, hid⟩ := hsources.entry hentry
    obtain ⟨rfl, rfl⟩ := Prod.mk.inj hitem
    refine ⟨file, ⟨hfile, ?_, fun rival hrival hhas => ?_⟩, hget⟩
    · change file.get entry.key ≠ none
      rw [hget]
      exact Option.some_ne_none _
    · obtain ⟨other, hother⟩ := Option.ne_none_iff_exists'.mp hhas
      obtain ⟨j, hj⟩ := List.getElem?_of_mem hrival
      obtain ⟨entries, hholds⟩ := hsources.holds rival hrival
      have hscan : (entry.key, other) ∈ rival.scan :=
        hholds.get_eq_some_iff.mp hother
      have hle := hleast (rival.entry j (entry.key, other)) ⟨j, rival, hj,
        mem_source.mpr ⟨_, hscan, rfl⟩⟩ rfl
      rcases Prod.Lex.toLex_le_toLex.mp hle with hlt | ⟨_, hle⟩
      · exact absurd hlt (lt_irrefl _)
      · rcases Prod.Lex.toLex_le_toLex.mp hle with hlt | ⟨heq, hle⟩
        · right
          left
          change file.levelId < rival.levelId
          rw [← hlevel]
          exact hlt
        · have hlevelEq : file.levelId = rival.levelId := by
            rw [← hlevel]
            exact heq
          have hidLe : rival.fileId ≤ file.fileId := by
            rw [← hid]
            exact neg_le_neg_iff.mp hle
          rcases hidLe.lt_or_eq with hlt | hsame
          · exact Or.inr (Or.inr ⟨hlevelEq, hlt⟩)
          · exact Or.inl (hsources.eq_of_same hrival hfile hlevelEq.symm hsame)

theorem exists_right_of_forall₂ {A B : Type} {R : A → B → Prop} {as : List A}
    {bs : List B} (h : List.Forall₂ R as bs) :
    ∀ a ∈ as, ∃ b ∈ bs, R a b := by
  induction h with
  | nil => simp
  | @cons a b as bs hab _ ih =>
      intro other hother
      rcases List.mem_cons.mp hother with rfl | hother
      · exact ⟨b, List.mem_cons_self, hab⟩
      · obtain ⟨b', hb', hrel⟩ := ih other hother
        exact ⟨b', List.mem_cons_of_mem _ hb', hrel⟩

namespace Outputs

variable {levelId : Nat} {compacted : List File}

/-- Each output file with its chunk. -/
theorem exists_chunk (h : Outputs levelId files top compacted chunks)
    {file : File} (hfile : file ∈ compacted) :
    ∃ chunk ∈ chunks, Output (levelId + 1) files top file chunk :=
  exists_right_of_forall₂ h.1 file hfile

theorem winner (h : Outputs levelId files top compacted chunks)
    {file : File} {chunk : List Entry} (hchunk : chunk ∈ chunks)
    (_ : Output (levelId + 1) files top file chunk) {version : Bytes × Bytes}
    (hversion : version ∈ chunk.map item) :
    ∃ entry, Winner Entry.rank Entry.key (all files) entry ∧
      entry.isDelete = false ∧ item entry = version := by
  obtain ⟨entry, hentry, rfl⟩ := List.mem_map.mp hversion
  obtain ⟨hwinner, hlive⟩ := h.2.2 entry
    (List.mem_flatten_of_mem hchunk hentry)
  exact ⟨entry, hwinner, hlive, rfl⟩

/-- An output file has a version only if it is live and the search of the inputs
reads it. -/
theorem sound (h : Outputs levelId files top compacted chunks)
    (hinputs : Inputs files top) {file : File} (hfile : file ∈ compacted)
    {key value : Bytes} (hget : file.get key = some value) :
    fileLayout.Reads {file | file ∈ files} key value ∧ value ≠ tombValue := by
  obtain ⟨chunk, hchunk, hout⟩ := h.exists_chunk hfile
  have hversion := hout.holds.mem_of_mem_scan
    (hout.holds.get_eq_some_iff.mp hget)
  obtain ⟨entry, hwinner, hlive, hitem⟩ := h.winner hchunk hout hversion
  refine ⟨(reads_iff_winner hinputs.sources).mpr ⟨entry, hwinner, hitem⟩, ?_⟩
  have hdelete := (hinputs.sources.entry hwinner.1).2.2.1
  rw [hlive, (Prod.mk.inj hitem).2] at hdelete
  exact fun heq => by simp [heq] at hdelete

/-- The bounds of an output file are keys of input files. -/
theorem bounds (h : Outputs levelId files top compacted chunks)
    (hinputs : Inputs files top) {file : File} (hfile : file ∈ compacted) :
    (∃ input ∈ files, input.lowerBound ≤ file.lowerBound ∧
        file.lowerBound ≤ input.upperBound) ∧
      ∃ input ∈ files, input.lowerBound ≤ file.upperBound ∧
        file.upperBound ≤ input.upperBound := by
  obtain ⟨chunk, hchunk, hout⟩ := h.exists_chunk hfile
  have hkey : ∀ key ∈ (chunk.map item).map Prod.fst, ∃ input ∈ files,
      input.lowerBound ≤ key ∧ key ≤ input.upperBound := by
    intro key hkey
    obtain ⟨version, hversion, rfl⟩ := List.mem_map.mp hkey
    obtain ⟨entry, hwinner, _, rfl⟩ := h.winner hchunk hout hversion
    obtain ⟨_, _, _, input, hinput, hget, _⟩ :=
      hinputs.sources.entry hwinner.1
    exact ⟨input, hinput, (hinputs.stored input hinput).bounds_of_get_ne_none
      (by rw [item, hget]; exact Option.some_ne_none _)⟩
  exact ⟨hkey _ hout.holds.lowerBound_mem, hkey _ hout.holds.upperBound_mem⟩

/-- The output files follow each other. -/
theorem pairwise (h : Outputs levelId files top compacted chunks) :
    compacted.Pairwise fun a b => a.upperBound < b.lowerBound := by
  have houtputs := h.1
  have hsorted := h.2.1
  clear h
  induction houtputs with
  | nil => exact List.Pairwise.nil
  | @cons file chunk compacted chunks hout houtputs ih =>
      rw [List.flatten_cons, List.pairwise_append] at hsorted
      refine List.pairwise_cons.mpr ⟨fun other hother => ?_, ih hsorted.2.1⟩
      obtain ⟨_, hupper, hupperEq⟩ :=
        List.mem_map.mp hout.holds.upperBound_mem
      obtain ⟨last, hlast, rfl⟩ := List.mem_map.mp hupper
      obtain ⟨chunk', hchunk', hout'⟩ :=
        exists_right_of_forall₂ houtputs other hother
      obtain ⟨_, hlower, hlowerEq⟩ :=
        List.mem_map.mp hout'.holds.lowerBound_mem
      obtain ⟨first, hfirst, rfl⟩ := List.mem_map.mp hlower
      rw [← hupperEq, ← hlowerEq]
      exact hsorted.2.2 last hlast first
        (List.mem_flatten_of_mem hchunk' hfirst)

theorem stored (h : Outputs levelId files top compacted chunks)
    {file : File} (hfile : file ∈ compacted) :
    file.Stored top ∧ file.levelId = levelId + 1 ∧
      ∀ input ∈ files, input.fileId < file.fileId := by
  obtain ⟨chunk, _, hout⟩ := h.exists_chunk hfile
  exact ⟨hout.stored, hout.level, hout.newer⟩

end Outputs

/-- In small output files a complete merge holds every live reading. -/
theorem Merged.complete {levelId : Nat} {compacted : List File}
    (h : Merged levelId files top compacted) (hinputs : Inputs files top)
    (hsmall : ∀ file ∈ compacted, file.Small) {key value : Bytes}
    (hreads : fileLayout.Reads {file | file ∈ files} key value)
    (hlive : value ≠ tombValue) :
    ∃ file ∈ compacted, file.get key = some value := by
  obtain ⟨chunks, houtputs, hall⟩ := h
  obtain ⟨entry, hwinner, hitem⟩ := (reads_iff_winner hinputs.sources).mp hreads
  have hdelete : entry.isDelete = false := by
    rw [(hinputs.sources.entry hwinner.1).2.2.1, (Prod.mk.inj hitem).2]
    simpa using hlive
  obtain ⟨chunk, hchunk, hentry⟩ :=
    List.mem_flatten.mp (hall entry hwinner hdelete)
  obtain ⟨file, hfile, hout⟩ := exists_right_of_forall₂
    (List.Forall₂.flip (R := flip (Output (levelId + 1) files top))
      houtputs.1) chunk hchunk
  refine ⟨file, hfile, hout.holds.get_eq_some_iff.mpr ?_⟩
  rw [hout.holds.scan_eq (hsmall file hfile), ← hitem]
  exact List.mem_map_of_mem hentry

end Merge

end SimpleKV
