/-
Two merges of files that differ in the bytes of values only: they take alike
entries from their queues in the same order, and fill and flush their outputs in
the same rounds.
-/
import SimpleKV.Outlines

namespace SimpleKV

open SortedAssoc KWayMerge

/-- An encoded entry without the bytes of its value. -/
def node (data : Bytes) : Nat × List (Bytes × Nat × Bool) :=
  (data.length, outline (SkipList.entries [data]))

theorem outline_entries (content : List Bytes) :
    outline (SkipList.entries content) =
      (content.map node).flatMap Prod.snd := by
  induction content with
  | nil => rfl
  | cons data content ih =>
      rw [List.map_cons, List.flatMap_cons, ← ih]
      simp only [SkipList.entries, node, outline]
      cases hdecode : decodeEntry data with
      | none => simp [hdecode]
      | some entry => simp [hdecode]

/-- A queue entry without the bytes of its value. -/
structure EntryOutline where
  key : Bytes
  levelId : Nat
  fileId : Int
  index : Nat
  isDelete : Bool
  node : Nat × List (Bytes × Nat × Bool)

def Entry.outline (entry : Entry) : EntryOutline where
  key := entry.key
  levelId := entry.levelId
  fileId := entry.fileId
  index := entry.index
  isDelete := entry.isDelete
  node := SimpleKV.node entry.data

theorem Entry.rank_congr {a b : Entry} (h : a.outline = b.outline) :
    a.rank = b.rank := by
  have hkey := congrArg EntryOutline.key h
  have hlevel := congrArg EntryOutline.levelId h
  have hid := congrArg EntryOutline.fileId h
  simp only [Entry.outline] at hkey hlevel hid
  rw [Entry.rank, Entry.rank, hkey, hlevel, hid]

/-- What an entry's outline is made of. -/
def entryOutline (levelId : Nat) (fileId : Int) (index : Nat)
    (entry : Bytes × Nat × Bool) : EntryOutline where
  key := entry.1
  levelId
  fileId
  index
  isDelete := entry.2.2
  node := ((encodeString entry.1).length +
    (encodeString (List.replicate entry.2.1 0)).length, [entry])

theorem length_encodeString_congr {a b : Bytes} (h : a.length = b.length) :
    (encodeString a).length = (encodeString b).length := by
  rw [length_encodeString, length_encodeString, h]

theorem File.outline_entry (file : File) (index : Nat)
    {entry : Bytes × Bytes} (hfits : Fits entry) :
    (file.entry index entry).outline = entryOutline file.levelId file.fileId
      index (Prod.map id shape entry) := by
  have hentries : SkipList.entries [encodeEntry entry.1 entry.2] =
      [entry] := by
    simp [SkipList.entries, decodeEntry_encodeEntry hfits]
  have hlength : (encodeEntry entry.1 entry.2).length =
      (encodeString entry.1).length +
        (encodeString (List.replicate entry.2.length 0)).length := by
    rw [length_encodeEntry, length_encodeString_congr
      (show entry.2.length = (List.replicate entry.2.length 0).length by simp)]
  simp only [Entry.outline, File.entry, entryOutline, node, hentries, hlength,
    SimpleKV.outline, List.map_cons, List.map_nil]
  rfl

namespace Merge

variable {files files' : List File}

theorem outline_source {file : File} {entries : List (Bytes × Bytes)}
    (h : file.Holds entries) (i : Nat) :
    (source file i).map Entry.outline =
      (outline file.scan).map (entryOutline file.levelId file.fileId i) := by
  rw [source, outline, List.map_map, List.map_map]
  apply List.map_congr_left
  intro entry hentry
  exact file.outline_entry i (h.fits entry (h.mem_of_mem_scan hentry))

theorem outline_sourceAt (h : FilesAlike files files')
    (hfiles : ∀ file ∈ files, ∃ entries, file.Holds entries)
    (hfiles' : ∀ file ∈ files', ∃ entries, file.Holds entries) (i : Nat) :
    (sourceAt files i).map Entry.outline =
      (sourceAt files' i).map Entry.outline := by
  have hrel : Option.Rel (fun file other => Alike file other ∧
      file ∈ files ∧ other ∈ files') files[i]? files'[i]? := by
    have hlength := h.length_eq
    by_cases hi : i < files.length
    · rw [List.getElem?_eq_getElem hi,
        List.getElem?_eq_getElem (hlength ▸ hi)]
      exact Option.Rel.some ⟨h.get hi (hlength ▸ hi), List.getElem_mem _,
        List.getElem_mem _⟩
    · rw [List.getElem?_eq_none (not_lt.mp hi),
        List.getElem?_eq_none (hlength ▸ not_lt.mp hi)]
      exact Option.Rel.none
  rw [sourceAt, sourceAt]
  generalize files[i]? = file at hrel
  generalize files'[i]? = other at hrel
  cases hrel with
  | none => rfl
  | some hboth =>
      obtain ⟨halike, hmem, hmem'⟩ := hboth
      obtain ⟨entries, hholds⟩ := hfiles _ hmem
      obtain ⟨entries', hholds'⟩ := hfiles' _ hmem'
      simp only [Option.elim_some]
      rw [outline_source hholds, outline_source hholds', halike.contents,
        halike.levelId, halike.fileId]

theorem outline_firsts (h : FilesAlike files files')
    (hfiles : ∀ file ∈ files, ∃ entries, file.Holds entries)
    (hfiles' : ∀ file ∈ files', ∃ entries, file.Holds entries) (count : Nat) :
    (firsts files count).map Entry.outline =
      (firsts files' count).map Entry.outline := by
  induction count with
  | zero => rfl
  | succ count ih =>
      have hsource := outline_sourceAt h hfiles hfiles' count
      have hhead := congrArg (fun list => list.head?.toList) hsource
      simp only [List.head?_map] at hhead
      rw [firsts, firsts, List.map_append, List.map_append, ih]
      congr 1
      cases hone : (sourceAt files count).head? <;>
        cases htwo : (sourceAt files' count).head? <;>
        simp_all

/-- The locals after an entry was popped: the first entry of a key is kept
unless it is a tombstone. -/
def accept (entry : Entry) (merge : Merge) : Merge :=
  if !merge.hasInitial || entry.key ≠ merge.prev then
    if entry.isDelete then
      { merge with hasInitial := true, prev := entry.key }
    else
      { merge with
        hasInitial := true
        prev := entry.key
        content := merge.content ++ [entry.data]
        contentSize := merge.contentSize + UInt32.ofNat entry.data.length }
  else merge

/-- Whether the entry fills the output. -/
def fills (bufferSize : UInt32) (entry : Entry) (merge : Merge) : Bool :=
  (!merge.hasInitial || entry.key ≠ merge.prev) && !entry.isDelete &&
    decide (bufferSize < merge.contentSize + UInt32.ofNat entry.data.length)

theorem consumeWith_eq {S : Type} (flushFile : S → Merge → Option (S × Merge))
    (bufferSize : UInt32) (entry : Entry) (out : S) (merge : Merge) :
    consumeWith flushFile bufferSize entry out merge =
      if merge.fills bufferSize entry then flushFile out (merge.accept entry)
      else some (out, merge.accept entry) := by
  cases hfresh : !merge.hasInitial || decide (entry.key ≠ merge.prev) with
  | false => simp only [consumeWith, fills, accept, hfresh]; rfl
  | true =>
      cases hdelete : entry.isDelete with
      | true => simp only [consumeWith, fills, accept, hfresh, hdelete]; rfl
      | false =>
          by_cases hfull : bufferSize <
              merge.contentSize + UInt32.ofNat entry.data.length
          · simp only [consumeWith, fills, accept, hfresh, hdelete, hfull]
            rfl
          · simp only [consumeWith, fills, accept, hfresh, hdelete, hfull]
            rfl

variable {merge merge' : Merge} {pending left : Set Entry}
  {chunks : List (List Entry)} {current : List Entry} {entry : Entry}

theorem Emitting.exists_accept (h : Emitting files pending merge chunks current)
    (hsources : Sources files) (htop : entry ∈ pending)
    (hleast : ∀ other ∈ pending, entry.rank ≤ other.rank)
    (hleft : ∀ other, other ∈ pending ↔ other = entry ∨ other ∈ left)
    (bufferSize : UInt32) :
    ∃ current', Emitting files left (merge.accept entry) chunks current' ∧
      (merge.fills bufferSize entry = true → current' ≠ []) := by
  obtain ⟨prev, hasInitial, content, contentSize, current', hnext, hconsume⟩ :=
    h.consume hsources htop hleast hleft bufferSize
  -- The two accounts of a round, seen through an output that keeps all.
  have haccept : merge.accept entry =
      { merge with prev, hasInitial, content, contentSize } := by
    have heq := consumeWith_eq (fun (_ : Unit) merge => some ((), merge))
      bufferSize entry () merge
    rw [ite_self] at heq
    rcases hconsume with ⟨_, hconsume⟩ | ⟨_, _, hconsume⟩
    · rw [hconsume, Option.some.injEq, Prod.mk.injEq] at heq
      exact heq.2.symm
    · rw [hconsume, Option.some.injEq, Prod.mk.injEq] at heq
      exact heq.2.symm
  refine ⟨current', haccept ▸ hnext, fun hfills => ?_⟩
  rcases hconsume with ⟨_, hconsume⟩ | ⟨hcurrent, _⟩
  · have heq := consumeWith_eq (fun (_ : Unit) _ => none) bufferSize entry ()
      merge
    rw [hconsume, if_pos hfills] at heq
    cases heq
  · rw [hcurrent]
    simp

/-- What waits in `content`, read back. -/
theorem Emitting.entries_content
    (h : Emitting files pending merge chunks current) {top : Int}
    (hinputs : Inputs files top) :
    SkipList.entries merge.content = current.map item := by
  refine Encodes.entries_eq ⟨h.content_eq hinputs.sources, h.increasing, ?_⟩
  intro version hversion
  obtain ⟨entry, hentry, rfl⟩ := List.mem_map.mp hversion
  exact hinputs.short (h.mem_all hentry)

/-- What `FlushCompactedFile` did when it came through. -/
theorem Emitting.flushCompactedFile_eq
    (h : Emitting files pending merge chunks current)
    {engine engine' : StorageEngine} (hinputs : Inputs files engine.fileId)
    (hcurrent : current ≠ []) {build : Build} {iter : IterOrder}
    {levelId : Nat} (hlevel : (levelId : Int) ≤ engine.fileId)
    (hflush : merge.flushCompactedFile build iter (levelId + 1) engine =
      some (engine', merge')) (hid : engine'.fileId < 10 ^ 8) :
    ∃ file, engine' = engine.withFile file ∧
      merge' = { merge with
        content := []
        contentSize := 0
        compactedFiles := merge.compactedFiles ++ [file] } ∧
      file.fileId = engine.fileId + 1 ∧ file.levelId = levelId + 1 ∧
      file.Holds (SkipList.entries merge.content) := by
  have hdrawn := fileId_flushCompactedFile hflush
  simp only at hdrawn
  obtain ⟨file, hflush', hfileId, hout, _⟩ := h.flushCompactedFile hinputs
    hcurrent build iter hlevel (by omega) (Or.inl ⟨_, hflush⟩)
  rw [hflush, Option.some.injEq, Prod.mk.injEq] at hflush'
  refine ⟨file, hflush'.1, hflush'.2, hfileId, hout.level, ?_⟩
  rw [h.entries_content hinputs]
  exact hout.holds

/-- The outputs agree up to the bytes of values. -/
structure OutputAlike (merge merge' : Merge) : Prop where
  prev : merge.prev = merge'.prev
  hasInitial : merge.hasInitial = merge'.hasInitial
  contentSize : merge.contentSize = merge'.contentSize
  content : merge.content.map node = merge'.content.map node
  compactedFiles : FilesAlike merge.compactedFiles merge'.compactedFiles

/-- The inputs agree up to the bytes of values; the queues may be arranged
differently. -/
structure InputAlike (files files' : List File) (merge merge' : Merge)
    (rest rest' : Nat → List Entry) : Prop where
  reading : Reading files files.length merge rest
  reading' : Reading files' files'.length merge' rest'
  rest_eq : ∀ i, (rest i).map Entry.outline = (rest' i).map Entry.outline
  pq : (merge.pq.map Entry.outline).Perm (merge'.pq.map Entry.outline)

/-- Two merges that differ in the bytes of values only. -/
def MergeAlike (files files' : List File) (merge merge' : Merge) : Prop :=
  OutputAlike merge merge' ∧
    ∃ rest rest', InputAlike files files' merge merge' rest rest'

theorem exists_start_alike (h : FilesAlike files files')
    (hfiles : ∀ file ∈ files, ∃ entries, file.Holds entries)
    (hfiles' : ∀ file ∈ files', ∃ entries, file.Holds entries)
    (hstart : start files = some merge)
    (hstart' : start files' = some merge') :
    MergeAlike files files' merge merge' := by
  obtain ⟨_, pq, rest, hone, hreading, _, hpq, hrest⟩ := exists_start hfiles
  obtain ⟨_, pq', rest', htwo, hreading', _, hpq', hrest'⟩ :=
    exists_start hfiles'
  rw [hstart, Option.some.injEq] at hone
  rw [hstart', Option.some.injEq] at htwo
  rw [hone, htwo]
  refine ⟨⟨rfl, rfl, rfl, rfl, List.Forall₂.nil⟩, rest, rest', hreading,
    hreading', fun i => ?_, ?_⟩
  · rw [hrest, hrest', List.map_tail, List.map_tail,
      outline_sourceAt h hfiles hfiles']
  · simp only
    rw [hpq, hpq', h.length_eq, outline_firsts h hfiles hfiles']

/-- The two queues give out alike entries. -/
theorem pop_alike {queue : PriorityQueue} {entry' : Entry}
    {others others' : List Entry}
    (hpq : (merge.pq.map Entry.outline).Perm (merge'.pq.map Entry.outline))
    (hsources : Sources files')
    (hmem : ∀ other ∈ merge'.pq, other ∈ all files')
    (hpop : queue.pop merge.pq = some (entry, others))
    (hpop' : queue.pop merge'.pq = some (entry', others')) :
    entry.outline = entry'.outline ∧
      (others.map Entry.outline).Perm (others'.map Entry.outline) := by
  have hspec : ∀ (pq : List Entry) (top : Entry) (rest : List Entry),
      queue.pop pq = some (top, rest) →
        (top :: rest).Perm pq ∧ ∀ other ∈ top :: rest,
          top.rank ≤ other.rank := by
    intro pq top rest hpop
    have hne : pq ≠ [] := by
      rintro rfl
      rw [queue.pop_nil] at hpop
      cases hpop
    obtain ⟨top', rest', hpop', hperm, hmax⟩ := queue.pop_of_ne_nil pq hne
    rw [hpop, Option.some.injEq, Prod.mk.injEq] at hpop'
    obtain ⟨rfl, rfl⟩ := hpop'
    refine ⟨hperm, fun other hother => ?_⟩
    rcases List.mem_cons.mp hother with rfl | hother
    · exact le_refl _
    · by_contra hlt
      have hcmp := rank_lt_iff.mp (not_le.mp hlt)
      rw [hmax other hother] at hcmp
      cases hcmp
  obtain ⟨hperm, hleast⟩ := hspec _ _ _ hpop
  obtain ⟨hperm', hleast'⟩ := hspec _ _ _ hpop'
  have hboth : (entry.outline :: others.map Entry.outline).Perm
      (entry'.outline :: others'.map Entry.outline) :=
    ((hperm.map Entry.outline).trans hpq).trans (hperm'.map _).symm
  -- Each top has its like in the other queue, so their ranks agree.
  obtain ⟨twin', htwin', heq'⟩ : ∃ other ∈ entry' :: others',
      other.outline = entry.outline :=
    List.mem_map.mp (hboth.mem_iff.mp List.mem_cons_self)
  obtain ⟨twin, htwin, heq⟩ : ∃ other ∈ entry :: others,
      other.outline = entry'.outline :=
    List.mem_map.mp (hboth.mem_iff.mpr List.mem_cons_self)
  have hle := hleast' twin' htwin'
  rw [Entry.rank_congr heq'] at hle
  have hge := hleast twin htwin
  rw [Entry.rank_congr heq] at hge
  have hsame : twin' = entry' := by
    refine hsources.injOn_rank (hmem _ (hperm'.mem_iff.mp htwin'))
      (hmem _ (hperm'.mem_iff.mp List.mem_cons_self)) ?_
    rw [Entry.rank_congr heq']
    exact le_antisymm hge hle
  rw [hsame] at heq'
  rw [← heq'] at hboth
  exact ⟨heq'.symm, hboth.cons_inv⟩

theorem OutputAlike.fills (h : OutputAlike merge merge') {entry' : Entry}
    (hentry : entry.outline = entry'.outline) (bufferSize : UInt32) :
    merge.fills bufferSize entry = merge'.fills bufferSize entry' := by
  have hkey : entry.key = entry'.key := congrArg EntryOutline.key hentry
  have hdelete : entry.isDelete = entry'.isDelete :=
    congrArg EntryOutline.isDelete hentry
  have hlength : entry.data.length = entry'.data.length :=
    congrArg (fun entry => entry.node.1) hentry
  rw [Merge.fills, Merge.fills, hkey, hdelete, hlength, h.hasInitial, h.prev,
    h.contentSize]

theorem OutputAlike.accept (h : OutputAlike merge merge') {entry' : Entry}
    (hentry : entry.outline = entry'.outline) :
    OutputAlike (merge.accept entry) (merge'.accept entry') := by
  have hkey : entry.key = entry'.key := congrArg EntryOutline.key hentry
  have hdelete : entry.isDelete = entry'.isDelete :=
    congrArg EntryOutline.isDelete hentry
  have hnode : node entry.data = node entry'.data :=
    congrArg EntryOutline.node hentry
  have hlength : entry.data.length = entry'.data.length :=
    congrArg Prod.fst hnode
  rw [Merge.accept, Merge.accept, hkey, hdelete, h.hasInitial, h.prev]
  split_ifs
  · exact ⟨rfl, rfl, h.contentSize, h.content, h.compactedFiles⟩
  · refine ⟨rfl, rfl, ?_, ?_, h.compactedFiles⟩
    · simp only
      rw [h.contentSize, hlength]
    · simp only [List.map_append, List.map_cons, List.map_nil]
      rw [h.content, hnode]
  · exact h

@[simp] theorem accept_cursors (entry : Entry) (merge : Merge) :
    (merge.accept entry).cursors = merge.cursors := by
  unfold accept
  split_ifs <;> rfl

@[simp] theorem accept_pq (entry : Entry) (merge : Merge) :
    (merge.accept entry).pq = merge.pq := by
  unfold accept
  split_ifs <;> rfl

theorem compactedFiles_pushNext {i : Nat}
    (h : merge.pushNext i = some merge') :
    merge'.compactedFiles = merge.compactedFiles := by
  unfold pushNext at h
  obtain ⟨cursor, _, h⟩ := Option.bind_eq_some_iff.mp h
  split_ifs at h
  · obtain ⟨⟨entry, ptr⟩, _, h⟩ := Option.bind_eq_some_iff.mp h
    rw [← Option.some.inj h]
  · rw [← Option.some.inj h]

/-- The two inputs go on alike after a pop. -/
theorem InputAlike.pushNext {rest rest' : Nat → List Entry}
    (h : InputAlike files files' merge merge' rest rest') {entry' : Entry}
    {others others' : List Entry}
    (hqueue : ∀ other, other ∈ merge.pq ↔ other = entry ∨ other ∈ others)
    (hqueue' : ∀ other, other ∈ merge'.pq ↔ other = entry' ∨ other ∈ others')
    (hentry : entry.outline = entry'.outline)
    (hothers : (others.map Entry.outline).Perm (others'.map Entry.outline))
    {after after' next next' : Merge} (halike : OutputAlike after after')
    (hcursors : after.cursors = merge.cursors) (hpq : after.pq = others)
    (hcursors' : after'.cursors = merge'.cursors) (hpq' : after'.pq = others')
    (hpush : after.pushNext entry.index = some next)
    (hpush' : after'.pushNext entry'.index = some next') :
    MergeAlike files files' next next' := by
  have hindex : entry.index = entry'.index :=
    congrArg EntryOutline.index hentry
  obtain ⟨_, _, _, hone, hreading, _, hpqEq, hrestEq⟩ :=
    h.reading.pushNext hqueue after hcursors hpq
  obtain ⟨_, _, _, htwo, hreading', _, hpqEq', hrestEq'⟩ :=
    h.reading'.pushNext hqueue' after' hcursors' hpq'
  rw [hpush, Option.some.injEq] at hone
  rw [hpush', Option.some.injEq] at htwo
  rw [hone, htwo]
  have hrest := h.rest_eq entry'.index
  refine ⟨⟨halike.prev, halike.hasInitial, halike.contentSize, halike.content,
    halike.compactedFiles⟩, _, _, hreading, hreading', fun i => ?_, ?_⟩
  · rw [hrestEq, hrestEq', hindex]
    by_cases hi : i = entry'.index
    · rw [hi, Function.update_self, Function.update_self, List.map_tail,
        List.map_tail, hrest]
    · rw [Function.update_of_ne hi, Function.update_of_ne hi, h.rest_eq]
  · have hhead : (rest entry.index).head?.toList.map Entry.outline =
        (rest' entry'.index).head?.toList.map Entry.outline := by
      have heq := congrArg List.head? hrest
      rw [List.head?_map, List.head?_map] at heq
      rw [hindex]
      cases hfirst : (rest entry'.index).head? <;>
        cases hsecond : (rest' entry'.index).head? <;> simp_all
    simp only
    rw [hpqEq, hpqEq', List.map_append, List.map_append, hhead]
    exact hothers.append_left _

variable {engine engine' next next' : StorageEngine} {build : Build}
  {queue : PriorityQueue} {iter : IterOrder} {bufferSize : UInt32}
  {levelId : Nat} {after after' : Merge}

/-- Alike contents become alike files. -/
theorem OutputAlike.flushed (h : OutputAlike merge merge') {file file' : File}
    (hholds : file.Holds (SkipList.entries merge.content))
    (hsmall : file.Small)
    (hholds' : file'.Holds (SkipList.entries merge'.content))
    (hsmall' : file'.Small) (hlevel : file.levelId = file'.levelId)
    (hid : file.fileId = file'.fileId) :
    OutputAlike
      { merge with
        content := []
        contentSize := 0
        compactedFiles := merge.compactedFiles ++ [file] }
      { merge' with
        content := []
        contentSize := 0
        compactedFiles := merge'.compactedFiles ++ [file'] } := by
  refine ⟨h.prev, h.hasInitial, rfl, rfl, List.rel_append h.compactedFiles
    (List.Forall₂.cons ?_ List.Forall₂.nil)⟩
  apply Alike.of_holds hholds hsmall hholds' hsmall' hlevel hid
  rw [outline_entries, outline_entries, h.content]

/-- What a round did when it came through. -/
theorem Inv.round_eq (h : Inv levelId files engine.fileId merge)
    (hinputs : Inputs files engine.fileId)
    (hlevel : (levelId : Int) ≤ engine.fileId) (hpq : merge.pq ≠ [])
    (hround : merge.round build queue iter bufferSize levelId engine =
      some (next, after)) (hid : next.fileId < 10 ^ 8) :
    ∃ entry others, queue.pop merge.pq = some (entry, others) ∧
      (∀ other, other ∈ merge.pq ↔ other = entry ∨ other ∈ others) ∧
      (∀ other ∈ merge.pq, other ∈ all files) ∧
      ((merge.fills bufferSize entry = false ∧ next = engine ∧
          (({ merge with pq := others } : Merge).accept entry).pushNext
            entry.index = some after) ∨
        (merge.fills bufferSize entry = true ∧ ∃ file,
          next = engine.withFile file ∧
          file.fileId = engine.fileId + 1 ∧ file.levelId = levelId + 1 ∧
          file.Holds (SkipList.entries
            (({ merge with pq := others } : Merge).accept entry).content) ∧
          ({ ({ merge with pq := others } : Merge).accept entry with
              content := []
              contentSize := 0
              compactedFiles := (({ merge with pq := others } : Merge).accept
                entry).compactedFiles ++ [file] } : Merge).pushNext
            entry.index = some after)) := by
  obtain ⟨rest, chunks, current, hreading, hemitting, _⟩ := h
  obtain ⟨entry, others, hpop, hqueue, htop, hleast⟩ := hreading.pop hpq queue
  refine ⟨entry, others, hpop, hqueue, fun other hother =>
    hemitting.progress.subset (Or.inl hother), ?_⟩
  have hemitting' : Emitting files (Pending merge.pq rest)
      { merge with pq := others } chunks current :=
    ⟨hemitting.progress, hemitting.kept, hemitting.content, hemitting.size⟩
  obtain ⟨current', hnext, hcurrent⟩ := hemitting'.exists_accept
    hinputs.sources htop hleast (fun other => pending_pop hqueue) bufferSize
  change merge.fills bufferSize entry = true → _ at hcurrent
  simp only [Merge.round, roundWith, hpop, consumeWith_eq, Option.bind_eq_bind,
    Option.bind_some, Option.bind_eq_some_iff] at hround
  obtain ⟨⟨flushed, filled⟩, hconsume, pushed, hpush, hresult⟩ := hround
  rw [Option.some.injEq, Prod.mk.injEq] at hresult
  obtain ⟨rfl, rfl⟩ := hresult
  change (if merge.fills bufferSize entry then _ else _) = _ at hconsume
  cases hfills : merge.fills bufferSize entry with
  | false =>
      rw [hfills, if_neg (by simp), Option.some.injEq, Prod.mk.injEq] at hconsume
      obtain ⟨rfl, rfl⟩ := hconsume
      exact Or.inl ⟨rfl, rfl, hpush⟩
  | true =>
      rw [hfills, if_pos rfl] at hconsume
      obtain ⟨file, hengine, hfilled, hfileId, hfileLevel, hholds⟩ :=
        hnext.flushCompactedFile_eq hinputs (hcurrent hfills) hlevel hconsume
          hid
      rw [hfilled] at hpush
      exact Or.inr ⟨rfl, file, hengine, hfileId, hfileLevel, hholds, hpush⟩

/-- Two rounds of alike merges. -/
theorem MergeAlike.round (h : MergeAlike files files' merge merge')
    (hengine : EngineAlike engine engine')
    (hinv : Inv levelId files engine.fileId merge)
    (hinv' : Inv levelId files' engine'.fileId merge')
    (hinputs : Inputs files engine.fileId)
    (hinputs' : Inputs files' engine'.fileId)
    (hlevel : (levelId : Int) ≤ engine.fileId) (hpq : merge.pq ≠ [])
    (hpq' : merge'.pq ≠ [])
    (hround : merge.round build queue iter bufferSize levelId engine =
      some (next, after))
    (hround' : merge'.round build queue iter bufferSize levelId engine' =
      some (next', after'))
    (hid : next.fileId < 10 ^ 8) (hid' : next'.fileId < 10 ^ 8)
    (hsmall : ∀ file ∈ after.compactedFiles, file.Small)
    (hsmall' : ∀ file ∈ after'.compactedFiles, file.Small) :
    MergeAlike files files' after after' ∧ EngineAlike next next' := by
  obtain ⟨houtput, rest, rest', hinput⟩ := h
  obtain ⟨entry, others, hpop, hqueue, _, hcases⟩ :=
    hinv.round_eq hinputs hlevel hpq hround hid
  obtain ⟨entry', others', hpop', hqueue', hmem', hcases'⟩ :=
    hinv'.round_eq hinputs' (hengine.fileId ▸ hlevel) hpq' hround' hid'
  obtain ⟨hentry, hothers⟩ :=
    pop_alike hinput.pq hinputs'.sources hmem' hpop hpop'
  have hpopped : OutputAlike { merge with pq := others }
      { merge' with pq := others' } :=
    ⟨houtput.prev, houtput.hasInitial, houtput.contentSize, houtput.content,
      houtput.compactedFiles⟩
  have haccept := hpopped.accept hentry
  have hfills := houtput.fills hentry bufferSize
  rcases hcases with ⟨hfalse, rfl, hpush⟩ |
    ⟨htrue, file, rfl, hfileId, hfileLevel, hholds, hpush⟩
  · rcases hcases' with ⟨_, rfl, hpush'⟩ | ⟨htrue', _⟩
    · exact ⟨hinput.pushNext hqueue hqueue' hentry hothers haccept (by simp)
        (by simp) (by simp) (by simp) hpush hpush', hengine⟩
    · rw [hfills, htrue'] at hfalse
      cases hfalse
  · rcases hcases' with ⟨hfalse', _⟩ |
      ⟨_, file', rfl, hfileId', hfileLevel', hholds', hpush'⟩
    · rw [hfills, hfalse'] at htrue
      cases htrue
    · have hmade : file ∈ after.compactedFiles := by
        rw [compactedFiles_pushNext hpush]
        simp
      have hmade' : file' ∈ after'.compactedFiles := by
        rw [compactedFiles_pushNext hpush']
        simp
      have hsameId : file.fileId = file'.fileId := by
        rw [hfileId, hfileId', hengine.fileId]
      have hflushed := haccept.flushed hholds (hsmall file hmade) hholds'
        (hsmall' file' hmade') (hfileLevel.trans hfileLevel'.symm) hsameId
      refine ⟨hinput.pushNext hqueue hqueue' hentry hothers hflushed (by simp)
        (by simp) (by simp) (by simp) hpush hpush', hsameId, hengine.limit,
        hengine.levels⟩

/-- The ends of alike merges. -/
theorem MergeAlike.finish (h : MergeAlike files files' merge merge')
    (hengine : EngineAlike engine engine')
    (hinv : Inv levelId files engine.fileId merge)
    (hinv' : Inv levelId files' engine'.fileId merge')
    (hinputs : Inputs files engine.fileId)
    (hinputs' : Inputs files' engine'.fileId)
    (hlevel : (levelId : Int) ≤ engine.fileId)
    (hfinish : merge.finish build iter levelId engine = some (next, after))
    (hfinish' : merge'.finish build iter levelId engine' =
      some (next', after'))
    (hid : next.fileId < 10 ^ 8) (hid' : next'.fileId < 10 ^ 8)
    (hsmall : ∀ file ∈ after.compactedFiles, file.Small)
    (hsmall' : ∀ file ∈ after'.compactedFiles, file.Small) :
    FilesAlike after.compactedFiles after'.compactedFiles ∧
      EngineAlike next next' := by
  obtain ⟨houtput, _⟩ := h
  obtain ⟨_, _, current, _, hemitting, _⟩ := hinv
  obtain ⟨_, _, current', _, hemitting', _⟩ := hinv'
  have hnil : merge.content = [] ↔ merge'.content = [] := by
    rw [← List.map_eq_nil_iff, houtput.content, List.map_eq_nil_iff]
  unfold Merge.finish finishWith at hfinish hfinish'
  by_cases hcontent : merge.content = []
  · rw [if_pos hcontent, Option.some.injEq, Prod.mk.injEq] at hfinish
    rw [if_pos (hnil.mp hcontent), Option.some.injEq, Prod.mk.injEq]
      at hfinish'
    obtain ⟨rfl, rfl⟩ := hfinish
    obtain ⟨rfl, rfl⟩ := hfinish'
    exact ⟨houtput.compactedFiles, hengine⟩
  · rw [if_neg hcontent] at hfinish
    rw [if_neg fun hempty => hcontent (hnil.mpr hempty)] at hfinish'
    obtain ⟨file, rfl, rfl, hfileId, hfileLevel, hholds⟩ :=
      hemitting.flushCompactedFile_eq hinputs
        (fun hempty => hcontent (hemitting.content_eq_nil.mpr hempty)) hlevel
        hfinish hid
    obtain ⟨file', rfl, rfl, hfileId', hfileLevel', hholds'⟩ :=
      hemitting'.flushCompactedFile_eq hinputs' (fun hempty =>
        hcontent (hnil.mpr (hemitting'.content_eq_nil.mpr hempty)))
        (hengine.fileId ▸ hlevel) hfinish' hid'
    have hsameId : file.fileId = file'.fileId := by
      rw [hfileId, hfileId', hengine.fileId]
    have hflushed := houtput.flushed hholds (hsmall file (by simp)) hholds'
      (hsmall' file' (by simp)) (hfileLevel.trans hfileLevel'.symm) hsameId
    exact ⟨hflushed.compactedFiles, hsameId, hengine.limit, hengine.levels⟩

end Merge

end SimpleKV
