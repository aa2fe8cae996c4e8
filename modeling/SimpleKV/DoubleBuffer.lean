/-
The double buffer over whole runs.  The history of a run lists its swaps, its
files written and its buffers cleared; it shows that every swapped buffer
becomes exactly one file, in swap order, and that no key is lost on the way.
-/
import SimpleKV.Handoff

namespace SimpleKV

/-- A visible act of the hand-off. -/
inductive Event where
  | swap (list : SkipList Bytes)
  | write (id : Int) (bytes : Bytes)
  | clear (list : SkipList Bytes)
deriving DecidableEq

namespace Event

def swapped : List Event → List (SkipList Bytes) :=
  List.filterMap fun
    | .swap list => some list
    | _ => none

def written : List Event → List (Int × Bytes) :=
  List.filterMap fun
    | .write id bytes => some (id, bytes)
    | _ => none

def cleared : List Event → List (SkipList Bytes) :=
  List.filterMap fun
    | .clear list => some list
    | _ => none

theorem swapped_append (past more : List Event) :
    swapped (past ++ more) = swapped past ++ swapped more :=
  List.filterMap_append ..

theorem written_append (past more : List Event) :
    written (past ++ more) = written past ++ written more :=
  List.filterMap_append ..

theorem cleared_append (past more : List Event) :
    cleared (past ++ more) = cleared past ++ cleared more :=
  List.filterMap_append ..

end Event

namespace DataBase

open Event

/-- What a step contributes to the history. -/
def event : Act → DataBase → List Event
  | .add order key value, db =>
      let buffer := db.buffer.insert (.ofString key)
        (.ofString (orderValue order value))
      if buffer.swaps then [.swap buffer.incomeBuffer] else []
  | .write iter, db =>
      match db.buffer.writeFlushBuffer iter, db.store.flight with
      | some (bytes, _), .created id _ => [.write id bytes]
      | _, _ => []
  | .clear, db =>
      match db.buffer.flushBuffer with
      | some list => [.clear list]
      | none => []
  | _, _ => []

/-- The history of a run. -/
def history : List Act → DataBase → List Event
  | [], _ => []
  | act :: acts, db =>
      match step act db with
      | some db' => event act db ++ history acts db'
      | none => []

theorem history_snoc {acts : List Act} {act : Act} {db last next : DataBase}
    (hrun : run acts db = some last) (hstep : step act last = some next) :
    history (acts ++ [act]) db = history acts db ++ event act last := by
  induction acts generalizing db with
  | nil =>
      rw [← Option.some.inj (show some db = some last from hrun)] at hstep ⊢
      simp [history, hstep]
  | cons head acts ih =>
      rw [← List.singleton_append, run_append] at hrun
      obtain ⟨db', hhead, hrun⟩ := Option.bind_eq_some_iff.mp hrun
      have hfirst : step head db = some db' := by simpa [run] using hhead
      simp only [List.cons_append, history, hfirst, ih hrun,
        List.append_assoc]

/-- The flush buffer, while its file is written but it is not cleared. -/
def onDisk (db : DataBase) : List (SkipList Bytes) :=
  match db.flushPc with
  | .clear _ => db.buffer.flushBuffer.toList
  | _ => []

end DataBase

/-- `bytes` is what `FlushBuffer` writes for `list`. -/
def FlushedTo (list : SkipList Bytes) (bytes : Bytes) : Prop :=
  ∃ iter content flushSize keyOffset,
    StorageBuffer.flushContent list = some (content, flushSize) ∧
      flush iter content flushSize = some (bytes, keyOffset)

/-- A list has an entry for a key. -/
def SkipList.HasKey (list : SkipList Bytes) (key : Bytes) : Prop :=
  key ∈ list.entries.map Prod.fst

/-- The history of a run, seen from its last state. -/
structure HistoryInv (acts : List Act) (past : List Event) (db : DataBase) :
    Prop where
  handoff : HandoffInv db
  swapped : Event.swapped past =
    Event.cleared past ++ db.buffer.flushBuffer.toList
  built : ∀ list ∈ Event.swapped past, list.Built
  written : List.Forall₂ (fun list file => FlushedTo list file.2)
    (Event.cleared past ++ db.onDisk) (Event.written past)
  ids : (Event.written past).Pairwise fun a b => a.1 < b.1
  ids_le : ∀ file ∈ Event.written past, file.1 ≤ db.store.engine.fileId
  created : ∀ id name, db.store.flight = .created id name →
    id ≤ db.store.engine.fileId ∧ ∀ file ∈ Event.written past, file.1 < id
  keys : ∀ key, (db.buffer.incomeBuffer.HasKey key ∨
      ∃ list ∈ Event.swapped past, list.HasKey key) ↔
    ∃ order name value, .add order name value ∈ acts ∧
      (ByteArray.ofString name).data = key

theorem Encodes.hasKey_iff {list : SkipList Bytes}
    {entries : List (Bytes × Bytes)} (h : Encodes list entries) {key : Bytes} :
    list.HasKey key ↔ key ∈ entries.map Prod.fst := by
  rw [SkipList.HasKey, h.entries_eq]

namespace HistoryInv

variable {acts : List Act} {past : List Event} {db db' : DataBase}

theorem start (bufferSize : UInt32) (cache : LRUCache)
    (engine : StorageEngine) :
    HistoryInv [] [] (.start bufferSize cache engine) where
  handoff := .start bufferSize cache engine
  swapped := rfl
  built := fun list hlist => absurd hlist (by simp [Event.swapped])
  written := List.Forall₂.nil
  ids := List.Pairwise.nil
  ids_le := fun file hfile => absurd hfile (by simp [Event.written])
  created := fun id name h => absurd h (by simp [DataBase.start,
    EngineState.start])
  keys := fun key => by
    simp [SkipList.HasKey, DataBase.start, StorageBuffer.new,
      SkipList.entries, Event.swapped]

/-- Steps that neither swap nor write nor clear. -/
theorem congr (h : HistoryInv acts past db) {act : Act}
    (hact : ∀ order key value, act ≠ .add order key value)
    (hinv : HandoffInv db')
    (hincome : db'.buffer.incomeBuffer = db.buffer.incomeBuffer)
    (hflush : db'.buffer.flushBuffer = db.buffer.flushBuffer)
    (hdisk : db'.onDisk = db.onDisk)
    (hid : db.store.engine.fileId ≤ db'.store.engine.fileId)
    (hcreated : ∀ id name, db'.store.flight = .created id name →
      db.store.flight = .created id name ∨ (db.store.engine.fileId < id ∧
        id ≤ db'.store.engine.fileId)) :
    HistoryInv (acts ++ [act]) past db' where
  handoff := hinv
  swapped := by rw [hflush, h.swapped]
  built := h.built
  written := by
    rw [hdisk]
    exact h.written
  ids := h.ids
  ids_le := fun file hfile => (h.ids_le file hfile).trans hid
  created := by
    intro id name hflight
    rcases hcreated id name hflight with hold | ⟨hgt, hle⟩
    · obtain ⟨hle, hlt⟩ := h.created id name hold
      exact ⟨hle.trans hid, hlt⟩
    · exact ⟨hle, fun file hfile => (h.ids_le file hfile).trans_lt hgt⟩
  keys := by
    intro key
    rw [hincome, h.keys]
    refine exists_congr fun order => exists_congr fun name =>
      exists_congr fun value => ?_
    have hne := (hact order name value).symm
    simp [hne]

/-- `onDisk` away from `ClearFlushBuffer`. -/
theorem onDisk_of_ne {pc : FlushPc} (hpc : db.flushPc = pc)
    (hne : ∀ keyOffset, pc ≠ .clear keyOffset) : db.onDisk = [] := by
  unfold DataBase.onDisk
  split
  · rename_i keyOffset hclear
    exact absurd (hpc.symm.trans hclear) (hne keyOffset)
  · rfl

theorem onDisk_eq (hpc : db'.flushPc = db.flushPc)
    (hflush : db'.buffer.flushBuffer = db.buffer.flushBuffer) :
    db'.onDisk = db.onDisk := by
  rw [DataBase.onDisk, hpc, hflush]
  rfl

/-- `Add`: the key goes to the income buffer, and a swap moves that buffer as a
whole. -/
theorem add (h : HistoryInv acts past db) {order : OrderType}
    {key value : Bytes} {buffer : StorageBuffer} {notifying : Bool}
    (hadd : db.buffer.add (.ofString key)
      (.ofString (DataBase.orderValue order value)) =
        some (buffer, notifying)) :
    HistoryInv (acts ++ [.add order key value])
      (past ++ DataBase.event (.add order key value) db)
      { db with buffer, notifying } := by
  obtain ⟨_, hlist, hswaps, hcases⟩ :=
    StorageBuffer.add_cases h.handoff.income hadd
  have hkeys : ∀ name,
      ((db.buffer.insert (.ofString key) (.ofString (DataBase.orderValue order
          value))).incomeBuffer.HasKey name ∨
        ∃ list ∈ Event.swapped past, list.HasKey name) ↔
      ∃ order' name' value', .add order' name' value' ∈
        acts ++ [.add order key value] ∧
          (ByteArray.ofString name').data = name := by
    intro name
    rw [hlist.hasKey_iff, SortedAssoc.mem_keys_upsert, or_assoc, or_comm]
    have hold := h.keys name
    rw [SkipList.HasKey] at hold
    rw [hold]
    constructor
    · rintro (⟨order', name', value', hmem, hname⟩ | hname)
      · exact ⟨order', name', value', List.mem_append_left _ hmem, hname⟩
      · exact ⟨order, key, value, by simp, hname.symm⟩
    · rintro ⟨order', name', value', hmem, hname⟩
      rcases List.mem_append.mp hmem with hmem | hmem
      · exact Or.inl ⟨order', name', value', hmem, hname⟩
      · rw [List.mem_singleton, Act.add.injEq] at hmem
        exact Or.inr (by rw [← hname, hmem.2.1])
  have hinv := h.handoff.add hadd
  rcases hcases with ⟨rfl, hincome, hflush, _⟩ |
    ⟨rfl, hready, hincome, hflush, _⟩
  · have hevent : DataBase.event (.add order key value) db = [] := by
      simp [DataBase.event, ← hswaps]
    rw [hevent, List.append_nil]
    refine ⟨hinv, ?_, h.built, ?_, h.ids, h.ids_le, h.created, ?_⟩
    · change _ = _ ++ buffer.flushBuffer.toList
      rw [hflush, h.swapped]
    · have hdisk : ({ db with buffer, notifying := false } :
          DataBase).onDisk = db.onDisk := onDisk_eq rfl hflush
      rw [hdisk]
      exact h.written
    · change ∀ name, (buffer.incomeBuffer.HasKey name ∨ _) ↔ _
      rw [hincome]
      exact hkeys
  · have hnone := h.handoff.idle hready
    have hevent : DataBase.event (.add order key value) db =
        [.swap (db.buffer.insert (.ofString key)
          (.ofString (DataBase.orderValue order value))).incomeBuffer] := by
      simp [DataBase.event, ← hswaps]
    rw [hevent]
    refine ⟨hinv, ?_, ?_, ?_, ?_, ?_, ?_, ?_⟩
    · rw [Event.swapped_append, Event.cleared_append, h.swapped, hnone]
      change _ = _ ++ buffer.flushBuffer.toList
      rw [hflush]
      simp [Event.swapped, Event.cleared]
    · rw [Event.swapped_append]
      intro list hmem
      rcases List.mem_append.mp hmem with hmem | hmem
      · exact h.built list hmem
      · simp only [Event.swapped, List.filterMap_cons, List.filterMap_nil,
          List.mem_singleton] at hmem
        rw [hmem]
        exact hlist.built
    · rw [Event.cleared_append, Event.written_append]
      -- With the flush thread ready it is not at `ClearFlushBuffer`.
      have hnot : ∀ keyOffset, db.flushPc ≠ .clear keyOffset := by
        intro keyOffset hat
        have hpc := h.handoff.pc
        rw [hat] at hpc
        exact hpc.1 hnone
      have hdisk : db.onDisk = [] := onDisk_of_ne rfl hnot
      have hdisk' : ({ db with buffer, notifying := true } :
          DataBase).onDisk = [] := onDisk_of_ne rfl hnot
      have hwritten := h.written
      rw [hdisk] at hwritten
      rw [hdisk']
      simpa [Event.cleared, Event.written] using hwritten
    · simpa [Event.written_append, Event.written] using h.ids
    · simpa [Event.written_append, Event.written] using h.ids_le
    · simpa [Event.written_append, Event.written] using h.created
    · intro name
      rw [← hkeys name, Event.swapped_append]
      change (buffer.incomeBuffer.HasKey name ∨ _) ↔ _
      rw [hincome]
      constructor
      · rintro (hnil | ⟨list, hmem, hname⟩)
        · exact absurd hnil (by simp [SkipList.HasKey, SkipList.entries])
        · rcases List.mem_append.mp hmem with hmem | hmem
          · exact Or.inr ⟨list, hmem, hname⟩
          · rw [List.mem_singleton.mp hmem] at hname
            exact Or.inl hname
      · rintro (hname | ⟨list, hmem, hname⟩)
        · exact Or.inr ⟨_, List.mem_append_right _ (List.mem_singleton.mpr rfl),
            hname⟩
        · exact Or.inr ⟨list, List.mem_append_left _ hmem, hname⟩

/-- `FlushBuffer`: one more file, for the buffer swapped last. -/
theorem write (h : HistoryInv acts past db) {iter : IterOrder} {bytes : Bytes}
    {keyOffset : KeyOffset} {store : EngineState} (hat : db.flushPc = .write)
    (hbytes : db.buffer.writeFlushBuffer iter = some (bytes, keyOffset))
    (hstore : db.store.write bytes = some store)
    (hinv : HandoffInv { db with store, flushPc := .clear keyOffset }) :
    HistoryInv (acts ++ [.write iter])
      (past ++ DataBase.event (.write iter) db)
      { db with store, flushPc := .clear keyOffset } := by
  obtain ⟨id, name, hflight, hflight', hid⟩ := EngineState.write_eq hstore
  obtain ⟨list, hlist, hcontent⟩ := Option.bind_eq_some_iff.mp hbytes
  obtain ⟨⟨content, flushSize⟩, hcontent, hflush⟩ :=
    Option.bind_eq_some_iff.mp hcontent
  have hevent : DataBase.event (.write iter) db = [.write id bytes] := by
    simp [DataBase.event, hbytes, hflight]
  have hdisk : db.onDisk = [] := onDisk_of_ne hat (fun _ => by simp)
  have hwritten := h.written
  rw [hdisk, List.append_nil] at hwritten
  obtain ⟨hle, hlt⟩ := h.created id name hflight
  have hmore : Event.written (past ++ [.write id bytes]) =
      Event.written past ++ [(id, bytes)] := Event.written_append _ _
  have hsame : Event.swapped (past ++ [.write id bytes]) =
      Event.swapped past := by
    simp [Event.swapped]
  have hsame' : Event.cleared (past ++ [.write id bytes]) =
      Event.cleared past := by
    simp [Event.cleared]
  rw [hevent]
  refine ⟨hinv, ?_, ?_, ?_, ?_, ?_, ?_, ?_⟩
  · rw [hsame, hsame']
    exact h.swapped
  · rw [hsame]
    exact h.built
  · rw [hsame', hmore]
    refine List.rel_append hwritten ?_
    change List.Forall₂ _ db.buffer.flushBuffer.toList _
    rw [hlist]
    exact .cons ⟨iter, content, flushSize, keyOffset, hcontent, hflush⟩ .nil
  · rw [hmore, List.pairwise_append]
    refine ⟨h.ids, List.pairwise_singleton _ _, fun file hfile other hother => ?_⟩
    rw [List.mem_singleton.mp hother]
    exact hlt file hfile
  · rw [hmore]
    intro file hfile
    change file.1 ≤ store.engine.fileId
    rw [hid]
    rcases List.mem_append.mp hfile with hfile | hfile
    · exact h.ids_le file hfile
    · rw [List.mem_singleton.mp hfile]
      exact hle
  · intro other name' hcreated
    change store.flight = _ at hcreated
    rw [hflight'] at hcreated
    exact absurd hcreated (by simp)
  · intro key
    rw [hsame]
    refine (h.keys key).trans (exists_congr fun order => exists_congr
      fun name => exists_congr fun value => ?_)
    simp

/-- `ClearFlushBuffer`: the buffer's file is already written. -/
theorem clear (h : HistoryInv acts past db) {keyOffset : KeyOffset}
    (hat : db.flushPc = .clear keyOffset)
    (hinv : HandoffInv
      { db with
        buffer := db.buffer.clearFlushBuffer
        flushPc := .cacheSet keyOffset }) :
    HistoryInv (acts ++ [.clear]) (past ++ DataBase.event .clear db)
      { db with
        buffer := db.buffer.clearFlushBuffer
        flushPc := .cacheSet keyOffset } := by
  have hpc := h.handoff.pc
  rw [hat] at hpc
  obtain ⟨list, hlist⟩ := Option.ne_none_iff_exists'.mp hpc.1
  have hevent : DataBase.event .clear db = [.clear list] := by
    simp [DataBase.event, hlist]
  have hsame : Event.swapped (past ++ [.clear list]) = Event.swapped past := by
    simp [Event.swapped]
  have hsame' : Event.written (past ++ [.clear list]) = Event.written past := by
    simp [Event.written]
  have hmore : Event.cleared (past ++ [.clear list]) =
      Event.cleared past ++ [list] := Event.cleared_append _ _
  rw [hevent]
  refine ⟨hinv, ?_, ?_, ?_, ?_, ?_, ?_, ?_⟩
  · rw [hsame, hmore, h.swapped, hlist]
    simp [StorageBuffer.clearFlushBuffer]
  · rw [hsame]
    exact h.built
  · have hdisk : db.onDisk = [list] := by
      simp [DataBase.onDisk, hat, hlist]
    have hwritten := h.written
    rw [hdisk] at hwritten
    rw [hsame', hmore]
    change List.Forall₂ _ ((Event.cleared past ++ [list]) ++ []) _
    rwa [List.append_nil]
  · rw [hsame']
    exact h.ids
  · rw [hsame']
    exact h.ids_le
  · rw [hsame']
    exact h.created
  · intro key
    rw [hsame]
    refine (h.keys key).trans (exists_congr fun order => exists_congr
      fun name => exists_congr fun value => ?_)
    simp

/-- Every step keeps the history invariant. -/
theorem step (h : HistoryInv acts past db) {act : Act}
    (hstep : DataBase.step act db = some db') :
    HistoryInv (acts ++ [act]) (past ++ DataBase.event act db) db' := by
  have hinv := h.handoff.step hstep
  have hquiet : ∀ act : Act, DataBase.event act db = [] →
      past ++ DataBase.event act db = past := by
    intro act hevent
    rw [hevent, List.append_nil]
  cases DataBase.step_data hstep with
  | control hact hsame =>
      have hevent : DataBase.event act db = [] := by
        cases act with
        | add _ _ _ => exact absurd hact id
        | write _ => exact absurd hact id
        | clear => exact absurd hact id
        | _ => rfl
      rw [hquiet act hevent]
      refine h.congr ?_ hinv hsame.incomeBuffer hsame.flushBuffer ?_
        (hsame.store ▸ le_refl _) (fun id name hflight => Or.inl (hsame.store ▸ hflight))
      · rintro order key value rfl
        exact hact
      · rcases hsame.pc with hpc | ⟨hidle, hidle'⟩
        · exact onDisk_eq hpc hsame.flushBuffer
        · rw [onDisk_of_ne rfl, onDisk_of_ne rfl]
          · rintro keyOffset hpc
            rw [hpc] at hidle
            exact hidle
          · rintro keyOffset hpc
            rw [hpc] at hidle'
            exact hidle'
  | add _ hadd => exact h.add hadd
  | getFiles hget =>
      obtain ⟨cache, rfl⟩ := DataBase.getFiles_eq hget
      rw [hquiet _ rfl]
      exact h.congr (fun _ _ _ => by simp) hinv rfl rfl rfl (le_refl _)
        fun _ _ hflight => Or.inl hflight
  | clearCache =>
      rw [hquiet _ rfl]
      exact h.congr (fun _ _ _ => by simp) hinv rfl rfl rfl (le_refl _)
        fun _ _ hflight => Or.inl hflight
  | @newFile store hat hstore =>
      obtain ⟨_, hflight, hid⟩ := EngineState.newFile_eq hstore
      rw [hquiet _ rfl]
      refine h.congr (fun _ _ _ => by simp) hinv rfl rfl ?_ (by
        change db.store.engine.fileId ≤ store.engine.fileId
        omega) fun id name hcreated => Or.inr ?_
      · rw [onDisk_of_ne hat (fun _ => by simp)]
        rfl
      · have hdrawn := hflight.symm.trans hcreated
        rw [Flight.created.injEq] at hdrawn
        change _ ∧ id ≤ store.engine.fileId
        omega
  | write hat hbytes hstore => exact h.write hat hbytes hstore hinv
  | clear hat _ => exact h.clear hat hinv
  | cacheSet hat hflight =>
      rw [hquiet _ rfl]
      refine h.congr (fun _ _ _ => by simp) hinv rfl rfl ?_ (le_refl _)
        fun _ _ hflight => Or.inl hflight
      rw [onDisk_of_ne hat (fun _ => by simp)]
      rfl
  | addFile hat hstore =>
      obtain ⟨hflight, hid⟩ := EngineState.addFile_eq hstore
      rw [hquiet _ rfl]
      refine h.congr (fun _ _ _ => by simp) hinv rfl rfl ?_ hid.ge
        fun id name hcreated => ?_
      · rw [onDisk_of_ne hat (fun _ => by simp)]
        rfl
      · exact absurd (hflight.symm.trans hcreated) (by simp)
  | compact hact hcompact =>
      have hevent : DataBase.event act db = [] := by
        cases act with
        | add _ _ _ => exact absurd hact id
        | write _ => exact absurd hact id
        | clear => exact absurd hact id
        | _ => rfl
      obtain ⟨hflight, hid⟩ := hcompact.flight_eq
      rw [hquiet act hevent]
      refine h.congr ?_ hinv rfl rfl rfl hid
        fun id name hcreated => Or.inl (hflight ▸ hcreated)
      rintro order key value rfl
      exact hact
  | update hupdate =>
      obtain ⟨hflight, hid⟩ := EngineState.update_flight hupdate
      rw [hquiet _ rfl]
      exact h.congr (fun _ _ _ => by simp) hinv rfl rfl rfl hid
        fun id name hcreated => Or.inl (hflight ▸ hcreated)

end HistoryInv

/-- The history invariant holds after every run. -/
theorem historyInv_run {acts : List Act} {bufferSize : UInt32}
    {cache : LRUCache} {engine : StorageEngine} {db : DataBase}
    (hrun : DataBase.run acts (.start bufferSize cache engine) = some db) :
    HistoryInv acts
      (DataBase.history acts (.start bufferSize cache engine)) db := by
  have hstep : ∀ acts act last next,
      DataBase.run acts (.start bufferSize cache engine) = some last →
      HistoryInv acts
        (DataBase.history acts (.start bufferSize cache engine)) last →
      DataBase.step act last = some next →
      HistoryInv (acts ++ [act])
        (DataBase.history (acts ++ [act]) (.start bufferSize cache engine))
        next := by
    intro acts act last next hlast h hstep
    rw [DataBase.history_snoc hlast hstep]
    exact h.step hstep
  exact DataBase.run_induction (fun acts db => HistoryInv acts
    (DataBase.history acts (.start bufferSize cache engine)) db)
    (HistoryInv.start bufferSize cache engine) hstep hrun

/-- With all keys from `"00000"` on, `FlushBuffer` succeeds whenever it runs. -/
theorem HistoryInv.exists_write {acts : List Act} {past : List Event}
    {db : DataBase} (h : HistoryInv acts past db)
    (hkeys : ∀ order key value, .add order key value ∈ acts →
      flushPrev ≤ (ByteArray.ofString key).data)
    (hat : db.flushPc = .write) :
    ∃ list, db.buffer.flushBuffer = some list ∧ list ≠ [] ∧
      ∀ iter, ∃ db', DataBase.step (.write iter) db = some db' := by
  have hpc := h.handoff.pc
  rw [hat] at hpc
  obtain ⟨hsome, id, name, hflight⟩ := hpc
  obtain ⟨list, hlist⟩ := Option.ne_none_iff_exists'.mp hsome
  obtain ⟨hbuilt, hne⟩ := h.handoff.flushing list hlist
  have hprev : ∀ entry ∈ list.entries, flushPrev ≤ entry.1 := by
    intro entry hentry
    have hmem : list ∈ Event.swapped past := by
      rw [h.swapped, hlist]
      simp
    obtain ⟨order, key, value, hadd, hkey⟩ := (h.keys entry.1).mp
      (Or.inr ⟨list, hmem, List.mem_map_of_mem hentry⟩)
    exact hkey ▸ hkeys order key value hadd
  have hentries : list.entries ≠ [] := by
    intro hnil
    have hnodes := hbuilt.nodes
    rw [hnil] at hnodes
    exact hne hnodes
  refine ⟨list, hlist, hne, fun iter => ?_⟩
  obtain ⟨bytes, keyOffset, hflush⟩ := exists_flush iter hentries
    hbuilt.increasing hbuilt.short hprev
    (UInt32.ofNat (dataBytes list.entries).length)
  have hwrite : db.buffer.writeFlushBuffer iter = some (bytes, keyOffset) := by
    simp only [StorageBuffer.writeFlushBuffer, hlist,
      StorageBuffer.flushContent_encodeEntries hbuilt, Option.bind_eq_bind,
      Option.bind_some, hflush]
  simp only [DataBase.step, hat, hwrite, EngineState.write, hflight,
    Option.bind_eq_bind, Option.bind_some]
  exact ⟨_, rfl⟩

/-- A key of a flushed list is in the file it was flushed to. -/
theorem FlushedTo.exists_holds {list : SkipList Bytes} {bytes : Bytes}
    (h : FlushedTo list bytes) (hbuilt : list.Built) :
    ∃ file : File, file.mmap = bytes ∧ file.Holds list.entries := by
  obtain ⟨iter, content, flushSize, keyOffset, hcontent, hflush⟩ := h
  rw [StorageBuffer.flushContent_encodeEntries hbuilt, Option.some.injEq,
    Prod.mk.injEq] at hcontent
  obtain ⟨rfl, rfl⟩ := hcontent
  obtain ⟨file, _, hholds, _, _, _, _, hmmap, _⟩ :=
    File.exists_stored_of_flush .debug hbuilt.increasing hbuilt.short hflush 0 0
      (by decide) (by decide) (by decide)
  exact ⟨file, hmmap, hholds⟩

/-- The double buffer loses and duplicates nothing, in every state of every
run: a swap only happens into an empty slot; `FlushBuffer` only runs on a
buffer with content, and succeeds; the buffers swapped are those cleared, in
order, and the one waiting, if any; the files written are, in order, those of
the buffers cleared and of the one about to be cleared, with increasing ids;
and every key added is in the income buffer, in the flush buffer, or in a file
written. -/
theorem double_buffer_protocol (bufferSize : UInt32) (cache : LRUCache)
    (engine : StorageEngine) {acts : List Act} {db : DataBase}
    (hrun : DataBase.run acts (.start bufferSize cache engine) = some db)
    (hkeys : ∀ order key value, .add order key value ∈ acts →
      flushPrev ≤ (ByteArray.ofString key).data) :
    (∀ order key value list,
      (∃ db', DataBase.step (.add order key value) db = some db') →
      DataBase.event (.add order key value) db = [.swap list] →
        db.buffer.flushBuffer = none) ∧
    (db.flushPc = .write → ∃ list, db.buffer.flushBuffer = some list ∧
      list ≠ [] ∧ ∀ iter, ∃ db', DataBase.step (.write iter) db = some db') ∧
    Event.swapped (DataBase.history acts (.start bufferSize cache engine)) =
      Event.cleared (DataBase.history acts (.start bufferSize cache engine)) ++
        db.buffer.flushBuffer.toList ∧
    List.Forall₂ (fun list file => FlushedTo list file.2)
      (Event.cleared (DataBase.history acts
        (.start bufferSize cache engine)) ++ db.onDisk)
      (Event.written (DataBase.history acts
        (.start bufferSize cache engine))) ∧
    (Event.written (DataBase.history acts
      (.start bufferSize cache engine))).Pairwise (fun a b => a.1 < b.1) ∧
    ∀ order key value, .add order key value ∈ acts →
      db.buffer.incomeBuffer.HasKey (ByteArray.ofString key).data ∨
      (∃ list, db.buffer.flushBuffer = some list ∧
        list.HasKey (ByteArray.ofString key).data) ∨
      ∃ written ∈ Event.written (DataBase.history acts
          (.start bufferSize cache engine)),
        ∃ (file : File) (entries : List (Bytes × Bytes)),
          file.mmap = written.2 ∧ file.Holds entries ∧
            (ByteArray.ofString key).data ∈ entries.map Prod.fst := by
  have h := historyInv_run hrun
  refine ⟨?_, h.exists_write hkeys, h.swapped, h.written, h.ids, ?_⟩
  · rintro order key value list ⟨db', hstep⟩ hswap
    obtain ⟨buffer, notifying, _, hadd, _⟩ := DataBase.step_add hstep
    obtain ⟨_, _, hnotifying, _⟩ :=
      StorageBuffer.add_cases h.handoff.income hadd
    have htrue : notifying = true := by
      rw [hnotifying]
      by_contra hfalse
      simp [DataBase.event, hfalse] at hswap
    subst htrue
    exact h.handoff.flushBuffer_eq_none_of_swap hadd
  · intro order key value hadd
    rcases (h.keys _).mpr ⟨order, key, value, hadd, rfl⟩ with hincome |
      ⟨list, hlist, hkey⟩
    · exact Or.inl hincome
    · have hbuilt := h.built list hlist
      rw [h.swapped] at hlist
      rcases List.mem_append.mp hlist with hcleared | hwaiting
      · right; right
        obtain ⟨written, hwritten, hflushed⟩ :=
          Merge.exists_right_of_forall₂ h.written list
            (List.mem_append_left _ hcleared)
        obtain ⟨file, hmmap, hholds⟩ := hflushed.exists_holds hbuilt
        exact ⟨written, hwritten, file, list.entries, hmmap, hholds, hkey⟩
      · exact Or.inr (Or.inl ⟨list, by simpa using hwaiting, hkey⟩)

/-- One buffer on its way to a file: the flush thread parks, an `Add` swaps and
wakes it, and it writes. -/
def oneFlush : List Act :=
  [.flushLoop, .setIdle, .flushTest, .flushPark,
    .add .put [107, 49] [118], .addNotify, .flushTest, .flushCheck, .newFile,
    .write .inOrder]

theorem double_buffer_protocol_one_flush :
    ∃ db, DataBase.run oneFlush (.start 0 (.empty 1 (by decide)) (.new 1)) =
        some db ∧
      List.Forall₂ (fun list file => FlushedTo list file.2)
        (Event.cleared (DataBase.history oneFlush
          (.start 0 (.empty 1 (by decide)) (.new 1))) ++ db.onDisk)
        (Event.written (DataBase.history oneFlush
          (.start 0 (.empty 1 (by decide)) (.new 1)))) := by
  obtain ⟨db, hrun⟩ := Option.isSome_iff_exists.mp (show (DataBase.run oneFlush
    (.start 0 (.empty 1 (by decide)) (.new 1))).isSome = true by
      decide +kernel)
  refine ⟨db, hrun, (double_buffer_protocol 0 (.empty 1 (by decide)) (.new 1)
    hrun ?_).2.2.2.1⟩
  intro order key value hadd
  simp only [oneFlush, List.mem_cons, Act.add.injEq, List.not_mem_nil,
    reduceCtorEq, false_or, or_false] at hadd
  rw [hadd.2.1]
  decide

end SimpleKV
