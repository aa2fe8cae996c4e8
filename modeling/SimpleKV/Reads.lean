/-
What clients read: the writes of a run, the newest version they leave, and what
`Get` returns for a key that was deleted.
-/
import SimpleKV.Versions
import SimpleKV.DoubleBuffer

namespace SimpleKV

open SortedAssoc

/-- The value a step writes to a key. -/
def Act.writes (key : Bytes) : Act → Option Bytes
  | .add order name value =>
      if name = key then some (DataBase.orderValue order value) else none
  | _ => none

/-- The value of the last write to a key. -/
def lastWrite (key : Bytes) (acts : List Act) : Option Bytes :=
  acts.reverse.findSome? fun act => act.writes key

/-- All keys and values written are shorter than 2^32. -/
def ShortWrites (acts : List Act) : Prop :=
  ∀ order name value, .add order name value ∈ acts →
    name.length < 2 ^ 32 ∧ value.length < 2 ^ 32

theorem lastWrite_snoc (key : Bytes) (acts : List Act) (act : Act) :
    lastWrite key (acts ++ [act]) =
      (act.writes key).or (lastWrite key acts) := by
  rw [lastWrite, List.reverse_append, List.reverse_singleton,
    List.singleton_append, List.findSome?_cons]
  cases act.writes key <;> rfl

theorem lastWrite_eq_none_iff {key : Bytes} {acts : List Act} :
    lastWrite key acts = none ↔
      ∀ order value, .add order key value ∉ acts := by
  rw [lastWrite, List.findSome?_eq_none_iff]
  constructor
  · intro hnone order value hmem
    have hwrites := hnone _ (List.mem_reverse.mpr hmem)
    simp [Act.writes] at hwrites
  · intro hnone act hact
    cases act with
    | add order name value =>
        have hne : name ≠ key := by
          rintro rfl
          exact hnone order value (List.mem_reverse.mp hact)
        simp [Act.writes, hne]
    | _ => rfl

theorem ShortWrites.stored {acts : List Act} (h : ShortWrites acts)
    {order : OrderType} {name value : Bytes}
    (hmem : .add order name value ∈ acts) :
    (ByteArray.ofString name).data = name ∧
      (ByteArray.ofString (DataBase.orderValue order value)).data =
        DataBase.orderValue order value := by
  obtain ⟨hname, hvalue⟩ := h order name value hmem
  refine ⟨ByteArray.ofString_data hname, ByteArray.ofString_data ?_⟩
  unfold DataBase.orderValue
  split_ifs
  · decide
  · exact hvalue

/-- What a step makes of the newest version, in terms of its write. -/
theorem Act.Carries.writes {key : Bytes} {version version' : Option Bytes}
    {act : Act} (h : act.Carries key version version')
    (hshort : ShortWrites [act]) :
    (∀ value, act.writes key = some value → version' = some value) ∧
      (act.writes key = none →
        (version = none → version' = none) ∧
        ∀ value, version = some value →
          value ≠ tombValue ∨ act ≠ .update → version' = some value) := by
  cases act with
  | add order name value =>
      obtain ⟨hname, hvalue⟩ := hshort.stored (List.mem_singleton.mpr rfl)
      change version' = if _ then _ else _ at h
      rw [hname, hvalue] at h
      by_cases hkey : name = key
      · simp_all [Act.writes]
      · simp_all [Act.writes]
  | update =>
      refine ⟨fun value hwrites => absurd hwrites (by simp [Act.writes]),
        fun _ => ⟨h.1, fun value hsome hlive => ?_⟩⟩
      exact h.2 value hsome (hlive.resolve_right (by simp))
  | _ =>
      refine ⟨fun value hwrites => absurd hwrites (by simp [Act.writes]),
        fun _ => ⟨fun hnone => ?_, fun value hsome _ => ?_⟩⟩
      · exact Eq.trans h hnone
      · exact Eq.trans h hsome

section Run

variable {bufferSize : UInt32} {capacity limit : Nat} {hpos : 0 < capacity}
  {acts between : List Act} {db first second : DataBase}

/-- A run that stays in range keeps the invariants. -/
theorem invariants_reaches (hstart : ∃ transit, StoreInv first transit)
    (hempty : CacheInv first.store first.cache)
    (hrun : DataBase.Reaches DataBase.InRange first acts db) :
    (∃ transit, StoreInv db transit) ∧ CacheInv db.store db.cache := by
  induction hrun with
  | start _ => exact ⟨hstart, hempty⟩
  | step hbefore hstep hnext ih =>
      obtain ⟨⟨transit, hstore⟩, hcache⟩ := ih
      exact ⟨hstore.step hstep hnext.1,
        hcache.step hstore hbefore.last hstep hnext⟩

theorem invariants_run (hrun : DataBase.Reaches DataBase.InRange
      (.start bufferSize (.empty capacity hpos) (.new limit)) acts db) :
    (∃ transit, StoreInv db transit) ∧ CacheInv db.store db.cache :=
  invariants_reaches ⟨none, .start _ _ _⟩ (.empty _ capacity hpos) hrun

theorem ShortWrites.of_append {acts more : List Act}
    (h : ShortWrites (acts ++ more)) : ShortWrites acts ∧ ShortWrites more :=
  ⟨fun order name value hmem => h order name value
      (List.mem_append_left _ hmem),
    fun order name value hmem => h order name value
      (List.mem_append_right _ hmem)⟩

/-- A key never written has no version, and a live last write is the newest
version. -/
theorem version_run (hrun : DataBase.Reaches DataBase.InRange
      (.start bufferSize (.empty capacity hpos) (.new limit)) acts db)
    (hshort : ShortWrites acts) (key : Bytes) :
    (lastWrite key acts = none → db.version key = none) ∧
      ∀ value, lastWrite key acts = some value → value ≠ tombValue →
        db.version key = some value := by
  induction hrun with
  | start _ =>
      refine ⟨fun _ => rfl, fun value hvalue => absurd hvalue ?_⟩
      simp [lastWrite]
  | @step acts act last next hbefore hstep hnext ih =>
      obtain ⟨hacts, hact⟩ := hshort.of_append
      obtain ⟨hnone, hlive⟩ := ih hacts
      obtain ⟨⟨transit, hstore⟩, _⟩ := invariants_run hbefore
      obtain ⟨hwrites, hkeeps⟩ :=
        (hstore.carries hbefore.last hstep hnext key).writes hact
      rw [lastWrite_snoc]
      cases hwritten : act.writes key with
      | some written =>
          rw [Option.some_or]
          refine ⟨fun hfalse => absurd hfalse (by simp), fun value hvalue _ =>
            ?_⟩
          exact hvalue ▸ hwrites written hwritten
      | none =>
          rw [Option.none_or]
          obtain ⟨hkeepsNone, hkeepsSome⟩ := hkeeps hwritten
          exact ⟨fun hlast => hkeepsNone (hnone hlast),
            fun value hlast hvalue => hkeepsSome value
              (hlive value hlast hvalue) (Or.inl hvalue)⟩

/-- Between two states of a run without a write to the key the newest version
stays, unless it is a tombstone that a compaction may drop. -/
theorem version_between (hrun : DataBase.Reaches DataBase.InRange
      (.start bufferSize (.empty capacity hpos) (.new limit)) acts first)
    (hbetween : DataBase.Reaches DataBase.InRange first between second)
    (hshort : ShortWrites between) {key value : Bytes}
    (hwrites : ∀ act ∈ between, act.writes key = none)
    (hlive : value ≠ tombValue ∨ .update ∉ between)
    (hfirst : first.version key = some value) :
    second.version key = some value := by
  induction hbetween with
  | start _ => exact hfirst
  | @step acts' act last next hbefore hstep hnext ih =>
      obtain ⟨hacts, hact⟩ := hshort.of_append
      obtain ⟨⟨transit, hstore⟩, _⟩ := invariants_run (hrun.trans hbefore)
      have hlast := ih hacts
        (fun act hmem => hwrites act (List.mem_append_left _ hmem))
        (hlive.imp_right fun hnot hmem => hnot (List.mem_append_left _ hmem))
      refine (((hstore.carries hbefore.last hstep hnext key).writes hact).2
        (hwrites act (by simp))).2 value hlast ?_
      refine hlive.imp_right fun hnot => ?_
      rintro rfl
      exact hnot (by simp)

theorem isStop_between (hbetween : DataBase.Reaches DataBase.InRange first
      between second) (hopen : .shutDown ∉ between) :
    second.isStop = first.isStop := by
  induction hbetween with
  | start _ => rfl
  | step _ hstep _ ih =>
      rw [DataBase.isStop_step hstep fun hact => hopen (by simp [hact])]
      exact ih fun hmem => hopen (List.mem_append_left _ hmem)

/-- A key that is in no buffer gets into one by a write only. -/
theorem newest_between (hrun : DataBase.Reaches DataBase.InRange
      (.start bufferSize (.empty capacity hpos) (.new limit)) acts first)
    (hbetween : DataBase.Reaches DataBase.InRange first between second)
    (hshort : ShortWrites between) {key : Bytes}
    (hwrites : ∀ act ∈ between, act.writes key = none)
    (hfirst : first.buffer.newest key = none) :
    second.buffer.newest key = none := by
  induction hbetween with
  | start _ => exact hfirst
  | @step acts' act last next hbefore hstep _ ih =>
      obtain ⟨hacts, hact⟩ := hshort.of_append
      obtain ⟨⟨transit, hstore⟩, _⟩ := invariants_run (hrun.trans hbefore)
      have hlast := ih hacts
        fun act hmem => hwrites act (List.mem_append_left _ hmem)
      have hkept := hwrites act (by simp)
      cases DataBase.step_data hstep with
      | control _ hsame =>
          rw [StoreInv.newest_congr hsame.incomeBuffer hsame.flushBuffer]
          exact hlast
      | @add order name value buffer notifying _ hadd =>
          change buffer.newest key = none
          rw [hstore.handoff.newest_add hadd key,
            (hact.stored (List.mem_singleton.mpr rfl)).1]
          by_cases hname : name = key
          · simp [Act.writes, hname] at hkept
          · rw [if_neg hname]
            exact hlast
      | getFiles hget =>
          obtain ⟨cache, rfl⟩ := DataBase.getFiles_eq hget
          exact hlast
      | clear _ _ =>
          have hincome := (Option.or_eq_none_iff.mp hlast).1
          exact Option.or_eq_none_iff.mpr ⟨hincome, rfl⟩
      | _ => exact hlast

end Run

/-- What an uninterrupted `Get` returns. -/
theorem StoreInv.get_eq {db : DataBase} {transit : Option File}
    (h : StoreInv db transit) (hcache : CacheInv db.store db.cache)
    (hrange : db.InRange) (hopen : db.isStop = false) {key : Bytes}
    (hprobe : StorageBuffer.ProbeFits key) :
    ∃ db', db.get key = some ((db.buffer.newest key).or
      (db.store.engine.lookup key), db') := by
  obtain ⟨cache, hfiles, _⟩ := DataBase.getFiles_eq_lookup h.engine.levels
    (fun file hfile => h.engine.small hrange.2 (Or.inl hfile))
    hcache.cachedFor key
  rw [DataBase.get, hopen, h.handoff.get_eq hprobe]
  cases db.buffer.newest key with
  | some value => exact ⟨db, rfl⟩
  | none => exact ⟨_, hfiles⟩

theorem StorageBuffer.newest_eq_none_iff {buffer : StorageBuffer}
    {key : Bytes} :
    buffer.newest key = none ↔ ¬ buffer.incomeBuffer.HasKey key ∧
      ∀ list ∈ buffer.flushBuffer, ¬ list.HasKey key := by
  rw [newest, Option.or_eq_none_iff, find_eq_none_iff]
  refine and_congr Iff.rfl ?_
  cases buffer.flushBuffer with
  | none => simp
  | some list =>
      rw [Option.bind_some, find_eq_none_iff]
      simp [SkipList.HasKey]

/-- A key once written is short enough to be looked up. -/
theorem probeFits_of_mem {db db' : DataBase} {acts : List Act}
    (hrun : DataBase.run acts db = some db') {order : OrderType}
    {key value : Bytes} (hkey : key.length < 2 ^ 32)
    (hmem : .add order key value ∈ acts) : StorageBuffer.ProbeFits key := by
  refine DataBase.run_induction (fun acts _ => .add order key value ∈ acts →
    StorageBuffer.ProbeFits key) (fun hmem => absurd hmem (by simp)) ?_ hrun
    hmem
  intro acts act last next _ ih hstep hmem
  rcases List.mem_append.mp hmem with hmem | hmem
  · exact ih hmem
  · rw [List.mem_singleton] at hmem
    subst hmem
    obtain ⟨_, _, _, hadd, _⟩ := DataBase.step_add hstep
    obtain ⟨hshort, _⟩ := StorageBuffer.add_eq_some_iff.mp hadd
    rw [ByteArray.ofString_data hkey] at hshort
    exact hshort.bounds.1

theorem exists_mem_of_lastWrite {key value : Bytes} {acts : List Act}
    (h : lastWrite key acts = some value) :
    ∃ order written, .add order key written ∈ acts ∧
      DataBase.orderValue order written = value := by
  obtain ⟨act, hact, hwrites⟩ := List.exists_of_findSome?_eq_some h
  cases act with
  | add order name written =>
      rw [Act.writes] at hwrites
      split_ifs at hwrites with hname
      exact ⟨order, written, hname ▸ List.mem_reverse.mp hact,
        Option.some.inj hwrites⟩
  | _ => cases hwrites

namespace DataBase

/-- For a key whose last write was a `Delete`, `Get` returns -1 exactly when the
store is stopped or no version of the key, tombstone included, is left in the
buffers and in the files of the levels. -/
theorem get_deleted_eq_none_iff (bufferSize : UInt32) (capacity limit : Nat)
    (hpos : 0 < capacity) {acts : List Act} {db : DataBase}
    (hrun : Reaches InRange
      (.start bufferSize (.empty capacity hpos) (.new limit)) acts db)
    {key : Bytes} (hdelete : lastWrite key acts = some tombValue) :
    (∃ db', db.get key = some (none, db')) ↔
      db.isStop = true ∨ (key.length < 2 ^ 32 ∧
        ¬ db.buffer.incomeBuffer.HasKey key ∧
        (∀ list ∈ db.buffer.flushBuffer, ¬ list.HasKey key) ∧
        ∀ file ∈ db.store.engine.files, file.get key = none) := by
  obtain ⟨⟨transit, hstore⟩, hcache⟩ := invariants_run hrun
  cases hstop : db.isStop with
  | true => exact iff_of_true ⟨db, by simp [get, hstop]⟩ (Or.inl rfl)
  | false =>
      rw [or_iff_right (by simp)]
      by_cases hkey : key.length < 2 ^ 32
      · obtain ⟨_, _, hmem, _⟩ := exists_mem_of_lastWrite hdelete
        obtain ⟨db', hget⟩ := hstore.get_eq hcache hrun.last hstop
          (probeFits_of_mem hrun.run hkey hmem)
        rw [and_iff_right hkey, ← and_assoc,
          ← StorageBuffer.newest_eq_none_iff,
          ← hstore.engine.levels.searchable.lookup_eq_none_iff,
          ← Option.or_eq_none_iff, hget]
        simp
      · refine iff_of_false ?_ fun hcond => hkey hcond.1
        rintro ⟨db', hget⟩
        have hprobe : ¬ StorageBuffer.ProbeFits key := fun hprobe =>
          hkey ((length_lt_length_encodeString key).trans
            (hprobe.trans (by decide)))
        simp [get, hstop, StorageBuffer.get_eq_none hprobe] at hget

/-- Once a compaction has merged two tombstones away the key reads as
absent. -/
theorem get_deleted_eq_none_iff_merged :
    ∃ db, Reaches InRange tiny (deleteTwice ++ compaction 0 fourMerges) db ∧
      lastWrite [97] (deleteTwice ++ compaction 0 fourMerges) =
        some tombValue ∧
      db.store.engine.files = [] ∧ ∃ db', db.get [97] = some (none, db') := by
  obtain ⟨db, hrun, hincome, hflush, hfiles⟩ := exists_reaches
    (show Along (fun db _ => db.InRange)
      (deleteTwice ++ compaction 0 fourMerges) tiny by decide +kernel)
    (show (run (deleteTwice ++ compaction 0 fourMerges) tiny).any (fun db =>
      decide (db.InRange ∧ db.buffer.incomeBuffer = [] ∧
        db.buffer.flushBuffer = none ∧ db.store.engine.files = [])) = true by
      decide +kernel)
  have hlast : lastWrite [97] (deleteTwice ++ compaction 0 fourMerges) =
      some tombValue := by decide
  refine ⟨db, hrun, hlast, hfiles, ?_⟩
  refine (get_deleted_eq_none_iff 0 1 1 (by decide) hrun hlast).mpr
    (Or.inr ⟨by decide, ?_, ?_, ?_⟩)
  · rw [hincome]
    exact List.not_mem_nil
  · simp [hflush]
  · simp [hfiles]

/-- Just after the `Delete`, `Get` delivers the tombstone. -/
theorem get_delivers_tombstone :
    ∃ db db', Reaches InRange tiny [.add .delete [97] []] db ∧
      lastWrite [97] [.add .delete [97] []] = some tombValue ∧
      db.get [97] = some (some tombValue, db') := by
  obtain ⟨db, hrun, hget⟩ := exists_reaches
    (show Along (fun db _ => db.InRange) [.add .delete [97] []] tiny by
      decide +kernel)
    (show (run [.add .delete [97] []] tiny).any (fun db =>
      decide (db.InRange ∧ (db.get [97]).map Prod.fst =
        some (some tombValue))) = true by decide +kernel)
  obtain ⟨⟨_, db'⟩, hget, rfl⟩ := Option.map_eq_some_iff.mp hget
  exact ⟨db, db', hrun, by decide, hget⟩

end DataBase

end SimpleKV
