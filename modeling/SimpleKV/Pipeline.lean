/-
Writes on their way from the income buffer to the levels.  The history of a
store is cut into four consecutive segments: what the levels have, what only the
flush thread's file has, what the flush buffer has and what the income buffer
has.  Steps move the cuts and never the order, so every place answers as a
segment of the history does.
-/
import SimpleKV.Visibility

namespace SimpleKV

open SortedAssoc

theorem lastWrite_append (key : Bytes) (acts more : List Act) :
    lastWrite key (acts ++ more) =
      (lastWrite key more).or (lastWrite key acts) := by
  rw [lastWrite, List.reverse_append, List.findSome?_append]
  rfl

/-- A history that does not write a key has no part that does. -/
theorem lastWrite_eq_none_of_prefix {key : Bytes} {acts more : List Act}
    (h : acts <+: more) (hmore : lastWrite key more = none) :
    lastWrite key acts = none := by
  obtain ⟨rest, rfl⟩ := h
  rw [lastWrite_append, Option.or_eq_none_iff] at hmore
  exact hmore.2

/-- No write of these is a tombstone. -/
def LiveWrites (acts : List Act) : Prop :=
  ∀ act ∈ acts, ∀ key, act.writes key ≠ some tombValue

theorem LiveWrites.lastWrite_ne {acts : List Act} (h : LiveWrites acts)
    (key : Bytes) : lastWrite key acts ≠ some tombValue := by
  intro hlast
  obtain ⟨act, hact, hwrites⟩ := List.exists_of_findSome?_eq_some hlast
  exact h act (List.mem_reverse.mp hact) key hwrites

theorem LiveWrites.of_append {acts more : List Act}
    (h : LiveWrites (acts ++ more)) : LiveWrites acts ∧ LiveWrites more :=
  ⟨fun act hmem => h act (List.mem_append_left _ hmem),
    fun act hmem => h act (List.mem_append_right _ hmem)⟩

/-- The flush thread's file while no other place has its entries. -/
def DataBase.passing (db : DataBase) : Option File :=
  if db.flushPc.Between then db.store.transit else none

/-- A history of steps, cut by where its writes are. -/
structure Segments where
  installed : List Act
  passing : List Act
  swapped : List Act
  income : List Act

namespace Segments

/-- The history. -/
def all (s : Segments) : List Act :=
  s.installed ++ s.passing ++ s.swapped ++ s.income

/-- Every place of the store answers as its segment does. -/
structure Of (s : Segments) (db : DataBase) : Prop where
  income : ∀ key, find key db.buffer.incomeBuffer.entries =
    lastWrite key s.income
  swapped : ∀ key, (db.buffer.flushBuffer.bind fun list =>
    find key list.entries) = lastWrite key s.swapped
  passing : ∀ key, (db.passing.bind fun file => file.get key) =
    lastWrite key s.passing
  installed : ∀ key, db.store.engine.lookup key = lastWrite key s.installed

/-- Steps make the history longer and the cuts move forward; `AddFile` installs
all that was passing. -/
structure Advances (s s' : Segments) (acts : List Act) : Prop where
  all : s'.all = s.all ++ acts
  installed : s.installed <+: s'.installed
  passing : s.installed ++ s.passing <+: s'.installed ++ s'.passing
  added : .addFile ∈ acts → s.installed ++ s.passing <+: s'.installed

theorem Advances.refl (s : Segments) : s.Advances s [] where
  all := (List.append_nil _).symm
  installed := List.prefix_refl _
  passing := List.prefix_refl _
  added := fun h => absurd h (by simp)

theorem Advances.trans {s s' s'' : Segments} {acts more : List Act}
    (h : s.Advances s' acts) (h' : s'.Advances s'' more) :
    s.Advances s'' (acts ++ more) where
  all := by rw [h'.all, h.all, List.append_assoc]
  installed := h.installed.trans h'.installed
  passing := h.passing.trans h'.passing
  added := by
    intro hmem
    rcases List.mem_append.mp hmem with hmem | hmem
    · exact (h.added hmem).trans h'.installed
    · exact h.passing.trans (h'.added hmem)

/-- The history with one more step at its end. -/
def push (s : Segments) (act : Act) : Segments :=
  { s with income := s.income ++ [act] }

theorem advances_push (s : Segments) {act : Act} (hact : act ≠ .addFile) :
    s.Advances (s.push act) [act] where
  all := by simp [all, push]
  installed := List.prefix_refl _
  passing := List.prefix_refl _
  added := fun h => absurd (List.mem_singleton.mp h).symm hact

variable {s : Segments} {db db' : DataBase}

/-- Steps that write nothing and move nothing. -/
theorem Of.push (h : s.Of db) {act : Act}
    (hact : ∀ key, act.writes key = none)
    (hincome : db'.buffer.incomeBuffer = db.buffer.incomeBuffer)
    (hflush : db'.buffer.flushBuffer = db.buffer.flushBuffer)
    (hpassing : db'.passing = db.passing)
    (hlookup : ∀ key,
      db'.store.engine.lookup key = db.store.engine.lookup key) :
    (s.push act).Of db' where
  income := by
    intro key
    rw [hincome, Segments.push, lastWrite_snoc, hact, Option.none_or]
    exact h.income key
  swapped := by
    intro key
    rw [hflush]
    exact h.swapped key
  passing := by
    intro key
    rw [hpassing]
    exact h.passing key
  installed := fun key => (hlookup key).trans (h.installed key)

theorem passing_congr (hpc : db'.flushPc.Between ↔ db.flushPc.Between)
    (htransit : db'.store.transit = db.store.transit) :
    db'.passing = db.passing := by
  simp only [DataBase.passing, hpc, htransit]

theorem passing_of_not (hpc : ¬ db.flushPc.Between) : db.passing = none :=
  if_neg hpc

/-- With an empty flush buffer its segment writes nothing. -/
theorem Of.swapped_eq_none (h : s.Of db) (hflush : db.buffer.flushBuffer = none)
    (key : Bytes) : lastWrite key s.swapped = none := by
  rw [← h.swapped, hflush, Option.bind_none]

theorem Of.passing_eq_none (h : s.Of db) (hpc : ¬ db.flushPc.Between)
    (key : Bytes) : lastWrite key s.passing = none := by
  rw [← h.passing, passing_of_not hpc, Option.bind_none]

/-- What the buffers answer. -/
theorem Of.newest (h : s.Of db) (key : Bytes) :
    db.buffer.newest key = lastWrite key (s.swapped ++ s.income) := by
  rw [StorageBuffer.newest, h.income, h.swapped, lastWrite_append]

/-- A key that is not hidden is not in the passing segment. -/
theorem Of.passing_eq_none_of_shown (h : s.Of db) {key : Bytes}
    (hshown : ∀ value, ¬ db.Hidden (key, value)) :
    lastWrite key s.passing = none := by
  rw [← h.passing, DataBase.passing]
  split_ifs with hpc
  · cases htransit : db.store.transit with
    | none => rfl
    | some file =>
        rw [Option.bind_some]
        exact Option.eq_none_iff_forall_not_mem.mpr fun value hvalue =>
          hshown value ⟨hpc, file, htransit, hvalue⟩
  · rfl

/-- `Add` extends the income segment; a swap makes it the swapped one. -/
theorem Of.add (h : s.Of db) {transit : Option File}
    (hstore : StoreInv db transit) {order : OrderType} {name value : Bytes}
    {buffer : StorageBuffer} {notifying : Bool}
    (hadd : db.buffer.add (.ofString name)
      (.ofString (DataBase.orderValue order value)) = some (buffer, notifying))
    (hshort : ShortWrites [.add order name value]) :
    ∃ s' : Segments, s'.Of { db with buffer, notifying } ∧
      s.Advances s' [.add order name value] := by
  obtain ⟨hname, hvalue⟩ := hshort.stored (List.mem_singleton.mpr rfl)
  obtain ⟨_, hlist, _, hcases⟩ :=
    StorageBuffer.add_cases hstore.handoff.income hadd
  have hfind (key : Bytes) : find key (db.buffer.insert (.ofString name)
      (.ofString (DataBase.orderValue order value))).incomeBuffer.entries =
        lastWrite key (s.income ++ [.add order name value]) := by
    rw [hlist.entries_eq, lastWrite_snoc, Act.writes, hname, hvalue]
    split_ifs with hkey
    · rw [hkey, find_upsert_self, Option.some_or]
    · rw [find_upsert_of_ne _ _ (Ne.symm hkey), Option.none_or]
      exact h.income key
  rcases hcases with ⟨_, hincome, hflush, _⟩ | ⟨_, hready, hincome, hflush, _⟩
  · refine ⟨s.push _, ⟨fun key => ?_, fun key => ?_, h.passing, h.installed⟩,
      s.advances_push (by simp)⟩
    · change find key buffer.incomeBuffer.entries = _
      rw [hincome]
      exact hfind key
    · change (buffer.flushBuffer.bind _) = _
      rw [hflush]
      exact h.swapped key
  · have hnone := h.swapped_eq_none (hstore.handoff.idle hready)
    refine ⟨{ s with
      swapped := s.swapped ++ (s.income ++ [.add order name value])
      income := [] }, ⟨fun key => ?_, fun key => ?_, h.passing, h.installed⟩,
      ?_, List.prefix_refl _, List.prefix_refl _, by simp⟩
    · change find key buffer.incomeBuffer.entries = _
      rw [hincome]
      rfl
    · change (buffer.flushBuffer.bind _) = _
      rw [hflush, lastWrite_append, hnone, Option.or_none, ← hfind key]
      rfl
    · simp [all]

/-- `ClearFlushBuffer` leaves the swapped segment to the flush thread. -/
theorem Of.clear (h : s.Of db) {transit : Option File}
    (hstore : StoreInv db transit) (hrange : db.InRange)
    {keyOffset : KeyOffset} (hat : db.flushPc = .clear keyOffset) :
    ∃ s' : Segments, s'.Of
        { db with
          buffer := db.buffer.clearFlushBuffer
          flushPc := .cacheSet keyOffset } ∧
      s.Advances s' [.clear] := by
  have hwritten := hstore.written
  rw [DataBase.Written, hat] at hwritten
  obtain ⟨file, list, hfile, hlist, hholds, _⟩ := hwritten
  have hsmall := hstore.engine.small_transit hrange.2
    (hfile ▸ rfl : file ∈ transit)
  have htransit : db.store.transit = some file :=
    (hstore.engine.transit_eq hrange.1).symm.trans hfile
  have hnone := h.passing_eq_none (by rw [hat]; exact id)
  refine ⟨{ s with
    passing := s.passing ++ s.swapped
    swapped := []
    income := s.income ++ [.clear] },
    ⟨fun key => ?_, fun key => rfl, fun key => ?_, h.installed⟩,
    ?_, List.prefix_refl _, ?_, by simp⟩
  · rw [lastWrite_snoc]
    exact h.income key
  · have hpassing : DataBase.passing
        { db with
          buffer := db.buffer.clearFlushBuffer
          flushPc := .cacheSet keyOffset } = db.store.transit :=
      if_pos trivial
    rw [hpassing, htransit, Option.bind_some, hholds.get_eq_find hsmall,
      lastWrite_append, hnone, Option.or_none, ← h.swapped, hlist,
      Option.bind_some]
  · simp [all]
  · rw [← List.append_assoc]
    exact List.prefix_append _ _

/-- `AddFile` installs what the flush thread has. -/
theorem Of.addFile (h : s.Of db) {transit : Option File}
    (hstore : StoreInv db transit) (hrange : db.InRange)
    {store : EngineState} {compactPc : CompactPc}
    (hat : db.flushPc = .addFile) (hadd : db.store.addFile = some store) :
    ∃ s' : Segments, s'.Of { db with store, flushPc := .loop, compactPc } ∧
      s.Advances s' [.addFile] := by
  obtain ⟨file, hfile, hnew, _, hlevel, hstate, hafter⟩ :=
    hstore.engine.addFile hrange.1 hadd
  subst hstate
  have htransit : db.store.transit = some file :=
    (hstore.engine.transit_eq hrange.1).symm.trans hfile
  have hpassing : db.passing = some file := by
    rw [DataBase.passing, hat]
    exact (if_pos trivial).trans htransit
  refine ⟨{
    installed := s.installed ++ s.passing
    passing := []
    swapped := s.swapped
    income := s.income ++ [.addFile] },
    ⟨fun key => ?_, h.swapped, fun key => ?_, fun key => ?_⟩,
    ?_, List.prefix_append _ _, ?_, fun _ => List.prefix_refl _⟩
  · rw [lastWrite_snoc]
    exact h.income key
  · rw [passing_of_not]
    · rfl
    · exact id
  · change (db.store.engine.installFile file).lookup key = _
    rw [hstore.engine.lookup_installFile hlevel hnew.newer hafter.levels,
      h.installed, lastWrite_append, ← h.passing, hpassing, Option.bind_some]
  · simp [all]
  · rw [List.append_nil]

/-- Every step keeps the cut of a history without tombstones. -/
theorem Of.step (h : s.Of db) {transit : Option File}
    (hstore : StoreInv db transit) (hrange : db.InRange) {act : Act}
    (hstep : DataBase.step act db = some db') (hrange' : db'.InRange)
    (hshort : ShortWrites [act]) (hlive : LiveWrites s.all) :
    ∃ s' : Segments, s'.Of db' ∧ s.Advances s' [act] := by
  have htransit := hstore.engine.transit_eq hrange.1
  cases DataBase.step_data hstep with
  | control hact hsame =>
      refine ⟨s.push act, h.push (fun key => ?_) hsame.incomeBuffer
        hsame.flushBuffer ?_ fun key => by rw [hsame.store], s.advances_push ?_⟩
      · cases act <;> first | rfl | exact absurd hact id
      · refine passing_congr ?_ (by rw [hsame.store])
        rcases hsame.pc with hpc | ⟨hidle, hidle'⟩
        · rw [hpc]
        · exact iff_of_false hidle'.not_between hidle.not_between
      · rintro rfl
        exact hact
  | add _ hadd => exact h.add hstore hadd hshort
  | getFiles hget =>
      obtain ⟨cache, rfl⟩ := DataBase.getFiles_eq hget
      exact ⟨s.push _, h.push (fun _ => rfl) rfl rfl rfl fun _ => rfl,
        s.advances_push (by simp)⟩
  | clearCache =>
      exact ⟨s.push _, h.push (fun _ => rfl) rfl rfl rfl fun _ => rfl,
        s.advances_push (by simp)⟩
  | newFile hat hnew =>
      obtain ⟨_, _, _, hlevels, _⟩ := hstore.engine.newFile hnew hrange'.1
      have hbefore : db.passing = none := passing_of_not (by rw [hat]; exact id)
      refine ⟨s.push _, h.push (fun _ => rfl) rfl rfl ?_
        (DataBase.lookup_congr hlevels), s.advances_push (by simp)⟩
      rw [hbefore]
      exact if_neg not_false
  | write hat hbytes hwrite =>
      obtain ⟨id, name, hflight, _, _⟩ := EngineState.write_eq hwrite
      obtain ⟨file, list, _, _, hstored, hlevel, hfileId, hmmap, _⟩ :=
        hstore.exists_written hbytes hrange.1 hflight
      obtain ⟨_, _, _, hlevels, _⟩ :=
        hstore.engine.write hflight hstored hlevel hfileId hmmap hwrite
      have hbefore : db.passing = none :=
        passing_of_not (by rw [hat]; exact not_false)
      refine ⟨s.push _, h.push (fun _ => rfl) rfl rfl ?_
        (DataBase.lookup_congr hlevels), s.advances_push (by simp)⟩
      rw [hbefore]
      exact if_neg not_false
  | clear hat _ => exact h.clear hstore hrange hat
  | cacheSet hat _ =>
      refine ⟨s.push _, h.push (fun _ => rfl) rfl rfl (passing_congr ?_ rfl)
        fun _ => rfl, s.advances_push (by simp)⟩
      rw [hat]
      exact Iff.rfl
  | addFile hat hadd => exact h.addFile hstore hrange hat hadd
  | @compact _ store _ hact hcompact =>
      obtain ⟨hafter, hsame⟩ := hstore.engine.compact hcompact hrange'.1
      refine ⟨s.push act, h.push (fun key => ?_) rfl rfl
        (passing_congr Iff.rfl ?_) (DataBase.lookup_congr hsame.levelFiles),
        s.advances_push ?_⟩
      · cases act <;> first | rfl | exact absurd hact id
      · exact (hafter.transit_eq hrange'.1).symm.trans htransit
      · rintro rfl
        exact hact
  | @update store hupdate =>
      obtain ⟨_, _, _, _, _, _, _, hafter⟩ := hstore.engine.update hupdate
      refine ⟨s.push _, h.push (fun _ => rfl) rfl rfl
        (passing_congr Iff.rfl ?_) (fun key => ?_), s.advances_push (by simp)⟩
      · exact (hafter.transit_eq hrange'.1).symm.trans htransit
      · obtain ⟨hnone, hkept⟩ :=
          hstore.engine.lookup_update hrange.2 hupdate key
        cases hlookup : db.store.engine.lookup key with
        | none => exact hnone hlookup
        | some value =>
            refine hkept value hlookup ?_
            rintro rfl
            rw [h.installed] at hlookup
            refine LiveWrites.lastWrite_ne (fun act hmem => hlive act ?_) key
              hlookup
            simp [all, hmem]

/-- The cut of the history along a run. -/
theorem Of.reaches {first : DataBase} (h : s.Of first)
    (hstart : ∃ transit, StoreInv first transit) {acts : List Act}
    (hrun : DataBase.Reaches DataBase.InRange first acts db)
    (hshort : ShortWrites acts) (hlive : LiveWrites (s.all ++ acts)) :
    ∃ s' : Segments, s'.Of db ∧ s.Advances s' acts := by
  induction hrun with
  | start _ => exact ⟨s, h, .refl s⟩
  | @step acts act last next hbefore hstep hnext ih =>
      obtain ⟨hacts, hact⟩ := hshort.of_append
      rw [← List.append_assoc] at hlive
      obtain ⟨s', hof, hadvances⟩ := ih hacts hlive.of_append.1
      obtain ⟨transit, hfirst⟩ := hstart
      obtain ⟨transit', hstore⟩ := hfirst.reaches (fun _ h => h.1) hbefore
      obtain ⟨s'', hof', hnext'⟩ := hof.step hstore hbefore.last hstep hnext
        hact (by rw [hadvances.all]; exact hlive.of_append.1)
      exact ⟨s'', hof', hadvances.trans hnext'⟩

/-- A store that has just been started has everything in its files. -/
theorem of_start {base : List Act} {engine : StorageEngine}
    (hlookup : ∀ key, engine.lookup key = lastWrite key base)
    (bufferSize : UInt32) (cache : LRUCache) :
    Of ⟨base, [], [], []⟩ (.start bufferSize cache engine) :=
  ⟨fun _ => rfl, fun _ => rfl, fun _ => rfl, hlookup⟩

end Segments

end SimpleKV
