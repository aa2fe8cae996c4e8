/-
Where values come from.  Buffers, flushes, compactions and restarts only pass
entries on, deletions included: what holds of every entry that is written holds
of every entry that is stored, and so of every value that is read.
-/
import SimpleKV.Lives

namespace SimpleKV

open SortedAssoc

variable {Q : Bytes → Bytes → Prop} {db db' : DataBase}
  {transit : Option File}

/-- A file all of whose entries satisfy `Q`. -/
def File.All (Q : Bytes → Bytes → Prop) (file : File) : Prop :=
  ∀ key value, file.get key = some value → Q key value

/-- All entries in the buffers, in the flush thread's file and in the levels
satisfy `Q`. -/
structure Holding (Q : Bytes → Bytes → Prop) (db : DataBase) : Prop where
  income : ∀ key value,
    find key db.buffer.incomeBuffer.entries = some value → Q key value
  flush : ∀ list ∈ db.buffer.flushBuffer, ∀ key value,
    find key list.entries = some value → Q key value
  transit : ∀ file ∈ db.store.transit, file.All Q
  files : ∀ file ∈ db.store.engine.files, file.All Q

namespace Holding

/-- What a step that only moves threads along keeps. -/
theorem congr (h : Holding Q db)
    (hincome : db'.buffer.incomeBuffer = db.buffer.incomeBuffer)
    (hflush : db'.buffer.flushBuffer = db.buffer.flushBuffer)
    (htransit : db'.store.transit = db.store.transit)
    (hfiles : ∀ file ∈ db'.store.engine.files,
      file ∈ db.store.engine.files) : Holding Q db' where
  income := by
    rw [hincome]
    exact h.income
  flush := by
    rw [hflush]
    exact h.flush
  transit := by
    rw [htransit]
    exact h.transit
  files := fun file hfile => h.files file (hfiles file hfile)

theorem start {engine : StorageEngine}
    (hfiles : ∀ file ∈ engine.files, file.All Q) (bufferSize : UInt32)
    (cache : LRUCache) : Holding Q (.start bufferSize cache engine) where
  income := fun key value hfind => absurd hfind (by
    simp [DataBase.start, StorageBuffer.new, SkipList.entries, find])
  flush := fun list hlist => absurd hlist (by
    simp [DataBase.start, StorageBuffer.new])
  transit := fun file hfile => absurd hfile (by
    simp [DataBase.start, EngineState.start, EngineState.transit])
  files := hfiles

/-- `Add` stores its own entry. -/
theorem add (h : Holding Q db) (hstore : StoreInv db transit)
    {name value : ByteArray} {buffer : StorageBuffer} {notifying : Bool}
    (hadd : db.buffer.add name value = some (buffer, notifying))
    (hentry : Q name.data value.data) :
    Holding Q { db with buffer, notifying } := by
  obtain ⟨_, hlist, _, hcases⟩ :=
    StorageBuffer.add_cases hstore.handoff.income hadd
  have hfind : ∀ key found, find key
      (db.buffer.insert name value).incomeBuffer.entries = some found →
        Q key found := by
    intro key found hfound
    rw [hlist.entries_eq] at hfound
    by_cases hkey : key = name.data
    · rw [hkey, find_upsert_self, Option.some.injEq] at hfound
      rw [hkey, ← hfound]
      exact hentry
    · rw [find_upsert_of_ne _ _ hkey] at hfound
      exact h.income key found hfound
  rcases hcases with ⟨_, hincome, hflush, _⟩ | ⟨_, _, hincome, hflush, _⟩
  · refine ⟨?_, ?_, h.transit, h.files⟩
    · change ∀ key found, find key buffer.incomeBuffer.entries = _ → _
      rw [hincome]
      exact hfind
    · change ∀ list ∈ buffer.flushBuffer, _
      rw [hflush]
      exact h.flush
  · refine ⟨?_, ?_, h.transit, h.files⟩
    · change ∀ key found, find key buffer.incomeBuffer.entries = _ → _
      rw [hincome]
      exact fun key found hfound => absurd hfound (by
        simp [SkipList.entries, find])
    · change ∀ list ∈ buffer.flushBuffer, _
      rw [hflush]
      rintro list ⟨⟩
      exact hfind

/-- The files a compaction makes have entries of the files it took. -/
theorem compacted (h : Holding Q db) (hstore : StoreInv db transit)
    (hrange : db.InRange) {level : Nat} {files compactedFiles : List File}
    {needRemoveFile : Bool} (hphase : db.store.phase =
      .merged level files compactedFiles needRemoveFile) :
    ∀ file ∈ compactedFiles, file.All Q := by
  intro file hfile key value hget
  have hreplaces := hstore.engine.replaces hrange.2 hphase key
  obtain ⟨⟨input, hstop, hinput⟩, _⟩ := hreplaces.sound file hfile value hget
  exact h.files input (hreplaces.subset hstop.mem) key value hinput

/-- Every step passes entries on. -/
theorem step (h : Holding Q db) (hstore : StoreInv db transit)
    (hrange : db.InRange) {act : Act}
    (hstep : DataBase.step act db = some db') (hrange' : db'.InRange)
    (hshort : ShortWrites [act])
    (hwrites : ∀ key value, act.writes key = some value → Q key value) :
    Holding Q db' := by
  have htransit := hstore.engine.transit_eq hrange.1
  cases DataBase.step_data hstep with
  | control _ hsame =>
      refine h.congr hsame.incomeBuffer hsame.flushBuffer ?_ ?_ <;>
        rw [hsame.store]
      exact fun _ => id
  | @add order name value _ _ _ hadd =>
      obtain ⟨hname, hvalue⟩ := hshort.stored (List.mem_singleton.mpr rfl)
      refine h.add hstore hadd ?_
      rw [hname, hvalue]
      exact hwrites name _ (by simp [Act.writes])
  | getFiles hget =>
      obtain ⟨cache, rfl⟩ := DataBase.getFiles_eq hget
      exact h.congr rfl rfl rfl fun _ => id
  | clearCache => exact h.congr rfl rfl rfl fun _ => id
  | @newFile store _ hnew =>
      obtain ⟨hafter, _, _, hlevels, _⟩ := hstore.engine.newFile hnew hrange'.1
      refine ⟨h.income, h.flush, fun file hfile => ?_, fun file hfile => ?_⟩
      · change file ∈ store.transit at hfile
        rw [← hafter.transit_eq hrange'.1] at hfile
        exact absurd hfile (by simp)
      · change file ∈ store.engine.files at hfile
        rw [StorageEngine.files, hlevels] at hfile
        exact h.files file hfile
  | @write _ _ _ store _ hbytes hwrite =>
      obtain ⟨id, name, hflight, _, _⟩ := EngineState.write_eq hwrite
      obtain ⟨written, list, hlist, hholds, hstored, hlevel, hid, hmmap, _⟩ :=
        hstore.exists_written hbytes hrange.1 hflight
      obtain ⟨hafter, _, _, hlevels, _⟩ :=
        hstore.engine.write hflight hstored hlevel hid hmmap hwrite
      have hsmall := hafter.small_transit hrange'.2 rfl
      refine ⟨h.income, h.flush, fun file hfile => ?_, fun file hfile => ?_⟩
      · change file ∈ store.transit at hfile
        rw [← hafter.transit_eq hrange'.1, Option.mem_some_iff] at hfile
        subst hfile
        intro key value hget
        rw [hholds.get_eq_find hsmall] at hget
        exact h.flush list hlist key value hget
      · change file ∈ store.engine.files at hfile
        rw [StorageEngine.files, hlevels] at hfile
        exact h.files file hfile
  | clear _ _ =>
      exact ⟨h.income, fun list hlist => absurd hlist (by
        simp [StorageBuffer.clearFlushBuffer]), h.transit, h.files⟩
  | cacheSet _ _ => exact h.congr rfl rfl rfl fun _ => id
  | @addFile store _ _ hadd =>
      obtain ⟨file, hfile, _, _, _, hstate, _⟩ :=
        hstore.engine.addFile hrange.1 hadd
      subst hstate
      refine ⟨h.income, h.flush, fun other hother => absurd hother (by
        simp [EngineState.transit]), fun other hother => ?_⟩
      rcases hstore.engine.levels.mem_files_installFile.mp hother with rfl |
        hother
      · exact h.transit other (htransit ▸ hfile ▸ rfl)
      · exact h.files other hother
  | @compact _ store _ _ hcompact =>
      obtain ⟨hafter, hsame⟩ := hstore.engine.compact hcompact hrange'.1
      refine h.congr rfl rfl
        ((hafter.transit_eq hrange'.1).symm.trans htransit) fun file hfile => ?_
      change file ∈ store.engine.files at hfile
      rw [StorageEngine.files, hsame.levelFiles] at hfile
      exact hfile
  | @update store hupdate =>
      obtain ⟨_, _, _, _, hphase, _, hfiles, hafter⟩ :=
        hstore.engine.update hupdate
      refine ⟨h.income, h.flush, fun file hfile => ?_, fun file hfile => ?_⟩
      · change file ∈ store.transit at hfile
        rw [← hafter.transit_eq hrange'.1, htransit] at hfile
        exact h.transit file hfile
      · rcases (hfiles file).mp hfile with hmade | hkept
        · exact h.compacted hstore hrange hphase file hmade
        · exact h.files file hkept.1

/-- Along a run. -/
theorem reaches {first : DataBase} (h : Holding Q first)
    (hstart : ∃ transit, StoreInv first transit) {acts : List Act}
    (hrun : DataBase.Reaches DataBase.InRange first acts db)
    (hshort : ShortWrites acts) (hwrites : ∀ act ∈ acts, ∀ key value,
      act.writes key = some value → Q key value) : Holding Q db := by
  induction hrun with
  | start _ => exact h
  | @step acts act last next hbefore hstep hnext ih =>
      obtain ⟨hacts, hact⟩ := hshort.of_append
      obtain ⟨transit, hfirst⟩ := hstart
      obtain ⟨_, hstore⟩ := hfirst.reaches (fun _ h => h.1) hbefore
      exact (ih hacts fun act hmem =>
        hwrites act (List.mem_append_left _ hmem)).step hstore hbefore.last
        hstep hnext hact (hwrites act (by simp))

end Holding

namespace DataBase

/-- Through all lives of a folder. -/
theorem Lives.holding {earlier : List (List Act)} {acts : List Act}
    (h : Lives earlier acts db)
    (hshort : ∀ life ∈ earlier ++ [acts], ShortWrites life)
    (hwrites : ∀ life ∈ earlier ++ [acts], ∀ act ∈ life, ∀ key value,
      act.writes key = some value → Q key value) : Holding Q db := by
  induction h with
  | first bufferSize hpos limit hrun =>
      refine (Holding.start ?_ bufferSize _).reaches ⟨none, .start _ _ _⟩ hrun
        (hshort _ (by simp)) (hwrites _ (by simp))
      intro file hfile
      simp [StorageEngine.new, StorageEngine.files] at hfile
  | next sort bufferSize hpos limit hlast hflight hphase hlisting hopen hrun
      ih =>
      obtain ⟨⟨transit, hstore⟩, _⟩ := hlast.invariants
      have hdisk := hstore.engine.onDisk_of_ready hflight hphase
      obtain ⟨engine', hopen', hfolder, hreopened⟩ :=
        hdisk.exists_ofFolder hlast.last.1 sort limit hlisting
      rw [hopen, Option.some.injEq] at hopen'
      subst hopen'
      have hbefore := ih
        (fun life hlife => hshort life (List.mem_append_left _ hlife))
        (fun life hlife => hwrites life (List.mem_append_left _ hlife))
      refine (Holding.start ?_ bufferSize _).reaches ⟨none, .start _ _ _,
        .ofReopened hreopened hstore.engine.levels hdisk hfolder, trivial⟩ hrun
        (hshort _ (by simp)) (hwrites _ (by simp))
      exact fun file hfile =>
        hbefore.files file (hreopened.mem_files.mp hfile)

/-- Whatever the interleaving, with deletions, compactions and restarts: a value
that a `Get` returns for a key was written to that key, by a `Put` or as the
tombstone of a `Delete`, in this life or in an earlier one. -/
theorem get_value_was_written {earlier : List (List Act)}
    {past between : List Act} {first second : DataBase}
    (hfirst : Lives earlier past first)
    (hbetween : Reaches InRange first between second)
    (hshort : ∀ life ∈ earlier ++ [past ++ between], ShortWrites life)
    {key value : Bytes}
    (hget : getBetween key first second = some (some value)) :
    ∃ life ∈ earlier ++ [past ++ between], ∃ order written,
      .add order key written ∈ life ∧ orderValue order written = value := by
  have hopen : first.isStop = false := by
    cases hstop : first.isStop with
    | true => simp [getBetween, hstop] at hget
    | false => rfl
  by_cases hprobe : StorageBuffer.ProbeFits key
  · obtain ⟨⟨transit, hstore⟩, hcache⟩ := hfirst.invariants
    obtain ⟨⟨transit', hstore'⟩, hcache'⟩ :=
      invariants_reaches ⟨transit, hstore⟩ hcache hbetween
    have hpast : ShortWrites (past ++ between) := hshort _ (by simp)
    have hholding : Holding (fun key value =>
        ∃ life ∈ earlier ++ [past ++ between], ∃ act ∈ life,
          act.writes key = some value) first := by
      refine hfirst.holding (fun life hlife => ?_)
        (fun life hlife act hact key value hwrites => ?_)
      · rcases List.mem_append.mp hlife with hlife | hlife
        · exact hshort life (List.mem_append_left _ hlife)
        · rw [List.mem_singleton.mp hlife]
          exact hpast.of_append.1
      · rcases List.mem_append.mp hlife with hlife | hlife
        · exact ⟨life, List.mem_append_left _ hlife, act, hact, hwrites⟩
        · rw [List.mem_singleton.mp hlife] at hact
          exact ⟨past ++ between, by simp, act, List.mem_append_left _ hact,
            hwrites⟩
    have hholding' := hholding.reaches ⟨transit, hstore⟩ hbetween
      hpast.of_append.2 fun act hact key value hwrites =>
        ⟨past ++ between, by simp, act, List.mem_append_right _ hact, hwrites⟩
    have hwritten : ∃ life ∈ earlier ++ [past ++ between], ∃ act ∈ life,
        act.writes key = some value := by
      rw [getBetween_eq hstore hstore' hcache' hbetween.last hopen hprobe,
        Option.some.injEq, Option.or_eq_some_iff] at hget
      rcases hget with hnewest | ⟨_, hlookup⟩
      · rw [StorageBuffer.newest, Option.or_eq_some_iff] at hnewest
        rcases hnewest with hincome | ⟨_, hflush⟩
        · exact hholding.income key value hincome
        · obtain ⟨list, hlist, hfind⟩ := Option.bind_eq_some_iff.mp hflush
          exact hholding.flush list hlist key value hfind
      · rw [hstore'.engine.levels.searchable.lookup_eq_some_iff] at hlookup
        obtain ⟨file, hstop, hfile⟩ := hlookup
        exact hholding'.files file hstop.mem key value hfile
    obtain ⟨life, hlife, act, hact, hwrites⟩ := hwritten
    refine ⟨life, hlife, ?_⟩
    cases act with
    | add order name written =>
        rw [Act.writes] at hwrites
        split_ifs at hwrites with hname
        exact ⟨order, written, hname ▸ hact, Option.some.inj hwrites⟩
    | _ => cases hwrites
  · rw [getBetween, hopen, StorageBuffer.get_eq_none hprobe] at hget
    exact absurd hget (by simp)

/-- A value read after a restart. -/
theorem get_value_was_written_before_restart :
    ∃ db, Lives [writeAndFlush .put [97] [1]] [] db ∧
      getBetween [97] db db = some (some [1]) ∧
      ∃ life ∈ [writeAndFlush .put [97] [1], []], ∃ order written,
        .add order [97] written ∈ life ∧ orderValue order written = [1] := by
  obtain ⟨last, hrun, hflight, hphase, hlists, hopen⟩ := exists_reaches
    (show Along (fun db _ => db.InRange) (writeAndFlush .put [97] [1]) tiny by
      decide +kernel)
    (show (run (writeAndFlush .put [97] [1]) tiny).any (fun last =>
      decide (last.InRange ∧ last.store.flight = .none ∧
        last.store.phase = .ready ∧
        (listingOf last.store.engine.folder).filter
          (fun name => decide (name.head? ≠ some '.')) =
            last.store.engine.folder.keys ∧
        (StorageEngine.ofFolder .insertion 1 last.store.engine.folder
          (listingOf last.store.engine.folder)).any (fun engine =>
            decide ((start 0 (.empty 1 (by decide)) engine).InRange ∧
              getBetween [97] (start 0 (.empty 1 (by decide)) engine)
                (start 0 (.empty 1 (by decide)) engine) =
                  some (some [1]))) = true)) = true by decide +kernel)
  obtain ⟨engine, hengine, hnow⟩ := (Option.any_eq_true _ _).mp hopen
  obtain ⟨hrange, hget⟩ := of_decide_eq_true hnow
  have hlives := Lives.next .insertion 0 (by decide) 1
    (.first 0 (by decide) 1 hrun) hflight hphase
    (show Lists (listingOf last.store.engine.folder) _ from
      List.Perm.of_eq hlists) hengine (.start hrange)
  refine ⟨_, hlives, hget, get_value_was_written hlives (.start hrange) ?_
    hget⟩
  intro life hlife order name value hadd
  simp at hlife
  rcases hlife with rfl | rfl
  · simp [writeAndFlush] at hadd
    obtain ⟨_, rfl, rfl⟩ := hadd
    decide
  · exact absurd hadd (by simp)

end DataBase

end SimpleKV
