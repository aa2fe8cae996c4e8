/-
Visibility while a buffer becomes a file.  A `Get` looks at the buffers first
and at the files later, and the flush thread clears the flush buffer before it
installs the file.  In between the entries of that file are in neither place.
-/
import SimpleKV.Reads

namespace SimpleKV

open SortedAssoc

/-- Between `ClearFlushBuffer` and `AddFile`. -/
def FlushPc.Between : FlushPc → Prop
  | .cacheSet _ | .addFile => True
  | _ => False

instance (pc : FlushPc) : Decidable pc.Between :=
  match pc with
  | .cacheSet _ | .addFile => inferInstanceAs (Decidable True)
  | .loop | .setIdle | .test | .park | .parked | .check | .newFile | .write
  | .clear _ | .done => inferInstanceAs (Decidable False)

theorem FlushPc.Idle.not_between {pc : FlushPc} (h : pc.Idle) :
    ¬ pc.Between := by
  cases pc <;> simp_all [Idle, Between]

namespace DataBase

/-- The entry is in the flush thread's file, which is no longer in the flush
buffer and not yet in the levels. -/
def Hidden (entry : Bytes × Bytes) (db : DataBase) : Prop :=
  db.flushPc.Between ∧ ∃ file, db.store.transit = some file ∧
    file.get entry.1 = some entry.2

/-- A file of the levels has the entry. -/
def Installed (entry : Bytes × Bytes) (db : DataBase) : Prop :=
  ∃ file ∈ db.store.engine.files, file.get entry.1 = some entry.2

/-- The entry can be found in the flush buffer or in a file of the levels. -/
def Shows (entry : Bytes × Bytes) (db : DataBase) : Prop :=
  (∃ list, db.buffer.flushBuffer = some list ∧ entry ∈ list.entries) ∨
    db.Installed entry

/-- A `Get` that looks at the buffers in one state and at the files in a later
one: `some value` is status 0, `none` is -1. -/
def getBetween (key : Bytes) (first second : DataBase) :
    Option (Option Bytes) :=
  if first.isStop then some none
  else
    match first.buffer.get key with
    | none => none
    | some (some value) => some (some value)
    | some none => (second.getFiles key).map Prod.fst

theorem get_eq_getBetween (key : Bytes) (db : DataBase) :
    (db.get key).map Prod.fst = getBetween key db db := by
  unfold get getBetween
  split_ifs
  · rfl
  · split <;> simp_all

end DataBase

namespace StoreInv

variable {db : DataBase} {transit : Option File}

/-- A key that is in no buffer is in the flush thread's file only between
`ClearFlushBuffer` and `AddFile`. -/
theorem between_of_transit (h : StoreInv db transit) (hrange : db.InRange)
    {key : Bytes} (hnewest : db.buffer.newest key = none) {file : File}
    (htransit : db.store.transit = some file) (hget : file.get key ≠ none) :
    db.flushPc.Between := by
  cases hpc : db.flushPc with
  | cacheSet _ => trivial
  | addFile => trivial
  | clear keyOffset =>
      have hwritten := h.written
      rw [DataBase.Written, hpc] at hwritten
      obtain ⟨file', list, hfile, hlist, hholds, _⟩ := hwritten
      have hsame := h.engine.transit_eq hrange.1
      rw [hfile, htransit, Option.some.injEq] at hsame
      subst hsame
      have hsmall := h.engine.small_transit hrange.2
        (hfile ▸ rfl : file' ∈ transit)
      rw [hholds.get_eq_find hsmall] at hget
      have hflush := (Option.or_eq_none_iff.mp hnewest).2
      rw [hlist] at hflush
      exact absurd hflush hget
  | write =>
      have hinv := h.handoff.pc
      rw [hpc] at hinv
      obtain ⟨_, id, name, hflight⟩ := hinv
      simp [EngineState.transit, hflight] at htransit
  | _ =>
      have hinv := h.handoff.pc
      rw [hpc] at hinv
      simp only [PcInv] at hinv
      simp_all [EngineState.transit]

/-- With a key that is in no buffer and not hidden, the files have its newest
version. -/
theorem version_eq_lookup (h : StoreInv db transit) (hrange : db.InRange)
    {key : Bytes} (hnewest : db.buffer.newest key = none)
    (hshown : ∀ value, ¬ db.Hidden (key, value)) :
    db.version key = db.store.engine.lookup key := by
  rw [DataBase.version, hnewest, Option.none_or]
  cases htransit : db.store.transit with
  | none => rfl
  | some file =>
      rw [Option.bind_some]
      cases hget : file.get key with
      | none => rfl
      | some value =>
          refine absurd ⟨?_, file, htransit, hget⟩ (hshown value)
          exact h.between_of_transit hrange hnewest htransit (by simp [hget])

end StoreInv

/-- A `Get` in two parts returns what the buffers had, or else what the files
have. -/
theorem getBetween_eq {first second : DataBase} {transit transit' : Option File}
    (hfirst : StoreInv first transit) (hsecond : StoreInv second transit')
    (hcache : CacheInv second.store second.cache) (hrange : second.InRange)
    (hopen : first.isStop = false) {key : Bytes}
    (hprobe : StorageBuffer.ProbeFits key) :
    DataBase.getBetween key first second = some
      ((first.buffer.newest key).or (second.store.engine.lookup key)) := by
  obtain ⟨cache, hfiles, _⟩ := DataBase.getFiles_eq_lookup
    hsecond.engine.levels
    (fun file hfile => hsecond.engine.small hrange.2 (Or.inl hfile))
    hcache.cachedFor key
  rw [DataBase.getBetween, hopen, hfirst.handoff.get_eq hprobe]
  cases first.buffer.newest key with
  | some value => rfl
  | none => rw [hfiles]; rfl

theorem DataBase.cleared_event {act : Act} (hact : act ≠ .clear)
    (db : DataBase) : Event.cleared (event act db) = [] := by
  cases act with
  | clear => exact absurd rfl hact
  | add order key value =>
      simp only [event]
      split_ifs <;> rfl
  | write iter =>
      simp only [event]
      split <;> rfl
  | _ => rfl

/-- Every cleared buffer is in a file of the levels or in the flush thread's
file, and between `ClearFlushBuffer` and `AddFile` the latter has one. -/
structure ShownInv (past : List Event) (db : DataBase) : Prop where
  cleared : ∀ list ∈ Event.cleared past, ∃ file : File,
    file.Holds list.entries ∧ (file ∈ db.store.engine.files ∨
      (db.flushPc.Between ∧ db.store.transit = some file))
  between : db.flushPc.Between → ∃ list ∈ Event.cleared past,
    ∃ file, db.store.transit = some file ∧ file.Holds list.entries

namespace ShownInv

variable {past past' : List Event} {db db' : DataBase}

theorem congr (h : ShownInv past db)
    (hcleared : Event.cleared past' = Event.cleared past)
    (hfiles : ∀ file ∈ db.store.engine.files, file ∈ db'.store.engine.files)
    (hpc : db'.flushPc.Between ↔ db.flushPc.Between)
    (htransit : db.flushPc.Between →
      db'.store.transit = db.store.transit) : ShownInv past' db' := by
  constructor
  · rw [hcleared]
    intro list hlist
    obtain ⟨file, hholds, hfile | ⟨hbetween, hfile⟩⟩ := h.cleared list hlist
    · exact ⟨file, hholds, Or.inl (hfiles file hfile)⟩
    · exact ⟨file, hholds, Or.inr ⟨hpc.mpr hbetween,
        (htransit hbetween).trans hfile⟩⟩
  · intro hbetween
    rw [hcleared, htransit (hpc.mp hbetween)]
    exact h.between (hpc.mp hbetween)

/-- Every step but a compaction's update keeps cleared buffers where they
are. -/
theorem step (h : ShownInv past db) {transit : Option File}
    (hstore : StoreInv db transit) (hrange : db.InRange) {act : Act}
    (hstep : DataBase.step act db = some db') (hrange' : db'.InRange)
    (hact : act ≠ .update) :
    ShownInv (past ++ DataBase.event act db) db' := by
  have htransit := hstore.engine.transit_eq hrange.1
  have hcleared : act ≠ .clear → Event.cleared
      (past ++ DataBase.event act db) = Event.cleared past := fun hne => by
    rw [Event.cleared_append, DataBase.cleared_event hne, List.append_nil]
  cases DataBase.step_data hstep with
  | control hcontrol hsame =>
      refine h.congr (hcleared ?_) (fun file hfile => hsame.store ▸ hfile) ?_
        fun _ => by rw [hsame.store]
      · rintro rfl
        exact hcontrol
      · rcases hsame.pc with hpc | ⟨hidle, hidle'⟩
        · rw [hpc]
        · exact iff_of_false hidle'.not_between hidle.not_between
  | add _ _ =>
      exact h.congr (hcleared (by simp)) (fun _ => id) Iff.rfl fun _ => rfl
  | getFiles hget =>
      obtain ⟨cache, rfl⟩ := DataBase.getFiles_eq hget
      exact h.congr (hcleared (by simp)) (fun _ => id) Iff.rfl fun _ => rfl
  | clearCache =>
      exact h.congr (hcleared (by simp)) (fun _ => id) Iff.rfl fun _ => rfl
  | newFile hat hnew =>
      obtain ⟨_, _, _, hlevels, _⟩ := hstore.engine.newFile hnew hrange'.1
      have hnot : ¬ db.flushPc.Between := by rw [hat]; exact id
      refine h.congr (hcleared (by simp)) (fun file hfile => ?_)
        (iff_of_false id hnot) fun hbetween => absurd hbetween hnot
      rw [StorageEngine.files, hlevels]
      exact hfile
  | write hat hbytes hwrite =>
      obtain ⟨id, name, hflight, _, _⟩ := EngineState.write_eq hwrite
      obtain ⟨file, list, _, _, hstored, hlevel, hfileId, hmmap, _⟩ :=
        hstore.exists_written hbytes hrange.1 hflight
      obtain ⟨_, _, _, hlevels, _⟩ :=
        hstore.engine.write hflight hstored hlevel hfileId hmmap hwrite
      have hnot : ¬ db.flushPc.Between := by rw [hat]; exact not_false
      refine h.congr (hcleared (by simp)) (fun file hfile => ?_)
        (iff_of_false not_false hnot) fun hbetween => absurd hbetween hnot
      rw [StorageEngine.files, hlevels]
      exact hfile
  | clear hat _ =>
      have hwritten := hstore.written
      rw [DataBase.Written, hat] at hwritten
      obtain ⟨file, list, hfile, hlist, hholds, _⟩ := hwritten
      have hnow : db.store.transit = some file := htransit ▸ hfile
      have hcleared' : Event.cleared (past ++ DataBase.event .clear db) =
          Event.cleared past ++ [list] := by
        rw [Event.cleared_append]
        simp [DataBase.event, hlist, Event.cleared]
      constructor
      · rw [hcleared']
        intro other hother
        rcases List.mem_append.mp hother with hold | hother
        · obtain ⟨file', hholds', hfile' | ⟨hbetween, _⟩⟩ :=
            h.cleared other hold
          · exact ⟨file', hholds', Or.inl hfile'⟩
          · rw [hat] at hbetween
            exact absurd hbetween id
        · rw [List.mem_singleton] at hother
          exact ⟨file, hother ▸ hholds, Or.inr ⟨trivial, hnow⟩⟩
      · intro _
        rw [hcleared']
        exact ⟨list, by simp, file, hnow, hholds⟩
  | cacheSet hat _ =>
      exact h.congr (hcleared (by simp)) (fun _ => id)
        (by rw [hat]; exact Iff.rfl) fun _ => rfl
  | @addFile store _ hat hadd =>
      obtain ⟨file, hfile, _, _, _, hstate, _⟩ :=
        hstore.engine.addFile hrange.1 hadd
      subst hstate
      have hmem : ∀ other, other ∈
          (db.store.engine.installFile file).files ↔
            other = file ∨ other ∈ db.store.engine.files := fun other =>
        hstore.engine.levels.mem_files_installFile
      constructor
      · rw [hcleared (by simp)]
        intro list hlist
        obtain ⟨file', hholds, hfile' | ⟨_, hfile'⟩⟩ := h.cleared list hlist
        · exact ⟨file', hholds, Or.inl ((hmem file').mpr (Or.inr hfile'))⟩
        · rw [← htransit, hfile, Option.some.injEq] at hfile'
          exact ⟨file', hholds, Or.inl ((hmem file').mpr
            (Or.inl hfile'.symm))⟩
      · exact fun hbetween => absurd hbetween id
  | @compact _ store _ hcompacts hcompact =>
      obtain ⟨hafter, hsame⟩ := hstore.engine.compact hcompact hrange'.1
      refine h.congr (hcleared ?_) (fun file hfile => ?_) Iff.rfl fun _ => ?_
      · rintro rfl
        exact hcompacts
      · rw [StorageEngine.files, hsame.levelFiles]
        exact hfile
      · exact (hafter.transit_eq hrange'.1).symm.trans htransit
  | update _ => exact absurd rfl hact

end ShownInv

theorem shownInv_run {bufferSize : UInt32} {capacity limit : Nat}
    {hpos : 0 < capacity} {acts : List Act} {db : DataBase}
    (hrun : DataBase.Reaches DataBase.InRange
      (.start bufferSize (.empty capacity hpos) (.new limit)) acts db)
    (hacts : .update ∉ acts) : ShownInv (DataBase.history acts
      (.start bufferSize (.empty capacity hpos) (.new limit))) db := by
  induction hrun with
  | start _ =>
      exact ⟨fun list hlist => absurd hlist (by simp [DataBase.history,
        Event.cleared]), fun hbetween => absurd hbetween id⟩
  | step hbefore hstep hnext ih =>
      obtain ⟨⟨transit, hstore⟩, _⟩ := invariants_run hbefore
      rw [DataBase.history_snoc hbefore.run hstep]
      refine (ih fun hmem => hacts (List.mem_append_left _ hmem)).step hstore
        hbefore.last hstep hnext ?_
      rintro rfl
      exact hacts (by simp)

namespace DataBase

variable {bufferSize : UInt32} {capacity limit : Nat} {hpos : 0 < capacity}

/-- After a `Put` with no other write to its key the newest version is its
value. -/
theorem version_of_put {past since : List Act} {key value : Bytes}
    {db : DataBase} (hrun : Reaches InRange
      (.start bufferSize (.empty capacity hpos) (.new limit))
      (past ++ .add .put key value :: since) db)
    (hshort : ShortWrites (.add .put key value :: since))
    (hwrites : ∀ act ∈ since, act.writes key = none)
    (hlive : value ≠ tombValue ∨ .update ∉ since) :
    db.version key = some value := by
  obtain ⟨last, hpast, hrest⟩ := hrun.split
  obtain ⟨next, hstep, hsince⟩ := hrest.cons
  obtain ⟨hadd, hshort⟩ := (show ShortWrites
    ([.add .put key value] ++ since) from hshort).of_append
  obtain ⟨⟨transit, hstore⟩, _⟩ := invariants_run hpast
  have hnext : next.version key = some value :=
    ((hstore.carries hpast.last hstep hsince.first key).writes hadd).1 value
      (by simp [Act.writes, orderValue])
  exact version_between (hpast.step hstep hsince.first) hsince hshort hwrites
    hlive hnext

/-- Whether a `Get` after a `Put` returns its value. -/
theorem getBetween_eq_some_iff {past since between : List Act}
    {key value : Bytes} {first second : DataBase}
    (hrun : Reaches InRange
      (.start bufferSize (.empty capacity hpos) (.new limit))
      (past ++ .add .put key value :: since) first)
    (hbetween : Reaches InRange first between second)
    (hshort : ShortWrites (.add .put key value :: since ++ between))
    (hwrites : ∀ act ∈ since ++ between, act.writes key = none)
    (hopen : .shutDown ∉ past ++ since)
    (hlive : value ≠ tombValue ∨ .update ∉ since ++ between) :
    getBetween key first second = some (some value) ↔
      (first.buffer.newest key = none →
        (∃ hidden, second.Hidden (key, hidden)) →
          fileLayout.Reads {file | file ∈ second.store.engine.files} key
            value) := by
  obtain ⟨hshortSince, hshortBetween⟩ := hshort.of_append
  have hfirst : first.version key = some value :=
    version_of_put hrun hshortSince
      (fun act hact => hwrites act (List.mem_append_left _ hact))
      (hlive.imp_right fun hnot hmem => hnot (List.mem_append_left _ hmem))
  have hsecond : second.version key = some value :=
    version_between hrun hbetween hshortBetween
      (fun act hact => hwrites act (List.mem_append_right _ hact))
      (hlive.imp_right fun hnot hmem => hnot (List.mem_append_right _ hmem))
      hfirst
  obtain ⟨⟨transit, hstore⟩, _⟩ := invariants_run hrun
  obtain ⟨⟨transit', hstore'⟩, hcache⟩ := invariants_run (hrun.trans hbetween)
  have hstop : first.isStop = false :=
    isStop_between hrun fun hmem => hopen (by simpa using hmem)
  have hprobe : StorageBuffer.ProbeFits key := probeFits_of_mem hrun.run
    (hshort .put key value (by simp)).1
    (List.mem_append_right _ List.mem_cons_self)
  rw [getBetween_eq hstore hstore' hcache hbetween.last hstop hprobe,
    ← hstore'.engine.levels.searchable.lookup_eq_some_iff]
  cases hnewest : first.buffer.newest key with
  | some newest =>
      rw [version, hnewest, Option.some_or] at hfirst
      simp [hfirst]
  | none =>
      have hnewest' := newest_between hrun hbetween hshortBetween
        (fun act hact => hwrites act (List.mem_append_right _ hact)) hnewest
      by_cases hhidden : ∃ hidden, second.Hidden (key, hidden)
      · simp [hhidden]
      · have hlookup := hstore'.version_eq_lookup hbetween.last hnewest'
          fun hidden hat => hhidden ⟨hidden, hat⟩
        simp [hhidden, ← hlookup, hsecond]

/-- Whether every entry of the swapped buffers can be found. -/
theorem swapped_shows_iff {acts : List Act} {db : DataBase}
    (hrun : Reaches InRange
      (.start bufferSize (.empty capacity hpos) (.new limit)) acts db)
    (hacts : .update ∉ acts) :
    (∀ list ∈ Event.swapped (history acts
        (.start bufferSize (.empty capacity hpos) (.new limit))),
      ∀ entry ∈ list.entries, db.Shows entry) ↔
      ∀ entry, db.Hidden entry → db.Installed entry := by
  have hshown := shownInv_run hrun hacts
  have hhistory := historyInv_run hrun.run
  obtain ⟨⟨transit, hstore⟩, _⟩ := invariants_run hrun
  have hsmall : ∀ file, db.store.transit = some file → file.Small := by
    intro file hfile
    rw [← hstore.engine.transit_eq hrun.last.1] at hfile
    exact hstore.engine.small_transit hrun.last.2 hfile
  rw [hhistory.swapped]
  constructor
  · rintro hall ⟨key, value⟩ ⟨hbetween, file, hfile, hget⟩
    obtain ⟨list, hlist, file', hfile', hholds⟩ := hshown.between hbetween
    rw [hfile, Option.some.injEq] at hfile'
    subst hfile'
    rw [hholds.get_eq_find (hsmall file hfile)] at hget
    rcases hall list (List.mem_append_left _ hlist) (key, value)
      (mem_of_find_eq_some hget) with ⟨waiting, hwaiting, _⟩ | hinstalled
    · have hpc := hstore.handoff.pc
      generalize db.flushPc = pc at hpc hbetween
      cases pc <;> simp_all [PcInv, FlushPc.Between]
    · exact hinstalled
  · intro hall list hlist entry hentry
    rcases List.mem_append.mp hlist with hcleared | hwaiting
    · obtain ⟨file, hholds, hfile⟩ := hshown.cleared list hcleared
      have hfind := hholds.increasing.find_eq_some_iff.mpr hentry
      rcases hfile with hfile | ⟨hbetween, hfile⟩
      · refine Or.inr ⟨file, hfile, ?_⟩
        rw [hholds.get_eq_find (hstore.engine.small hrun.last.2
          (Or.inl hfile)), hfind]
      · refine Or.inr (hall entry ⟨hbetween, file, hfile, ?_⟩)
        rw [hholds.get_eq_find (hsmall file hfile), hfind]
    · exact Or.inl ⟨list, by simpa using hwaiting, hentry⟩

/-- In every run without `ShutDown`: a `Get` that starts after a `Put` and ends
before another write to its key returns the value put, unless it misses the key
in the buffers and looks at the files while the flush thread, between
`ClearFlushBuffer` and `AddFile`, has the key in its file; and outside that
window every entry of every swapped buffer can be found. -/
theorem visible_iff_not_hidden (bufferSize : UInt32) (capacity limit : Nat)
    (hpos : 0 < capacity) :
    (∀ (past since between : List Act) (key value : Bytes)
        (first second : DataBase),
      Reaches InRange (.start bufferSize (.empty capacity hpos) (.new limit))
        (past ++ .add .put key value :: since) first →
      Reaches InRange first between second →
      ShortWrites (.add .put key value :: since ++ between) →
      (∀ act ∈ since ++ between, act.writes key = none) →
      .shutDown ∉ past ++ since →
      (value ≠ tombValue ∨ .update ∉ since ++ between) →
      (getBetween key first second = some (some value) ↔
        (first.buffer.newest key = none →
          (∃ hidden, second.Hidden (key, hidden)) →
            fileLayout.Reads {file | file ∈ second.store.engine.files} key
              value))) ∧
    ∀ (acts : List Act) (db : DataBase),
      Reaches InRange (.start bufferSize (.empty capacity hpos) (.new limit))
        acts db →
      .update ∉ acts →
      ((∀ list ∈ Event.swapped (history acts
          (.start bufferSize (.empty capacity hpos) (.new limit))),
        ∀ entry ∈ list.entries, db.Shows entry) ↔
        ∀ entry, db.Hidden entry → db.Installed entry) :=
  ⟨fun _ _ _ _ _ _ _ hrun hbetween hshort hwrites hopen hlive =>
      getBetween_eq_some_iff hrun hbetween hshort hwrites hopen hlive,
    fun _ _ hrun hacts => swapped_shows_iff hrun hacts⟩

/-- The flush thread becomes ready. -/
def untilReady : List Act :=
  [.flushLoop, .setIdle]

/-- The rest of a flush after the `Put` that fills the buffer, up to
`ClearFlushBuffer`. -/
def untilClear : List Act :=
  [.addNotify, .flushTest, .flushCheck, .newFile, .write .inOrder, .clear]

/-- The same up to `AddFile`. -/
def untilAdded : List Act :=
  untilClear ++ [.cacheSet, .addFile]

theorem visible_iff_not_hidden_one_flush :
    ∃ db, Reaches InRange tiny
        (untilReady ++ .add .put [97] [1] :: untilAdded) db ∧
      getBetween [97] db db = some (some [1]) ∧
      ∀ list ∈ Event.swapped (history
          (untilReady ++ .add .put [97] [1] :: untilAdded) tiny),
        ∀ entry ∈ list.entries, db.Shows entry := by
  obtain ⟨db, hrun, hpc⟩ := exists_reaches
    (show Along (fun db _ => db.InRange)
      (untilReady ++ .add .put [97] [1] :: untilAdded) tiny by decide +kernel)
    (show (run (untilReady ++ .add .put [97] [1] :: untilAdded) tiny).any
      (fun db => decide (db.InRange ∧ db.flushPc = .loop)) = true by
      decide +kernel)
  have hshown : ∀ entry, ¬ db.Hidden entry := by
    rintro entry ⟨hbetween, _⟩
    rw [hpc] at hbetween
    exact hbetween
  obtain ⟨hget, hlists⟩ := visible_iff_not_hidden 0 1 1 (by decide)
  refine ⟨db, hrun, (hget untilReady untilAdded [] [97] [1] db db hrun
    (.start hrun.last) ?_ ?_ ?_ ?_).mpr
      fun _ ⟨hidden, hat⟩ => absurd hat (hshown _),
    (hlists _ db hrun ?_).mpr fun entry hat => absurd hat (hshown entry)⟩
  · intro order name value hmem
    simp only [untilAdded, untilClear, List.mem_append, List.mem_cons,
      Act.add.injEq, List.not_mem_nil, reduceCtorEq, or_false] at hmem
    rw [hmem.2.1, hmem.2.2]
    decide
  · decide
  · simp [untilReady, untilAdded, untilClear]
  · exact Or.inl (by decide)
  · simp [untilReady, untilAdded, untilClear]

/-- A `Get` between `ClearFlushBuffer` and `AddFile` misses the key, and so
does every other look at the flush buffer and the files. -/
theorem get_misses_cleared_key :
    ∃ db, Reaches InRange tiny
        (untilReady ++ .add .put [97] [1] :: untilClear) db ∧
      (∀ act ∈ untilClear, act.writes [97] = none) ∧
      getBetween [97] db db = some none ∧
      ∃ list ∈ Event.swapped (history
          (untilReady ++ .add .put [97] [1] :: untilClear) tiny),
        ([97], [1]) ∈ list.entries ∧ ¬ db.Shows ([97], [1]) := by
  obtain ⟨db, hrun, hget, hflush, hfiles⟩ := exists_reaches
    (show Along (fun db _ => db.InRange)
      (untilReady ++ .add .put [97] [1] :: untilClear) tiny by
      decide +kernel)
    (show (run (untilReady ++ .add .put [97] [1] :: untilClear)
      tiny).any (fun db => decide (db.InRange ∧
        getBetween [97] db db = some none ∧ db.buffer.flushBuffer = none ∧
        db.store.engine.files = [])) = true by decide +kernel)
  obtain ⟨list, hswapped, hentry⟩ : ∃ list ∈ Event.swapped (history
      (untilReady ++ .add .put [97] [1] :: untilClear) tiny),
      ([97], [1]) ∈ list.entries := by decide +kernel
  refine ⟨db, hrun, by decide, hget, list, hswapped, hentry, ?_⟩
  rintro (⟨list, hlist, _⟩ | ⟨file, hfile, _⟩)
  · simp [hflush] at hlist
  · simp [hfiles] at hfile

end DataBase

end SimpleKV
