/-
Two runs of the store with the same operations and keys, in which corresponding
values have equal lengths and are tombstones together: after every step the two
stores differ in the bytes of values only.
-/
import SimpleKV.StateOutlines

namespace SimpleKV

open SortedAssoc

/-- What the income buffer gets as a value. -/
def storedValue (order : OrderType) (value : Bytes) : Bytes :=
  (ByteArray.ofString (DataBase.orderValue order value)).data

/-- The same step, up to the bytes of a written value. -/
inductive Act.SameButValue : Act → Act → Prop where
  | add (order : OrderType) (key : Bytes) {value value' : Bytes} :
      value.length = value'.length →
      SameButValue (.add order key value) (.add order key value')
  | refl (act : Act) : SameButValue act act

/-- Either both steps write a tombstone or neither does. -/
def Act.TombTogether : Act → Act → Prop
  | .add order _ value, .add order' _ value' =>
      storedValue order value = tombValue ↔
        storedValue order' value' = tombValue
  | _, _ => True

theorem shape_storedValue (order : OrderType) {value value' : Bytes}
    (hlength : value.length = value'.length)
    (htomb : storedValue order value = tombValue ↔
      storedValue order value' = tombValue) :
    shape (storedValue order value) = shape (storedValue order value') := by
  have hsize : (storedValue order value).length =
      (storedValue order value').length := by
    simp only [storedValue, ByteArray.ofString, DataBase.orderValue]
    split_ifs
    · rfl
    · rw [List.length_take, List.length_take, hlength]
  rw [shape, shape, hsize, decide_eq_decide.mpr htomb]

theorem StoreInv.at_transit {db : DataBase} {transit : Option File}
    (h : StoreInv db transit) (hids : db.IdsFit) :
    StoreInv db db.store.transit := by
  rw [← h.engine.transit_eq hids]
  exact h

/-- Two stores that differ in the bytes of values only. -/
structure StoreAlike (db db' : DataBase) : Prop where
  buffer : BufferAlike db.buffer db'.buffer
  store : StateAlike db.store db'.store
  transit : Option.Rel Alike db.store.transit db'.store.transit
  isStop : db.isStop = db'.isStop

namespace StoreAlike

variable {db db' next next' : DataBase}

/-- Steps that leave engine and buffers alone. -/
theorem quiet (h : StoreAlike db db') (hbuffer : next.buffer = db.buffer)
    (hstore : next.store = db.store) (hstop : next.isStop = db.isStop)
    (hbuffer' : next'.buffer = db'.buffer)
    (hstore' : next'.store = db'.store) (hstop' : next'.isStop = db'.isStop) :
    StoreAlike next next' := by
  refine ⟨?_, ?_, ?_, ?_⟩
  · rw [hbuffer, hbuffer']
    exact h.buffer
  · rw [hstore, hstore']
    exact h.store
  · rw [hstore, hstore']
    exact h.transit
  · rw [hstop, hstop', h.isStop]

theorem control (h : StoreAlike db db') {act : Act} (hact : act.Control)
    (hcheck : act ≠ .compactCheck) (hstep : DataBase.step act db = some next)
    (hstep' : DataBase.step act db' = some next') : StoreAlike next next' := by
  obtain ⟨hstore, heffect⟩ := DataBase.control_eq hact hcheck hstep
  obtain ⟨hstore', heffect'⟩ := DataBase.control_eq hact hcheck hstep'
  have hbuffer : BufferAlike next.buffer next'.buffer ∧
      next.isStop = next'.isStop := by
    rw [show next.buffer = _ from congrArg Prod.fst heffect,
      show next.isStop = _ from congrArg Prod.snd heffect,
      show next'.buffer = _ from congrArg Prod.fst heffect',
      show next'.isStop = _ from congrArg Prod.snd heffect']
    cases act with
    | setIdle => exact ⟨h.buffer.setFlushThreadIdle, h.isStop⟩
    | shutDown => exact ⟨h.buffer, rfl⟩
    | _ => exact ⟨h.buffer, h.isStop⟩
  refine ⟨hbuffer.1, ?_, ?_, hbuffer.2⟩
  · rw [hstore, hstore']
    exact h.store
  · rw [hstore, hstore']
    exact h.transit

/-- Steps of a compaction leave the flush thread's file alone. -/
theorem ofStore (h : StoreAlike db db')
    {store store' : EngineState} (halike : StateAlike store store')
    (hinv : EngineInv store db.store.transit)
    (hinv' : EngineInv store' db'.store.transit)
    (hids : store.engine.fileId < 10 ^ 8)
    (hids' : store'.engine.fileId < 10 ^ 8) {compactPc compactPc' : CompactPc} :
    StoreAlike { db with store, compactPc }
      { db' with store := store', compactPc := compactPc' } := by
  refine ⟨h.buffer, halike, ?_, h.isStop⟩
  simp only
  rw [← hinv.transit_eq hids, ← hinv'.transit_eq hids']
  exact h.transit

/-- Writes of values of one shape. -/
theorem add (h : StoreAlike db db') (hinv : StoreInv db db.store.transit)
    (hinv' : StoreInv db' db'.store.transit) {order : OrderType}
    {key value value' : Bytes}
    (hshape : shape (storedValue order value) =
      shape (storedValue order value'))
    (hstep : DataBase.step (.add order key value) db = some next)
    (hstep' : DataBase.step (.add order key value') db' = some next') :
    StoreAlike next next' := by
  obtain ⟨buffer, notifying, _, hadd, rfl⟩ := DataBase.step_add hstep
  obtain ⟨buffer', notifying', _, hadd', rfl⟩ := DataBase.step_add hstep'
  exact ⟨h.buffer.add hinv.handoff.income hinv'.handoff.income hshape hadd
    hadd', h.store, h.transit, h.isStop⟩

/-- `FlushBuffer` writes alike files. -/
theorem write (h : StoreAlike db db') (hinv : StoreInv db db.store.transit)
    (hinv' : StoreInv db' db'.store.transit) {iter : IterOrder}
    {bytes bytes' : Bytes} {keyOffset keyOffset' : KeyOffset}
    {store store' : EngineState}
    (hbytes : db.buffer.writeFlushBuffer iter = some (bytes, keyOffset))
    (hbytes' : db'.buffer.writeFlushBuffer iter = some (bytes', keyOffset'))
    (hstore : db.store.write bytes = some store)
    (hstore' : db'.store.write bytes' = some store')
    (hrange : DataBase.InRange
      { db with store, flushPc := .clear keyOffset })
    (hrange' : DataBase.InRange
      { db' with store := store', flushPc := .clear keyOffset' }) :
    Option.Rel Alike store.transit store'.transit := by
  obtain ⟨id, name, hflight, _, hid⟩ := EngineState.write_eq hstore
  obtain ⟨id', name', hflight', _, hid'⟩ := EngineState.write_eq hstore'
  have hsame := h.store.flight
  rw [hflight, hflight', Flight.created.injEq] at hsame
  have hids : store.engine.fileId < 10 ^ 8 := hrange.1
  have hids' : store'.engine.fileId < 10 ^ 8 := hrange'.1
  have hidsOld : db.IdsFit := by
    unfold DataBase.IdsFit
    omega
  have hidsOld' : db'.IdsFit := by
    unfold DataBase.IdsFit
    omega
  obtain ⟨file, list, hlist, hholds, hstored, hlevel, hfileId, hmmap, _⟩ :=
    hinv.exists_written hbytes hidsOld hflight
  obtain ⟨file', list', hlist', hholds', hstored', hlevel', hfileId', hmmap',
    _⟩ := hinv'.exists_written hbytes' hidsOld' hflight'
  have hafter := (hinv.engine.write hflight hstored hlevel hfileId hmmap
    hstore).1
  have hafter' := (hinv'.engine.write hflight' hstored' hlevel' hfileId'
    hmmap' hstore').1
  have houtline := h.buffer.flushBuffer
  rw [hlist, hlist', Option.map_some, Option.map_some, Option.some.injEq]
    at houtline
  rw [← hafter.transit_eq hids, ← hafter'.transit_eq hids']
  refine Option.Rel.some (Alike.of_holds hholds
    (hafter.small_transit hrange.2 rfl) hholds'
    (hafter'.small_transit hrange'.2 rfl) (hlevel.trans hlevel'.symm) ?_
    houtline)
  rw [hfileId, hfileId', hsame.1]

/-- A step of the engine alone, as a compaction makes it. -/
theorem onStore (h : StoreAlike db db')
    {f : EngineState → Option EngineState}
    (hstep : db.onStore f = some next) (hstep' : db'.onStore f = some next')
    (hkeeps : ∀ store, f db.store = some store →
      store.engine.fileId < 10 ^ 8 → EngineInv store db.store.transit)
    (hkeeps' : ∀ store, f db'.store = some store →
      store.engine.fileId < 10 ^ 8 → EngineInv store db'.store.transit)
    (halike : f db.store = some next.store → f db'.store = some next'.store →
      StateAlike next.store next'.store)
    (hnext : next.InRange) (hnext' : next'.InRange) :
    StoreAlike next next' := by
  unfold DataBase.onStore at hstep hstep'
  obtain ⟨store, hstore, rfl⟩ := Option.map_eq_some_iff.mp hstep
  obtain ⟨store', hstore', rfl⟩ := Option.map_eq_some_iff.mp hstep'
  exact h.ofStore (halike hstore hstore') (hkeeps store hstore hnext.1)
    (hkeeps' store' hstore' hnext'.1) hnext.1 hnext'.1

theorem compactCheck (h : StoreAlike db db')
    (hinv : StoreInv db db.store.transit)
    (hinv' : StoreInv db' db'.store.transit)
    (hstep : DataBase.step .compactCheck db = some next)
    (hstep' : DataBase.step .compactCheck db' = some next')
    (hnext : next.InRange) (hnext' : next'.InRange) :
    StoreAlike next next' := by
  simp only [DataBase.step] at hstep hstep'
  split at hstep
  · split at hstep'
    · by_cases hstop : db.isStop = true
      · rw [if_pos hstop] at hstep
        rw [if_pos (h.isStop ▸ hstop)] at hstep'
        rw [← Option.some.inj hstep, ← Option.some.inj hstep']
        exact h.quiet rfl rfl rfl rfl rfl rfl
      · rw [if_neg hstop] at hstep
        rw [if_neg (h.isStop ▸ hstop)] at hstep'
        obtain ⟨store, hcall, hdb⟩ := Option.bind_eq_some_iff.mp hstep
        obtain ⟨store', hcall', hdb'⟩ := Option.bind_eq_some_iff.mp hstep'
        rw [Option.some.injEq] at hdb hdb'
        subst hdb hdb'
        exact h.ofStore (h.store.call hcall hcall') (hinv.engine.call hcall).1
          (hinv'.engine.call hcall').1 hnext.1 hnext'.1
    · cases hstep'
  · cases hstep

/-- Corresponding steps keep two stores alike. -/
theorem step (h : StoreAlike db db') (hinv : StoreInv db db.store.transit)
    (hinv' : StoreInv db' db'.store.transit) (hids : db.IdsFit)
    (hids' : db'.IdsFit) {act act' : Act} (hsame : act.SameButValue act')
    (htomb : act.TombTogether act')
    (hstep : DataBase.step act db = some next)
    (hstep' : DataBase.step act' db' = some next') (hnext : next.InRange)
    (hnext' : next'.InRange) : StoreAlike next next' := by
  cases hsame with
  | add order key hlength =>
      exact h.add hinv hinv' (shape_storedValue order hlength htomb) hstep
        hstep'
  | refl =>
      cases act with
      | add order key value => exact h.add hinv hinv' rfl hstep hstep'
      | getFiles key =>
          simp only [DataBase.step, Option.map_eq_some_iff] at hstep hstep'
          obtain ⟨⟨value, last⟩, hget, rfl⟩ := hstep
          obtain ⟨⟨value', last'⟩, hget', rfl⟩ := hstep'
          obtain ⟨cache, rfl⟩ := DataBase.getFiles_eq hget
          obtain ⟨cache', rfl⟩ := DataBase.getFiles_eq hget'
          exact h.quiet rfl rfl rfl rfl rfl rfl
      | clearCache =>
          simp only [DataBase.step, Option.some.injEq] at hstep hstep'
          rw [← hstep, ← hstep']
          exact h.quiet rfl rfl rfl rfl rfl rfl
      | newFile =>
          obtain ⟨store, hstore, rfl⟩ := DataBase.step_newFile hstep
          obtain ⟨store', hstore', rfl⟩ := DataBase.step_newFile hstep'
          refine ⟨h.buffer, h.store.newFile hstore hstore', ?_, h.isStop⟩
          simp only [EngineState.transit, (EngineState.newFile_eq hstore).2.1,
            (EngineState.newFile_eq hstore').2.1]
          exact Option.Rel.none
      | write iter =>
          obtain ⟨bytes, keyOffset, store, hbytes, hstore, rfl⟩ :=
            DataBase.step_write hstep
          obtain ⟨bytes', keyOffset', store', hbytes', hstore', rfl⟩ :=
            DataBase.step_write hstep'
          exact ⟨h.buffer, h.store.write hstore hstore',
            h.write hinv hinv' hbytes hbytes' hstore hstore' hnext hnext',
            h.isStop⟩
      | clear =>
          obtain ⟨keyOffset, rfl⟩ := DataBase.step_clear hstep
          obtain ⟨keyOffset', rfl⟩ := DataBase.step_clear hstep'
          exact ⟨h.buffer.clearFlushBuffer, h.store, h.transit, h.isStop⟩
      | cacheSet =>
          obtain ⟨cache, rfl⟩ := DataBase.step_cacheSet hstep
          obtain ⟨cache', rfl⟩ := DataBase.step_cacheSet hstep'
          exact h.quiet rfl rfl rfl rfl rfl rfl
      | addFile =>
          obtain ⟨store, compactPc, hstore, rfl⟩ := DataBase.step_addFile hstep
          obtain ⟨store', compactPc', hstore', rfl⟩ :=
            DataBase.step_addFile hstep'
          refine ⟨h.buffer, h.store.addFile hinv.engine hinv'.engine h.transit
            hids hids' hstore hstore', ?_, h.isStop⟩
          simp only [EngineState.transit, (EngineState.addFile_eq hstore).1,
            (EngineState.addFile_eq hstore').1]
          exact Option.Rel.none
      | compactCheck =>
          exact h.compactCheck hinv hinv' hstep hstep' hnext hnext'
      | call level =>
          exact h.onStore hstep hstep' (fun _ hcall _ =>
            (hinv.engine.call hcall).1) (fun _ hcall _ =>
            (hinv'.engine.call hcall).1) h.store.call hnext hnext'
      | select =>
          exact h.onStore hstep hstep' (fun _ hselect _ =>
            (hinv.engine.select hselect).1) (fun _ hselect _ =>
            (hinv'.engine.select hselect).1) h.store.select hnext hnext'
      | merge queue iter =>
          simp only [DataBase.step, h.buffer.bufferSize] at hstep hstep'
          refine h.onStore hstep hstep' (fun _ hmerge htop =>
            (hinv.engine.merge hmerge htop).1) (fun _ hmerge htop =>
            (hinv'.engine.merge hmerge htop).1) (fun hmerge hmerge' => ?_)
            hnext hnext'
          refine h.store.merge hinv.engine hinv'.engine hmerge hmerge' hnext.1
            hnext'.1 (fun file hfile => ?_) fun file hfile => ?_
          · exact (hinv.engine.merge hmerge hnext.1).1.small hnext.2
              (Or.inr hfile)
          · exact (hinv'.engine.merge hmerge' hnext'.1).1.small hnext'.2
              (Or.inr hfile)
      | update =>
          refine h.onStore hstep hstep' (fun _ hupdate _ => ?_)
            (fun _ hupdate _ => ?_) h.store.update hnext hnext'
          · obtain ⟨_, _, _, _, _, _, _, hafter⟩ := hinv.engine.update hupdate
            exact hafter
          · obtain ⟨_, _, _, _, _, _, _, hafter⟩ := hinv'.engine.update hupdate
            exact hafter
      | remove =>
          exact h.onStore hstep hstep' (fun _ hremove _ =>
            (hinv.engine.remove hids hremove).1) (fun _ hremove _ =>
            (hinv'.engine.remove hids' hremove).1) h.store.remove hnext hnext'
      | finish =>
          exact h.onStore hstep hstep' (fun _ hfinish _ =>
            (hinv.engine.finish hfinish).1) (fun _ hfinish _ =>
            (hinv'.engine.finish hfinish).1) h.store.finish hnext hnext'
      | _ =>
          refine h.control ?_ ?_ hstep hstep'
          · trivial
          · simp

/-- A store is like itself. -/
theorem refl {transit : Option File} (hinv : StoreInv db transit) :
    StoreAlike db db := by
  refine ⟨⟨rfl, rfl, rfl, rfl, rfl⟩, ⟨.refl _, rfl, rfl, ?_⟩, ?_, rfl⟩
  · have hphase := hinv.engine.phase
    generalize db.store.phase = phase at hphase
    cases phase with
    | ready => exact .ready
    | selected level files => exact .selected level (filesAlike_refl files)
    | merged level files compacted needRemoveFile =>
        exact .merged level needRemoveFile (filesAlike_refl files)
          (filesAlike_refl compacted)
    | removing level files => exact .removing level (filesAlike_refl files)
    | merging level files merge =>
        obtain ⟨_, rest, _, _, hreading, _⟩ := hphase
        exact .merging level (filesAlike_refl files)
          ⟨⟨rfl, rfl, rfl, rfl, filesAlike_refl _⟩, rest, rest, hreading,
            hreading, fun _ => rfl, List.Perm.refl _⟩
  · cases db.store.transit with
    | none => exact Option.Rel.none
    | some file => exact Option.Rel.some (.refl file)

end StoreAlike

/-- Runs with corresponding acts, tombstones included. -/
def Corresponds (acts acts' : List Act) : Prop :=
  List.Forall₂ (fun act act' => act.SameButValue act' ∧ act.TombTogether act')
    acts acts'

theorem forall₂_snoc {A : Type} {R : A → A → Prop} {xs ys : List A} {x : A}
    (h : List.Forall₂ R (xs ++ [x]) ys) :
    ∃ before y, ys = before ++ [y] ∧ List.Forall₂ R xs before ∧ R x y := by
  induction xs generalizing ys with
  | nil =>
      cases h with
      | cons hxy hrest =>
          cases hrest
          exact ⟨[], _, rfl, List.Forall₂.nil, hxy⟩
  | cons head xs ih =>
      cases h with
      | cons hhead hrest =>
          obtain ⟨before, y, rfl, hbefore, hxy⟩ := ih hrest
          exact ⟨_ :: before, y, rfl, List.Forall₂.cons hhead hbefore, hxy⟩

/-- Corresponding runs from one state keep the stores alike. -/
theorem storeAlike_reaches {first db db' : DataBase} {transit : Option File}
    (hfirst : StoreInv first transit) {acts acts' : List Act}
    (hacts : Corresponds acts acts')
    (hrun : DataBase.Reaches DataBase.InRange first acts db)
    (hrun' : DataBase.Reaches DataBase.InRange first acts' db') :
    StoreAlike db db' := by
  induction hrun generalizing acts' db' with
  | start _ =>
      cases hacts
      generalize hnil : ([] : List Act) = acts at hrun'
      cases hrun' with
      | start _ => exact .refl hfirst
      | step _ _ _ => simp at hnil
  | step hbefore hstep hnext ih =>
      obtain ⟨earlier, act', rfl, hearlier, hsame, htomb⟩ := forall₂_snoc hacts
      obtain ⟨last', hlast', hstep'⟩ := hrun'.snoc
      obtain ⟨_, hinv⟩ := hfirst.reaches (fun _ hrange => hrange.1) hbefore
      obtain ⟨_, hinv'⟩ := hfirst.reaches (fun _ hrange => hrange.1) hlast'
      exact (ih hearlier hlast').step (hinv.at_transit hbefore.last.1)
        (hinv'.at_transit hlast'.last.1) hbefore.last.1 hlast'.last.1 hsame
        htomb hstep hstep' hnext hrun'.last

namespace DataBase

/-- The status of a `Get` that returned. -/
def status (result : Option (Option Bytes × DataBase)) : Option Bool :=
  result.map fun found => found.1.isSome

/-- Every `Get`, and either half of it, has the same status in both stores, and
the levels have the same files with the same keys. -/
structure SameView (db db' : DataBase) : Prop where
  buffer : ∀ key, (db.buffer.get key).map Option.isSome =
    (db'.buffer.get key).map Option.isSome
  files : ∀ key, status (db.getFiles key) = status (db'.getFiles key)
  get : ∀ key, status (db.get key) = status (db'.get key)
  levels : ∀ level, List.Forall₂ (fun file other =>
      file.fileName = other.fileName ∧
        file.scan.map Prod.fst = other.scan.map Prod.fst)
    (db.store.engine.level level) (db'.store.engine.level level)

end DataBase

/-- The plain search finds the keys that occur in some file. -/
theorem StorageEngine.isSome_plainSearch (engine : StorageEngine)
    (key : Bytes) :
    (engine.plainSearch key).isSome = true ↔
      key ∈ engine.files.flatMap fun file => file.scan.map Prod.fst := by
  rw [Option.isSome_iff_ne_none, plainSearch, ne_eq, find_eq_none_iff,
    not_not, List.map_flatMap, List.mem_flatMap, List.mem_flatMap]
  exact exists_congr fun file => and_congr_left' Searchable.mem_scanOrder

theorem Alike.fileName {file other : File} (h : Alike file other)
    {top top' : Int} (hstored : file.Stored top)
    (hstored' : other.Stored top') : file.fileName = other.fileName := by
  rw [hstored.name, hstored'.name, h.levelId, h.fileId]

namespace StoreAlike

variable {db db' : DataBase}

/-- The file part of `Get` finds a key in both stores or in neither. -/
theorem getFiles (h : StoreAlike db db')
    (hinv : StoreInv db db.store.transit) (hcache : CacheInv db.store db.cache)
    (hrange : db.InRange) (hinv' : StoreInv db' db'.store.transit)
    (hcache' : CacheInv db'.store db'.cache) (hrange' : db'.InRange)
    (key : Bytes) :
    DataBase.status (db.getFiles key) = DataBase.status (db'.getFiles key) := by
  obtain ⟨cache, hfiles, _⟩ := DataBase.getFiles_eq_lookup hinv.engine.levels
    (fun file hfile => hinv.engine.small hrange.2 (Or.inl hfile))
    hcache.cachedFor key
  obtain ⟨cache', hfiles', _⟩ := DataBase.getFiles_eq_lookup
    hinv'.engine.levels
    (fun file hfile => hinv'.engine.small hrange'.2 (Or.inl hfile))
    hcache'.cachedFor key
  have hfound : (db.store.engine.lookup key).isSome =
      (db'.store.engine.lookup key).isSome := by
    rw [hinv.engine.levels.searchable.lookup_eq_plainSearch,
      hinv'.engine.levels.searchable.lookup_eq_plainSearch, Bool.eq_iff_iff,
      StorageEngine.isSome_plainSearch, StorageEngine.isSome_plainSearch,
      h.store.engine.keys]
  rw [hfiles, hfiles']
  exact congrArg some hfound

/-- Alike stores show the same to their clients. -/
theorem sameView (h : StoreAlike db db')
    (hinv : StoreInv db db.store.transit) (hcache : CacheInv db.store db.cache)
    (hrange : db.InRange) (hinv' : StoreInv db' db'.store.transit)
    (hcache' : CacheInv db'.store db'.cache) (hrange' : db'.InRange) :
    DataBase.SameView db db' := by
  have hbuffer : ∀ key, (db.buffer.get key).map Option.isSome =
      (db'.buffer.get key).map Option.isSome := by
    intro key
    exact h.buffer.get hinv.handoff.income hinv'.handoff.income
      (fun list hlist => (hinv.handoff.flushing list hlist).1)
      (fun list hlist => (hinv'.handoff.flushing list hlist).1) key
  have hfiles := h.getFiles hinv hcache hrange hinv' hcache' hrange'
  refine ⟨hbuffer, hfiles, fun key => ?_, fun level => ?_⟩
  · have hkey := hbuffer key
    have hrest := hfiles key
    rw [DataBase.get, DataBase.get, h.isStop]
    cases db'.isStop with
    | true => rfl
    | false =>
        cases hone : db.buffer.get key with
        | none =>
            rw [hone, Option.map_none, eq_comm, Option.map_eq_none_iff] at hkey
            rw [hkey]
            rfl
        | some found =>
            rw [hone, Option.map_some, eq_comm, Option.map_eq_some_iff] at hkey
            obtain ⟨found', htwo, hsame⟩ := hkey
            rw [htwo]
            cases found <;> cases found'
            · exact hrest
            · cases hsame
            · cases hsame
            · rfl
  · apply forall₂_imp_of_mem (h.store.engine.level level)
    intro file hfile other hother halike
    have hstored := hinv.engine.levels.stored file
      (StorageEngine.mem_files.mpr ⟨level, hfile⟩)
    have hstored' := hinv'.engine.levels.stored other
      (StorageEngine.mem_files.mpr ⟨level, hother⟩)
    exact ⟨halike.fileName hstored hstored', halike.keys⟩

end StoreAlike

namespace DataBase

/-- Two runs from one state of a store's life that take the same steps, up to
the bytes of written values: if corresponding values have equal lengths and are
tombstones together, the stores reached show the same.  Every beginning of such
runs is such a pair of runs, so they show the same after every step. -/
theorem sameView_of_corresponds {first db db' : DataBase} (hlife : first.Life)
    {acts acts' : List Act} (hacts : Corresponds acts acts')
    (hrun : Reaches InRange first acts db)
    (hrun' : Reaches InRange first acts' db') : SameView db db' := by
  obtain ⟨⟨transit, hfirst⟩, hempty⟩ := hlife.invariants
  obtain ⟨⟨_, hinv⟩, hcache⟩ := invariants_reaches ⟨transit, hfirst⟩ hempty hrun
  obtain ⟨⟨_, hinv'⟩, hcache'⟩ :=
    invariants_reaches ⟨transit, hfirst⟩ hempty hrun'
  have halike := storeAlike_reaches hfirst hacts hrun hrun'
  exact halike.sameView (hinv.at_transit hrun.last.1) hcache hrun.last
    (hinv'.at_transit hrun'.last.1) hcache' hrun'.last

/-- Two versions of one key, merged into one file. -/
def mergedVersions (older newer : Bytes) : List Act :=
  writeAndFlush .put [97] older ++ writeAndFlush .put [97] newer ++
    compaction 0 fourMerges

/-- Runs that merge other versions take related steps. -/
theorem forall₂_mergedVersions {R : Act → Act → Prop} (hrefl : ∀ act, R act act)
    {older newer older' newer' : Bytes}
    (holder : R (.add .put [97] older) (.add .put [97] older'))
    (hnewer : R (.add .put [97] newer) (.add .put [97] newer')) :
    List.Forall₂ R (mergedVersions older newer)
      (mergedVersions older' newer') := by
  have hsame : ∀ acts, List.Forall₂ R acts acts := fun acts =>
    List.forall₂_same.mpr fun act _ => hrefl act
  have hwrite : ∀ {value value' : Bytes},
      R (.add .put [97] value) (.add .put [97] value') →
        List.Forall₂ R (writeAndFlush .put [97] value)
          (writeAndFlush .put [97] value') := by
    intro value value' hvalue
    exact List.rel_append (hsame [.flushLoop, .setIdle])
      (List.Forall₂.cons hvalue (hsame _))
  exact List.rel_append (List.rel_append (hwrite holder) (hwrite hnewer))
    (hsame _)

/-- Both runs find the key, in a file of level 1. -/
theorem sameView_of_corresponds_two_versions :
    ∃ db db', (Reaches InRange tiny (mergedVersions [1] [2]) db ∧
        Reaches InRange tiny (mergedVersions [8] [9]) db') ∧
      (status (db.get [97]) = some true ∧ (db.store.engine.level 1).length = 1) ∧
      SameView db db' := by
  obtain ⟨db, hrun, hdb⟩ := exists_reaches
    (show Along (fun db _ => db.InRange) (mergedVersions [1] [2]) tiny by
      decide +kernel)
    (show (run (mergedVersions [1] [2]) tiny).any (fun db => decide
      (db.InRange ∧ status (db.get [97]) = some true ∧
        (db.store.engine.level 1).length = 1)) = true by decide +kernel)
  obtain ⟨db', hrun', _⟩ := exists_reaches
    (show Along (fun db _ => db.InRange) (mergedVersions [8] [9]) tiny by
      decide +kernel)
    (show (run (mergedVersions [8] [9]) tiny).any (fun db => decide
      (db.InRange ∧ True)) = true by decide +kernel)
  have hlife : tiny.Life := .new 0 1 1 (by decide) (.start (by decide))
  have hacts : Corresponds (mergedVersions [1] [2]) (mergedVersions [8] [9]) :=
    forall₂_mergedVersions
      (fun act => ⟨.refl act, by cases act <;> simp [Act.TombTogether]⟩)
      ⟨.add .put [97] rfl, by unfold Act.TombTogether; decide⟩
      ⟨.add .put [97] rfl, by unfold Act.TombTogether; decide⟩
  exact ⟨db, db', ⟨hrun, hrun'⟩, hdb,
    sameView_of_corresponds hlife hacts hrun hrun'⟩

/-- A value of the length of the tombstone. -/
def zeros : Bytes :=
  List.replicate tombValue.length 0

/-- The tombstone put as a value is dropped by the merge; another value of its
length is kept. -/
theorem put_tombstone_not_sameView :
    ∃ db db', Reaches InRange tiny (mergedVersions [1] tombValue) db ∧
      Reaches InRange tiny (mergedVersions [1] zeros) db' ∧
      List.Forall₂ Act.SameButValue (mergedVersions [1] tombValue)
        (mergedVersions [1] zeros) ∧
      status (db.get [97]) = some false ∧ status (db'.get [97]) = some true ∧
      (db.store.engine.level 1).length = 0 ∧
      (db'.store.engine.level 1).length = 1 ∧
      ¬ SameView db db' := by
  obtain ⟨db, hrun, hlost, hempty⟩ := exists_reaches
    (show Along (fun db _ => db.InRange) (mergedVersions [1] tombValue) tiny by
      decide +kernel)
    (show (run (mergedVersions [1] tombValue) tiny).any (fun db => decide
      (db.InRange ∧ status (db.get [97]) = some false ∧
        (db.store.engine.level 1).length = 0)) = true by decide +kernel)
  obtain ⟨db', hrun', hfound, hkept⟩ := exists_reaches
    (show Along (fun db _ => db.InRange) (mergedVersions [1] zeros) tiny by
      decide +kernel)
    (show (run (mergedVersions [1] zeros) tiny).any (fun db => decide
      (db.InRange ∧ status (db.get [97]) = some true ∧
        (db.store.engine.level 1).length = 1)) = true by decide +kernel)
  have hacts : List.Forall₂ Act.SameButValue (mergedVersions [1] tombValue)
      (mergedVersions [1] zeros) :=
    forall₂_mergedVersions .refl (.refl _) (.add .put [97] (by decide))
  refine ⟨db, db', hrun, hrun', hacts, hlost, hfound, hempty, hkept, ?_⟩
  intro hview
  have hsame := hview.get [97]
  rw [hlost, hfound] at hsame
  cases hsame

end DataBase

end SimpleKV
