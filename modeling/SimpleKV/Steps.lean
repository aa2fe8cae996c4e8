/-
What a step of the store can do to its data: to the two buffers, to the engine
and to the cache.  Later invariants split on these cases and not on `step`.
-/
import SimpleKV.DataBase

namespace SimpleKV

/-- The flush thread has no file of its own here. -/
def FlushPc.Idle : FlushPc → Prop
  | .write | .clear _ | .cacheSet _ | .addFile => False
  | _ => True

/-- Steps that only move threads along. -/
def Act.Control : Act → Prop
  | .addNotify | .flushLoop | .setIdle | .flushTest | .flushPark | .flushWake
  | .flushCheck | .compactLoop | .compactPark | .compactWake | .compactCheck
  | .compactReturn | .shutDown | .shutNotifyFlush | .shutNotifyCompact => True
  | _ => False

/-- Steps of a compaction other than its update of the maps. -/
def Act.Compacts : Act → Prop
  | .compactCheck | .call _ | .select | .merge _ _ | .remove | .finish => True
  | _ => False

/-- A compaction's steps on the engine, apart from its update of the maps. -/
inductive CompactStep (bufferSize : UInt32) :
    EngineState → EngineState → Prop where
  | call {state state' : EngineState} {levelId : Nat} :
      state.call levelId = some state' → CompactStep bufferSize state state'
  | select {state state' : EngineState} :
      state.select = some state' → CompactStep bufferSize state state'
  | merge {state state' : EngineState} {build : Build} {queue : PriorityQueue}
      {iter : IterOrder} :
      state.merge build queue iter bufferSize = some state' →
      CompactStep bufferSize state state'
  | remove {state state' : EngineState} :
      state.remove = some state' → CompactStep bufferSize state state'
  | finish {state state' : EngineState} :
      state.finish = some state' → CompactStep bufferSize state state'

namespace DataBase

/-- Only flags and program counters change. -/
structure Quiet (act : Act) (db db' : DataBase) : Prop where
  incomeBuffer : db'.buffer.incomeBuffer = db.buffer.incomeBuffer
  flushBuffer : db'.buffer.flushBuffer = db.buffer.flushBuffer
  store : db'.store = db.store
  cache : db'.cache = db.cache
  pc : db'.flushPc = db.flushPc ∨ (db.flushPc.Idle ∧ db'.flushPc.Idle)
  isStop : act = .shutDown ∨ db'.isStop = db.isStop

/-- The steps that only move threads along, with their guards and results. -/
inductive ControlStep (db : DataBase) : Act → DataBase → Prop where
  | addNotify : db.notifying = true →
      ControlStep db .addNotify { db.notifyFlush with notifying := false }
  | flushLoop : db.flushPc = .loop →
      ControlStep db .flushLoop
        { db with flushPc := if db.isStop then .done else .setIdle }
  | setIdle : db.flushPc = .setIdle →
      ControlStep db .setIdle
        { db with
          buffer := db.buffer.setFlushThreadIdle
          flushPc := .test }
  | flushTest : db.flushPc = .test →
      ControlStep db .flushTest
        { db with
          flushPc :=
            if !db.buffer.flushBufferReady && !db.isStop then .park
            else .check }
  | flushPark : db.flushPc = .park →
      ControlStep db .flushPark { db with flushPc := .parked }
  | flushWake : db.flushPc = .parked →
      ControlStep db .flushWake { db with flushPc := .test }
  | flushCheck : db.flushPc = .check →
      ControlStep db .flushCheck
        { db with flushPc := if db.isStop then .done else .newFile }
  | compactLoop : db.compactPc = .loop →
      ControlStep db .compactLoop
        { db with compactPc := if db.isStop then .done else .park }
  | compactPark : db.compactPc = .park →
      ControlStep db .compactPark { db with compactPc := .parked }
  | compactWake : db.compactPc = .parked →
      ControlStep db .compactWake { db with compactPc := .check }
  | compactEnd : db.compactPc = .check → db.isStop = true →
      ControlStep db .compactCheck { db with compactPc := .done }
  | compactCall {store : EngineState} : db.compactPc = .check →
      db.isStop = false → db.store.call 0 = some store →
      ControlStep db .compactCheck { db with store, compactPc := .compacting }
  | compactReturn : db.compactPc = .compacting →
      db.store.calls = [] ∧ db.store.phase = .ready →
      ControlStep db .compactReturn { db with compactPc := .loop }
  | shutDown : db.shutPc = .running →
      ControlStep db .shutDown { db with isStop := true, shutPc := .stopping }
  | shutNotifyFlush : db.shutPc = .stopping →
      ControlStep db .shutNotifyFlush
        { db.notifyFlush with shutPc := .notifiedFlush }
  | shutNotifyCompact : db.shutPc = .notifiedFlush →
      ControlStep db .shutNotifyCompact
        { db.notifyCompact with shutPc := .notified }

/-- Steps by what they do to the data. -/
inductive DataStep (db : DataBase) : Act → DataBase → Prop where
  | control {act : Act} {db' : DataBase} : act.Control → Quiet act db db' →
      DataStep db act db'
  | add {order : OrderType} {key value : Bytes} {buffer : StorageBuffer}
      {notifying : Bool} : db.notifying = false →
      db.buffer.add (.ofString key) (.ofString (orderValue order value)) =
        some (buffer, notifying) →
      DataStep db (.add order key value) { db with buffer, notifying }
  | getFiles {key : Bytes} {value : Option Bytes} {db' : DataBase} :
      db.getFiles key = some (value, db') → DataStep db (.getFiles key) db'
  | clearCache :
      DataStep db .clearCache { db with cache := db.cache.clear }
  | newFile {store : EngineState} : db.flushPc = .newFile →
      db.store.newFile = some store →
      DataStep db .newFile { db with store, flushPc := .write }
  | write {iter : IterOrder} {bytes : Bytes} {keyOffset : KeyOffset}
      {store : EngineState} : db.flushPc = .write →
      db.buffer.writeFlushBuffer iter = some (bytes, keyOffset) →
      db.store.write bytes = some store →
      DataStep db (.write iter) { db with store, flushPc := .clear keyOffset }
  | clear {keyOffset : KeyOffset} : db.flushPc = .clear keyOffset →
      db.notifying = false →
      DataStep db .clear
        { db with
          buffer := db.buffer.clearFlushBuffer
          flushPc := .cacheSet keyOffset }
  | cacheSet {keyOffset : KeyOffset} {id : Int} {name : Name} :
      db.flushPc = .cacheSet keyOffset →
      db.store.flight = .written id name →
      DataStep db .cacheSet
        { db with cache := db.cache.set id keyOffset, flushPc := .addFile }
  | addFile {store : EngineState} {compactPc : CompactPc} :
      db.flushPc = .addFile → db.store.addFile = some store →
      DataStep db .addFile { db with store, flushPc := .loop, compactPc }
  | compact {act : Act} {store : EngineState} {compactPc : CompactPc} :
      act.Compacts → CompactStep db.buffer.bufferSize db.store store →
      DataStep db act { db with store, compactPc }
  | update {store : EngineState} : db.store.update = some store →
      DataStep db .update { db with store }

variable {db db' : DataBase}

theorem Quiet.of_pc (act : Act) {pc : FlushPc} (hidle : db.flushPc.Idle)
    (hidle' : pc.Idle) : Quiet act db { db with flushPc := pc } :=
  ⟨rfl, rfl, rfl, rfl, Or.inr ⟨hidle, hidle'⟩, Or.inr rfl⟩

/-- `Notify` on the flush thread moves at most its program counter. -/
theorem notifyFlush_eq (db : DataBase) :
    ∃ pc, db.notifyFlush = { db with flushPc := pc } ∧
      (pc = db.flushPc ∨ (db.flushPc.Idle ∧ pc.Idle)) := by
  unfold notifyFlush
  split
  · rename_i hpc
    exact ⟨.test, rfl, Or.inr ⟨by rw [hpc]; trivial, trivial⟩⟩
  · exact ⟨db.flushPc, rfl, Or.inl rfl⟩

theorem notifyCompact_eq (db : DataBase) :
    ∃ pc, db.notifyCompact = { db with compactPc := pc } := by
  unfold notifyCompact
  split
  · exact ⟨.check, rfl⟩
  · exact ⟨db.compactPc, rfl⟩

/-- What a thread may do at its point of its loop. -/
theorem step_control {act : Act} (h : step act db = some db')
    (hact : act.Control) : ControlStep db act db' := by
  cases act with
  | addNotify =>
      simp only [step] at h
      split_ifs at h with hnotifying
      rw [← Option.some.inj h]
      exact .addNotify hnotifying
  | compactCheck =>
      simp only [step] at h
      split at h
      · rename_i hpc
        split_ifs at h with hstop
        · rw [← Option.some.inj h]
          exact .compactEnd hpc hstop
        · obtain ⟨store, hcall, hdb⟩ := Option.bind_eq_some_iff.mp h
          rw [← Option.some.inj hdb]
          exact .compactCall hpc (by simpa using hstop) hcall
      · exact absurd h (by simp)
  | compactReturn =>
      simp only [step] at h
      split at h
      · rename_i hpc
        split_ifs at h with hdone
        rw [← Option.some.inj h]
        exact .compactReturn hpc hdone
      · exact absurd h (by simp)
  | flushLoop | setIdle | flushTest | flushPark | flushWake | flushCheck
  | compactLoop | compactPark | compactWake | shutDown | shutNotifyFlush
  | shutNotifyCompact =>
      simp only [step] at h
      split at h
      · rename_i hpc
        rw [← Option.some.inj h]
        constructor
        exact hpc
      · exact absurd h (by simp)
  | _ => exact absurd hact id

/-- A thread that moves along leaves the data alone, unless it starts a
compaction. -/
theorem ControlStep.data {act : Act} (h : ControlStep db act db') :
    DataStep db act db' := by
  cases h with
  | addNotify _ =>
      obtain ⟨pc, hnotify, hpc⟩ := db.notifyFlush_eq
      rw [hnotify]
      exact .control trivial ⟨rfl, rfl, rfl, rfl, hpc, Or.inr rfl⟩
  | flushLoop hpc | flushTest hpc | flushCheck hpc =>
      refine .control trivial (.of_pc _ (by rw [hpc]; trivial) ?_)
      split_ifs <;> trivial
  | setIdle hpc =>
      exact .control trivial ⟨rfl, rfl, rfl, rfl,
        Or.inr ⟨by rw [hpc]; trivial, trivial⟩, Or.inr rfl⟩
  | flushPark hpc | flushWake hpc =>
      exact .control trivial (.of_pc _ (by rw [hpc]; trivial) trivial)
  | compactCall _ _ hcall => exact .compact trivial (.call hcall)
  | compactLoop _ | compactPark _ | compactWake _ | compactEnd _ _
  | compactReturn _ _ =>
      exact .control trivial ⟨rfl, rfl, rfl, rfl, Or.inl rfl, Or.inr rfl⟩
  | shutDown _ =>
      exact .control trivial ⟨rfl, rfl, rfl, rfl, Or.inl rfl, Or.inl rfl⟩
  | shutNotifyFlush _ =>
      obtain ⟨pc, hnotify, hpc⟩ := db.notifyFlush_eq
      rw [hnotify]
      exact .control trivial ⟨rfl, rfl, rfl, rfl, hpc, Or.inr rfl⟩
  | shutNotifyCompact _ =>
      obtain ⟨pc, hnotify⟩ := db.notifyCompact_eq
      rw [hnotify]
      exact .control trivial ⟨rfl, rfl, rfl, rfl, Or.inl rfl, Or.inr rfl⟩

/-- The file part of a `Get` touches the cache only. -/
theorem getFiles_eq {key : Bytes} {value : Option Bytes}
    (h : db.getFiles key = some (value, db')) :
    ∃ cache, db' = { db with cache } := by
  obtain ⟨⟨found, cache⟩, _, h⟩ := Option.bind_eq_some_iff.mp h
  rw [Option.some.injEq, Prod.mk.injEq] at h
  exact ⟨cache, h.2.symm⟩

theorem step_data {act : Act} (h : step act db = some db') :
    DataStep db act db' := by
  cases act with
  | add order key value =>
      simp only [step, add, Option.bind_eq_bind] at h
      split_ifs at h with hnotifying
      obtain ⟨⟨buffer, notifying⟩, hadd, hdb⟩ := Option.bind_eq_some_iff.mp h
      rw [← Option.some.inj hdb]
      exact .add (by simpa using hnotifying) hadd
  | addNotify | flushLoop | setIdle | flushTest | flushPark | flushWake
  | flushCheck | compactLoop | compactPark | compactWake | compactCheck
  | compactReturn | shutDown | shutNotifyFlush | shutNotifyCompact =>
      exact (step_control h trivial).data
  | getFiles key =>
      simp only [step, Option.map_eq_some_iff] at h
      obtain ⟨⟨value, db''⟩, hget, rfl⟩ := h
      exact .getFiles hget
  | clearCache =>
      simp only [step, Option.some.injEq] at h
      exact h ▸ .clearCache
  | newFile =>
      simp only [step] at h
      split at h
      · rename_i hpc
        obtain ⟨store, hstore, hdb⟩ := Option.bind_eq_some_iff.mp h
        rw [← Option.some.inj hdb]
        exact .newFile hpc hstore
      · exact absurd h (by simp)
  | write iter =>
      simp only [step] at h
      split at h
      · rename_i hpc
        obtain ⟨⟨bytes, keyOffset⟩, hbytes, h⟩ := Option.bind_eq_some_iff.mp h
        obtain ⟨store, hstore, hdb⟩ := Option.bind_eq_some_iff.mp h
        rw [← Option.some.inj hdb]
        exact .write hpc hbytes hstore
      · exact absurd h (by simp)
  | clear =>
      simp only [step] at h
      split at h
      · rename_i hpc hnotifying
        rw [← Option.some.inj h]
        exact .clear hpc hnotifying
      · exact absurd h (by simp)
  | cacheSet =>
      simp only [step] at h
      split at h
      · rename_i hpc hflight
        rw [← Option.some.inj h]
        exact .cacheSet hpc hflight
      · exact absurd h (by simp)
  | addFile =>
      simp only [step] at h
      split at h
      · rename_i hpc
        obtain ⟨store, hstore, hdb⟩ := Option.bind_eq_some_iff.mp h
        rw [← Option.some.inj hdb]
        split_ifs
        · obtain ⟨pc, hnotify⟩ := notifyCompact_eq
            { db with store, flushPc := .loop }
          rw [hnotify]
          exact .addFile hpc hstore
        · exact .addFile hpc hstore
      · exact absurd h (by simp)
  | call levelId =>
      simp only [step, onStore, Option.map_eq_some_iff] at h
      obtain ⟨store, hstore, rfl⟩ := h
      exact .compact trivial (.call hstore)
  | select =>
      simp only [step, onStore, Option.map_eq_some_iff] at h
      obtain ⟨store, hstore, rfl⟩ := h
      exact .compact trivial (.select hstore)
  | merge queue iter =>
      simp only [step, onStore, Option.map_eq_some_iff] at h
      obtain ⟨store, hstore, rfl⟩ := h
      exact .compact trivial (.merge hstore)
  | update =>
      simp only [step, onStore, Option.map_eq_some_iff] at h
      obtain ⟨store, hstore, rfl⟩ := h
      exact .update hstore
  | remove =>
      simp only [step, onStore, Option.map_eq_some_iff] at h
      obtain ⟨store, hstore, rfl⟩ := h
      exact .compact trivial (.remove hstore)
  | finish =>
      simp only [step, onStore, Option.map_eq_some_iff] at h
      obtain ⟨store, hstore, rfl⟩ := h
      exact .compact trivial (.finish hstore)

theorem step_add {order : OrderType} {key value : Bytes}
    (h : step (.add order key value) db = some db') :
    ∃ buffer notifying, db.notifying = false ∧
      db.buffer.add (.ofString key) (.ofString (orderValue order value)) =
        some (buffer, notifying) ∧
      db' = { db with buffer, notifying } := by
  cases step_data h with
  | control hact _ => exact absurd hact id
  | compact hact _ => exact absurd hact id
  | add hidle hadd => exact ⟨_, _, hidle, hadd, rfl⟩

theorem step_newFile (h : step .newFile db = some db') :
    ∃ store, db.store.newFile = some store ∧
      db' = { db with store, flushPc := .write } := by
  cases step_data h with
  | control hact _ => exact absurd hact id
  | compact hact _ => exact absurd hact id
  | newFile _ hstore => exact ⟨_, hstore, rfl⟩

theorem step_write {iter : IterOrder} (h : step (.write iter) db = some db') :
    ∃ bytes keyOffset store,
      db.buffer.writeFlushBuffer iter = some (bytes, keyOffset) ∧
      db.store.write bytes = some store ∧
      db' = { db with store, flushPc := .clear keyOffset } := by
  cases step_data h with
  | control hact _ => exact absurd hact id
  | compact hact _ => exact absurd hact id
  | write _ hbytes hstore => exact ⟨_, _, _, hbytes, hstore, rfl⟩

theorem step_clear (h : step .clear db = some db') :
    ∃ keyOffset, db' =
      { db with
        buffer := db.buffer.clearFlushBuffer
        flushPc := .cacheSet keyOffset } := by
  cases step_data h with
  | control hact _ => exact absurd hact id
  | compact hact _ => exact absurd hact id
  | clear _ _ => exact ⟨_, rfl⟩

theorem step_cacheSet (h : step .cacheSet db = some db') :
    ∃ cache, db' = { db with cache, flushPc := .addFile } := by
  cases step_data h with
  | control hact _ => exact absurd hact id
  | compact hact _ => exact absurd hact id
  | cacheSet _ _ => exact ⟨_, rfl⟩

theorem step_addFile (h : step .addFile db = some db') :
    ∃ store compactPc, db.store.addFile = some store ∧
      db' = { db with store, flushPc := .loop, compactPc } := by
  cases step_data h with
  | control hact _ => exact absurd hact id
  | compact hact _ => exact absurd hact id
  | addFile _ hstore => exact ⟨_, _, hstore, rfl⟩

/-- What the steps that only move threads along do to the buffer and to
`is_stop_`. -/
def controlEffect : Act → StorageBuffer → Bool → StorageBuffer × Bool
  | .setIdle, buffer, isStop => (buffer.setFlushThreadIdle, isStop)
  | .shutDown, buffer, _ => (buffer, true)
  | _, buffer, isStop => (buffer, isStop)

theorem control_eq {act : Act} (hact : act.Control)
    (hcheck : act ≠ .compactCheck) (h : step act db = some db') :
    db'.store = db.store ∧
      (db'.buffer, db'.isStop) = controlEffect act db.buffer db.isStop := by
  cases step_control h hact with
  | addNotify _ | shutNotifyFlush _ =>
      obtain ⟨pc, hnotify, _⟩ := db.notifyFlush_eq
      rw [hnotify]
      exact ⟨rfl, rfl⟩
  | shutNotifyCompact _ =>
      obtain ⟨pc, hnotify⟩ := db.notifyCompact_eq
      rw [hnotify]
      exact ⟨rfl, rfl⟩
  | compactEnd _ _ | compactCall _ _ _ => exact absurd rfl hcheck
  | _ => exact ⟨rfl, rfl⟩

/-- The check of the compaction thread may start a compaction. -/
theorem step_compactCheck (h : step .compactCheck db = some db') :
    db'.buffer = db.buffer := by
  cases step_control h trivial <;> rfl

/-- Only `ShutDown` stops the store. -/
theorem isStop_step {act : Act} (h : step act db = some db')
    (hact : act ≠ .shutDown) : db'.isStop = db.isStop := by
  cases step_data h with
  | control _ hsame => exact hsame.isStop.resolve_left hact
  | getFiles hget =>
      obtain ⟨cache, rfl⟩ := getFiles_eq hget
      rfl
  | _ => rfl

theorem run_append (acts more : List Act) (db : DataBase) :
    run (acts ++ more) db = (run acts db).bind (run more) :=
  List.foldlM_append

theorem run_snoc {acts : List Act} {act : Act} {last : DataBase}
    (h : run (acts ++ [act]) db = some last) :
    ∃ before, run acts db = some before ∧ step act before = some last := by
  rw [run_append] at h
  obtain ⟨before, hrun, hstep⟩ := Option.bind_eq_some_iff.mp h
  exact ⟨before, hrun, by simpa [run] using hstep⟩

/-- Induction over a run, from its first step on. -/
theorem run_induction (Inv : List Act → DataBase → Prop) (hstart : Inv [] db)
    (hstep : ∀ acts act last next, run acts db = some last → Inv acts last →
      step act last = some next → Inv (acts ++ [act]) next)
    {acts : List Act} {last : DataBase} (h : run acts db = some last) :
    Inv acts last := by
  induction acts using List.reverseRecOn generalizing last with
  | nil =>
      rw [← Option.some.inj (show some db = some last from h)]
      exact hstart
  | append_singleton acts act ih =>
      obtain ⟨before, hrun, hlast⟩ := run_snoc h
      exact hstep acts act before last hrun (ih hrun) hlast

/-- Every step of the list is taken in a state where `ok` allows it. -/
def Along (ok : DataBase → Act → Prop) : List Act → DataBase → Prop
  | [], _ => True
  | act :: acts, db =>
      ok db act ∧
        match step act db with
        | some next => Along ok acts next
        | none => True

instance Along.decidable (ok : DataBase → Act → Prop)
    [∀ db act, Decidable (ok db act)] :
    ∀ acts db, Decidable (Along ok acts db)
  | [], _ => inferInstanceAs (Decidable True)
  | act :: acts, db =>
      have : Decidable (match step act db with
          | some next => Along ok acts next
          | none => True) :=
        match step act db with
        | some next => Along.decidable ok acts next
        | none => inferInstanceAs (Decidable True)
      inferInstanceAs (Decidable (_ ∧ _))

theorem Along.snoc {ok : DataBase → Act → Prop} {acts : List Act} {act : Act}
    {last : DataBase} (h : Along ok (acts ++ [act]) db)
    (hrun : run acts db = some last) : Along ok acts db ∧ ok last act := by
  induction acts generalizing db with
  | nil =>
      rw [← Option.some.inj (show some db = some last from hrun)]
      exact ⟨trivial, h.1⟩
  | cons head acts ih =>
      rw [← List.singleton_append, run_append] at hrun
      obtain ⟨next, hhead, hrun⟩ := Option.bind_eq_some_iff.mp hrun
      have hfirst : step head db = some next := by simpa [run] using hhead
      obtain ⟨hok, hrest⟩ := h
      rw [hfirst] at hrest
      obtain ⟨hacts, hlast⟩ := ih hrest hrun
      exact ⟨⟨hok, by rw [hfirst]; exact hacts⟩, hlast⟩

theorem Reaches.run {P : DataBase → Prop} {acts : List Act}
    (h : Reaches P db acts db') : DataBase.run acts db = some db' := by
  induction h with
  | start _ => rfl
  | step _ hstep _ ih =>
      rw [run_append, ih]
      simpa [DataBase.run] using hstep

theorem Reaches.last {P : DataBase → Prop} {acts : List Act}
    (h : Reaches P db acts db') : P db' := by
  cases h with
  | start hP => exact hP
  | step _ _ hP => exact hP

theorem Reaches.of_run {P : DataBase → Prop} {acts : List Act}
    (hrun : DataBase.run acts db = some db')
    (halong : Along (fun db _ => P db) acts db) (hlast : P db') :
    Reaches P db acts db' := by
  refine run_induction (fun acts last => Along (fun db _ => P db) acts db →
    P last → Reaches P db acts last) (fun _ hP => .start hP) ?_ hrun halong
    hlast
  intro acts act last next hrun ih hstep halong hnext
  obtain ⟨hbefore, hP⟩ := halong.snoc hrun
  exact .step (ih hbefore hP) hstep hnext

theorem Reaches.nil {P : DataBase → Prop} (h : Reaches P db [] db') :
    db' = db := by
  generalize hall : ([] : List Act) = all at h
  cases h with
  | start _ => rfl
  | step _ _ _ => simp at hall

theorem Reaches.first {P : DataBase → Prop} {acts : List Act}
    (h : Reaches P db acts db') : P db := by
  induction h with
  | start hP => exact hP
  | step _ _ _ ih => exact ih

theorem Reaches.snoc {P : DataBase → Prop} {acts : List Act} {act : Act}
    (h : Reaches P db (acts ++ [act]) db') :
    ∃ last, Reaches P db acts last ∧ DataBase.step act last = some db' := by
  generalize hall : acts ++ [act] = all at h
  cases h with
  | start _ => simp at hall
  | step hrun hstep _ =>
      obtain ⟨rfl, hact⟩ := List.append_inj' hall rfl
      rw [List.singleton_inj] at hact
      exact ⟨_, hrun, hact ▸ hstep⟩

theorem Reaches.trans {P : DataBase → Prop} {acts more : List Act}
    {last : DataBase} (h : Reaches P db acts last)
    (hmore : Reaches P last more db') : Reaches P db (acts ++ more) db' := by
  induction hmore with
  | start _ =>
      rw [List.append_nil]
      exact h
  | step _ hstep hP ih =>
      rw [← List.append_assoc]
      exact .step ih hstep hP

theorem Reaches.split {P : DataBase → Prop} {acts more : List Act}
    (h : Reaches P db (acts ++ more) db') :
    ∃ last, Reaches P db acts last ∧ Reaches P last more db' := by
  induction more using List.reverseRecOn generalizing db' with
  | nil =>
      rw [List.append_nil] at h
      exact ⟨db', h, .start h.last⟩
  | append_singleton more act ih =>
      rw [← List.append_assoc] at h
      obtain ⟨before, hbefore, hstep⟩ := h.snoc
      obtain ⟨last, hlast, hmore⟩ := ih hbefore
      exact ⟨last, hlast, .step hmore hstep h.last⟩

theorem Reaches.cons {P : DataBase → Prop} {act : Act} {acts : List Act}
    (h : Reaches P db (act :: acts) db') :
    ∃ next, DataBase.step act db = some next ∧ Reaches P next acts db' := by
  obtain ⟨next, hfirst, hrest⟩ := (show Reaches P db ([act] ++ acts) db' from
    h).split
  obtain ⟨before, hbefore, hstep⟩ := (show Reaches P db ([] ++ [act]) next from
    hfirst).snoc
  exact ⟨next, hbefore.nil ▸ hstep, hrest⟩

/-- A run by evaluation, with a property of its last state. -/
theorem exists_reaches {P Q : DataBase → Prop} [DecidablePred P]
    [DecidablePred Q] {acts : List Act}
    (halong : Along (fun db _ => P db) acts db)
    (hlast : (DataBase.run acts db).any
      (fun last => decide (P last ∧ Q last)) = true) :
    ∃ last, Reaches P db acts last ∧ Q last := by
  cases hrun : DataBase.run acts db with
  | none => simp [hrun] at hlast
  | some last =>
      rw [hrun] at hlast
      obtain ⟨hP, hQ⟩ := of_decide_eq_true hlast
      exact ⟨last, .of_run hrun halong hP, hQ⟩

/-- A write with the flush thread ready, and the flush of the buffer if that
write filled it. -/
def writeAndFlush (order : OrderType) (key value : Bytes) : List Act :=
  [.flushLoop, .setIdle, .add order key value, .addNotify, .flushTest,
    .flushCheck, .newFile, .write .inOrder, .clear, .cacheSet, .addFile]

end DataBase

end SimpleKV
