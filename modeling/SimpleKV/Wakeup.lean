/-
Wake-ups of the background loops.  `Event::Wait` parks without a test of its
own, so a `Notify` between a loop's test and its wait is lost; without such a
`Notify` no thread sleeps through what it waits for.
-/
import SimpleKV.Handoff

namespace SimpleKV

/-- Steps that notify `event_flush_buffer_`. -/
def Act.notifiesFlush : Act → Bool
  | .addNotify | .shutNotifyFlush => true
  | _ => false

/-- `ShutDown`'s `Notify` on `event_compact_`.  The one of `AddFile` only asks
for a compaction that a later `AddFile` asks for again. -/
def Act.stopsCompact : Act → Bool
  | .shutNotifyCompact => true
  | _ => false

namespace DataBase

/-- A background thread sleeps through its wake-up: the flush thread after the
`Notify` of the `Add` that swapped, or either thread after `ShutDown` issued
both of its own. -/
def SleepsThrough (db : DataBase) : Prop :=
  (db.flushPc = .parked ∧ db.buffer.flushBufferReady = true ∧
      db.notifying = false) ∨
    (db.shutPc = .notified ∧
      (db.flushPc = .parked ∨ db.compactPc = .parked))

/-- The step does not notify a thread that stands between its loop test and its
wait. -/
def Timely (db : DataBase) (act : Act) : Prop :=
  (act.notifiesFlush = true → db.flushPc ≠ .park) ∧
    (act.stopsCompact = true → db.compactPc ≠ .park)

instance (db : DataBase) (act : Act) : Decidable (db.Timely act) :=
  inferInstanceAs (Decidable (_ ∧ _))

/-- What rules out sleeping through. -/
structure WakeInv (db : DataBase) : Prop where
  swap : db.flushPc = .park ∨ db.flushPc = .parked →
    db.buffer.flushBufferReady = true → db.notifying = true
  stop : db.shutPc ≠ .running → db.isStop = true
  flush : db.shutPc = .notifiedFlush ∨ db.shutPc = .notified →
    db.flushPc ≠ .park ∧ db.flushPc ≠ .parked
  compact : db.shutPc = .notified →
    db.compactPc ≠ .park ∧ db.compactPc ≠ .parked

namespace WakeInv

variable {db db' : DataBase}

theorem start (bufferSize : UInt32) (cache : LRUCache)
    (engine : StorageEngine) : WakeInv (.start bufferSize cache engine) := by
  refine ⟨?_, ?_, ?_, ?_⟩ <;> simp [DataBase.start]

theorem not_sleepsThrough (h : WakeInv db) : ¬ db.SleepsThrough := by
  rintro (⟨hparked, hready, hnotifying⟩ | ⟨hshut, hparked | hparked⟩)
  · have htrue := h.swap (Or.inr hparked) hready
    rw [hnotifying] at htrue
    exact absurd htrue (by simp)
  · exact (h.flush (Or.inr hshut)).2 hparked
  · exact (h.compact hshut).2 hparked

/-- Steps that wake nobody and park nobody. -/
theorem congr (h : WakeInv db)
    (hflush : db'.flushPc = db.flushPc ∨
      (db'.flushPc ≠ .park ∧ db'.flushPc ≠ .parked))
    (hready : db'.buffer.flushBufferReady = true →
      db.buffer.flushBufferReady = true ∨ db'.notifying = true)
    (hnotifying : db.notifying = true → db'.notifying = true)
    (hstop : db'.isStop = db.isStop) (hshut : db'.shutPc = db.shutPc)
    (hcompact : db'.compactPc = db.compactPc ∨
      (db'.compactPc ≠ .park ∧ db'.compactPc ≠ .parked)) : WakeInv db' where
  swap := by
    intro hwaits htrue
    rcases hflush with hsame | ⟨hnot, hnot'⟩
    · rw [hsame] at hwaits
      rcases hready htrue with hold | hnew
      · exact hnotifying (h.swap hwaits hold)
      · exact hnew
    · exact absurd hwaits (by simp [hnot, hnot'])
  stop := by
    rw [hshut, hstop]
    exact h.stop
  flush := by
    intro hnotified
    rcases hflush with hsame | hnot
    · rw [hsame]
      rw [hshut] at hnotified
      exact h.flush hnotified
    · exact hnot
  compact := by
    intro hnotified
    rcases hcompact with hsame | hnot
    · rw [hsame]
      rw [hshut] at hnotified
      exact h.compact hnotified
    · exact hnot

/-- A step of the store outside the flags. -/
theorem withStore (h : WakeInv db) (store : EngineState) :
    WakeInv { db with store } :=
  h.congr (Or.inl rfl) Or.inl id rfl rfl (Or.inl rfl)

theorem onStore (h : WakeInv db) {f : EngineState → Option EngineState}
    (hstep : db.onStore f = some db') : WakeInv db' := by
  obtain ⟨store, _, rfl⟩ := Option.map_eq_some_iff.mp hstep
  exact h.withStore store

end WakeInv

/-- A `Notify` in time leaves the flush thread neither parked nor about to
park. -/
theorem notifyFlush_awake {db : DataBase} (htimely : db.flushPc ≠ .park) :
    ∃ pc, db.notifyFlush = { db with flushPc := pc } ∧ pc ≠ .park ∧
      pc ≠ .parked := by
  unfold notifyFlush
  split
  · exact ⟨.test, rfl, by simp, by simp⟩
  · rename_i hnot
    exact ⟨db.flushPc, rfl, htimely, hnot⟩

theorem notifyCompact_awake {db : DataBase} (htimely : db.compactPc ≠ .park) :
    ∃ pc, db.notifyCompact = { db with compactPc := pc } ∧ pc ≠ .park ∧
      pc ≠ .parked := by
  unfold notifyCompact
  split
  · exact ⟨.check, rfl, by simp, by simp⟩
  · rename_i hnot
    exact ⟨db.compactPc, rfl, htimely, hnot⟩

/-- A `Notify` never parks the compaction thread. -/
theorem notifyCompact_cases (db : DataBase) :
    ∃ pc, db.notifyCompact = { db with compactPc := pc } ∧
      (pc = db.compactPc ∨ (pc ≠ .park ∧ pc ≠ .parked)) := by
  unfold notifyCompact
  split
  · exact ⟨.check, rfl, Or.inr ⟨by simp, by simp⟩⟩
  · exact ⟨db.compactPc, rfl, Or.inl rfl⟩

namespace WakeInv

variable {db db' : DataBase}

theorem add (h : WakeInv db) {order : OrderType} {key value : Bytes}
    (hstep : DataBase.step (.add order key value) db = some db') :
    WakeInv db' := by
  obtain ⟨buffer, notifying, hidle, hadd, rfl⟩ := step_add hstep
  refine h.congr (Or.inl rfl) ?_ (fun htrue => ?_) rfl rfl (Or.inl rfl)
  · intro hready
    change buffer.flushBufferReady = true at hready
    obtain ⟨_, hresult⟩ := StorageBuffer.add_eq_some_iff.mp hadd
    split_ifs at hresult with hswaps
    · exact Or.inr (congrArg Prod.snd hresult)
    · have hbuffer := congrArg Prod.fst hresult
      simp only at hbuffer
      rw [hbuffer] at hready
      exact Or.inl hready
  · rw [hidle] at htrue
    exact absurd htrue (by simp)

theorem addNotify (h : WakeInv db) (htimely : db.flushPc ≠ .park) :
    WakeInv { db.notifyFlush with notifying := false } := by
  obtain ⟨pc, hnotify, hawake⟩ := notifyFlush_awake htimely
  rw [hnotify]
  refine ⟨fun hwaits => ?_, h.stop, fun _ => hawake, h.compact⟩
  exact absurd hwaits (by simp [hawake])

/-- Once `ShutDown` has notified a thread, the store is stopped. -/
theorem isStop (h : WakeInv db)
    (hnotified : db.shutPc = .notifiedFlush ∨ db.shutPc = .notified) :
    db.isStop = true := by
  apply h.stop
  rcases hnotified with hshut | hshut <;> simp [hshut]

/-- The flush thread goes on to park only while there is nothing to wake it. -/
theorem flushTest (h : WakeInv db) :
    WakeInv
      { db with
        flushPc :=
          if !db.buffer.flushBufferReady && !db.isStop then .park
          else .check } := by
  split_ifs with hwait
  · have hwait' : db.buffer.flushBufferReady = false ∧
        db.isStop = false := by
      simpa using hwait
    refine ⟨fun _ hready => ?_, h.stop, fun hnotified => ?_, h.compact⟩
    · exact absurd (hwait'.1.symm.trans hready) (by simp)
    · exact absurd (hwait'.2.symm.trans (h.isStop hnotified)) (by simp)
  · exact h.congr (Or.inr ⟨by simp, by simp⟩) Or.inl id rfl rfl (Or.inl rfl)

/-- The compaction thread goes on to park only while the store runs. -/
theorem compactLoop (h : WakeInv db) :
    WakeInv { db with compactPc := if db.isStop then .done else .park } := by
  split_ifs with hstop
  · exact h.congr (Or.inl rfl) Or.inl id rfl rfl (Or.inr ⟨by simp, by simp⟩)
  · refine ⟨h.swap, h.stop, h.flush, fun hnotified => ?_⟩
    exact absurd (h.isStop (Or.inr hnotified)) hstop

theorem addFile (h : WakeInv db)
    (hstep : DataBase.step .addFile db = some db') : WakeInv db' := by
  simp only [DataBase.step] at hstep
  split at hstep
  · obtain ⟨store, _, hdb⟩ := Option.bind_eq_some_iff.mp hstep
    rw [← Option.some.inj hdb]
    split_ifs
    · obtain ⟨pc, hnotify, hpc⟩ := notifyCompact_cases
        { db with store, flushPc := .loop }
      rw [hnotify]
      exact h.congr (Or.inr ⟨by simp, by simp⟩) Or.inl id rfl rfl hpc
    · exact h.congr (Or.inr ⟨by simp, by simp⟩) Or.inl id rfl rfl (Or.inl rfl)
  · exact absurd hstep (by simp)

theorem shutNotifyFlush (h : WakeInv db) (htimely : db.flushPc ≠ .park)
    (hat : db.shutPc = .stopping) :
    WakeInv { db.notifyFlush with shutPc := .notifiedFlush } := by
  obtain ⟨pc, hnotify, hawake⟩ := notifyFlush_awake htimely
  rw [hnotify]
  refine ⟨fun hwaits => absurd hwaits (by simp [hawake]), fun _ =>
    h.stop (by simp [hat]), fun _ => hawake, fun hnotified => ?_⟩
  exact absurd hnotified (by simp)

theorem shutNotifyCompact (h : WakeInv db) (htimely : db.compactPc ≠ .park)
    (hat : db.shutPc = .notifiedFlush) :
    WakeInv { db.notifyCompact with shutPc := .notified } := by
  obtain ⟨pc, hnotify, hawake⟩ := notifyCompact_awake htimely
  rw [hnotify]
  exact ⟨h.swap, fun _ => h.stop (by simp [hat]),
    fun _ => h.flush (Or.inl hat), fun _ => hawake⟩

/-- The steps that only move threads along. -/
theorem control (h : WakeInv db) {act : Act} (htimely : db.Timely act)
    (hstep : db.ControlStep act db') : WakeInv db' := by
  cases hstep with
  | addNotify _ => exact h.addNotify (htimely.1 rfl)
  | flushLoop _ | flushCheck _ =>
      refine h.congr (Or.inr ?_) Or.inl id rfl rfl (Or.inl rfl)
      split_ifs <;> exact ⟨by simp, by simp⟩
  | setIdle _ | flushWake _ =>
      exact h.congr (Or.inr ⟨by simp, by simp⟩) Or.inl id rfl rfl (Or.inl rfl)
  | flushTest _ => exact h.flushTest
  | flushPark hat =>
      exact ⟨fun _ => h.swap (Or.inl hat), h.stop,
        fun hnotified => absurd hat (h.flush hnotified).1, h.compact⟩
  | compactLoop _ => exact h.compactLoop
  | compactPark hat =>
      exact ⟨h.swap, h.stop, h.flush,
        fun hnotified => absurd hat (h.compact hnotified).1⟩
  | compactWake _ | compactEnd _ _ | compactCall _ _ _
  | compactReturn _ _ =>
      exact h.congr (Or.inl rfl) Or.inl id rfl rfl (Or.inr ⟨by simp, by simp⟩)
  | shutDown _ =>
      exact ⟨h.swap, fun _ => rfl, fun hnotified => absurd hnotified
        (by simp), fun hnotified => absurd hnotified (by simp)⟩
  | shutNotifyFlush hat => exact h.shutNotifyFlush (htimely.1 rfl) hat
  | shutNotifyCompact hat => exact h.shutNotifyCompact (htimely.2 rfl) hat

/-- Every timely step keeps the invariant. -/
theorem step (h : WakeInv db) {act : Act} (htimely : db.Timely act)
    (hstep : DataBase.step act db = some db') : WakeInv db' := by
  cases act with
  | add order key value => exact h.add hstep
  | addNotify | flushLoop | setIdle | flushTest | flushPark | flushWake
  | flushCheck | compactLoop | compactPark | compactWake | compactCheck
  | compactReturn | shutDown | shutNotifyFlush | shutNotifyCompact =>
      exact h.control htimely (step_control hstep trivial)
  | getFiles key =>
      obtain ⟨⟨value, after⟩, hget, rfl⟩ := Option.map_eq_some_iff.mp hstep
      obtain ⟨cache, rfl⟩ := getFiles_eq hget
      exact h.congr (Or.inl rfl) Or.inl id rfl rfl (Or.inl rfl)
  | clearCache =>
      rw [← Option.some.inj hstep]
      exact h.congr (Or.inl rfl) Or.inl id rfl rfl (Or.inl rfl)
  | newFile =>
      obtain ⟨store, _, rfl⟩ := step_newFile hstep
      exact h.congr (Or.inr ⟨by simp, by simp⟩) Or.inl id rfl rfl (Or.inl rfl)
  | write iter =>
      obtain ⟨bytes, keyOffset, store, _, _, rfl⟩ := step_write hstep
      exact h.congr (Or.inr ⟨by simp, by simp⟩) Or.inl id rfl rfl (Or.inl rfl)
  | clear =>
      obtain ⟨keyOffset, rfl⟩ := step_clear hstep
      exact h.congr (Or.inr ⟨by simp, by simp⟩) (fun hready => absurd hready
        (by simp [StorageBuffer.clearFlushBuffer])) id rfl rfl (Or.inl rfl)
  | cacheSet =>
      obtain ⟨cache, rfl⟩ := step_cacheSet hstep
      exact h.congr (Or.inr ⟨by simp, by simp⟩) Or.inl id rfl rfl (Or.inl rfl)
  | addFile => exact h.addFile hstep
  | call levelId => exact h.onStore hstep
  | select => exact h.onStore hstep
  | merge queue iter => exact h.onStore hstep
  | update => exact h.onStore hstep
  | remove => exact h.onStore hstep
  | finish => exact h.onStore hstep

end WakeInv

/-- In a run in which no `Notify` falls between a loop's test and its wait, no
thread ever sleeps through its wake-up. -/
theorem no_lost_wakeup_of_timely (bufferSize : UInt32) (cache : LRUCache)
    (engine : StorageEngine) {acts : List Act} {db : DataBase}
    (hrun : run acts (.start bufferSize cache engine) = some db)
    (htimely : Along Timely acts (.start bufferSize cache engine)) :
    ¬ db.SleepsThrough := by
  have hinv := run_induction
    (fun acts db => Along Timely acts (.start bufferSize cache engine) →
      WakeInv db)
    (fun _ => WakeInv.start bufferSize cache engine) (by
      intro acts act last next hlast ih hstep htimely
      obtain ⟨hacts, hact⟩ := htimely.snoc hlast
      exact (ih hacts).step hact hstep) hrun
  exact (hinv htimely).not_sleepsThrough

/-- The flush thread parks before the `Add` that swaps. -/
def notifyInTime : List Act :=
  [.flushLoop, .setIdle, .flushTest, .flushPark, .add .put [107, 49] [118],
    .addNotify]

theorem no_lost_wakeup_of_timely_notify :
    ∃ db, run notifyInTime (.start 0 (.empty 1 (by decide)) (.new 1)) =
      some db ∧ ¬ db.SleepsThrough := by
  obtain ⟨db, hrun⟩ := Option.isSome_iff_exists.mp (show (run notifyInTime
    (.start 0 (.empty 1 (by decide)) (.new 1))).isSome = true by
      decide +kernel)
  exact ⟨db, hrun, no_lost_wakeup_of_timely 0 (.empty 1 (by decide)) (.new 1)
    hrun (by decide +kernel)⟩

/-- The `Add` swaps and notifies between the flush thread's test and its
wait. -/
def notifyTooEarly : List Act :=
  [.flushLoop, .setIdle, .flushTest, .add .put [107, 49] [118], .addNotify,
    .flushPark]

/-- `ShutDown` notifies both threads between their test and their wait. -/
def shutDownTooEarly : List Act :=
  [.flushLoop, .setIdle, .flushTest, .compactLoop, .shutDown,
    .shutNotifyFlush, .shutNotifyCompact, .flushPark, .compactPark]

/-- Both kinds of lost wake-up happen: the flush thread parked with a buffer
ready whose `Notify` is over, and both threads parked after `ShutDown`. -/
theorem lost_wakeup_reachable :
    (∃ db, run notifyTooEarly (.start 0 (.empty 1 (by decide)) (.new 1)) =
        some db ∧ db.flushPc = .parked ∧
        db.buffer.flushBufferReady = true ∧ db.notifying = false ∧
        db.SleepsThrough) ∧
      ∃ db, run shutDownTooEarly (.start 0 (.empty 1 (by decide)) (.new 1)) =
        some db ∧ db.shutPc = .notified ∧ db.flushPc = .parked ∧
        db.compactPc = .parked ∧ db.SleepsThrough := by
  refine ⟨⟨_, rfl, rfl, rfl, rfl, Or.inl ⟨rfl, rfl, rfl⟩⟩, ⟨_, rfl, rfl, rfl,
    rfl, Or.inr ⟨rfl, Or.inl rfl⟩⟩⟩

end DataBase

end SimpleKV
