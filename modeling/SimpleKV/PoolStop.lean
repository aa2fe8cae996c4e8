/-
`Stop` sets its flag and notifies without the mutex, so a worker between its
tests and its `wait` can miss both.  Which states of the pool make sure that
`notify_all` leaves no worker asleep.
-/
import SimpleKV.ThreadPool

namespace SimpleKV

namespace ThreadPool

variable {n : Nat} {Task : Type} {pool pool' : ThreadPool n Task}

/-- Where a worker's next step takes it. -/
def nextPc (w : Fin n) (pool : ThreadPool n Task) : WorkerPc Task :=
  match pool.pc w with
  | .test => if pool.stopRequested then .exited else .lock
  | .lock => .testEmpty
  | .testEmpty => if pool.queue.isEmpty then .wait else .testStop
  | .wait => .parked
  | .woken => .testWoken
  | .testWoken => if pool.stopRequested then .testStop else .testEmpty
  | .testStop => if pool.stopRequested then .exited else .pop
  | .pop =>
      match pool.queue with
      | some task :: _ => .taken task
      | _ => .test
  | .taken task => .running task
  | .running task => .finishing task
  | .finishing _ => .test
  | pc => pc

/-- What a worker's step does to the workers and leaves alone. -/
theorem work_frame {w : Fin n} (h : pool.work w = some pool') :
    pool'.pc = Function.update pool.pc w (pool.nextPc w) ∧
      pool'.stopRequested = pool.stopRequested ∧
      (pool.pc w ≠ .pop → pool'.queue = pool.queue) := by
  cases hpc : pool.pc w with
  | test | testEmpty | wait | testWoken | taken | running =>
      simp only [work, hpc] at h
      rw [← Option.some.inj h]
      simp [goto, nextPc, hpc]
  | lock | woken | finishing =>
      simp only [work, hpc] at h
      split_ifs at h
      rw [← Option.some.inj h]
      simp [goto, nextPc, hpc]
  | testStop =>
      simp only [work, hpc] at h
      split_ifs at h with hstop
      · rw [← Option.some.inj h]
        simp [goto, nextPc, hpc, hstop]
      · rw [← Option.some.inj h]
        simp [goto, nextPc, hpc, hstop]
  | pop =>
      simp only [work, hpc] at h
      split at h
      · exact absurd h (by simp)
      · rename_i hqueue
        rw [← Option.some.inj h]
        simp [goto, nextPc, hpc, hqueue]
      · rename_i hqueue
        rw [← Option.some.inj h]
        simp [goto, nextPc, hpc, hqueue]
  | parked | exited =>
      simp only [work, hpc] at h
      exact absurd h (by simp)

theorem ne_of_pc {v w : Fin n} {place other : WorkerPc Task}
    (hv : pool.pc v = place) (hw : pool.pc w = other) (hne : other ≠ place) :
    w ≠ v := by
  rintro rfl
  exact hne (hw.symm.trans hv)

/-- Two workers are never both in a critical section. -/
theorem PoolInv.exclusive (h : PoolInv pool) {v w : Fin n}
    (hv : (pool.pc v).InLock) (hw : (pool.pc w).InLock) : v = w := by
  have hmutex := ((h.worker v).mp hv).symm.trans ((h.worker w).mp hw)
  simpa using hmutex

/-- The worker is past the inner loop and on its way to `front()`. -/
def ToFront (stopRequested : Bool) : WorkerPc Task → Prop
  | .pop => True
  | .testStop => stopRequested = false
  | _ => False

theorem ToFront.inLock {stopRequested : Bool} {pc : WorkerPc Task}
    (h : ToFront stopRequested pc) : pc.InLock := by
  cases pc with
  | pop | testStop => trivial
  | _ => exact absurd h id

/-- A worker that comes to `front()` has found the queue non-empty. -/
def FrontInv (pool : ThreadPool n Task) : Prop :=
  ∀ w, ToFront pool.stopRequested (pool.pc w) → pool.queue ≠ []

theorem FrontInv.work (h : FrontInv pool) (hinv : PoolInv pool) {w : Fin n}
    (hwork : pool.work w = some pool') : FrontInv pool' := by
  obtain ⟨hpcs, hstop, hqueue⟩ := work_frame hwork
  intro v hv
  rw [hpcs, hstop] at hv
  by_cases hvw : v = w
  · rw [hvw, Function.update_self, nextPc] at hv
    cases hpc : pool.pc w with
    | testEmpty =>
        rw [hqueue (by simp [hpc])]
        intro hempty
        simp [hpc, hempty, ToFront] at hv
    | testWoken => by_cases hrequested : pool.stopRequested <;>
        simp [hpc, hrequested, ToFront] at hv
    | testStop =>
        rw [hqueue (by simp [hpc])]
        apply h w
        rw [hpc]
        by_cases hrequested : pool.stopRequested
        · simp [hpc, hrequested, ToFront] at hv
        · simpa [ToFront] using hrequested
    | test => by_cases hrequested : pool.stopRequested <;>
        simp [hpc, hrequested, ToFront] at hv
    | pop =>
        rw [hpc] at hv
        simp only at hv
        split at hv <;> exact absurd hv id
    | _ => simp [hpc, ToFront] at hv
  · rw [Function.update_of_ne hvw] at hv
    have hpop : pool.pc w ≠ .pop := by
      intro hpc
      exact hvw (hinv.exclusive hv.inLock (hpc ▸ trivial))
    rw [hqueue hpop]
    exact h v hv

/-- Where no worker gets closer to `front()`, a longer queue does no harm. -/
theorem FrontInv.mono (h : FrontInv pool)
    (hqueue : pool.queue ≠ [] → pool'.queue ≠ [])
    (hpc : ∀ w, ToFront pool'.stopRequested (pool'.pc w) →
      ToFront pool.stopRequested (pool.pc w)) : FrontInv pool' :=
  fun w hw => hqueue (h w (hpc w hw))

theorem FrontInv.wakeUp (h : FrontInv pool) {w : Fin n}
    (hwake : pool.wakeUp w = some pool') : FrontInv pool' := by
  obtain ⟨hpc, rfl⟩ := wakeUp_eq hwake
  refine h.mono id fun v hv => ?_
  by_cases hvw : v = w
  · simp [hvw, goto, ToFront] at hv
  · simpa [goto, Function.update_of_ne hvw] using hv

theorem FrontInv.stop [DecidableEq Task] (h : FrontInv pool)
    (hinv : PoolInv pool) (hstop : pool.stopStep = some pool') :
    FrontInv pool' := by
  cases stop_cases hstop with
  | request _ =>
      refine h.mono id fun w hw => ?_
      cases hpc : pool.pc w with
      | pop => trivial
      | _ => simp [hpc, ToFront] at hw
  | notify _ =>
      refine h.mono id fun w hw => ?_
      cases hpc : pool.pc w with
      | parked => simp [hpc, WorkerPc.notified, ToFront] at hw
      | _ => simpa [hpc, WorkerPc.notified] using hw
  | drain hpc _ =>
      -- All workers have left.
      intro w hw
      have hexited := hinv.joined (hpc ▸ trivial) w
      simp [hexited, ToFront] at hw
  | _ => exact h.mono id fun w hw => hw

theorem FrontInv.step [DecidableEq Task] (h : FrontInv pool) (hinv : PoolInv pool)
    {act : PoolAct n Task} (hstep : pool.step act = some pool') :
    FrontInv pool' := by
  cases act with
  | work w => exact h.work hinv hstep
  | wake w => exact h.wakeUp hstep
  | addPush task =>
      obtain ⟨_, rfl⟩ := addPush_eq hstep
      exact h.mono (fun _ => by simp) fun w hw => hw
  | addNotify waiter =>
      obtain ⟨_, woken, hwoken, rfl⟩ := addNotify_eq hstep
      have hfront : FrontInv woken := by
        rcases hwoken with rfl | ⟨w, hpc, rfl⟩
        · exact h
        · exact h.wakeUp (w := w) (by simp [ThreadPool.wakeUp, hpc])
      exact hfront.mono id fun w hw => hw
  | stop => exact h.stop hinv hstep
  | blockCall =>
      obtain ⟨_, rfl⟩ := blockCall_eq hstep
      exact h.mono id fun w hw => hw
  | blockTest =>
      obtain ⟨_, ⟨_, rfl⟩ | ⟨_, rfl⟩⟩ := blockTest_eq hstep
      · exact h.mono id fun w hw => hw
      · exact h

/-- No worker can come to `cv_.wait` once the stop is requested: none is before
it, and one that has still to find the queue empty will not do so, also when
another takes a task first. -/
structure CannotPark (pool : ThreadPool n Task) : Prop where
  wait : ∀ w, pool.pc w ≠ .wait
  testEmpty : ∀ w, pool.pc w = .testEmpty → 0 < pool.queue.length
  lock : ∀ w, pool.pc w = .lock → 0 < pool.queue.length ∧
    ∀ v, pool.pc v = .pop → 1 < pool.queue.length

/-- The stop is requested, and no worker sleeps or can fall asleep. -/
structure Awake (pool : ThreadPool n Task) : Prop where
  requested : pool.stopRequested = true
  cannot : CannotPark pool
  parked : ∀ w, pool.pc w ≠ .parked

/-- The workers stay where they are and the queue does not shrink. -/
theorem Awake.congr (h : Awake pool) (hpc : pool'.pc = pool.pc)
    (hstop : pool'.stopRequested = true)
    (hqueue : pool.queue.length ≤ pool'.queue.length) : Awake pool' := by
  refine ⟨hstop, ⟨?_, ?_, ?_⟩, ?_⟩
  · rw [hpc]
    exact h.cannot.wait
  · rw [hpc]
    exact fun w hw => (h.cannot.testEmpty w hw).trans_le hqueue
  · rw [hpc]
    intro w hw
    obtain ⟨hlong, hpop⟩ := h.cannot.lock w hw
    exact ⟨hlong.trans_le hqueue, fun v hv => (hpop v hv).trans_le hqueue⟩
  · rw [hpc]
    exact h.parked

/-- A worker moves on, to the queue test only if the queue is not empty. -/
theorem Awake.move (h : Awake pool) {w : Fin n} {next : WorkerPc Task}
    (hpc : pool'.pc = Function.update pool.pc w next)
    (hstop : pool'.stopRequested = pool.stopRequested)
    (hqueue : pool'.queue = pool.queue)
    (hnext : next ≠ .wait ∧ next ≠ .parked ∧ next ≠ .pop ∧ next ≠ .lock)
    (htest : next = .testEmpty → 0 < pool.queue.length) : Awake pool' := by
  have hcases (v : Fin n) {pc : WorkerPc Task} (hv : pool'.pc v = pc) :
      next = pc ∨ pool.pc v = pc := by
    rw [hpc] at hv
    by_cases hvw : v = w
    · rw [hvw, Function.update_self] at hv
      exact Or.inl hv
    · rw [Function.update_of_ne hvw] at hv
      exact Or.inr hv
  refine ⟨hstop.trans h.requested, ⟨?_, ?_, ?_⟩, ?_⟩
  · intro v hv
    exact (hcases v hv).elim hnext.1 (h.cannot.wait v)
  · intro v hv
    rw [hqueue]
    exact (hcases v hv).elim htest (h.cannot.testEmpty v)
  · intro v hv
    rw [hqueue]
    obtain ⟨hlong, hpop⟩ :=
      h.cannot.lock v ((hcases v hv).resolve_left hnext.2.2.2)
    exact ⟨hlong, fun u hu => hpop u ((hcases u hu).resolve_left hnext.2.2.1)⟩
  · intro v hv
    exact (hcases v hv).elim hnext.2.1 (h.parked v)

/-- The worker at `front()` takes the first task: the others saw two. -/
theorem Awake.pop (h : Awake pool) (hinv : PoolInv pool) {w : Fin n}
    {next : WorkerPc Task} {task : Option Task} {queue : List (Option Task)}
    (hat : pool.pc w = .pop) (htasks : pool.queue = task :: queue)
    (hpc : pool'.pc = Function.update pool.pc w next)
    (hstop : pool'.stopRequested = pool.stopRequested)
    (hqueue : pool'.queue = queue) (hidle : ¬ next.InLock)
    (hnext : next ≠ .parked ∧ next ≠ .lock) : Awake pool' := by
  have hother {v : Fin n} {pc : WorkerPc Task} (hv : pool'.pc v = pc) :
      ¬ pc.InLock := by
    rw [hpc] at hv
    intro hlock
    by_cases hvw : v = w
    · rw [hvw, Function.update_self] at hv
      exact hidle (hv ▸ hlock)
    · rw [Function.update_of_ne hvw] at hv
      exact hvw (hinv.exclusive (hv ▸ hlock) (hat ▸ trivial))
  refine ⟨hstop.trans h.requested, ⟨?_, ?_, ?_⟩, ?_⟩
  · exact fun v hv => hother hv trivial
  · exact fun v hv => absurd trivial (hother hv)
  · intro v hv
    rw [hpc] at hv
    by_cases hvw : v = w
    · rw [hvw, Function.update_self] at hv
      exact absurd hv hnext.2
    · rw [Function.update_of_ne hvw] at hv
      have hlong := (h.cannot.lock v hv).2 w hat
      rw [htasks, List.length_cons] at hlong
      rw [hqueue]
      exact ⟨by omega, fun u hu => absurd trivial (hother hu)⟩
  · intro v hv
    rw [hpc] at hv
    by_cases hvw : v = w
    · rw [hvw, Function.update_self] at hv
      exact hnext.1 hv
    · rw [Function.update_of_ne hvw] at hv
      exact h.parked v hv

theorem Awake.work (h : Awake pool) (hinv : PoolInv pool) {w : Fin n}
    (hwork : pool.work w = some pool') : Awake pool' := by
  obtain ⟨hpcs, hstop, hqueue⟩ := work_frame hwork
  have hrequested := h.requested
  have hmove (hpop : pool.pc w ≠ .pop)
      (hnext : pool.nextPc w ≠ .wait ∧ pool.nextPc w ≠ .parked ∧
        pool.nextPc w ≠ .pop ∧ pool.nextPc w ≠ .lock)
      (htest : pool.nextPc w = .testEmpty → 0 < pool.queue.length) :
      Awake pool' :=
    h.move hpcs hstop (hqueue hpop) hnext htest
  cases hpc : pool.pc w with
  | lock =>
      have hlong := (h.cannot.lock w hpc).1
      exact hmove (by simp [hpc]) (by simp [nextPc, hpc]) fun _ => hlong
  | testEmpty =>
      have hlong := List.ne_nil_of_length_pos (h.cannot.testEmpty w hpc)
      exact hmove (by simp [hpc]) (by simp [nextPc, hpc, hlong])
        (by simp [nextPc, hpc, hlong])
  | pop =>
      simp only [ThreadPool.work, hpc] at hwork
      split at hwork
      · exact absurd hwork (by simp)
      · rename_i htasks
        rw [← Option.some.inj hwork]
        exact h.pop hinv hpc htasks rfl rfl rfl id (by simp)
      · rename_i htasks
        rw [← Option.some.inj hwork]
        exact h.pop hinv hpc htasks rfl rfl rfl id (by simp)
  | wait => exact absurd hpc (h.cannot.wait w)
  | parked => exact absurd hpc (h.parked w)
  | test | woken | testWoken | testStop | taken | running | finishing
  | exited =>
      exact hmove (by simp [hpc]) (by simp [nextPc, hpc, hrequested])
        (by simp [nextPc, hpc, hrequested])

theorem Awake.stop [DecidableEq Task] (h : Awake pool) (hinv : PoolInv pool)
    (hstop : pool.stopStep = some pool') : Awake pool' := by
  cases stop_cases hstop with
  | request _ => exact h.congr rfl rfl le_rfl
  | notify _ =>
      refine h.congr ?_ h.requested le_rfl
      funext w
      have hparked := h.parked w
      change (pool.pc w).notified = pool.pc w
      cases hpc : pool.pc w with
      | parked => exact absurd hpc hparked
      | _ => rfl
  | drain hpc _ =>
      have hexited := hinv.joined (hpc ▸ trivial)
      exact ⟨h.requested, ⟨by simp [hexited], by simp [hexited],
        by simp [hexited]⟩, by simp [hexited]⟩
  | _ => exact h.congr rfl h.requested le_rfl

theorem Awake.step [DecidableEq Task] (h : Awake pool) (hinv : PoolInv pool)
    {act : PoolAct n Task} (hstep : pool.step act = some pool') :
    Awake pool' := by
  cases act with
  | work w => exact h.work hinv hstep
  | wake w => exact absurd (wakeUp_eq hstep).1 (h.parked w)
  | addPush task =>
      obtain ⟨_, rfl⟩ := addPush_eq hstep
      exact h.congr rfl h.requested (by simp)
  | addNotify waiter =>
      obtain ⟨_, woken, hwoken, rfl⟩ := addNotify_eq hstep
      rcases hwoken with rfl | ⟨w, hpc, rfl⟩
      · exact h.congr rfl h.requested le_rfl
      · exact absurd hpc (h.parked w)
  | stop => exact h.stop hinv hstep
  | blockCall =>
      obtain ⟨_, rfl⟩ := blockCall_eq hstep
      exact h.congr rfl h.requested le_rfl
  | blockTest =>
      obtain ⟨_, ⟨_, rfl⟩ | ⟨_, rfl⟩⟩ := blockTest_eq hstep
      · exact h.congr rfl h.requested le_rfl
      · exact h

/-- Only workers that sleep or wake are elsewhere. -/
theorem CannotPark.congr (h : CannotPark pool)
    (hqueue : pool'.queue = pool.queue)
    (hpc : ∀ w place, place ≠ .parked → place ≠ .woken →
      pool'.pc w = place → pool.pc w = place) : CannotPark pool' := by
  refine ⟨fun w hw => ?_, fun w hw => ?_, fun w hw => ?_⟩
  · exact h.wait w (hpc w _ (by simp) (by simp) hw)
  · rw [hqueue]
    exact h.testEmpty w (hpc w _ (by simp) (by simp) hw)
  · rw [hqueue]
    obtain ⟨hlong, hpop⟩ := h.lock w (hpc w _ (by simp) (by simp) hw)
    exact ⟨hlong, fun v hv => hpop v (hpc v _ (by simp) (by simp) hv)⟩

/-- `notify_all` moves no worker that is not parked. -/
theorem cannotPark_notified_iff :
    CannotPark { pool with
        pc := fun w => (pool.pc w).notified, stopPc := .notified } ↔
      CannotPark pool := by
  have hsame (w : Fin n) (place : WorkerPc Task) (hparked : place ≠ .parked)
      (hwoken : place ≠ .woken) :
      (pool.pc w).notified = place ↔ pool.pc w = place := by
    cases hpc : pool.pc w with
    | parked => simp [WorkerPc.notified, Ne.symm hwoken, Ne.symm hparked]
    | _ => rfl
  constructor
  · intro h
    exact h.congr rfl fun w place hparked hwoken =>
      (hsame w place hparked hwoken).mpr
  · intro h
    exact h.congr rfl fun w place hparked hwoken =>
      (hsame w place hparked hwoken).mp

section Parks

variable [DecidableEq Task]

/-- Some run from here leaves a worker parked. -/
def Parks (pool : ThreadPool n Task) : Prop :=
  ∃ more last w, pool.run more = some last ∧ last.pc w = .parked

theorem Parks.of_step {act : PoolAct n Task}
    (hstep : pool.step act = some pool') (h : Parks pool') : Parks pool := by
  obtain ⟨more, last, w, hrun, hparked⟩ := h
  refine ⟨act :: more, last, w, ?_, hparked⟩
  rw [run_cons, hstep]
  exact hrun

theorem parks_of_wait {w : Fin n} (hpc : pool.pc w = .wait) : Parks pool := by
  have hstep : pool.step (.work w) =
      some { pool.goto w .parked with mutex := none } := by
    simp [step, work, hpc]
  exact .of_step hstep ⟨[], _, w, rfl, by simp [goto]⟩

theorem parks_of_testEmpty {w : Fin n} (hpc : pool.pc w = .testEmpty)
    (hempty : pool.queue = []) : Parks pool := by
  have hstep : pool.step (.work w) = some (pool.goto w .wait) := by
    simp [step, work, hpc, hempty]
  refine .of_step hstep (parks_of_wait (w := w) ?_)
  simp [goto]

theorem parks_of_lock {w : Fin n} (hpc : pool.pc w = .lock)
    (hempty : pool.queue = []) (hfree : pool.mutex = none) : Parks pool := by
  have hstep : pool.step (.work w) =
      some { pool.goto w .testEmpty with mutex := some (.worker w) } := by
    simp [step, work, hpc, hfree]
  refine .of_step hstep (parks_of_testEmpty (w := w) ?_ hempty)
  simp [goto]

/-- A worker that leaves makes room for one that has passed the outer test. -/
theorem parks_of_testStop {v w : Fin n} (hv : pool.pc v = .testStop)
    (hw : pool.pc w = .lock) (hempty : pool.queue = [])
    (hstop : pool.stopRequested = true) : Parks pool := by
  have hne : w ≠ v := ne_of_pc hv hw (by simp)
  have hstep : pool.step (.work v) =
      some { pool.goto v .exited with mutex := none } := by
    simp [step, work, hv, hstop]
  refine .of_step hstep (parks_of_lock (w := w) ?_ hempty rfl)
  simpa [goto, hne] using hw

theorem parks_of_testWoken {v w : Fin n} (hv : pool.pc v = .testWoken)
    (hw : pool.pc w = .lock) (hempty : pool.queue = [])
    (hstop : pool.stopRequested = true) : Parks pool := by
  have hne : w ≠ v := ne_of_pc hv hw (by simp)
  have hstep : pool.step (.work v) = some (pool.goto v .testStop) := by
    simp [step, work, hv, hstop]
  refine .of_step hstep
    (parks_of_testStop (v := v) (w := w) ?_ ?_ hempty hstop)
  · simp [goto]
  · simpa [goto, hne] using hw

/-- The last task goes to another worker. -/
theorem parks_of_pop {v w : Fin n} {task : Option Task}
    (hv : pool.pc v = .pop) (hw : pool.pc w = .lock)
    (hqueue : pool.queue = [task]) : Parks pool := by
  have hne : w ≠ v := ne_of_pc hv hw (by simp)
  cases task with
  | none =>
      have hstep : pool.step (.work v) =
          some { pool.goto v .test with queue := [], mutex := none } := by
        simp [step, work, hv, hqueue]
      refine .of_step hstep (parks_of_lock (w := w) ?_ rfl rfl)
      simpa [goto, hne] using hw
  | some task =>
      have hstep : pool.step (.work v) =
          some { pool.goto v (.taken task) with
            queue := []
            mutex := none
            tidToTask := Function.update pool.tidToTask v (some task) } := by
        simp [step, work, hv, hqueue]
      refine .of_step hstep (parks_of_lock (w := w) ?_ rfl rfl)
      simpa [goto, hne] using hw

/-- A worker that has passed the outer test, and an empty queue: whoever has
the mutex gives it up or parks itself. -/
theorem parks_of_empty {w : Fin n} (hw : pool.pc w = .lock)
    (hempty : pool.queue = []) (hstop : pool.stopRequested = true)
    (hinv : PoolInv pool) (hfront : FrontInv pool)
    (hparked : ∀ v, pool.pc v ≠ .parked)
    (hopen : pool.mutex ≠ some .stopper) : Parks pool := by
  cases hmutex : pool.mutex with
  | none => exact parks_of_lock hw hempty hmutex
  | some holder =>
      cases holder with
      | worker v =>
          have hlock := (hinv.worker v).mpr hmutex
          cases hv : pool.pc v with
          | testEmpty => exact parks_of_testEmpty hv hempty
          | wait => exact parks_of_wait hv
          | testWoken => exact parks_of_testWoken hv hw hempty hstop
          | testStop => exact parks_of_testStop hv hw hempty hstop
          | pop =>
              refine absurd hempty (hfront v ?_)
              rw [hv]
              trivial
          | _ =>
              rw [hv] at hlock
              exact absurd hlock id
      | client =>
          have hstep : pool.step (.addNotify none) =
              some { pool with mutex := none } := by
            simp [step, hmutex, notifyOne, hparked]
          exact .of_step hstep (parks_of_lock hw hempty rfl)
      | stopper => exact absurd hmutex hopen

/-- Where no run parks a worker, none can park. -/
theorem cannotPark_of_not_parks (hnone : ¬ Parks pool)
    (hstop : pool.stopRequested = true) (hinv : PoolInv pool)
    (hfront : FrontInv pool) (hparked : ∀ v, pool.pc v ≠ .parked)
    (hopen : pool.mutex ≠ some .stopper) : CannotPark pool := by
  refine ⟨?_, ?_, ?_⟩
  · exact fun w hw => hnone (parks_of_wait hw)
  · intro w hw
    by_contra hshort
    have hempty := List.eq_nil_of_length_eq_zero (Nat.eq_zero_of_not_pos hshort)
    exact hnone (parks_of_testEmpty hw hempty)
  · intro w hw
    constructor
    · by_contra hshort
      have hempty :=
        List.eq_nil_of_length_eq_zero (Nat.eq_zero_of_not_pos hshort)
      exact hnone
        (parks_of_empty hw hempty hstop hinv hfront hparked hopen)
    · intro v hv
      by_contra hshort
      have hsome : pool.queue ≠ [] := hfront v (hv ▸ trivial)
      obtain ⟨task, hqueue⟩ := List.length_eq_one_iff.mp
        (show pool.queue.length = 1 by
          have := List.length_pos_iff.mpr hsome
          omega)
      exact hnone (parks_of_pop hv hw hqueue)

/-- What holds in every state a pool comes to. -/
theorem reachable_inv {acts : List (PoolAct n Task)}
    (hrun : (start n Task).run acts = some pool) :
    PoolInv pool ∧ FrontInv pool ∧
      (pool.stopPc ≠ .idle → pool.stopRequested = true) := by
  refine run_induction
    (fun pool => PoolInv pool ∧ FrontInv pool ∧
      (pool.stopPc ≠ .idle → pool.stopRequested = true))
    (fun _ => True) ?_ (fun _ _ => trivial) ⟨.start, ?_, ?_⟩ hrun
  · rintro act before after _ ⟨hinv, hfront, hrequested⟩ hstep
    refine ⟨hinv.step hstep, hfront.step hinv hstep, ?_⟩
    by_cases hact : act = .stop
    · subst hact
      cases stop_cases hstep with
      | request _ => exact fun _ => rfl
      | notify hpc | join hpc _ | lock hpc _ | sweep hpc | drain hpc _
      | leave hpc _ => exact fun _ => hrequested (by simp [hpc])
    · obtain ⟨hpc, hflag⟩ := stop_frame hact hstep
      rw [hpc, hflag]
      exact hrequested
  · exact fun w hw => absurd hw id
  · exact fun hidle => absurd rfl hidle

/-- In every run, no state after the `notify_all` of `Stop` has a worker parked
in `cv_.wait`, if and only if at that `notify_all` no worker can still come to
its `wait`. -/
theorem stop_leaves_none_parked_iff {acts : List (PoolAct n Task)}
    {notified : ThreadPool n Task}
    (hrun : (start n Task).run acts = some pool)
    (hrequested : pool.stopPc = .requested)
    (hnotify : pool.step .stop = some notified) :
    (∀ more last, notified.run more = some last →
        ∀ w, last.pc w ≠ .parked) ↔
      CannotPark pool := by
  obtain ⟨hinv, hfront, hflag⟩ := reachable_inv hrun
  have hinv' := hinv.step hnotify
  have hfront' := hfront.step hinv hnotify
  have hstop : pool.stopRequested = true := hflag (by simp [hrequested])
  obtain rfl : notified = { pool with
      pc := fun w => (pool.pc w).notified, stopPc := .notified } := by
    simpa [step, stopStep, hrequested, eq_comm] using hnotify
  have hparked (w : Fin n) : (pool.pc w).notified ≠ .parked := by
    cases pool.pc w <;> simp [WorkerPc.notified]
  rw [← cannotPark_notified_iff]
  constructor
  · intro hnone
    refine cannotPark_of_not_parks ?_ hstop hinv' hfront' hparked ?_
    · rintro ⟨more, last, w, hlast, hw⟩
      exact hnone more last hlast w hw
    · intro hmutex
      have hpc := hinv'.stopper.mpr hmutex
      simp at hpc
  · intro hcannot more last hlast w
    have hawake : PoolInv last ∧ Awake last := by
      refine run_induction (fun pool => PoolInv pool ∧ Awake pool)
        (fun _ => True) ?_ (fun _ _ => trivial)
        ⟨hinv', hstop, hcannot, hparked⟩ hlast
      rintro act before after _ ⟨hbefore, hawake⟩ hstep
      exact ⟨hbefore.step hstep, hawake.step hbefore hstep⟩
    exact hawake.2.parked w

/-- A worker that sleeps before the stop is woken for good. -/
theorem stop_leaves_none_parked_iff_sleeping :
    ∃ pool notified : ThreadPool 1 Nat,
      (start 1 Nat).run (List.replicate 4 (.work 0) ++ [.stop]) = some pool ∧
      pool.step .stop = some notified ∧
      ∀ more last, notified.run more = some last →
        ∀ w, last.pc w ≠ .parked := by
  obtain ⟨pool, hrun, hstate⟩ := Option.map_eq_some_iff.mp
    (show ((start 1 Nat).run (List.replicate 4 (.work 0) ++ [.stop])).map
      (fun pool => (pool.stopPc, pool.pc 0)) = some (.requested, .parked) by
        decide)
  obtain ⟨hrequested, hpc⟩ := Prod.mk.inj hstate
  have hall (w : Fin 1) : pool.pc w = .parked := by
    rw [Subsingleton.elim w 0, hpc]
  have hnotify : pool.step .stop = some { pool with
      pc := fun w => (pool.pc w).notified, stopPc := .notified } := by
    simp [step, stopStep, hrequested]
  exact ⟨pool, _, hrun, hnotify,
    (stop_leaves_none_parked_iff hrun hrequested hnotify).mpr
      ⟨by simp [hall], by simp [hall], by simp [hall]⟩⟩

/-- A worker past the outer test misses the flag and the notification. -/
theorem stop_leaves_worker_parked :
    ∃ pool : ThreadPool 1 Nat, (start 1 Nat).run
        [.work 0, .stop, .stop, .work 0, .work 0, .work 0] = some pool ∧
      pool.stopRequested = true ∧ pool.stopPc = .notified ∧
      pool.pc 0 = .parked := by
  obtain ⟨pool, hrun, hstate⟩ := Option.map_eq_some_iff.mp
    (show ((start 1 Nat).run
        [.work 0, .stop, .stop, .work 0, .work 0, .work 0]).map
      (fun pool => (pool.stopRequested, pool.stopPc, pool.pc 0)) =
        some (true, .notified, .parked) by decide)
  obtain ⟨hstop, hplaces⟩ := Prod.mk.inj hstate
  obtain ⟨hnotified, hpc⟩ := Prod.mk.inj hplaces
  exact ⟨pool, hrun, hstop, hnotified, hpc⟩

end Parks

end ThreadPool

end SimpleKV
