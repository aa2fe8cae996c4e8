/-
`ThreadPool`: workers that take tasks from one queue, `AddTask`, `Stop` and
`BlockUntilAllTaskHaveCompleted`.  A step is what one thread does between two
points where another can interfere; the mutex delimits the larger ones.
-/
import Mathlib.Data.List.FinRange
import Mathlib.Data.Fintype.Basic
import Mathlib.Tactic.Cases

namespace SimpleKV

/-- Where a worker stands in `ProcessingLoop`. -/
inductive WorkerPc (Task : Type) where
  /-- At the test of the outer loop. -/
  | test
  /-- Past it, before `lock(mutex_)`. -/
  | lock
  /-- At `queue_.empty()`. -/
  | testEmpty
  /-- Found the queue empty, before `cv_.wait`. -/
  | wait
  | parked
  /-- Notified, before `wait` has the mutex again. -/
  | woken
  /-- At the stop test behind `wait`. -/
  | testWoken
  /-- At the stop test behind the inner loop. -/
  | testStop
  /-- Before `queue_.front()`. -/
  | pop
  /-- Has unlocked, before `task->Run`. -/
  | taken (task : Task)
  | running (task : Task)
  /-- `Run` has returned, before `mutex_.lock()`. -/
  | finishing (task : Task)
  | exited
deriving DecidableEq

namespace WorkerPc

variable {Task : Type}

/-- A worker's place after `notify_all`. -/
def notified : WorkerPc Task → WorkerPc Task
  | .parked => .woken
  | pc => pc

/-- The worker has the mutex. -/
def InLock : WorkerPc Task → Prop
  | .testEmpty | .wait | .testWoken | .testStop | .pop => True
  | _ => False

/-- The task a worker has taken and not started. -/
def toStart : WorkerPc Task → List Task
  | .taken task => [task]
  | _ => []

/-- The task whose `Run` a worker is in. -/
def inRun : WorkerPc Task → List Task
  | .running task => [task]
  | _ => []

/-- The task a worker has run and not deleted. -/
def toDelete : WorkerPc Task → List Task
  | .finishing task => [task]
  | _ => []

/-- The worker has no task. -/
def Idle : WorkerPc Task → Prop
  | .taken _ | .running _ | .finishing _ => False
  | _ => True

theorem inLock_notified (pc : WorkerPc Task) :
    pc.notified.InLock ↔ pc.InLock := by
  cases pc <;> rfl

end WorkerPc

/-- Where `Stop` stands. -/
inductive StopPc where
  | idle
  | requested
  | notified
  | joined
  /-- Before the loop over `tid_to_task_`. -/
  | sweep
  /-- In the loop that empties the queue. -/
  | drain
  | returned
deriving DecidableEq

/-- Past the `join` of every worker. -/
def StopPc.Joined : StopPc → Prop
  | .joined | .sweep | .drain | .returned => True
  | _ => False

/-- Where `BlockUntilAllTaskHaveCompleted` stands. -/
inductive BlockPc where
  | idle
  | called
  | returned
deriving DecidableEq

/-- Who has the mutex. -/
inductive Holder (n : Nat) where
  | worker (w : Fin n)
  /-- A caller of `AddTask`, between its `push` and its `notify_one`. -/
  | client
  | stopper
deriving DecidableEq

/-- The members of a `ThreadPool` and its threads.  A null task is `none`. -/
structure ThreadPool (n : Nat) (Task : Type) where
  stopRequested : Bool
  queue : List (Option Task)
  mutex : Option (Holder n)
  tidToTask : Fin n → Option Task
  pc : Fin n → WorkerPc Task
  stopPc : StopPc
  blockPc : BlockPc

/-- A step of some thread. -/
inductive PoolAct (n : Nat) (Task : Type) where
  /-- The next step of a worker. -/
  | work (w : Fin n)
  /-- A spurious wake-up. -/
  | wake (w : Fin n)
  /-- `AddTask` up to its `push`. -/
  | addPush (task : Option Task)
  /-- The `notify_one` of `AddTask`, and the waiter it wakes. -/
  | addNotify (w : Option (Fin n))
  /-- The next step of `Stop`. -/
  | stop
  | blockCall
  /-- One test of the loop of `BlockUntilAllTaskHaveCompleted`. -/
  | blockTest
deriving DecidableEq

namespace ThreadPool

variable {n : Nat} {Task : Type}

/-- The pool after `Start`; a thread that has not begun is at its first test. -/
def start (n : Nat) (Task : Type) : ThreadPool n Task where
  stopRequested := false
  queue := []
  mutex := none
  tidToTask := fun _ => none
  pc := fun _ => .test
  stopPc := .idle
  blockPc := .idle

/-- A worker moves on. -/
def goto (w : Fin n) (next : WorkerPc Task) (pool : ThreadPool n Task) :
    ThreadPool n Task :=
  { pool with pc := Function.update pool.pc w next }

/-- `ProcessingLoop`: the next step of a worker.  `none` when it waits for the
mutex or to be woken, or has left; and for `front()` of an empty queue. -/
def work (w : Fin n) (pool : ThreadPool n Task) : Option (ThreadPool n Task) :=
  match pool.pc w with
  | .test => some (pool.goto w (if pool.stopRequested then .exited else .lock))
  | .lock =>
      if pool.mutex = none then
        some { pool.goto w .testEmpty with mutex := some (.worker w) }
      else none
  | .testEmpty =>
      some (pool.goto w (if pool.queue.isEmpty then .wait else .testStop))
  | .wait => some { pool.goto w .parked with mutex := none }
  | .parked => none
  | .woken =>
      if pool.mutex = none then
        some { pool.goto w .testWoken with mutex := some (.worker w) }
      else none
  | .testWoken =>
      some (pool.goto w (if pool.stopRequested then .testStop else .testEmpty))
  | .testStop =>
      if pool.stopRequested then
        some { pool.goto w .exited with mutex := none }
      else some (pool.goto w .pop)
  | .pop =>
      match pool.queue with
      | [] => none
      | none :: queue => some { pool.goto w .test with queue, mutex := none }
      | some task :: queue =>
          some
            { pool.goto w (.taken task) with
              queue
              mutex := none
              tidToTask := Function.update pool.tidToTask w (some task) }
  | .taken task => some (pool.goto w (.running task))
  | .running task => some (pool.goto w (.finishing task))
  | .finishing _ =>
      if pool.mutex = none then
        some
          { pool.goto w .test with
            tidToTask := Function.update pool.tidToTask w none }
      else none
  | .exited => none

/-- A waiter is notified. -/
def wakeUp (w : Fin n) (pool : ThreadPool n Task) :
    Option (ThreadPool n Task) :=
  match pool.pc w with
  | .parked => some (pool.goto w .woken)
  | _ => none

section Steps

variable [DecidableEq Task]

/-- `notify_one` with the waiter it picks: one that waits, if there is any. -/
def notifyOne (waiter : Option (Fin n)) (pool : ThreadPool n Task) :
    Option (ThreadPool n Task) :=
  match waiter with
  | some w => pool.wakeUp w
  | none => if ∀ w, pool.pc w ≠ .parked then some pool else none

/-- The next step of `Stop`. -/
def stopStep (pool : ThreadPool n Task) : Option (ThreadPool n Task) :=
  match pool.stopPc with
  | .idle => some { pool with stopRequested := true, stopPc := .requested }
  | .requested =>
      some
        { pool with
          pc := fun w => (pool.pc w).notified
          stopPc := .notified }
  | .notified =>
      if ∀ w, pool.pc w = .exited then some { pool with stopPc := .joined }
      else none
  | .joined =>
      if pool.mutex = none then
        some { pool with mutex := some .stopper, stopPc := .sweep }
      else none
  | .sweep => some { pool with stopPc := .drain }
  | .drain =>
      match pool.queue with
      | [] => some { pool with mutex := none, stopPc := .returned }
      | _ :: queue => some { pool with queue }
  | .returned => none

/-- One step. -/
def step :
    PoolAct n Task → ThreadPool n Task → Option (ThreadPool n Task)
  | .work w, pool => pool.work w
  | .wake w, pool => pool.wakeUp w
  | .addPush task, pool =>
      if pool.mutex = none then
        some { pool with queue := pool.queue ++ [task], mutex := some .client }
      else none
  | .addNotify waiter, pool =>
      if pool.mutex = some .client then
        (pool.notifyOne waiter).map fun pool => { pool with mutex := none }
      else none
  | .stop, pool => pool.stopStep
  | .blockCall, pool =>
      match pool.blockPc with
      | .idle => some { pool with blockPc := .called }
      | _ => none
  | .blockTest, pool =>
      match pool.blockPc with
      | .called =>
          if pool.queue.isEmpty then some { pool with blockPc := .returned }
          else some pool
      | _ => none

/-- The steps in order. -/
def run (acts : List (PoolAct n Task))
    (pool : ThreadPool n Task) : Option (ThreadPool n Task) :=
  acts.foldlM (fun pool act => pool.step act) pool

end Steps

/-- A worker's step by what it does to the mutex, the queue and the tasks. -/
inductive WorkStep (w : Fin n) (pool : ThreadPool n Task) :
    ThreadPool n Task → Prop where
  | move {next : WorkerPc Task} : (pool.pc w).Idle → next.Idle →
      pool.pc w ≠ .pop → (next.InLock ↔ (pool.pc w).InLock) →
      WorkStep w pool (pool.goto w next)
  | acquire {next : WorkerPc Task} : (pool.pc w).Idle → next.Idle →
      pool.pc w ≠ .pop → next.InLock → pool.mutex = none →
      WorkStep w pool { pool.goto w next with mutex := some (.worker w) }
  | release {next : WorkerPc Task} : (pool.pc w).Idle → next.Idle →
      pool.pc w ≠ .pop → (pool.pc w).InLock → ¬ next.InLock →
      WorkStep w pool { pool.goto w next with mutex := none }
  | discard {queue : List (Option Task)} : pool.pc w = .pop →
      pool.queue = none :: queue →
      WorkStep w pool { pool.goto w .test with queue, mutex := none }
  | take {task : Task} {queue : List (Option Task)} : pool.pc w = .pop →
      pool.queue = some task :: queue →
      WorkStep w pool
        { pool.goto w (.taken task) with
          queue
          mutex := none
          tidToTask := Function.update pool.tidToTask w (some task) }
  | start {task : Task} : pool.pc w = .taken task →
      WorkStep w pool (pool.goto w (.running task))
  | finish {task : Task} : pool.pc w = .running task →
      WorkStep w pool (pool.goto w (.finishing task))
  | delete {task : Task} : pool.pc w = .finishing task →
      WorkStep w pool
        { pool.goto w .test with
          tidToTask := Function.update pool.tidToTask w none }

variable {pool pool' : ThreadPool n Task}

theorem work_cases {w : Fin n} (h : pool.work w = some pool') :
    WorkStep w pool pool' := by
  cases hpc : pool.pc w with
  | test | testEmpty | testWoken =>
      simp only [work, hpc] at h
      rw [← Option.some.inj h]
      refine .move (hpc ▸ trivial) ?_ (by simp [hpc]) ?_
      · split_ifs <;> trivial
      · rw [hpc]
        split_ifs <;> simp [WorkerPc.InLock]
  | lock | woken =>
      simp only [work, hpc] at h
      split_ifs at h with hfree
      rw [← Option.some.inj h]
      refine .acquire (hpc ▸ trivial) ?_ (by simp [hpc]) ?_ hfree <;> trivial
  | wait =>
      simp only [work, hpc] at h
      rw [← Option.some.inj h]
      refine .release (hpc ▸ trivial) ?_ (by simp [hpc]) (hpc ▸ trivial) id
      trivial
  | testStop =>
      simp only [work, hpc] at h
      split_ifs at h
      · rw [← Option.some.inj h]
        refine .release (hpc ▸ trivial) ?_ (by simp [hpc]) (hpc ▸ trivial) id
        trivial
      · rw [← Option.some.inj h]
        refine .move (hpc ▸ trivial) ?_ (by simp [hpc]) ?_
        · trivial
        · simp [hpc, WorkerPc.InLock]
  | pop =>
      simp only [work, hpc] at h
      split at h
      · exact absurd h (by simp)
      · rename_i hqueue
        rw [← Option.some.inj h]
        exact .discard hpc hqueue
      · rename_i hqueue
        rw [← Option.some.inj h]
        exact .take hpc hqueue
  | taken task =>
      simp only [work, hpc] at h
      rw [← Option.some.inj h]
      exact .start hpc
  | running task =>
      simp only [work, hpc] at h
      rw [← Option.some.inj h]
      exact .finish hpc
  | finishing task =>
      simp only [work, hpc] at h
      split_ifs at h
      rw [← Option.some.inj h]
      exact .delete hpc
  | parked | exited =>
      simp only [work, hpc] at h
      exact absurd h (by simp)

theorem pc_ne_exited_of_work {w : Fin n} (h : pool.work w = some pool') :
    pool.pc w ≠ .exited := by
  intro hpc
  simp [work, hpc] at h

theorem wakeUp_eq {w : Fin n} (h : pool.wakeUp w = some pool') :
    pool.pc w = .parked ∧ pool' = pool.goto w .woken := by
  unfold wakeUp at h
  split at h
  · rename_i hpc
    exact ⟨hpc, (Option.some.inj h).symm⟩
  · exact absurd h (by simp)

section Steps

variable [DecidableEq Task]

/-- A step of `Stop`. -/
inductive StopStep (pool : ThreadPool n Task) : ThreadPool n Task → Prop where
  | request : pool.stopPc = .idle →
      StopStep pool { pool with stopRequested := true, stopPc := .requested }
  | notify : pool.stopPc = .requested →
      StopStep pool
        { pool with pc := fun w => (pool.pc w).notified, stopPc := .notified }
  | join : pool.stopPc = .notified → (∀ w, pool.pc w = .exited) →
      StopStep pool { pool with stopPc := .joined }
  | lock : pool.stopPc = .joined → pool.mutex = none →
      StopStep pool { pool with mutex := some .stopper, stopPc := .sweep }
  | sweep : pool.stopPc = .sweep → StopStep pool { pool with stopPc := .drain }
  | drain {task : Option Task} {queue : List (Option Task)} :
      pool.stopPc = .drain → pool.queue = task :: queue →
      StopStep pool { pool with queue }
  | leave : pool.stopPc = .drain → pool.queue = [] →
      StopStep pool { pool with mutex := none, stopPc := .returned }

theorem stop_cases (h : pool.stopStep = some pool') : StopStep pool pool' := by
  cases hpc : pool.stopPc with
  | idle =>
      simp only [stopStep, hpc] at h
      rw [← Option.some.inj h]
      exact .request hpc
  | requested =>
      simp only [stopStep, hpc] at h
      rw [← Option.some.inj h]
      exact .notify hpc
  | notified =>
      simp only [stopStep, hpc] at h
      split_ifs at h with hexited
      rw [← Option.some.inj h]
      exact .join hpc hexited
  | joined =>
      simp only [stopStep, hpc] at h
      split_ifs at h with hfree
      rw [← Option.some.inj h]
      exact .lock hpc hfree
  | sweep =>
      simp only [stopStep, hpc] at h
      rw [← Option.some.inj h]
      exact .sweep hpc
  | drain =>
      simp only [stopStep, hpc] at h
      split at h
      · rename_i hqueue
        rw [← Option.some.inj h]
        exact .leave hpc hqueue
      · rename_i hqueue
        rw [← Option.some.inj h]
        simpa only [hpc] using StopStep.drain hpc hqueue
  | returned =>
      simp only [stopStep, hpc] at h
      exact absurd h (by simp)

theorem addPush_eq {task : Option Task}
    (h : pool.step (.addPush task) = some pool') :
    pool.mutex = none ∧
      pool' = { pool with
        queue := pool.queue ++ [task], mutex := some .client } := by
  simp only [step] at h
  split_ifs at h with hfree
  exact ⟨hfree, (Option.some.inj h).symm⟩

theorem addNotify_eq {waiter : Option (Fin n)}
    (h : pool.step (.addNotify waiter) = some pool') :
    pool.mutex = some .client ∧ ∃ woken : ThreadPool n Task,
      (woken = pool ∨
        ∃ w, pool.pc w = .parked ∧ woken = pool.goto w .woken) ∧
      pool' = { woken with mutex := none } := by
  simp only [step] at h
  split_ifs at h with hmine
  obtain ⟨woken, hwoken, rfl⟩ := Option.map_eq_some_iff.mp h
  refine ⟨hmine, woken, ?_, rfl⟩
  cases waiter with
  | none =>
      simp only [notifyOne] at hwoken
      split_ifs at hwoken
      exact Or.inl (Option.some.inj hwoken).symm
  | some w => exact Or.inr ⟨w, wakeUp_eq hwoken⟩

theorem blockCall_eq (h : pool.step .blockCall = some pool') :
    pool.blockPc = .idle ∧ pool' = { pool with blockPc := .called } := by
  simp only [step] at h
  split at h
  · rename_i hpc
    exact ⟨hpc, (Option.some.inj h).symm⟩
  · exact absurd h (by simp)

theorem blockTest_eq (h : pool.step .blockTest = some pool') :
    pool.blockPc = .called ∧
      ((pool.queue = [] ∧ pool' = { pool with blockPc := .returned }) ∨
        (pool.queue ≠ [] ∧ pool' = pool)) := by
  simp only [step] at h
  split at h
  · rename_i hpc
    split_ifs at h with hempty
    · exact ⟨hpc, Or.inl ⟨List.isEmpty_iff.mp hempty,
        (Option.some.inj h).symm⟩⟩
    · exact ⟨hpc, Or.inr ⟨mt List.isEmpty_iff.mpr hempty,
        (Option.some.inj h).symm⟩⟩
  · exact absurd h (by simp)

/-- Only `Stop` moves its own program counter and requests the stop. -/
theorem stop_frame {act : PoolAct n Task} (hact : act ≠ .stop)
    (h : pool.step act = some pool') :
    pool'.stopPc = pool.stopPc ∧ pool'.stopRequested = pool.stopRequested := by
  cases act with
  | work w => cases work_cases h <;> exact ⟨rfl, rfl⟩
  | wake w =>
      obtain ⟨_, rfl⟩ := wakeUp_eq h
      exact ⟨rfl, rfl⟩
  | addPush task =>
      obtain ⟨_, rfl⟩ := addPush_eq h
      exact ⟨rfl, rfl⟩
  | addNotify waiter =>
      obtain ⟨_, woken, hwoken, rfl⟩ := addNotify_eq h
      rcases hwoken with rfl | ⟨w, _, rfl⟩ <;> exact ⟨rfl, rfl⟩
  | stop => exact absurd rfl hact
  | blockCall =>
      obtain ⟨_, rfl⟩ := blockCall_eq h
      exact ⟨rfl, rfl⟩
  | blockTest =>
      obtain ⟨_, ⟨_, rfl⟩ | ⟨_, rfl⟩⟩ := blockTest_eq h <;> exact ⟨rfl, rfl⟩

theorem run_append (acts more : List (PoolAct n Task)) :
    run (acts ++ more) pool = (run acts pool).bind (run more) :=
  List.foldlM_append ..

theorem run_cons (act : PoolAct n Task) (acts : List (PoolAct n Task)) :
    run (act :: acts) pool = (pool.step act).bind (run acts) :=
  List.foldlM_cons ..

/-- What holds at first and is kept by every step holds after every run. -/
theorem run_induction (Inv : ThreadPool n Task → Prop)
    (ok : PoolAct n Task → Prop)
    (hstep : ∀ act pool pool', ok act → Inv pool → pool.step act = some pool' →
      Inv pool')
    {acts : List (PoolAct n Task)} (hok : ∀ act ∈ acts, ok act)
    (hfirst : Inv pool) (hrun : run acts pool = some pool') : Inv pool' := by
  induction acts generalizing pool with
  | nil => exact Option.some.inj (show some pool = some pool' from hrun) ▸ hfirst
  | cons act acts ih =>
      rw [run_cons] at hrun
      obtain ⟨next, hnext, hrest⟩ := Option.bind_eq_some_iff.mp hrun
      have hhead := hok act List.mem_cons_self
      exact ih (fun other hother => hok other (List.mem_cons_of_mem _ hother))
        (hstep act pool next hhead hfirst hnext) hrest

end Steps

/-- The mutex is held by the worker inside its critical section, if any, and by
`Stop` between its lock and its unlock; behind `join` all workers have left. -/
structure PoolInv (pool : ThreadPool n Task) : Prop where
  worker : ∀ w, (pool.pc w).InLock ↔ pool.mutex = some (.worker w)
  stopper : pool.stopPc = .sweep ∨ pool.stopPc = .drain ↔
    pool.mutex = some .stopper
  joined : pool.stopPc.Joined → ∀ w, pool.pc w = .exited

theorem PoolInv.start : PoolInv (start n Task) where
  worker := fun w => by simp [ThreadPool.start, WorkerPc.InLock]
  stopper := by simp [ThreadPool.start]
  joined := fun h => absurd h id

theorem PoolInv.not_joined (h : PoolInv pool) {w : Fin n}
    (hlive : pool.pc w ≠ .exited) : ¬ pool.stopPc.Joined :=
  fun hjoined => hlive (h.joined hjoined w)

/-- A worker moves on without touching the mutex. -/
theorem PoolInv.stay (h : PoolInv pool) {w : Fin n} {next : WorkerPc Task}
    (hlive : pool.pc w ≠ .exited)
    (hpc : pool'.pc = Function.update pool.pc w next)
    (hmutex : pool'.mutex = pool.mutex) (hstop : pool'.stopPc = pool.stopPc)
    (hsame : next.InLock ↔ (pool.pc w).InLock) : PoolInv pool' := by
  refine ⟨fun other => ?_, ?_, ?_⟩
  · rw [hpc, hmutex]
    by_cases hother : other = w
    · rw [hother, Function.update_self, hsame]
      exact h.worker w
    · rw [Function.update_of_ne hother]
      exact h.worker other
  · rw [hmutex, hstop]
    exact h.stopper
  · rw [hstop]
    exact fun hjoined => absurd hjoined (h.not_joined hlive)

/-- A worker takes or releases the mutex, which no one else has. -/
theorem PoolInv.handOver (h : PoolInv pool) {w : Fin n} {next : WorkerPc Task}
    (hlive : pool.pc w ≠ .exited)
    (hpc : pool'.pc = Function.update pool.pc w next)
    (hstop : pool'.stopPc = pool.stopPc)
    (hbefore : pool.mutex = none ∨ pool.mutex = some (.worker w))
    (hafter : pool'.mutex = none ∨ pool'.mutex = some (.worker w))
    (hnext : next.InLock ↔ pool'.mutex = some (.worker w)) : PoolInv pool' := by
  have hapart {other : Fin n} (hother : other ≠ w) :
      pool.mutex ≠ some (.worker other) ∧
        pool'.mutex ≠ some (.worker other) := by
    rcases hbefore with hbefore | hbefore <;>
      rcases hafter with hafter | hafter <;>
      simp [hbefore, hafter, Ne.symm hother]
  have hnotStopper :
      pool.mutex ≠ some .stopper ∧ pool'.mutex ≠ some .stopper := by
    rcases hbefore with hbefore | hbefore <;>
      rcases hafter with hafter | hafter <;> simp [hbefore, hafter]
  refine ⟨fun other => ?_, ?_, ?_⟩
  · rw [hpc]
    by_cases hother : other = w
    · rw [hother, Function.update_self]
      exact hnext
    · rw [Function.update_of_ne hother, h.worker other]
      exact iff_of_false (hapart hother).1 (hapart hother).2
  · rw [hstop, h.stopper]
    exact iff_of_false hnotStopper.1 hnotStopper.2
  · rw [hstop]
    exact fun hjoined => absurd hjoined (h.not_joined hlive)

theorem PoolInv.work (h : PoolInv pool) {w : Fin n}
    (hwork : pool.work w = some pool') : PoolInv pool' := by
  have hlive := pc_ne_exited_of_work hwork
  cases work_cases hwork with
  | move _ _ _ hsame => exact h.stay hlive rfl rfl rfl hsame
  | acquire _ _ _ hnext hfree =>
      exact h.handOver hlive rfl rfl (Or.inl hfree) (Or.inr rfl)
        (iff_of_true hnext rfl)
  | release _ _ _ hheld hnext =>
      exact h.handOver hlive rfl rfl (Or.inr ((h.worker w).mp hheld))
        (Or.inl rfl) (iff_of_false hnext (by simp))
  | discard hpc _ | take hpc _ =>
      have hheld := (h.worker w).mp (hpc ▸ trivial)
      exact h.handOver hlive rfl rfl (Or.inr hheld) (Or.inl rfl)
        (iff_of_false id (by simp))
  | start hpc | finish hpc | delete hpc =>
      refine h.stay hlive rfl rfl rfl ?_
      simp [hpc, WorkerPc.InLock]

/-- A waiting worker is woken. -/
theorem PoolInv.wakeUp (h : PoolInv pool) {w : Fin n}
    (hwake : pool.wakeUp w = some pool') : PoolInv pool' := by
  obtain ⟨hpc, rfl⟩ := wakeUp_eq hwake
  exact h.stay (by simp [hpc]) rfl rfl rfl (by simp [hpc, WorkerPc.InLock])

/-- The workers stay where they are, and none of them has the mutex. -/
theorem PoolInv.outside (h : PoolInv pool) (hpc : pool'.pc = pool.pc)
    (hold : ∀ w, pool.mutex ≠ some (.worker w))
    (hnew : ∀ w, pool'.mutex ≠ some (.worker w))
    (hstopper : pool'.stopPc = .sweep ∨ pool'.stopPc = .drain ↔
      pool'.mutex = some .stopper)
    (hjoined : pool'.stopPc.Joined → pool.stopPc.Joined) : PoolInv pool' := by
  refine ⟨fun w => ?_, hstopper, fun hnow => ?_⟩
  · rw [hpc, h.worker w]
    exact iff_of_false (hold w) (hnew w)
  · rw [hpc]
    exact h.joined (hjoined hnow)

theorem PoolInv.stop [DecidableEq Task] (h : PoolInv pool)
    (hstop : pool.stopStep = some pool') : PoolInv pool' := by
  have hstopper := h.stopper
  cases stop_cases hstop with
  | request hpc =>
      rw [hpc] at hstopper
      exact ⟨h.worker, by simpa using hstopper, fun hnow => absurd hnow id⟩
  | notify hpc =>
      rw [hpc] at hstopper
      refine ⟨fun w => ?_, by simpa using hstopper, fun hnow => absurd hnow id⟩
      rw [← h.worker w]
      exact WorkerPc.inLock_notified _
  | join hpc hexited =>
      rw [hpc] at hstopper
      exact ⟨h.worker, by simpa using hstopper, fun _ => hexited⟩
  | lock hpc hfree =>
      exact h.outside rfl (by simp [hfree]) (by simp) (by simp)
        fun _ => hpc ▸ trivial
  | sweep hpc =>
      rw [hpc] at hstopper
      exact ⟨h.worker, by simpa using hstopper,
        fun _ => h.joined (hpc ▸ trivial)⟩
  | drain hpc _ => exact ⟨h.worker, h.stopper, h.joined⟩
  | leave hpc _ =>
      have hmine : pool.mutex = some .stopper := hstopper.mp (Or.inr hpc)
      exact h.outside rfl (by simp [hmine]) (by simp) (by simp)
        fun _ => hpc ▸ trivial

theorem PoolInv.step [DecidableEq Task] (h : PoolInv pool)
    {act : PoolAct n Task} (hstep : pool.step act = some pool') :
    PoolInv pool' := by
  have hstopper := h.stopper
  cases act with
  | work w => exact h.work hstep
  | wake w => exact h.wakeUp hstep
  | addPush task =>
      obtain ⟨hfree, rfl⟩ := addPush_eq hstep
      rw [hfree] at hstopper
      exact h.outside rfl (by simp [hfree]) (by simp) (by simpa using hstopper)
        id
  | addNotify waiter =>
      obtain ⟨hmine, woken, hwoken, rfl⟩ := addNotify_eq hstep
      rw [hmine] at hstopper
      have hfree : PoolInv { pool with mutex := none } :=
        h.outside rfl (by simp [hmine]) (by simp) (by simpa using hstopper) id
      rcases hwoken with rfl | ⟨w, hpc, rfl⟩
      · exact hfree
      · exact hfree.stay (by simp [hpc]) rfl rfl rfl
          (by simp [hpc, WorkerPc.InLock])
  | stop => exact h.stop hstep
  | blockCall =>
      obtain ⟨_, rfl⟩ := blockCall_eq hstep
      exact ⟨h.worker, h.stopper, h.joined⟩
  | blockTest =>
      obtain ⟨_, ⟨_, rfl⟩ | ⟨_, rfl⟩⟩ := blockTest_eq hstep
      · exact ⟨h.worker, h.stopper, h.joined⟩
      · exact h

end ThreadPool

end SimpleKV
