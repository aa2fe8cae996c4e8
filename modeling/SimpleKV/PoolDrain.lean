/-
The queue of a `ThreadPool` as long as nobody calls `Stop`.  `AddTask` wakes one
worker for each task, under the mutex.  That is enough: no task waits behind a
sleeping worker, and when the clients are quiet the workers run every task,
whatever the schedule.
-/
import Mathlib.Algebra.BigOperators.Group.Finset.Piecewise
import SimpleKV.PoolStop
import SimpleKV.TaskHistory

namespace SimpleKV

namespace WorkerPc

variable {Task : Type}

/-- The worker looks at the queue before it sleeps. -/
def seeks : WorkerPc Task → Bool
  | .test | .lock | .testEmpty | .woken | .testWoken | .testStop | .pop => true
  | _ => false

/-- The steps a worker can take until it sleeps or comes to `front()`, counting
those for the task it has. -/
def stepsLeft : WorkerPc Task → Nat
  | .taken _ => 7
  | .running _ => 6
  | .finishing _ => 5
  | .test | .woken => 4
  | .lock | .testWoken => 3
  | .testEmpty => 2
  | .wait | .testStop => 1
  | .parked | .pop | .exited => 0

end WorkerPc

namespace ThreadPool

variable {n : Nat} {Task : Type} {pool pool' : ThreadPool n Task}

/-- How many workers look at the queue before they sleep. -/
def seekers (pool : ThreadPool n Task) : Nat :=
  ∑ w, (pool.pc w).seeks.toNat

/-- The steps all workers together can take with no more tasks added. -/
def stepsLeft (pool : ThreadPool n Task) : Nat :=
  8 * pool.queue.length + ∑ w, (pool.pc w).stepsLeft

/-- One worker moves: what that does to a sum over all. -/
theorem sum_update (f : WorkerPc Task → Nat) (pc : Fin n → WorkerPc Task)
    (w : Fin n) (next : WorkerPc Task) :
    (∑ v, f (Function.update pc w next v)) + f (pc w) =
      (∑ v, f (pc v)) + f next := by
  have hcomp : (fun v => f (Function.update pc w next v)) =
      Function.update (fun v => f (pc v)) w (f next) :=
    Function.comp_update f pc w next
  rw [hcomp, Finset.sum_update_of_mem (Finset.mem_univ w),
    Finset.sum_eq_add_sum_sdiff_singleton_of_mem (Finset.mem_univ w)
      (fun v => f (pc v))]
  omega

theorem pop_cases {w : Fin n} (h : pool.work w = some pool')
    (hpc : pool.pc w = .pop) : ∃ task, pool.queue = task :: pool'.queue := by
  simp only [work, hpc] at h
  split at h
  · exact absurd h (by simp)
  · rename_i hqueue
    rw [← Option.some.inj h]
    exact ⟨none, hqueue⟩
  · rename_i task _ hqueue
    rw [← Option.some.inj h]
    exact ⟨some task, hqueue⟩

theorem stepsLeft_nextPc {w : Fin n} (h : pool.work w = some pool')
    (hpop : pool.pc w ≠ .pop) :
    (pool.nextPc w).stepsLeft < (pool.pc w).stepsLeft := by
  cases hpc : pool.pc w with
  | test | testEmpty | testWoken | testStop =>
      simp only [nextPc, hpc]
      split_ifs <;> simp [WorkerPc.stepsLeft]
  | pop => exact absurd hpc hpop
  | parked | exited => simp [work, hpc] at h
  | _ => simp [nextPc, hpc, WorkerPc.stepsLeft]

theorem stepsLeft_work {w : Fin n} (h : pool.work w = some pool') :
    pool'.stepsLeft < pool.stepsLeft := by
  obtain ⟨hpcs, _, hsame⟩ := work_frame h
  have hsum := sum_update WorkerPc.stepsLeft pool.pc w (pool.nextPc w)
  rw [stepsLeft, stepsLeft, hpcs]
  by_cases hpop : pool.pc w = .pop
  · -- The task that leaves the queue pays for the steps of its `Run`.
    obtain ⟨task, hqueue⟩ := pop_cases h hpop
    have hnext : (pool.nextPc w).stepsLeft ≤ 7 := by
      cases task <;> simp [nextPc, hpop, hqueue, WorkerPc.stepsLeft]
    rw [hqueue, List.length_cons]
    omega
  · have hless := stepsLeft_nextPc h hpop
    rw [hsame hpop]
    omega

/-- The task that `AddTask` has pushed and not yet announced. -/
def pushed (pool : ThreadPool n Task) : Nat :=
  if pool.mutex = some .client then 1 else 0

/-- Before `Stop`: a worker goes to sleep with the queue empty, and while one
sleeps every announced task has a worker of its own that comes for it. -/
structure OpenInv (pool : ThreadPool n Task) : Prop where
  running : pool.stopRequested = false
  live : ∀ w, pool.pc w ≠ .exited
  empty : ∀ w, pool.pc w = .wait → pool.queue = []
  covered : (∃ w, pool.pc w = .parked) →
    pool.queue.length ≤ pool.seekers + pool.pushed

theorem OpenInv.start : OpenInv (start n Task) where
  running := rfl
  live := fun _ => by simp [ThreadPool.start]
  empty := fun _ _ => rfl
  covered := fun _ => Nat.zero_le _

/-- A worker's step neither takes the mutex from a client nor gives it to
one. -/
theorem PoolInv.pushed_work (h : PoolInv pool) {w : Fin n}
    (hwork : pool.work w = some pool') : pool'.pushed = pool.pushed := by
  have hheld (hpc : (pool.pc w).InLock) : pool.mutex = some (.worker w) :=
    (h.worker w).mp hpc
  cases work_cases hwork with
  | acquire _ _ _ _ hfree => simp [pushed, hfree]
  | release _ _ _ hlock _ => simp [pushed, hheld hlock]
  | discard hpc _ | take hpc _ => simp [pushed, hheld (hpc ▸ trivial)]
  | _ => rfl

theorem OpenInv.empty_work (h : OpenInv pool) {w : Fin n}
    (hwork : pool.work w = some pool') :
    ∀ v, pool'.pc v = .wait → pool'.queue = [] := by
  intro v hv
  obtain ⟨hpcs, _, hsame⟩ := work_frame hwork
  rw [hpcs] at hv
  by_cases hvw : v = w
  · rw [hvw, Function.update_self] at hv
    cases hpc : pool.pc w with
    | testEmpty =>
        rw [hsame (by simp [hpc])]
        simp only [nextPc, hpc] at hv
        split_ifs at hv with hempty
        exact List.isEmpty_iff.mp hempty
    | test | testWoken | testStop =>
        simp only [nextPc, hpc] at hv
        split_ifs at hv
    | pop =>
        simp only [nextPc, hpc] at hv
        split at hv <;> exact absurd hv (by simp)
    | parked | exited => simp [work, hpc] at hwork
    | _ => exact absurd hv (by simp [nextPc, hpc])
  · rw [Function.update_of_ne hvw] at hv
    have hempty := h.empty v hv
    by_cases hpop : pool.pc w = .pop
    · obtain ⟨task, hqueue⟩ := pop_cases hwork hpop
      rw [hempty] at hqueue
      exact absurd hqueue (by simp)
    · rw [hsame hpop, hempty]

theorem seekers_update {w : Fin n} {next : WorkerPc Task}
    (hpcs : pool'.pc = Function.update pool.pc w next) :
    pool'.seekers + (pool.pc w).seeks.toNat =
      pool.seekers + next.seeks.toNat := by
  rw [seekers, hpcs]
  exact sum_update (fun pc => pc.seeks.toNat) pool.pc w next

/-- Only at `front()` and at an empty queue does a worker turn away. -/
theorem seeks_nextPc {w : Fin n} (hrunning : pool.stopRequested = false)
    (hpop : pool.pc w ≠ .pop)
    (hempty : pool.pc w = .testEmpty → pool.queue ≠ []) :
    (pool.pc w).seeks.toNat ≤ (pool.nextPc w).seeks.toNat := by
  cases hpc : pool.pc w with
  | testEmpty =>
      have hsome := mt List.isEmpty_iff.mp (hempty hpc)
      simp [nextPc, hpc, hsome, WorkerPc.seeks]
  | pop => exact absurd hpc hpop
  | test | testWoken | testStop =>
      simp [nextPc, hpc, hrunning, WorkerPc.seeks]
  | _ => simp [nextPc, hpc, WorkerPc.seeks]

theorem nextPc_eq_parked {w : Fin n} (h : pool.nextPc w = .parked) :
    pool.pc w = .wait ∨ pool.pc w = .parked := by
  cases hpc : pool.pc w with
  | wait => exact Or.inl rfl
  | parked => exact Or.inr rfl
  | pop =>
      simp only [nextPc, hpc] at h
      split at h <;> exact absurd h (by simp)
  | test | testEmpty | testWoken | testStop =>
      simp only [nextPc, hpc] at h
      split_ifs at h
  | _ => simp [nextPc, hpc] at h

theorem OpenInv.covered_work (h : OpenInv pool) (hinv : PoolInv pool)
    {w : Fin n} (hwork : pool.work w = some pool')
    (hparked : ∃ v, pool'.pc v = .parked) :
    pool'.queue.length ≤ pool'.seekers + pool'.pushed := by
  obtain ⟨hpcs, _, hsame⟩ := work_frame hwork
  have hsum := seekers_update hpcs
  have hpushed := hinv.pushed_work hwork
  by_cases hwait : pool.pc w = .wait
  · rw [hsame (by simp [hwait]), h.empty w hwait]
    exact Nat.zero_le _
  -- Who sleeps now slept before.
  have hold : pool.queue.length ≤ pool.seekers + pool.pushed := by
    apply h.covered
    obtain ⟨v, hv⟩ := hparked
    rw [hpcs] at hv
    by_cases hvw : v = w
    · rw [hvw, Function.update_self] at hv
      exact ⟨w, (nextPc_eq_parked hv).resolve_left hwait⟩
    · rw [Function.update_of_ne hvw] at hv
      exact ⟨v, hv⟩
  by_cases hpop : pool.pc w = .pop
  · obtain ⟨task, hqueue⟩ := pop_cases hwork hpop
    have hone : (pool.pc w).seeks.toNat = 1 := by
      rw [hpop]
      rfl
    rw [hqueue, List.length_cons] at hold
    omega
  · rw [hsame hpop]
    by_cases hempty : pool.queue = []
    · rw [hempty]
      exact Nat.zero_le _
    · have hmore := seeks_nextPc h.running hpop fun _ => hempty
      omega

theorem OpenInv.work (h : OpenInv pool) (hinv : PoolInv pool) {w : Fin n}
    (hwork : pool.work w = some pool') : OpenInv pool' := by
  obtain ⟨hpcs, hstop, _⟩ := work_frame hwork
  refine ⟨hstop.trans h.running, ?_, h.empty_work hwork,
    h.covered_work hinv hwork⟩
  intro v
  rw [hpcs]
  by_cases hvw : v = w
  · rw [hvw, Function.update_self]
    have hlive := h.live w
    cases hpc : pool.pc w with
    | test | testStop => simp [nextPc, hpc, h.running]
    | testEmpty | testWoken =>
        simp only [nextPc, hpc]
        split_ifs <;> simp
    | pop =>
        simp only [nextPc, hpc]
        split <;> simp
    | exited => exact absurd hpc hlive
    | _ => simp [nextPc, hpc]
  · rw [Function.update_of_ne hvw]
    exact h.live v

/-- A sleeping worker is woken, by a client or for no reason. -/
theorem OpenInv.woken (h : OpenInv pool) {w : Fin n}
    (hpc : pool.pc w = .parked) (hpcs : pool'.pc =
      Function.update pool.pc w .woken)
    (hstop : pool'.stopRequested = pool.stopRequested)
    (hqueue : pool'.queue = pool.queue)
    (hpushed : pool.pushed ≤ pool'.pushed + 1) : OpenInv pool' := by
  have hsum := seekers_update hpcs
  have hold := h.covered ⟨w, hpc⟩
  refine ⟨hstop.trans h.running, fun v => ?_, fun v hv => ?_, fun _ => ?_⟩
  · rw [hpcs]
    by_cases hvw : v = w
    · simp [hvw]
    · rw [Function.update_of_ne hvw]
      exact h.live v
  · rw [hpcs] at hv
    rw [hqueue]
    by_cases hvw : v = w
    · simp [hvw] at hv
    · rw [Function.update_of_ne hvw] at hv
      exact h.empty v hv
  · rw [hpc] at hsum
    simp only [WorkerPc.seeks, Bool.toNat_true, Bool.toNat_false] at hsum
    rw [hqueue]
    omega

/-- Then nobody has the mutex. -/
theorem mutex_eq_none_of_stuck (hinv : PoolInv pool) (hfront : FrontInv pool)
    (hidle : pool.stopPc = .idle) (hclient : pool.mutex ≠ some .client)
    (hstuck : ∀ w, pool.work w = none) : pool.mutex = none := by
  cases hmutex : pool.mutex with
  | none => rfl
  | some holder =>
      cases holder with
      | client => exact absurd hmutex hclient
      | stopper =>
          have hpc := hinv.stopper.mpr hmutex
          simp [hidle] at hpc
      | worker w =>
          have hlock := (hinv.worker w).mpr hmutex
          have hwork := hstuck w
          cases hpc : pool.pc w with
          | testEmpty | wait | testWoken => simp [work, hpc] at hwork
          | testStop =>
              simp only [work, hpc] at hwork
              split_ifs at hwork
          | pop =>
              have hqueue := hfront w (by rw [hpc]; trivial)
              simp only [work, hpc] at hwork
              split at hwork
              · rename_i hempty
                exact absurd hempty hqueue
              · exact absurd hwork (by simp)
              · exact absurd hwork (by simp)
          | _ =>
              rw [hpc] at hlock
              exact absurd hlock id

theorem OpenInv.parked_of_stuck (h : OpenInv pool) (hinv : PoolInv pool)
    (hfree : pool.mutex = none) (hstuck : ∀ w, pool.work w = none)
    (w : Fin n) : pool.pc w = .parked := by
  have hwork := hstuck w
  cases hpc : pool.pc w with
  | parked => rfl
  | exited => exact absurd hpc (h.live w)
  | testEmpty | wait | testWoken | testStop | pop =>
      have hheld := (hinv.worker w).mp (hpc ▸ trivial)
      exact absurd (hfree.symm.trans hheld) (by simp)
  | test | taken | running =>
      simp only [ThreadPool.work, hpc] at hwork
      exact absurd hwork (by simp)
  | lock | woken | finishing =>
      simp only [ThreadPool.work, hpc] at hwork
      rw [if_pos hfree] at hwork
      exact absurd hwork (by simp)

theorem OpenInv.queue_of_parked (h : OpenInv pool) (hpos : 0 < n)
    (hclient : pool.mutex ≠ some .client) (hparked : ∀ w, pool.pc w = .parked) :
    pool.queue = [] := by
  have hcovered := h.covered ⟨⟨0, hpos⟩, hparked _⟩
  have hnone : pool.seekers = 0 := by
    apply Finset.sum_eq_zero
    intro w _
    rw [hparked w]
    rfl
  rw [hnone, pushed, if_neg hclient] at hcovered
  exact List.length_eq_zero_iff.mp (Nat.le_zero.mp hcovered)

section Steps

variable [DecidableEq Task]

/-- `notify_one` wakes a sleeping worker if there is one. -/
theorem addNotify_cases {waiter : Option (Fin n)}
    (h : pool.step (.addNotify waiter) = some pool') :
    pool.mutex = some .client ∧
      ((∀ w, pool.pc w ≠ .parked) ∧ pool' = { pool with mutex := none } ∨
        ∃ w, pool.pc w = .parked ∧
          pool' = { pool.goto w .woken with mutex := none }) := by
  simp only [step] at h
  split_ifs at h with hmine
  obtain ⟨woken, hwoken, rfl⟩ := Option.map_eq_some_iff.mp h
  refine ⟨hmine, ?_⟩
  cases waiter with
  | none =>
      simp only [notifyOne] at hwoken
      split_ifs at hwoken with hnone
      exact Or.inl ⟨hnone, by rw [Option.some.inj hwoken]⟩
  | some w =>
      obtain ⟨hpc, rfl⟩ := wakeUp_eq hwoken
      exact Or.inr ⟨w, hpc, rfl⟩

theorem OpenInv.step (h : OpenInv pool) (hinv : PoolInv pool)
    {act : PoolAct n Task} (hact : act ≠ .stop)
    (hstep : pool.step act = some pool') : OpenInv pool' := by
  cases act with
  | work w => exact h.work hinv hstep
  | wake w =>
      obtain ⟨hpc, rfl⟩ := wakeUp_eq hstep
      exact h.woken hpc rfl rfl rfl (Nat.le_succ _)
  | addPush task =>
      obtain ⟨hfree, rfl⟩ := addPush_eq hstep
      refine ⟨h.running, h.live, fun w hw => ?_, fun hparked => ?_⟩
      · have hheld := (hinv.worker w).mp
          (show (pool.pc w).InLock from hw ▸ trivial)
        exact absurd (hfree.symm.trans hheld) (by simp)
      · have hold := h.covered hparked
        simp only [pushed, hfree, reduceCtorEq, if_false] at hold
        simpa [pushed, seekers] using hold
  | addNotify waiter =>
      obtain ⟨hmine, ⟨hnone, rfl⟩ | ⟨w, hpc, rfl⟩⟩ := addNotify_cases hstep
      · exact ⟨h.running, h.live, h.empty,
          fun hparked => hparked.elim fun w hw => absurd hw (hnone w)⟩
      · exact h.woken hpc rfl rfl rfl (by simp [pushed, hmine])
  | stop => exact absurd rfl hact
  | blockCall =>
      obtain ⟨_, rfl⟩ := blockCall_eq hstep
      exact ⟨h.running, h.live, h.empty, h.covered⟩
  | blockTest =>
      obtain ⟨_, ⟨_, rfl⟩ | ⟨_, rfl⟩⟩ := blockTest_eq hstep
      · exact ⟨h.running, h.live, h.empty, h.covered⟩
      · exact h

theorem openInv_run {acts : List (PoolAct n Task)}
    (hrun : (start n Task).run acts = some pool) (hacts : .stop ∉ acts) :
    OpenInv pool := by
  refine (run_induction (fun pool => PoolInv pool ∧ OpenInv pool)
    (fun act => act ≠ .stop) ?_ ?_ ⟨.start, .start⟩ hrun).2
  · intro act before after hact hboth hstep
    exact ⟨hboth.1.step hstep, hboth.2.step hboth.1 hact hstep⟩
  · intro act hmem heq
    exact hacts (heq ▸ hmem)

/-- With all workers asleep and the queue empty every task has been run and
deleted. -/
theorem LogInv.all_done {log : TaskLog n Task} (h : LogInv pool log)
    (hidle : pool.stopPc = .idle) (hparked : ∀ w, pool.pc w = .parked)
    (hqueue : pool.queue = []) :
    (log.finished.map Prod.snd).Perm log.added ∧
      (log.deleted.map Prod.snd).Perm log.added := by
  have hadded : log.added = log.taken.map Prod.snd := by
    rw [h.fifo, h.drained (hidle ▸ id), hqueue, List.append_nil,
      List.reduceOption_nil, List.append_nil]
  have hstarted := h.started.perm fun w => by rw [hparked w]; rfl
  have hfinished := h.finished.perm fun w => by rw [hparked w]; rfl
  have hdeleted := h.deleted.perm fun w => by rw [hparked w]; rfl
  rw [hadded]
  exact ⟨((hstarted.trans hfinished).map Prod.snd).symm,
    ((hstarted.trans (hfinished.trans hdeleted)).map Prod.snd).symm⟩

/-- A run of workers' steps is no longer than the steps they had left. -/
theorem length_le_stepsLeft {ws : List (Fin n)}
    (hrun : pool.run (ws.map .work) = some pool') :
    ws.length + pool'.stepsLeft ≤ pool.stepsLeft := by
  induction ws generalizing pool with
  | nil =>
      rw [← Option.some.inj (show some pool = some pool' from hrun)]
      simp
  | cons w ws ih =>
      rw [List.map_cons, run_cons] at hrun
      obtain ⟨next, hnext, hrest⟩ := Option.bind_eq_some_iff.mp hrun
      have hless := stepsLeft_work hnext
      have hmore := ih hrest
      rw [List.length_cons]
      omega

theorem client_run_work {ws : List (Fin n)} (hinv : PoolInv pool)
    (hclient : pool.mutex ≠ some .client)
    (hrun : pool.run (ws.map .work) = some pool') :
    pool'.mutex ≠ some .client := by
  refine (run_induction
    (fun pool => PoolInv pool ∧ pool.mutex ≠ some .client)
    (fun act => ∃ w, act = .work w) ?_ ?_ ⟨hinv, hclient⟩ hrun).2
  · rintro act before after ⟨w, rfl⟩ ⟨hbefore, hmutex⟩ hstep
    refine ⟨hbefore.step hstep, fun hafter => hmutex ?_⟩
    have hsame := hbefore.pushed_work hstep
    simpa [pushed, hafter] using hsame
  · intro act hact
    obtain ⟨w, _, rfl⟩ := List.mem_map.mp hact
    exact ⟨w, rfl⟩

/-- In every state a pool comes to before `Stop` is called, outside of
`AddTask`: while a worker sleeps, as many workers as there are tasks in the
queue are on their way to it.  From there the workers can take only so many
steps by themselves, whatever the order; and when none can go on, every task
ever added has been run and deleted once and all workers sleep. -/
theorem workers_drain_queue {acts : List (PoolAct n Task)} (hpos : 0 < n)
    (hrun : (start n Task).run acts = some pool) (hacts : .stop ∉ acts)
    (hclient : pool.mutex ≠ some .client) :
    ((∃ w, pool.pc w = .parked) → pool.queue.length ≤ pool.seekers) ∧
      ∀ (ws : List (Fin n)) (last : ThreadPool n Task),
        pool.run (ws.map .work) = some last →
        ws.length ≤ pool.stepsLeft ∧
          ((∀ w, last.work w = none) →
            last.queue = [] ∧ (∀ w, last.pc w = .parked) ∧
            let log := history (acts ++ ws.map .work) (start n Task) .empty
            (log.finished.map Prod.snd).Perm log.added ∧
              (log.deleted.map Prod.snd).Perm log.added) := by
  constructor
  · intro hparked
    have hcovered := (openInv_run hrun hacts).covered hparked
    rwa [pushed, if_neg hclient] at hcovered
  · intro ws last hlast
    refine ⟨(Nat.le_add_right _ _).trans (length_le_stepsLeft hlast), ?_⟩
    intro hstuck
    have hall : (start n Task).run (acts ++ ws.map .work) = some last := by
      rw [run_append, hrun]
      exact hlast
    have hnone : PoolAct.stop ∉ acts ++ ws.map .work := by
      simpa using hacts
    have hopen := openInv_run hall hnone
    obtain ⟨hinv, hfront, _⟩ := reachable_inv hall
    have hidle := stopPc_run hnone hall
    have hclient' := client_run_work (reachable_inv hrun).1 hclient hlast
    have hfree := mutex_eq_none_of_stuck hinv hfront hidle hclient' hstuck
    have hparked := hopen.parked_of_stuck hinv hfree hstuck
    have hqueue := hopen.queue_of_parked hpos hclient' hparked
    exact ⟨hqueue, hparked,
      (LogInv.start.run hall).all_done hidle hparked hqueue⟩

/-- All workers sleep, a task comes and wakes one of them. -/
def oneTask : List (PoolAct 3 Nat) :=
  List.replicate 4 (.work 0) ++ List.replicate 4 (.work 1) ++
    List.replicate 4 (.work 2) ++ [.addPush (some 7), .addNotify (some 1)]

theorem workers_drain_queue_one_task :
    ∃ pool last : ThreadPool 3 Nat, (start 3 Nat).run oneTask = some pool ∧
      pool.queue = [some 7] ∧ pool.queue.length ≤ pool.seekers ∧
      pool.run ((List.replicate 12 1).map .work) = some last ∧
      (∀ w, last.work w = none) ∧ last.queue = [] ∧
      ((history (oneTask ++ (List.replicate 12 1).map .work) (start 3 Nat)
        .empty).finished.map Prod.snd).Perm [7] := by
  obtain ⟨pool, hrun, hpool⟩ := (Option.any_eq_true _ _).mp
    (show ((start 3 Nat).run oneTask).any (fun pool =>
      decide (pool.mutex ≠ some .client ∧ pool.queue = [some 7] ∧
        pool.pc 0 = .parked) && (pool.run ((List.replicate 12 1).map .work)).any
        fun last => decide (∀ w, (last.work w).isNone)) = true by
      decide +kernel)
  obtain ⟨hpool, hlast⟩ := Bool.and_eq_true_iff.mp hpool
  obtain ⟨hclient, hqueue, hparked⟩ := of_decide_eq_true hpool
  obtain ⟨last, hlast, hnone⟩ := (Option.any_eq_true _ _).mp hlast
  have hstuck : ∀ w, last.work w = none := fun w =>
    Option.isNone_iff_eq_none.mp (of_decide_eq_true hnone w)
  obtain ⟨hcovered, hdrains⟩ :=
    workers_drain_queue (by decide) hrun (by decide) hclient
  obtain ⟨hempty, _, hfinished, _⟩ := (hdrains _ last hlast).2 hstuck
  exact ⟨pool, last, hrun, hqueue, hcovered ⟨0, hparked⟩, hlast, hstuck, hempty,
    hfinished⟩

end Steps

end ThreadPool

end SimpleKV
