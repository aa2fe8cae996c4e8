/-
What happens to the tasks of a `ThreadPool`: which are added, taken, started,
finished and deleted, in this order and by whom, over every interleaving.
-/
import SimpleKV.ThreadPool
import SimpleKV.Lib.TaggedLog
import Mathlib.Data.List.ReduceOption

namespace SimpleKV

open TaggedLog

/-- What was done with tasks so far; null tasks do not count. -/
structure TaskLog (n : Nat) (Task : Type) where
  added : List Task
  taken : List (Fin n × Task)
  started : List (Fin n × Task)
  finished : List (Fin n × Task)
  /-- Deleted by the worker that ran them. -/
  deleted : List (Fin n × Task)
  /-- Deleted by the loop of `Stop` over `tid_to_task_`. -/
  swept : List Task
  /-- Deleted by the loop of `Stop` over the queue. -/
  drained : List Task

namespace TaskLog

variable {n : Nat} {Task : Type}

def empty : TaskLog n Task := ⟨[], [], [], [], [], [], []⟩

/-- Every deletion so far. -/
def deletions (log : TaskLog n Task) : List Task :=
  log.deleted.map Prod.snd ++ log.swept ++ log.drained

end TaskLog

/-- The steps of `AddTask`. -/
def PoolAct.Adds {n : Nat} {Task : Type} : PoolAct n Task → Prop
  | .addPush _ | .addNotify _ => True
  | _ => False

instance PoolAct.Adds.decidable {n : Nat} {Task : Type} :
    ∀ act : PoolAct n Task, Decidable act.Adds
  | .addPush _ | .addNotify _ => isTrue trivial
  | .work _ | .wake _ | .stop | .blockCall | .blockTest => isFalse id

/-- Every `AddTask` is over before the first step `act`. -/
def AddsBefore {n : Nat} {Task : Type} (act : PoolAct n Task)
    (acts : List (PoolAct n Task)) : Prop :=
  acts.Pairwise fun earlier later => earlier = act → ¬ later.Adds

instance AddsBefore.decidable {n : Nat} {Task : Type} [DecidableEq Task]
    (act : PoolAct n Task) (acts : List (PoolAct n Task)) :
    Decidable (AddsBefore act acts) :=
  inferInstanceAs (Decidable (List.Pairwise _ acts))

namespace WorkerPc

variable {Task : Type}

/-- The task a worker has in its hands. -/
def held : WorkerPc Task → Option Task
  | .taken task | .running task | .finishing task => some task
  | _ => none

/-- Between its `pop` and the return of `Run`. -/
def Unfinished : WorkerPc Task → Prop
  | .taken _ | .running _ => True
  | _ => False

theorem Idle.owes_nothing {pc : WorkerPc Task} (h : pc.Idle) :
    pc.toStart = [] ∧ pc.inRun = [] ∧ pc.toDelete = [] ∧ pc.held = none := by
  cases pc with
  | taken | running | finishing => exact absurd h id
  | _ => exact ⟨rfl, rfl, rfl, rfl⟩

end WorkerPc

namespace ThreadPool

variable {n : Nat} {Task : Type}

/-- What a worker's step does with tasks. -/
def recordWork (w : Fin n) (pool : ThreadPool n Task) (log : TaskLog n Task) :
    TaskLog n Task :=
  match pool.pc w with
  | .pop =>
      match pool.queue with
      | some task :: _ => { log with taken := log.taken ++ [(w, task)] }
      | _ => log
  | .taken task => { log with started := log.started ++ [(w, task)] }
  | .running task => { log with finished := log.finished ++ [(w, task)] }
  | .finishing task => { log with deleted := log.deleted ++ [(w, task)] }
  | _ => log

/-- What a step of `Stop` does with tasks. -/
def recordStop (pool : ThreadPool n Task) (log : TaskLog n Task) :
    TaskLog n Task :=
  match pool.stopPc with
  | .sweep =>
      { log with
        swept := log.swept ++ (List.finRange n).filterMap pool.tidToTask }
  | .drain =>
      match pool.queue with
      | some task :: _ => { log with drained := log.drained ++ [task] }
      | _ => log
  | _ => log

/-- What a step does with tasks. -/
def record : PoolAct n Task → ThreadPool n Task → TaskLog n Task →
    TaskLog n Task
  | .work w, pool, log => pool.recordWork w log
  | .addPush task, _, log => { log with added := log.added ++ task.toList }
  | .stop, pool, log => pool.recordStop log
  | _, _, log => log

/-- The log of a run. -/
def history [DecidableEq Task] : List (PoolAct n Task) → ThreadPool n Task →
    TaskLog n Task → TaskLog n Task
  | [], _, log => log
  | act :: acts, pool, log =>
      match pool.step act with
      | some next => history acts next (record act pool log)
      | none => log

/-- Each worker's entries of the earlier log are those of the later one and
what the worker still owes. -/
def Owes (rest : WorkerPc Task → List Task) (earlier later : List (Fin n × Task))
    (pc : Fin n → WorkerPc Task) : Prop :=
  ∀ w, valuesOf w earlier = valuesOf w later ++ rest (pc w)

namespace Owes

variable {rest : WorkerPc Task → List Task} {earlier later : List (Fin n × Task)}
  {pc : Fin n → WorkerPc Task}

theorem stay (h : Owes rest earlier later pc) {w : Fin n}
    {next : WorkerPc Task} (hsame : rest next = rest (pc w)) :
    Owes rest earlier later (Function.update pc w next) := by
  intro other
  by_cases hother : other = w
  · rw [hother, Function.update_self, hsame]
    exact h w
  · rw [Function.update_of_ne hother]
    exact h other

theorem push (h : Owes rest earlier later pc) {w : Fin n} {task : Task}
    {next : WorkerPc Task} (hbefore : rest (pc w) = [])
    (hafter : rest next = [task]) :
    Owes rest (earlier ++ [(w, task)]) later (Function.update pc w next) := by
  intro other
  by_cases hother : other = w
  · have hself := h w
    rw [hbefore, List.append_nil] at hself
    rw [hother, Function.update_self, valuesOf_snoc_self, hself, hafter]
  · rw [Function.update_of_ne hother, valuesOf_snoc_of_ne (Ne.symm hother)]
    exact h other

theorem pass (h : Owes rest earlier later pc) {w : Fin n} {task : Task}
    {next : WorkerPc Task} (hbefore : rest (pc w) = [task])
    (hafter : rest next = []) :
    Owes rest earlier (later ++ [(w, task)]) (Function.update pc w next) := by
  intro other
  by_cases hother : other = w
  · have hself := h w
    rw [hbefore] at hself
    rw [hother, Function.update_self, valuesOf_snoc_self, hafter,
      List.append_nil]
    exact hself
  · rw [Function.update_of_ne hother, valuesOf_snoc_of_ne (Ne.symm hother)]
    exact h other

theorem isPrefix (h : Owes rest earlier later pc) (w : Fin n) :
    valuesOf w later <+: valuesOf w earlier :=
  ⟨rest (pc w), (h w).symm⟩

theorem subperm [DecidableEq Task] (h : Owes rest earlier later pc) :
    later.Subperm earlier :=
  subperm_of_prefix h.isPrefix

theorem perm [DecidableEq Task] (h : Owes rest earlier later pc)
    (hnone : ∀ w, rest (pc w) = []) : earlier.Perm later := by
  apply perm_of_valuesOf_eq
  intro w
  rw [h w, hnone w, List.append_nil]

end Owes

/-- The log, seen from the pool: every task added is taken, drained or queued,
in this order; each worker starts, finishes and deletes its tasks one by one;
`tid_to_task_` has the tasks in hand. -/
structure LogInv (pool : ThreadPool n Task) (log : TaskLog n Task) : Prop where
  inv : PoolInv pool
  fifo : log.added =
    log.taken.map Prod.snd ++ log.drained ++ pool.queue.reduceOption
  started : Owes WorkerPc.toStart log.taken log.started pool.pc
  finished : Owes WorkerPc.inRun log.started log.finished pool.pc
  deleted : Owes WorkerPc.toDelete log.finished log.deleted pool.pc
  held : ∀ w, pool.tidToTask w = (pool.pc w).held
  swept : log.swept = []
  drained : ¬ pool.stopPc.Joined → log.drained = []

theorem LogInv.start : LogInv (ThreadPool.start n Task) .empty where
  inv := .start
  fifo := rfl
  started := fun _ => rfl
  finished := fun _ => rfl
  deleted := fun _ => rfl
  held := fun _ => rfl
  swept := rfl
  drained := fun _ => rfl

variable {pool pool' : ThreadPool n Task} {log : TaskLog n Task}

theorem recordWork_of_idle {w : Fin n} (hidle : (pool.pc w).Idle)
    (hpop : pool.pc w ≠ .pop) : pool.recordWork w log = log := by
  unfold recordWork
  cases hpc : pool.pc w with
  | taken | running | finishing => exact absurd hidle (by rw [hpc]; exact id)
  | pop => exact absurd hpc hpop
  | _ => rfl

theorem recordStop_of_ne (hsweep : pool.stopPc ≠ .sweep)
    (hdrain : pool.stopPc ≠ .drain) : pool.recordStop log = log := by
  unfold recordStop
  cases hpc : pool.stopPc with
  | sweep => exact absurd hpc hsweep
  | drain => exact absurd hpc hdrain
  | _ => rfl

namespace LogInv

/-- The map of tasks in hand when one worker's task changes. -/
theorem held_update (h : LogInv pool log) (w : Fin n) (next : WorkerPc Task)
    (other : Fin n) :
    Function.update pool.tidToTask w next.held other =
      (Function.update pool.pc w next other).held := by
  by_cases hother : other = w
  · rw [hother, Function.update_self, Function.update_self]
  · rw [Function.update_of_ne hother, Function.update_of_ne hother]
    exact h.held other

/-- The map of tasks in hand when a worker goes on with its task. -/
theorem held_same (h : LogInv pool log) {w : Fin n} {next : WorkerPc Task}
    (hsame : next.held = (pool.pc w).held) (other : Fin n) :
    pool.tidToTask other = (Function.update pool.pc w next other).held := by
  rw [← h.held_update, hsame, ← h.held w, Function.update_eq_self]

/-- A worker without a task moves on, and no task leaves the queue. -/
theorem quiet (h : LogInv pool log) {w : Fin n} {next : WorkerPc Task}
    (hinv : PoolInv pool') (hidle : (pool.pc w).Idle)
    (hnext : next.Idle) (hpc : pool'.pc = Function.update pool.pc w next)
    (hqueue : pool'.queue.reduceOption = pool.queue.reduceOption)
    (hmap : pool'.tidToTask = pool.tidToTask)
    (hstop : pool'.stopPc = pool.stopPc) : LogInv pool' log := by
  obtain ⟨hstart, hrun, hdelete, hheld⟩ := hidle.owes_nothing
  obtain ⟨hstart', hrun', hdelete', hheld'⟩ := hnext.owes_nothing
  refine ⟨hinv, ?_, ?_, ?_, ?_, ?_, h.swept, ?_⟩
  · rw [hqueue]
    exact h.fifo
  · rw [hpc]
    exact h.started.stay (hstart'.trans hstart.symm)
  · rw [hpc]
    exact h.finished.stay (hrun'.trans hrun.symm)
  · rw [hpc]
    exact h.deleted.stay (hdelete'.trans hdelete.symm)
  · rw [hpc, hmap]
    exact h.held_same (hheld'.trans hheld.symm)
  · rw [hstop]
    exact h.drained

theorem work (h : LogInv pool log) {w : Fin n}
    (hwork : pool.work w = some pool') :
    LogInv pool' (pool.recordWork w log) := by
  have hinv := h.inv.work hwork
  have hopen := h.inv.not_joined (pc_ne_exited_of_work hwork)
  cases work_cases hwork with
  | move hidle hnext hpop _ | acquire hidle hnext hpop _ _
  | release hidle hnext hpop _ _ =>
      rw [recordWork_of_idle hidle hpop]
      exact h.quiet hinv hidle hnext rfl rfl rfl rfl
  | discard hpc hqueue =>
      have hlog : pool.recordWork w log = log := by
        simp only [recordWork, hpc, hqueue]
      rw [hlog]
      refine h.quiet hinv (hpc ▸ trivial) ?_ rfl ?_ rfl rfl
      · trivial
      · rw [hqueue, List.reduceOption_cons_of_none]
  | @take task queue hpc hqueue =>
      have hlog : pool.recordWork w log =
          { log with taken := log.taken ++ [(w, task)] } := by
        simp only [recordWork, hpc, hqueue]
      rw [hlog]
      refine ⟨hinv, ?_, h.started.push (by rw [hpc]; rfl) rfl,
        h.finished.stay (by rw [hpc]; rfl), h.deleted.stay (by rw [hpc]; rfl),
        h.held_update w (.taken task), h.swept, h.drained⟩
      have hfifo := h.fifo
      rw [hqueue, h.drained hopen, List.reduceOption_cons_of_some] at hfifo
      simp [hfifo, h.drained hopen]
  | @start task hpc =>
      have hlog : pool.recordWork w log =
          { log with started := log.started ++ [(w, task)] } := by
        simp only [recordWork, hpc]
      rw [hlog]
      exact ⟨hinv, h.fifo, h.started.pass (by rw [hpc]; rfl) rfl,
        h.finished.push (by rw [hpc]; rfl) rfl,
        h.deleted.stay (by rw [hpc]; rfl), h.held_same (by rw [hpc]; rfl),
        h.swept, h.drained⟩
  | @finish task hpc =>
      have hlog : pool.recordWork w log =
          { log with finished := log.finished ++ [(w, task)] } := by
        simp only [recordWork, hpc]
      rw [hlog]
      exact ⟨hinv, h.fifo, h.started.stay (by rw [hpc]; rfl),
        h.finished.pass (by rw [hpc]; rfl) rfl,
        h.deleted.push (by rw [hpc]; rfl) rfl, h.held_same (by rw [hpc]; rfl),
        h.swept, h.drained⟩
  | @delete task hpc =>
      have hlog : pool.recordWork w log =
          { log with deleted := log.deleted ++ [(w, task)] } := by
        simp only [recordWork, hpc]
      rw [hlog]
      exact ⟨hinv, h.fifo, h.started.stay (by rw [hpc]; rfl),
        h.finished.stay (by rw [hpc]; rfl),
        h.deleted.pass (by rw [hpc]; rfl) rfl, h.held_update w .test,
        h.swept, h.drained⟩

/-- A waiting worker is woken. -/
theorem wakeUp (h : LogInv pool log) {w : Fin n}
    (hwake : pool.wakeUp w = some pool') : LogInv pool' log := by
  have hinv := h.inv.wakeUp hwake
  obtain ⟨hpc, rfl⟩ := wakeUp_eq hwake
  refine h.quiet hinv (hpc ▸ trivial) ?_ rfl rfl rfl rfl
  trivial

/-- The workers, the queue and the tasks in hand stay as they are. -/
theorem congr (h : LogInv pool log) (hinv : PoolInv pool')
    (hpc : pool'.pc = pool.pc) (hqueue : pool'.queue = pool.queue)
    (hmap : pool'.tidToTask = pool.tidToTask)
    (hdrained : ¬ pool'.stopPc.Joined → ¬ pool.stopPc.Joined) :
    LogInv pool' log := by
  refine ⟨hinv, hqueue ▸ h.fifo, hpc ▸ h.started, hpc ▸ h.finished,
    hpc ▸ h.deleted, ?_, h.swept, fun hopen => h.drained (hdrained hopen)⟩
  rw [hpc, hmap]
  exact h.held

theorem notified (h : LogInv pool log) (hpc : pool.stopPc = .requested)
    (hinv : PoolInv { pool with
      pc := fun w => (pool.pc w).notified, stopPc := .notified }) :
    LogInv { pool with
      pc := fun w => (pool.pc w).notified, stopPc := .notified } log := by
  have hsame (pc : WorkerPc Task) : pc.notified.toStart = pc.toStart ∧
      pc.notified.inRun = pc.inRun ∧ pc.notified.toDelete = pc.toDelete ∧
      pc.notified.held = pc.held := by
    cases pc <;> exact ⟨rfl, rfl, rfl, rfl⟩
  refine ⟨hinv, h.fifo, fun w => ?_, fun w => ?_, fun w => ?_, fun w => ?_,
    h.swept, fun _ => h.drained ?_⟩
  · rw [(hsame (pool.pc w)).1]
    exact h.started w
  · rw [(hsame (pool.pc w)).2.1]
    exact h.finished w
  · rw [(hsame (pool.pc w)).2.2.1]
    exact h.deleted w
  · rw [(hsame (pool.pc w)).2.2.2]
    exact h.held w
  · rw [hpc]
    exact id

/-- No worker that has left has a task in hand. -/
theorem tidToTask_eq_none (h : LogInv pool log) (hjoined : pool.stopPc.Joined)
    (w : Fin n) : pool.tidToTask w = none := by
  rw [h.held w, h.inv.joined hjoined w]
  rfl

theorem stop [DecidableEq Task] (h : LogInv pool log)
    (hstop : pool.stopStep = some pool') :
    LogInv pool' (pool.recordStop log) := by
  have hinv := h.inv.stop hstop
  cases stop_cases hstop with
  | request hpc =>
      rw [recordStop_of_ne (by simp [hpc]) (by simp [hpc])]
      exact h.congr hinv rfl rfl rfl (fun _ => by rw [hpc]; exact id)
  | notify hpc =>
      rw [recordStop_of_ne (by simp [hpc]) (by simp [hpc])]
      exact h.notified hpc hinv
  | join hpc hexited =>
      rw [recordStop_of_ne (by simp [hpc]) (by simp [hpc])]
      exact h.congr hinv rfl rfl rfl (fun hopen => absurd trivial hopen)
  | lock hpc _ =>
      rw [recordStop_of_ne (by simp [hpc]) (by simp [hpc])]
      exact h.congr hinv rfl rfl rfl (fun hopen => absurd trivial hopen)
  | sweep hpc =>
      have hjoined : pool.stopPc.Joined := hpc ▸ trivial
      have hlog : pool.recordStop log = log := by
        have hnone : (List.finRange n).filterMap pool.tidToTask = [] :=
          List.filterMap_eq_nil_iff.mpr fun w _ => h.tidToTask_eq_none hjoined w
        simp only [recordStop, hpc, hnone, List.append_nil]
      rw [hlog]
      exact h.congr hinv rfl rfl rfl (fun hopen => absurd trivial hopen)
  | @drain task queue hpc hqueue =>
      have hjoined : pool.stopPc.Joined := hpc ▸ trivial
      have hfifo := h.fifo
      rw [hqueue] at hfifo
      cases task with
      | none =>
          have hlog : pool.recordStop log = log := by
            simp only [recordStop, hpc, hqueue]
          rw [hlog]
          rw [List.reduceOption_cons_of_none] at hfifo
          exact ⟨hinv, hfifo, h.started, h.finished, h.deleted, h.held,
            h.swept, h.drained⟩
      | some task =>
          have hlog : pool.recordStop log =
              { log with drained := log.drained ++ [task] } := by
            simp only [recordStop, hpc, hqueue]
          rw [hlog]
          rw [List.reduceOption_cons_of_some] at hfifo
          refine ⟨hinv, ?_, h.started, h.finished, h.deleted, h.held,
            h.swept, fun hopen => absurd hjoined hopen⟩
          simp [hfifo]
  | leave hpc hqueue =>
      have hlog : pool.recordStop log = log := by
        simp only [recordStop, hpc, hqueue]
      rw [hlog]
      exact h.congr hinv rfl rfl rfl (fun hopen => absurd trivial hopen)

theorem step [DecidableEq Task] (h : LogInv pool log) {act : PoolAct n Task}
    (hstep : pool.step act = some pool') :
    LogInv pool' (record act pool log) := by
  have hinv := h.inv.step hstep
  cases act with
  | work w => exact h.work hstep
  | wake w => exact h.wakeUp hstep
  | addPush task =>
      obtain ⟨_, rfl⟩ := addPush_eq hstep
      refine ⟨hinv, ?_, h.started, h.finished, h.deleted, h.held, h.swept,
        h.drained⟩
      change log.added ++ task.toList = log.taken.map Prod.snd ++ log.drained ++
        (pool.queue ++ [task]).reduceOption
      rw [h.fifo, List.reduceOption_append, List.reduceOption_singleton,
        List.append_assoc, List.append_assoc]
  | addNotify waiter =>
      obtain ⟨_, woken, hwoken, rfl⟩ := addNotify_eq hstep
      rcases hwoken with rfl | ⟨w, hpc, rfl⟩
      · exact h.congr hinv rfl rfl rfl id
      · refine h.quiet hinv (hpc ▸ trivial) ?_ rfl rfl rfl rfl
        trivial
  | stop => exact h.stop hstep
  | blockCall =>
      obtain ⟨_, rfl⟩ := blockCall_eq hstep
      exact h.congr hinv rfl rfl rfl id
  | blockTest =>
      obtain ⟨_, ⟨_, rfl⟩ | ⟨_, rfl⟩⟩ := blockTest_eq hstep
      · exact h.congr hinv rfl rfl rfl id
      · exact h

theorem run [DecidableEq Task] {acts : List (PoolAct n Task)}
    (h : LogInv pool log) (hrun : pool.run acts = some pool') :
    LogInv pool' (history acts pool log) := by
  induction acts generalizing pool log with
  | nil =>
      rw [← Option.some.inj (show some pool = some pool' from hrun)]
      exact h
  | cons act acts ih =>
      rw [run_cons] at hrun
      obtain ⟨next, hnext, hrest⟩ := Option.bind_eq_some_iff.mp hrun
      simp only [history, hnext]
      exact ih (h.step hnext) hrest

end LogInv

/-! ### Every task is handled once -/

/-- The tasks of workers and of `Stop` are apart, and none comes twice. -/
theorem LogInv.nodup (h : LogInv pool log) (hown : log.added.Nodup) :
    (log.taken.map Prod.snd).Nodup ∧ log.drained.Nodup ∧
      ∀ task ∈ log.taken.map Prod.snd, task ∉ log.drained := by
  rw [h.fifo] at hown
  obtain ⟨htasks, _, _⟩ := List.nodup_append.mp hown
  obtain ⟨htaken, hdrained, hapart⟩ := List.nodup_append.mp htasks
  exact ⟨htaken, hdrained, fun task htask hother => hapart task htask task hother rfl⟩

theorem LogInv.deletions_eq (h : LogInv pool log) :
    log.deletions = log.deleted.map Prod.snd ++ log.drained := by
  rw [TaskLog.deletions, h.swept, List.append_nil]

section Once

variable [DecidableEq Task]

theorem LogInv.started_subperm (h : LogInv pool log) :
    log.started.Subperm log.taken :=
  h.started.subperm

theorem LogInv.finished_subperm (h : LogInv pool log) :
    log.finished.Subperm log.taken :=
  h.finished.subperm.trans h.started_subperm

theorem LogInv.deleted_subperm (h : LogInv pool log) :
    log.deleted.Subperm log.taken :=
  h.deleted.subperm.trans h.finished_subperm

/-- A deleted task is not in a `Run`, and was not one that never returned. -/
theorem LogInv.finished_of_deleted (h : LogInv pool log)
    (hown : log.added.Nodup) {task : Task} (htask : task ∈ log.deletions)
    {w : Fin n} (hstarted : (w, task) ∈ log.started) :
    (w, task) ∈ log.finished := by
  obtain ⟨htaken, _, hapart⟩ := h.nodup hown
  have hmine := h.started_subperm.subset hstarted
  rw [h.deletions_eq] at htask
  rcases List.mem_append.mp htask with hdeleted | hdrained
  · obtain ⟨⟨other, task'⟩, hother, rfl⟩ := List.mem_map.mp hdeleted
    -- The task has one worker, so it is this one that has deleted it.
    have hworker := tag_unique htaken hmine (h.deleted_subperm.subset hother)
    rw [hworker]
    exact h.deleted.subperm.subset hother
  · exact absurd hdrained (hapart task (List.mem_map_of_mem hmine))

theorem LogInv.nodup_deletions (h : LogInv pool log)
    (hown : log.added.Nodup) : log.deletions.Nodup := by
  obtain ⟨htaken, hdrained, hapart⟩ := h.nodup hown
  have hsub := h.deleted_subperm
  rw [h.deletions_eq]
  refine List.nodup_append.mpr
    ⟨nodup_values_of_subperm hsub htaken, hdrained, ?_⟩
  rintro task htask other hother rfl
  exact hapart task (List.map_subset Prod.snd hsub.subset htask) hother

/-- Once all workers have left and the queue is empty, the tasks deleted are
the tasks added. -/
theorem LogInv.deletions_perm (h : LogInv pool log)
    (hjoined : pool.stopPc.Joined) (hempty : pool.queue = []) :
    log.deletions.Perm log.added := by
  have hexited := h.inv.joined hjoined
  have hstarted := h.started.perm fun w => by rw [hexited w]; rfl
  have hfinished := h.finished.perm fun w => by rw [hexited w]; rfl
  have hdeleted := h.deleted.perm fun w => by rw [hexited w]; rfl
  have hall : log.deleted.Perm log.taken :=
    (hstarted.trans (hfinished.trans hdeleted)).symm
  rw [h.deletions_eq, h.fifo, hempty, List.reduceOption_nil, List.append_nil]
  exact (hall.map Prod.snd).append_right _

theorem stopPc_run {acts : List (PoolAct n Task)} (hacts : .stop ∉ acts)
    (hrun : pool.run acts = some pool') : pool'.stopPc = pool.stopPc := by
  refine run_induction (fun later => later.stopPc = pool.stopPc)
    (fun act => act ≠ .stop) ?_ ?_ rfl hrun
  · intro act before after hact hsame hstep
    exact (stop_frame hact hstep).1.trans hsame
  · rintro act hact rfl
    exact hacts hact

/-- `Stop` leaves the queue empty, and only `AddTask` fills it. -/
theorem queue_returned_step {act : PoolAct n Task} (hact : ¬ act.Adds)
    (hempty : pool.stopPc = .returned → pool.queue = [])
    (h : pool.step act = some pool') :
    pool'.stopPc = .returned → pool'.queue = [] := by
  intro hreturned
  cases act with
  | work w =>
      rw [(stop_frame (by simp) h).1] at hreturned
      have hqueue := hempty hreturned
      cases work_cases h with
      | discard _ hpop | take _ hpop => exact absurd (hpop.symm.trans hqueue) (by simp)
      | _ => exact hqueue
  | wake w =>
      obtain ⟨_, rfl⟩ := wakeUp_eq h
      exact hempty hreturned
  | addPush task => exact absurd trivial hact
  | addNotify waiter => exact absurd trivial hact
  | stop =>
      cases stop_cases h with
      | leave _ hqueue => exact hqueue
      | drain hpc _ => exact absurd (hpc.symm.trans hreturned) (by simp)
      | _ => exact absurd hreturned (by simp)
  | blockCall =>
      obtain ⟨_, rfl⟩ := blockCall_eq h
      exact hempty hreturned
  | blockTest =>
      obtain ⟨_, ⟨_, rfl⟩ | ⟨_, rfl⟩⟩ := blockTest_eq h
      · exact hempty hreturned
      · exact hempty hreturned

/-- With every `AddTask` before `Stop`, a returned `Stop` has emptied the
queue. -/
theorem queue_eq_nil_of_returned {acts : List (PoolAct n Task)}
    (hfirst : AddsBefore .stop acts)
    (hrun : (start n Task).run acts = some pool)
    (hreturned : pool.stopPc = .returned) : pool.queue = [] := by
  by_cases hstop : PoolAct.stop ∈ acts
  · obtain ⟨before, after, rfl, hbefore⟩ := List.eq_append_cons_of_mem hstop
    rw [run_append] at hrun
    obtain ⟨called, hcalled, hrun⟩ := Option.bind_eq_some_iff.mp hrun
    have hidle := stopPc_run hbefore hcalled
    have hadds : ∀ act ∈ PoolAct.stop :: after, ¬ act.Adds := by
      intro act hact
      rcases List.mem_cons.mp hact with rfl | hact
      · exact id
      · have htail := (List.pairwise_append.mp hfirst).2.1
        exact (List.pairwise_cons.mp htail).1 act hact rfl
    refine run_induction
      (fun later => later.stopPc = .returned → later.queue = [])
      (fun act => ¬ act.Adds)
      (fun act before after hact => queue_returned_step hact) hadds ?_ hrun
      hreturned
    rw [hidle]
    exact fun h => absurd h (by simp [start])
  · rw [stopPc_run hstop hrun] at hreturned
    exact absurd hreturned (by simp [start])

/-- Every interleaving of workers, of `AddTask` calls that are over before
`Stop` is called, and of one `Stop` handles every task once: it is started at
most once and by one worker, tasks are taken in the order they were added, none
is deleted twice or while its `Run` is on, `tid_to_task_` is empty when `Stop`
comes to it, and when `Stop` returns the tasks deleted are the tasks added. -/
theorem tasks_handled_once {acts : List (PoolAct n Task)}
    (hrun : (start n Task).run acts = some pool)
    (hown : (history acts (start n Task) .empty).added.Nodup)
    (hfirst : AddsBefore .stop acts) :
    let log := history acts (start n Task) .empty
    (log.started.map Prod.snd).Nodup ∧
      log.taken.map Prod.snd <+: log.added ∧
      (∀ task ∈ log.deletions, ∀ w, (w, task) ∈ log.started →
        (w, task) ∈ log.finished) ∧
      log.deletions.Nodup ∧
      (pool.stopPc = .sweep → ∀ w, pool.tidToTask w = none) ∧
      (pool.stopPc = .returned →
        log.deletions.Perm log.added ∧ log.swept = []) := by
  intro log
  have hlog : LogInv pool log := LogInv.start.run hrun
  refine ⟨?_, ?_, ?_, ?_, ?_, ?_⟩
  · exact nodup_values_of_subperm hlog.started_subperm (hlog.nodup hown).1
  · rw [hlog.fifo, List.append_assoc]
    exact List.prefix_append ..
  · intro task htask w hstarted
    exact hlog.finished_of_deleted hown htask hstarted
  · exact hlog.nodup_deletions hown
  · intro hsweep
    exact hlog.tidToTask_eq_none (hsweep ▸ trivial)
  · intro hreturned
    have hempty := queue_eq_nil_of_returned hfirst hrun hreturned
    exact ⟨hlog.deletions_perm (hreturned ▸ trivial) hempty, hlog.swept⟩

/-- One worker, two tasks: the first is run, the second is left to `Stop`. -/
def runAndStop : List (PoolAct 1 Nat) :=
  [.addPush (some 7), .addNotify none] ++ List.replicate 8 (.work 0) ++
    [.addPush (some 8), .addNotify none, .stop, .work 0] ++
    List.replicate 6 .stop

theorem tasks_handled_once_run_and_stop :
    ∃ pool, (start 1 Nat).run runAndStop = some pool ∧
      pool.stopPc = .returned ∧
      (history runAndStop (start 1 Nat) .empty).started = [(0, 7)] ∧
      (history runAndStop (start 1 Nat) .empty).drained = [8] ∧
      (history runAndStop (start 1 Nat) .empty).deletions.Perm [7, 8] := by
  obtain ⟨pool, hrun, hreturned⟩ := Option.map_eq_some_iff.mp
    (show ((start 1 Nat).run runAndStop).map ThreadPool.stopPc =
      some .returned by decide)
  have hlog := tasks_handled_once hrun (by decide) (by decide)
  exact ⟨pool, hrun, hreturned, by decide, by decide,
    (hlog.2.2.2.2.2 hreturned).1⟩

end Once

/-! ### Blocking until all tasks have completed -/

section Block

/-- Every task added has returned from its `Run`. -/
def Completed (log : TaskLog n Task) : Prop :=
  ∀ task ∈ log.added, ∃ w, (w, task) ∈ log.finished

instance Completed.decidable [DecidableEq Task] (log : TaskLog n Task) :
    Decidable (Completed log) :=
  inferInstanceAs (Decidable (∀ task ∈ log.added, _))

/-- A step other than of `AddTask` adds no task and takes back no `Run`. -/
theorem Completed.record {act : PoolAct n Task} (h : Completed log)
    (hact : ¬ act.Adds) : Completed (record act pool log) := by
  cases act with
  | work w =>
      change Completed (pool.recordWork w log)
      unfold recordWork
      split
      · split <;> exact h
      · exact h
      · intro task htask
        obtain ⟨w', hw'⟩ := h task htask
        exact ⟨w', List.mem_append_left _ hw'⟩
      · exact h
      · exact h
  | stop =>
      change Completed (pool.recordStop log)
      unfold recordStop
      split
      · exact h
      · split <;> exact h
      · exact h
  | addPush | addNotify => exact absurd trivial hact
  | wake | blockCall | blockTest => exact h

/-- What a worker has taken and not finished. -/
theorem LogInv.taken_eq (h : LogInv pool log) (w : Fin n) :
    valuesOf w log.taken =
      valuesOf w log.finished ++ (pool.pc w).inRun ++ (pool.pc w).toStart := by
  rw [h.started w, h.finished w]

variable [DecidableEq Task]

theorem Completed.history {acts : List (PoolAct n Task)} (h : Completed log)
    (hacts : ∀ act ∈ acts, ¬ act.Adds) :
    Completed (history acts pool log) := by
  induction acts generalizing pool log with
  | nil => exact h
  | cons act acts ih =>
      unfold ThreadPool.history
      split
      · exact ih (h.record (hacts act List.mem_cons_self)) fun other hother =>
          hacts other (List.mem_cons_of_mem _ hother)
      · exact h

theorem history_append {acts : List (PoolAct n Task)}
    (hrun : pool.run acts = some pool') (more : List (PoolAct n Task)) :
    history (acts ++ more) pool log =
      history more pool' (history acts pool log) := by
  induction acts generalizing pool log with
  | nil =>
      rw [← Option.some.inj (show some pool = some pool' from hrun)]
      rfl
  | cons act acts ih =>
      rw [run_cons] at hrun
      obtain ⟨next, hnext, hrest⟩ := Option.bind_eq_some_iff.mp hrun
      simp only [List.cons_append, history, hnext]
      exact ih hrest

/-- With an empty queue all tasks are completed exactly when no worker is
between its `pop` and the return of `Run`. -/
theorem LogInv.completed_iff (h : LogInv pool log) (hown : log.added.Nodup)
    (hopen : ¬ pool.stopPc.Joined) (hempty : pool.queue = []) :
    Completed log ↔ ∀ w, ¬ (pool.pc w).Unfinished := by
  have htasks : log.added = log.taken.map Prod.snd := by
    rw [h.fifo, h.drained hopen, hempty, List.append_nil,
      List.reduceOption_nil, List.append_nil]
  have htaken := (h.nodup hown).1
  constructor
  · intro hcompleted w hunfinished
    obtain ⟨task, htask⟩ : ∃ task, valuesOf w log.taken =
        valuesOf w log.finished ++ [task] := by
      have hsplit := h.taken_eq w
      cases hpc : pool.pc w with
      | taken task | running task =>
          rw [hpc] at hsplit
          exact ⟨task, by simpa [WorkerPc.inRun, WorkerPc.toStart] using hsplit⟩
      | _ => exact absurd hunfinished (by rw [hpc]; exact id)
    have hmine : (w, task) ∈ log.taken := by
      rw [← mem_valuesOf, htask]
      exact List.mem_append_right _ List.mem_cons_self
    have hadded : task ∈ log.added := by
      rw [htasks]
      exact List.mem_map_of_mem hmine
    obtain ⟨other, hother⟩ := hcompleted task hadded
    -- The task has one worker and comes once among what that worker took.
    obtain rfl := tag_unique htaken hmine (h.finished_subperm.subset hother)
    have honce := (valuesOf_sublist w log.taken).nodup htaken
    rw [htask] at honce
    exact (List.nodup_append.mp honce).2.2 task (mem_valuesOf.mpr hother) task
      List.mem_cons_self rfl
  · intro hfinished task htask
    have hnothing (w : Fin n) :
        (pool.pc w).inRun = [] ∧ (pool.pc w).toStart = [] := by
      have hw := hfinished w
      cases hpc : pool.pc w with
      | taken | running =>
          rw [hpc] at hw
          exact absurd trivial hw
      | _ => exact ⟨rfl, rfl⟩
    have hstarted := h.started.perm fun w => (hnothing w).2
    have hdone := h.finished.perm fun w => (hnothing w).1
    rw [htasks] at htask
    obtain ⟨⟨w, task'⟩, hmem, rfl⟩ := List.mem_map.mp htask
    exact ⟨w, (hstarted.trans hdone).subset hmem⟩

/-- `BlockUntilAllTaskHaveCompleted` returns at a test that finds the queue
empty.  In every state from there on, with no more tasks added and no `Stop`,
all tasks have returned from their `Run`, if and only if at that test no worker
is between its `pop` and the return of `Run`. -/
theorem block_returns_completed_iff {acts : List (PoolAct n Task)}
    {returned : ThreadPool n Task}
    (hrun : (start n Task).run acts = some pool)
    (hown : (history acts (start n Task) .empty).added.Nodup)
    (hstop : .stop ∉ acts) (htest : pool.step .blockTest = some returned)
    (hreturned : returned.blockPc = .returned) :
    (∀ more last, (∀ act ∈ more, ¬ act.Adds ∧ act ≠ .stop) →
        returned.run more = some last →
        Completed (history (acts ++ .blockTest :: more) (start n Task)
          .empty)) ↔
      ∀ w, ¬ (pool.pc w).Unfinished := by
  have hlog := LogInv.start.run hrun
  have hopen : ¬ pool.stopPc.Joined := by
    rw [stopPc_run hstop hrun]
    exact id
  have hempty : pool.queue = [] := by
    obtain ⟨hcalled, ⟨hempty, _⟩ | ⟨_, rfl⟩⟩ := blockTest_eq htest
    · exact hempty
    · exact absurd (hcalled.symm.trans hreturned) (by simp)
  rw [← hlog.completed_iff hown hopen hempty]
  have hhistory (more : List (PoolAct n Task)) :
      history (acts ++ .blockTest :: more) (start n Task) .empty =
        history more returned (history acts (start n Task) .empty) := by
    rw [history_append hrun]
    simp only [history, htest]
    rfl
  constructor
  · intro hall
    have hnow := hall [] returned (by simp) rfl
    rw [hhistory] at hnow
    exact hnow
  · intro hcompleted more last hmore _
    rw [hhistory]
    exact hcompleted.history fun act hact => (hmore act hact).1

/-- A task that is run to its end before the call. -/
def runThenBlock : List (PoolAct 1 Nat) :=
  [.addPush (some 7), .addNotify none] ++ List.replicate 7 (.work 0) ++
    [.blockCall]

theorem block_returns_completed_iff_run :
    ∃ pool returned : ThreadPool 1 Nat,
      (start 1 Nat).run runThenBlock = some pool ∧
      pool.step .blockTest = some returned ∧ returned.blockPc = .returned ∧
      ((∀ more last, (∀ act ∈ more, ¬ act.Adds ∧ act ≠ .stop) →
          returned.run more = some last →
          Completed (history (runThenBlock ++ .blockTest :: more) (start 1 Nat)
            .empty)) ↔
        ∀ w, ¬ (pool.pc w).Unfinished) := by
  obtain ⟨pool, hrun, hempty⟩ := Option.map_eq_some_iff.mp
    (show ((start 1 Nat).run runThenBlock).map
      (fun pool => (pool.blockPc, pool.queue)) = some (.called, []) by decide)
  obtain ⟨hcalled, hqueue⟩ := Prod.mk.inj hempty
  have htest : pool.step .blockTest =
      some { pool with blockPc := .returned } := by
    simp [step, hcalled, hqueue]
  exact ⟨pool, _, hrun, htest, rfl, block_returns_completed_iff hrun
    (by decide) (by decide) htest rfl⟩

/-- The call returns while the only task, taken by a worker, is not started. -/
theorem block_returns_early :
    ∃ pool, (start 1 Nat).run
        ([.addPush (some 7), .addNotify none] ++ List.replicate 5 (.work 0) ++
          [.blockCall, .blockTest]) = some pool ∧
      pool.blockPc = .returned ∧
      ¬ Completed (history
        ([.addPush (some 7), .addNotify none] ++ List.replicate 5 (.work 0) ++
          [.blockCall, .blockTest]) (start 1 Nat) .empty) := by
  obtain ⟨pool, hrun, hreturned⟩ := Option.map_eq_some_iff.mp
    (show ((start 1 Nat).run
        ([.addPush (some 7), .addNotify none] ++ List.replicate 5 (.work 0) ++
          [.blockCall, .blockTest])).map ThreadPool.blockPc =
      some .returned by decide)
  exact ⟨pool, hrun, hreturned, by decide⟩

end Block

end ThreadPool

end SimpleKV
