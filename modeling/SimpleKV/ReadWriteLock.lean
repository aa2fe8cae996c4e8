/-
`ReadWriteLock` of `structure/read_write_lock.h` with any number of threads.  A
step is what one thread does while it holds the internal mutex, or a wake-up.
One condition variable serves readers and writers, and `ReadUnlock` wakes a
single waiter: a writer is not stranded because only writers can be parked
then.
-/
import Mathlib.Data.Set.Card
import Mathlib.Logic.Relation

namespace SimpleKV

inductive LockMode where
  | read
  | write
deriving DecidableEq

/-- Where a thread stands.  A `woken` thread has left the condition variable and
has yet to take the mutex and test its condition again. -/
inductive LockPc where
  | outside
  | parked (mode : LockMode)
  | woken (mode : LockMode)
  | inside (mode : LockMode)
deriving DecidableEq

/-- The loop condition of `ReadLock` and of `WriteLock`. -/
def LockMode.mustWait : LockMode → Int → Prop
  | .read, stat => stat < 0
  | .write, stat => stat ≠ 0

/-- The update of `stat` after the loop. -/
def LockMode.enter : LockMode → Int → Int
  | .read, stat => stat + 1
  | .write, stat => stat - 1

/-- The lock and its threads. -/
structure ReadWriteLock (Thread : Type*) where
  stat : Int
  pc : Thread → LockPc

namespace ReadWriteLock

universe u

variable {Thread : Type u}

/-- `ReadWriteLock::ReadWriteLock`. -/
def new : ReadWriteLock Thread where
  stat := 0
  pc _ := .outside

/-- A wake-up of one parked thread. -/
def wakeThread : LockPc → LockPc
  | .parked mode => .woken mode
  | pc => pc

/-- `cond_.notify_all()`. -/
def notifyAll (lock : ReadWriteLock Thread) : ReadWriteLock Thread :=
  { lock with pc := fun thread => wakeThread (lock.pc thread) }

variable [DecidableEq Thread]

def setPc (lock : ReadWriteLock Thread) (thread : Thread) (pc : LockPc) :
    ReadWriteLock Thread :=
  { lock with pc := Function.update lock.pc thread pc }

/-- `cond_.notify_one()`: some parked thread is woken, if there is one. -/
inductive NotifyOne (lock : ReadWriteLock Thread) :
    ReadWriteLock Thread → Prop where
  | wake {thread : Thread} {mode : LockMode} :
      lock.pc thread = .parked mode →
      NotifyOne lock (lock.setPc thread (.woken mode))
  | nobody : (∀ thread mode, lock.pc thread ≠ .parked mode) →
      NotifyOne lock lock

/-- One step of one thread. -/
inductive Step (lock : ReadWriteLock Thread) :
    ReadWriteLock Thread → Prop where
  /-- `ReadLock` or `WriteLock`, at its start or after a wake-up, that has to
  wait. -/
  | park {thread : Thread} {mode : LockMode} :
      lock.pc thread = .outside ∨ lock.pc thread = .woken mode →
      mode.mustWait lock.stat → Step lock (lock.setPc thread (.parked mode))
  /-- The same that does not. -/
  | enter {thread : Thread} {mode : LockMode} :
      lock.pc thread = .outside ∨ lock.pc thread = .woken mode →
      ¬ mode.mustWait lock.stat →
      Step lock
        { lock.setPc thread (.inside mode) with stat := mode.enter lock.stat }
  /-- `ReadUnlock` by one of several readers. -/
  | readUnlock {thread : Thread} : lock.pc thread = .inside .read →
      lock.stat - 1 ≠ 0 →
      Step lock { lock.setPc thread .outside with stat := lock.stat - 1 }
  /-- `ReadUnlock` by the last one. -/
  | readUnlockLast {thread : Thread} {lock' : ReadWriteLock Thread} :
      lock.pc thread = .inside .read → lock.stat - 1 = 0 →
      NotifyOne { lock.setPc thread .outside with stat := lock.stat - 1 }
        lock' → Step lock lock'
  /-- `WriteUnlock`. -/
  | writeUnlock {thread : Thread} : lock.pc thread = .inside .write →
      Step lock
        { (lock.setPc thread .outside).notifyAll with stat := lock.stat + 1 }
  /-- A spurious wake-up. -/
  | wake {thread : Thread} {mode : LockMode} :
      lock.pc thread = .parked mode →
      Step lock (lock.setPc thread (.woken mode))

/-- The states the threads can bring a new lock to. -/
def Reachable (lock : ReadWriteLock Thread) : Prop :=
  Relation.ReflTransGen Step new lock

omit [DecidableEq Thread] in
/-- The threads that hold the lock in a mode. -/
def holders (lock : ReadWriteLock Thread) (mode : LockMode) : Set Thread :=
  { thread | lock.pc thread = .inside mode }

/-- Who is inside, as `stat` says. -/
inductive Held (lock : ReadWriteLock Thread) : Prop where
  | exclusive (thread : Thread) : lock.stat = -1 →
      lock.holders .write = {thread} → lock.holders .read = ∅ → Held lock
  | shared : (lock.holders .read).Finite →
      lock.stat = (lock.holders .read).ncard → lock.holders .write = ∅ →
      Held lock

/-- What every reachable state satisfies.  A reader parks only behind a writer;
a free lock with a parked thread has a woken one. -/
structure Inv (lock : ReadWriteLock Thread) : Prop where
  held : Held lock
  readers : 0 ≤ lock.stat → ∀ thread, lock.pc thread ≠ .parked .read
  woken : lock.stat = 0 → (∃ thread mode, lock.pc thread = .parked mode) →
    ∃ thread mode, lock.pc thread = .woken mode

section Holders

variable (lock : ReadWriteLock Thread) (thread : Thread)

@[simp] theorem setPc_stat (pc : LockPc) :
    (lock.setPc thread pc).stat = lock.stat :=
  rfl

@[simp] theorem setPc_pc_self (pc : LockPc) :
    (lock.setPc thread pc).pc thread = pc := by
  simp [setPc]

theorem setPc_pc_of_ne {other : Thread} (pc : LockPc) (hne : other ≠ thread) :
    (lock.setPc thread pc).pc other = lock.pc other := by
  simp [setPc, hne]

theorem holders_setPc_inside (mode : LockMode) :
    (lock.setPc thread (.inside mode)).holders mode =
      insert thread (lock.holders mode) := by
  ext other
  by_cases hother : other = thread
  · subst hother
    simp [holders]
  · simp [holders, setPc_pc_of_ne lock thread _ hother, hother]

theorem holders_setPc {pc : LockPc} {mode : LockMode}
    (hpc : pc ≠ .inside mode) :
    (lock.setPc thread pc).holders mode = lock.holders mode \ {thread} := by
  ext other
  by_cases hother : other = thread
  · subst hother
    simp [holders, hpc]
  · simp [holders, setPc_pc_of_ne lock thread _ hother, hother]

/-- A thread that was not inside and still is not changes no holder. -/
theorem holders_setPc_of_not_inside {pc : LockPc} {mode : LockMode}
    (hpc : pc ≠ .inside mode) (hold : lock.pc thread ≠ .inside mode) :
    (lock.setPc thread pc).holders mode = lock.holders mode := by
  rw [holders_setPc lock thread hpc]
  exact Set.sdiff_singleton_eq_self hold

omit [DecidableEq Thread] in
theorem holders_notifyAll (mode : LockMode) :
    lock.notifyAll.holders mode = lock.holders mode := by
  ext other
  simp only [holders, notifyAll, Set.mem_ofPred_eq]
  cases lock.pc other <;> simp [wakeThread]

end Holders

omit [DecidableEq Thread] in
/-- `Held` reads `stat` and the holders only. -/
theorem Held.congr {lock lock' : ReadWriteLock Thread} (h : Held lock)
    (hstat : lock'.stat = lock.stat)
    (hholders : ∀ mode, lock'.holders mode = lock.holders mode) :
    Held lock' := by
  cases h with
  | exclusive thread hminus hwrite hread =>
      exact .exclusive thread (hstat.trans hminus)
        ((hholders .write).trans hwrite) ((hholders .read).trans hread)
  | shared hfinite hcount hwrite =>
      refine .shared ?_ ?_ ((hholders .write).trans hwrite)
      · rwa [hholders]
      · rwa [hstat, hholders]

omit [DecidableEq Thread] in
theorem Held.shared_of_nonneg {lock : ReadWriteLock Thread} (h : Held lock)
    (hstat : 0 ≤ lock.stat) :
    (lock.holders .read).Finite ∧ lock.stat = (lock.holders .read).ncard ∧
      lock.holders .write = ∅ := by
  cases h with
  | exclusive thread hminus _ _ => omega
  | shared hfinite hcount hwrite => exact ⟨hfinite, hcount, hwrite⟩

variable {lock lock' : ReadWriteLock Thread}

/-- A thread that moves between the places outside of the lock. -/
theorem Held.setPc {thread : Thread} {pc : LockPc} (h : Held lock)
    (hold : ∀ mode, lock.pc thread ≠ .inside mode)
    (hnew : ∀ mode, pc ≠ .inside mode) : Held (lock.setPc thread pc) :=
  h.congr rfl fun mode =>
    holders_setPc_of_not_inside lock thread (hnew mode) (hold mode)

omit [DecidableEq Thread] in
theorem not_inside {thread : Thread} {mode : LockMode}
    (hpc : lock.pc thread = .outside ∨ lock.pc thread = .woken mode)
    (other : LockMode) : lock.pc thread ≠ .inside other := by
  rcases hpc with hpc | hpc <;> simp [hpc]

/-- A parked thread of the new state was parked before, or is the one that
moved. -/
theorem parked_of_setPc {thread other : Thread} {pc : LockPc}
    {mode : LockMode}
    (hparked : (lock.setPc thread pc).pc other = .parked mode) :
    lock.pc other = .parked mode ∨ (other = thread ∧ pc = .parked mode) := by
  by_cases hother : other = thread
  · subst hother
    rw [setPc_pc_self] at hparked
    exact Or.inr ⟨rfl, hparked⟩
  · rw [setPc_pc_of_ne lock thread pc hother] at hparked
    exact Or.inl hparked

theorem Inv.park (h : Inv lock) {thread : Thread} {mode : LockMode}
    (hpc : lock.pc thread = .outside ∨ lock.pc thread = .woken mode)
    (hwait : mode.mustWait lock.stat) :
    Inv (lock.setPc thread (.parked mode)) where
  held := h.held.setPc (not_inside hpc) (by simp)
  readers := by
    intro hstat other hother
    rcases parked_of_setPc hother with hother | ⟨_, hmode⟩
    · exact h.readers hstat other hother
    · cases hmode
      exact absurd hwait (not_lt.mpr hstat)
  woken := by
    -- nobody parks at a free lock
    intro hstat _
    rw [setPc_stat] at hstat
    rw [hstat] at hwait
    cases mode <;> simp [LockMode.mustWait] at hwait

theorem Inv.enterRead (h : Inv lock) {thread : Thread}
    (hpc : lock.pc thread = .outside ∨ lock.pc thread = .woken .read)
    (hwait : ¬ LockMode.read.mustWait lock.stat) :
    Inv { lock.setPc thread (.inside .read) with
      stat := LockMode.read.enter lock.stat } := by
  have hstat : 0 ≤ lock.stat := not_lt.mp hwait
  obtain ⟨hfinite, hcount, hwrite⟩ := h.held.shared_of_nonneg hstat
  have hread := holders_setPc_inside lock thread .read
  have hnot : thread ∉ lock.holders .read := not_inside hpc .read
  refine ⟨.shared ?_ ?_ ?_, ?_, ?_⟩
  · exact hread ▸ hfinite.insert thread
  · change lock.stat + 1 = ((lock.setPc thread (.inside .read)).holders
      .read).ncard
    rw [hread, Set.ncard_insert_of_notMem hnot hfinite, hcount]
    rfl
  · exact (holders_setPc_of_not_inside lock thread (by simp)
      (not_inside hpc .write)).trans hwrite
  · intro _ other hother
    rcases parked_of_setPc hother with hother | ⟨_, hmode⟩
    · exact h.readers hstat other hother
    · cases hmode
  · intro hzero _
    change lock.stat + 1 = 0 at hzero
    omega

theorem Inv.enterWrite (h : Inv lock) {thread : Thread}
    (hpc : lock.pc thread = .outside ∨ lock.pc thread = .woken .write)
    (hwait : ¬ LockMode.write.mustWait lock.stat) :
    Inv { lock.setPc thread (.inside .write) with
      stat := LockMode.write.enter lock.stat } := by
  have hstat : lock.stat = 0 := not_not.mp hwait
  obtain ⟨hfinite, hcount, hwrite⟩ := h.held.shared_of_nonneg hstat.ge
  have hempty : lock.holders .read = ∅ := by
    rw [← Set.ncard_eq_zero hfinite]
    omega
  refine ⟨.exclusive thread ?_ ?_ ?_, ?_, ?_⟩
  · change lock.stat - 1 = -1
    omega
  · refine (holders_setPc_inside lock thread .write).trans ?_
    rw [hwrite, insert_empty_eq]
  · exact (holders_setPc_of_not_inside lock thread (by simp)
      (not_inside hpc .read)).trans hempty
  · intro hnonneg
    change 0 ≤ lock.stat - 1 at hnonneg
    omega
  · intro hzero
    change lock.stat - 1 = 0 at hzero
    omega

/-- A reader that leaves, before anybody is notified. -/
theorem Inv.leaveRead (h : Inv lock) {thread : Thread}
    (hpc : lock.pc thread = .inside .read) :
    Held { lock.setPc thread .outside with stat := lock.stat - 1 } ∧
      ∀ other, (lock.setPc thread .outside).pc other ≠ .parked .read := by
  have hmem : thread ∈ lock.holders .read := hpc
  cases h.held with
  | exclusive writer _ _ hread =>
      rw [hread] at hmem
      exact absurd hmem (Set.notMem_empty thread)
  | shared hfinite hcount hwrite =>
      have hread := holders_setPc lock thread
        (show LockPc.outside ≠ .inside .read by simp)
      have hcard := Set.ncard_sdiff_singleton_add_one hmem hfinite
      constructor
      · refine .shared ?_ ?_ ?_
        · exact hread ▸ hfinite.sdiff
        · change lock.stat - 1 = ((lock.setPc thread .outside).holders
            .read).ncard
          rw [hread]
          omega
        · refine (holders_setPc_of_not_inside lock thread (by simp) ?_).trans
            hwrite
          simp [hpc]
      · intro other hother
        rcases parked_of_setPc hother with hother | ⟨_, hmode⟩
        · exact h.readers (by omega) other hother
        · cases hmode

theorem Inv.wake (h : Inv lock) {thread : Thread} {mode : LockMode}
    (hpc : lock.pc thread = .parked mode) :
    Inv (lock.setPc thread (.woken mode)) where
  held := h.held.setPc (by simp [hpc]) (by simp)
  readers := by
    intro hstat other hother
    rcases parked_of_setPc hother with hother | ⟨_, hmode⟩
    · exact h.readers hstat other hother
    · cases hmode
  woken := fun _ _ => ⟨thread, mode, setPc_pc_self lock thread _⟩

theorem Inv.writeUnlock (h : Inv lock) {thread : Thread}
    (hpc : lock.pc thread = .inside .write) :
    Inv { (lock.setPc thread .outside).notifyAll with
      stat := lock.stat + 1 } := by
  have hmem : thread ∈ lock.holders .write := hpc
  have hnone : ∀ other mode,
      (lock.setPc thread .outside).notifyAll.pc other ≠ .parked mode := by
    intro other mode
    simp only [notifyAll]
    cases (lock.setPc thread .outside).pc other <;> simp [wakeThread]
  refine ⟨?_, fun _ other => hnone other .read, ?_⟩
  · cases h.held with
    | exclusive writer hminus hwrite hread =>
        have hwriter : thread = writer := by
          rw [hwrite] at hmem
          exact hmem
        have hread' : (lock.setPc thread .outside).notifyAll.holders .read =
            ∅ := by
          rw [holders_notifyAll, holders_setPc_of_not_inside lock thread
            (by simp) (by simp [hpc]), hread]
        refine .shared ?_ ?_ ?_
        · exact hread' ▸ Set.finite_empty
        · change lock.stat + 1 = ((lock.setPc thread
            .outside).notifyAll.holders .read).ncard
          rw [hread', Set.ncard_empty, hminus]
          rfl
        · refine (holders_notifyAll _ .write).trans ?_
          rw [holders_setPc lock thread (by simp), hwrite, hwriter,
            sdiff_self, Set.bot_eq_empty]
    | shared _ _ hwrite =>
        rw [hwrite] at hmem
        exact absurd hmem (Set.notMem_empty thread)
  · rintro _ ⟨other, mode, hother⟩
    exact absurd hother (hnone other mode)

theorem Inv.step (h : Inv lock) (hstep : Step lock lock') : Inv lock' := by
  cases hstep with
  | park hpc hwait => exact h.park hpc hwait
  | @enter thread mode hpc hwait =>
      cases mode with
      | read => exact h.enterRead hpc hwait
      | write => exact h.enterWrite hpc hwait
  | readUnlock hpc hmore =>
      obtain ⟨hheld, hreaders⟩ := h.leaveRead hpc
      exact ⟨hheld, fun _ => hreaders, fun hzero => absurd hzero hmore⟩
  | readUnlockLast hpc hlast hnotify =>
      obtain ⟨hheld, hreaders⟩ := h.leaveRead hpc
      cases hnotify with
      | @wake woken mode hparked =>
          refine ⟨hheld.setPc (fun other => ?_) (by simp), ?_, fun _ _ =>
            ⟨woken, mode, setPc_pc_self _ woken _⟩⟩
          · rw [hparked]
            simp
          intro _ other hother
          rcases parked_of_setPc hother with hother | ⟨_, hmode⟩
          · exact hreaders other hother
          · cases hmode
      | nobody hnone =>
          refine ⟨hheld, fun _ => hreaders, ?_⟩
          rintro _ ⟨other, mode, hother⟩
          exact absurd hother (hnone other mode)
  | writeUnlock hpc => exact h.writeUnlock hpc
  | wake hpc => exact h.wake hpc

omit [DecidableEq Thread] in
theorem Inv.new : Inv (new : ReadWriteLock Thread) := by
  refine ⟨.shared ?_ ?_ ?_, ?_, ?_⟩
  · simp [holders, ReadWriteLock.new]
  · simp [holders, ReadWriteLock.new]
  · simp [holders, ReadWriteLock.new]
  · simp [ReadWriteLock.new]
  · simp [ReadWriteLock.new]

theorem Reachable.inv (h : Reachable lock) : Inv lock := by
  induction h with
  | refl => exact Inv.new
  | tail _ hstep ih => exact ih.step hstep

/-- In every reachable state: `stat` is -1 with one writer and no reader
inside, or it counts the readers and no writer is inside; no reader is parked
unless a writer is inside; and a free lock with a parked thread has a woken
thread that has yet to test its condition. -/
theorem exclusion_and_no_stranded_waiter (h : Reachable lock) :
    ((lock.stat = -1 ∧ (∃! thread, lock.pc thread = .inside .write) ∧
        ∀ thread, lock.pc thread ≠ .inside .read) ∨
      ((lock.holders .read).Finite ∧
        lock.stat = (lock.holders .read).ncard ∧
        ∀ thread, lock.pc thread ≠ .inside .write)) ∧
    (0 ≤ lock.stat → ∀ thread, lock.pc thread ≠ .parked .read) ∧
    (lock.stat = 0 → (∃ thread mode, lock.pc thread = .parked mode) →
      ∃ thread mode, lock.pc thread = .woken mode) := by
  have hinv := h.inv
  refine ⟨?_, hinv.readers, hinv.woken⟩
  have hempty {mode : LockMode} (hholders : lock.holders mode = ∅)
      (thread : Thread) : lock.pc thread ≠ .inside mode :=
    fun hpc => Set.notMem_empty thread (hholders ▸ hpc)
  cases hinv.held with
  | exclusive writer hminus hwrite hread =>
      refine Or.inl ⟨hminus, ⟨writer, ?_, ?_⟩, hempty hread⟩
      · have hmem : writer ∈ lock.holders .write := by
          rw [hwrite]
          exact Set.mem_singleton writer
        exact hmem
      · intro other hother
        have hmem : other ∈ lock.holders .write := hother
        rwa [hwrite] at hmem
  | shared hfinite hcount hwrite =>
      exact Or.inr ⟨hfinite, hcount, hempty hwrite⟩

/-- Three threads: one writes, a reader parks behind it, the writer leaves. -/
theorem exclusion_and_no_stranded_waiter_handover :
    ∃ lock : ReadWriteLock (Fin 3), Reachable lock ∧ lock.stat = 0 ∧
      lock.pc 1 = .woken .read ∧ ∀ thread, lock.pc thread ≠ .parked .read := by
  have h1 : Reachable (new : ReadWriteLock (Fin 3)) := .refl
  have h2 := h1.tail (@Step.enter _ _ _ 0 .write (Or.inl rfl)
    (by simp [LockMode.mustWait, new]))
  have h3 := h2.tail (@Step.park _ _ _ 1 .read (Or.inl rfl)
    (by simp [LockMode.mustWait, LockMode.enter, new]))
  have h4 := h3.tail (@Step.writeUnlock _ _ _ 0 rfl)
  exact ⟨_, h4, rfl, rfl, (exclusion_and_no_stranded_waiter h4).2.1 (by decide)⟩

end ReadWriteLock

end SimpleKV
