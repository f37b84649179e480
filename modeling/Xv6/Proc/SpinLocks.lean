/-
The spinlocks of the kernel, as each CPU takes and releases them (proc.c, trap.c, sysproc.c, console.c, pipe.c, ide.c,
log.c, sleeplock.c, kalloc.c, bio.c, fs.c, file.c; built with -DPROC_TIMES, -DCPS and -DLOTTERY).

A `KernelPath` is a stretch of code that a CPU enters and leaves with no spinlock held, and `ops` lists its acquire and
release calls, callees included. ptable.lock crosses `swtch`: a process that calls `sched` holds it, and the scheduler
on the same CPU goes on with it, reads the clock (`uptime`, for ticks_total) and releases it; a dispatch takes it, reads
the clock (for ticks_begin), and the process that resumes releases it, in `forkret`, `yield`, `sleep` or `wait`. A lock
re-taken at the end of `sleep` starts a new stretch.

So tickslock nests inside ptable.lock at every context switch, and ptable.lock inside tickslock in the timer trap and
in sys_sleep. cons.lock nests inside ptable.lock in proc_cps, and ptable.lock inside cons.lock in consoleintr and
consoleread.
- `timer_dispatch_deadlock`: two CPUs, one in the timer trap and one in the scheduler, end up waiting for each other.
- `no_deadlock_of_nonCrossing`: these two inversions are the only way. In every run in which no acquisition completes
  a crossing (one CPU holding a lock the other still wants, each before it releases its own), no set of CPUs is
  deadlocked.
-/
import Xv6.Param
import Xv6.Lib.LockSections

namespace Xv6.SpinLocks

open Lib List

/-! ## Model -/

/-- the spinlocks of the kernel; pipes and sleep locks have one each -/
inductive SpinLock where
  | tickslock | ptable | cons | idelock | log | kmem | bcache | icache | ftable
  | pipe (p : ℕ)
  | sleeplk (i : ℕ)
deriving DecidableEq, Repr

abbrev Ops := List (LockOp SpinLock)

/-- wakeup(chan) -/
def wakeup : Ops := [.acq .ptable, .rel .ptable]

/-- uptime() -/
def uptime : Ops := [.acq .tickslock, .rel .tickslock]

/-- scheduler() after swtch comes back: charge ticks_total, leave the loop, release ptable.lock -/
def schedBack : Ops := uptime ++ [.rel .ptable]

/-- acquire(lk); k calls of wakeup; release(lk) -/
def locked (lk : SpinLock) (k : ℕ) : Ops := .acq lk :: (List.replicate k wakeup).flatten ++ [.rel lk]

/-- acquire(lk); k calls of wakeup; sleep(chan, lk), up to the point where the CPU is back in its scheduler loop -/
def lockedSleep (lk : SpinLock) (k : ℕ) : Ops :=
  .acq lk :: (List.replicate k wakeup).flatten ++ ([.acq .ptable, .rel lk] ++ schedBack)

/-- how a scan of wait() ends: a zombie is reaped (its kernel stack and memory are kfree'd), -1, or sleep -/
inductive WaitEnd where
  | reap (pages : ℕ) | noKids | sleep
deriving DecidableEq, Repr

/-- the rest of wait() from the scan on, with ptable.lock held -/
def waitEnd : WaitEnd → Ops
  | .reap pages => (List.replicate pages [.acq .kmem, .rel .kmem]).flatten ++ [.rel .ptable]
  | .noKids => [.rel .ptable]
  | .sleep => schedBack

/-- the kernel paths that take spinlocks -/
inductive KernelPath where
  /-- trap(), T_IRQ0 + IRQ_TIMER; only the CPU with cpuid() == 0 takes tickslock -/
  | timer
  | sysUptime
  | sysSleep (sleeps : Bool)
  /-- a scheduler pass that dispatches nothing -/
  | schedIdle
  /-- a dispatch that resumes in forkret, in yield, or in sleep on a lock other than ptable.lock -/
  | dispatch
  /-- a dispatch that resumes in wait's sleep(curproc, &ptable.lock) -/
  | dispatchWait (e : WaitEnd)
  | yield
  | exit
  | wait (e : WaitEnd)
  /-- the ptable.lock sections of allocproc, userinit, fork, kill and renice -/
  | procTable
  /-- proc_cps with its calls of cprintf -/
  | procCps (lines : ℕ)
  | cprintf
  | consoleintr (wakeups : ℕ)
  | consoleread (sleeps : Bool)
  | consolewrite
  | pipeclose (p : ℕ)
  | pipewrite (p : ℕ) (sleeps : Bool)
  /-- pipewrite or piperead returning -1 -/
  | pipeFail (p : ℕ)
  | piperead (p : ℕ) (sleeps : Bool)
  | ideintr (queued : Bool)
  | iderw (sleeps : Bool)
  | beginOp (sleeps : Bool)
  /-- the sections of end_op: the first one wakes begin_op unless this was the last operation -/
  | endOp (wakes : Bool)
  | logWrite
  | acquiresleep (i : ℕ) (sleeps : Bool)
  | releasesleep (i : ℕ)
  | holdingsleep (i : ℕ)
  /-- kalloc and kfree -/
  | kmem
  /-- bget and brelse -/
  | bcache
  /-- iget, idup and iput -/
  | icache
  /-- filealloc, filedup and fileclose -/
  | ftable
deriving DecidableEq, Repr

/-- `locked` or `lockedSleep` on a lock with k wakeups before it -/
def lockSection (lk : SpinLock) (k : ℕ) (sleeps : Bool) : Ops := if sleeps then lockedSleep lk k else locked lk k

/-- the acquire and release calls of a path, in order -/
def ops : KernelPath → Ops
  | .timer => locked .tickslock 1
  | .sysUptime => uptime
  | .sysSleep sleeps => lockSection .tickslock 0 sleeps
  | .schedIdle => locked .ptable 0
  | .dispatch => .acq .ptable :: (uptime ++ [.rel .ptable])
  | .dispatchWait e => .acq .ptable :: (uptime ++ waitEnd e)
  | .yield => .acq .ptable :: schedBack
  | .exit => .acq .ptable :: schedBack
  | .wait e => .acq .ptable :: waitEnd e
  | .procTable => locked .ptable 0
  | .procCps lines => .acq .ptable :: ((List.replicate lines [.acq .cons, .rel .cons]).flatten ++ [.rel .ptable])
  | .cprintf => locked .cons 0
  | .consoleintr wakeups => locked .cons wakeups
  | .consoleread sleeps => lockSection .cons 0 sleeps
  | .consolewrite => locked .cons 0
  | .pipeclose p => locked (.pipe p) 1
  | .pipewrite p sleeps => lockSection (.pipe p) 1 sleeps
  | .pipeFail p => locked (.pipe p) 0
  | .piperead p sleeps => if sleeps then lockedSleep (.pipe p) 0 else locked (.pipe p) 1
  | .ideintr queued => locked .idelock (if queued then 1 else 0)
  | .iderw sleeps => lockSection .idelock 0 sleeps
  | .beginOp sleeps => lockSection .log 0 sleeps
  | .endOp wakes => locked .log (if wakes then 1 else 0)
  | .logWrite => locked .log 0
  | .acquiresleep i sleeps => lockSection (.sleeplk i) 0 sleeps
  | .releasesleep i => locked (.sleeplk i) 1
  | .holdingsleep i => locked (.sleeplk i) 0
  | .kmem => locked .kmem 0
  | .bcache => locked .bcache 0
  | .icache => locked .icache 0
  | .ftable => locked .ftable 0

/-- what CPU c may run: every path, the timer's tickslock section on CPU 0 only -/
def cpuPaths (n : ℕ) (c : Fin n) (p : Ops) : Prop := ∃ k : KernelPath, (k = .timer → c.val = 0) ∧ p = ops k

/-! ## The nesting of the paths -/

/-- locks under which ptable.lock is taken -/
def Outer : SpinLock → Bool
  | .tickslock | .cons | .idelock | .log | .pipe _ | .sleeplk _ => true
  | _ => false

/-- locks taken under ptable.lock -/
def Inner : SpinLock → Bool
  | .tickslock | .cons | .kmem => true
  | _ => false

/-- what a CPU may hold when it takes a lock: nothing, one outer lock when it takes ptable.lock, or ptable.lock when it
takes an inner lock -/
def Nested (held : List SpinLock) (l : SpinLock) : Prop :=
  held = [] ∨ (l = .ptable ∧ ∃ o, Outer o ∧ held = [o]) ∨ (Inner l ∧ held = [.ptable])

/-- a lock taken and released under another one, any number of times -/
theorem along_pairs (lk l : SpinLock) (k : ℕ) (rest : Ops) (h : k = 0 ∨ Nested [lk] l) (hr : Along Nested [lk] rest) :
    Along Nested [lk] ((List.replicate k [LockOp.acq l, LockOp.rel l]).flatten ++ rest) := by
  induction k with
  | zero => simpa using hr
  | succ k ih =>
    have hl : Nested [lk] l := by
      rcases h with h | h
      · omega
      · exact h
    simp only [replicate_succ, flatten_cons, cons_append, nil_append]
    refine ⟨hl, ?_⟩
    show Along Nested (List.erase [l, lk] l) _
    rw [erase_cons_head]
    exact ih (Or.inr hl)

theorem nested_ptable {o : SpinLock} (h : Outer o) : Nested [o] .ptable := Or.inr (Or.inl ⟨rfl, o, h, rfl⟩)

theorem nested_inner {i : SpinLock} (h : Inner i) : Nested [.ptable] i := Or.inr (Or.inr ⟨h, rfl⟩)

theorem along_uptime (rest : Ops) (hr : Along Nested [.ptable] rest) : Along Nested [.ptable] (uptime ++ rest) :=
  along_pairs .ptable .tickslock 1 rest (Or.inr (nested_inner rfl)) hr

theorem along_schedBack : Along Nested [.ptable] schedBack := along_uptime _ rfl

theorem along_waitEnd (e : WaitEnd) : Along Nested [.ptable] (waitEnd e) := by
  cases e with
  | reap pages => exact along_pairs _ _ _ _ (Or.inr (nested_inner rfl)) rfl
  | noKids => rfl
  | sleep => exact along_schedBack

theorem along_locked (lk : SpinLock) (k : ℕ) (h : k = 0 ∨ Outer lk) : Along Nested [] (locked lk k) := by
  refine ⟨Or.inl rfl, along_pairs _ _ _ _ (h.imp id nested_ptable) ?_⟩
  show List.erase [lk] lk = []
  rw [erase_cons_head]

theorem along_lockedSleep (lk : SpinLock) (k : ℕ) (h : Outer lk) : Along Nested [] (lockedSleep lk k) := by
  refine ⟨Or.inl rfl, along_pairs _ _ _ _ (Or.inr (nested_ptable h)) ⟨nested_ptable h, ?_⟩⟩
  show Along Nested (List.erase [.ptable, lk] lk) schedBack
  have hne : lk ≠ .ptable := by rintro rfl; simp [Outer] at h
  rw [erase_cons_tail (by simpa using hne.symm), erase_cons_head]
  exact along_schedBack

theorem along_lockSection (lk : SpinLock) (k : ℕ) (sleeps : Bool) (h : Outer lk) : Along Nested [] (lockSection lk k sleeps) := by
  cases sleeps
  · exact along_locked lk k (Or.inr h)
  · exact along_lockedSleep lk k h

/-- every kernel path nests as `Nested` says, and ends with nothing held -/
theorem along_ops (k : KernelPath) : Along Nested [] (ops k) := by
  cases k with
  | timer | consoleintr wakeups | pipeclose p | ideintr queued | endOp wakes | releasesleep i =>
    exact along_locked _ _ (Or.inr rfl)
  | sysUptime => exact along_locked .tickslock 0 (Or.inl rfl)
  | sysSleep sleeps | consoleread sleeps | pipewrite p sleeps | iderw sleeps | beginOp sleeps | acquiresleep i sleeps =>
    exact along_lockSection _ _ _ rfl
  | dispatch => exact ⟨Or.inl rfl, along_uptime _ rfl⟩
  | dispatchWait e => exact ⟨Or.inl rfl, along_uptime _ (along_waitEnd e)⟩
  | yield | exit => exact ⟨Or.inl rfl, along_schedBack⟩
  | wait e => exact ⟨Or.inl rfl, along_waitEnd e⟩
  | procCps lines => exact ⟨Or.inl rfl, along_pairs _ _ _ _ (Or.inr (nested_inner rfl)) rfl⟩
  | piperead p sleeps =>
    cases sleeps
    · exact along_locked _ _ (Or.inr rfl)
    · exact along_lockedSleep _ _ rfl
  | _ => exact along_locked _ _ (Or.inl rfl)

theorem along_cpuPaths {n : ℕ} (c : Fin n) (p : Ops) (h : cpuPaths n c p) : Along Nested [] p := by
  obtain ⟨k, -, rfl⟩ := h
  exact along_ops k

/-! ## Deadlock comes from a crossing -/

/-- a CPU that waits while it holds a lock holds one outer lock and waits for ptable.lock, or holds ptable.lock and
waits for an inner lock -/
theorem waiting_cases {n : ℕ} {Guard} {s : LockState (Fin n) SpinLock} (h : Reach (cpuPaths n) Guard s) {c c' : Fin n}
    {l m : SpinLock} (hw : WaitsFor s c l c') (hm : m ∈ (s c).held) : (l = .ptable ∧ Outer m) ∨ (Inner l ∧ m = .ptable) := by
  obtain ⟨⟨r, ht⟩, -⟩ := hw
  have hal := along_reach along_cpuPaths h c
  rw [ht] at hal
  rcases hal.1 with h0 | ⟨rfl, o, ho, hheld⟩ | ⟨hi, hheld⟩
  · rw [h0] at hm; simp at hm
  · rw [hheld] at hm
    simp only [mem_singleton] at hm
    exact Or.inl ⟨rfl, hm ▸ ho⟩
  · rw [hheld] at hm
    simp only [mem_singleton] at hm
    exact Or.inr ⟨hi, hm⟩

/-- a CPU of a deadlocked set that holds ptable.lock crosses with the CPU that holds the lock it waits for -/
theorem crossing_of_ptable {n : ℕ} {Guard} {s : LockState (Fin n) SpinLock} (h : Reach (cpuPaths n) Guard s)
    {D : Set (Fin n)} (hD : ∀ c ∈ D, ∃ l, ∃ c' ∈ D, c' ≠ c ∧ WaitsFor s c l c') {c : Fin n} (hc : c ∈ D)
    (hp : .ptable ∈ (s c).held) : ∃ c' x, c' ≠ c ∧ Crossing s c c' .ptable x := by
  obtain ⟨x, c', hc', hne, hw⟩ := hD c hc
  obtain ⟨⟨r, ht⟩, hx⟩ := hw
  -- c waits for an inner lock x, and its holder c' waits for ptable.lock
  have hxi : Inner x := by
    rcases waiting_cases h ⟨⟨r, ht⟩, hx⟩ hp with ⟨-, ho⟩ | ⟨hi, -⟩
    · simp [Outer] at ho
    · exact hi
  obtain ⟨l, d, hd, -, hw'⟩ := hD c' hc'
  rcases waiting_cases h hw' hx with ⟨rfl, -⟩ | ⟨-, rfl⟩
  · obtain ⟨⟨r', ht'⟩, -⟩ := hw'
    exact ⟨c', x, hne, hp, by rw [ht]; simp [wants], hx, by rw [ht']; simp [wants]⟩
  · simp [Inner] at hxi

/-- **Only crossings deadlock.** In a run in which no acquisition completes a crossing, no set of CPUs is ever
deadlocked: for any number of CPUs and any interleaving of the kernel paths, no state reached has a set of CPUs each
spinning for a lock held by another CPU of the set. -/
theorem no_deadlock_of_nonCrossing (n : ℕ) (s : LockState (Fin n) SpinLock)
    (h : Reach (cpuPaths n) NonCrossing s) (D : Set (Fin n)) : ¬ Deadlocked s D := by
  rintro ⟨⟨c, hc⟩, hD⟩
  -- some CPU of the set holds ptable.lock
  have hp : ∃ d ∈ D, .ptable ∈ (s d).held := by
    obtain ⟨l, c', hc', -, hw⟩ := hD c hc
    obtain ⟨l', d, hd, -, hw'⟩ := hD c' hc'
    rcases waiting_cases h hw' hw.2 with ⟨rfl, -⟩ | ⟨-, rfl⟩
    · exact ⟨d, hd, hw'.2⟩
    · exact ⟨c', hc', hw.2⟩
  obtain ⟨d, hd, hdp⟩ := hp
  obtain ⟨c', x, hne, hcross⟩ := crossing_of_ptable h hD hd hdp
  exact noCrossing_reach along_cpuPaths h d c' .ptable x hne hcross

/-! ## The timer trap against the scheduler -/

/-- CPU 0 reaches the timer trap's wakeup with tickslock held, CPU 1 the scheduler's uptime with ptable.lock held -/
theorem timer_dispatch_reach : ∃ s : LockState (Fin 2) SpinLock, Reach (cpuPaths 2) Unguarded s ∧
    s 0 = ⟨[.tickslock], [.acq .ptable, .rel .ptable, .rel .tickslock]⟩ ∧
    s 1 = ⟨[.ptable], [.acq .tickslock, .rel .tickslock, .rel .ptable]⟩ := by
  have h0 : Reach (cpuPaths 2) Unguarded idle := Reach.idle
  have h1 := h0.step (.start 0 (ops .timer) ⟨.timer, fun _ => rfl, rfl⟩ rfl)
  have h2 := h1.step (.acquire 0 .tickslock [.acq .ptable, .rel .ptable, .rel .tickslock] rfl
    (by intro c; fin_cases c <;> decide) trivial)
  have h3 := h2.step (.start 1 (ops .dispatch) ⟨.dispatch, fun h => by simp at h, rfl⟩ rfl)
  have h4 := h3.step (.acquire 1 .ptable [.acq .tickslock, .rel .tickslock, .rel .ptable] rfl
    (by intro c; fin_cases c <;> decide) trivial)
  exact ⟨_, h4, rfl, rfl⟩

/-- **The kernel can deadlock.** The timer trap on CPU 0 holds tickslock and spins for ptable.lock in wakeup; the
scheduler on CPU 1 holds ptable.lock and spins for tickslock in uptime. -/
theorem timer_dispatch_deadlock : ¬ ∀ n ≤ NCPU, ∀ s, Reach (cpuPaths n) Unguarded s → ∀ D : Set (Fin n), ¬ Deadlocked s D := by
  intro h
  obtain ⟨s, hs, h0, h1⟩ := timer_dispatch_reach
  refine h 2 (by decide) s hs Set.univ ⟨⟨0, trivial⟩, fun c _ => ?_⟩
  fin_cases c
  · exact ⟨.ptable, 1, trivial, by decide, ⟨_, congrArg Agent.todo h0⟩, by simp [h1]⟩
  · exact ⟨.tickslock, 0, trivial, by decide, ⟨_, congrArg Agent.todo h1⟩, by simp [h0]⟩

/-- CPU 0 in the timer trap, CPU 1 in releasesleep, both about to call wakeup: no crossing, and no deadlock -/
theorem timer_releasesleep_no_deadlock : ∃ s : LockState (Fin 2) SpinLock, (s 0).held = [.tickslock] ∧ (s 1).held = [.sleeplk 0] ∧
      Reach (cpuPaths 2) NonCrossing s ∧ ∀ D, ¬ Deadlocked s D := by
  have h0 : Reach (cpuPaths 2) NonCrossing idle := Reach.idle
  have h1 := h0.step (.start 0 (ops .timer) ⟨.timer, fun _ => rfl, rfl⟩ rfl)
  have h2 := h1.step (.acquire 0 .tickslock [.acq .ptable, .rel .ptable, .rel .tickslock] rfl
    (by intro c; fin_cases c <;> decide) (by intro c hc; fin_cases c <;> simp [idle] at hc ⊢))
  have h3 := h2.step (.start 1 (ops (.releasesleep 0)) ⟨.releasesleep 0, fun h => by simp at h, rfl⟩ rfl)
  have h4 := h3.step (.acquire 1 (.sleeplk 0) [.acq .ptable, .rel .ptable, .rel (.sleeplk 0)] rfl
    (by intro c; fin_cases c <;> decide)
    (by intro c hc; fin_cases c <;> simp [idle, wants] at hc ⊢))
  exact ⟨_, rfl, rfl, h4, no_deadlock_of_nonCrossing 2 _ h4⟩

end Xv6.SpinLocks
