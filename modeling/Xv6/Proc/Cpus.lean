/-
CPUs, kernel threads and ptable.lock (proc.c): scheduler, sched, yield, sleep, forkret, fork, exit, wait, kill, renice
and userinit, and the wakeup of the interrupt handlers, as steps of any number of CPUs over the process table.

A CPU is in its scheduler loop or in the context of the process it runs. A process that gives up the CPU does so with
ptable.lock held: `sched` switches to the scheduler of the CPU, which clears c->proc and releases the lock, and the lock
taken by `scheduler` is released by the process it switches to, in yield, sleep or forkret. A process stopped in wait
goes on scanning with that same lock. A timer interrupt can call yield wherever a process holds no lock, also in the
middle of fork. The handlers of the timer, the disk and the console call wakeup, with any channel, on any CPU that takes
interrupts: on top of a process that holds no lock, or in the scheduler between its release and its next acquire.

A step is an acquire, a release, a context switch, one critical section body, or one of the unlocked parts of fork and
userinit; what a body does to the table is an event of the table module. Not modelled: the code around these functions
(user code, files, address spaces), the per-process statistics, and interrupt masks (the ncli check of sched).

Results: `reach_inv` (the invariant that ties contexts, lock and table together), `step_table` (every step does nothing
to the table or one event, with its precondition).
-/
import Xv6.Proc.Table
import Xv6.Proc.Rand

namespace Xv6.Ptable

open Lottery (ProcState)

/-! ## Model -/

/-- the critical sections a process enters by acquire(&ptable.lock) -/
inductive Op where
  /-- allocproc, called by fork -/
  | fork
  /-- the end of fork -/
  | publish (np : Slot)
  | sleep (n : ℕ)
  | wakeup (n : ℕ)
  | kill (pid : Word)
  | renice (niceVal pid : Word)
  | exit
  | wait
deriving DecidableEq

/-- points of a process at which it holds no lock -/
inductive Point where
  /-- in user space, or in kernel code outside proc.c -/
  | user
  /-- about to acquire ptable.lock -/
  | want (op : Op)
  /-- fork: a slot was taken, kalloc is next -/
  | fork1 (np : Slot)
  /-- fork: copyuvm is next -/
  | fork2 (np : Slot)
  /-- fork: np->parent = curproc is next -/
  | fork3 (np : Slot)
deriving DecidableEq

/-- where a switched-out process goes on, with ptable.lock held -/
inductive Resume where
  /-- yield and forkret: release the lock and go on at the point -/
  | point (k : Point)
  /-- sleep on another lock: chan = 0, release -/
  | slept
  /-- sleep in wait: chan = 0, next round of the loop -/
  | waited
  /-- exit: panic("zombie exit") -/
  | dead
deriving DecidableEq

/-- the kernel thread of a process -/
inductive Pc where
  | free (k : Point)
  /-- interrupted by the timer at k, in yield before its acquire -/
  | intr (k : Point)
  /-- in the critical section, before its body -/
  | crit (op : Op)
  | critYield (k : Point)
  /-- interrupted at k, in the critical section of a handler's wakeup -/
  | critWake (n : ℕ) (k : Point)
  /-- about to release ptable.lock -/
  | rel (k : Point)
  /-- in sched, before swtch -/
  | sched (r : Resume)
  /-- not running: the saved context -/
  | saved (r : Resume)
  /-- just switched to -/
  | resumed (r : Resume)
deriving DecidableEq

/-- what a CPU executes -/
inductive Ctx where
  /-- userinit on the boot CPU: acquire in allocproc, search, release, kernel stack, initproc, page directory, acquire,
  state = RUNNABLE -/
  | boot0
  | boot1
  | boot2 (np : Slot)
  | boot3 (np : Slot)
  | boot4 (np : Slot)
  | boot5 (np : Slot)
  | boot6 (np : Slot)
  | boot7 (np : Slot)
  /-- scheduler: before its acquire -/
  | idle
  /-- scheduler: the draw -/
  | pick
  /-- scheduler: back from swtch, c->proc = 0 is next -/
  | back
  /-- scheduler: interrupted before its acquire, in the critical section of a handler's wakeup -/
  | wake (n : ℕ)
  /-- scheduler: before its release, or the handler's -/
  | unlock
  /-- the context of a process -/
  | run (i : Slot)
deriving DecidableEq

structure Cpu where
  proc : Option Slot
  ctx : Ctx

inductive Panic where
  | noKstack | noPgdir | schedLock | schedRunning | initExiting | zombieExit
deriving DecidableEq

structure Machine where
  tbl : Table
  pc : Slot → Pc
  cpu : ℕ → Cpu
  lock : Option ℕ
  /-- the static `next` of rand.c -/
  next : Word
  panic : Option Panic

/-- what the scheduler reads of the table -/
def Table.lottery (t : Table) : Lottery.ProcTable where
  proc := List.ofFn fun i => ⟨(t.proc i).state, (t.proc i).niceValue⟩
  size := List.length_ofFn

/-- what a CPU or a process does next -/
inductive Act where
  /-- the scheduler (or userinit) of CPU c takes its next step -/
  | cpu (c : ℕ)
  /-- the process on CPU c begins a call -/
  | call (c : ℕ) (op : Op)
  /-- timer interrupt on CPU c: yield -/
  | timer (c : ℕ)
  /-- interrupt on CPU c: the handler acquires ptable.lock in wakeup -/
  | irq (c n : ℕ)
  /-- the process on CPU c takes its next step; ok says whether memory is found where it asks for some -/
  | run (c : ℕ) (ok : Bool)
  /-- trap: the process on CPU c marks itself as killed -/
  | fault (c : ℕ)
  /-- growproc or exec calls switchuvm(curproc) -/
  | reload (c : ℕ)

/-- allocproc also builds the context that forkret starts from -/
def Ev.contexts (pc : Slot → Pc) : Ev → Slot → Pc
  | .kstackOk np => update pc np (.saved (.point .user))
  | _ => pc

namespace Machine

def setCtx (s : Machine) (c : ℕ) (x : Ctx) : Machine :=
  { s with cpu := update s.cpu c { s.cpu c with ctx := x } }

def setPc (s : Machine) (i : Slot) (p : Pc) : Machine := { s with pc := update s.pc i p }

def emit (s : Machine) (ev : Ev) : Machine := { s with tbl := ev.apply s.tbl, pc := ev.contexts s.pc }

def die (s : Machine) (p : Panic) : Machine := { s with panic := some p }

end Machine

/-- the next step of a process -/
inductive Next where
  | acquire (p : Pc)
  | release (p : Pc)
  | go (p : Pc)
  | emit (ev : Ev) (p : Pc)
  /-- swtch to the scheduler -/
  | switch (r : Resume)
  | panic (p : Panic)
  | stuck

/-- the body of a critical section of process i -/
def body (t : Table) (i : Slot) : Op → Next
  | .fork =>
    match t.findUnused with
    | none => .go (.rel .user)
    | some np => .emit (.alloc np) (.rel (.fork1 np))
  | .publish np => .emit (.publish np) (.rel .user)
  | .sleep n => .emit (.sleep i n) (.sched .slept)
  | .wakeup n => .emit (.wakeup n) (.rel .user)
  | .kill pid => .emit (.kill pid) (.rel .user)
  | .renice v pid => .emit (.renice v pid) (.rel .user)
  | .exit => .emit (.exit i) (.sched .dead)
  | .wait =>
    match t.wait i with
    | .reap p => .emit (.reap i p) (.rel .user)
    | .fail => .go (.rel .user)
    | .sleep => .emit (.waitSleep i) (.sched .waited)

/-- the next step of process i on CPU c -/
def nextOf (s : Machine) (c : ℕ) (i : Slot) (ok : Bool) : Next :=
  match s.pc i with
  | .free .user => .stuck
  | .free (.want op) => .acquire (.crit op)
  | .free (.fork1 np) =>
    if ok then .emit (.kstackOk np) (.free (.fork2 np)) else .emit (.kstackFail np) (.free .user)
  | .free (.fork2 np) =>
    if ok then .emit (.copyOk np) (.free (.fork3 np)) else .emit (.copyFail np) (.free .user)
  | .free (.fork3 np) => .emit (.setParent np i) (.free (.want (.publish np)))
  | .intr k => .acquire (.critYield k)
  | .crit op => body s.tbl i op
  | .critYield k => .emit (.yield i) (.sched (.point k))
  | .critWake n k => .emit (.wakeup n) (.rel k)
  | .rel k => .release (.free k)
  | .sched r =>
    if s.lock ≠ some c then .panic .schedLock
    else if (s.tbl.proc i).state = .RUNNING then .panic .schedRunning
    else .switch r
  | .saved _ => .stuck
  | .resumed (.point k) => .release (.free k)
  | .resumed .slept => .emit (.tidy i) (.rel .user)
  | .resumed .waited => .emit (.tidy i) (.crit .wait)
  | .resumed .dead => .panic .zombieExit

def Machine.perform (s : Machine) (c : ℕ) (i : Slot) : Next → Option Machine
  | .acquire p => if s.lock = none then some { s.setPc i p with lock := some c } else none
  | .release p => some { s.setPc i p with lock := none }
  | .go p => some (s.setPc i p)
  | .emit ev p => some ((s.emit ev).setPc i p)
  | .switch r => some ((s.setPc i (.saved r)).setCtx c .back)
  | .panic p => some (s.die p)
  | .stuck => none

/-- switchuvm(p) panics -/
def switchuvmPanic (p : Proc) : Option Panic :=
  if p.kstack = false then some .noKstack else if p.pgdir = false then some .noPgdir else none

/-- the scheduler switches to process i, which it found RUNNABLE -/
def Machine.dispatch (s : Machine) (c : ℕ) (i : Slot) : Machine :=
  match switchuvmPanic (s.tbl.proc i) with
  | some p => s.die p
  | none =>
    { s.emit (.dispatch i) with
      cpu := update s.cpu c ⟨some i, .run i⟩
      pc := match s.pc i with
        | .saved r => update s.pc i (.resumed r)
        | _ => s.pc }

/-- the next step of the scheduler, or of userinit, on CPU c -/
def stepCpu (s : Machine) (c : ℕ) : Option Machine :=
  match (s.cpu c).ctx with
  | .boot0 => if s.lock = none then some { s.setCtx c .boot1 with lock := some c } else none
  | .boot1 =>
    match s.tbl.findUnused with
    | none => none
    | some np => some ((s.emit (.alloc np)).setCtx c (.boot2 np))
  | .boot2 np => some { s.setCtx c (.boot3 np) with lock := none }
  | .boot3 np => some ((s.emit (.kstackOk np)).setCtx c (.boot4 np))
  | .boot4 np => some ((s.emit (.setInit np)).setCtx c (.boot5 np))
  | .boot5 np => some ((s.emit (.copyOk np)).setCtx c (.boot6 np))
  | .boot6 np => if s.lock = none then some { s.setCtx c (.boot7 np) with lock := some c } else none
  | .boot7 np => some ((s.emit (.initRun np)).setCtx c .unlock)
  | .idle => if s.lock = none then some { s.setCtx c .pick with lock := some c } else none
  | .pick =>
    match (Lottery.lotteryPass s.tbl.lottery s.next).2 with
    | none => some { s.setCtx c .unlock with next := (Lottery.lotteryPass s.tbl.lottery s.next).1 }
    | some n =>
      if h : n < NPROC then
        some ({ s with next := (Lottery.lotteryPass s.tbl.lottery s.next).1 }.dispatch c ⟨n, h⟩)
      else none
  | .back => some { s with cpu := update s.cpu c ⟨none, .unlock⟩ }
  | .wake n => some ((s.emit (.wakeup n)).setCtx c .unlock)
  | .unlock => some { s.setCtx c .idle with lock := none }
  | .run _ => none

/-- where a call begins: exit of init panics, renice returns at once if the value is out of range -/
def entry (t : Table) (i : Slot) : Op → Next
  | .exit => if t.initproc = some i then .panic .initExiting else .go (.free (.want .exit))
  | .renice v pid => if NiceOk v then .go (.free (.want (.renice v pid))) else .go (.free .user)
  | .publish _ => .stuck
  | op => .go (.free (.want op))

/-- a handler on CPU c acquires ptable.lock in wakeup: the CPU takes interrupts in its scheduler before the acquire, and
where the process on it holds no lock -/
def interrupt (s : Machine) (c n : ℕ) : Option Machine :=
  match (s.cpu c).ctx with
  | .idle => if s.lock = none then some { s.setCtx c (.wake n) with lock := some c } else none
  | .run i =>
    match s.pc i with
    | .free k => s.perform c i (.acquire (.critWake n k))
    | _ => none
  | _ => none

def step (s : Machine) (a : Act) : Option Machine :=
  if s.panic.isSome then none
  else
    match a with
    | .cpu c => stepCpu s c
    | .call c op =>
      match (s.cpu c).ctx with
      | .run i => if s.pc i = .free .user then s.perform c i (entry s.tbl i op) else none
      | _ => none
    | .timer c =>
      match (s.cpu c).ctx with
      | .run i =>
        match s.pc i with
        | .free k => some (s.setPc i (.intr k))
        | _ => none
      | _ => none
    | .irq c n => interrupt s c n
    | .run c ok =>
      match (s.cpu c).ctx with
      | .run i => s.perform c i (nextOf s c i ok)
      | _ => none
    | .fault c =>
      match (s.cpu c).ctx with
      | .run i => if s.pc i = .free .user then some ((s.emit (.fault i)).setPc i (.free .user)) else none
      | _ => none
    | .reload c =>
      match (s.cpu c).ctx with
      | .run i =>
        if s.pc i = .free .user then
          match switchuvmPanic (s.tbl.proc i) with
          | some p => some (s.die p)
          | none => some s
        else none
      | _ => none

/-- the machine before userinit: an empty table, CPU 0 boots, all others enter their schedulers -/
def boot : Machine where
  tbl := {
    proc := fun _ => ⟨.UNUSED, 0, none, none, false, false, false, 0⟩
    nextpid := 1
    initproc := none
    gen := fun _ => 0
    named := fun _ => false
    exited := []
    reaped := [] }
  pc := fun _ => .saved .dead
  cpu := fun c => ⟨none, if c = 0 then .boot0 else .idle⟩
  lock := none
  next := 1
  panic := none

/-- the reachable states when every step satisfies the guard -/
inductive Reach (guard : Machine → Act → Prop) : Machine → Prop where
  | boot : Reach guard boot
  | step {s s' a} (h : Reach guard s) (hg : guard s a) (hs : step s a = some s') : Reach guard s'

abbrev Reachable : Machine → Prop := Reach fun _ _ => True

/-! ## The invariant -/

/-- the positions with ptable.lock held -/
def Pc.locked : Pc → Prop
  | .free _ | .intr _ | .saved _ => False
  | _ => True

def Pc.isSaved : Pc → Prop
  | .saved _ => True
  | _ => False

/-- the point at which a process goes on, or the one whose critical section it is in -/
def Pc.point : Pc → Option Point
  | .free k | .intr k | .critYield k | .critWake _ k | .rel k | .sched (.point k) | .saved (.point k) | .resumed (.point k) => some k
  | .crit op => some (.want op)
  | _ => none

/-- the position of a process and its state -/
def Pc.Fits : Pc → ProcState → Prop
  | .free _, st | .intr _, st | .crit _, st | .critYield _, st | .critWake _ _, st | .rel _, st => st = .RUNNING
  | .resumed r, st => st = .RUNNING ∧ r ≠ .dead
  | .sched r, st => st ≠ .RUNNING ∧ (r = .dead → st ≠ .RUNNABLE ∧ st ≠ .SLEEPING) ∧ st ≠ .UNUSED ∧ st ≠ .EMBRYO
  | .saved r, st => st ≠ .RUNNING ∧ (r = .dead → st ≠ .RUNNABLE ∧ st ≠ .SLEEPING)

/-- the child a fork is working on -/
def Point.child : Point → Option Slot
  | .fork1 np | .fork2 np | .fork3 np | .want (.publish np) => some np
  | _ => none

/-- how far a fork of process i has come with its child, and what a critical section was entered for -/
def Point.Ready (t : Table) (pc : Slot → Pc) (i : Slot) : Point → Prop
  | .fork1 np => (t.proc np).state = .EMBRYO
  | .fork2 np => (t.proc np).state = .EMBRYO ∧ (t.proc np).kstack = true ∧ pc np = .saved (.point .user)
  | .fork3 np => (t.proc np).state = .EMBRYO ∧ (t.proc np).kstack = true ∧ pc np = .saved (.point .user) ∧
    (t.proc np).pgdir = true
  | .want (.publish np) => (t.proc np).state = .EMBRYO ∧ (t.proc np).kstack = true ∧ pc np = .saved (.point .user) ∧
    (t.proc np).pgdir = true ∧ (t.proc np).parent = some i
  | .want (.renice v _) => NiceOk v
  | .want .exit => t.initproc ≠ some i
  | _ => True

/-- the contexts of a CPU outside processes with ptable.lock held -/
def Ctx.locked : Ctx → Prop
  | .boot1 | .boot2 _ | .boot7 _ | .pick | .back | .wake _ | .unlock => True
  | _ => False

/-- CPU c holds ptable.lock -/
def Machine.Holds (s : Machine) (c : ℕ) : Prop :=
  match (s.cpu c).ctx with
  | .run i => (s.pc i).locked
  | x => x.locked

/-- how far userinit has come -/
def Ctx.BootOk (t : Table) (pc : Slot → Pc) : Ctx → Prop
  | .boot0 | .boot1 => t.initproc = none
  | .boot2 np | .boot3 np => t.initproc = none ∧ (t.proc np).state = .EMBRYO
  | .boot4 np => t.initproc = none ∧ (t.proc np).state = .EMBRYO ∧ (t.proc np).kstack = true ∧
    pc np = .saved (.point .user)
  | .boot5 np => t.initproc = some np ∧ (t.proc np).state = .EMBRYO ∧ (t.proc np).kstack = true ∧
    pc np = .saved (.point .user)
  | .boot6 np | .boot7 np => t.initproc = some np ∧ (t.proc np).state = .EMBRYO ∧ (t.proc np).kstack = true ∧
    pc np = .saved (.point .user) ∧ (t.proc np).pgdir = true
  | _ => True

/-- the stages of userinit -/
def Ctx.booting : Ctx → Prop
  | .boot0 | .boot1 | .boot2 _ | .boot3 _ | .boot4 _ | .boot5 _ | .boot6 _ | .boot7 _ => True
  | _ => False

/-- which contexts run where, and who holds the lock -/
structure Control (s : Machine) : Prop where
  lock : ∀ c, s.lock = some c ↔ s.Holds c
  run : ∀ c i, (s.cpu c).ctx = .run i → (s.cpu c).proc = some i ∧ ¬ (s.pc i).isSaved
  uniq : ∀ c c' i, (s.cpu c).ctx = .run i → (s.cpu c').ctx = .run i → c = c'
  onCpu : ∀ i, ¬ (s.pc i).isSaved → ∃ c, (s.cpu c).ctx = .run i
  off : ∀ c, (∀ i, (s.cpu c).ctx ≠ .run i) → (s.cpu c).ctx ≠ .back → (s.cpu c).proc = none

/-- threads and table -/
structure Threads (t : Table) (pc : Slot → Pc) : Prop where
  fits : ∀ i, (pc i).Fits (t.proc i).state
  ready : ∀ i k, (pc i).point = some k → k.Ready t pc i
  own : ∀ i j k k' np, (pc i).point = some k → (pc j).point = some k' → k.child = some np → k'.child = some np → i = j

/-- userinit runs on CPU 0, and while it does there is no process -/
structure Booting (s : Machine) : Prop where
  stage : ∀ c, (s.cpu c).ctx.BootOk s.tbl s.pc
  first : ∀ c, (s.cpu c).ctx.booting → c = 0 ∧ ∀ j, (s.pc j).isSaved ∧ ¬ (s.tbl.proc j).Used ∧
    ∀ k, (s.pc j).point = some k → k = .user

/-- the table invariants that hold in every run -/
structure TableInv (t : Table) : Prop where
  family : Family t
  equipped : Equipped t
  history : History t

variable {t : Table} {s' : Machine} {p : Pc} {pc : Slot → Pc}

theorem TableInv.apply (h : TableInv t) {ev : Ev} (hp : ev.Pre t) : TableInv (ev.apply t) :=
  ⟨h.family.apply hp, h.equipped.apply h.family hp, h.history.apply hp⟩

structure Inv (s : Machine) : Prop where
  control : Control s
  threads : Threads s.tbl s.pc
  booting : Booting s
  table : TableInv s.tbl
  /-- of the panics only that of an exiting init can happen -/
  panic : s.panic = none ∨ s.panic = some .initExiting

/-! ## Contexts and lock -/

theorem holds_run {s : Machine} {c : ℕ} {i : Slot} (h : (s.cpu c).ctx = .run i) : s.Holds c ↔ (s.pc i).locked := by
  unfold Machine.Holds
  rw [h]

theorem holds_ctx {s : Machine} {c : ℕ} (h : ∀ i, (s.cpu c).ctx ≠ .run i) : s.Holds c ↔ (s.cpu c).ctx.locked := by
  unfold Machine.Holds
  cases hx : (s.cpu c).ctx with
  | run i => exact absurd hx (h i)
  | _ => exact Iff.rfl

theorem holds_congr {s : Machine} {c : ℕ} (hctx : (s'.cpu c).ctx = (s.cpu c).ctx)
    (hpc : ∀ i, (s.cpu c).ctx = .run i → s'.pc i = s.pc i) : s'.Holds c ↔ s.Holds c := by
  unfold Machine.Holds
  rw [hctx]
  cases h : (s.cpu c).ctx with
  | run i =>
    simp only
    rw [hpc i h]
  | _ => exact Iff.rfl

/-- a CPU changes its context outside processes; running processes stay where they are -/
theorem Control.setCpu {s : Machine} (h : Control s) (c : ℕ) (x : Cpu) (hcpu : s'.cpu = update s.cpu c x)
    (hold : ∀ i, (s.cpu c).ctx ≠ .run i) (hnew : ∀ i, x.ctx ≠ .run i) (hproc : x.ctx ≠ .back → x.proc = none)
    (hsaved : ∀ i, (s.pc i).isSaved → (s'.pc i).isSaved) (hkeep : ∀ i, ¬ (s.pc i).isSaved → s'.pc i = s.pc i)
    (hlock : ∀ c', c' ≠ c → (s'.lock = some c' ↔ s.lock = some c')) (hself : s'.lock = some c ↔ s'.Holds c) : Control s' := by
  have self : s'.cpu c = x := by rw [hcpu, update_self]
  have other : ∀ c', c' ≠ c → s'.cpu c' = s.cpu c' := fun c' hc => by rw [hcpu, update_of_ne hc]
  have back : ∀ c' i, (s'.cpu c').ctx = .run i → c' ≠ c ∧ (s.cpu c').ctx = .run i := by
    intro c' i hr
    have hc : c' ≠ c := by
      rintro rfl
      rw [self] at hr
      exact hnew i hr
    rw [other c' hc] at hr
    exact ⟨hc, hr⟩
  refine ⟨fun c' => ?_, fun c' i hr => ?_, fun c1 c2 i h1 h2 => ?_, fun i hi => ?_, fun c' hn hb => ?_⟩
  · by_cases hc : c' = c
    · subst hc
      exact hself
    · rw [hlock c' hc, h.lock c']
      exact (holds_congr (by rw [other c' hc]) fun i hi => hkeep i (h.run c' i hi).2).symm
  · obtain ⟨hc, hr'⟩ := back c' i hr
    obtain ⟨h1, h2⟩ := h.run c' i hr'
    rw [other c' hc, hkeep i h2]
    exact ⟨h1, h2⟩
  · exact h.uniq c1 c2 i (back c1 i h1).2 (back c2 i h2).2
  · obtain ⟨c', hr⟩ := h.onCpu i fun e => hi (hsaved i e)
    have hc : c' ≠ c := by
      rintro rfl
      exact hold i hr
    exact ⟨c', by rw [other c' hc]; exact hr⟩
  · by_cases hc : c' = c
    · subst hc
      rw [self] at hb ⊢
      exact hproc hb
    · rw [other c' hc] at hn hb ⊢
      exact h.off c' hn hb

theorem Control.setPc {s : Machine} (h : Control s) {c : ℕ} {i : Slot} (hctx : (s.cpu c).ctx = .run i) (hcpu : s'.cpu = s.cpu)
    (hi : ¬ (s'.pc i).isSaved) (hsaved : ∀ j, j ≠ i → (s.pc j).isSaved → (s'.pc j).isSaved)
    (hkeep : ∀ j, j ≠ i → ¬ (s.pc j).isSaved → s'.pc j = s.pc j) (hlock : ∀ c', c' ≠ c → (s'.lock = some c' ↔ s.lock = some c'))
    (hself : s'.lock = some c ↔ (s'.pc i).locked) : Control s' := by
  have hne : ∀ c' j, c' ≠ c → (s.cpu c').ctx = .run j → j ≠ i := by
    rintro c' j hc hj rfl
    exact hc (h.uniq c' c j hj hctx)
  refine ⟨fun c' => ?_, fun c' j hr => ?_, fun c1 c2 j h1 h2 => ?_, fun j hj => ?_, fun c' hn hb => ?_⟩
  · by_cases hc : c' = c
    · subst hc
      rw [hself, holds_run (by rw [hcpu]; exact hctx)]
    · rw [hlock c' hc, h.lock c']
      exact (holds_congr (by rw [hcpu]) fun j hj => hkeep j (hne c' j hc hj) (h.run c' j hj).2).symm
  · rw [hcpu] at hr ⊢
    obtain ⟨h1, h2⟩ := h.run c' j hr
    refine ⟨h1, ?_⟩
    by_cases hji : j = i
    · subst hji
      exact hi
    · rw [hkeep j hji h2]
      exact h2
  · rw [hcpu] at h1 h2
    exact h.uniq c1 c2 j h1 h2
  · rw [hcpu]
    by_cases hji : j = i
    · subst hji
      exact ⟨c, hctx⟩
    · exact h.onCpu j fun e => hj (hsaved j hji e)
  · rw [hcpu] at hn hb ⊢
    exact h.off c' hn hb

/-- swtch from process i to the scheduler of CPU c, which goes on with the lock -/
theorem Control.switch {s : Machine} (h : Control s) {c : ℕ} {i : Slot} (hctx : (s.cpu c).ctx = .run i)
    (hlock : s.lock = some c) (r : Resume) : Control ((s.setPc i (.saved r)).setCtx c .back) := by
  have self : (((s.setPc i (.saved r)).setCtx c .back).cpu c) = ⟨(s.cpu c).proc, .back⟩ := update_self ..
  have other : ∀ c', c' ≠ c → ((s.setPc i (.saved r)).setCtx c .back).cpu c' = s.cpu c' :=
    fun c' hc => update_of_ne hc ..
  have hpci : ((s.setPc i (.saved r)).setCtx c .back).pc i = .saved r := update_self ..
  have hpcj : ∀ j, j ≠ i → ((s.setPc i (.saved r)).setCtx c .back).pc j = s.pc j :=
    fun j hj => update_of_ne hj ..
  have back : ∀ c' j, (((s.setPc i (.saved r)).setCtx c .back).cpu c').ctx = .run j →
      c' ≠ c ∧ (s.cpu c').ctx = .run j ∧ j ≠ i := by
    intro c' j hr
    have hc : c' ≠ c := by
      rintro rfl
      rw [self] at hr
      cases hr
    rw [other c' hc] at hr
    refine ⟨hc, hr, ?_⟩
    rintro rfl
    exact hc (h.uniq c' c j hr hctx)
  have hl : ((s.setPc i (.saved r)).setCtx c .back).lock = some c := hlock
  refine ⟨fun c' => ?_, fun c' j hr => ?_, fun c1 c2 j h1 h2 => ?_, fun j hj => ?_, fun c' hn hb => ?_⟩
  · by_cases hc : c' = c
    · subst hc
      refine ⟨fun _ => ?_, fun _ => hl⟩
      unfold Machine.Holds
      rw [self]
      trivial
    · rw [hl, ← hlock, h.lock c']
      refine (holds_congr (by rw [other c' hc]) fun j hj => hpcj j ?_).symm
      rintro rfl
      exact hc (h.uniq c' c j hj hctx)
  · obtain ⟨hc, hr', hj⟩ := back c' j hr
    rw [other c' hc, hpcj j hj]
    exact h.run c' j hr'
  · exact h.uniq c1 c2 j (back c1 j h1).2.1 (back c2 j h2).2.1
  · have hji : j ≠ i := by
      rintro rfl
      rw [hpci] at hj
      exact hj trivial
    rw [hpcj j hji] at hj
    obtain ⟨c', hr⟩ := h.onCpu j hj
    have hc : c' ≠ c := by
      rintro rfl
      rw [hctx] at hr
      cases hr
      exact hji rfl
    exact ⟨c', by rw [other c' hc]; exact hr⟩
  · by_cases hc : c' = c
    · subst hc
      rw [self] at hb
      exact absurd rfl hb
    · rw [other c' hc] at hn hb ⊢
      exact h.off c' hn hb

/-- the scheduler of CPU c switches to process i, which goes on with the lock -/
theorem Control.enter {s : Machine} (h : Control s) {c : ℕ} {i : Slot} {r : Resume} (hctx : (s.cpu c).ctx = .pick)
    (hpc : s.pc i = .saved r) (hcpu : s'.cpu = update s.cpu c ⟨some i, .run i⟩)
    (hpc' : s'.pc = update s.pc i (.resumed r)) (hlock : s'.lock = s.lock) : Control s' := by
  have self : s'.cpu c = ⟨some i, .run i⟩ := by rw [hcpu, update_self]
  have other : ∀ c', c' ≠ c → s'.cpu c' = s.cpu c' := fun c' hc => by rw [hcpu, update_of_ne hc]
  have hpci : s'.pc i = .resumed r := by rw [hpc', update_self]
  have hpcj : ∀ j, j ≠ i → s'.pc j = s.pc j := fun j hj => by rw [hpc', update_of_ne hj]
  have hfree : ∀ c' j, (s.cpu c').ctx = .run j → j ≠ i := by
    rintro c' j hr rfl
    have := (h.run c' j hr).2
    rw [hpc] at this
    exact this trivial
  have hl : s.lock = some c := (h.lock c).2 (by unfold Machine.Holds; rw [hctx]; trivial)
  have back : ∀ c' j, (s'.cpu c').ctx = .run j → (c' = c ∧ j = i) ∨ (c' ≠ c ∧ (s.cpu c').ctx = .run j) := by
    intro c' j hr
    by_cases hc : c' = c
    · subst hc
      rw [self] at hr
      cases hr
      exact .inl ⟨rfl, rfl⟩
    · rw [other c' hc] at hr
      exact .inr ⟨hc, hr⟩
  refine ⟨fun c' => ?_, fun c' j hr => ?_, fun c1 c2 j h1 h2 => ?_, fun j hj => ?_, fun c' hn hb => ?_⟩
  · rw [hlock]
    by_cases hc : c' = c
    · subst hc
      refine ⟨fun _ => ?_, fun _ => hl⟩
      rw [holds_run (i := i) (by rw [self]), hpci]
      trivial
    · rw [h.lock c']
      exact (holds_congr (by rw [other c' hc]) fun j hj => hpcj j (hfree c' j hj)).symm
  · rcases back c' j hr with ⟨rfl, rfl⟩ | ⟨hc, hr'⟩
    · rw [self, hpci]
      exact ⟨rfl, id⟩
    · rw [other c' hc, hpcj j (hfree c' j hr')]
      exact h.run c' j hr'
  · rcases back c1 j h1 with ⟨rfl, rfl⟩ | ⟨-, hr1⟩
    · rcases back c2 j h2 with ⟨rfl, -⟩ | ⟨-, hr2⟩
      · rfl
      · exact absurd rfl (hfree c2 j hr2)
    · rcases back c2 j h2 with ⟨rfl, rfl⟩ | ⟨-, hr2⟩
      · exact absurd rfl (hfree c1 j hr1)
      · exact h.uniq c1 c2 j hr1 hr2
  · by_cases hji : j = i
    · subst hji
      exact ⟨c, by rw [self]⟩
    · rw [hpcj j hji] at hj
      obtain ⟨c', hr⟩ := h.onCpu j hj
      have hc : c' ≠ c := by
        rintro rfl
        rw [hctx] at hr
        cases hr
      exact ⟨c', by rw [other c' hc]; exact hr⟩
  · by_cases hc : c' = c
    · subst hc
      rw [self] at hn
      exact absurd rfl (hn i)
    · rw [other c' hc] at hn hb ⊢
      exact h.off c' hn hb

/-! ## Threads and table -/

/-- the thread of a slot that holds no process is a saved context, and stays right -/
theorem Pc.Fits.rest {st st' : ProcState} (h : p.Fits st) (hst : st = .UNUSED ∨ st = .EMBRYO)
    (h1 : st' = .UNUSED ∨ st' = .EMBRYO) : p.Fits st' := by
  have hrun : st ≠ .RUNNING := by rcases hst with rfl | rfl <;> nofun
  cases p with
  | sched r => exact (hst.elim h.2.2.1 h.2.2.2).elim
  | saved r => rcases h1 with rfl | rfl <;> exact ⟨nofun, fun _ => ⟨nofun, nofun⟩⟩
  | resumed r => exact absurd h.1 hrun
  | _ => exact absurd h hrun

theorem Untouched.fits {ev : Ev} {q q' : Proc} (h : Untouched ev q q') (hp : p.Fits q.state) : p.Fits q'.state := by
  rcases h.state with e | ⟨hs, hr⟩
  · rw [e]
    exact hp
  · rw [hs] at hp
    rw [hr]
    cases p with
    | sched r => exact ⟨nofun, fun e => absurd rfl (hp.2.1 e).2, nofun, nofun⟩
    | saved r => exact ⟨nofun, fun e => absurd rfl (hp.2 e).2⟩
    | resumed r => cases hp.1
    | _ => cases hp

theorem Untouched.embryo {ev : Ev} {q q' : Proc} (h : Untouched ev q q') (hq : q.state = .EMBRYO) : q'.state = .EMBRYO := by
  rcases h.state with e | ⟨e, -⟩
  · exact e.trans hq
  · rw [hq] at e
    cases e

theorem Untouched.used {ev : Ev} {q q' : Proc} (h : Untouched ev q q') (hu : q'.Used) : q.Used := by
  rcases h.state with e | ⟨e, -⟩
  · unfold Proc.Used Proc.kind at hu ⊢
    rw [e] at hu
    exact hu
  · exact .inl (kind_of e)

theorem Point.Ready.embryo {i np : Slot} {k : Point} (h : k.Ready t pc i)
    (hk : k.child = some np) : (t.proc np).state = .EMBRYO := by
  cases k with
  | fork1 => cases hk; exact h
  | fork2 | fork3 => cases hk; exact h.1
  | want op =>
    cases op with
    | publish => cases hk; exact h.1
    | _ => cases hk
  | _ => cases hk

theorem Point.Ready.frame {t' : Table} {pc' : Slot → Pc} {j : Slot} {k : Point} (h : k.Ready t pc j)
    (hinit : t'.initproc = t.initproc)
    (hchild : ∀ np, k.child = some np → (t'.proc np).state = .EMBRYO ∧ (t'.proc np).kstack = (t.proc np).kstack ∧
      (t'.proc np).pgdir = (t.proc np).pgdir ∧ pc' np = pc np ∧
      ((t.proc np).parent = some j → (t'.proc np).parent = some j)) : k.Ready t' pc' j := by
  cases k with
  | user => trivial
  | fork1 np => exact (hchild np rfl).1
  | fork2 np =>
    obtain ⟨h1, h2, -, h4, -⟩ := hchild np rfl
    exact ⟨h1, h2.trans h.2.1, h4.trans h.2.2⟩
  | fork3 np =>
    obtain ⟨h1, h2, h3, h4, -⟩ := hchild np rfl
    exact ⟨h1, h2.trans h.2.1, h4.trans h.2.2.1, h3.trans h.2.2.2⟩
  | want op =>
    cases op with
    | publish np =>
      obtain ⟨h1, h2, h3, h4, h5⟩ := hchild np rfl
      exact ⟨h1, h2.trans h.2.1, h4.trans h.2.2.1, h3.trans h.2.2.2.1, h5 h.2.2.2.2⟩
    | renice v pid => exact h
    | exit =>
      show t'.initproc ≠ some j
      rw [hinit]
      exact h
    | _ => trivial

theorem Threads.update {t' : Table} {pc' : Slot → Pc} (h : Threads t pc) (i : Slot)
    (hinit : t'.initproc = t.initproc) (hfits : ∀ j, (pc' j).Fits (t'.proc j).state)
    (hother : ∀ j, j ≠ i → (pc' j).point = (pc j).point ∨ (pc' j).point = some .user)
    (hframe : ∀ j k np, j ≠ i → (pc j).point = some k → k.child = some np →
      (t'.proc np).state = .EMBRYO ∧ (t'.proc np).kstack = (t.proc np).kstack ∧
      (t'.proc np).pgdir = (t.proc np).pgdir ∧ pc' np = pc np ∧
      ((t.proc np).parent = some j → (t'.proc np).parent = some j))
    (hready : ∀ k, (pc' i).point = some k → k.Ready t' pc' i)
    (hown : ∀ k np, (pc' i).point = some k → k.child = some np →
      ∀ j k', j ≠ i → (pc j).point = some k' → k'.child ≠ some np) : Threads t' pc' := by
  have hpt : ∀ j k, j ≠ i → (pc' j).point = some k → (pc j).point = some k ∨ k = .user := by
    intro j k hj hk
    rcases hother j hj with e | e
    · exact .inl (e ▸ hk)
    · rw [e] at hk
      cases hk
      exact .inr rfl
  refine ⟨hfits, fun j k hk => ?_, fun j1 j2 k1 k2 np h1 h2 c1 c2 => ?_⟩
  · by_cases hj : j = i
    · subst hj
      exact hready k hk
    · rcases hpt j k hj hk with hk' | rfl
      · exact (h.ready j k hk').frame hinit fun np hc => hframe j k np hj hk' hc
      · trivial
  · have old : ∀ j k, j ≠ i → (pc' j).point = some k → k.child = some np → (pc j).point = some k := by
      intro j k hj hk hc
      rcases hpt j k hj hk with hk' | rfl
      · exact hk'
      · cases hc
    by_cases hj1 : j1 = i
    · by_cases hj2 : j2 = i
      · rw [hj1, hj2]
      · subst hj1
        exact absurd c2 (hown k1 np h1 c1 j2 k2 hj2 (old j2 k2 hj2 h2 c2))
    · by_cases hj2 : j2 = i
      · subst hj2
        exact absurd c1 (hown k2 np h2 c2 j1 k1 hj1 (old j1 k1 hj1 h1 c1))
      · exact h.own j1 j2 k1 k2 np (old j1 k1 hj1 h1 c1) (old j2 k2 hj2 h2 c2) c1 c2

theorem Threads.move (h : Threads t pc) {i : Slot} (hi : (t.proc i).state ≠ .EMBRYO) (hfits : p.Fits (t.proc i).state)
    (hpoint : ∀ k, p.point = some k → (pc i).point = some k ∨ k.child = none ∧ k.Ready t pc i) :
    Threads t (Function.update pc i p) := by
  have self : Function.update pc i p i = p := Function.update_self ..
  have other : ∀ j, j ≠ i → Function.update pc i p j = pc j := fun j hj => Function.update_of_ne hj ..
  have hchild : ∀ j k np, (pc j).point = some k → k.child = some np → np ≠ i := by
    rintro j k np hk hc rfl
    exact hi ((h.ready j k hk).embryo hc)
  have hframe : ∀ j k np, (pc j).point = some k → k.child = some np →
      (t.proc np).state = .EMBRYO ∧ (t.proc np).kstack = (t.proc np).kstack ∧
      (t.proc np).pgdir = (t.proc np).pgdir ∧ Function.update pc i p np = pc np ∧
      ((t.proc np).parent = some j → (t.proc np).parent = some j) := fun j k np hk hc =>
    ⟨(h.ready j k hk).embryo hc, rfl, rfl, other np (hchild j k np hk hc), id⟩
  refine h.update i rfl (fun j => ?_) (fun j hj => .inl (by rw [other j hj])) (fun j k np _ => hframe j k np)
    (fun k hk => ?_) fun k np hk hc j k' hj hk' hc' => ?_
  · by_cases hj : j = i
    · subst hj
      rw [self]
      exact hfits
    · rw [other j hj]
      exact h.fits j
  · rw [self] at hk
    rcases hpoint k hk with hk' | ⟨hn, hr⟩
    · exact (h.ready i k hk').frame rfl fun np hc => hframe i k np hk' hc
    · exact hr.frame rfl fun np hc => by rw [hn] at hc; cases hc
  · rw [self] at hk
    rcases hpoint k hk with hk'' | ⟨hn, -⟩
    · exact hj (h.own j i k' k np hk' hk'' hc' hc)
    · rw [hn] at hc
      cases hc

theorem contexts_of_ne {ev : Ev} {j : Slot} (h : ev ≠ .kstackOk j) : ev.contexts pc j = pc j := by
  cases ev with
  | kstackOk np =>
    have hj : j ≠ np := by
      rintro rfl
      exact h rfl
    exact update_of_ne hj ..
  | _ => rfl

theorem contexts_self (np : Slot) (pc : Slot → Pc) : (Ev.kstackOk np).contexts pc np = .saved (.point .user) :=
  update_self ..

theorem Threads.event (h : Threads t pc) (ev : Ev) {i : Slot}
    (hi : (t.proc i).state ≠ .EMBRYO) (hinit : ∀ np, ev ≠ .setInit np) (hexit : ∀ cur, ev = .exit cur → cur = i)
    (hfits : p.Fits ((ev.apply t).proc i).state)
    (hsub : ∀ j, j ≠ i → ev.Subject j → (ev.contexts pc j).Fits ((ev.apply t).proc j).state ∧
      ∀ j' k, j' ≠ i → (pc j').point = some k → k.child ≠ some j)
    (hready : ∀ k, p.point = some k → k.Ready (ev.apply t) (Function.update (ev.contexts pc) i p) i)
    (hown : ∀ k np, p.point = some k → k.child = some np → ∀ j k', j ≠ i → (pc j).point = some k' → k'.child ≠ some np) :
    Threads (ev.apply t) (Function.update (ev.contexts pc) i p) := by
  have self : Function.update (ev.contexts pc) i p i = p := Function.update_self ..
  have other : ∀ j, j ≠ i → Function.update (ev.contexts pc) i p j = ev.contexts pc j :=
    fun j hj => Function.update_of_ne hj ..
  have hctx : ∀ j, ¬ ev.Subject j → ev.contexts pc j = pc j := by
    intro j hj
    refine contexts_of_ne ?_
    rintro rfl
    exact hj rfl
  refine h.update i (Ev.initproc_eq hinit) (fun j => ?_) (fun j hj => ?_) (fun j k np hj hk hc => ?_) (fun k hk => ?_)
    fun k np hk hc => ?_
  · by_cases hj : j = i
    · subst hj
      rw [self]
      exact hfits
    · rw [other j hj]
      by_cases hs : ev.Subject j
      · exact (hsub j hj hs).1
      · rw [hctx j hs]
        exact (Ev.untouched hs).fits (h.fits j)
  · rw [other j hj]
    by_cases he : ev = .kstackOk j
    · subst he
      rw [contexts_self]
      exact .inr rfl
    · rw [contexts_of_ne he]
      exact .inl rfl
  · -- the child of another process is not a subject of the event, and does not lose its parent by it
    have hemb := (h.ready j k hk).embryo hc
    have hnp : np ≠ i := by
      rintro rfl
      exact hi hemb
    have hns : ¬ ev.Subject np := fun hs => (hsub np hnp hs).2 j k hj hk hc
    have hu := Ev.untouched (t := t) hns
    refine ⟨hu.embryo hemb, hu.kstack, hu.pgdir, by rw [other np hnp, hctx np hns], fun hpar => ?_⟩
    rw [hu.parent, hpar]
    rintro cur rfl he
    rw [hpar] at he
    cases he
    exact hj (hexit j rfl)
  · rw [self] at hk
    exact hready k hk
  · rw [self] at hk
    exact hown k np hk hc

/-- after an event about itself a process still has what its fork has prepared -/
theorem Threads.ready_self (h : Threads t pc) (ev : Ev) {i : Slot} {k : Point}
    (hi : (t.proc i).state ≠ .EMBRYO) (init : ∀ np, ev ≠ .setInit np) (context : ∀ np, ev ≠ .kstackOk np)
    (hsub : ∀ j, ev.Subject j → j = i) (hk : (pc i).point = some k) (hne : ∀ cur, ev ≠ .exit cur) (p : Pc) :
    k.Ready (ev.apply t) (Function.update (ev.contexts pc) i p) i := by
  refine (h.ready i k hk).frame (Ev.initproc_eq init) fun np hc => ?_
  have hemb := (h.ready i k hk).embryo hc
  have hnp : np ≠ i := by
    rintro rfl
    exact hi hemb
  have hu := Ev.untouched (t := t) (fun hs => hnp (hsub np hs))
  refine ⟨hu.embryo hemb, hu.kstack, hu.pgdir, by rw [Function.update_of_ne hnp, contexts_of_ne (context np)], fun hp => ?_⟩
  rw [hu.parent fun cur e => absurd e (hne cur)]
  exact hp

/-! ## Steps of a process -/

theorem Pc.Fits.not_embryo {st : ProcState} (h : p.Fits st) (hp : ¬ p.isSaved) : st ≠ .EMBRYO := by
  cases p with
  | sched r => exact h.2.2.2
  | saved r => exact absurd trivial hp
  | resumed r => rw [h.1]; nofun
  | _ => rw [h]; nofun

theorem Booting.of_not {s : Machine} (h : ∀ c, ¬ (s.cpu c).ctx.booting) : Booting s := by
  refine ⟨fun c => ?_, fun c hc => absurd hc (h c)⟩
  have := h c
  cases hx : (s.cpu c).ctx <;> first | trivial | (rw [hx] at this; exact absurd trivial this)

section Process

variable {s : Machine} {c : ℕ} {i : Slot}

section

variable (h : Inv s) (hctx : (s.cpu c).ctx = .run i)
include h hctx

theorem Inv.not_booting (c' : ℕ) : ¬ (s.cpu c').ctx.booting := by
  intro hb
  exact (h.control.run c i hctx).2 ((h.booting.first c' hb).2 i).1

theorem Inv.not_embryo : (s.tbl.proc i).state ≠ .EMBRYO :=
  (h.threads.fits i).not_embryo (h.control.run c i hctx).2

theorem Inv.lock_iff : s.lock = some c ↔ (s.pc i).locked :=
  (h.control.lock c).trans (holds_run hctx)

end

variable {p : Pc} {ev : Ev}

/-- process i moves on and perhaps takes or releases the lock -/
theorem Inv.move (h : Inv s) (hctx : (s.cpu c).ctx = .run i) (lk : Option ℕ) (hp : ¬ p.isSaved)
    (hfits : p.Fits (s.tbl.proc i).state)
    (hpoint : ∀ k, p.point = some k → (s.pc i).point = some k ∨ k.child = none ∧ k.Ready s.tbl s.pc i)
    (hlock : ∀ c', c' ≠ c → (lk = some c' ↔ s.lock = some c')) (hself : lk = some c ↔ p.locked) :
    Inv { s.setPc i p with lock := lk } := by
  have hpci : ({ s.setPc i p with lock := lk } : Machine).pc i = p := update_self ..
  have hpcj : ∀ j, j ≠ i → ({ s.setPc i p with lock := lk } : Machine).pc j = s.pc j :=
    fun j hj => update_of_ne hj ..
  refine ⟨?_, h.threads.move (h.not_embryo hctx) hfits hpoint, Booting.of_not (h.not_booting hctx), h.table, h.panic⟩
  refine h.control.setPc hctx rfl (by rw [hpci]; exact hp) (fun j hj e => by rw [hpcj j hj]; exact e)
    (fun j hj _ => hpcj j hj) hlock ?_
  rw [hpci]
  exact hself

/-- what an event of process i and its next position have to satisfy -/
structure EmitOk (s : Machine) (i : Slot) (ev : Ev) (p : Pc) : Prop where
  pre : ev.Pre s.tbl
  init : ∀ np, ev ≠ .setInit np
  exit : ∀ cur, ev = .exit cur → cur = i
  context : ∀ np, ev = .kstackOk np → (s.pc np).isSaved
  unsaved : ¬ p.isSaved
  locked : p.locked ↔ (s.pc i).locked
  fits : p.Fits ((ev.apply s.tbl).proc i).state
  sub : ∀ j, j ≠ i → ev.Subject j → (ev.contexts s.pc j).Fits ((ev.apply s.tbl).proc j).state ∧
    ∀ j' k, j' ≠ i → (s.pc j').point = some k → k.child ≠ some j
  ready : ∀ k, p.point = some k → k.Ready (ev.apply s.tbl) (update (ev.contexts s.pc) i p) i
  own : ∀ k np, p.point = some k → k.child = some np →
    ∀ j k', j ≠ i → (s.pc j).point = some k' → k'.child ≠ some np

section

variable (h : Inv s) (hctx : (s.cpu c).ctx = .run i)
include h hctx

theorem Inv.emit (he : EmitOk s i ev p) : Inv ((s.emit ev).setPc i p) := by
  have hpci : ((s.emit ev).setPc i p).pc i = p := update_self ..
  have hpcj : ∀ j, j ≠ i → ((s.emit ev).setPc i p).pc j = ev.contexts s.pc j := fun j hj => update_of_ne hj ..
  have hsaved : ∀ j, (s.pc j).isSaved → (ev.contexts s.pc j).isSaved := by
    intro j hj
    by_cases hk : ev = .kstackOk j
    · subst hk
      rw [contexts_self]
      trivial
    · rw [contexts_of_ne hk]
      exact hj
  have hkeep : ∀ j, ¬ (s.pc j).isSaved → ev.contexts s.pc j = s.pc j := fun j hj =>
    contexts_of_ne fun hk => hj (he.context j hk)
  refine ⟨?_, h.threads.event ev (h.not_embryo hctx) he.init he.exit he.fits he.sub he.ready he.own,
    Booting.of_not (h.not_booting hctx), h.table.apply he.pre, h.panic⟩
  refine h.control.setPc hctx rfl (by rw [hpci]; exact he.unsaved) (fun j hj e => by rw [hpcj j hj]; exact hsaved j e)
    (fun j hj e => by rw [hpcj j hj]; exact hkeep j e) (fun _ _ => Iff.rfl) ?_
  rw [hpci, he.locked]
  exact h.lock_iff hctx

/-- an event about the process itself, or about nobody's slot in particular -/
theorem EmitOk.self (pre : ev.Pre s.tbl)
    (init : ∀ np, ev ≠ .setInit np) (exit : ∀ cur, ev = .exit cur → cur = i) (context : ∀ np, ev ≠ .kstackOk np)
    (hsub : ∀ j, ev.Subject j → j = i) (unsaved : ¬ p.isSaved) (locked : p.locked ↔ (s.pc i).locked)
    (fits : p.Fits ((ev.apply s.tbl).proc i).state)
    (hpoint : ∀ k, p.point = some k → (s.pc i).point = some k ∧ (∀ cur, ev ≠ .exit cur) ∨
      k.child = none ∧ ∀ t pc, k.Ready t pc i) : EmitOk s i ev p := by
  refine ⟨pre, init, exit, fun np e => absurd e (context np), unsaved, locked, fits,
    fun j hj hs => absurd (hsub j hs) hj, fun k hk => ?_, fun k np hk hc j k' hj hk' hc' => ?_⟩
  · rcases hpoint k hk with ⟨hk', hne⟩ | ⟨-, hr⟩
    · exact h.threads.ready_self ev (h.not_embryo hctx) init context hsub hk' hne p
    · exact hr _ _
  · rcases hpoint k hk with ⟨hk'', -⟩ | ⟨hn, -⟩
    · exact hj (h.threads.own j i k' k np hk' hk'' hc' hc)
    · rw [hn] at hc
      cases hc

theorem EmitOk.child {k0 : Point} {np : Slot} (hk0 : (s.pc i).point = some k0) (hchild : k0.child = some np) (pre : ev.Pre s.tbl)
    (init : ∀ q, ev ≠ .setInit q) (exit : ∀ cur, ev ≠ .exit cur) (context : ∀ q, ev = .kstackOk q → (s.pc q).isSaved)
    (hsub : ∀ j, ev.Subject j → j = np) (unsaved : ¬ p.isSaved) (locked : p.locked ↔ (s.pc i).locked)
    (fits : p.Fits (s.tbl.proc i).state) (childFits : (ev.contexts s.pc np).Fits ((ev.apply s.tbl).proc np).state)
    (ready : ∀ k, p.point = some k → k.Ready (ev.apply s.tbl) (update (ev.contexts s.pc) i p) i)
    (own : ∀ k q, p.point = some k → k.child = some q → q = np) : EmitOk s i ev p := by
  have hnp : np ≠ i := by
    rintro rfl
    exact h.not_embryo hctx ((h.threads.ready np k0 hk0).embryo hchild)
  have honly : ∀ j k, j ≠ i → (s.pc j).point = some k → k.child ≠ some np := fun j k hj hk hc =>
    hj (h.threads.own j i k k0 np hk hk0 hc hchild)
  have hself := Ev.untouched (t := s.tbl) (fun hs => hnp (hsub i hs).symm)
  refine ⟨pre, init, fun cur e => absurd e (exit cur), context, unsaved, locked, hself.fits fits, fun j hj hs => ?_,
    ready, fun k q hk hc => ?_⟩
  · rw [hsub j hs]
    exact ⟨childFits, honly⟩
  · rw [own k q hk hc]
    exact honly

end

theorem Pc.Fits.saved_of_embryo (h : p.Fits .EMBRYO) : p.isSaved := by
  cases p with
  | sched r => exact absurd rfl h.2.2.2
  | saved r => trivial
  | resumed r => cases h.1
  | _ => cases h

theorem kstackOk_self (t : Table) (np : Slot) :
    ((Ev.kstackOk np).apply t).proc np = { t.proc np with kstack := true, niceValue := BitVec.ofNat 32 DEFAULT_NICE_VALUE } :=
  modify_self t np fun p => { p with kstack := true, niceValue := BitVec.ofNat 32 DEFAULT_NICE_VALUE }

section

variable (h : Inv s) (hctx : (s.cpu c).ctx = .run i)
include h hctx

theorem fork_emit {k0 : Point} (hpc : s.pc i = .free k0) {ok : Bool} (hn : nextOf s c i ok = .emit ev p) : EmitOk s i ev p := by
  have hk0 : (s.pc i).point = some k0 := by rw [hpc]; rfl
  have hrun : (s.tbl.proc i).state = .RUNNING := by
    have := h.threads.fits i
    rw [hpc] at this
    exact this
  have hlocked : ∀ k, (Pc.free k).locked ↔ (s.pc i).locked := fun k => by rw [hpc]; exact Iff.rfl
  have hready := h.threads.ready i k0 hk0
  have hnp : ∀ np, k0.child = some np → np ≠ i := by
    rintro np hc rfl
    exact h.not_embryo hctx (hready.embryo hc)
  unfold nextOf at hn
  rw [hpc] at hn
  cases k0 with
  | user | want op => cases hn
  | fork1 np =>
    have hemb : (s.tbl.proc np).state = .EMBRYO := hready
    have hfit := h.threads.fits np
    rw [hemb] at hfit
    cases ok with
    | true =>
      cases hn
      have hnew := kstackOk_self s.tbl np
      refine EmitOk.child h hctx hk0 rfl hemb nofun nofun (fun q e => ?_) (fun j hj => hj) id (hlocked _) hrun ?_
        (fun k hk => ?_) fun k q hk hc => ?_
      · cases e
        exact hfit.saved_of_embryo
      · rw [contexts_self, hnew]
        exact ⟨by rw [hemb]; nofun, nofun⟩
      · cases hk
        refine ⟨by rw [hnew]; exact hemb, by rw [hnew], ?_⟩
        rw [update_of_ne (hnp np rfl), contexts_self]
      · cases hk
        cases hc
        rfl
    | false =>
      cases hn
      have hnew : ((Ev.kstackFail np).apply s.tbl).proc np = { s.tbl.proc np with kstack := false, state := .UNUSED } :=
        modify_self s.tbl np fun p => { p with kstack := false, state := .UNUSED }
      refine EmitOk.child h hctx hk0 rfl hemb nofun nofun nofun (fun j hj => hj) id (hlocked _) hrun ?_ (fun k hk => ?_)
        fun k q hk hc => ?_
      · rw [hnew]
        exact hfit.rest (.inr rfl) (.inl rfl)
      · cases hk
        trivial
      · cases hk
        cases hc
  | fork2 np =>
    obtain ⟨hemb, hks, hpcn⟩ := hready
    have hfit := h.threads.fits np
    rw [hemb] at hfit
    cases ok with
    | true =>
      cases hn
      have hnew : ((Ev.copyOk np).apply s.tbl).proc np = { s.tbl.proc np with pgdir := true } :=
        modify_self s.tbl np fun p => { p with pgdir := true }
      refine EmitOk.child h hctx hk0 rfl hemb nofun nofun nofun (fun j hj => hj) id (hlocked _) hrun ?_ (fun k hk => ?_)
        fun k q hk hc => ?_
      · rw [hnew]
        exact hfit.rest (.inr rfl) (.inr hemb)
      · cases hk
        refine ⟨by rw [hnew]; exact hemb, by rw [hnew]; exact hks, ?_, by rw [hnew]⟩
        rw [update_of_ne (hnp np rfl)]
        exact hpcn
      · cases hk
        cases hc
        rfl
    | false =>
      cases hn
      have hnew : ((Ev.copyFail np).apply s.tbl).proc np =
          { s.tbl.proc np with pgdir := false, kstack := false, state := .UNUSED } :=
        modify_self s.tbl np fun p => { p with pgdir := false, kstack := false, state := .UNUSED }
      refine EmitOk.child h hctx hk0 rfl hemb nofun nofun nofun (fun j hj => hj) id (hlocked _) hrun ?_ (fun k hk => ?_)
        fun k q hk hc => ?_
      · rw [hnew]
        exact hfit.rest (.inr rfl) (.inl rfl)
      · cases hk
        trivial
      · cases hk
        cases hc
  | fork3 np =>
    cases hn
    obtain ⟨hemb, hks, hpcn, hpg⟩ := hready
    have hfit := h.threads.fits np
    rw [hemb] at hfit
    have hnew : ((Ev.setParent np i).apply s.tbl).proc np = { s.tbl.proc np with parent := some i } :=
      modify_self s.tbl np fun p => { p with parent := some i }
    refine EmitOk.child h hctx hk0 rfl ⟨hemb, hrun⟩ nofun nofun nofun (fun j hj => hj) id (hlocked _) hrun ?_
      (fun k hk => ?_) fun k q hk hc => ?_
    · rw [hnew]
      exact hfit.rest (.inr rfl) (.inr hemb)
    · cases hk
      refine ⟨by rw [hnew]; exact hemb, by rw [hnew]; exact hks, ?_, by rw [hnew]; exact hpg, by rw [hnew]⟩
      rw [update_of_ne (hnp np rfl)]
      exact hpcn
    · cases hk
      cases hc
      rfl

theorem body_emit {op : Op} (hpc : s.pc i = .crit op) (hn : body s.tbl i op = .emit ev p) : EmitOk s i ev p := by
  have hk0 : (s.pc i).point = some (.want op) := by rw [hpc]; rfl
  have hrun : (s.tbl.proc i).state = .RUNNING := by
    have := h.threads.fits i
    rw [hpc] at this
    exact this
  have hready := h.threads.ready i _ hk0
  have hrel : ∀ k, (Pc.rel k).locked ↔ (s.pc i).locked := fun k => by rw [hpc]; exact Iff.rfl
  have hsched : ∀ r, (Pc.sched r).locked ↔ (s.pc i).locked := fun r => by rw [hpc]; exact Iff.rfl
  have huser : ∀ k, (Pc.rel .user).point = some k → (s.pc i).point = some k ∧ (∀ cur, ev ≠ .exit cur) ∨
      k.child = none ∧ ∀ t pc, k.Ready t pc i := by
    intro k hk
    cases hk
    exact .inr ⟨rfl, fun _ _ => trivial⟩
  -- an event that does not concern the slot of the process leaves it RUNNING
  have hstay : ∀ ev : Ev, ¬ ev.Subject i → ((ev.apply s.tbl).proc i).state = .RUNNING := by
    intro ev hs
    rcases (Ev.untouched (t := s.tbl) hs).state with e | ⟨e, -⟩
    · exact e.trans hrun
    · rw [hrun] at e
      cases e
  cases op with
  | fork =>
    unfold body at hn
    dsimp only at hn
    split at hn
    · cases hn
    · rename_i np hf
      cases hn
      have hun := findUnused_state hf
      have hnp : np ≠ i := by
        rintro rfl
        rw [hrun] at hun
        cases hun
      have hfree : ∀ j k, (s.pc j).point = some k → k.child ≠ some np := by
        intro j k hk hc
        have := (h.threads.ready j k hk).embryo hc
        rw [hun] at this
        cases this
      have hnew := found_self s.tbl np
      refine ⟨hf, nofun, nofun, nofun, id, hrel _, hstay _ fun e => hnp e.symm, fun j hj hs => ?_, fun k hk => ?_,
        fun k q hk hc j k' _ hk' => ?_⟩
      · cases hs
        refine ⟨?_, fun j' k _ hk => hfree j' k hk⟩
        have hfit := h.threads.fits np
        rw [hun] at hfit
        show (s.pc np).Fits ((s.tbl.found np).proc np).state
        rw [hnew]
        exact hfit.rest (.inl rfl) (.inr rfl)
      · cases hk
        show ((s.tbl.found np).proc np).state = .EMBRYO
        rw [hnew]
      · cases hk
        cases hc
        exact hfree j k' hk'
  | publish np =>
    cases hn
    obtain ⟨hemb, hks, hpcn, hpg, hpar⟩ := hready
    have hnew : (((Ev.publish np).apply s.tbl).proc np).state = .RUNNABLE := by
      show ((s.tbl.publish np).proc np).state = _
      unfold Table.publish
      rw [modify_self]
    refine EmitOk.child h hctx hk0 rfl ⟨hemb, hks, hpg, i, hpar⟩ nofun nofun nofun (fun j hj => hj) id (hrel _) hrun ?_
      (fun k hk => ?_) fun k q hk hc => ?_
    · show (s.pc np).Fits _
      rw [hnew, hpcn]
      exact ⟨nofun, nofun⟩
    · cases hk
      trivial
    · cases hk
      cases hc
  | sleep n =>
    cases hn
    have hnew : (((Ev.sleep i n).apply s.tbl).proc i).state = .SLEEPING :=
      congrArg Proc.state (modify_self s.tbl i fun p => { p with chan := some (.other n), state := .SLEEPING })
    refine EmitOk.self h hctx hrun nofun nofun nofun (fun j hj => hj) id (hsched _) ?_ nofun
    rw [hnew]
    exact ⟨nofun, nofun, nofun, nofun⟩
  | wakeup n | kill pid =>
    cases hn
    exact EmitOk.self h hctx trivial nofun nofun nofun nofun id (hrel _) (hstay _ id) huser
  | renice v pid =>
    cases hn
    exact EmitOk.self h hctx hready nofun nofun nofun nofun id (hrel _) (hstay _ id) huser
  | exit =>
    cases hn
    have hnew : (((Ev.exit i).apply s.tbl).proc i).state = .ZOMBIE := by
      obtain ⟨q, -, he⟩ := (exited_exit s.tbl i).self
      unfold Ev.apply
      dsimp only
      rw [he]
    refine EmitOk.self h hctx ⟨hrun, hready⟩ nofun (fun cur e => by cases e; rfl) nofun (fun j hj => hj) id (hsched _) ?_
      nofun
    rw [hnew]
    exact ⟨nofun, fun _ => ⟨nofun, nofun⟩, nofun, nofun⟩
  | wait =>
    unfold body at hn
    dsimp only at hn
    split at hn
    · rename_i q hw
      cases hn
      obtain ⟨hpar, hz⟩ := wait_reap hw
      have hq : q ≠ i := by
        rintro rfl
        rw [hrun] at hz
        cases hz
      have hfree : ∀ j k, (s.pc j).point = some k → k.child ≠ some q := by
        intro j k hk hc
        have := (h.threads.ready j k hk).embryo hc
        rw [hz] at this
        cases this
      have hnew : (((Ev.reap i q).apply s.tbl).proc q).state = .UNUSED :=
        congrArg Proc.state (modify_self s.tbl q fun p => { p with
          kstack := false, pid := 0, parent := none, killed := false, state := .UNUSED })
      -- a ZOMBIE still on its way out would hold the lock, which this process holds
      have hsav : ∃ r, s.pc q = .saved r := by
        have hfit := h.threads.fits q
        rw [hz] at hfit
        cases hpq : s.pc q with
        | saved r => exact ⟨r, rfl⟩
        | sched r =>
          obtain ⟨c', hc'⟩ := h.control.onCpu q (by rw [hpq]; exact id)
          have h1 : s.lock = some c' := (h.lock_iff hc').2 (by rw [hpq]; trivial)
          have h2 : s.lock = some c := (h.lock_iff hctx).2 (by rw [hpc]; trivial)
          rw [h1] at h2
          cases h2
          rw [hctx] at hc'
          cases hc'
          exact absurd rfl hq
        | resumed r => rw [hpq] at hfit; cases hfit.1
        | _ => rw [hpq] at hfit; cases hfit
      refine ⟨⟨hrun, hw⟩, nofun, nofun, nofun, id, hrel _, hstay _ fun e => hq e.symm, fun j hj hs => ?_, fun k hk => ?_,
        fun k np hk hc => ?_⟩
      · cases hs
        refine ⟨?_, fun j' k _ hk => hfree j' k hk⟩
        obtain ⟨r, hr⟩ := hsav
        show (s.pc q).Fits _
        rw [hnew, hr]
        exact ⟨nofun, fun _ => ⟨nofun, nofun⟩⟩
      · cases hk
        trivial
      · cases hk
        cases hc
    · cases hn
    · rename_i hw
      cases hn
      have hnew : (((Ev.waitSleep i).apply s.tbl).proc i).state = .SLEEPING :=
        congrArg Proc.state (modify_self s.tbl i fun p => { p with chan := some (.proc i), state := .SLEEPING })
      refine EmitOk.self h hctx ⟨hrun, hw⟩ nofun nofun nofun (fun j hj => hj) id (hsched _) ?_ nofun
      rw [hnew]
      exact ⟨nofun, nofun, nofun, nofun⟩

theorem nextOf_emit {ok : Bool} (hn : nextOf s c i ok = .emit ev p) : EmitOk s i ev p := by
  have hfit := h.threads.fits i
  cases hpc : s.pc i with
  | free k => exact fork_emit h hctx hpc hn
  | intr k | rel k | saved r => unfold nextOf at hn; rw [hpc] at hn; cases hn
  | crit op =>
    unfold nextOf at hn
    rw [hpc] at hn
    exact body_emit h hctx hpc hn
  | critYield k =>
    unfold nextOf at hn
    rw [hpc] at hn hfit
    cases hn
    have hnew : (((Ev.yield i).apply s.tbl).proc i).state = .RUNNABLE :=
      congrArg Proc.state (modify_self s.tbl i fun p => { p with state := .RUNNABLE })
    refine EmitOk.self h hctx hfit nofun nofun nofun (fun j hj => hj) id (by rw [hpc]; exact Iff.rfl) ?_ fun k' hk => ?_
    · rw [hnew]
      exact ⟨nofun, nofun, nofun, nofun⟩
    · rw [hpc]
      exact .inl ⟨hk, nofun⟩
  | critWake n k =>
    unfold nextOf at hn
    rw [hpc] at hn hfit
    cases hn
    refine EmitOk.self h hctx trivial nofun nofun nofun nofun id (by rw [hpc]; exact Iff.rfl)
      ((Ev.untouched (t := s.tbl) (show ¬ (Ev.wakeup n).Subject i from id)).fits hfit) fun k' hk => ?_
    rw [hpc]
    exact .inl ⟨hk, nofun⟩
  | sched r =>
    unfold nextOf at hn
    rw [hpc] at hn
    dsimp only at hn
    split_ifs at hn
  | resumed r =>
    unfold nextOf at hn
    rw [hpc] at hn hfit
    have hrun : (s.tbl.proc i).state = .RUNNING := hfit.1
    have htidy : (((Ev.tidy i).apply s.tbl).proc i).state = .RUNNING := by
      rcases (Ev.untouched (t := s.tbl) (show ¬ (Ev.tidy i).Subject i from id)).state with e | ⟨e, -⟩
      · exact e.trans hrun
      · rw [hrun] at e
        cases e
    cases r with
    | point k | dead => cases hn
    | slept | waited =>
      cases hn
      refine EmitOk.self h hctx hrun nofun nofun nofun nofun id (by rw [hpc]; exact Iff.rfl) htidy fun k hk => ?_
      cases hk
      exact .inr ⟨rfl, fun _ _ => trivial⟩

end

/-- the body of a critical section is an event, or nothing (fork without a free slot, wait that gives up) -/
theorem body_cases (t : Table) (i : Slot) (op : Op) : (∃ ev p, body t i op = .emit ev p) ∨ body t i op = .go (.rel .user) := by
  cases op with
  | fork =>
    unfold body
    dsimp only
    cases t.findUnused with
    | none => exact .inr rfl
    | some np => exact .inl ⟨_, _, rfl⟩
  | wait =>
    unfold body
    dsimp only
    cases t.wait i with
    | reap p | sleep => exact .inl ⟨_, _, rfl⟩
    | fail => exact .inr rfl
  | _ => exact .inl ⟨_, _, rfl⟩

theorem Inv.switch (h : Inv s) (hctx : (s.cpu c).ctx = .run i) {r : Resume} (hpc : s.pc i = .sched r) :
    Inv ((s.setPc i (.saved r)).setCtx c .back) := by
  have hfit := h.threads.fits i
  rw [hpc] at hfit
  have hlock : s.lock = some c := (h.lock_iff hctx).2 (by rw [hpc]; trivial)
  have hthreads : Threads s.tbl (update s.pc i (.saved r)) := by
    refine h.threads.move (h.not_embryo hctx) ⟨hfit.1, hfit.2.1⟩ fun k hk => .inl ?_
    rw [hpc]
    cases r with
    | point k' => exact hk
    | _ => cases hk
  refine ⟨h.control.switch hctx hlock r, hthreads, Booting.of_not fun c' => ?_, h.table, h.panic⟩
  by_cases hc : c' = c
  · subst hc
    show ¬ (update s.cpu c' _ c').ctx.booting
    rw [update_self]
    exact id
  · show ¬ (update s.cpu c _ c').ctx.booting
    rw [update_of_ne hc]
    exact h.not_booting hctx c'

/-- a step of a process keeps the invariant; in particular it does not panic -/
theorem Inv.perform (h : Inv s) (hctx : (s.cpu c).ctx = .run i) {ok : Bool} {s' : Machine}
    (hs : s.perform c i (nextOf s c i ok) = some s') : Inv s' := by
  have hfit := h.threads.fits i
  have hlk := h.lock_iff hctx
  -- taking the free lock
  have acquire : ∀ p, s.perform c i (.acquire p) = some s' → ¬ (s.pc i).locked → ¬ p.isSaved → p.locked →
      p.Fits (s.tbl.proc i).state →
      (∀ k, p.point = some k → (s.pc i).point = some k ∨ k.child = none ∧ k.Ready s.tbl s.pc i) → Inv s' := by
    intro p hp _ h1 h2 h3 h4
    unfold Machine.perform at hp
    dsimp only at hp
    split_ifs at hp with hl
    cases hp
    refine h.move hctx (some c) h1 h3 h4 (fun c' hc => ?_) ⟨fun _ => h2, fun _ => rfl⟩
    rw [hl]
    exact ⟨fun e => absurd (Option.some.inj e).symm hc, nofun⟩
  -- releasing the lock
  have release : ∀ k, s.perform c i (.release (.free k)) = some s' → (s.pc i).locked →
      (s.tbl.proc i).state = .RUNNING → (s.pc i).point = some k → Inv s' := by
    intro k hp h1 h2 h3
    cases hp
    refine h.move hctx none id h2 (fun k' hk => .inl (by rw [h3]; exact hk)) (fun c' hc => ?_) ⟨nofun, fun e => e.elim⟩
    rw [hlk.2 h1]
    exact ⟨nofun, fun e => absurd (Option.some.inj e).symm hc⟩
  have event : ∀ {ev p}, nextOf s c i ok = .emit ev p → Inv s' := by
    intro ev p hn
    rw [hn] at hs
    cases hs
    exact h.emit hctx (nextOf_emit h hctx hn)
  cases hpc : s.pc i with
  | free k =>
    rw [hpc] at hfit
    cases k with
    | user =>
      rw [show nextOf s c i ok = .stuck by unfold nextOf; rw [hpc]] at hs
      cases hs
    | want op =>
      rw [show nextOf s c i ok = .acquire (.crit op) by unfold nextOf; rw [hpc]] at hs
      refine acquire _ hs (by rw [hpc]; exact id) id trivial hfit fun k hk => .inl ?_
      rw [hpc]
      exact hk
    | fork1 np =>
      cases ok with
      | true => exact event (show _ = Next.emit (.kstackOk np) (.free (.fork2 np)) by unfold nextOf; rw [hpc]; rfl)
      | false => exact event (show _ = Next.emit (.kstackFail np) (.free .user) by unfold nextOf; rw [hpc]; rfl)
    | fork2 np =>
      cases ok with
      | true => exact event (show _ = Next.emit (.copyOk np) (.free (.fork3 np)) by unfold nextOf; rw [hpc]; rfl)
      | false => exact event (show _ = Next.emit (.copyFail np) (.free .user) by unfold nextOf; rw [hpc]; rfl)
    | fork3 np =>
      exact event (show _ = Next.emit (.setParent np i) (.free (.want (.publish np))) by unfold nextOf; rw [hpc])
  | intr k =>
    rw [hpc] at hfit
    rw [show nextOf s c i ok = .acquire (.critYield k) by unfold nextOf; rw [hpc]] at hs
    refine acquire _ hs (by rw [hpc]; exact id) id trivial hfit fun k hk => .inl ?_
    rw [hpc]
    exact hk
  | crit op =>
    rw [hpc] at hfit
    have hn : nextOf s c i ok = body s.tbl i op := by unfold nextOf; rw [hpc]
    rcases body_cases s.tbl i op with ⟨ev, p, e⟩ | e
    · exact event (hn.trans e)
    · rw [hn, e] at hs
      cases hs
      refine h.move hctx s.lock id hfit (fun k hk => .inr ?_) (fun _ _ => Iff.rfl) ?_
      · cases hk
        exact ⟨rfl, trivial⟩
      · rw [hlk, hpc]
        exact Iff.rfl
  | critYield k => exact event (show _ = Next.emit (.yield i) (.sched (.point k)) by unfold nextOf; rw [hpc])
  | critWake n k => exact event (show _ = Next.emit (.wakeup n) (.rel k) by unfold nextOf; rw [hpc])
  | rel k =>
    rw [hpc] at hfit
    rw [show nextOf s c i ok = .release (.free k) by unfold nextOf; rw [hpc]] at hs
    exact release k hs (by rw [hpc]; trivial) hfit (by rw [hpc]; rfl)
  | sched r =>
    -- the checks of sched: the lock is held, and the state has been changed
    rw [hpc] at hfit
    have hl : s.lock = some c := hlk.2 (by rw [hpc]; trivial)
    have hn : nextOf s c i ok = .switch r := by
      unfold nextOf
      rw [hpc]
      dsimp only
      rw [if_neg (not_not.2 hl), if_neg hfit.1]
    rw [hn] at hs
    cases hs
    exact h.switch hctx hpc
  | saved r =>
    rw [show nextOf s c i ok = .stuck by unfold nextOf; rw [hpc]] at hs
    cases hs
  | resumed r =>
    rw [hpc] at hfit
    cases r with
    | point k =>
      rw [show nextOf s c i ok = .release (.free k) by unfold nextOf; rw [hpc]] at hs
      exact release k hs (by rw [hpc]; trivial) hfit.1 (by rw [hpc]; rfl)
    | slept => exact event (show _ = Next.emit (.tidy i) (.rel .user) by unfold nextOf; rw [hpc])
    | waited => exact event (show _ = Next.emit (.tidy i) (.crit .wait) by unfold nextOf; rw [hpc])
    | dead => exact absurd rfl hfit.2

end Process

/-! ## Steps of a scheduler -/

theorem Inv.congr {s : Machine} (h : Inv s) (htbl : s'.tbl = s.tbl) (hpc : s'.pc = s.pc) (hcpu : s'.cpu = s.cpu)
    (hlock : s'.lock = s.lock) (hpanic : s'.panic = s.panic) : Inv s' := by
  obtain ⟨tbl, pc, cpu, lock, next, panic⟩ := s
  obtain ⟨tbl', pc', cpu', lock', next', panic'⟩ := s'
  cases htbl
  cases hpc
  cases hcpu
  cases hlock
  cases hpanic
  exact ⟨⟨h.control.lock, h.control.run, h.control.uniq, h.control.onCpu, h.control.off⟩, h.threads,
    ⟨h.booting.stage, h.booting.first⟩, h.table, h.panic⟩

section Scheduler

variable {s : Machine} {c : ℕ}

theorem Inv.held (h : Inv s) {y : Ctx} (hctx : (s.cpu c).ctx = y) (hn : ∀ i, y ≠ .run i) (hy : y.locked) :
    s.lock = some c := by
  subst hctx
  exact (h.control.lock c).2 ((holds_ctx hn).2 hy)

/-- a CPU outside processes goes on, and perhaps takes or releases the lock -/
theorem Inv.turn (h : Inv s) (x : Cpu) (lk : Option ℕ) {y : Ctx} (hctx : (s.cpu c).ctx = y) (hold : ∀ i, y ≠ .run i)
    (hnew : ∀ i, x.ctx ≠ .run i) (hproc : x.ctx ≠ .back → x.proc = none) (hstage : x.ctx.BootOk s.tbl s.pc)
    (hboot : x.ctx.booting → y.booting) (hlock : ∀ c', c' ≠ c → (lk = some c' ↔ s.lock = some c'))
    (hself : lk = some c ↔ x.ctx.locked) : Inv { s with cpu := update s.cpu c x, lock := lk } := by
  subst hctx
  have self : update s.cpu c x c = x := update_self ..
  have other : ∀ c', c' ≠ c → update s.cpu c x c' = s.cpu c' := fun c' hc => update_of_ne hc ..
  refine ⟨h.control.setCpu c x rfl hold hnew hproc (fun _ => id) (fun _ _ => rfl) hlock ?_, h.threads,
    ⟨fun c' => ?_, fun c' hb => ?_⟩, h.table, h.panic⟩
  · rw [holds_ctx (fun i => by show (update s.cpu c x c).ctx ≠ _; rw [self]; exact hnew i)]
    show lk = some c ↔ (update s.cpu c x c).ctx.locked
    rw [self]
    exact hself
  · show (update s.cpu c x c').ctx.BootOk s.tbl s.pc
    by_cases hc : c' = c
    · subst hc
      rw [self]
      exact hstage
    · rw [other c' hc]
      exact h.booting.stage c'
  · have hb' : (update s.cpu c x c').ctx.booting := hb
    by_cases hc : c' = c
    · subst hc
      rw [self] at hb'
      exact h.booting.first c' (hboot hb')
    · rw [other c' hc] at hb'
      exact h.booting.first c' hb'

/-- no process runs or waits to run: all contexts are saved ones of empty slots -/
theorem Threads.quiet {t : Table} {pc : Slot → Pc} (hpc : ∀ j, (pc j).isSaved ∧ ∀ k, (pc j).point = some k → k = .user)
    (hfits : ∀ j, (pc j).Fits (t.proc j).state) : Threads t pc := by
  refine ⟨hfits, fun i k hk => ?_, fun i j k k' np hk _ hc => ?_⟩
  · rw [(hpc i).2 k hk]
    trivial
  · rw [(hpc i).2 k hk] at hc
    cases hc

theorem Inv.bootEvent (h : Inv s) {y : Ctx} (hctx : (s.cpu c).ctx = y) (hb : y.booting) (np : Slot) {ev : Ev} {x : Ctx}
    (pre : ev.Pre s.tbl)
    (hsub : ∀ j, ev.Subject j → j = np) (hnp : (ev.contexts s.pc np).Fits ((ev.apply s.tbl).proc np).state) (hx : ∀ i, x ≠ .run i)
    (hstage : x.BootOk (ev.apply s.tbl) (ev.contexts s.pc)) (hused : x.booting → ¬ ((ev.apply s.tbl).proc np).Used)
    (hlock : x.locked ↔ y.locked) : Inv ((s.emit ev).setCtx c x) := by
  subst hctx
  obtain ⟨hc0, hquiet⟩ := h.booting.first c hb
  have hold : ∀ i, (s.cpu c).ctx ≠ .run i := by
    intro i e
    rw [e] at hb
    exact hb
  have hnb : (s.cpu c).ctx ≠ .back := by
    intro e
    rw [e] at hb
    exact hb
  have self : ((s.emit ev).setCtx c x).cpu c = ⟨(s.cpu c).proc, x⟩ := update_self ..
  have other : ∀ c', c' ≠ c → ((s.emit ev).setCtx c x).cpu c' = s.cpu c' := fun c' hc => update_of_ne hc ..
  have hpcs : ∀ j, (ev.contexts s.pc j).isSaved ∧ ∀ k, (ev.contexts s.pc j).point = some k → k = .user := by
    intro j
    by_cases he : ev = .kstackOk j
    · subst he
      rw [contexts_self]
      exact ⟨trivial, fun k hk => by cases hk; rfl⟩
    · rw [contexts_of_ne he]
      exact ⟨(hquiet j).1, (hquiet j).2.2⟩
  have hfits : ∀ j, (ev.contexts s.pc j).Fits ((ev.apply s.tbl).proc j).state := by
    intro j
    by_cases hs : ev.Subject j
    · rw [hsub j hs]
      exact hnp
    · rw [contexts_of_ne fun e => hs (by subst e; rfl)]
      exact (Ev.untouched hs).fits (h.threads.fits j)
  refine ⟨?_, Threads.quiet hpcs hfits, ⟨fun c' => ?_, fun c' hb' => ?_⟩, h.table.apply pre, h.panic⟩
  · refine h.control.setCpu c ⟨(s.cpu c).proc, x⟩ rfl hold hx (fun _ => h.control.off c hold hnb)
      (fun i _ => (hpcs i).1) (fun i hi => absurd (hquiet i).1 hi) (fun _ _ => Iff.rfl) ?_
    rw [holds_ctx (fun i => by rw [self]; exact hx i), self]
    show s.lock = some c ↔ x.locked
    rw [h.control.lock c, holds_ctx hold]
    exact hlock.symm
  · by_cases hc : c' = c
    · subst hc
      rw [self]
      exact hstage
    · -- the others are not in userinit
      rw [other c' hc]
      have hnot : ¬ (s.cpu c').ctx.booting := fun hb' => hc ((h.booting.first c' hb').1.trans hc0.symm)
      cases hx' : (s.cpu c').ctx <;> first | trivial | (rw [hx'] at hnot; exact absurd trivial hnot)
  · have hc : c' = c := by
      by_contra hc
      rw [other c' hc] at hb'
      exact hc ((h.booting.first c' hb').1.trans hc0.symm)
    subst hc
    rw [self] at hb'
    refine ⟨hc0, fun j => ⟨(hpcs j).1, ?_, (hpcs j).2⟩⟩
    by_cases hs : ev.Subject j
    · rw [hsub j hs]
      exact hused hb'
    · exact fun hus => (hquiet j).2.1 ((Ev.untouched (t := s.tbl) hs).used hus)

/-- a wakeup moves no thread, and no slot that is being set up -/
theorem Threads.wakeup {t : Table} {pc : Slot → Pc} (h : Threads t pc) (n : ℕ) : Threads ((Ev.wakeup n).apply t) pc := by
  refine ⟨fun i => (Ev.untouched (show ¬ (Ev.wakeup n).Subject i from id)).fits (h.fits i), fun i k hk => ?_, h.own⟩
  refine (h.ready i k hk).frame rfl fun np hc => ?_
  have hu := Ev.untouched (t := t) (show ¬ (Ev.wakeup n).Subject np from id)
  refine ⟨hu.embryo ((h.ready i k hk).embryo hc), hu.kstack, hu.pgdir, rfl, fun hp => ?_⟩
  rw [hu.parent nofun]
  exact hp

theorem Ctx.BootOk.wakeup {t : Table} {pc : Slot → Pc} {x : Ctx} (h : x.BootOk t pc) (n : ℕ) :
    x.BootOk ((Ev.wakeup n).apply t) pc := by
  have hu := fun np => Ev.untouched (t := t) (show ¬ (Ev.wakeup n).Subject np from id)
  cases x with
  | boot2 np | boot3 np => exact ⟨h.1, (hu np).embryo h.2⟩
  | boot4 np | boot5 np =>
    obtain ⟨h1, h2, h3, h4⟩ := h
    exact ⟨h1, (hu np).embryo h2, (hu np).kstack.trans h3, h4⟩
  | boot6 np | boot7 np =>
    obtain ⟨h1, h2, h3, h4, h5⟩ := h
    exact ⟨h1, (hu np).embryo h2, (hu np).kstack.trans h3, h4, (hu np).pgdir.trans h5⟩
  | _ => exact h

/-- the body of a handler's wakeup on a CPU outside processes -/
theorem Inv.wake (h : Inv s) {n : ℕ} (hctx : (s.cpu c).ctx = .wake n) : Inv ((s.emit (.wakeup n)).setCtx c .unlock) := by
  have hwoken : Inv (s.emit (.wakeup n)) := by
    refine ⟨⟨h.control.lock, h.control.run, h.control.uniq, h.control.onCpu, h.control.off⟩, h.threads.wakeup n,
      ⟨fun c' => (h.booting.stage c').wakeup n, fun c' hb => ?_⟩, h.table.apply (show (Ev.wakeup n).Pre s.tbl from trivial), h.panic⟩
    obtain ⟨hc, hquiet⟩ := h.booting.first c' hb
    refine ⟨hc, fun j => ⟨(hquiet j).1, fun hus => (hquiet j).2.1 ?_, (hquiet j).2.2⟩⟩
    exact (Ev.untouched (t := s.tbl) (show ¬ (Ev.wakeup n).Subject j from id)).used hus
  have hoff := h.control.off c
  rw [hctx] at hoff
  exact hwoken.turn ⟨(s.cpu c).proc, .unlock⟩ s.lock hctx nofun nofun (fun _ => hoff nofun nofun) trivial (fun e => e.elim)
    (fun _ _ => Iff.rfl) ⟨fun _ => trivial, fun _ => h.held hctx nofun trivial⟩

theorem lotteryPass_runnable {t : Table} {next : Word} {n : ℕ} (h : (Lottery.lotteryPass t.lottery next).2 = some n) :
    ∃ hn : n < NPROC, (t.proc ⟨n, hn⟩).state = .RUNNABLE := by
  unfold Lottery.lotteryPass at h
  split_ifs at h with hpos
  · obtain ⟨-, p, hp, hr⟩ := Lottery.scanLoop_some h
    obtain ⟨hlt, he⟩ := List.getElem?_eq_some_iff.1 hp
    have hn : n < NPROC := by simpa [Table.lottery] using hlt
    refine ⟨hn, ?_⟩
    simp only [Table.lottery, Nat.sub_zero, List.getElem_ofFn] at he
    rw [← he] at hr
    exact hr

/-- a process found RUNNABLE by the scheduler is switched out: on its way out it would hold the lock -/
theorem Inv.runnable_saved (h : Inv s) (hctx : (s.cpu c).ctx = .pick) {i : Slot}
    (hr : (s.tbl.proc i).state = .RUNNABLE) : ∃ r, s.pc i = .saved r ∧ r ≠ .dead := by
  have hfit := h.threads.fits i
  rw [hr] at hfit
  have hl := h.held hctx nofun trivial
  cases hpc : s.pc i with
  | saved r =>
    rw [hpc] at hfit
    exact ⟨r, rfl, fun e => (hfit.2 e).1 rfl⟩
  | sched r =>
    obtain ⟨c', hc'⟩ := h.control.onCpu i (by rw [hpc]; exact id)
    have hl' : s.lock = some c' := (h.lock_iff hc').2 (by rw [hpc]; trivial)
    rw [hl] at hl'
    cases hl'
    rw [hctx] at hc'
    cases hc'
  | resumed r => rw [hpc] at hfit; cases hfit.1
  | _ => rw [hpc] at hfit; cases hfit

theorem switchuvmPanic_none {p : Proc} (h : SlotEquipped p) (hu : p.Used) : switchuvmPanic p = none := by
  obtain ⟨h1, h2⟩ := h.backed hu
  unfold switchuvmPanic
  rw [h1, h2]
  rfl

/-- what the dispatch of a RUNNABLE process does: switchuvm does not panic -/
theorem Inv.dispatch_eq (h : Inv s) {i : Slot} (hr : (s.tbl.proc i).state = .RUNNABLE)
    {r : Resume} (hpc : s.pc i = .saved r) : s.dispatch c i = { s.emit (.dispatch i) with
      cpu := update s.cpu c ⟨some i, .run i⟩, pc := update s.pc i (.resumed r) } := by
  have hu : (s.tbl.proc i).Used := .inl (kind_of hr)
  unfold Machine.dispatch
  rw [switchuvmPanic_none (h.table.equipped i) hu]
  dsimp only
  rw [hpc]

theorem Inv.dispatch (h : Inv s) (hctx : (s.cpu c).ctx = .pick) {i : Slot} (hr : (s.tbl.proc i).state = .RUNNABLE) :
    Inv (s.dispatch c i) := by
  obtain ⟨r, hpc, hdead⟩ := h.runnable_saved hctx hr
  rw [h.dispatch_eq hr hpc]
  have hne : (s.tbl.proc i).state ≠ .EMBRYO := by rw [hr]; nofun
  have hnew : (((Ev.dispatch i).apply s.tbl).proc i).state = .RUNNING :=
    congrArg Proc.state (modify_self s.tbl i fun p => { p with state := .RUNNING })
  have hpt : ∀ k, (Pc.resumed r).point = some k → (s.pc i).point = some k := by
    intro k hk
    rw [hpc]
    cases r with
    | point k' => exact hk
    | _ => cases hk
  have hthreads : Threads ((Ev.dispatch i).apply s.tbl) (update s.pc i (.resumed r)) := by
    refine h.threads.event (.dispatch i) hne nofun nofun (by rw [hnew]; exact ⟨rfl, hdead⟩)
      (fun j hj hs => absurd hs hj) (fun k hk => ?_) fun k np hk hc j k' hj hk' hc' => ?_
    · exact h.threads.ready_self (.dispatch i) hne nofun nofun (fun j hj => hj) (hpt k hk) nofun _
    · exact hj (h.threads.own j i k' k np hk' (hpt k hk) hc' hc)
  have hnb : ∀ c', ¬ (s.cpu c').ctx.booting := fun c' hb => ((h.booting.first c' hb).2 i).2.1 (.inl (kind_of hr))
  have htable : TableInv ((Ev.dispatch i).apply s.tbl) := h.table.apply (show (Ev.dispatch i).Pre s.tbl from hr)
  refine ⟨h.control.enter hctx hpc rfl rfl rfl, hthreads, Booting.of_not fun c' => ?_, htable, h.panic⟩
  show ¬ (update s.cpu c _ c').ctx.booting
  by_cases hc : c' = c
  · subst hc
    rw [update_self]
    exact id
  · rw [update_of_ne hc]
    exact hnb c'

/-- a step of a scheduler, or of userinit, keeps the invariant -/
theorem Inv.stepCpu (h : Inv s) {s' : Machine} (hs : stepCpu s c = some s') : Inv s' := by
  have hstage := h.booting.stage c
  have hoff := h.control.off c
  -- taking the free lock, or giving it up
  have take : s.lock = none → ∀ c', c' ≠ c → (some c = some c' ↔ s.lock = some c') := by
    intro hl c' hc
    rw [hl]
    exact ⟨fun e => absurd (Option.some.inj e).symm hc, nofun⟩
  have give : s.lock = some c → ∀ c', c' ≠ c → ((none : Option ℕ) = some c' ↔ s.lock = some c') := by
    intro hl c' hc
    rw [hl]
    exact ⟨nofun, fun e => absurd (Option.some.inj e).symm hc⟩
  have hfree : ∀ np, (s.tbl.proc np).state = .EMBRYO → (s.pc np).Fits .EMBRYO := by
    intro np he
    have := h.threads.fits np
    rwa [he] at this
  unfold Ptable.stepCpu at hs
  cases hctx : (s.cpu c).ctx with
  | boot0 | boot6 np =>
    rw [hctx] at hs hstage hoff
    dsimp only at hs
    split_ifs at hs with hl
    cases hs
    exact h.turn _ (some c) hctx nofun nofun (fun _ => hoff nofun nofun) hstage
      (fun _ => trivial) (take hl) ⟨fun _ => trivial, fun _ => rfl⟩
  | boot1 =>
    rw [hctx] at hs hstage
    dsimp only at hs
    split at hs
    · cases hs
    · rename_i np hf
      cases hs
      have hun := findUnused_state hf
      have hnew := found_self s.tbl np
      have hfit := h.threads.fits np
      rw [hun] at hfit
      refine h.bootEvent hctx trivial np hf (fun j hj => hj) ?_ nofun ⟨hstage, ?_⟩ (fun _ => ?_)
        Iff.rfl
      · show (s.pc np).Fits ((s.tbl.found np).proc np).state
        rw [hnew]
        exact hfit.rest (.inl rfl) (.inr rfl)
      · show ((s.tbl.found np).proc np).state = .EMBRYO
        rw [hnew]
      · show ¬ ((s.tbl.found np).proc np).Used
        rw [hnew]
        exact not_used_embryo rfl
  | boot2 np =>
    rw [hctx] at hs hstage hoff
    cases hs
    have hl := h.held hctx nofun trivial
    exact h.turn _ none hctx nofun nofun (fun _ => hoff nofun nofun) hstage
      (fun _ => trivial) (give hl) ⟨nofun, fun e => e.elim⟩
  | boot3 np =>
    rw [hctx] at hs hstage
    cases hs
    obtain ⟨hin, he⟩ := hstage
    have hnew := kstackOk_self s.tbl np
    refine h.bootEvent hctx trivial np he (fun j hj => hj) ?_ nofun
      ⟨hin, by rw [hnew]; exact he, by rw [hnew], contexts_self np s.pc⟩ (fun _ => ?_) Iff.rfl
    · rw [contexts_self, hnew]
      exact ⟨by rw [he]; nofun, nofun⟩
    · rw [hnew]
      exact not_used_embryo he
  | boot4 np =>
    rw [hctx] at hs hstage
    cases hs
    obtain ⟨hin, he, hk, hp⟩ := hstage
    exact h.bootEvent hctx trivial np ⟨he, hin⟩ nofun
      (by show (s.pc np).Fits (s.tbl.proc np).state; rw [he]; exact hfree np he) nofun ⟨rfl, he, hk, hp⟩
      (fun _ => not_used_embryo he) Iff.rfl
  | boot5 np =>
    rw [hctx] at hs hstage
    cases hs
    obtain ⟨hin, he, hk, hp⟩ := hstage
    have hnew : ((Ev.copyOk np).apply s.tbl).proc np = { s.tbl.proc np with pgdir := true } :=
      modify_self s.tbl np fun p => { p with pgdir := true }
    refine h.bootEvent hctx trivial np he (fun j hj => hj) ?_ nofun
      ⟨hin, by rw [hnew]; exact he, by rw [hnew]; exact hk, hp, by rw [hnew]⟩ (fun _ => ?_)
      Iff.rfl
    · rw [hnew]
      show (s.pc np).Fits (s.tbl.proc np).state
      rw [he]
      exact hfree np he
    · rw [hnew]
      exact not_used_embryo he
  | boot7 np =>
    rw [hctx] at hs hstage
    cases hs
    obtain ⟨hin, he, hk, hp, hpg⟩ := hstage
    have hnew : (((Ev.initRun np).apply s.tbl).proc np).state = .RUNNABLE :=
      congrArg Proc.state (modify_self s.tbl np fun p => { p with state := .RUNNABLE })
    refine h.bootEvent hctx trivial np ⟨he, hin, hk, hpg⟩ (fun j hj => hj) ?_ nofun trivial
      (fun e => e.elim) Iff.rfl
    show (s.pc np).Fits _
    rw [hnew, hp]
    exact ⟨nofun, nofun⟩
  | idle =>
    rw [hctx] at hs hoff
    dsimp only at hs
    split_ifs at hs with hl
    cases hs
    exact h.turn _ (some c) hctx nofun nofun (fun _ => hoff nofun nofun) trivial
      (fun e => e.elim) (take hl) ⟨fun _ => trivial, fun _ => rfl⟩
  | pick =>
    rw [hctx] at hs hoff
    have hl := h.held hctx nofun trivial
    cases hn : (Lottery.lotteryPass s.tbl.lottery s.next).2 with
    | none =>
      rw [hn] at hs
      cases hs
      have hturn := h.turn (c := c) ⟨(s.cpu c).proc, .unlock⟩ s.lock hctx nofun nofun
        (fun _ => hoff nofun nofun) trivial (fun e => e.elim) (fun _ _ => Iff.rfl) ⟨fun _ => trivial, fun _ => hl⟩
      exact hturn.congr rfl rfl rfl rfl rfl
    | some n =>
      rw [hn] at hs
      dsimp only at hs
      obtain ⟨hlt, hr⟩ := lotteryPass_runnable hn
      rw [dif_pos hlt] at hs
      cases hs
      have hnext : Inv { s with next := (Lottery.lotteryPass s.tbl.lottery s.next).1 } := h.congr rfl rfl rfl rfl rfl
      exact hnext.dispatch hctx hr
  | back =>
    rw [hctx] at hs
    cases hs
    have hl := h.held hctx nofun trivial
    exact h.turn ⟨none, .unlock⟩ s.lock hctx nofun nofun (fun _ => rfl) trivial (fun e => e.elim)
      (fun _ _ => Iff.rfl) ⟨fun _ => trivial, fun _ => hl⟩
  | wake n =>
    rw [hctx] at hs
    cases hs
    exact h.wake hctx
  | unlock =>
    rw [hctx] at hs hoff
    cases hs
    have hl := h.held hctx nofun trivial
    exact h.turn _ none hctx nofun nofun (fun _ => hoff nofun nofun) trivial (fun e => e.elim) (give hl)
      ⟨nofun, fun e => e.elim⟩
  | run i =>
    rw [hctx] at hs
    cases hs

end Scheduler

/-! ## All runs -/

theorem boot_inv : Inv boot := by
  have hunused : ∀ j, (boot.tbl.proc j).state = .UNUSED := fun _ => rfl
  refine ⟨⟨fun c => ?_, fun c i hr => ?_, fun c c' i hr => ?_, fun i hi => absurd trivial hi, fun _ _ _ => rfl⟩,
    Threads.quiet (fun j => ⟨trivial, nofun⟩) fun j => ⟨nofun, fun _ => ⟨nofun, nofun⟩⟩, ⟨fun c => ?_, fun c hb => ?_⟩,
    ⟨⟨nofun, nofun, nofun, fun j hu => absurd hu (not_used_unused (hunused j)),
      fun j hu => absurd hu (not_used_unused (hunused j)), nofun⟩,
      fun j => ⟨nofun, fun hu => absurd hu (not_used_unused (hunused j))⟩, ⟨nofun, nofun, nofun, List.nodup_nil⟩⟩, .inl rfl⟩
  · by_cases hc : c = 0
    · subst hc
      exact ⟨nofun, fun e => e.elim⟩
    · rw [holds_ctx (by simp [boot, hc])]
      simp [boot, hc, Ctx.locked]
  · by_cases hc : c = 0 <;> simp [boot, hc] at hr
  · by_cases hc : c = 0 <;> simp [boot, hc] at hr
  · by_cases hc : c = 0 <;> simp [boot, hc, Ctx.BootOk]
  · refine ⟨?_, fun j => ⟨trivial, not_used_unused rfl, nofun⟩⟩
    by_contra hc
    simp [boot, hc, Ctx.booting] at hb

theorem Inv.interrupt {s : Machine} (h : Inv s) {c n : ℕ} (hs : interrupt s c n = some s') : Inv s' := by
  have take : s.lock = none → ∀ c', c' ≠ c → (some c = some c' ↔ s.lock = some c') := by
    intro hl c' hc
    rw [hl]
    exact ⟨fun e => absurd (Option.some.inj e).symm hc, nofun⟩
  unfold Ptable.interrupt at hs
  split at hs
  · rename_i hctx
    split_ifs at hs with hl
    cases hs
    have hoff := h.control.off c
    rw [hctx] at hoff
    exact h.turn _ (some c) hctx nofun nofun (fun _ => hoff nofun nofun) trivial (fun e => e.elim) (take hl)
      ⟨fun _ => trivial, fun _ => rfl⟩
  · rename_i i hctx
    split at hs
    · rename_i k hpc
      unfold Machine.perform at hs
      dsimp only at hs
      split_ifs at hs with hl
      cases hs
      have hfit := h.threads.fits i
      rw [hpc] at hfit
      exact h.move hctx (some c) id hfit (fun k' hk' => .inl (by rw [hpc]; exact hk')) (take hl)
        ⟨fun _ => trivial, fun _ => rfl⟩
    · cases hs
  · cases hs

/-- **Step.** Every step keeps the invariant. -/
theorem step_inv {s : Machine} {a : Act} (h : Inv s) (hs : step s a = some s') : Inv s' := by
  unfold step at hs
  split_ifs at hs with hp
  cases a with
  | cpu c => exact h.stepCpu hs
  | call c op =>
    dsimp only at hs
    split at hs
    · rename_i i hctx
      split_ifs at hs with hpc
      have hfit := h.threads.fits i
      rw [hpc] at hfit
      have go : ∀ k : Point, k.child = none → k.Ready s.tbl s.pc i → s' = s.setPc i (.free k) → Inv s' := by
        intro k hk hr e
        subst e
        refine h.move hctx s.lock id hfit (fun k' hk' => ?_) (fun _ _ => Iff.rfl) ?_
        · cases hk'
          exact .inr ⟨hk, hr⟩
        · rw [h.lock_iff hctx, hpc]
          exact Iff.rfl
      cases op with
      | exit =>
        unfold entry at hs
        dsimp only at hs
        split_ifs at hs with hi
        · cases hs
          exact ⟨⟨h.control.lock, h.control.run, h.control.uniq, h.control.onCpu, h.control.off⟩, h.threads,
            ⟨h.booting.stage, h.booting.first⟩, h.table, .inr rfl⟩
        · cases hs
          exact go (.want .exit) rfl hi rfl
      | renice v pid =>
        unfold entry at hs
        dsimp only at hs
        split_ifs at hs with hv
        · cases hs
          exact go (.want (.renice v pid)) rfl hv rfl
        · cases hs
          exact go .user rfl trivial rfl
      | publish np => cases hs
      | fork => cases hs; exact go (.want .fork) rfl trivial rfl
      | sleep n => cases hs; exact go (.want (.sleep n)) rfl trivial rfl
      | wakeup n => cases hs; exact go (.want (.wakeup n)) rfl trivial rfl
      | kill pid => cases hs; exact go (.want (.kill pid)) rfl trivial rfl
      | wait => cases hs; exact go (.want .wait) rfl trivial rfl
    · cases hs
  | timer c =>
    dsimp only at hs
    split at hs
    · rename_i i hctx
      split at hs
      · rename_i k hpc
        cases hs
        have hfit := h.threads.fits i
        rw [hpc] at hfit
        refine h.move hctx s.lock id hfit (fun k' hk' => .inl (by rw [hpc]; exact hk')) (fun _ _ => Iff.rfl) ?_
        rw [h.lock_iff hctx, hpc]
        exact Iff.rfl
      · cases hs
    · cases hs
  | irq c n => exact h.interrupt hs
  | run c ok =>
    dsimp only at hs
    split at hs
    · rename_i i hctx
      exact h.perform hctx hs
    · cases hs
  | fault c =>
    dsimp only at hs
    split at hs
    · rename_i i hctx
      split_ifs at hs with hpc
      cases hs
      have hfit := h.threads.fits i
      rw [hpc] at hfit
      have hrun : (s.tbl.proc i).state = .RUNNING := hfit
      refine h.emit hctx (EmitOk.self h hctx hrun nofun nofun nofun nofun id (by rw [hpc]) ?_ fun k hk => ?_)
      · exact (Ev.untouched (t := s.tbl) (show ¬ (Ev.fault i).Subject i from id)).fits hfit
      · cases hk
        exact .inr ⟨rfl, fun _ _ => trivial⟩
    · cases hs
  | reload c =>
    dsimp only at hs
    split at hs
    · rename_i i hctx
      split_ifs at hs with hpc
      have hfit := h.threads.fits i
      rw [hpc] at hfit
      rw [switchuvmPanic_none (h.table.equipped i) (.inl (kind_of hfit))] at hs
      cases hs
      exact h
    · cases hs

/-- **Run.** The invariant holds in every reachable state. -/
theorem reach_inv {guard : Machine → Act → Prop} {s : Machine} (h : Reach guard s) : Inv s := by
  induction h with
  | boot => exact boot_inv
  | step _ _ hs ih => exact step_inv ih hs

end Xv6.Ptable
