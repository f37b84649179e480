/-
What holds of processes in every run of the machine of CPUs, kernel threads and ptable.lock.

- `runs_on_one_cpu`: when the lock is free, a slot is RUNNING exactly if one CPU has it as c->proc, and no two CPUs have
  the same one; switchuvm and the state check of sched do not panic.
- `exit_wait_protocol`: every process has a live parent, nobody sleeps in wait over a ZOMBIE child, each occupant of a
  slot is reaped at most once, after its exit and by its parent, and wait fails only without children or when killed.
- `parents_lead_to_init`: the processes form a tree with init as its root.
- `held_by_one`: one context holds ptable.lock, across swtch too, and one fork a slot that is being set up.
- `scheduler_keeps_busy`: nice values lie in range, so the ticket sum does not overflow and is positive exactly if
  something is RUNNABLE, and then a pass of the scheduler dispatches a process.
- `kill_finds_unused_slot`: kill(0) takes an UNUSED slot for a process, and the next child in it starts killed.
- `kill_reaches_live`: as long as kill never finds an UNUSED slot, and no failed fork gives back a killed slot, kill
  reaches live processes only and children start unkilled unless a kill named their pid.
-/
import Xv6.Proc.Cpus

namespace Xv6.Ptable

open List
open Lottery (ProcState)

/-! ## Runs on concrete inputs -/

def run (guard : Machine → Act → Prop) [∀ s a, Decidable (guard s a)] (s : Machine) : List Act → Option Machine
  | [] => some s
  | a :: as =>
    if guard s a then
      match step s a with
      | none => none
      | some s' => run guard s' as
    else none

variable {s s' : Machine} {i : Slot} {ev : Ev} {t : Table}

theorem reach_run {guard : Machine → Act → Prop} [∀ s a, Decidable (guard s a)] (h : Reach guard s)
    {as : List Act} (hr : run guard s as = some s') : Reach guard s' := by
  induction as generalizing s with
  | nil =>
    cases hr
    exact h
  | cons a as ih =>
    unfold run at hr
    split_ifs at hr with hg
    cases hs : step s a with
    | none => rw [hs] at hr; cases hr
    | some u =>
      rw [hs] at hr
      exact ih (h.step hg hs) hr

theorem exists_run (guard : Machine → Act → Prop) [∀ s a, Decidable (guard s a)] (as : List Act) {P : Machine → Prop}
    [DecidablePred P] (h : (run guard boot as).any (fun s => decide (P s)) = true) : ∃ s, Reach guard s ∧ P s := by
  obtain ⟨s, hs, hp⟩ := (Option.any_eq_true _ _).1 h
  exact ⟨s, reach_run .boot hs, of_decide_eq_true hp⟩

/-- userinit, and CPU 0 dispatches init -/
def bootActs : List Act := List.replicate 11 (.cpu 0) ++ [.run 0 true]

/-- init calls fork and comes to the point where the child is published -/
def forkActs : List Act := .call 0 .fork :: List.replicate 7 (.run 0 true)

/-! ## One CPU for each process -/

/-- with the lock free, c->proc is the process in whose context the CPU is -/
theorem Inv.proc_run (h : Inv s) (hl : s.lock = none) {c : ℕ} (hp : (s.cpu c).proc = some i) : (s.cpu c).ctx = .run i := by
  by_cases hr : ∃ j, (s.cpu c).ctx = .run j
  · obtain ⟨j, hj⟩ := hr
    have := (h.control.run c j hj).1
    rw [hp] at this
    cases this
    exact hj
  · have hn : ∀ j, (s.cpu c).ctx ≠ .run j := fun j hj => hr ⟨j, hj⟩
    by_cases hb : (s.cpu c).ctx = .back
    · -- a scheduler that has not yet cleared c->proc holds the lock
      have := (h.control.lock c).2 ((holds_ctx hn).2 (by rw [hb]; trivial))
      rw [hl] at this
      cases this
    · rw [h.control.off c hn hb] at hp
      cases hp

theorem Inv.running_iff (h : Inv s) (hl : s.lock = none) (i : Slot) :
    (s.tbl.proc i).state = .RUNNING ↔ ∃ c, (s.cpu c).ctx = .run i := by
  have hfit := h.threads.fits i
  constructor
  · intro hr
    refine h.control.onCpu i ?_
    cases hpc : s.pc i with
    | saved r =>
      rw [hpc] at hfit
      exact absurd hr hfit.1
    | _ => exact id
  · rintro ⟨c, hc⟩
    have hns := (h.control.run c i hc).2
    cases hpc : s.pc i with
    | saved r => rw [hpc] at hns; exact absurd trivial hns
    | sched r =>
      have := (h.lock_iff hc).2 (by rw [hpc]; trivial)
      rw [hl] at this
      cases this
    | resumed r => rw [hpc] at hfit; exact hfit.1
    | _ => rw [hpc] at hfit; exact hfit

/-- **A process runs on at most one CPU.** In every reachable state: when ptable.lock is free, a slot is RUNNING exactly
if one CPU has c->proc pointing to it, no two CPUs have the same c->proc, and RUNNABLE and RUNNING slots have a kernel
stack and a page directory; and neither switchuvm nor the test `sched running` has panicked. -/
theorem runs_on_one_cpu (s : Machine) (h : Reachable s) : (s.lock = none →
      (∀ i, (s.tbl.proc i).state = .RUNNING ↔ ∃! c, (s.cpu c).proc = some i) ∧
      (∀ c c' i, (s.cpu c).proc = some i → (s.cpu c').proc = some i → c = c') ∧
      ∀ i, (s.tbl.proc i).state = .RUNNABLE ∨ (s.tbl.proc i).state = .RUNNING →
        (s.tbl.proc i).kstack = true ∧ (s.tbl.proc i).pgdir = true) ∧
    s.panic ≠ some .noKstack ∧ s.panic ≠ some .noPgdir ∧ s.panic ≠ some .schedRunning := by
  have hinv := reach_inv h
  refine ⟨fun hl => ?_, ?_, ?_, ?_⟩
  · have huniq : ∀ c c' i, (s.cpu c).proc = some i → (s.cpu c').proc = some i → c = c' := fun c c' i h1 h2 =>
      hinv.control.uniq c c' i (hinv.proc_run hl h1) (hinv.proc_run hl h2)
    refine ⟨fun i => ?_, huniq, fun i hi => (hinv.table.equipped i).backed (.inl ?_)⟩
    · rw [hinv.running_iff hl i]
      constructor
      · rintro ⟨c, hc⟩
        have hp := (hinv.control.run c i hc).1
        exact ⟨c, hp, fun c' hc' => huniq c' c i hc' hp⟩
      · rintro ⟨c, hc, -⟩
        exact ⟨c, hinv.proc_run hl hc⟩
    · rcases hi with e | e
      · exact kind_of e
      · exact kind_of e
  all_goals rcases hinv.panic with e | e <;> rw [e] <;> nofun

/-- after boot, init runs on CPU 0 and nowhere else -/
theorem runs_on_one_cpu_example : ∃ s, Reachable s ∧ s.lock = none ∧ (s.tbl.proc 0).state = .RUNNING ∧
    ∃! c, (s.cpu c).proc = some 0 := by
  obtain ⟨s, h, hl, hst⟩ := exists_run (fun _ _ => True) bootActs
    (P := fun s => s.lock = none ∧ (s.tbl.proc 0).state = .RUNNING) (by decide +kernel)
  exact ⟨s, h, hl, hst, (((runs_on_one_cpu s h).1 hl).1 0).1 hst⟩

/-! ## Which step causes which event -/

/-- the position from which process i causes the event -/
def Ev.By (s : Machine) (i : Slot) (ok : Bool) : Ev → Prop
  | .reap cur _ => cur = i ∧ s.pc i = .crit .wait
  | .exit cur => cur = i ∧ s.pc i = .crit .exit
  | .kill pid => s.pc i = .crit (.kill pid)
  | .kstackFail np => s.pc i = .free (.fork1 np) ∧ ok = false
  | .copyFail np => s.pc i = .free (.fork2 np) ∧ ok = false
  | .publish np => s.pc i = .crit (.publish np)
  | _ => True

theorem body_by {op : Op} (hpc : s.pc i = .crit op) (ok : Bool) {p : Pc} (hn : body s.tbl i op = .emit ev p) : ev.By s i ok := by
  cases op with
  | fork =>
    unfold body at hn
    dsimp only at hn
    split at hn
    · cases hn
    · cases hn
      trivial
  | wait =>
    unfold body at hn
    dsimp only at hn
    split at hn
    · cases hn
      exact ⟨rfl, hpc⟩
    · cases hn
    · cases hn
      trivial
  | publish np | kill pid => cases hn; exact hpc
  | exit => cases hn; exact ⟨rfl, hpc⟩
  | sleep n | wakeup n | renice v pid => cases hn; trivial

theorem nextOf_by {c : ℕ} {ok : Bool} {p : Pc} (hn : nextOf s c i ok = .emit ev p) : ev.By s i ok := by
  unfold nextOf at hn
  cases hpc : s.pc i with
  | free k =>
    rw [hpc] at hn
    cases k with
    | user | want op => cases hn
    | fork1 np | fork2 np =>
      cases ok with
      | true => cases hn; trivial
      | false => cases hn; exact ⟨hpc, rfl⟩
    | fork3 np => cases hn; trivial
  | intr k | rel k | saved r => rw [hpc] at hn; cases hn
  | crit op =>
    rw [hpc] at hn
    exact body_by hpc ok hn
  | critYield k | critWake n k => rw [hpc] at hn; cases hn; trivial
  | sched r =>
    rw [hpc] at hn
    dsimp only at hn
    split_ifs at hn
  | resumed r =>
    rw [hpc] at hn
    cases r with
    | point k | dead => cases hn
    | slept | waited => cases hn; trivial

/-- the events of schedulers, of userinit, of traps and of handlers -/
def Ev.Plain : Ev → Prop
  | .reap _ _ | .exit _ | .kill _ | .kstackFail _ | .copyFail _ | .publish _ => False
  | _ => True

/-- **The table changes by events only.** A step leaves the table alone or is one event under its precondition. -/
theorem step_table {a : Act} (h : Inv s) (hs : step s a = some s') :
    s'.tbl = s.tbl ∨ ∃ ev : Ev, ev.Pre s.tbl ∧ s'.tbl = ev.apply s.tbl ∧ ((ev.Plain ∧ (∀ v pid, ev ≠ .renice v pid) ∧
          ∀ np, ev = .kstackOk np → ∃ c, a = .cpu c ∧ (s.cpu c).ctx = .boot3 np) ∨
        ∃ c i ok, a = .run c ok ∧ (s.cpu c).ctx = .run i ∧ ev.By s i ok ∧ ∃ p, nextOf s c i ok = .emit ev p) := by
  unfold step at hs
  split_ifs at hs with hp
  cases a with
  | cpu c =>
    have hstage := h.booting.stage c
    dsimp only at hs
    unfold stepCpu at hs
    cases hctx : (s.cpu c).ctx with
    | boot0 | boot6 np | idle => rw [hctx] at hs; dsimp only at hs; split_ifs at hs; cases hs; exact .inl rfl
    | boot1 =>
      rw [hctx] at hs
      dsimp only at hs
      split at hs
      · cases hs
      · rename_i np hf
        cases hs
        exact .inr ⟨.alloc np, hf, rfl, .inl ⟨trivial, nofun, nofun⟩⟩
    | boot2 np | back | unlock => rw [hctx] at hs; cases hs; exact .inl rfl
    | boot3 np =>
      rw [hctx] at hs hstage
      cases hs
      refine .inr ⟨.kstackOk np, hstage.2, rfl, .inl ⟨trivial, nofun, fun np' e => ⟨c, rfl, ?_⟩⟩⟩
      cases e
      exact hctx
    | boot4 np =>
      rw [hctx] at hs hstage
      cases hs
      exact .inr ⟨.setInit np, ⟨hstage.2.1, hstage.1⟩, rfl, .inl ⟨trivial, nofun, nofun⟩⟩
    | boot5 np =>
      rw [hctx] at hs hstage
      cases hs
      exact .inr ⟨.copyOk np, hstage.2.1, rfl, .inl ⟨trivial, nofun, nofun⟩⟩
    | boot7 np =>
      rw [hctx] at hs hstage
      cases hs
      obtain ⟨h1, h2, h3, -, h5⟩ := hstage
      exact .inr ⟨.initRun np, ⟨h2, h1, h3, h5⟩, rfl, .inl ⟨trivial, nofun, nofun⟩⟩
    | wake n =>
      rw [hctx] at hs
      cases hs
      exact .inr ⟨.wakeup n, trivial, rfl, .inl ⟨trivial, nofun, nofun⟩⟩
    | pick =>
      rw [hctx] at hs
      cases hn : (Lottery.lotteryPass s.tbl.lottery s.next).2 with
      | none =>
        rw [hn] at hs
        cases hs
        exact .inl rfl
      | some n =>
        rw [hn] at hs
        dsimp only at hs
        obtain ⟨hlt, hr⟩ := lotteryPass_runnable hn
        rw [dif_pos hlt] at hs
        cases hs
        have hnext : Inv { s with next := (Lottery.lotteryPass s.tbl.lottery s.next).1 } := h.congr rfl rfl rfl rfl rfl
        obtain ⟨r, hpc, -⟩ := hnext.runnable_saved hctx hr
        rw [hnext.dispatch_eq hr hpc]
        exact .inr ⟨.dispatch ⟨n, hlt⟩, hr, rfl, .inl ⟨trivial, nofun, nofun⟩⟩
    | run i => rw [hctx] at hs; cases hs
  | call c op =>
    dsimp only at hs
    split at hs
    · split_ifs at hs
      left
      cases op with
      | exit | renice v pid => unfold entry at hs; dsimp only at hs; split_ifs at hs <;> cases hs <;> rfl
      | _ => cases hs <;> rfl
    · cases hs
  | timer c =>
    dsimp only at hs
    split at hs
    · split at hs
      · cases hs
        exact .inl rfl
      · cases hs
    · cases hs
  | irq c n =>
    left
    dsimp only [interrupt, Machine.perform] at hs
    split at hs
    · split_ifs at hs
      cases hs
      rfl
    · split at hs
      · split_ifs at hs
        cases hs
        rfl
      · cases hs
    · cases hs
  | run c ok =>
    dsimp only at hs
    split at hs
    · rename_i i hctx
      cases hn : nextOf s c i ok with
      | emit ev p =>
        rw [hn] at hs
        cases hs
        exact .inr ⟨ev, (nextOf_emit h hctx hn).pre, rfl, .inr ⟨c, i, ok, rfl, hctx, nextOf_by hn, p, hn⟩⟩
      | acquire p =>
        rw [hn] at hs
        unfold Machine.perform at hs
        dsimp only at hs
        split_ifs at hs
        cases hs
        exact .inl rfl
      | _ => rw [hn] at hs; cases hs <;> exact .inl rfl
    · cases hs
  | fault c =>
    dsimp only at hs
    split at hs
    · rename_i i hctx
      split_ifs at hs with hpc
      cases hs
      have hfit := h.threads.fits i
      rw [hpc] at hfit
      exact .inr ⟨.fault i, hfit, rfl, .inl ⟨trivial, nofun, nofun⟩⟩
    · cases hs
  | reload c =>
    dsimp only at hs
    split at hs
    · rename_i i hctx
      split_ifs at hs with hpc
      have hfit := h.threads.fits i
      rw [hpc] at hfit
      rw [switchuvmPanic_none (h.table.equipped i) (.inl (kind_of hfit))] at hs
      cases hs
      exact .inl rfl
    · cases hs

/-! ## exit and wait -/

theorem Ev.reaped_eq (t : Table) (h : ∀ cur p, ev ≠ .reap cur p) : (ev.apply t).reaped = t.reaped := by
  unfold Ev.apply
  cases ev with
  | reap cur p => exact absurd rfl (h cur p)
  | kill pid =>
    rcases kill_cases t pid with ⟨e, -⟩ | ⟨p, q, -, -, -, e⟩
    · simp only [e]
    · simp only [e]
      rfl
  | renice v pid =>
    dsimp only
    unfold Table.renice
    split <;> rfl
  | exit cur =>
    have hx := (exited_exit t cur).same
    dsimp only
    generalize t.exit cur = t' at hx
    rw [hx]
  | _ => rfl

theorem Ev.exited_eq (t : Table) (h : ∀ cur, ev ≠ .exit cur) : (ev.apply t).exited = t.exited := by
  unfold Ev.apply
  cases ev with
  | exit cur => exact absurd rfl (h cur)
  | kill pid =>
    rcases kill_cases t pid with ⟨e, -⟩ | ⟨p, q, -, -, -, e⟩
    · simp only [e]
    · simp only [e]
      rfl
  | renice v pid =>
    dsimp only
    unfold Table.renice
    split <;> rfl
  | _ => rfl

/-- a step reaps nobody, or the process in wait on that CPU reaps one of its ZOMBIE children -/
theorem step_reaped {a : Act} (h : Inv s) (hs : step s a = some s') :
    s'.tbl.reaped = s.tbl.reaped ∨ ∃ c ok i p, a = .run c ok ∧ (s.cpu c).ctx = .run i ∧ s.pc i = .crit .wait ∧
      (s.tbl.proc p).parent = some i ∧ (s.tbl.proc p).state = .ZOMBIE ∧ s'.tbl.reaped = (p, s.tbl.gen p) :: s.tbl.reaped := by
  rcases step_table h hs with e | ⟨ev, hpre, e, hby⟩
  · rw [e]
    exact .inl rfl
  · by_cases hr : ∃ cur p, ev = .reap cur p
    · obtain ⟨cur, p, rfl⟩ := hr
      rcases hby with ⟨hpl, -⟩ | ⟨c, i, ok, ha, hctx, ⟨rfl, hpc⟩, -⟩
      · exact absurd hpl id
      · obtain ⟨hpar, hz⟩ := wait_reap hpre.2
        exact .inr ⟨c, ok, cur, p, ha, hctx, hpc, hpar, hz, by rw [e]; rfl⟩
    · left
      rw [e]
      exact Ev.reaped_eq s.tbl fun cur p he => hr ⟨cur, p, he⟩

/-- a step ends nobody, or the process in exit on that CPU ends -/
theorem step_exited {a : Act} (h : Inv s) (hs : step s a = some s') :
    s'.tbl.exited = s.tbl.exited ∨ ∃ c ok i, a = .run c ok ∧ (s.cpu c).ctx = .run i ∧ s.pc i = .crit .exit ∧
      s'.tbl.exited = (i, s.tbl.gen i) :: s.tbl.exited := by
  rcases step_table h hs with e | ⟨ev, hpre, e, hby⟩
  · rw [e]
    exact .inl rfl
  · by_cases hr : ∃ cur, ev = .exit cur
    · obtain ⟨cur, rfl⟩ := hr
      rcases hby with ⟨hpl, -⟩ | ⟨c, i, ok, ha, hctx, ⟨rfl, hpc⟩, -⟩
      · exact absurd hpl id
      · exact .inr ⟨c, ok, cur, ha, hctx, hpc, by rw [e]; rfl⟩
    · left
      rw [e]
      exact Ev.exited_eq s.tbl fun cur he => hr ⟨cur, he⟩

/-- **The protocol of exit and wait.** In every reachable state: every process but init has a parent that is neither
UNUSED nor ZOMBIE; nobody sleeps in wait over a ZOMBIE child; no occupant of a slot is reaped twice, and every reaped one
has executed exit; a step adds to the reaped only a child of the process that is in wait on that CPU, and to the exited
only the process in exit itself; wait returns -1 to a caller that is not killed only if no slot has it as parent. -/
theorem exit_wait_protocol (s : Machine) (h : Reachable s) : (∀ i, (s.tbl.proc i).Used → s.tbl.initproc ≠ some i →
      ∃ q, (s.tbl.proc i).parent = some q ∧ (s.tbl.proc q).state ≠ .UNUSED ∧ (s.tbl.proc q).state ≠ .ZOMBIE) ∧
    (∀ i j, s.tbl.Waiting i → (s.tbl.proc j).parent = some i → (s.tbl.proc j).state ≠ .ZOMBIE) ∧
    s.tbl.reaped.Nodup ∧ (∀ x ∈ s.tbl.reaped, x ∈ s.tbl.exited) ∧ (∀ a s', step s a = some s' → s'.tbl.reaped = s.tbl.reaped ∨
      ∃ c ok i p, a = .run c ok ∧ (s.cpu c).ctx = .run i ∧ s.pc i = .crit .wait ∧ (s.tbl.proc p).parent = some i ∧
        (p, s.tbl.gen p) ∈ s.tbl.exited ∧ (p, s.tbl.gen p) ∉ s.tbl.reaped ∧ s'.tbl.reaped = (p, s.tbl.gen p) :: s.tbl.reaped) ∧
    (∀ a s', step s a = some s' → s'.tbl.exited = s.tbl.exited ∨
      ∃ c ok i, a = .run c ok ∧ (s.cpu c).ctx = .run i ∧ s.pc i = .crit .exit ∧
        s'.tbl.exited = (i, s.tbl.gen i) :: s.tbl.exited) ∧
    ∀ i, s.tbl.wait i = .fail → (s.tbl.proc i).killed = false → ∀ p, (s.tbl.proc p).parent ≠ some i := by
  have hinv := reach_inv h
  have hfam := hinv.table.family
  have hhist := hinv.table.history
  refine ⟨fun i hu hi => ?_, fun i j hw hp hz => hfam.attended i j hw hp (kind_zombie.2 hz), hhist.once, hhist.after,
    fun a s' hs => ?_, fun a s' hs => step_exited hinv hs, fun i hw hk p => wait_fail hw hk p⟩
  · obtain ⟨q, hq⟩ := Option.ne_none_iff_exists'.1 (hfam.hasParent i hu hi)
    have hlive := hfam.parentLive i q hq
    refine ⟨q, hq, fun e => ?_, fun e => ?_⟩
    · rw [kind_of e] at hlive
      cases hlive
    · rw [kind_of e] at hlive
      cases hlive
  · rcases step_reaped hinv hs with e | ⟨c, ok, i, p, ha, hctx, hpc, hpar, hz, hr⟩
    · exact .inl e
    · have hnodup := (reach_inv (h.step trivial hs)).table.history.once
      rw [hr] at hnodup
      exact .inr ⟨c, ok, i, p, ha, hctx, hpc, hpar, hhist.zombie p hz, (nodup_cons.1 hnodup).1, hr⟩

/-- init forks and waits; the child, dispatched by the same CPU, exits; init is dispatched again and reaps it -/
def reapActs : List Act :=
  forkActs ++ List.replicate 2 (.run 0 true) ++ .call 0 .wait :: List.replicate 3 (.run 0 true) ++
  List.replicate 4 (.cpu 0) ++ .run 0 true :: .call 0 .exit :: List.replicate 3 (.run 0 true) ++
  List.replicate 4 (.cpu 0) ++ List.replicate 3 (.run 0 true)

theorem exit_wait_protocol_example : ∃ s, Reachable s ∧ s.tbl.reaped = [(1, 1)] ∧ (1, 1) ∈ s.tbl.exited := by
  obtain ⟨s, h, hr⟩ := exists_run (fun _ _ => True) (bootActs ++ reapActs) (P := fun s => s.tbl.reaped = [(1, 1)])
    (by decide +kernel)
  obtain ⟨-, -, -, hafter, -⟩ := exit_wait_protocol s h
  exact ⟨s, h, hr, hafter (1, 1) (by rw [hr]; exact mem_singleton_self _)⟩

/-! ## The tree of processes -/

def Table.Parent (t : Table) (j q : Slot) : Prop := (t.proc j).parent = some q

/-- an event makes a parent only of init, or of a process that is setting up its child -/
theorem Ev.parent_cases {j q : Slot} (hp : ev.Pre t) (h : (ev.apply t).Parent j q) :
    t.Parent j q ∨ t.initproc = some q ∨ (t.proc j).state = .EMBRYO ∧ (t.proc q).state = .RUNNING := by
  by_cases he : ∃ cur, ev = .exit cur
  · obtain ⟨cur, rfl⟩ := he
    have h := ((exited_exit t cur).parent j).symm.trans h
    split_ifs at h
    · exact .inr (.inl h)
    · exact .inl h
  by_cases hj : ev.Subject j
  · unfold Table.Parent Ev.apply at h
    cases ev with
    | exit cur => exact absurd ⟨cur, rfl⟩ he
    | setParent np cur =>
      cases show j = np from hj
      cases (congrArg Proc.parent (modify_self t j _)).symm.trans h
      exact .inr (.inr hp)
    | reap cur p =>
      cases show j = p from hj
      cases (congrArg Proc.parent (modify_self t j _)).symm.trans (show ((t.reap j).proc j).parent = some q from h)
    | alloc np =>
      cases show j = np from hj
      exact .inl ((congrArg Proc.parent (found_self t j)).symm.trans h)
    | wakeup | kill | renice | tidy | fault | setInit => exact hj.elim
    | _ =>
      cases hj
      exact .inl ((congrArg Proc.parent (modify_self t j _)).symm.trans h)
  · exact .inl (((Ev.untouched hj).parent fun cur e => absurd ⟨cur, e⟩ he).symm.trans h)

/-- parents rank below their children -/
def Ranked (t : Table) : Prop := ∃ rank : Slot → ℕ, ∀ j q, t.Parent j q → rank q < rank j

theorem Ranked.apply (h : Ranked t) (hf : Family t) (hp : ev.Pre t) : Ranked (ev.apply t) := by
  obtain ⟨rank, hr⟩ := h
  -- init goes below everybody, a slot that is being set up above
  refine ⟨fun j => if (ev.apply t).initproc = some j then 0 else
    if (t.proc j).state = .EMBRYO then Finset.univ.sup rank + 2 else rank j + 1, fun j q h => ?_⟩
  have hj : (ev.apply t).initproc ≠ some j := fun e => by
    cases ((hf.apply hp).initOrphan j e).symm.trans h
  have hle : rank q ≤ Finset.univ.sup rank := Finset.le_sup (Finset.mem_univ q)
  simp only [if_neg hj]
  rcases Ev.parent_cases hp h with e | e | ⟨e1, e2⟩
  · have hlive := hf.parentLive j q e
    have hq : (t.proc q).state ≠ .EMBRYO := fun hs => by
      rw [kind_of hs] at hlive
      cases hlive
    have := hr j q e
    rw [if_neg hq]
    split_ifs <;> omega
  · have hq : (ev.apply t).initproc = some q := by
      rw [Ev.initproc_eq, e]
      rintro np rfl
      cases hp.2.symm.trans e
    rw [if_pos hq]
    split_ifs <;> omega
  · rw [if_pos e1, e2]
    split_ifs <;> first | omega | contradiction

theorem reach_ranked (h : Reachable s) : Ranked s.tbl := by
  induction h with
  | boot => exact ⟨fun _ => 0, fun _ _ e => by cases e⟩
  | step h _ hs ih =>
    rcases step_table (reach_inv h) hs with e | ⟨ev, hpre, e, -⟩
    · rwa [e]
    · rw [e]
      exact ih.apply (reach_inv h).table.family hpre

/-- **The processes form a tree.** In every reachable state no slot is its own ancestor, and the ancestors of every process
lead to init. -/
theorem parents_lead_to_init (s : Machine) (h : Reachable s) : (∀ i, ¬ Relation.TransGen s.tbl.Parent i i) ∧
    ∀ i, (s.tbl.proc i).Used → ∃ k, s.tbl.initproc = some k ∧ Relation.ReflTransGen s.tbl.Parent i k := by
  obtain ⟨rank, hr⟩ := reach_ranked h
  have hf := (reach_inv h).table.family
  have hwf : WellFounded (Function.swap s.tbl.Parent) := Subrelation.wf (fun e => hr _ _ e) (measure rank).wf
  refine ⟨fun i hi => hwf.transGen.irrefl.irrefl i (Relation.transGen_swap.2 hi), fun i => ?_⟩
  induction i using hwf.induction with
  | _ i ih =>
    intro hu
    by_cases hi : s.tbl.initproc = some i
    · exact ⟨i, hi, .refl⟩
    · obtain ⟨q, hq⟩ := Option.ne_none_iff_exists'.1 (hf.hasParent i hu hi)
      obtain ⟨k, hk, hqk⟩ := ih q hq (.inl (hf.parentLive i q hq))
      exact ⟨k, hk, .head hq hqk⟩

theorem parents_lead_to_init_fork : ∃ s, Reachable s ∧ (s.tbl.proc 1).Used ∧
    ∃ k, s.tbl.initproc = some k ∧ Relation.ReflTransGen s.tbl.Parent 1 k := by
  obtain ⟨s, h, hr⟩ := exists_run (fun _ _ => True) (bootActs ++ forkActs ++ [.run 0 true])
    (P := fun s => (s.tbl.proc 1).state = .RUNNABLE) (by decide +kernel)
  exact ⟨s, h, .inl (kind_of hr), (parents_lead_to_init s h).2 1 (.inl (kind_of hr))⟩

/-! ## Who holds what -/

/-- **One holder.** In every reachable state ptable.lock is held by the one CPU whose context, of a process or of the scheduler,
stands between an acquire and the next release, although swtch leaves the release to another; a slot that fork fills is EMBRYO
and in the hands of one fork; and of the panics only that of an exiting init can happen. -/
theorem held_by_one (s : Machine) (h : Reachable s) : (∀ c, s.lock = some c ↔ s.Holds c) ∧
    (∀ i k np, (s.pc i).point = some k → k.child = some np → (s.tbl.proc np).state = .EMBRYO ∧
      ∀ j k', (s.pc j).point = some k' → k'.child = some np → j = i) ∧
    (s.panic = none ∨ s.panic = some .initExiting) := by
  have hinv := reach_inv h
  exact ⟨hinv.control.lock, fun i k np hk hc => ⟨(hinv.threads.ready i k hk).embryo hc, fun j k' hk' hc' =>
    hinv.threads.own j i k' k np hk' hk hc' hc⟩, hinv.panic⟩

theorem held_by_one_fork : ∃ s, Reachable s ∧ s.lock = some 0 ∧ s.Holds 0 ∧ (s.tbl.proc 1).state = .EMBRYO := by
  obtain ⟨s, h, hl, hp⟩ := exists_run (fun _ _ => True) (bootActs ++ forkActs)
    (P := fun s => s.lock = some 0 ∧ (s.pc 0).point.bind Point.child = some 1) (by decide +kernel)
  obtain ⟨k, hk, hc⟩ := Option.bind_eq_some_iff.1 hp
  obtain ⟨hlock, hown, -⟩ := held_by_one s h
  exact ⟨s, h, hl, (hlock 0).1 hl, (hown 0 k 1 hk hc).1⟩

/-! ## The scheduler -/

theorem niceOk_toNat {v : Word} (h : NiceOk v) : MIN_NICE_VALUE ≤ v.toNat ∧ v.toNat ≤ MAX_NICE_VALUE := by
  obtain ⟨h1, h2⟩ := h
  rw [BitVec.toInt_eq_toNat_cond] at h1 h2
  have := v.isLt
  simp only [MIN_NICE_VALUE, MAX_NICE_VALUE] at h1 h2 ⊢
  split_ifs at h1 h2 <;> omega

theorem Equipped.niceOk (h : Equipped t) (hu : (t.proc i).Used) :
    MIN_NICE_VALUE ≤ (t.proc i).niceValue.toNat ∧ (t.proc i).niceValue.toNat ≤ MAX_NICE_VALUE :=
  niceOk_toNat ((h i).nice ((h i).backed hu).1)

theorem Equipped.niceInRange (h : Equipped t) : Lottery.NiceInRange t.lottery.proc := by
  intro p hp hr
  obtain ⟨i, rfl⟩ := mem_ofFn.1 hp
  exact h.niceOk (.inl (kind_of hr))

theorem Equipped.tickets_pos (h : Equipped t) :
    0 < (t.lottery.proc.map Lottery.tickets).sum ↔ ∃ i, (t.proc i).state = .RUNNABLE := by
  rw [List.sum_pos_iff_exists_pos_nat]
  constructor
  · rintro ⟨n, hn, hpos⟩
    obtain ⟨p, hp, rfl⟩ := mem_map.1 hn
    obtain ⟨i, rfl⟩ := mem_ofFn.1 hp
    unfold Lottery.tickets at hpos
    split_ifs at hpos with hr
    · exact ⟨i, hr⟩
    · omega
  · rintro ⟨i, hr⟩
    refine ⟨_, mem_map.2 ⟨_, mem_ofFn.2 ⟨i, rfl⟩, rfl⟩, ?_⟩
    unfold Lottery.tickets
    rw [if_pos hr]
    exact (h.niceOk (.inl (kind_of hr))).1

/-- a pass draws a ticket that exists, and so finds its owner -/
theorem Equipped.lotteryPass_isSome (h : Equipped t) (next : Word) :
    (Lottery.lotteryPass t.lottery next).2.isSome ↔ ∃ i, (t.proc i).state = .RUNNABLE := by
  have hb := Lottery.tickets_sum_lt t.lottery h.niceInRange
  rw [← h.tickets_pos]
  unfold Lottery.lotteryPass
  rw [Lottery.niceSum_toInt t.lottery hb]
  constructor
  · intro hs
    split_ifs at hs with hpos
    · exact_mod_cast hpos
    · cases hs
  · intro hpos
    rw [if_pos (by exact_mod_cast hpos)]
    have hmod := Nat.mod_lt (Lottery.rand next).2.toNat hpos
    dsimp only
    rw [Lottery.randNum_eq (by have := Lottery.rand_lt next; omega) hb hpos,
      Lottery.scan_eq_draw t.lottery hb _ (by omega) hmod]
    obtain ⟨i, -, hi, -⟩ := Lib.draw_lt_length _ ((Lottery.rand next).2.toNat % _ + 1) (by omega) hmod
    rw [hi]
    rfl

/-- **The scheduler never divides by zero and never idles with work to do.** In every reachable state: the nice values of
all processes lie in [1, 100]; nice_sum() is their sum over the RUNNABLE slots, between 0 and 6400, and positive exactly
if there is such a slot; then rand() % nice_sum() lies in [0, nice_sum()); and a pass, from any state of the generator,
dispatches a process exactly if one is RUNNABLE. -/
theorem scheduler_keeps_busy (s : Machine) (h : Reachable s) :
    (∀ i, (s.tbl.proc i).Used → 1 ≤ (s.tbl.proc i).niceValue.toNat ∧ (s.tbl.proc i).niceValue.toNat ≤ 100) ∧
    (Lottery.niceSum s.tbl.lottery).toInt = ((s.tbl.lottery.proc.map Lottery.tickets).sum : ℤ) ∧
    0 ≤ (Lottery.niceSum s.tbl.lottery).toInt ∧ (Lottery.niceSum s.tbl.lottery).toInt ≤ 6400 ∧
    (0 < (Lottery.niceSum s.tbl.lottery).toInt ↔ ∃ i, (s.tbl.proc i).state = .RUNNABLE) ∧
    ∀ next, (0 < (Lottery.niceSum s.tbl.lottery).toInt → 0 ≤ ((Lottery.rand next).2.srem (Lottery.niceSum s.tbl.lottery)).toInt ∧
        ((Lottery.rand next).2.srem (Lottery.niceSum s.tbl.lottery)).toInt < (Lottery.niceSum s.tbl.lottery).toInt) ∧
      ((Lottery.lotteryPass s.tbl.lottery next).2.isSome ↔ ∃ i, (s.tbl.proc i).state = .RUNNABLE) := by
  have heq := (reach_inv h).table.equipped
  have hle := Lottery.tickets_sum_le s.tbl.lottery heq.niceInRange
  have hsum := Lottery.niceSum_toInt s.tbl.lottery (Lottery.tickets_sum_lt s.tbl.lottery heq.niceInRange)
  refine ⟨fun i hu => heq.niceOk hu, hsum, ?_, ?_, ?_, fun next => ⟨fun hpos => ?_, heq.lotteryPass_isSome next⟩⟩
  · rw [hsum]
    exact Int.natCast_nonneg _
  · rw [hsum]
    simp only [NPROC, MAX_NICE_VALUE] at hle
    omega
  · rw [hsum, ← heq.tickets_pos]
    exact Int.natCast_pos
  · rw [BitVec.toInt_srem, Lottery.rand_toInt]
    exact ⟨Int.tmod_nonneg _ (Int.natCast_nonneg _), Int.tmod_lt_of_pos _ hpos⟩

/-- with a child of init RUNNABLE, every pass of an idle CPU finds it -/
theorem scheduler_keeps_busy_example : ∃ s, Reachable s ∧ (s.tbl.proc 1).state = .RUNNABLE ∧
    ∀ next, (Lottery.lotteryPass s.tbl.lottery next).2.isSome := by
  obtain ⟨s, h, hr⟩ := exists_run (fun _ _ => True) (bootActs ++ forkActs ++ [.run 0 true])
    (P := fun s => (s.tbl.proc 1).state = .RUNNABLE) (by decide +kernel)
  obtain ⟨-, -, -, -, -, hpass⟩ := scheduler_keeps_busy s h
  exact ⟨s, h, hr, fun next => (hpass next).2.2 ⟨1, hr⟩⟩

/-! ## kill -/

/-- the step does not let kill find an UNUSED slot, and does not give back the killed slot of a failed fork -/
def CleanAct (s : Machine) : Act → Prop
  | .run c ok =>
    match (s.cpu c).ctx with
    | .run i =>
      match s.pc i with
      | .crit (.kill pid) => ∀ p, s.tbl.find (fun q => q.pid = pid) = some p → (s.tbl.proc p).state ≠ .UNUSED
      | .free (.fork1 np) | .free (.fork2 np) => ok = true ∨ (s.tbl.proc np).killed = false
      | _ => True
    | _ => True
  | _ => True

instance (s : Machine) (a : Act) : Decidable (CleanAct s a) := by
  unfold CleanAct
  split
  · split
    · split <;> infer_instance
    · infer_instance
  · infer_instance

/-- the step is not the critical section of a renice of this pid -/
def NoRenice (pid : Word) (s : Machine) : Act → Prop
  | .run c _ =>
    match (s.cpu c).ctx with
    | .run i =>
      match s.pc i with
      | .crit (.renice _ q) => q ≠ pid
      | _ => True
    | _ => True
  | _ => True

instance (pid : Word) (s : Machine) (a : Act) : Decidable (NoRenice pid s a) := by
  unfold NoRenice
  split
  · split
    · split <;> infer_instance
    · infer_instance
  · infer_instance

theorem CleanAct.clean {c : ℕ} {ok : Bool} (h : CleanAct s (.run c ok))
    (hctx : (s.cpu c).ctx = .run i) (hby : ev.By s i ok) : ev.Clean s.tbl := by
  unfold CleanAct at h
  dsimp only at h
  rw [hctx] at h
  dsimp only at h
  cases ev with
  | kill pid =>
    rw [show s.pc i = .crit (.kill pid) from hby] at h
    exact h
  | kstackFail np | copyFail np =>
    rw [hby.1] at h
    exact h.resolve_left (by rw [hby.2]; exact Bool.false_ne_true)
  | _ => trivial

theorem Ev.Plain.clean (h : ev.Plain) (t : Table) : ev.Clean t := by
  cases ev with
  | kill pid | kstackFail np | copyFail np => exact absurd h id
  | _ => trivial

theorem reach_unkilled (h : Reach CleanAct s) : Unkilled s.tbl := by
  induction h with
  | boot => exact fun j hj => absurd hj Bool.false_ne_true
  | step h hg hs ih =>
    rcases step_table (reach_inv h) hs with e | ⟨ev, hpre, e, hby⟩
    · rw [e]
      exact ih
    · rw [e]
      rcases hby with ⟨hpl, -⟩ | ⟨c, i, ok, rfl, hctx, hby, -⟩
      · exact ih.apply hpre (hpl.clean _)
      · exact ih.apply hpre (hg.clean hctx hby)

theorem step_publish {c : ℕ} {np : Slot} {ok : Bool} (h : Inv s) (hctx : (s.cpu c).ctx = .run i)
    (hpc : s.pc i = .crit (.publish np)) (hs : step s (.run c ok) = some s') :
    (s.tbl.proc np).state = .EMBRYO ∧ s'.tbl = s.tbl.publish np := by
  have hn : nextOf s c i ok = .emit (.publish np) (.rel .user) := by
    unfold nextOf
    rw [hpc]
    rfl
  unfold step at hs
  split_ifs at hs
  dsimp only at hs
  rw [hctx] at hs
  dsimp only at hs
  rw [hn] at hs
  cases hs
  exact ⟨(nextOf_emit h hctx hn).pre.1, rfl⟩

/-- **kill reaches only live processes, as long as it finds no UNUSED slot.** In every run in which no kill finds an
UNUSED slot first and no failing fork gives back a killed slot: a kill that finds no UNUSED slot returns 0 exactly if a
slot in use has the pid; it then marks one such slot, making it RUNNABLE if it was SLEEPING, and changes no other; else
it changes nothing. The child of a fork becomes RUNNABLE with killed set only if a kill named its pid since allocproc
assigned it. -/
theorem kill_reaches_live (s : Machine) (h : Reach CleanAct s) :
    (∀ pid, (∀ p, s.tbl.find (fun q => q.pid = pid) = some p → (s.tbl.proc p).state ≠ .UNUSED) →
      ((s.tbl.kill pid).2 = 0 ↔ ∃ p, (s.tbl.proc p).state ≠ .UNUSED ∧ (s.tbl.proc p).pid = pid) ∧
      ((s.tbl.kill pid).2 = 0 → ∃ p, (s.tbl.proc p).state ≠ .UNUSED ∧ (s.tbl.proc p).pid = pid ∧
        (s.tbl.kill pid).1 = s.tbl.modify p fun q => { q with
          killed := true
          state := if q.state = .SLEEPING then .RUNNABLE else q.state }) ∧
      ((s.tbl.kill pid).2 ≠ 0 → (s.tbl.kill pid).1 = s.tbl)) ∧
    ∀ c i np ok s', (s.cpu c).ctx = .run i → s.pc i = .crit (.publish np) → step s (.run c ok) = some s' →
      (s'.tbl.proc np).state = .RUNNABLE ∧ ((s'.tbl.proc np).killed = true → s'.tbl.named np = true) := by
  constructor
  · intro pid hfind
    unfold Table.kill
    cases hf : s.tbl.find fun q => q.pid = pid with
    | none =>
      have hno : ∀ p, (s.tbl.proc p).pid ≠ pid := by
        intro p hp
        have : (s.tbl.find fun q => q.pid = pid).isSome := find_isSome_iff.2 ⟨p, by simpa using hp⟩
        rw [hf] at this
        cases this
      have hfail : ¬ (-1 : ℤ) = 0 := by decide
      refine ⟨⟨fun h0 => absurd h0 hfail, ?_⟩, fun h0 => absurd h0 hfail, fun _ => rfl⟩
      rintro ⟨p, -, hp⟩
      exact absurd hp (hno p)
    | some p =>
      have hlive := hfind p hf
      have hpid : (s.tbl.proc p).pid = pid := by simpa using find_spec hf
      exact ⟨⟨fun _ => ⟨p, hlive, hpid⟩, fun _ => rfl⟩, fun _ => ⟨p, hlive, hpid, rfl⟩, fun h0 => absurd rfl h0⟩
  · intro c i np ok s' hctx hpc hs
    obtain ⟨hemb, htbl⟩ := step_publish (reach_inv h) hctx hpc hs
    have hself : s'.tbl.proc np = _ := (congrArg (fun t => t.proc np) htbl).trans (modify_self ..)
    have hkilled : (s'.tbl.proc np).killed = (s.tbl.proc np).killed := by rw [hself]
    refine ⟨by rw [hself], fun hk => ?_⟩
    rw [hkilled] at hk
    rw [htbl]
    exact (reach_unkilled h np hk).2 hemb

/-- init forks: kill(1) finds it, and the child starts unkilled -/
theorem kill_reaches_live_example : ∃ s s', Reach CleanAct s ∧ s.pc 0 = .crit (.publish 1) ∧
    step s (.run 0 true) = some s' ∧ (∃ p, (s.tbl.proc p).state ≠ .UNUSED ∧ (s.tbl.proc p).pid = 1) ∧
    (s'.tbl.proc 1).state = .RUNNABLE := by
  obtain ⟨s, h, hctx, hpc, hok, hkill, hfind⟩ := exists_run CleanAct (bootActs ++ forkActs)
    (P := fun s => (s.cpu 0).ctx = .run 0 ∧ s.pc 0 = .crit (.publish 1) ∧ (step s (.run 0 true)).isSome ∧
      (s.tbl.kill 1).2 = 0 ∧ ∀ p, s.tbl.find (fun q => q.pid = 1) = some p → (s.tbl.proc p).state ≠ .UNUSED)
    (by decide +kernel)
  obtain ⟨s', hs⟩ := Option.isSome_iff_exists.1 hok
  have hlive := kill_reaches_live s h
  exact ⟨s, s', h, hpc, hs, ((hlive.1 1 hfind).1).1 hkill, (hlive.2 0 0 1 true s' hctx hpc hs).1⟩

/-- init calls kill(0), then fork up to the point where the child is RUNNABLE -/
def killZeroActs : List Act := .call 0 (.kill 0) :: List.replicate 3 (.run 0 true) ++ forkActs ++ [.run 0 true]

/-- right after boot no process has pid 0, and yet kill(0) returns 0: it marks the UNUSED slot 1. The next fork takes that
slot, and the child becomes RUNNABLE with killed set although no kill named its pid. -/
theorem kill_finds_unused_slot :
    (∃ s, Reachable s ∧ s.lock = none ∧ (∀ p, (s.tbl.proc p).state ≠ .UNUSED → (s.tbl.proc p).pid ≠ 0) ∧
      (s.tbl.kill 0).2 = 0 ∧ (s.tbl.proc 1).state = .UNUSED ∧ ((s.tbl.kill 0).1.proc 1).killed = true) ∧
    ∃ s, Reachable s ∧ (s.tbl.proc 1).state = .RUNNABLE ∧ (s.tbl.proc 1).killed = true ∧ s.tbl.named 1 = false :=
  ⟨exists_run _ bootActs (by decide +kernel), exists_run _ (bootActs ++ killZeroActs) (by decide +kernel)⟩

end Xv6.Ptable
