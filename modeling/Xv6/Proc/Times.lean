/-
CPU-time accounting (PROC_TIMES in proc.c): ticks_begin, ticks_total and sched_times of struct proc.

The machine of CPUs, kernel threads and ptable.lock runs with a clock: ticks advances at any moment between two steps of
the machine. allocproc clears the three fields; the scheduler sets ticks_begin and counts a dispatch before it switches
to a process, and charges the slice after the process has switched back. uptime() reads ticks, 32 bits wide.

A history that no code reads is kept beside it: the clock without wrap (`now`), the dispatches, for each CPU when and to
which occupant of which slot it switched last, and the completed slices.

- `cpu_time_conserved`: sched_times of a process is the number of its dispatches, ticks_total the sum of its completed
  slices, a slice is charged to the occupant that was dispatched, whatever it did meanwhile, and what a CPU has charged
  altogether does not exceed the ticks that have passed.
-/
import Xv6.Proc.Pids

namespace Xv6.Ptable

open BitVec List
open Lottery (ProcState)

/-! ## Model -/

/-- the PROC_TIMES fields of struct proc -/
structure Times where
  ticksBegin : Word
  ticksTotal : Word
  schedTimes : Word

/-- a completed time slice: the occupant of a slot that ran, on which CPU, from when to when, and what was charged -/
structure Slice where
  who : Slot × ℕ
  cpu : ℕ
  tin : ℕ
  tout : ℕ
  charge : Word

structure Timed where
  m : Machine
  ticks : Word
  times : Slot → Times
  now : ℕ
  dispatches : List (Slot × ℕ)
  /-- the occupant number of the process that the CPU dispatched last -/
  gens : ℕ → ℕ
  /-- when it did -/
  since : ℕ → ℕ
  slices : List Slice

/-- the steps of the machine at which the code touches the three fields -/
inductive Mark where
  | none
  /-- the end of allocproc -/
  | reset (np : Slot)
  /-- the scheduler of CPU c is about to switch to process i -/
  | dispatch (c : ℕ) (i : Slot)
  /-- the scheduler of CPU c is back from process i -/
  | charge (c : ℕ) (i : Slot)

def mark (s : Machine) : Act → Mark
  | .cpu c =>
    match (s.cpu c).ctx with
    | .boot3 np => .reset np
    | .pick =>
      match (Lottery.lotteryPass s.tbl.lottery s.next).2 with
      | some n => if h : n < NPROC then .dispatch c ⟨n, h⟩ else .none
      | none => .none
    | .back =>
      match (s.cpu c).proc with
      | some i => .charge c i
      | none => .none
    | _ => .none
  | .run c ok =>
    match (s.cpu c).ctx with
    | .run i =>
      match s.pc i with
      | .free (.fork1 np) => if ok then .reset np else .none
      | _ => .none
    | _ => .none
  | _ => .none

def Timed.account (s : Timed) : Mark → Timed
  | .none => s
  | .reset np => { s with times := update s.times np ⟨0, 0, 0⟩ }
  | .dispatch c i => { s with
      times := update s.times i { s.times i with
        ticksBegin := s.ticks, schedTimes := (s.times i).schedTimes + 1 }
      dispatches := (i, s.m.tbl.gen i) :: s.dispatches
      gens := update s.gens c (s.m.tbl.gen i)
      since := update s.since c s.now }
  | .charge c i => { s with
      times := update s.times i { s.times i with
        ticksTotal := (s.times i).ticksTotal + (s.ticks - (s.times i).ticksBegin) }
      slices := ⟨(i, s.gens c), c, s.since c, s.now, s.ticks - (s.times i).ticksBegin⟩ :: s.slices }

inductive Timed.Step : Timed → Timed → Prop where
  /-- the timer interrupt: ticks++ -/
  | tick (s : Timed) : Step s { s with ticks := s.ticks + 1, now := s.now + 1 }
  | act {s : Timed} {a : Act} {m' : Machine} (hs : step s.m a = some m') : Step s { s.account (mark s.m a) with m := m' }

/-- at boot everything is zero -/
def Timed.boot : Timed := ⟨Ptable.boot, 0, fun _ => ⟨0, 0, 0⟩, 0, [], fun _ => 0, fun _ => 0, []⟩

inductive Timed.Reachable : Timed → Prop where
  | boot : Reachable .boot
  | step {s s'} (h : Reachable s) (hs : Timed.Step s s') : Reachable s'

/-- the ticks that occupant x has run, in completed slices -/
def runtime (x : Slot × ℕ) (l : List Slice) : ℕ := ((l.filter fun y => y.who = x).map fun y => y.tout - y.tin).sum

/-- the ticks that CPU c has charged -/
def charged (c : ℕ) (l : List Slice) : ℕ := ((l.filter fun y => y.cpu = c).map fun y => y.charge.toNat).sum

/-! ## What the steps do to c->proc -/

theorem proc_update (cpu : ℕ → Cpu) (c : ℕ) (x : Cpu) (c' : ℕ) :
    (update cpu c x c').proc = if c' = c then x.proc else (cpu c').proc := by
  by_cases h : c' = c
  · subst h
    simp
  · simp [h]

theorem setCtx_proc (s : Machine) (c : ℕ) (x : Ctx) (c' : ℕ) : ((s.setCtx c x).cpu c').proc = (s.cpu c').proc := by
  refine (proc_update ..).trans ?_
  by_cases h : c' = c
  · rw [if_pos h, h]
  · rw [if_neg h]

variable {s s' m' : Machine} {c : ℕ} {i : Slot} {x : Slot × ℕ} {y : Slice}

/-- c->proc is set and cleared by the scheduler of CPU c only -/
theorem step_procs {a : Act} (hs : step s a = some s') (c' : ℕ)
    (hc : ∀ c, a = .cpu c → (s.cpu c).ctx ≠ .pick ∧ (s.cpu c).ctx ≠ .back) : (s'.cpu c').proc = (s.cpu c').proc := by
  have hperf : ∀ (c : ℕ) (i : Slot) (n : Next), s.perform c i n = some s' → (s'.cpu c').proc = (s.cpu c').proc := by
    intro c i n hn
    cases n with
    | acquire p =>
      unfold Machine.perform at hn
      dsimp only at hn
      split_ifs at hn
      cases hn
      rfl
    | switch r =>
      cases hn
      exact setCtx_proc ..
    | _ => cases hn <;> rfl
  unfold step at hs
  split_ifs at hs
  cases a with
  | cpu c =>
    obtain ⟨hpick, hback⟩ := hc c rfl
    dsimp only at hs
    unfold stepCpu at hs
    split at hs
    · split_ifs at hs
      cases hs
      exact setCtx_proc ..
    · split at hs
      · cases hs
      · cases hs
        exact setCtx_proc ..
    · cases hs; exact setCtx_proc ..
    · cases hs; exact setCtx_proc ..
    · cases hs; exact setCtx_proc ..
    · cases hs; exact setCtx_proc ..
    · split_ifs at hs
      cases hs
      exact setCtx_proc ..
    · cases hs; exact setCtx_proc ..
    · split_ifs at hs
      cases hs
      exact setCtx_proc ..
    · rename_i hctx
      exact absurd hctx hpick
    · rename_i hctx
      exact absurd hctx hback
    · cases hs; exact setCtx_proc ..
    · cases hs; exact setCtx_proc ..
    · cases hs
  | call c op =>
    dsimp only at hs
    split at hs
    · split_ifs at hs
      exact hperf _ _ _ hs
    · cases hs
  | timer c =>
    dsimp only at hs
    split at hs
    · split at hs
      · cases hs; rfl
      · cases hs
    · cases hs
  | irq c n =>
    dsimp only [interrupt] at hs
    split at hs
    · split_ifs at hs
      cases hs
      exact setCtx_proc ..
    · split at hs
      · exact hperf _ _ _ hs
      · cases hs
    · cases hs
  | run c ok =>
    dsimp only at hs
    split at hs
    · exact hperf _ _ _ hs
    · cases hs
  | fault c =>
    dsimp only at hs
    split at hs
    · split_ifs at hs
      cases hs
      rfl
    · cases hs
  | reload c =>
    dsimp only at hs
    split at hs
    · split_ifs at hs
      split at hs <;> cases hs <;> rfl
    · cases hs

/-- between processes, c->proc is set only while the process that has switched away still holds the lock for the scheduler -/
theorem Inv.back_of (h : Inv s) (hn : ∀ k, (s.cpu c).ctx ≠ .run k)
    (hp : (s.cpu c).proc = some i) : s.lock = some c ∧ (s.cpu c).ctx = .back := by
  by_cases hb : (s.cpu c).ctx = .back
  · exact ⟨(h.control.lock c).2 ((holds_ctx hn).2 (by rw [hb]; trivial)), hb⟩
  · rw [h.control.off c hn hb] at hp
    cases hp

/-- a process that is reaped is on no CPU: its own CPU would hold the lock that wait holds -/
theorem Inv.reap_off (h : Inv s) {c i : _} (hctx : (s.cpu c).ctx = .run i) (hpc : s.pc i = .crit .wait)
    {p : Slot} (hz : (s.tbl.proc p).state = .ZOMBIE) (c' : ℕ) : (s.cpu c').proc ≠ some p := by
  intro hp
  have hl : s.lock = some c := (h.lock_iff hctx).2 (by rw [hpc]; trivial)
  by_cases hr : ∃ k, (s.cpu c').ctx = .run k
  · obtain ⟨k, hk⟩ := hr
    have hkp := (h.control.run c' k hk).1
    rw [hp] at hkp
    cases hkp
    -- a ZOMBIE still on its CPU is in sched, with the lock held
    have hfit := h.threads.fits p
    rw [hz] at hfit
    have hns := (h.control.run c' p hk).2
    cases hq : s.pc p with
    | sched r =>
      have hl' : s.lock = some c' := (h.lock_iff hk).2 (by rw [hq]; trivial)
      rw [hl] at hl'
      cases hl'
      rw [hctx] at hk
      cases hk
      rw [hpc] at hq
      cases hq
    | saved r => rw [hq] at hns; exact hns trivial
    | resumed r => rw [hq] at hfit; cases hfit.1
    | _ => rw [hq] at hfit; cases hfit
  · have hn : ∀ k, (s.cpu c').ctx ≠ .run k := fun k hk => hr ⟨k, hk⟩
    obtain ⟨hl', -⟩ := h.back_of hn hp
    rw [hl] at hl'
    cases hl'
    exact hn i hctx

theorem Inv.runnable_off (h : Inv s) (hctx : (s.cpu c).ctx = .pick)
    (hr : (s.tbl.proc i).state = .RUNNABLE) (c' : ℕ) : (s.cpu c').proc ≠ some i := by
  intro hp
  obtain ⟨r, hpc, -⟩ := h.runnable_saved hctx hr
  have hl := h.held hctx nofun trivial
  by_cases hk : ∃ k, (s.cpu c').ctx = .run k
  · obtain ⟨k, hk⟩ := hk
    obtain ⟨hkp, hns⟩ := h.control.run c' k hk
    rw [hp] at hkp
    cases hkp
    rw [hpc] at hns
    exact hns trivial
  · obtain ⟨hl', hb⟩ := h.back_of (fun k e => hk ⟨k, e⟩) hp
    rw [hl] at hl'
    cases hl'
    rw [hctx] at hb
    cases hb

/-- what the steps of each mark do to the table and to c->proc -/
def Marked (s s' : Machine) : Mark → Prop
  | .none => (∀ c, (s'.cpu c).proc = (s.cpu c).proc) ∧ (s'.tbl = s.tbl ∨ ∃ ev : Ev, ev.Pre s.tbl ∧
      s'.tbl = ev.apply s.tbl ∧ (∀ np, ev ≠ .kstackOk np) ∧ ∀ cur p, ev = .reap cur p → ∀ c, (s.cpu c).proc ≠ some p)
  | .reset np => (∀ c, (s'.cpu c).proc = (s.cpu c).proc) ∧ (s.tbl.proc np).state = .EMBRYO ∧
      s'.tbl = (Ev.kstackOk np).apply s.tbl
  | .dispatch c i => (∀ c', (s'.cpu c').proc = if c' = c then some i else (s.cpu c').proc) ∧
      (s.tbl.proc i).state = .RUNNABLE ∧ s'.tbl = (Ev.dispatch i).apply s.tbl ∧ (s.cpu c).proc = none ∧
      ∀ c', (s.cpu c').proc ≠ some i
  | .charge c i => (∀ c', (s'.cpu c').proc = if c' = c then none else (s.cpu c').proc) ∧ (s.cpu c).proc = some i ∧
      s'.tbl = s.tbl

theorem nextOf_kstackOk {np : Slot} {ok : Bool} {p : Pc}
    (hn : nextOf s c i ok = .emit (.kstackOk np) p) : s.pc i = .free (.fork1 np) ∧ ok = true := by
  unfold nextOf at hn
  cases hpc : s.pc i with
  | free k =>
    rw [hpc] at hn
    cases k with
    | fork1 np' =>
      cases ok with
      | true => cases hn; exact ⟨rfl, rfl⟩
      | false => cases hn
    | _ => cases ok <;> cases hn
  | crit op =>
    rw [hpc] at hn
    cases op with
    | fork | wait => unfold body at hn; dsimp only at hn; split at hn <;> cases hn
    | _ => cases hn
  | sched r =>
    rw [hpc] at hn
    dsimp only at hn
    split_ifs at hn
  | resumed r =>
    rw [hpc] at hn
    cases r <;> cases hn
  | _ => rw [hpc] at hn; cases hn

theorem marked_none {a : Act} (h : Inv s) (hs : step s a = some s') (hm : ∀ np, mark s a ≠ .reset np)
    (hproc : ∀ c, (s'.cpu c).proc = (s.cpu c).proc) : Marked s s' .none := by
  refine ⟨hproc, ?_⟩
  rcases step_table h hs with e | ⟨ev, hpre, e, hby⟩
  · exact .inl e
  · refine .inr ⟨ev, hpre, e, fun np hev => ?_, fun cur p hev c => ?_⟩
    · subst hev
      rcases hby with ⟨-, -, hb⟩ | ⟨c, i, ok, rfl, hctx, -, p, hn⟩
      · obtain ⟨c, rfl, hctx⟩ := hb np rfl
        exact hm np (by unfold mark; simp [hctx])
      · obtain ⟨hpc, rfl⟩ := nextOf_kstackOk hn
        exact hm np (by unfold mark; simp [hctx, hpc])
    · subst hev
      rcases hby with ⟨hpl, -⟩ | ⟨c', i, ok, -, hctx, ⟨-, hpc⟩, -⟩
      · exact absurd hpl id
      · exact h.reap_off hctx hpc (wait_reap hpre.2).2 c

/-- outside the draw and the return from swtch, only the end of allocproc has a mark -/
theorem mark_cases {a : Act} (h : ¬ ∃ c, a = .cpu c ∧ ((s.cpu c).ctx = .pick ∨ (s.cpu c).ctx = .back)) :
    mark s a = .none ∨ (∃ c np, a = .cpu c ∧ (s.cpu c).ctx = .boot3 np ∧ mark s a = .reset np) ∨
    ∃ c i np, a = .run c true ∧ (s.cpu c).ctx = .run i ∧ s.pc i = .free (.fork1 np) ∧ mark s a = .reset np := by
  cases a with
  | cpu c =>
    cases hctx : (s.cpu c).ctx with
    | boot3 np => exact .inr (.inl ⟨c, np, rfl, hctx, by unfold mark; simp [hctx]⟩)
    | pick => exact absurd ⟨c, rfl, .inl hctx⟩ h
    | back => exact absurd ⟨c, rfl, .inr hctx⟩ h
    | _ => exact .inl (by unfold mark; simp [hctx])
  | run c ok =>
    by_cases hr : ∃ i np, (s.cpu c).ctx = .run i ∧ s.pc i = .free (.fork1 np) ∧ ok = true
    · obtain ⟨i, np, hctx, hpc, rfl⟩ := hr
      exact .inr (.inr ⟨c, i, np, rfl, hctx, hpc, by unfold mark; simp [hctx, hpc]⟩)
    · left
      unfold mark
      dsimp only
      split
      · rename_i i hctx
        split
        · rename_i np hpc
          exact if_neg fun hok => hr ⟨i, np, hctx, hpc, hok⟩
        · rfl
      · rfl
  | _ => exact .inl rfl

theorem marked_pick (h : Inv s) (hctx : (s.cpu c).ctx = .pick) (hs : step s (.cpu c) = some s') :
    Marked s s' (mark s (.cpu c)) := by
  have hn : ∀ i, (s.cpu c).ctx ≠ .run i := fun i e => by rw [hctx] at e; cases e
  have hproc : (s.cpu c).proc = none := h.control.off c hn (by rw [hctx]; nofun)
  have hs' := hs
  unfold step at hs'
  split_ifs at hs'
  dsimp only at hs'
  unfold stepCpu at hs'
  rw [hctx] at hs'
  dsimp only at hs'
  cases hd : (Lottery.lotteryPass s.tbl.lottery s.next).2 with
  | none =>
    have hmark : mark s (.cpu c) = .none := by unfold mark; simp [hctx, hd]
    rw [hmark]
    refine marked_none h hs (by rw [hmark]; nofun) fun c' => ?_
    rw [hd] at hs'
    cases hs'
    exact setCtx_proc ..
  | some n =>
    obtain ⟨hlt, hr⟩ := lotteryPass_runnable hd
    have hmark : mark s (.cpu c) = .dispatch c ⟨n, hlt⟩ := by unfold mark; simp [hctx, hd, hlt]
    rw [hmark]
    rw [hd] at hs'
    dsimp only at hs'
    rw [dif_pos hlt] at hs'
    have hnext : Inv { s with next := (Lottery.lotteryPass s.tbl.lottery s.next).1 } := h.congr rfl rfl rfl rfl rfl
    obtain ⟨r, hpc, -⟩ := hnext.runnable_saved hctx hr
    rw [hnext.dispatch_eq hr hpc] at hs'
    cases hs'
    exact ⟨fun c' => proc_update .., hr, rfl, hproc, h.runnable_off hctx hr⟩

theorem marked_back (h : Inv s) (hctx : (s.cpu c).ctx = .back) (hs : step s (.cpu c) = some s') :
    Marked s s' (mark s (.cpu c)) := by
  have hs' := hs
  unfold step at hs'
  split_ifs at hs'
  dsimp only at hs'
  unfold stepCpu at hs'
  rw [hctx] at hs'
  cases hs'
  cases hp : (s.cpu c).proc with
  | none =>
    have hmark : mark s (.cpu c) = .none := by unfold mark; simp [hctx, hp]
    rw [hmark]
    refine marked_none h hs (by rw [hmark]; nofun) fun c' => (proc_update ..).trans ?_
    by_cases hc : c' = c
    · rw [if_pos hc, hc, hp]
    · rw [if_neg hc]
  | some i =>
    have hmark : mark s (.cpu c) = .charge c i := by unfold mark; simp [hctx, hp]
    rw [hmark]
    exact ⟨fun c' => proc_update .., hp, rfl⟩

theorem step_marked {a : Act} (h : Inv s) (hs : step s a = some s') : Marked s s' (mark s a) := by
  by_cases hsched : ∃ c, a = .cpu c ∧ ((s.cpu c).ctx = .pick ∨ (s.cpu c).ctx = .back)
  · obtain ⟨c, rfl, hctx | hctx⟩ := hsched
    · exact marked_pick h hctx hs
    · exact marked_back h hctx hs
  · have hproc : ∀ c', (s'.cpu c').proc = (s.cpu c').proc := fun c' => step_procs hs c' fun c ha =>
      ⟨fun e => hsched ⟨c, ha, .inl e⟩, fun e => hsched ⟨c, ha, .inr e⟩⟩
    rcases mark_cases hsched with hm | ⟨c, np, rfl, hctx, hm⟩ | ⟨c, i, np, rfl, hctx, hpc, hm⟩
    · rw [hm]
      exact marked_none h hs (by rw [hm]; nofun) hproc
    · rw [hm]
      have hstage := h.booting.stage c
      rw [hctx] at hstage
      unfold step at hs
      split_ifs at hs
      dsimp only at hs
      unfold stepCpu at hs
      rw [hctx] at hs
      cases hs
      exact ⟨hproc, hstage.2, rfl⟩
    · rw [hm]
      have hn : nextOf s c i true = .emit (.kstackOk np) (.free (.fork2 np)) := by
        unfold nextOf
        rw [hpc]
        rfl
      have hpre := (nextOf_emit h hctx hn).pre
      unfold step at hs
      split_ifs at hs
      dsimp only at hs
      rw [hctx] at hs
      dsimp only at hs
      rw [hn] at hs
      cases hs
      exact ⟨hproc, hpre, rfl⟩

/-! ## The accounts -/

theorem runtime_cons_of_eq (h : y.who = x) (l : List Slice) : runtime x (y :: l) = (y.tout - y.tin) + runtime x l := by
  simp [runtime, h]

theorem runtime_cons_of_ne (h : y.who ≠ x) (l : List Slice) : runtime x (y :: l) = runtime x l := by
  simp [runtime, h]

theorem runtime_eq_zero {l : List Slice} (h : ∀ y ∈ l, y.who ≠ x) : runtime x l = 0 := by
  have : l.filter (fun y => y.who = x) = [] := by
    rw [filter_eq_nil_iff]
    intro y hy
    simpa using h y hy
  simp [runtime, this]

theorem charged_cons_of_eq (h : y.cpu = c) (l : List Slice) : charged c (y :: l) = y.charge.toNat + charged c l := by
  simp [charged, h]

theorem charged_cons_of_ne (h : y.cpu ≠ c) (l : List Slice) : charged c (y :: l) = charged c l := by
  simp [charged, h]

/-- the accounts are right: those of every occupant that allocproc has set up, and those of every CPU -/
structure Accounts (s : Timed) : Prop where
  bare : ∀ j, (s.m.tbl.proc j).state = .UNUSED → (s.m.tbl.proc j).kstack = false
  clock : s.ticks = BitVec.ofNat 32 s.now
  /-- the process on a CPU is the occupant that was dispatched, and its ticks_begin is of that moment -/
  onCpu : ∀ c i, (s.m.cpu c).proc = some i → (s.m.tbl.proc i).Live ∧ s.gens c = s.m.tbl.gen i ∧
    (s.times i).ticksBegin = BitVec.ofNat 32 (s.since c) ∧ s.since c ≤ s.now ∧ (i, s.gens c) ∈ s.dispatches
  sched : ∀ j, (s.m.tbl.proc j).SetUp →
    (s.times j).schedTimes = BitVec.ofNat 32 (s.dispatches.count (j, s.m.tbl.gen j))
  total : ∀ j, (s.m.tbl.proc j).SetUp →
    (s.times j).ticksTotal = BitVec.ofNat 32 (runtime (j, s.m.tbl.gen j) s.slices)
  /-- an EMBRYO has not run yet -/
  fresh : ∀ x ∈ s.dispatches, x.2 ≤ s.m.tbl.gen x.1 ∧ (x.2 = s.m.tbl.gen x.1 → (s.m.tbl.proc x.1).state ≠ .EMBRYO)
  slice : ∀ y ∈ s.slices, y.who ∈ s.dispatches ∧ y.charge = BitVec.ofNat 32 (y.tout - y.tin)
  cpu : ∀ c, charged c s.slices ≤ s.now ∧ ∀ i, (s.m.cpu c).proc = some i → charged c s.slices ≤ s.since c

theorem Accounts.boot : Accounts .boot where
  bare _ _ := rfl
  clock := rfl
  onCpu _ _ h := nomatch h
  sched j h := by
    rcases h with h | h
    · exact absurd rfl h.1
    · exact nomatch h.1
  total j h := by
    rcases h with h | h
    · exact absurd rfl h.1
    · exact nomatch h.1
  fresh _ h := nomatch h
  slice _ h := nomatch h
  cpu _ := ⟨Nat.le_refl 0, nofun⟩

theorem Accounts.tick {s : Timed} (h : Accounts s) : Accounts { s with ticks := s.ticks + 1, now := s.now + 1 } where
  bare := h.bare
  clock := by
    show s.ticks + 1 = _
    rw [h.clock, ofNat_add]
    rfl
  onCpu c i hp := by
    obtain ⟨h1, h2, h3, h4, h5⟩ := h.onCpu c i hp
    exact ⟨h1, h2, h3, Nat.le_succ_of_le h4, h5⟩
  sched := h.sched
  total := h.total
  fresh := h.fresh
  slice := h.slice
  cpu c := ⟨Nat.le_succ_of_le (h.cpu c).1, (h.cpu c).2⟩

/-- an event that reaps nobody on a CPU; the end of allocproc clears the fields -/
theorem Accounts.event {s : Timed} (h : Accounts s) {times' : Slot → Times} (ev : Ev) (hpre : ev.Pre s.m.tbl)
    (htbl : m'.tbl = ev.apply s.m.tbl) (hreap : ∀ cur p, ev = .reap cur p → ∀ c, (s.m.cpu c).proc ≠ some p)
    (hproc : ∀ c, (m'.cpu c).proc = (s.m.cpu c).proc) (hsame : ∀ j, ev ≠ .kstackOk j → times' j = s.times j)
    (hzero : ∀ j, ev = .kstackOk j → times' j = ⟨0, 0, 0⟩) : Accounts { s with m := m', times := times' } := by
  -- a slot is either given a new occupant, or keeps its number
  have hslot : ∀ j, (ev = .alloc j ∧ m'.tbl.gen j = s.m.tbl.gen j + 1 ∧ (m'.tbl.proc j).state = .EMBRYO ∧
        (s.m.tbl.proc j).state = .UNUSED ∧ (m'.tbl.proc j).kstack = (s.m.tbl.proc j).kstack) ∨
      (m'.tbl.gen j = s.m.tbl.gen j ∧ Occupied ev j (s.m.tbl.proc j) (m'.tbl.proc j)) := by
    intro j
    by_cases ha : ev = .alloc j
    · subst ha
      have hfree : (s.m.tbl.proc j).state = .UNUSED := by simpa using find_spec (show s.m.tbl.findUnused = some j from hpre)
      have hself : m'.tbl.proc j = _ := (congrArg (fun t => t.proc j) htbl).trans (found_self s.m.tbl j)
      refine .inl ⟨rfl, ?_, by rw [hself], hfree, by rw [hself]⟩
      rw [htbl]
      exact update_self ..
    · right
      rw [htbl]
      refine ⟨?_, Ev.occupied hpre ha⟩
      by_cases ha' : ∃ np, ev = .alloc np
      · obtain ⟨np, rfl⟩ := ha'
        exact update_of_ne (fun e => ha (by rw [e])) ..
      · rw [(Ev.counters_eq _ fun np e => ha' ⟨np, e⟩).1]
  -- allocproc has not yet set up an occupant it has just taken in
  have hnot : ∀ j, ev = .alloc j → (m'.tbl.proc j).SetUp → False := by
    intro j ha hset
    obtain ⟨-, -, hemb, hfree, hks⟩ := (hslot j).resolve_right fun hr => by
      obtain ⟨hg, -⟩ := hr
      rw [htbl, ha] at hg
      have : (Ev.apply s.m.tbl (.alloc j)).gen j = s.m.tbl.gen j + 1 := update_self ..
      omega
    rcases hset with hset | ⟨-, hset⟩
    · exact hset.2 hemb
    · rw [hks, h.bare j hfree] at hset
      cases hset
  have hgen : ∀ j, (m'.tbl.proc j).SetUp → m'.tbl.gen j = s.m.tbl.gen j := by
    intro j hj
    rcases hslot j with ⟨ha, -⟩ | ⟨hg, -⟩
    · exact (hnot j ha hj).elim
    · exact hg
  have hset : ∀ j, ev ≠ .kstackOk j → (m'.tbl.proc j).SetUp → (s.m.tbl.proc j).SetUp := by
    intro j hne hj
    rcases hslot j with ⟨ha, -⟩ | ⟨-, hocc⟩
    · exact (hnot j ha hj).elim
    · exact (hocc.setUp hj).resolve_right hne
  -- an EMBRYO has neither been dispatched nor run
  have hnever : ∀ j, ev = .kstackOk j → ∀ x ∈ s.dispatches, x ≠ (j, s.m.tbl.gen j) := by
    rintro j rfl x hx rfl
    exact (h.fresh _ hx).2 rfl hpre
  refine ⟨fun j hj => ?_, h.clock, fun c i hp => ?_, fun j hj => ?_, fun j hj => ?_, fun x hx => ?_, h.slice,
    fun c => ⟨(h.cpu c).1, fun i hp => (h.cpu c).2 i ((hproc c).symm.trans hp)⟩⟩
  · rcases hslot j with ⟨-, -, hemb, -⟩ | ⟨-, hocc⟩
    · exact nomatch hemb.symm.trans hj
    · exact hocc.bare (h.bare j) hj
  · have hp' : (s.m.cpu c).proc = some i := (hproc c).symm.trans hp
    obtain ⟨h1, h2, h3, h4, h5⟩ := h.onCpu c i hp'
    have hne : ev ≠ .kstackOk i := by
      rintro rfl
      exact h1.2 hpre
    rcases hslot i with ⟨-, -, -, hfree, -⟩ | ⟨hg, hocc⟩
    · exact absurd hfree h1.1
    · refine ⟨(hocc.live h1).resolve_right ?_, h2.trans hg.symm, ?_, h4, h5⟩
      · rintro ⟨cur, hev⟩
        exact hreap cur i hev c hp'
      · show (times' i).ticksBegin = _
        rw [hsame i hne]
        exact h3
  · show (times' j).schedTimes = BitVec.ofNat 32 (s.dispatches.count (j, m'.tbl.gen j))
    rw [hgen j hj]
    by_cases hk : ev = .kstackOk j
    · rw [hzero j hk, count_eq_zero.2 fun hx => hnever j hk _ hx rfl]
      rfl
    · rw [hsame j hk]
      exact h.sched j (hset j hk hj)
  · show (times' j).ticksTotal = BitVec.ofNat 32 (runtime (j, m'.tbl.gen j) s.slices)
    rw [hgen j hj]
    by_cases hk : ev = .kstackOk j
    · rw [hzero j hk, runtime_eq_zero fun y hy => hnever j hk _ (h.slice y hy).1]
      rfl
    · rw [hsame j hk]
      exact h.total j (hset j hk hj)
  · obtain ⟨h1, h2⟩ := h.fresh x hx
    rcases hslot x.1 with ⟨-, hg, -⟩ | ⟨hg, hocc⟩
    · show x.2 ≤ m'.tbl.gen x.1 ∧ (x.2 = m'.tbl.gen x.1 → _)
      rw [hg]
      exact ⟨by omega, fun e => by omega⟩
    · show x.2 ≤ m'.tbl.gen x.1 ∧ (x.2 = m'.tbl.gen x.1 → (m'.tbl.proc x.1).state ≠ .EMBRYO)
      rw [hg]
      exact ⟨h1, fun e he => h2 e (hocc.grown he)⟩

theorem Accounts.congr {s : Timed} (h : Accounts s) (htbl : m'.tbl = s.m.tbl)
    (hproc : ∀ c, (m'.cpu c).proc = (s.m.cpu c).proc) : Accounts { s with m := m' } := by
  obtain ⟨h1, h2, h3, h4, h5, h6, h7, h8⟩ := h
  rw [← htbl] at h1 h3 h4 h5 h6
  simp only [← hproc] at h3 h8
  exact ⟨h1, h2, h3, h4, h5, h6, h7, h8⟩

/-- the scheduler of CPU c switches to process i, which is on no CPU -/
theorem Accounts.dispatch {s : Timed} (h : Accounts s) (htbl : m'.tbl = s.m.tbl)
    (hproc : ∀ c', (m'.cpu c').proc = if c' = c then some i else (s.m.cpu c').proc) (hlive : (s.m.tbl.proc i).Live)
    (hoff : ∀ c', (s.m.cpu c').proc ≠ some i) : Accounts { s.account (.dispatch c i) with m := m' } := by
  have hother : ∀ c' j, c' ≠ c → (m'.cpu c').proc = some j → (s.m.cpu c').proc = some j ∧ j ≠ i := by
    intro c' j hc hp
    rw [hproc, if_neg hc] at hp
    exact ⟨hp, fun e => hoff c' (e ▸ hp)⟩
  refine ⟨by rw [htbl]; exact h.bare, h.clock, fun c' j hp => ?_, fun j hj => ?_, fun j hj => ?_, fun x hx => ?_,
    fun y hy => ⟨mem_cons_of_mem _ (h.slice y hy).1, (h.slice y hy).2⟩, fun c' => ⟨(h.cpu c').1, fun j hp => ?_⟩⟩
  · show (m'.tbl.proc j).Live ∧ update s.gens c (s.m.tbl.gen i) c' = m'.tbl.gen j ∧
      (update s.times i _ j).ticksBegin = BitVec.ofNat 32 (update s.since c s.now c') ∧
      update s.since c s.now c' ≤ s.now ∧
      (j, update s.gens c (s.m.tbl.gen i) c') ∈ (i, s.m.tbl.gen i) :: s.dispatches
    rw [htbl]
    by_cases hc : c' = c
    · subst hc
      have hp' : (m'.cpu c').proc = some i := by rw [hproc, if_pos rfl]
      cases hp'.symm.trans hp
      simp only [update_self]
      exact ⟨hlive, trivial, h.clock, le_refl _, mem_cons_self⟩
    · obtain ⟨hp', hne⟩ := hother c' j hc hp
      simp only [update_of_ne hc, update_of_ne hne]
      obtain ⟨h1, h2, h3, h4, h5⟩ := h.onCpu c' j hp'
      exact ⟨h1, h2, h3, h4, mem_cons_of_mem _ h5⟩
  · show (update s.times i _ j).schedTimes
      = BitVec.ofNat 32 (((i, s.m.tbl.gen i) :: s.dispatches).count (j, m'.tbl.gen j))
    have hj' : (m'.tbl.proc j).SetUp := hj
    rw [htbl] at hj' ⊢
    by_cases hji : j = i
    · subst hji
      rw [update_self, count_cons_self, ofNat_add, ← h.sched j hj']
      rfl
    · rw [update_of_ne hji, count_cons_of_ne (fun e => hji (congrArg Prod.fst e).symm)]
      exact h.sched j hj'
  · show (update s.times i _ j).ticksTotal = BitVec.ofNat 32 (runtime (j, m'.tbl.gen j) s.slices)
    have hj' : (m'.tbl.proc j).SetUp := hj
    rw [htbl] at hj' ⊢
    rw [← h.total j hj']
    by_cases hji : j = i
    · subst hji
      rw [update_self]
    · rw [update_of_ne hji]
  · show x.2 ≤ m'.tbl.gen x.1 ∧ (x.2 = m'.tbl.gen x.1 → (m'.tbl.proc x.1).state ≠ .EMBRYO)
    rw [htbl]
    rcases mem_cons.1 hx with rfl | hx
    · exact ⟨le_refl _, fun _ => hlive.2⟩
    · exact h.fresh x hx
  · show charged c' s.slices ≤ update s.since c s.now c'
    by_cases hc : c' = c
    · subst hc
      rw [update_self]
      exact (h.cpu c').1
    · rw [update_of_ne hc]
      exact (h.cpu c').2 j (hother c' j hc hp).1

theorem Accounts.charge {s : Timed} (h : Accounts s) (htbl : m'.tbl = s.m.tbl)
    (hproc : ∀ c', (m'.cpu c').proc = if c' = c then none else (s.m.cpu c').proc) (hp : (s.m.cpu c).proc = some i) :
    Accounts { s.account (.charge c i) with m := m' } := by
  obtain ⟨hlive, hgen, hbegin, hle, hrun⟩ := h.onCpu c i hp
  -- the difference of the two readings of the clock is the length of the slice
  have hslice : s.ticks - (s.times i).ticksBegin = BitVec.ofNat 32 (s.now - s.since c) := by
    rw [h.clock, hbegin]
    have hnow : s.now = (s.now - s.since c) + s.since c := by omega
    have : BitVec.ofNat 32 s.now = BitVec.ofNat 32 (s.now - s.since c) + BitVec.ofNat 32 (s.since c) := by
      rw [← ofNat_add, ← hnow]
    rw [this]
    exact add_sub_cancel _ _
  have hwhole : (s.ticks - (s.times i).ticksBegin).toNat ≤ s.now - s.since c := by
    rw [hslice, toNat_ofNat]
    exact Nat.mod_le _ _
  have hkeep : ∀ c' j, (m'.cpu c').proc = some j → c' ≠ c ∧ (s.m.cpu c').proc = some j := by
    intro c' j hp'
    rw [hproc] at hp'
    by_cases hc : c' = c
    · rw [if_pos hc] at hp'
      cases hp'
    · rw [if_neg hc] at hp'
      exact ⟨hc, hp'⟩
  refine ⟨by rw [htbl]; exact h.bare, h.clock, fun c' j hp' => ?_, fun j hj => ?_, fun j hj => ?_,
    by rw [htbl]; exact h.fresh, fun y hy => ?_, fun c' => ?_⟩
  · obtain ⟨-, hp'⟩ := hkeep c' j hp'
    obtain ⟨h1, h2, h3, h4, h5⟩ := h.onCpu c' j hp'
    show (m'.tbl.proc j).Live ∧ s.gens c' = m'.tbl.gen j ∧
      (update s.times i _ j).ticksBegin = BitVec.ofNat 32 (s.since c') ∧ s.since c' ≤ s.now ∧ _
    rw [htbl]
    refine ⟨h1, h2, ?_, h4, h5⟩
    rw [← h3]
    by_cases hji : j = i
    · subst hji
      rw [update_self]
    · rw [update_of_ne hji]
  · show (update s.times i _ j).schedTimes = BitVec.ofNat 32 (s.dispatches.count (j, m'.tbl.gen j))
    have hj' : (m'.tbl.proc j).SetUp := hj
    rw [htbl] at hj' ⊢
    rw [← h.sched j hj']
    by_cases hji : j = i
    · subst hji
      rw [update_self]
    · rw [update_of_ne hji]
  · show (update s.times i _ j).ticksTotal
      = BitVec.ofNat 32 (runtime (j, m'.tbl.gen j) (⟨(i, s.gens c), c, s.since c, s.now, _⟩ :: s.slices))
    have hj' : (m'.tbl.proc j).SetUp := hj
    rw [htbl] at hj' ⊢
    by_cases hji : j = i
    · -- the slot has still the occupant that was dispatched
      subst hji
      rw [update_self, runtime_cons_of_eq (by rw [hgen])]
      dsimp only
      rw [ofNat_add, ← hslice, ← h.total j hj']
      exact BitVec.add_comm _ _
    · have hne : ((i, s.gens c) : Slot × ℕ) ≠ (j, s.m.tbl.gen j) := fun e => hji (congrArg Prod.fst e).symm
      rw [update_of_ne hji, runtime_cons_of_ne hne]
      exact h.total j hj'
  · rcases mem_cons.1 hy with rfl | hy
    · exact ⟨hrun, hslice⟩
    · exact h.slice y hy
  · show charged c' (⟨(i, s.gens c), c, s.since c, s.now, _⟩ :: s.slices) ≤ s.now ∧ ∀ j, _ → _ ≤ s.since c'
    by_cases hc : c' = c
    · subst hc
      have hbefore := (h.cpu c').2 i hp
      refine ⟨?_, fun j hp' => absurd rfl (hkeep c' j hp').1⟩
      rw [charged_cons_of_eq (by rfl)]
      dsimp only
      omega
    · have hsame : charged c' (s.account (.charge c i)).slices = charged c' s.slices :=
        charged_cons_of_ne (fun e => hc e.symm) _
      exact ⟨hsame.trans_le (h.cpu c').1, fun j hp' => hsame.trans_le ((h.cpu c').2 j (hkeep c' j hp').2)⟩

/-- **One step keeps the accounts.** -/
theorem Accounts.step {s s' : Timed} (hinv : Inv s.m) (h : Accounts s) (hs : Timed.Step s s') : Accounts s' := by
  cases hs with
  | tick => exact h.tick
  | @act a m' hs =>
    have hm := step_marked hinv hs
    cases hmark : mark s.m a with
    | none =>
      rw [hmark] at hm
      obtain ⟨hproc, htbl | ⟨ev, hpre, htbl, hk, hreap⟩⟩ := hm
      · exact h.congr htbl hproc
      · exact h.event _ hpre htbl hreap hproc (fun _ _ => rfl) fun j e => absurd e (hk j)
    | reset np =>
      rw [hmark] at hm
      obtain ⟨hproc, hemb, htbl⟩ := hm
      refine h.event (.kstackOk np) hemb htbl nofun hproc (fun j hne => ?_) fun j e => ?_
      · exact update_of_ne (fun e => hne (by rw [e])) ..
      · cases e
        exact update_self ..
    | dispatch c i =>
      rw [hmark] at hm
      obtain ⟨hproc, hr, htbl, -, hoff⟩ := hm
      -- first the table, then the accounts of the process that is RUNNING now
      have h1 : Accounts { s with m := { s.m with tbl := (Ev.dispatch i).apply s.m.tbl } } :=
        h.event (.dispatch i) hr rfl nofun (fun _ => rfl) (fun _ _ => rfl) nofun
      have hrunning : ((Ev.dispatch i).apply s.m.tbl).proc i = { s.m.tbl.proc i with state := .RUNNING } :=
        modify_self s.m.tbl i fun p => { p with state := .RUNNING }
      exact h1.dispatch htbl hproc (live_of_running (congrArg Proc.state hrunning)) hoff
    | charge c i =>
      rw [hmark] at hm
      obtain ⟨hproc, hp, htbl⟩ := hm
      exact h.charge htbl hproc hp

theorem Timed.Reachable.inv {s : Timed} (h : Timed.Reachable s) : Inv s.m := by
  induction h with
  | boot => exact boot_inv
  | step _ hs ih =>
    cases hs with
    | tick => exact ih
    | act hs => exact step_inv ih hs

theorem Timed.Reachable.accounts {s : Timed} (h : Timed.Reachable s) : Accounts s := by
  induction h with
  | boot => exact .boot
  | step h hs ih => exact ih.step h.inv hs

/-- **CPU-time accounting is conserved.** For any number of CPUs, in every reachable state: the sched_times of every
process that allocproc has set up is the number of its dispatches, and its ticks_total is the sum of its completed
slices, both modulo 2^32; every completed slice belongs to an occupant that was dispatched and was charged its length;
whenever the scheduler charges a process, the slot has the occupant that was dispatched, whatever became of it; and what
a CPU has charged altogether is at most the number of ticks since boot. -/
theorem cpu_time_conserved (s : Timed) (h : Timed.Reachable s) : (∀ j, (s.m.tbl.proc j).SetUp →
      (s.times j).schedTimes = BitVec.ofNat 32 (s.dispatches.count (j, s.m.tbl.gen j)) ∧
      (s.times j).ticksTotal = BitVec.ofNat 32 (runtime (j, s.m.tbl.gen j) s.slices)) ∧
    (∀ y ∈ s.slices, y.who ∈ s.dispatches ∧ y.charge = BitVec.ofNat 32 (y.tout - y.tin)) ∧
    (∀ a m' c i, Ptable.step s.m a = some m' → mark s.m a = .charge c i → s.gens c = s.m.tbl.gen i ∧ (s.m.tbl.proc i).Live) ∧
    ∀ c, charged c s.slices ≤ s.now := by
  have hacc := h.accounts
  refine ⟨fun j hj => ⟨hacc.sched j hj, hacc.total j hj⟩, hacc.slice, fun a m' c i hs hm => ?_, fun c => (hacc.cpu c).1⟩
  have hmarked := step_marked h.inv hs
  rw [hm] at hmarked
  obtain ⟨hlive, hgen, -⟩ := hacc.onCpu c i hmarked.2.1
  exact ⟨hgen, hlive⟩

/-- a run of the machine with its clock: an act, or none for a tick -/
def Timed.run (s : Timed) : List (Option Act) → Option Timed
  | [] => some s
  | none :: l => run { s with ticks := s.ticks + 1, now := s.now + 1 } l
  | some a :: l =>
    match Ptable.step s.m a with
    | none => none
    | some m' => run { s.account (mark s.m a) with m := m' } l

theorem Timed.Reachable.run {s s' : Timed} (h : Timed.Reachable s) {l : List (Option Act)} (hr : s.run l = some s') :
    Timed.Reachable s' := by
  induction l generalizing s with
  | nil =>
    cases hr
    exact h
  | cons x l ih =>
    cases x with
    | none => exact ih (h.step (.tick s)) hr
    | some a =>
      unfold Timed.run at hr
      cases hs : Ptable.step s.m a with
      | none => rw [hs] at hr; cases hr
      | some m' =>
        rw [hs] at hr
        exact ih (h.step (.act hs)) hr

/-- init is dispatched, three ticks pass, init goes to sleep, and the scheduler charges it -/
def sleepActs : List (Option Act) :=
  bootActs.map some ++ [none, none, none, some (.call 0 (.sleep 7)), some (.run 0 true), some (.run 0 true),
    some (.run 0 true), some (.cpu 0)]

theorem cpu_time_conserved_example : ∃ s, Timed.Reachable s ∧ (s.m.tbl.proc 0).state = .SLEEPING ∧ s.now = 3 ∧
    runtime (0, 1) s.slices = 3 ∧ (s.times 0).ticksTotal = 3 ∧ (s.times 0).schedTimes = 1 ∧ charged 0 s.slices ≤ 3 := by
  have hrun : ((Timed.boot.run sleepActs).any fun s => decide ((s.m.tbl.proc 0).state = .SLEEPING ∧ s.now = 3 ∧
      runtime (0, 1) s.slices = 3 ∧ s.m.tbl.gen 0 = 1 ∧ s.dispatches.count (0, 1) = 1)) = true := by decide +kernel
  obtain ⟨s, hs, hp⟩ := (Option.any_eq_true _ _).1 hrun
  obtain ⟨hst, hnow, hrt, hgen, hcount⟩ := of_decide_eq_true hp
  have h : Timed.Reachable s := Timed.Reachable.boot.run hs
  obtain ⟨hslot, -, -, hcpu⟩ := cpu_time_conserved s h
  obtain ⟨h1, h2⟩ := hslot 0 (.inl ⟨by rw [hst]; nofun, by rw [hst]; nofun⟩)
  rw [hgen, hcount] at h1
  rw [hgen, hrt] at h2
  exact ⟨s, h, hst, hnow, hrt, h2, h1, hnow ▸ hcpu 0⟩

end Xv6.Ptable
