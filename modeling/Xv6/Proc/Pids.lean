/-
The pid and the nice value of a process, over whole runs of the machine of CPUs, kernel threads and ptable.lock.

A process is an occupant of a slot, from the allocproc that takes the slot on. `Occupied` says what an event can do to
the occupant of a slot that it does not allocate; the results follow from it along a run.

- `pids_distinct`: as long as allocproc was passed fewer than 2^31 times, the pids of all slots in use are positive and
  distinct;
- `pids_wrap`: nextpid is not checked against its limit or against the pids in use. After 2^31 - 1 passes fork returns a
  negative pid, and after 2^32 it gives out the pid of init again;
- `renice_kept`: a renice that returns 0 holds until the next renice of that pid or until the process is reaped, if the
  process was not EMBRYO at the time;
- `renice_lost`: the nice value that renice gives to an EMBRYO is overwritten by the fork that fills the slot in.
-/
import Xv6.Proc.Protocol

namespace Xv6.Ptable

open Finset
open Lottery (ProcState)

/-! ## The occupant of a slot -/

/-- past fork or userinit, and not reaped -/
def Proc.Live (p : Proc) : Prop := p.state ≠ .UNUSED ∧ p.state ≠ .EMBRYO

/-- allocproc has returned it: live, or EMBRYO with a kernel stack -/
def Proc.SetUp (p : Proc) : Prop := p.Live ∨ p.state = .EMBRYO ∧ p.kstack = true

/-- what an event does to the occupant of slot j: it stays the same process with the same pid as long as the slot is in
use, it does not become EMBRYO again, it is live until it is reaped, only allocproc sets it up, its nice value is set
only while it is EMBRYO or by renice of its pid, and its slot is given back without a kernel stack -/
structure Occupied (ev : Ev) (j : Slot) (p p' : Proc) : Prop where
  used : p'.state ≠ .UNUSED → p.state ≠ .UNUSED
  pid : p'.state ≠ .UNUSED → p'.pid = p.pid
  grown : p'.state = .EMBRYO → p.state = .EMBRYO
  live : p.Live → p'.Live ∨ ∃ cur, ev = .reap cur j
  setUp : p'.SetUp → p.SetUp ∨ ev = .kstackOk j
  nice : p'.niceValue = p.niceValue ∨ p.state = .EMBRYO ∨ ∃ v, ev = .renice v p.pid
  bare : (p.state = .UNUSED → p.kstack = false) → p'.state = .UNUSED → p'.kstack = false

theorem Occupied.refl (ev : Ev) (j : Slot) (p : Proc) : Occupied ev j p p :=
  ⟨id, fun _ => rfl, id, .inl, .inl, .inl rfl, id⟩

variable {i j : Slot} {ev : Ev} {p p' : Proc} {t : Table} {s s' : Machine} {c : ℕ}

theorem modify_occupied (t : Table) (ev : Ev) (f : Proc → Proc)
    (h : j = i → Occupied ev j (t.proc i) (f (t.proc i))) : Occupied ev j (t.proc j) ((t.modify i f).proc j) := by
  by_cases hj : j = i
  · subst hj
    rw [modify_self]
    exact h rfl
  · rw [modify_of_ne t hj]
    exact .refl ev j _

theorem Occupied.of_live (h : p.Live) (h' : p'.Live) (hp : p'.pid = p.pid)
    (hn : p'.niceValue = p.niceValue) : Occupied ev j p p' :=
  ⟨fun _ => h.1, fun _ => hp, fun e => absurd e h'.2, fun _ => .inl h', fun _ => .inl (.inl h), .inl hn,
    fun _ e => absurd e h'.1⟩

theorem Occupied.of_mark (hs : p'.state = p.state) (hk : p'.kstack = p.kstack) (hp : p'.pid = p.pid)
    (hn : p'.niceValue = p.niceValue ∨ p.state = .EMBRYO ∨ ∃ v, ev = .renice v p.pid) : Occupied ev j p p' := by
  refine ⟨fun e => by rwa [hs] at e, fun _ => hp, fun e => by rwa [hs] at e, fun e => .inl ?_, fun e => .inl ?_, hn,
    fun hb e => ?_⟩
  · unfold Proc.Live at *
    rwa [hs]
  · unfold Proc.SetUp Proc.Live at *
    rwa [hs, hk] at e
  · rw [hk]
    exact hb (hs ▸ e)

theorem Occupied.of_born (h : p.state = .EMBRYO) (hk : p.kstack = true) (h' : p'.Live)
    (hp : p'.pid = p.pid) : Occupied ev j p p' :=
  ⟨fun _ e => (nomatch h.symm.trans e), fun _ => hp, fun _ => h, fun _ => .inl h', fun _ => .inl (.inr ⟨h, hk⟩),
    .inr (.inl h), fun _ e => absurd e h'.1⟩

theorem Occupied.of_free (h : ¬ p.Live ∨ ∃ cur, ev = .reap cur j)
    (h' : p'.state = .UNUSED) (hk : p'.kstack = false) (hn : p'.niceValue = p.niceValue) : Occupied ev j p p' := by
  refine ⟨fun e => absurd h' e, fun e => absurd h' e, fun e => (nomatch h'.symm.trans e), fun e => .inr ?_, fun e => ?_,
    .inl hn, fun _ _ => hk⟩
  · exact h.resolve_left fun hn => hn e
  · rcases e with e | ⟨e, -⟩
    · exact absurd h' e.1
    · exact nomatch h'.symm.trans e

theorem not_live_embryo (h : p.state = .EMBRYO) : ¬ p.Live := fun e => e.2 h

theorem live_of_running (h : p.state = .RUNNING) : p.Live := ⟨by rw [h]; nofun, by rw [h]; nofun⟩

theorem live_of_runnable (h : p.state = .RUNNABLE) : p.Live := ⟨by rw [h]; nofun, by rw [h]; nofun⟩

theorem Roused.occupied (h : Roused p p') (ev : Ev) (j : Slot) : Occupied ev j p p' := by
  rcases h with rfl | ⟨hs, rfl⟩
  · exact .refl ev j _
  · exact .of_live ⟨by rw [hs]; nofun, by rw [hs]; nofun⟩ (live_of_runnable rfl) rfl rfl

/-- **What an event does to an occupant**, if it does not allocate the slot. -/
theorem Ev.occupied (hpre : ev.Pre t) (hj : ev ≠ .alloc j) : Occupied ev j (t.proc j) ((ev.apply t).proc j) := by
  unfold Ev.apply
  cases ev with
  | alloc np =>
    show Occupied _ _ _ ((t.found np).proc j)
    rw [found_of_ne t fun e => hj (by rw [e])]
    exact .refl _ _ _
  | kstackFail np | copyFail np => exact modify_occupied t _ _ fun _ => .of_free (.inl (not_live_embryo hpre)) rfl rfl rfl
  | kstackOk np =>
    refine modify_occupied t _ _ fun e => ⟨id, fun _ => rfl, id, .inl, fun _ => ?_, .inr (.inl hpre), fun _ e => ?_⟩
    · rw [e]
      exact .inr rfl
    · exact nomatch (show (t.proc np).state = .EMBRYO from hpre).symm.trans e
  | copyOk np | setParent np cur | tidy cur | fault cur => exact modify_occupied t _ _ fun _ => .of_mark rfl rfl rfl (.inl rfl)
  | publish np => exact modify_occupied t _ _ fun _ => .of_born hpre.1 hpre.2.1 (live_of_runnable rfl) rfl
  | yield cur => exact modify_occupied t _ _ fun _ => .of_live (live_of_running hpre) (live_of_runnable rfl) rfl rfl
  | sleep cur n => exact modify_occupied t _ _ fun _ => .of_live (live_of_running hpre) ⟨nofun, nofun⟩ rfl rfl
  | waitSleep cur => exact modify_occupied t _ _ fun _ => .of_live (live_of_running hpre.1) ⟨nofun, nofun⟩ rfl rfl
  | reap cur p =>
    show Occupied _ _ _ ((t.reap p).proc j)
    exact modify_occupied t _ _ fun e => .of_free (.inr ⟨cur, by rw [e]⟩) rfl rfl rfl
  | wakeup n => exact (wake_roused _ _).occupied _ _
  | kill pid =>
    show Occupied _ _ _ ((t.kill pid).1.proc j)
    rcases kill_cases t pid with ⟨e, -⟩ | ⟨p, q, -, -, hq, e⟩
    · rw [e]
      exact .refl _ _ _
    · rw [e]
      obtain ⟨h1, h2, h3, h4, h5, h6, h7⟩ := hq.occupied (.kill pid) j
      exact modify_occupied t _ (fun _ => { q with killed := true }) fun _ => ⟨h1, h2, h3, h4, h5, h6, h7⟩
  | renice v pid =>
    show Occupied _ _ _ (if _ then _ else _)
    by_cases hm : (t.proc j).state ≠ .UNUSED ∧ (t.proc j).pid = pid
    · rw [if_pos hm]
      exact .of_mark rfl rfl rfl (.inr (.inr ⟨v, by rw [hm.2]⟩))
    · rw [if_neg hm]
      exact .refl _ _ _
  | exit cur =>
    have hx := exited_exit t cur
    show Occupied _ _ _ ((t.exit cur).proc j)
    generalize t.exit cur = t' at hx
    by_cases hc : j = cur
    · subst hc
      obtain ⟨q, hq, he⟩ := hx.self
      rw [he]
      refine .of_live (live_of_running hpre.1) ⟨nofun, nofun⟩ ?_ ?_
      · rcases hq with rfl | ⟨-, rfl⟩ <;> rfl
      · rcases hq with rfl | ⟨-, rfl⟩ <;> rfl
    · obtain ⟨q, hq, he⟩ := hx.other j hc
      obtain ⟨h1, h2, h3, h4, h5, h6, h7⟩ := hq.occupied (.exit cur) j
      rw [he]
      exact ⟨h1, h2, h3, h4, h5, h6, h7⟩
  | dispatch p => exact modify_occupied t _ _ fun _ => .of_live (live_of_runnable hpre) (live_of_running rfl) rfl rfl
  | setInit np => exact .refl _ _ _
  | initRun np => exact modify_occupied t _ _ fun _ => .of_born hpre.1 hpre.2.2.1 (live_of_runnable rfl) rfl

theorem Ev.counters_eq (t : Table) (h : ∀ np, ev ≠ .alloc np) : (ev.apply t).gen = t.gen ∧ (ev.apply t).nextpid = t.nextpid := by
  unfold Ev.apply
  cases ev with
  | alloc np => exact absurd rfl (h np)
  | kill pid =>
    rcases kill_cases t pid with ⟨e, -⟩ | ⟨p, q, -, -, -, e⟩
    · simp only [e]
      exact ⟨trivial, trivial⟩
    · simp only [e]
      exact ⟨rfl, rfl⟩
  | exit cur =>
    have hx := (exited_exit t cur).same
    dsimp only
    generalize t.exit cur = t' at hx
    rw [hx]
    exact ⟨rfl, rfl⟩
  | _ => exact ⟨rfl, rfl⟩

/-! ## Pids -/

/-- how often allocproc has taken a slot -/
def Table.passes (t : Table) : ℕ := ∑ i, t.gen i

/-- nextpid counts the passes, and the slots in use hold pids that were given out, none twice -/
structure PidsOk (t : Table) : Prop where
  next : t.nextpid.toNat = t.passes + 1
  given : ∀ i, (t.proc i).state ≠ .UNUSED → 0 < (t.proc i).pid.toNat ∧ (t.proc i).pid.toNat ≤ t.passes
  distinct : ∀ i j, (t.proc i).state ≠ .UNUSED → (t.proc j).state ≠ .UNUSED → (t.proc i).pid = (t.proc j).pid → i = j

theorem passes_found (t : Table) (np : Slot) : (t.found np).passes = t.passes + 1 := by
  unfold Table.passes
  show ∑ i, update t.gen np (t.gen np + 1) i = _
  rw [sum_update_of_mem (mem_univ np), ← sum_erase_add _ _ (mem_univ np),
    sdiff_singleton_eq_erase]
  omega

theorem PidsOk.found (h : PidsOk t) (np : Slot) (hlt : t.passes + 1 < 2 ^ 32 - 1) : PidsOk (t.found np) := by
  have hpasses := passes_found t np
  have hnext := h.next
  -- the pid given out now is larger than all pids in use
  have hfresh : ∀ j, j ≠ np → (t.proc j).state ≠ .UNUSED → (t.proc j).pid ≠ t.nextpid := by
    intro j _ hu e
    have := (h.given j hu).2
    rw [e] at this
    omega
  refine ⟨?_, fun i hu => ?_, fun i j hi hj e => ?_⟩
  · show (t.nextpid + 1).toNat = _
    rw [hpasses, BitVec.toNat_add, hnext]
    show (t.passes + 1 + 1) % 2 ^ 32 = _
    omega
  · by_cases hi : i = np
    · subst hi
      rw [found_self, hpasses]
      show 0 < t.nextpid.toNat ∧ t.nextpid.toNat ≤ _
      omega
    · rw [found_of_ne t hi] at hu ⊢
      have := h.given i hu
      omega
  · by_cases hi' : i = np
    · by_cases hj' : j = np
      · rw [hi', hj']
      · subst hi'
        rw [found_self, found_of_ne t hj'] at e
        rw [found_of_ne t hj'] at hj
        exact absurd e.symm (hfresh j hj' hj)
    · by_cases hj' : j = np
      · subst hj'
        rw [found_self, found_of_ne t hi'] at e
        rw [found_of_ne t hi'] at hi
        exact absurd e (hfresh i hi' hi)
      · rw [found_of_ne t hi', found_of_ne t hj'] at e
        rw [found_of_ne t hi'] at hi
        rw [found_of_ne t hj'] at hj
        exact h.distinct i j hi hj e

theorem PidsOk.apply (h : PidsOk t) (hpre : ev.Pre t) (hlt : (ev.apply t).passes < 2 ^ 32 - 1) : PidsOk (ev.apply t) := by
  by_cases ha : ∃ np, ev = .alloc np
  · obtain ⟨np, rfl⟩ := ha
    exact h.found np (by rw [← passes_found t np]; exact hlt)
  · have hne : ∀ np, ev ≠ .alloc np := fun np e => ha ⟨np, e⟩
    obtain ⟨hgen, hnext⟩ := Ev.counters_eq t hne
    have hpasses : (ev.apply t).passes = t.passes := by unfold Table.passes; rw [hgen]
    have hocc : ∀ j, Occupied ev j (t.proc j) ((ev.apply t).proc j) := fun j => Ev.occupied hpre (hne j)
    refine ⟨by rw [hnext, hpasses]; exact h.next, fun i hu => ?_, fun i j hi hj e => ?_⟩
    · rw [(hocc i).pid hu, hpasses]
      exact h.given i ((hocc i).used hu)
    · rw [(hocc i).pid hi, (hocc j).pid hj] at e
      exact h.distinct i j ((hocc i).used hi) ((hocc j).used hj) e

theorem passes_mono (t : Table) (ev : Ev) : t.passes ≤ (ev.apply t).passes := by
  by_cases ha : ∃ np, ev = .alloc np
  · obtain ⟨np, rfl⟩ := ha
    have : (Ev.apply t (.alloc np)).passes = t.passes + 1 := passes_found t np
    omega
  · have hgen := (Ev.counters_eq t fun np e => ha ⟨np, e⟩).1
    unfold Table.passes
    rw [hgen]

theorem reach_pids (h : Reachable s) (hlt : s.tbl.passes < 2 ^ 32 - 1) : PidsOk s.tbl := by
  induction h with
  | boot => exact ⟨by decide, fun i hu => absurd rfl hu, fun i j hu => absurd rfl hu⟩
  | step h hg hs ih =>
    rcases step_table (reach_inv h) hs with e | ⟨ev, hpre, e, -⟩
    · rw [e] at hlt ⊢
      exact ih hlt
    · rw [e] at hlt ⊢
      exact (ih (lt_of_le_of_lt (passes_mono _ ev) hlt)).apply hpre hlt

/-- **Pids identify processes, before nextpid passes the largest int.** In every reachable state that allocproc has been
passed fewer than 2^31 times to reach, the pids of the slots in use are positive ints and pairwise distinct. -/
theorem pids_distinct (s : Machine) (h : Reachable s) (hlt : s.tbl.passes < 2 ^ 31) :
    (∀ i, (s.tbl.proc i).state ≠ .UNUSED → 0 < (s.tbl.proc i).pid.toInt) ∧
    ∀ i j, (s.tbl.proc i).state ≠ .UNUSED → (s.tbl.proc j).state ≠ .UNUSED →
      (s.tbl.proc i).pid = (s.tbl.proc j).pid → i = j := by
  have hok := reach_pids h (by omega)
  refine ⟨fun i hu => ?_, hok.distinct⟩
  obtain ⟨hpos, hle⟩ := hok.given i hu
  rw [BitVec.toInt_eq_toNat_of_lt (by omega)]
  omega

/-- init has forked: pids 1 and 2 -/
theorem pids_distinct_example : ∃ s, Reachable s ∧ s.tbl.passes = 2 ∧ (s.tbl.proc 0).state = .RUNNING ∧
    (s.tbl.proc 1).state = .EMBRYO ∧ 0 < (s.tbl.proc 1).pid.toInt ∧ (s.tbl.proc 0).pid ≠ (s.tbl.proc 1).pid := by
  obtain ⟨s, h, hp, h0, h1⟩ := exists_run (fun _ _ => True) (bootActs ++ forkActs)
    (P := fun s => s.tbl.passes = 2 ∧ (s.tbl.proc 0).state = .RUNNING ∧ (s.tbl.proc 1).state = .EMBRYO)
    (by decide +kernel)
  have key := pids_distinct s h (by rw [hp]; decide)
  have hu0 : (s.tbl.proc 0).state ≠ .UNUSED := by rw [h0]; nofun
  have hu1 : (s.tbl.proc 1).state ≠ .UNUSED := by rw [h1]; nofun
  exact ⟨s, h, hp, h0, h1, key.1 1 hu1, fun e => absurd (key.2 0 1 hu0 hu1 e) (by decide)⟩

/-- a process in user code with nothing in its way: it can begin a call, and allocproc would take slot np -/
structure Idle (s : Machine) (c : ℕ) (i np : Slot) : Prop where
  panic : s.panic = none
  lock : s.lock = none
  ctx : (s.cpu c).ctx = .run i
  pc : s.pc i = .free .user
  room : s.tbl.findUnused = some np

theorem step_call (hp : s.panic = none) (hctx : (s.cpu c).ctx = .run i)
    (hpc : s.pc i = .free .user) (op : Op) : step s (.call c op) = s.perform c i (entry s.tbl i op) := by
  unfold step
  rw [hp]
  simp [hctx, hpc]

theorem Reach.next {n : Next} (h : Reachable s) (ok : Bool) (hp : s.panic = none)
    (hctx : (s.cpu c).ctx = .run i) (hn : nextOf s c i ok = n) (hs : s.perform c i n = some s') : Reachable s' := by
  refine h.step (a := .run c ok) trivial ?_
  unfold Ptable.step
  rw [hp]
  simp [hctx, hn, hs]

/-- the machine when the process that calls fork has taken slot np and given up ptable.lock again -/
def Machine.claimed (s : Machine) (i np : Slot) : Machine := (s.emit (.alloc np)).setPc i (.free (.fork1 np))

theorem reach_claimed (h : Reachable s) {np : Slot} (hs : Idle s c i np) : Reachable (s.claimed i np) := by
  have h1 : Reachable (s.setPc i (.free (.want .fork))) := h.step trivial (step_call hs.panic hs.ctx hs.pc .fork)
  have h2 : Reachable { s.setPc i (.crit .fork) with lock := some c } := by
    refine h1.next true hs.panic hs.ctx (n := .acquire (.crit .fork)) (by simp [nextOf, Machine.setPc]) ?_
    simp [Machine.perform, Machine.setPc, hs.lock]
  have h3 : Reachable { (s.emit (.alloc np)).setPc i (.rel (.fork1 np)) with lock := some c } := by
    have hroom := hs.room
    refine h2.next true hs.panic hs.ctx (n := .emit (.alloc np) (.rel (.fork1 np))) ?_ ?_
    · simp [nextOf, Machine.setPc, body, hroom]
    · simp [Machine.perform, Machine.setPc, Machine.emit, Ev.contexts]
  refine h3.next true hs.panic hs.ctx (n := .release (.free (.fork1 np))) (by simp [nextOf, Machine.setPc]) ?_
  simp [Machine.perform, Machine.setPc, Machine.emit, Ev.contexts, Machine.claimed, hs.lock]

/-- fork fails for lack of a kernel stack: everything is as before, but for the pid that is gone and its trace in np -/
theorem reach_fork_fails (h : Reachable s) {np : Slot} (hs : Idle s c i np) :
    ∃ s', Reachable s' ∧ Idle s' c i np ∧ s'.tbl.nextpid = s.tbl.nextpid + 1 ∧ ∀ j, j ≠ np → s'.tbl.proc j = s.tbl.proc j := by
  have hproc : ∀ j, (((s.claimed i np).emit (.kstackFail np)).tbl.proc j) =
      if j = np then { s.tbl.proc np with state := .UNUSED, pid := s.tbl.nextpid, kstack := false } else s.tbl.proc j := by
    intro j
    show ((s.tbl.found np).modify np fun p => { p with kstack := false, state := .UNUSED }).proc j = _
    by_cases hj : j = np
    · subst hj
      rw [modify_self, found_self, if_pos rfl]
    · rw [modify_of_ne _ hj, found_of_ne _ hj, if_neg hj]
  refine ⟨((s.claimed i np).emit (.kstackFail np)).setPc i (.free .user), ?_, ⟨hs.panic, hs.lock, hs.ctx, ?_, ?_⟩, rfl,
    fun j hj => ?_⟩
  · refine (reach_claimed h hs).next false hs.panic hs.ctx (n := .emit (.kstackFail np) (.free .user)) ?_ rfl
    simp [nextOf, Machine.claimed, Machine.setPc]
  · simp [Machine.setPc]
  · -- the search sees the same states
    have hroom := hs.room
    have hnp : (s.tbl.proc np).state = .UNUSED := by simpa using find_spec hroom
    rw [← hroom]
    unfold Table.findUnused Table.find
    congr 1
    funext j
    show decide ((((s.claimed i np).emit (.kstackFail np)).tbl.proc j).state = .UNUSED) = _
    rw [hproc j]
    by_cases hj : j = np
    · subst hj
      simp [hnp]
    · rw [if_neg hj]
  · show ((s.claimed i np).emit (.kstackFail np)).tbl.proc j = _
    rw [hproc j, if_neg hj]

theorem reach_forks_fail (n : ℕ) : ∃ s, Reachable s ∧ Idle s 0 0 1 ∧ s.tbl.nextpid = BitVec.ofNat 32 (n + 2) ∧
    (s.tbl.proc 0).state = .RUNNING ∧ (s.tbl.proc 0).pid = 1 := by
  induction n with
  | zero =>
    obtain ⟨s, h, ⟨h1, h2, h3, h4, h5⟩, h6, h7, h8⟩ := exists_run (fun _ _ => True) bootActs
      (P := fun s => (s.panic = none ∧ s.lock = none ∧ (s.cpu 0).ctx = .run 0 ∧ s.pc 0 = .free .user ∧
        s.tbl.findUnused = some 1) ∧ s.tbl.nextpid = BitVec.ofNat 32 2 ∧ (s.tbl.proc 0).state = .RUNNING ∧
        (s.tbl.proc 0).pid = 1) (by decide +kernel)
    exact ⟨s, h, ⟨h1, h2, h3, h4, h5⟩, h6, h7, h8⟩
  | succ n ih =>
    obtain ⟨s, h, hs, hnext, hst, hpid⟩ := ih
    obtain ⟨s', h', hs', hnext', hsame⟩ := reach_fork_fails h hs
    have h0 : s'.tbl.proc 0 = s.tbl.proc 0 := hsame 0 (by decide)
    refine ⟨s', h', hs', ?_, by rw [h0]; exact hst, by rw [h0]; exact hpid⟩
    rw [hnext', hnext, show n + 1 + 2 = n + 2 + 1 from rfl, BitVec.ofNat_add (n + 2) 1]
    rfl

/-- init's next fork takes slot 1 with the pid that comes next -/
theorem reach_claims (n : ℕ) : ∃ s, Reachable s ∧ (s.tbl.proc 0).state = .RUNNING ∧ (s.tbl.proc 0).pid = 1 ∧
    (s.tbl.proc 1).state = .EMBRYO ∧ (s.tbl.proc 1).pid = BitVec.ofNat 32 (n + 2) := by
  obtain ⟨s, h, hs, hnext, hst, hpid⟩ := reach_forks_fail n
  have h0 : (s.claimed 0 1).tbl.proc 0 = s.tbl.proc 0 := found_of_ne s.tbl (by decide)
  have h1 : (s.claimed 0 1).tbl.proc 1 = _ := found_self s.tbl 1
  exact ⟨_, reach_claimed h hs, by rw [h0]; exact hst, by rw [h0]; exact hpid, by rw [h1], by rw [h1]; exact hnext⟩

/-- **Pids wrap.** init calls fork again and again, kalloc finding no page: each call passes allocproc and uses up a pid.
After 2^31 - 2 such calls the next fork takes a slot with the pid -2^31, and after 2^32 - 1 with the pid of init, which
is still running. -/
theorem pids_wrap : (∃ s, Reachable s ∧ ∃ i, (s.tbl.proc i).state ≠ .UNUSED ∧ (s.tbl.proc i).pid.toInt ≤ 0) ∧
    ∃ s, Reachable s ∧ ∃ i j, i ≠ j ∧ (s.tbl.proc i).state ≠ .UNUSED ∧ (s.tbl.proc j).state ≠ .UNUSED ∧
      (s.tbl.proc i).pid = (s.tbl.proc j).pid := by
  constructor
  · obtain ⟨s, h, -, -, hst, hpid⟩ := reach_claims (2 ^ 31 - 2)
    refine ⟨s, h, 1, by rw [hst]; nofun, ?_⟩
    rw [hpid]
    decide
  · obtain ⟨s, h, hst0, hpid0, hst, hpid⟩ := reach_claims (2 ^ 32 - 1)
    refine ⟨s, h, 0, 1, by decide, by rw [hst0]; nofun, by rw [hst]; nofun, ?_⟩
    rw [hpid0, hpid]
    decide

/-! ## renice -/

/-- the states that follow s when every step satisfies the guard -/
inductive Since (guard : Machine → Act → Prop) (s : Machine) : Machine → Prop where
  | refl : Since guard s s
  | step {s1 s2 a} (h : Since guard s s1) (hg : guard s1 a) (hs : step s1 a = some s2) : Since guard s s2

theorem Since.reachable {guard : Machine → Act → Prop} (h : Reachable s) (hs : Since guard s s') : Reachable s' := by
  induction hs with
  | refl => exact h
  | step _ _ hs ih => exact ih.step trivial hs

theorem since_run {guard : Machine → Act → Prop} [∀ s a, Decidable (guard s a)] {s1 s2 : Machine}
    (h : Since guard s s1) {as : List Act} (hr : run guard s1 as = some s2) : Since guard s s2 := by
  induction as generalizing s1 with
  | nil =>
    cases hr
    exact h
  | cons a as ih =>
    unfold run at hr
    split_ifs at hr with hg
    cases hs : Ptable.step s1 a with
    | none => rw [hs] at hr; cases hr
    | some u =>
      rw [hs] at hr
      exact ih (h.step hg hs) hr

theorem nextOf_renice {ok : Bool} {v pid : Word} {p : Pc}
    (hn : nextOf s c i ok = .emit (.renice v pid) p) : s.pc i = .crit (.renice v pid) := by
  unfold nextOf at hn
  cases hpc : s.pc i with
  | crit op =>
    rw [hpc] at hn
    cases op with
    | fork | wait =>
      unfold body at hn
      dsimp only at hn
      split at hn <;> cases hn
    | renice v' pid' => cases hn; rfl
    | _ => cases hn
  | free k =>
    rw [hpc] at hn
    cases k <;> cases ok <;> cases hn
  | sched r =>
    rw [hpc] at hn
    dsimp only at hn
    split_ifs at hn
  | resumed r =>
    rw [hpc] at hn
    cases r <;> cases hn
  | _ => rw [hpc] at hn; cases hn

/-- the occupant number g of slot j, if it is still there, is past fork, has this pid and this nice value -/
def HasNice (j : Slot) (g : ℕ) (pid v : Word) (t : Table) : Prop :=
  g ≤ t.gen j ∧ (t.gen j = g → (t.proc j).state ≠ .UNUSED →
    (t.proc j).state ≠ .EMBRYO ∧ (t.proc j).pid = pid ∧ (t.proc j).niceValue = v)

theorem HasNice.apply {g : ℕ} {pid v : Word} (h : HasNice j g pid v t) (hpre : ev.Pre t)
    (hev : ∀ v', ev ≠ .renice v' pid) : HasNice j g pid v (ev.apply t) := by
  by_cases ha : ∃ np, ev = .alloc np
  · obtain ⟨np, rfl⟩ := ha
    by_cases hj : j = np
    · -- the slot has a new occupant
      subst hj
      have hgen : (Ev.apply t (.alloc j)).gen j = t.gen j + 1 := update_self ..
      have := h.1
      exact ⟨by omega, fun e => by omega⟩
    · have hgen : (Ev.apply t (.alloc np)).gen j = t.gen j := update_of_ne hj ..
      have hproc : (Ev.apply t (.alloc np)).proc j = t.proc j := found_of_ne t hj
      unfold HasNice
      rw [hgen, hproc]
      exact h
  · have hne : ∀ np, ev ≠ .alloc np := fun np e => ha ⟨np, e⟩
    have hgen := (Ev.counters_eq t hne).1
    have hocc := Ev.occupied hpre (hne j)
    refine ⟨by rw [hgen]; exact h.1, fun hg hu => ?_⟩
    rw [hgen] at hg
    obtain ⟨h1, h2, h3⟩ := h.2 hg (hocc.used hu)
    refine ⟨fun e => h1 (hocc.grown e), (hocc.pid hu).trans h2, ?_⟩
    rcases hocc.nice with e | e | ⟨v', e⟩
    · exact e.trans h3
    · exact absurd e h1
    · rw [h2] at e
      exact absurd e (hev v')

theorem HasNice.since {g : ℕ} {pid v : Word} (hr : Reachable s)
    (h : HasNice j g pid v s.tbl) (hs : Since (NoRenice pid) s s') : HasNice j g pid v s'.tbl := by
  induction hs with
  | refl => exact h
  | @step s1 s2 a h1 hg hs ih =>
    rcases step_table (reach_inv (h1.reachable hr)) hs with e | ⟨ev, hpre, e, hby⟩
    · rw [e]
      exact ih
    · rw [e]
      refine ih.apply hpre fun v' hev => ?_
      rcases hby with ⟨-, hno, -⟩ | ⟨c, i, ok, rfl, hctx, -, p, hn⟩
      · exact hno v' pid hev
      · rw [hev] at hn
        unfold NoRenice at hg
        dsimp only at hg
        rw [hctx] at hg
        dsimp only at hg
        rw [nextOf_renice hn] at hg
        exact hg rfl

/-- **A renice of a process that is past fork is kept.** When a process executes the critical section of renice(v, pid),
slot j being in use by a process with that pid that is not EMBRYO, then renice returns 0, and in every later state up to
the next renice of that pid, as long as the process has not been reaped, it has that pid and nice value v. -/
theorem renice_kept (s s1 : Machine) (h : Reachable s) (c : ℕ) (i : Slot) (ok : Bool) (v pid : Word)
    (hctx : (s.cpu c).ctx = .run i) (hpc : s.pc i = .crit (.renice v pid)) (hs : step s (.run c ok) = some s1) (j : Slot)
    (hused : (s.tbl.proc j).state ≠ .UNUSED) (hpid : (s.tbl.proc j).pid = pid) (hgrown : (s.tbl.proc j).state ≠ .EMBRYO) :
    (s.tbl.renice v pid).2 = 0 ∧ ∀ s2, Since (NoRenice pid) s1 s2 → s2.tbl.gen j = s.tbl.gen j →
      (s2.tbl.proc j).state ≠ .UNUSED → (s2.tbl.proc j).pid = pid ∧ (s2.tbl.proc j).niceValue = v := by
  have hn : nextOf s c i ok = .emit (.renice v pid) (.rel .user) := by
    unfold nextOf
    rw [hpc]
    rfl
  have htbl : s1.tbl = (s.tbl.renice v pid).1 := by
    unfold step at hs
    split_ifs at hs
    dsimp only at hs
    rw [hctx] at hs
    dsimp only at hs
    rw [hn] at hs
    cases hs
    rfl
  have hzero : (s.tbl.renice v pid).2 = 0 := by
    refine if_pos (find_isSome_iff.2 ⟨j, ?_⟩)
    simp [hused, hpid]
  have hset : (s.tbl.renice v pid).1.proc j = { s.tbl.proc j with niceValue := v } := if_pos ⟨hused, hpid⟩
  have hnice : HasNice j (s.tbl.gen j) pid v s1.tbl := by
    rw [htbl]
    refine ⟨le_of_eq rfl, fun _ _ => ?_⟩
    rw [hset]
    exact ⟨hgrown, hpid, rfl⟩
  refine ⟨hzero, fun s2 h2 hg hu => ?_⟩
  exact ((hnice.since (h.step trivial hs) h2).2 hg hu).2

/-- init forks a child that CPU 1 dispatches; init's second fork has taken slot 2 and pid 3; the child is in renice of
init, or of pid 3 -/
def reniceActs (v pid : Word) : List Act :=
  bootActs ++ forkActs ++ List.replicate 2 (.run 0 true) ++ List.replicate 2 (.cpu 1) ++ [.run 1 true] ++
  .call 0 .fork :: List.replicate 3 (.run 0 true) ++ [.call 1 (.renice v pid), .run 1 true]

/-- the child gives init the nice value 5 while init forks -/
theorem renice_kept_example : ∃ s s1 s2, Reachable s ∧ s.pc 1 = .crit (.renice 5 1) ∧ step s (.run 1 true) = some s1 ∧
    step s1 (.run 0 true) = some s2 ∧ (s2.tbl.proc 0).niceValue = 5 := by
  obtain ⟨s, h, hctx, hpc, hu, hpid, he, hrun⟩ := exists_run (fun _ _ => True) (reniceActs 5 1)
    (P := fun s => (s.cpu 1).ctx = .run 1 ∧ s.pc 1 = .crit (.renice 5 1) ∧ (s.tbl.proc 0).state ≠ .UNUSED ∧
      (s.tbl.proc 0).pid = 1 ∧ (s.tbl.proc 0).state ≠ .EMBRYO ∧ (step s (.run 1 true)).any (fun s1 =>
        (step s1 (.run 0 true)).any fun s2 => decide (NoRenice 1 s1 (.run 0 true) ∧ s2.tbl.gen 0 = s.tbl.gen 0 ∧
          (s2.tbl.proc 0).state ≠ .UNUSED)) = true) (by decide +kernel)
  obtain ⟨s1, hs1, hrun⟩ := (Option.any_eq_true _ _).1 hrun
  obtain ⟨s2, hs2, hrun⟩ := (Option.any_eq_true _ _).1 hrun
  obtain ⟨hg, hgen, hu2⟩ := of_decide_eq_true hrun
  have key := (renice_kept s s1 h 1 1 true 5 1 hctx hpc hs1 0 hu hpid he).2 s2 (.step .refl hg hs2) hgen hu2
  exact ⟨s, s1, s2, h, hpc, hs1, hs2, key.2⟩

/-- **An acknowledged renice is lost.** While init's second fork fills slot 2 in, its child executes renice(5, 3), which
finds the EMBRYO with pid 3 and returns 0. fork goes on, sets the default nice value and copies that of init: process 3
becomes RUNNABLE with nice value 40, with no other renice since, and not reaped. -/
theorem renice_lost : ∃ s s1 s2, Reachable s ∧ (s.cpu 1).ctx = .run 1 ∧ s.pc 1 = .crit (.renice 5 3) ∧
    (s.tbl.renice 5 3).2 = 0 ∧ step s (.run 1 true) = some s1 ∧ (s1.tbl.proc 2).pid = 3 ∧
    (s1.tbl.proc 2).niceValue = 5 ∧ Since (NoRenice 3) s1 s2 ∧ s2.tbl.gen 2 = s.tbl.gen 2 ∧
    (s2.tbl.proc 2).state = .RUNNABLE ∧ (s2.tbl.proc 2).pid = 3 ∧ (s2.tbl.proc 2).niceValue ≠ 5 := by
  obtain ⟨s, h, hctx, hpc, hret, hrun⟩ := exists_run (fun _ _ => True) (reniceActs 5 3)
    (P := fun s => (s.cpu 1).ctx = .run 1 ∧ s.pc 1 = .crit (.renice 5 3) ∧ (s.tbl.renice 5 3).2 = 0 ∧
      (step s (.run 1 true)).any (fun s1 => decide ((s1.tbl.proc 2).pid = 3 ∧ (s1.tbl.proc 2).niceValue = 5 ∧
        (run (NoRenice 3) s1 (.run 1 true :: List.replicate 5 (.run 0 true))).any (fun s2 =>
          decide (s2.tbl.gen 2 = s.tbl.gen 2 ∧ (s2.tbl.proc 2).state = .RUNNABLE ∧ (s2.tbl.proc 2).pid = 3 ∧
            (s2.tbl.proc 2).niceValue ≠ 5)) = true)) = true) (by decide +kernel)
  obtain ⟨s1, hs1, hrun⟩ := (Option.any_eq_true _ _).1 hrun
  obtain ⟨hpid, hnice, hrun⟩ := of_decide_eq_true hrun
  obtain ⟨s2, hs2, hrun⟩ := (Option.any_eq_true _ _).1 hrun
  obtain ⟨hgen, hst, hpid2, hnice2⟩ := of_decide_eq_true hrun
  exact ⟨s, s1, s2, h, hctx, hpc, hret, hs1, hpid, hnice, since_run .refl hs2, hgen, hst, hpid2, hnice2⟩

end Xv6.Ptable
