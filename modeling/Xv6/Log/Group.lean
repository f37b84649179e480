/-
The group-commit protocol of `log.c`: any number of processes run `begin_op`, `log_write` and `end_op`, one shared
access a step.

`Pc` is where a process stands in those three functions. Every `acquire` and `release` of `log.lock` is a step, so are
`sleep`'s hand-over from `log.lock` to `ptable.lock` and the two unlocked tests at the head of `log_write`, and
`commit()` runs without the lock: it reads the header (`commitRun`) and later sets `lh.n = 0` (`commitClear`). A panic
stops the machine. What no line of the source keeps is ghost: the operations admitted since the last commit
(`group`), those not yet ended (`active`), the blocks each one has called `log_write` on (`calls`) and got into the
header (`logged`), and what each commit found (`commits`).

- `group_commit_protocol`: in every reachable state a commit excludes every operation, two of the panics are
  unreachable, each commit holds whole operations, the header has no duplicates, and no process sleeps on `&log`
  while `begin_op` would let it in.
- `reservation_suffices`: operations of at most `m` distinct blocks never reach the panic `too big a transaction` if and
  only if `m` is less than `MAXOPBLOCKS`. `whole_reservations_panic`: three operations of `MAXOPBLOCKS` blocks each do
  panic. `nine_blocks_suffice`: one block fewer an operation never does, for any processes.
-/
import Xv6.Param
import Xv6.Lib.GroupCommit

namespace Xv6.Group

open Lib List
open Lib.GroupCommit (Role Commit)

/-- where a process stands in `begin_op`, `log_write` or `end_op`; an operation carries its (ghost) number -/
inductive Pc where
  | idle
  -- begin_op, with the calls of sleep(&log, &log.lock) it makes
  | beginAcq | beginTest | sleepAcq | sleepRel | sleepSet | asleep | woken
  | beginRel (op : ℕ)
  | inOp (op : ℕ)
  -- log_write: the two unlocked tests, then the section under log.lock
  | writeSize (op : ℕ) (b : Word)
  | writeTrans (op : ℕ) (b : Word)
  | writeAcq (op : ℕ) (b : Word)
  | writeStore (op : ℕ) (b : Word)
  | writeRel (op : ℕ)
  -- end_op and the commit of the last one out
  | endAcq (op : ℕ)
  | endDec (op : ℕ)
  | endWake
  | endRel (doCommit : Bool)
  | commitRun | commitClear | commitAcq | commitDone | commitWake | commitRel
  deriving DecidableEq

/-- why the machine stopped: the panics of `log.c`, or a store past the end of `lh.block` -/
inductive Halt where
  | tooBig
  | outsideTrans
  | logCommitting
  | pastBlocks
  deriving DecidableEq

/-- `struct log` (the header as the list `lh.block[0..lh.n)`), the two locks, where each process stands, ghosts -/
structure St (ι : Type) where
  outstanding : ℤ := 0
  committing : Bool := false
  lh : List Word := []
  logLock : Option ι := none
  ptLock : Option ι := none
  pc : ι → Pc := fun _ => .idle
  halt : Option Halt := none
  nextOp : ℕ := 0
  group : List ℕ := []
  active : List ℕ := []
  calls : List (ℕ × Word) := []
  logged : List (ℕ × Word) := []
  commits : List (Commit Word) := []

variable {ι : Type} [DecidableEq ι]

/-- the boot state: an empty log and no process in it -/
def St.boot : St ι := {}

/-- process `p` moves to `c` -/
def St.go (s : St ι) (p : ι) (c : Pc) : St ι := { s with pc := update s.pc p c }

/-- `wakeup(&log)`: every process sleeping on the channel becomes runnable -/
def wakeup (pc : ι → Pc) : ι → Pc := fun q => if pc q = .asleep then .woken else pc q

/-- the admission test of `begin_op` that sends it to sleep -/
def St.Full (s : St ι) : Prop := (s.lh.length : ℤ) + (s.outstanding + 1) * MAXOPBLOCKS > LOGSIZE

/-- the first test of `log_write` -/
def St.TooBig (size : ℤ) (s : St ι) : Prop := s.lh.length ≥ LOGSIZE ∨ (s.lh.length : ℤ) ≥ size - 1

/-- `log_write`'s loop over `lh.block`: the block is absorbed where it is found, else stored at the end -/
def storeBlock : List Word → Word → List Word
  | [], b => [b]
  | c :: l, b => if c = b then b :: l else c :: storeBlock l b

/-- one step of process `p`, for a log of `size` blocks -/
inductive Step (size : ℤ) (s : St ι) (p : ι) : St ι → Prop where
  | callBegin : s.pc p = .idle → Step size s p (s.go p .beginAcq)
  | beginAcq : s.pc p = .beginAcq → s.logLock = none →
      Step size s p { s.go p .beginTest with logLock := some p }
  | beginSleep : s.pc p = .beginTest → s.committing = true ∨ s.Full → Step size s p (s.go p .sleepAcq)
  | beginAdmit : s.pc p = .beginTest → s.committing = false → ¬ s.Full →
      Step size s p { s.go p (.beginRel s.nextOp) with
        outstanding := s.outstanding + 1, nextOp := s.nextOp + 1,
        group := s.group ++ [s.nextOp], active := s.active ++ [s.nextOp] }
  -- sleep: acquire(&ptable.lock); release(lk); p->state = SLEEPING; sched(), and the scheduler drops ptable.lock
  | sleepAcq : s.pc p = .sleepAcq → s.ptLock = none → Step size s p { s.go p .sleepRel with ptLock := some p }
  | sleepRel : s.pc p = .sleepRel → Step size s p { s.go p .sleepSet with logLock := none }
  | sleepSet : s.pc p = .sleepSet → Step size s p { s.go p .asleep with ptLock := none }
  | kill : s.pc p = .asleep → s.ptLock = none → Step size s p (s.go p .woken)
  | dispatch : s.pc p = .woken → s.ptLock = none → Step size s p (s.go p .beginAcq)
  | beginRel {i} : s.pc p = .beginRel i → Step size s p { s.go p (.inOp i) with logLock := none }
  | callWrite {i} (b : Word) : s.pc p = .inOp i →
      Step size s p { s.go p (.writeSize i b) with calls := s.calls ++ [(i, b)] }
  | writeTooBig {i b} : s.pc p = .writeSize i b → s.TooBig size → Step size s p { s with halt := some .tooBig }
  | writeSize {i b} : s.pc p = .writeSize i b → ¬ s.TooBig size → Step size s p (s.go p (.writeTrans i b))
  | writeOutside {i b} : s.pc p = .writeTrans i b → s.outstanding < 1 →
      Step size s p { s with halt := some .outsideTrans }
  | writeTrans {i b} : s.pc p = .writeTrans i b → ¬ s.outstanding < 1 → Step size s p (s.go p (.writeAcq i b))
  | writeAcq {i b} : s.pc p = .writeAcq i b → s.logLock = none →
      Step size s p { s.go p (.writeStore i b) with logLock := some p }
  | writePast {i b} : s.pc p = .writeStore i b → b ∉ s.lh → s.lh.length ≥ LOGSIZE →
      Step size s p { s with halt := some .pastBlocks }
  | writeStore {i b} : s.pc p = .writeStore i b → (b ∈ s.lh ∨ s.lh.length < LOGSIZE) →
      Step size s p { s.go p (.writeRel i) with lh := storeBlock s.lh b, logged := s.logged ++ [(i, b)] }
  | writeRel {i} : s.pc p = .writeRel i → Step size s p { s.go p (.inOp i) with logLock := none }
  | callEnd {i} : s.pc p = .inOp i → Step size s p (s.go p (.endAcq i))
  | endAcq {i} : s.pc p = .endAcq i → s.logLock = none →
      Step size s p { s.go p (.endDec i) with logLock := some p }
  | endPanic {i} : s.pc p = .endDec i → s.committing = true →
      Step size s p { s with outstanding := s.outstanding - 1, halt := some .logCommitting }
  | endLast {i} : s.pc p = .endDec i → s.committing = false → s.outstanding - 1 = 0 →
      Step size s p { s.go p (.endRel true) with
        outstanding := s.outstanding - 1, committing := true, active := s.active.erase i }
  | endMore {i} : s.pc p = .endDec i → s.committing = false → s.outstanding - 1 ≠ 0 →
      Step size s p { s.go p .endWake with outstanding := s.outstanding - 1, active := s.active.erase i }
  | endWake : s.pc p = .endWake → s.ptLock = none →
      Step size s p { s with pc := update (wakeup s.pc) p (.endRel false) }
  | endRel : s.pc p = .endRel false → Step size s p { s.go p .idle with logLock := none }
  | endRelCommit : s.pc p = .endRel true → Step size s p { s.go p .commitRun with logLock := none }
  | commitRun : s.pc p = .commitRun →
      Step size s p { s.go p .commitClear with commits := s.commits ++ [⟨s.group, s.lh⟩], group := [] }
  | commitClear : s.pc p = .commitClear → Step size s p { s.go p .commitAcq with lh := [] }
  | commitAcq : s.pc p = .commitAcq → s.logLock = none →
      Step size s p { s.go p .commitDone with logLock := some p }
  | commitDone : s.pc p = .commitDone → Step size s p { s.go p .commitWake with committing := false }
  | commitWake : s.pc p = .commitWake → s.ptLock = none →
      Step size s p { s with pc := update (wakeup s.pc) p .commitRel }
  | commitRel : s.pc p = .commitRel → Step size s p { s.go p .idle with logLock := none }

/-- the states reached from boot by steps that meet `Guard`; a halted machine takes none -/
inductive Reach (size : ℤ) (Guard : St ι → ι → Prop) : St ι → Prop where
  | boot : Reach size Guard St.boot
  | step {s s' : St ι} {p : ι} : Reach size Guard s → s.halt = none → Guard s p → Step size s p s' →
      Reach size Guard s'

/-! ## Who holds what -/

/-- what a process is doing to the log: an operation counts from its admission to its decrement of `outstanding`,
a commit from setting `committing` to clearing it -/
def Pc.role : Pc → Role
  | .beginRel i | .inOp i | .writeSize i _ | .writeTrans i _ | .writeAcq i _ | .writeStore i _ | .writeRel i
  | .endAcq i | .endDec i => .op i
  | .endRel true | .commitRun => .last
  | .commitClear => .clearing
  | .commitAcq | .commitDone => .cleared
  | _ => .outside

/-- the `log_write` a process has called and not yet stored in the header -/
def Pc.pending : Pc → Option (ℕ × Word)
  | .writeSize i b | .writeTrans i b | .writeAcq i b | .writeStore i b => some (i, b)
  | _ => none

/-- between the `acquire` and the `release` of `log.lock` -/
def Pc.holdsLog : Pc → Bool
  | .beginTest | .sleepAcq | .sleepRel | .beginRel _ | .writeStore .. | .writeRel _ | .endDec _ | .endWake
  | .endRel _ | .commitDone | .commitWake | .commitRel => true
  | _ => false

/-- inside `sleep` with `ptable.lock` held -/
def Pc.holdsPt : Pc → Bool
  | .sleepRel | .sleepSet => true
  | _ => false

/-- asleep on `&log`, or on the way there after the admission test -/
def Pc.falling : Pc → Bool
  | .sleepAcq | .sleepRel | .sleepSet | .asleep => true
  | _ => false

/-- about to call `wakeup(&log)` -/
def Pc.waker : Pc → Bool
  | .endWake | .commitWake => true
  | _ => false

variable {size : ℤ} {s s' : St ι} {p q : ι}

theorem step_other (h : Step size s p s') (hq : q ≠ p) : s'.pc q = s.pc q ∨ (s.pc q = .asleep ∧ s'.pc q = .woken) := by
  cases h <;> simp [St.go, hq, wakeup]
  all_goals by_cases ha : s.pc q = .asleep <;> simp [ha]

/-- what does not tell a sleeper from a woken process is unchanged in the others -/
theorem step_frame {α : Type} (f : Pc → α) (hf : f .asleep = f .woken) (h : Step size s p s') (hq : q ≠ p) :
    f (s'.pc q) = f (s.pc q) := by
  rcases step_other h hq with e | ⟨e, e'⟩
  · rw [e]
  · rw [e, e', hf]

theorem step_logLock (h : Step size s p s') : (s'.logLock = s.logLock ∧ (s'.pc p).holdsLog = (s.pc p).holdsLog) ∨
    (s.logLock = none ∧ s'.logLock = some p ∧ (s'.pc p).holdsLog = true) ∨
    ((s.pc p).holdsLog = true ∧ s'.logLock = none ∧ (s'.pc p).holdsLog = false) := by
  cases h <;> simp_all [St.go, Pc.holdsLog]

theorem step_ptLock (h : Step size s p s') : (s'.ptLock = s.ptLock ∧ (s'.pc p).holdsPt = (s.pc p).holdsPt) ∨
    (s.ptLock = none ∧ s'.ptLock = some p ∧ (s'.pc p).holdsPt = true) ∨
    ((s.pc p).holdsPt = true ∧ s'.ptLock = none ∧ (s'.pc p).holdsPt = false) := by
  cases h <;> simp_all [St.go, Pc.holdsPt]

/-- the two locks are held by the processes that stand between their `acquire` and `release` -/
structure LockInv (s : St ι) : Prop where
  log : ∀ q, (s.pc q).holdsLog = true ↔ s.logLock = some q
  pt : ∀ q, (s.pc q).holdsPt = true ↔ s.ptLock = some q

/-- a lock word changed only by the stepping process, in step with its `holds` flag, stays faithful -/
theorem holder_step {l l' : Option ι} {f f' : ι → Bool} (hf : ∀ q, q ≠ p → f' q = f q)
    (hp : (l' = l ∧ f' p = f p) ∨ (l = none ∧ l' = some p ∧ f' p = true) ∨ (f p = true ∧ l' = none ∧ f' p = false))
    (hl : ∀ q, f q = true ↔ l = some q) (q : ι) : f' q = true ↔ l' = some q := by
  have h1 := hl p
  have h2 := hl q
  have h3 := hf q
  by_cases hq : q = p
  · subst hq; grind
  · grind

theorem step_lockInv (h : Step size s p s') (hl : LockInv s) : LockInv s' where
  log := holder_step (fun _ hq => step_frame Pc.holdsLog rfl h hq) (step_logLock h) hl.log
  pt := holder_step (fun _ hq => step_frame Pc.holdsPt rfl h hq) (step_ptLock h) hl.pt

/-! ## The protocol seen as group commit -/

theorem storeBlock_eq (l : List Word) (b : Word) : storeBlock l b = GroupCommit.store l b := by
  induction l with
  | nil => rfl
  | cons c l ih =>
    unfold storeBlock
    rw [ih]
    unfold GroupCommit.store
    by_cases hc : c = b
    · simp [hc]
    · by_cases hb : b ∈ l <;> simp [hc, hb, Ne.symm hc]

/-- the abstract log behind a state -/
def St.abs (s : St ι) : GroupCommit.State ι Word where
  outstanding := s.outstanding
  committing := s.committing
  header := s.lh
  nextOp := s.nextOp
  group := s.group
  active := s.active
  logged := s.logged
  commits := s.commits
  role q := (s.pc q).role

/-- the admission test of `begin_op` -/
def Admit (h : List Word) (k : ℤ) : Prop := ¬ (h.length : ℤ) + (k + 1) * MAXOPBLOCKS > LOGSIZE

theorem role_update (pc : ι → Pc) (p : ι) (c : Pc) :
    (fun q => (update pc p c q).role) = update (fun q => (pc q).role) p c.role := by
  funext q
  by_cases hq : q = p
  · subst hq; simp
  · simp [hq]

omit [DecidableEq ι] in
theorem role_wakeup (pc : ι → Pc) (q : ι) : (wakeup pc q).role = (pc q).role := by
  unfold wakeup
  split_ifs with h
  · rw [h]; rfl
  · rfl

/-- a process that moves without changing its role changes no role -/
theorem role_quiet {c : Pc} (hc : c.role = (s.pc p).role) : (fun q => (update s.pc p c q).role) = s.abs.role := by
  rw [role_update, hc]
  exact update_eq_self p s.abs.role

theorem abs_quiet {c : Pc} (hc : c.role = (s.pc p).role) : { s.abs with role := fun q => (update s.pc p c q).role } = s.abs := by
  rw [role_quiet hc]

theorem abs_wakeup {c : Pc} (hc : c.role = (s.pc p).role) :
    { s.abs with role := fun q => (update (wakeup s.pc) p c q).role } = s.abs := by
  rw [role_update, hc]
  simp only [role_wakeup]
  rw [update_eq_self]
  rfl

/-- **Simulation.** A step of the code is a step of abstract group commit or invisible to it. -/
theorem step_sim (h : Step size s p s') (hi : GroupCommit.Inv s.abs) :
    s'.abs = s.abs ∨ GroupCommit.Step Admit s.abs p s'.abs := by
  have hrole : ∀ {x : Pc}, s.pc p = x → s.abs.role p = x.role := fun h => congrArg Pc.role h
  have sim : ∀ {t}, GroupCommit.Step Admit s.abs p t → s'.abs = t → s'.abs = s.abs ∨ GroupCommit.Step Admit s.abs p s'.abs :=
    fun h e => .inr (e ▸ h)
  cases h with
  | beginAdmit hp hc hf =>
    exact sim (.join (hrole hp) hc hf) (by simp only [St.abs, St.go, role_update]; rfl)
  | @writeStore i b hp hlen =>
    exact sim (.write b (hrole hp))
      (by simp only [St.abs, St.go, storeBlock_eq, role_quiet (show (Pc.writeRel i).role = (s.pc p).role by rw [hp]; rfl)])
  | @endLast i hp hc ho =>
    exact sim (.close (i := i) (hrole hp) ho) (by simp only [St.abs, St.go, role_update]; rfl)
  | @endMore i hp hc ho =>
    exact sim (.leave (i := i) (hrole hp) ho) (by simp only [St.abs, St.go, role_update]; rfl)
  | commitRun hp =>
    exact sim (.run (hrole hp)) (by simp only [St.abs, St.go, role_update]; rfl)
  | commitClear hp =>
    exact sim (.clear (hrole hp)) (by simp only [St.abs, St.go, role_update]; rfl)
  | commitDone hp =>
    exact sim (.reopen (hrole hp)) (by simp only [St.abs, St.go, role_update]; rfl)
  | @endPanic i hp hc =>
    -- an operation is open, so no commit is pending
    have := hi.not_committing (p := p) (i := i) (hrole hp)
    exact absurd hc (by simpa [St.abs] using this)
  | writeTooBig | writeOutside | writePast => exact .inl rfl
  | endWake hp | commitWake hp => exact .inl (abs_wakeup (s := s) (by rw [hp]; rfl))
  | _ => exact .inl (abs_quiet (s := s) (by simp only [*]; rfl))

/-! ## The invariant of the code -/

/-- what holds along every run -/
structure Inv (s : St ι) : Prop where
  locks : LockInv s
  abs : GroupCommit.Reach Admit s.abs
  calls : ∀ c, c ∈ s.calls ↔ c ∈ s.logged ∨ ∃ q, (s.pc q).pending = some c
  -- a sleeper has a reason to sleep, or its wakeup is on the way
  sleepers : ∀ q, (s.pc q).falling = true → s.committing = true ∨ s.Full ∨ ∃ r, (s.pc r).waker = true
  outsideTrans : s.halt ≠ some .outsideTrans
  logCommitting : s.halt ≠ some .logCommitting

theorem step_calls (h : Step size s p s') : (s'.calls = s.calls ∧ s'.logged = s.logged ∧ (s'.pc p).pending = (s.pc p).pending) ∨
    (∃ c, s'.calls = s.calls ++ [c] ∧ s'.logged = s.logged ∧ (s.pc p).pending = none ∧ (s'.pc p).pending = some c) ∨
    (∃ c, s'.calls = s.calls ∧ s'.logged = s.logged ++ [c] ∧ (s.pc p).pending = some c ∧ (s'.pc p).pending = none) := by
  cases h <;> simp_all [St.go, Pc.pending]

theorem step_callsInv (h : Step size s p s') (hc : ∀ c, c ∈ s.calls ↔ c ∈ s.logged ∨ ∃ q, (s.pc q).pending = some c) :
    ∀ c, c ∈ s'.calls ↔ c ∈ s'.logged ∨ ∃ q, (s'.pc q).pending = some c := by
  have hfr : ∀ q, q ≠ p → (s'.pc q).pending = (s.pc q).pending := fun q hq => step_frame Pc.pending rfl h hq
  -- whose call is pending: the stepping process apart, nobody's changes
  have hsplit : ∀ (t : St ι) c, (∃ q, (t.pc q).pending = some c) ↔
      (t.pc p).pending = some c ∨ ∃ q, q ≠ p ∧ (t.pc q).pending = some c := by
    intro t c
    constructor
    · rintro ⟨q, hq⟩
      by_cases hqp : q = p
      · exact .inl (hqp ▸ hq)
      · exact .inr ⟨q, hqp, hq⟩
    · rintro (hp | ⟨q, -, hq⟩)
      · exact ⟨p, hp⟩
      · exact ⟨q, hq⟩
  have hrest : ∀ c, (∃ q, q ≠ p ∧ (s'.pc q).pending = some c) ↔ ∃ q, q ≠ p ∧ (s.pc q).pending = some c :=
    fun c => exists_congr fun q => and_congr_right fun hq => by rw [hfr q hq]
  intro c
  have hcc := hc c
  rw [hsplit] at hcc
  rw [hsplit, hrest]
  rcases step_calls h with ⟨h1, h2, h3⟩ | ⟨d, h1, h2, h3, h4⟩ | ⟨d, h1, h2, h3, h4⟩
  · rw [h1, h2, h3, hcc]
  · simp only [h1, h2, h4, mem_append, mem_singleton, hcc, h3]
    grind
  · simp only [h1, h2, h4, mem_append, mem_singleton, hcc, h3]
    grind

omit [DecidableEq ι] in
theorem full_of_le {a b : St ι} (hl : a.lh.length ≤ b.lh.length) (ho : a.outstanding ≤ b.outstanding) (h : a.Full) : b.Full := by
  unfold St.Full MAXOPBLOCKS LOGSIZE at *
  omega

theorem length_le_storeBlock (l : List Word) (b : Word) : l.length ≤ (storeBlock l b).length := by
  rw [storeBlock_eq, GroupCommit.store]
  split_ifs <;> simp

/-- a step that takes the last reason for sleeping away has a `wakeup` to follow -/
theorem step_reason (h : Step size s p s') (hcl : s.pc p = .commitClear → s.committing = true)
    (hr : s.committing = true ∨ s.Full) : s'.committing = true ∨ s'.Full ∨ (s'.pc p).waker = true := by
  cases h with
  | beginAdmit hp hc hf =>
    rcases hr with hr | hr
    · simp [hc] at hr
    · exact absurd hr hf
  | writeStore hp => exact hr.imp id fun h => .inl (full_of_le (length_le_storeBlock _ _) le_rfl h)
  | endPanic hp hc => exact .inl hc
  | endLast => exact .inl rfl
  | endMore | commitDone => exact .inr (.inr (by simp [St.go, Pc.waker]))
  | commitClear hp => exact .inl (hcl hp)
  | _ => exact hr.imp id .inl

/-- a wakeup on the way stays on the way until it is called, and then leaves nobody asleep -/
theorem step_waker (h : Step size s p s') (hw : (s.pc p).waker = true) :
    (s'.pc p).waker = true ∨ (s.ptLock = none ∧ s'.pc = update (wakeup s.pc) p (s'.pc p) ∧ (s'.pc p).falling = false) := by
  cases h <;> simp_all [Pc.waker, Pc.falling]

theorem step_falling (h : Step size s p s') (hf : (s'.pc p).falling = true) :
    (s.pc p).falling = true ∨ s.committing = true ∨ s.Full := by
  cases h <;> simp_all [St.go, Pc.falling]

omit [DecidableEq ι] in
/-- a waker holds `log.lock`; with `ptable.lock` free it finds every sleeper fully asleep -/
theorem LockInv.asleep (h : LockInv s) (hw : (s.pc p).waker = true) (hpt : s.ptLock = none) (hq : q ≠ p)
    (hf : (s.pc q).falling = true) : s.pc q = .asleep := by
  have hp : s.logLock = some p := (h.log p).mp (by cases hc : s.pc p <;> simp_all [Pc.waker, Pc.holdsLog])
  have hlq : (s.pc q).holdsLog = false := by
    by_contra hne
    have := (h.log q).mp (by simpa using hne)
    rw [hp] at this
    exact hq (Option.some.inj this).symm
  have hpq : (s.pc q).holdsPt = false := by
    by_contra hne
    have := (h.pt q).mp (by simpa using hne)
    simp [hpt] at this
  cases hc : s.pc q <;> simp_all [Pc.falling, Pc.holdsLog, Pc.holdsPt]

theorem step_sleepers (h : Step size s p s') (hi : Inv s) :
    ∀ q, (s'.pc q).falling = true → s'.committing = true ∨ s'.Full ∨ ∃ r, (s'.pc r).waker = true := by
  have hcl : s.pc p = .commitClear → s.committing = true := fun hp =>
    (GroupCommit.reach_inv hi.abs).roles.committing_iff.mpr ⟨p, by simp [St.abs, hp, Pc.role, Role.Commits]⟩
  intro q hq
  -- the reason or the wakeup of the state before the step
  have hbefore : s.committing = true ∨ s.Full ∨ ∃ r, (s.pc r).waker = true := by
    by_cases hqp : q = p
    · subst hqp
      rcases step_falling h hq with hf | hc | hf
      · exact hi.sleepers q hf
      · exact .inl hc
      · exact .inr (.inl hf)
    · refine hi.sleepers q ?_
      rcases step_other h hqp with e | ⟨e, e'⟩
      · rwa [← e]
      · rw [e]; rfl
  rcases or_assoc.mpr hbefore with hr | ⟨r, hr⟩
  · rcases step_reason h hcl hr with hc | hf | hw
    · exact .inl hc
    · exact .inr (.inl hf)
    · exact .inr (.inr ⟨p, hw⟩)
  · by_cases hrp : r = p
    · subst hrp
      rcases step_waker h hr with hw | ⟨hpt, hpc, hnf⟩
      · exact .inr (.inr ⟨r, hw⟩)
      · -- everybody was asleep and is awake now
        have hqr : q ≠ r := by rintro rfl; simp [hnf] at hq
        rw [hpc, update_of_ne hqr, wakeup] at hq
        split_ifs at hq with ha
        · simp [Pc.falling] at hq
        · exact absurd (hi.locks.asleep hr hpt hqr hq) ha
    · exact .inr (.inr ⟨r, by rw [step_frame Pc.waker rfl h hrp]; exact hr⟩)

theorem step_halts (h : Step size s p s') (hh : s.halt = none) (hi : Inv s) :
    s'.halt ≠ some .outsideTrans ∧ s'.halt ≠ some .logCommitting := by
  have ha := GroupCommit.reach_inv hi.abs
  cases h with
  | @writeOutside i b hp ho =>
    -- its own operation is outstanding
    have hmem := length_pos_of_mem (ha.roles.mem p i (by simp [St.abs, hp, Pc.role]))
    have hcount : s.outstanding = s.active.length := ha.roles.count
    simp only [St.abs] at hmem
    omega
  | @endPanic i hp hc =>
    have := ha.not_committing (p := p) (i := i) (by simp [St.abs, hp, Pc.role])
    simp [St.abs, hc] at this
  | writeTooBig | writePast => simp
  | _ => simp [St.go, hh]

theorem step_inv (h : Step size s p s') (hh : s.halt = none) (hi : Inv s) : Inv s' where
  locks := step_lockInv h hi.locks
  abs := by
    rcases step_sim h (GroupCommit.reach_inv hi.abs) with e | hs
    · rw [e]; exact hi.abs
    · exact .step hi.abs hs
  calls := step_callsInv h hi.calls
  sleepers := step_sleepers h hi
  outsideTrans := (step_halts h hh hi).1
  logCommitting := (step_halts h hh hi).2

theorem boot_inv : Inv (St.boot : St ι) where
  locks := ⟨by simp [St.boot, Pc.holdsLog], by simp [St.boot, Pc.holdsPt]⟩
  abs := .init
  calls := by simp [St.boot, Pc.pending]
  sleepers := by simp [St.boot, Pc.falling]
  outsideTrans := by simp [St.boot]
  logCommitting := by simp [St.boot]

theorem reach_inv {Guard : St ι → ι → Prop} (h : Reach size Guard s) : Inv s := by
  induction h with
  | boot => exact boot_inv
  | step _ hh _ hs ih => exact step_inv hs hh ih

/-- runs with no condition on the steps -/
abbrev Reachable (size : ℤ) (s : St ι) : Prop := Reach size (fun _ _ => True) s

/-- **Group commit.** In every reachable state: `committing` means that no operation is between `begin_op` and
`end_op`; the panics `log.committing` and `log_write outside of trans` have not happened; each commit covers ended
operations only, has every block they called `log_write` on and no other, and the header it read stays until it clears
it; the operations are numbered through the commits and the current group, each once; the header has no duplicates;
and with `log.lock` free nobody sleeps whom `begin_op` would let in. -/
theorem group_commit_protocol (h : Reachable size s) : (s.committing = true → s.outstanding = 0 ∧ ∀ q i, (s.pc q).role ≠ .op i) ∧
    (s.halt ≠ some .logCommitting ∧ s.halt ≠ some .outsideTrans) ∧
    (∀ c ∈ s.commits, ∀ i ∈ c.covers, (∀ q, (s.pc q).role ≠ .op i) ∧ ∀ b, (i, b) ∈ s.calls → b ∈ c.header) ∧
    (∀ c ∈ s.commits, ∀ b ∈ c.header, ∃ i ∈ c.covers, (i, b) ∈ s.calls) ∧
    (∀ q, s.pc q = .commitClear → ∃ c ∈ s.commits.getLast?, c.header = s.lh) ∧
    s.commits.flatMap Commit.covers ++ s.group = List.range s.nextOp ∧ s.lh.Nodup ∧ (∀ q, s.pc q = .asleep → s.logLock = none →
      ¬ (s.committing = false ∧ (s.lh.length : ℤ) + (s.outstanding + 1) * MAXOPBLOCKS ≤ LOGSIZE)) := by
  have hi := reach_inv h
  have ha := GroupCommit.reach_inv hi.abs
  -- an operation that a process is in belongs to the current group
  have hopen : ∀ c ∈ s.commits, ∀ i ∈ c.covers, ∀ q, (s.pc q).role ≠ .op i := fun c hc i hic q hq =>
    ha.not_covered (ha.roles.sub i (ha.roles.mem q i hq)) hc hic
  refine ⟨?_, ⟨hi.logCommitting, hi.outsideTrans⟩, ?_, ?_, ?_, ha.blocks.numbers, ha.blocks.nodup, ?_⟩
  · intro hc
    refine ⟨by simpa [St.abs, show s.active = [] from ha.roles.drained hc] using ha.roles.count, fun q i hq => ?_⟩
    have := ha.not_committing (p := q) (i := i) hq
    simp [St.abs, hc] at this
  · intro c hc i hic
    refine ⟨hopen c hc i hic, fun b hb => (ha.blocks.covered c hc b).mpr ⟨i, hic, ?_⟩⟩
    rcases (hi.calls (i, b)).mp hb with hl | ⟨q, hq⟩
    · exact hl
    · refine absurd ?_ (hopen c hc i hic q)
      cases hpc : s.pc q <;> simp_all [Pc.pending, Pc.role]
  · intro c hc b hb
    obtain ⟨i, hic, hl⟩ := (ha.blocks.covered c hc b).mp hb
    exact ⟨i, hic, (hi.calls (i, b)).mpr (.inl hl)⟩
  · intro q hq
    exact (ha.blocks.clearing q (by simp [St.abs, hq, Pc.role])).2
  · rintro q hq hl ⟨hc, hfit⟩
    rcases hi.sleepers q (by simp [hq, Pc.falling]) with hc' | hf | ⟨r, hr⟩
    · simp [hc] at hc'
    · unfold St.Full at hf
      omega
    · -- a pending wakeup holds the lock
      have := (hi.locks.log r).mp (by cases hpc : s.pc r <;> simp_all [Pc.waker, Pc.holdsLog])
      simp [hl] at this

/-! ## Whole calls as runs -/

theorem begin_run (hr : Reachable size s) (hh : s.halt = none) (hp : s.pc p = .idle) (hl : s.logLock = none)
    (hc : s.committing = false) (hf : ¬ s.Full) :
    Reachable size { s.go p (.inOp s.nextOp) with
      outstanding := s.outstanding + 1, nextOp := s.nextOp + 1,
      group := s.group ++ [s.nextOp], active := s.active ++ [s.nextOp] } := by
  have h1 := Reach.step hr hh trivial (.callBegin hp)
  have h2 := Reach.step h1 hh trivial (.beginAcq (update_self p _ _) hl)
  have h3 := Reach.step h2 hh trivial (.beginAdmit (update_self p _ _) hc hf)
  have h4 := Reach.step h3 hh trivial (.beginRel (update_self p _ _))
  simpa [St.go, hl] using h4

/-- a `log_write` of a block the header has room for, run without interruption -/
theorem write_run {i : ℕ} {b : Word} (hr : Reachable size s) (hh : s.halt = none) (hp : s.pc p = .inOp i) (hl : s.logLock = none)
    (ho : 1 ≤ s.outstanding) (hs : ¬ s.TooBig size) (hb : b ∉ s.lh) :
    Reachable size { s with lh := s.lh ++ [b], calls := s.calls ++ [(i, b)], logged := s.logged ++ [(i, b)] } := by
  have hlen : s.lh.length < LOGSIZE := by
    unfold St.TooBig at hs
    omega
  have h1 := Reach.step hr hh trivial (.callWrite b hp)
  have h2 := Reach.step h1 hh trivial (.writeSize (update_self p _ _) hs)
  have h3 := Reach.step h2 hh trivial (.writeTrans (update_self p _ _) (by simpa [St.go] using ho))
  have h4 := Reach.step h3 hh trivial (.writeAcq (update_self p _ _) hl)
  have h5 := Reach.step h4 hh trivial (.writeStore (update_self p _ _) (.inr hlen))
  have h6 := Reach.step h5 hh trivial (.writeRel (update_self p _ _))
  have hpc : update s.pc p (.inOp i) = s.pc := by rw [← hp, update_eq_self]
  simpa [St.go, hl, hpc, storeBlock_eq, GroupCommit.store, hb] using h6

theorem writes_run {i : ℕ} (bs : List Word) (hr : Reachable size s) (hh : s.halt = none) (hp : s.pc p = .inOp i)
    (hl : s.logLock = none) (ho : 1 ≤ s.outstanding) (hn : (s.lh ++ bs).Nodup)
    (hlen : (s.lh ++ bs).length < LOGSIZE) (hsize : ((s.lh ++ bs).length : ℤ) < size) :
    Reachable size { s with
      lh := s.lh ++ bs, calls := s.calls ++ bs.map (i, ·), logged := s.logged ++ bs.map (i, ·) } := by
  induction bs generalizing s with
  | nil => simpa using hr
  | cons b bs ih =>
    have hs : ¬ s.TooBig size := by
      unfold St.TooBig
      simp only [length_append, length_cons, Nat.cast_add, Nat.cast_one] at hlen hsize
      omega
    have hb : b ∉ s.lh := fun hb => (nodup_append.mp hn).2.2 b hb b (by simp) rfl
    have h1 := write_run hr hh hp hl ho hs hb
    have h2 := ih (s := { s with
      lh := s.lh ++ [b], calls := s.calls ++ [(i, b)], logged := s.logged ++ [(i, b)] }) h1 hh hp hl ho
      (by simpa using hn) (by simpa using hlen) (by simpa using hsize)
    simpa using h2

/-- one operation logs block 5 and its commit has just read the header -/
theorem group_commit_protocol_example :
    ∃ s : St Unit, Reachable LOGSIZE s ∧ s.commits = [⟨[0], [5]⟩] ∧ s.lh = [5] ∧ s.committing = true ∧
      s.outstanding = 0 ∧ ∀ q i, (s.pc q).role ≠ .op i := by
  have h1 : Reachable LOGSIZE _ := begin_run (p := ()) Reach.boot rfl rfl rfl rfl (by unfold St.Full; decide)
  have h2 := writes_run (p := ()) (i := 0) [5] h1 rfl rfl rfl (by decide) (by decide) (by decide) (by decide)
  have h3 := Reach.step h2 rfl trivial (.callEnd (p := ()) (i := 0) rfl)
  have h4 := Reach.step h3 rfl trivial (.endAcq (p := ()) (i := 0) rfl rfl)
  have h5 := Reach.step h4 rfl trivial (.endLast (p := ()) (i := 0) rfl rfl rfl)
  have h6 := Reach.step h5 rfl trivial (.endRelCommit (p := ()) rfl)
  have h7 := Reach.step h6 rfl trivial (.commitRun (p := ()) rfl)
  exact ⟨_, h7, rfl, rfl, rfl, (group_commit_protocol h7).1 rfl⟩

/-! ## The reservation -/

/-- the distinct blocks operation `i` has called `log_write` on -/
def St.callsOf (s : St ι) (i : ℕ) : Finset Word := ((s.calls.filter (·.1 = i)).map Prod.snd).toFinset

omit [DecidableEq ι] in
theorem callsOf_eq_empty {i : ℕ} (h : ∀ c ∈ s.calls, c.1 < i) : s.callsOf i = ∅ := by
  unfold St.callsOf
  rw [filter_eq_nil_iff.mpr fun c hc => by simpa using (h c hc).ne]
  rfl

/-- blocks `a, …, a + n - 1` -/
def blocksFrom (a n : ℕ) : List Word := (List.range n).map fun k => BitVec.ofNat 32 (a + k)

/-- three operations log ten, ten and nine blocks, and the third calls `log_write` on a tenth -/
theorem three_operations : ∃ s : St ℕ, Reachable LOGSIZE s ∧ (∀ i, (s.callsOf i).card ≤ MAXOPBLOCKS) ∧ s.halt = some .tooBig := by
  have h1 : Reachable LOGSIZE _ := begin_run (p := 0) Reach.boot rfl rfl rfl rfl (by unfold St.Full; decide)
  have h2 := begin_run (p := 1) h1 rfl rfl rfl rfl (by unfold St.Full; decide)
  have h3 := begin_run (p := 2) h2 rfl rfl rfl rfl (by unfold St.Full; decide)
  have h4 := writes_run (p := 0) (i := 0) (blocksFrom 0 10) h3 rfl rfl rfl (by decide) (by decide) (by decide) (by decide)
  have h5 := writes_run (p := 1) (i := 1) (blocksFrom 10 10) h4 rfl rfl rfl (by decide) (by decide) (by decide) (by decide)
  have h6 := writes_run (p := 2) (i := 2) (blocksFrom 20 9) h5 rfl rfl rfl (by decide) (by decide) (by decide) (by decide)
  have h7 := Reach.step (p := 2) h6 rfl trivial (.callWrite 29 rfl)
  have h8 := Reach.step h7 rfl trivial (.writeTooBig (update_self 2 _ _) (by unfold St.TooBig; decide))
  refine ⟨_, h8, fun i => ?_, rfl⟩
  match i with
  | 0 | 1 | 2 => decide
  | i + 3 =>
    rw [callsOf_eq_empty fun c hc => lt_of_lt_of_le (b := 3) (by revert c; decide) (by omega)]
    simp

/-- three operations of `MAXOPBLOCKS` distinct blocks each are admitted together, and the last call panics -/
theorem whole_reservations_panic :
    ¬ ∀ s : St ℕ, Reachable LOGSIZE s → (∀ i, (s.callsOf i).card ≤ MAXOPBLOCKS) → s.halt ≠ some .tooBig := by
  intro hall
  obtain ⟨s, hs, hcalls, hhalt⟩ := three_operations
  exact hall s hs hcalls hhalt

theorem step_halt_tooBig (h : Step size s p s') (hh : s.halt = none) (ht : s'.halt = some .tooBig) : s'.TooBig size := by
  cases h with
  | writeTooBig hp hbig => exact hbig
  | _ => simp_all [St.go]

theorem blocksOf_subset (hi : Inv s) (i : ℕ) : s.abs.blocksOf i ⊆ s.callsOf i := by
  intro b hb
  have hc := (hi.calls (i, b)).mpr (.inl (GroupCommit.mem_blocksOf.mp hb))
  simpa [St.callsOf] using hc

/-- the header has room as long as every operation stays below its reservation -/
theorem not_tooBig (h : Reachable LOGSIZE s) (hle : ∀ i, (s.callsOf i).card ≤ MAXOPBLOCKS - 1) : s.halt ≠ some .tooBig := by
  have hi := reach_inv h
  have hadm : ∀ l k, Admit l k → (l.length : ℤ) + (k + 1) * ((MAXOPBLOCKS - 1 : ℕ) + 1) ≤ LOGSIZE := by
    intro l k ha
    unfold Admit at ha
    simp only [MAXOPBLOCKS, LOGSIZE] at *
    omega
  have hbudget := GroupCommit.reach_budget (by decide) hadm hi.abs
    fun i => le_trans (Finset.card_le_card (blocksOf_subset hi i)) (hle i)
  intro ht
  have hbig : s.TooBig LOGSIZE := by
    cases h with
    | boot => simp [St.boot] at ht
    | step _ hh _ hs => exact step_halt_tooBig hs hh ht
  unfold St.TooBig at hbig
  simp only [St.abs] at hbudget
  omega

/-- **The reservation.** That every operation calls `log_write` on at most `m` distinct blocks keeps every interleaving from
the panic `too big a transaction` if and only if `m` is less than the reserved `MAXOPBLOCKS`. -/
theorem reservation_suffices (m : ℕ) :
    (∀ s : St ℕ, Reachable LOGSIZE s → (∀ i, (s.callsOf i).card ≤ m) → s.halt ≠ some .tooBig) ↔ m < MAXOPBLOCKS := by
  constructor
  · intro hall
    by_contra hm
    obtain ⟨s, hs, hcalls, hhalt⟩ := three_operations
    exact hall s hs (fun i => (hcalls i).trans (Nat.le_of_not_lt hm)) hhalt
  · intro hm s hs hcalls
    exact not_tooBig hs fun i => (hcalls i).trans (Nat.le_sub_one_of_lt hm)

/-- **One block fewer.** If every operation calls `log_write` on at most `MAXOPBLOCKS - 1` distinct blocks, no
interleaving of any processes reaches the panic. -/
theorem nine_blocks_suffice (h : Reachable LOGSIZE s) (hle : ∀ i, (s.callsOf i).card ≤ MAXOPBLOCKS - 1) :
    s.halt ≠ some .tooBig :=
  not_tooBig h hle

/-- an operation that has logged nine blocks -/
theorem nine_blocks_suffice_first : ∃ s : St (Fin 3), Reachable LOGSIZE s ∧ (s.callsOf 0).card = 9 ∧ s.halt ≠ some .tooBig := by
  have h1 : Reachable LOGSIZE _ := begin_run (p := (0 : Fin 3)) Reach.boot rfl rfl rfl rfl (by unfold St.Full; decide)
  have h2 := writes_run (p := 0) (i := 0) (blocksFrom 0 9) h1 rfl rfl rfl (by decide) (by decide) (by decide) (by decide)
  refine ⟨_, h2, by decide, nine_blocks_suffice h2 fun i => ?_⟩
  cases i with
  | zero => decide
  | succ i =>
    rw [callsOf_eq_empty fun c hc => lt_of_lt_of_le (b := 1) (by revert c; decide) (by omega)]
    simp

end Xv6.Group
