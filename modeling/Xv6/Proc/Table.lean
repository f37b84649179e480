/-
The process table (proc.c): what allocproc, fork, exit, wait, kill, renice, sleep, wakeup, yield and the scheduler do to
it, one event for each stretch of code that runs under ptable.lock or on a private EMBRYO slot.

Pointers to slots are slot numbers, a null pointer is none; of kstack and pgdir only whether they are null is kept.
The table also carries a history that no code reads: how often a slot was allocated (`gen`), whether a kill named the
pid of its present occupant (`named`), and which occupants exited and were reaped.

`Ev.Pre` is what the code has established when the event happens; that it really does is shown where the CPUs and the
lock are modelled. Every event keeps

- `Family`: parents are live, every process but init has one, and nobody sleeps in wait over a ZOMBIE child;
- `Equipped`: processes have a kernel stack and a page directory, and nice values lie in range;
- `History`: each occupant is reaped at most once, after its exit.

and, when kill never hits an UNUSED slot and no killed EMBRYO is given back,
- `Unkilled`: an UNUSED slot is not killed, and an EMBRYO is killed only by a kill of its own pid.
-/
import Xv6.Proc.Lottery

namespace Xv6.Ptable

open List
open Lottery (ProcState)

/-! ## Model -/

abbrev Slot := Fin NPROC

instance : NeZero NPROC := ⟨by decide⟩

/-- what a process can sleep on: the address of a slot (in wait), or any other address -/
inductive Chan where
  | proc (i : Slot)
  | other (n : ℕ)
deriving DecidableEq, Repr

/-- struct proc -/
structure Proc where
  state : ProcState
  pid : Word
  parent : Option Slot
  chan : Option Chan
  killed : Bool
  kstack : Bool
  pgdir : Bool
  niceValue : Word

/-- ptable, nextpid and initproc, with the history -/
structure Table where
  proc : Slot → Proc
  nextpid : Word
  initproc : Option Slot
  gen : Slot → ℕ
  named : Slot → Bool
  exited : List (Slot × ℕ)
  reaped : List (Slot × ℕ)

namespace Table

def modify (t : Table) (i : Slot) (f : Proc → Proc) : Table :=
  { t with proc := update t.proc i (f (t.proc i)) }

/-- the first slot in table order that satisfies P -/
def find (t : Table) (P : Proc → Bool) : Option Slot := (List.finRange NPROC).find? fun p => P (t.proc p)

/-- the search of allocproc -/
def findUnused (t : Table) : Option Slot := t.find fun p => p.state = .UNUSED

/-- allocproc from label `found` to its release -/
def found (t : Table) (np : Slot) : Table :=
  { t.modify np fun p => { p with state := .EMBRYO, pid := t.nextpid } with
    nextpid := t.nextpid + 1
    gen := update t.gen np (t.gen np + 1)
    named := update t.named np false }

end Table

/-- the body of the loop of wakeup1 -/
def Proc.wake (p : Proc) (chan : Option Chan) : Proc :=
  if p.state = .SLEEPING ∧ p.chan = chan then { p with state := .RUNNABLE } else p

namespace Table

def wakeup1 (t : Table) (chan : Option Chan) : Table := { t with proc := fun p => (t.proc p).wake chan }

/-- kill(pid): the new table and the value returned -/
def kill (t : Table) (pid : Word) : Table × ℤ :=
  match t.find fun p => p.pid = pid with
  | none => (t, -1)
  | some p =>
    (t.modify p fun p => { p with
      killed := true, state := if p.state = .SLEEPING then .RUNNABLE else p.state }, 0)

/-- renice(nice_val, pid) after the range check: the loop and the value returned -/
def renice (t : Table) (niceVal pid : Word) : Table × ℤ :=
  ({ t with proc := fun p =>
      if (t.proc p).state ≠ .UNUSED ∧ (t.proc p).pid = pid then { t.proc p with niceValue := niceVal } else t.proc p },
    if (t.find fun p => p.state ≠ .UNUSED ∧ p.pid = pid).isSome then 0 else 2)

/-- exit, one round of the loop that passes abandoned children to init -/
def adopt (cur : Slot) (t : Table) (p : Slot) : Table :=
  if (t.proc p).parent = some cur then
    let t' := t.modify p fun q => { q with parent := t.initproc }
    if (t.proc p).state = .ZOMBIE then t'.wakeup1 (t.initproc.map .proc) else t'
  else t

/-- exit from its acquire to the call of sched -/
def exit (t : Table) (cur : Slot) : Table :=
  let t := t.wakeup1 ((t.proc cur).parent.map .proc)
  let t := (List.finRange NPROC).foldl (adopt cur) t
  t.modify cur fun p => { p with state := .ZOMBIE }

/-- the scan of wait: a ZOMBIE child if there is one, and havekids -/
def waitScan (t : Table) (cur : Slot) : List Slot → Bool → Option Slot × Bool
  | [], havekids => (none, havekids)
  | p :: rest, havekids =>
    if (t.proc p).parent ≠ some cur then t.waitScan cur rest havekids
    else if (t.proc p).state = .ZOMBIE then (some p, true)
    else t.waitScan cur rest true

end Table

/-- how one round of the loop of wait ends: with a child to reap, with -1, or in sleep -/
inductive WaitEnd where
  | reap (p : Slot)
  | fail
  | sleep
deriving DecidableEq, Repr

namespace Table

def wait (t : Table) (cur : Slot) : WaitEnd :=
  match t.waitScan cur (List.finRange NPROC) false with
  | (some p, _) => .reap p
  | (none, havekids) => if havekids = false ∨ (t.proc cur).killed then .fail else .sleep

/-- wait gives the slot of a ZOMBIE child back; freevm leaves the pointer pgdir as it is -/
def reap (t : Table) (p : Slot) : Table :=
  t.modify p fun q => { q with kstack := false, pid := 0, parent := none, killed := false, state := .UNUSED }

/-- fork publishes the child: RUNNABLE, with the nice value of its parent -/
def publish (t : Table) (np : Slot) : Table :=
  t.modify np fun p => { p with
    state := .RUNNABLE
    niceValue := match p.parent with
      | some q => (t.proc q).niceValue
      | none => p.niceValue }

end Table

/-- the range check of renice, on ints -/
def NiceOk (niceVal : Word) : Prop := (MIN_NICE_VALUE : ℤ) ≤ niceVal.toInt ∧ niceVal.toInt ≤ MAX_NICE_VALUE

instance (v : Word) : Decidable (NiceOk v) := inferInstanceAs (Decidable (_ ∧ _))

/-- what can happen to the table -/
inductive Ev where
  /-- allocproc takes a slot -/
  | alloc (np : Slot)
  /-- allocproc: kalloc failed, the slot is given back -/
  | kstackFail (np : Slot)
  /-- allocproc: kernel stack, and the default nice value -/
  | kstackOk (np : Slot)
  /-- fork: copyuvm failed, stack and slot are given back -/
  | copyFail (np : Slot)
  /-- fork (copyuvm) or userinit (setupkvm): page directory -/
  | copyOk (np : Slot)
  | setParent (np cur : Slot)
  | publish (np : Slot)
  | yield (cur : Slot)
  /-- sleep on an address that is no slot -/
  | sleep (cur : Slot) (n : ℕ)
  /-- sleep(curproc, &ptable.lock) in wait -/
  | waitSleep (cur : Slot)
  | reap (cur p : Slot)
  | wakeup (n : ℕ)
  | kill (pid : Word)
  | renice (niceVal pid : Word)
  | exit (cur : Slot)
  /-- the scheduler picks a process -/
  | dispatch (p : Slot)
  /-- sleep after sched: chan = 0 -/
  | tidy (cur : Slot)
  /-- trap: a process that misbehaved marks itself as killed -/
  | fault (cur : Slot)
  /-- userinit: initproc = p -/
  | setInit (np : Slot)
  /-- userinit: the first process becomes RUNNABLE -/
  | initRun (np : Slot)

def Ev.apply (t : Table) : Ev → Table
  | .alloc np => t.found np
  | .kstackFail np => t.modify np fun p => { p with kstack := false, state := .UNUSED }
  | .kstackOk np => t.modify np fun p => { p with kstack := true, niceValue := BitVec.ofNat 32 DEFAULT_NICE_VALUE }
  | .copyFail np => t.modify np fun p => { p with pgdir := false, kstack := false, state := .UNUSED }
  | .copyOk np => t.modify np fun p => { p with pgdir := true }
  | .setParent np cur => t.modify np fun p => { p with parent := some cur }
  | .publish np => t.publish np
  | .yield cur => t.modify cur fun p => { p with state := .RUNNABLE }
  | .sleep cur n => t.modify cur fun p => { p with chan := some (.other n), state := .SLEEPING }
  | .waitSleep cur => t.modify cur fun p => { p with chan := some (.proc cur), state := .SLEEPING }
  | .reap _ p => { t.reap p with reaped := (p, t.gen p) :: t.reaped }
  | .wakeup n => t.wakeup1 (some (.other n))
  | .kill pid => { (t.kill pid).1 with named := fun p => t.named p || (t.proc p).pid = pid }
  | .renice v pid => (t.renice v pid).1
  | .exit cur => { t.exit cur with exited := (cur, t.gen cur) :: t.exited }
  | .dispatch p => t.modify p fun p => { p with state := .RUNNING }
  | .tidy cur => t.modify cur fun p => { p with chan := none }
  | .fault cur => t.modify cur fun p => { p with killed := true }
  | .setInit np => { t with initproc := some np }
  | .initRun np => t.modify np fun p => { p with state := .RUNNABLE }

/-! ## Kinds of slots -/

/-- the states up to what the scheduler does with them -/
inductive Kind where
  | unused | embryo | live | zombie
deriving DecidableEq, Repr

def kind : ProcState → Kind
  | .UNUSED => .unused
  | .EMBRYO => .embryo
  | .ZOMBIE => .zombie
  | _ => .live

def Proc.kind (p : Proc) : Kind := Ptable.kind p.state

/-- a process: SLEEPING, RUNNABLE, RUNNING or ZOMBIE -/
def Proc.Used (p : Proc) : Prop := p.kind = .live ∨ p.kind = .zombie

/-- SLEEPING in wait -/
def Table.Waiting (t : Table) (i : Slot) : Prop := (t.proc i).state = .SLEEPING ∧ (t.proc i).chan = some (.proc i)

/-- what the code has established when an event happens -/
def Ev.Pre (t : Table) : Ev → Prop
  | .alloc np => t.findUnused = some np
  | .kstackFail np | .kstackOk np | .copyFail np | .copyOk np => (t.proc np).state = .EMBRYO
  | .setParent np cur => (t.proc np).state = .EMBRYO ∧ (t.proc cur).state = .RUNNING
  | .publish np => (t.proc np).state = .EMBRYO ∧ (t.proc np).kstack ∧ (t.proc np).pgdir ∧
    ∃ cur, (t.proc np).parent = some cur
  | .yield cur | .sleep cur _ | .tidy cur | .fault cur => (t.proc cur).state = .RUNNING
  | .waitSleep cur => (t.proc cur).state = .RUNNING ∧ t.wait cur = .sleep
  | .reap cur p => (t.proc cur).state = .RUNNING ∧ t.wait cur = .reap p
  | .wakeup _ | .kill _ => True
  | .renice v _ => NiceOk v
  | .exit cur => (t.proc cur).state = .RUNNING ∧ t.initproc ≠ some cur
  | .dispatch p => (t.proc p).state = .RUNNABLE
  | .setInit np => (t.proc np).state = .EMBRYO ∧ t.initproc = none
  | .initRun np => (t.proc np).state = .EMBRYO ∧ t.initproc = some np ∧ (t.proc np).kstack ∧ (t.proc np).pgdir

/-! ## Effect of the functions -/

theorem modify_self (t : Table) (i : Slot) (f : Proc → Proc) : (t.modify i f).proc i = f (t.proc i) :=
  update_self ..

variable {i j np cur : Slot} {p p' : Proc} {t t' : Table} {l : List Slot} {ev : Ev}

theorem modify_of_ne (t : Table) (h : j ≠ i) (f : Proc → Proc) : (t.modify i f).proc j = t.proc j :=
  update_of_ne h ..

theorem found_self (t : Table) (np : Slot) : (t.found np).proc np = { t.proc np with state := .EMBRYO, pid := t.nextpid } :=
  modify_self t np fun p => { p with state := .EMBRYO, pid := t.nextpid }

theorem found_of_ne (t : Table) (h : j ≠ np) : (t.found np).proc j = t.proc j :=
  modify_of_ne t h fun p => { p with state := .EMBRYO, pid := t.nextpid }

theorem reap_of_ne (t : Table) {p : Slot} (h : j ≠ p) : (t.reap p).proc j = t.proc j :=
  modify_of_ne t h fun q => { q with kstack := false, pid := 0, parent := none, killed := false, state := .UNUSED }

theorem find_spec {P : Proc → Bool} {p : Slot} (h : t.find P = some p) : P (t.proc p) = true := by
  unfold Table.find at h
  have := find?_some h
  exact this

theorem find_isSome_iff {P : Proc → Bool} : (t.find P).isSome ↔ ∃ p, P (t.proc p) = true := by
  unfold Table.find
  rw [find?_isSome]
  simp

/-- a slot after a wakeup: as before, or SLEEPING before and RUNNABLE now -/
def Roused (p p' : Proc) : Prop := p' = p ∨ p.state = .SLEEPING ∧ p' = { p with state := .RUNNABLE }

theorem wake_roused (p : Proc) (ch : Option Chan) : Roused p (p.wake ch) := by
  unfold Proc.wake
  split_ifs with h
  · exact .inr ⟨h.1, rfl⟩
  · exact .inl rfl

theorem Roused.trans {q r : Proc} (h1 : Roused p q) (h2 : Roused q r) : Roused p r := by
  rcases h2 with rfl | ⟨hs, rfl⟩
  · exact h1
  · rcases h1 with rfl | ⟨-, rfl⟩
    · exact .inr ⟨hs, rfl⟩
    · cases hs

theorem Roused.kind {q : Proc} (h : Roused p q) : q.kind = p.kind := by
  rcases h with rfl | ⟨hs, rfl⟩
  · rfl
  · simp [Proc.kind, hs, Ptable.kind]

theorem Roused.sleeping {q : Proc} (h : Roused p q) (hq : q.state = .SLEEPING) : q = p := by
  rcases h with rfl | ⟨-, rfl⟩
  · rfl
  · cases hq

theorem wake_with_parent (p : Proc) (ch : Option Chan) (x : Option Slot) :
    { p with parent := x }.wake ch = { p.wake ch with parent := x } := by
  unfold Proc.wake
  split_ifs <;> rfl

theorem wake_parent (p : Proc) (ch : Option Chan) : (p.wake ch).parent = p.parent := by
  unfold Proc.wake
  split_ifs <;> rfl

theorem wake_not_sleeping (p : Proc) (ch : Option Chan) (h : (p.wake ch).state = .SLEEPING) : p.chan ≠ ch := by
  intro hc
  unfold Proc.wake at h
  split_ifs at h with hs
  exact hs ⟨h, hc⟩

/-- what the loop of exit over the slots l does: the children of `cur` among them go to init, sleepers may be roused,
and if one of these children is a ZOMBIE nobody sleeps on init any more -/
structure Adopted (cur : Slot) (l : List Slot) (t t' : Table) : Prop where
  same : t' = { t with proc := t'.proc }
  parent : ∀ j, (t'.proc j).parent = if j ∈ l ∧ (t.proc j).parent = some cur then t.initproc else (t.proc j).parent
  other : ∀ j, ∃ q, Roused (t.proc j) q ∧ t'.proc j = { q with parent := (t'.proc j).parent }
  woke : ∀ p ∈ l, (t.proc p).parent = some cur → (t.proc p).state = .ZOMBIE → ∀ j, (t'.proc j).state = .SLEEPING →
    (t.proc j).chan ≠ t.initproc.map .proc

theorem adopted_one (cur : Slot) (t : Table) (p : Slot) : Adopted cur [p] t (t.adopt cur p) := by
  unfold Table.adopt
  by_cases hp : (t.proc p).parent = some cur
  · have hset : ∀ j, (t.modify p fun q => { q with parent := t.initproc }).proc j =
        { t.proc j with
          parent := if j ∈ [p] ∧ (t.proc j).parent = some cur then t.initproc else (t.proc j).parent } := by
      intro j
      by_cases hj : j = p
      · subst hj
        rw [modify_self, if_pos ⟨mem_singleton.2 rfl, hp⟩]
      · rw [modify_of_ne t hj, if_neg fun h => hj (mem_singleton.1 h.1)]
    by_cases hz : (t.proc p).state = .ZOMBIE
    · simp only [if_pos hp, if_pos hz]
      have hproc : ∀ j, (((t.modify p fun q => { q with parent := t.initproc }).wakeup1
          (t.initproc.map .proc)).proc j) = { (t.proc j).wake (t.initproc.map .proc) with
          parent := if j ∈ [p] ∧ (t.proc j).parent = some cur then t.initproc else (t.proc j).parent } := by
        intro j
        show ((t.modify p fun q => { q with parent := t.initproc }).proc j).wake _ = _
        rw [hset j, wake_with_parent]
      refine ⟨rfl, fun j => by rw [hproc j], fun j => ⟨_, wake_roused _ _, by rw [hproc j]⟩, fun q _ _ _ j hs => ?_⟩
      rw [hproc j] at hs
      exact wake_not_sleeping _ _ hs
    · simp only [if_pos hp, if_neg hz]
      refine ⟨rfl, fun j => by rw [hset j], fun j => ⟨_, .inl rfl, by rw [hset j]⟩, fun q hq _ hqz => ?_⟩
      rw [mem_singleton.1 hq] at hqz
      exact absurd hqz hz
  · simp only [if_neg hp]
    refine ⟨rfl, fun j => ?_, fun j => ⟨t.proc j, .inl rfl, rfl⟩, fun q hq hqp => ?_⟩
    · rw [if_neg]
      rintro ⟨hj, hjp⟩
      rw [mem_singleton.1 hj] at hjp
      exact hp hjp
    · rw [mem_singleton.1 hq] at hqp
      exact absurd hqp hp

theorem Adopted.nil (cur : Slot) (t : Table) : Adopted cur [] t t :=
  ⟨rfl, fun j => by simp, fun j => ⟨t.proc j, .inl rfl, rfl⟩, nofun⟩

theorem Adopted.trans {m : List Slot} {t'' : Table} (h1 : Adopted cur l t t')
    (h2 : Adopted cur m t' t'') : Adopted cur (l ++ m) t t'' := by
  have hinit : t'.initproc = t.initproc := by rw [h1.same]
  have hchan : ∀ j, (t'.proc j).chan = (t.proc j).chan := by
    intro j
    obtain ⟨q, hq, he⟩ := h1.other j
    rw [he]
    rcases hq with rfl | ⟨-, rfl⟩ <;> rfl
  have hback : ∀ j, (t''.proc j).state = .SLEEPING → (t'.proc j).state = .SLEEPING := by
    intro j hs
    obtain ⟨q, hq, he⟩ := h2.other j
    rw [he] at hs
    rcases hq with rfl | ⟨-, rfl⟩
    · exact hs
    · cases hs
  refine ⟨?_, fun j => ?_, fun j => ?_, fun p hp hpar hz j hs => ?_⟩
  · rw [h2.same, h1.same]
  · rw [h2.parent j, h1.parent j, hinit]
    by_cases hp : (t.proc j).parent = some cur
    · by_cases hl : j ∈ l
      · simp [hl, hp]
      · simp [hl, hp]
    · simp [hp]
  · obtain ⟨q, hq, he⟩ := h1.other j
    obtain ⟨q', hq', he'⟩ := h2.other j
    rcases hq' with rfl | ⟨hs, rfl⟩
    · exact ⟨q, hq, by rw [he', he]⟩
    · have hqs : q.state = .SLEEPING := by rw [he] at hs; exact hs
      exact ⟨{ q with state := .RUNNABLE }, hq.trans (.inr ⟨hqs, rfl⟩), by rw [he', he]⟩
  · by_cases hl : p ∈ l
    · exact h1.woke p hl hpar hz j (hback j hs)
    · have hm : p ∈ m := (mem_append.1 hp).resolve_left hl
      have hpar' : (t'.proc p).parent = some cur := by
        rw [h1.parent p, if_neg fun h => hl h.1]
        exact hpar
      have hz' : (t'.proc p).state = .ZOMBIE := by
        obtain ⟨q, hq, he⟩ := h1.other p
        rw [he]
        rcases hq with rfl | ⟨hs', -⟩
        · exact hz
        · rw [hz] at hs'
          cases hs'
      have := h2.woke p hm hpar' hz' j hs
      rw [hchan, hinit] at this
      exact this

/-- **The loop of exit** over any list of slots -/
theorem adopted_foldl (cur : Slot) (l : List Slot) (t : Table) : Adopted cur l t (l.foldl (Table.adopt cur) t) := by
  induction l generalizing t with
  | nil => exact Adopted.nil cur t
  | cons p l ih => exact (adopted_one cur t p).trans (ih _)

theorem waitScan_some {k k' : Bool} {p : Slot}
    (h : t.waitScan cur l k = (some p, k')) : (t.proc p).parent = some cur ∧ (t.proc p).state = .ZOMBIE := by
  induction l generalizing k with
  | nil => simp [Table.waitScan] at h
  | cons q l ih =>
    unfold Table.waitScan at h
    split_ifs at h with hp hz
    · exact ih h
    · cases h
      exact ⟨not_not.1 hp, hz⟩
    · exact ih h

/-- if it finds none, no child in the list is a ZOMBIE, and havekids says whether there was a child -/
theorem waitScan_none {k k' : Bool} (h : t.waitScan cur l k = (none, k')) :
    (∀ p ∈ l, (t.proc p).parent = some cur → (t.proc p).state ≠ .ZOMBIE) ∧
    (k' = false → ∀ p ∈ l, (t.proc p).parent ≠ some cur) ∧ (k = true → k' = true) := by
  induction l generalizing k with
  | nil =>
    cases h
    exact ⟨nofun, nofun, id⟩
  | cons q l ih =>
    unfold Table.waitScan at h
    split_ifs at h with hp hz
    · obtain ⟨h1, h2, h3⟩ := ih h
      refine ⟨?_, ?_, h3⟩
      · rintro p (_ | ⟨_, hm⟩) hpar
        · exact absurd hpar hp
        · exact h1 p hm hpar
      · rintro hk p (_ | ⟨_, hm⟩)
        · exact hp
        · exact h2 hk p hm
    · cases h
    · obtain ⟨h1, h2, h3⟩ := ih h
      refine ⟨?_, ?_, fun _ => h3 rfl⟩
      · rintro p (_ | ⟨_, hm⟩) hpar
        · exact hz
        · exact h1 p hm hpar
      · intro hk
        rw [h3 rfl] at hk
        cases hk

theorem wait_reap {p : Slot} (h : t.wait cur = .reap p) : (t.proc p).parent = some cur ∧ (t.proc p).state = .ZOMBIE := by
  unfold Table.wait at h
  split at h
  · rename_i q k hs
    cases h
    exact waitScan_some hs
  · split_ifs at h

theorem wait_sleep (h : t.wait cur = .sleep) (p : Slot) (hp : (t.proc p).parent = some cur) : (t.proc p).state ≠ .ZOMBIE := by
  unfold Table.wait at h
  split at h
  · cases h
  · rename_i k hs
    exact (waitScan_none hs).1 p (mem_finRange p) hp

/-- wait gives up on a caller that is not killed only if no slot has it as parent -/
theorem wait_fail (h : t.wait cur = .fail) (hk : (t.proc cur).killed = false) (p : Slot) : (t.proc p).parent ≠ some cur := by
  unfold Table.wait at h
  split at h
  · cases h
  · rename_i k hs
    split_ifs at h with hc
    rw [hk] at hc
    have hkids : k = false := by simpa using hc
    exact (waitScan_none hs).2.1 hkids p (mem_finRange p)

/-- what exit does: the children go to init, sleepers may be roused, the process is a ZOMBIE; nobody sleeps on its
parent any more, nor on init if it left a ZOMBIE child -/
structure Exited (cur : Slot) (t t' : Table) : Prop where
  same : t' = { t with proc := t'.proc }
  parent : ∀ j, (t'.proc j).parent = if (t.proc j).parent = some cur then t.initproc else (t.proc j).parent
  self : ∃ q, Roused (t.proc cur) q ∧ t'.proc cur = { q with parent := (t'.proc cur).parent, state := .ZOMBIE }
  other : ∀ j, j ≠ cur → ∃ q, Roused (t.proc j) q ∧ t'.proc j = { q with parent := (t'.proc j).parent }
  woke : ∀ j, (t'.proc j).state = .SLEEPING → (t.proc j).chan ≠ (t.proc cur).parent.map .proc
  woke_init : ∀ p, (t.proc p).parent = some cur → (t.proc p).state = .ZOMBIE → ∀ j, (t'.proc j).state = .SLEEPING →
    (t.proc j).chan ≠ t.initproc.map .proc

theorem wake_chan (p : Proc) (ch : Option Chan) : (p.wake ch).chan = p.chan := by
  unfold Proc.wake
  split_ifs <;> rfl

theorem exited_exit (t : Table) (cur : Slot) : Exited cur t (t.exit cur) := by
  have h := adopted_foldl cur (List.finRange NPROC) (t.wakeup1 ((t.proc cur).parent.map .proc))
  have hproc : ∀ j, (t.wakeup1 ((t.proc cur).parent.map .proc)).proc j =
      (t.proc j).wake ((t.proc cur).parent.map .proc) := fun _ => rfl
  show Exited cur t (((List.finRange NPROC).foldl (Table.adopt cur)
    (t.wakeup1 ((t.proc cur).parent.map .proc))).modify cur fun p => { p with state := .ZOMBIE })
  generalize (List.finRange NPROC).foldl (Table.adopt cur) (t.wakeup1 ((t.proc cur).parent.map .proc)) = u at h
  have hsame : u = { t with proc := u.proc } := h.same
  have hpar : ∀ j, (u.proc j).parent = if (t.proc j).parent = some cur then t.initproc else (t.proc j).parent := by
    intro j
    rw [h.parent j, hproc j, wake_parent]
    simp only [mem_finRange, true_and]
    rfl
  have hoth : ∀ j, ∃ q, Roused (t.proc j) q ∧ u.proc j = { q with parent := (u.proc j).parent } := by
    intro j
    obtain ⟨q, hq, he⟩ := h.other j
    exact ⟨q, (wake_roused _ _).trans hq, he⟩
  have hslp : ∀ j, ((u.modify cur fun p => { p with state := .ZOMBIE }).proc j).state = .SLEEPING →
      (u.proc j).state = .SLEEPING := by
    intro j hs
    by_cases hj : j = cur
    · subst hj
      rw [modify_self] at hs
      cases hs
    · rw [modify_of_ne u hj] at hs
      exact hs
  refine ⟨?_, fun j => ?_, ?_, fun j hj => ?_, fun j hs => ?_, fun p hp hz j hs => ?_⟩
  · conv_lhs => rw [hsame]
    conv_rhs => rw [hsame]
    rfl
  · rw [← hpar j]
    by_cases hj : j = cur
    · subst hj
      rw [modify_self]
    · rw [modify_of_ne u hj]
  · obtain ⟨q, hq, he⟩ := hoth cur
    refine ⟨q, hq, ?_⟩
    rw [modify_self]
    conv_lhs => rw [he]
  · obtain ⟨q, hq, he⟩ := hoth j
    refine ⟨q, hq, ?_⟩
    rw [modify_of_ne u hj]
    exact he
  · have hs' := hslp j hs
    obtain ⟨q, hq, he⟩ := h.other j
    rw [he] at hs'
    have hqw := hq.sleeping hs'
    rw [hqw, hproc] at hs'
    exact wake_not_sleeping _ _ hs'
  · have hs' := hslp j hs
    have hz' : ((t.wakeup1 ((t.proc cur).parent.map .proc)).proc p).state = .ZOMBIE := by
      rw [hproc]
      unfold Proc.wake
      rw [if_neg fun h => by rw [hz] at h; cases h.1]
      exact hz
    have := h.woke p (mem_finRange p) (by rw [hproc, wake_parent]; exact hp) hz' j hs'
    rw [hproc, wake_chan] at this
    exact this

/-! ## Families -/

/-- parents and children -/
structure Family (t : Table) : Prop where
  /-- a parent is SLEEPING, RUNNABLE or RUNNING -/
  parentLive : ∀ j q, (t.proc j).parent = some q → (t.proc q).kind = .live
  noSelf : ∀ j, (t.proc j).parent ≠ some j
  initOrphan : ∀ k, t.initproc = some k → (t.proc k).parent = none
  hasParent : ∀ j, (t.proc j).Used → t.initproc ≠ some j → (t.proc j).parent ≠ none
  initLive : ∀ j, (t.proc j).Used → ∃ k, t.initproc = some k ∧ (t.proc k).kind = .live
  /-- nobody sleeps in wait over a ZOMBIE child -/
  attended : ∀ i j, t.Waiting i → (t.proc j).parent = some i → (t.proc j).kind ≠ .zombie

/-- nothing about the family changes -/
structure SameRole (i : Slot) (p p' : Proc) : Prop where
  live : p'.kind = .live ↔ p.kind = .live
  zombie : p'.kind = .zombie ↔ p.kind = .zombie
  parent : p'.parent = p.parent
  waiting : p'.state = .SLEEPING → p'.chan = some (.proc i) → p.state = .SLEEPING ∧ p.chan = some (.proc i)

theorem SameRole.refl (i : Slot) (p : Proc) : SameRole i p p := ⟨Iff.rfl, Iff.rfl, rfl, fun h1 h2 => ⟨h1, h2⟩⟩

theorem SameRole.used (h : SameRole i p p') : p'.Used ↔ p.Used :=
  or_congr h.live h.zombie

theorem Family.frame (h : Family t) (hinit : t'.initproc = t.initproc)
    (hrole : ∀ j, SameRole j (t.proc j) (t'.proc j)) : Family t' where
  parentLive j q hp := by
    rw [(hrole j).parent] at hp
    exact (hrole q).live.2 (h.parentLive j q hp)
  noSelf j := by
    rw [(hrole j).parent]
    exact h.noSelf j
  initOrphan k hk := by
    rw [(hrole k).parent]
    exact h.initOrphan k (hinit.symm.trans hk)
  hasParent j hu hne := by
    rw [hinit] at hne
    rw [(hrole j).parent]
    exact h.hasParent j ((hrole j).used.1 hu) hne
  initLive j hu := by
    obtain ⟨k, hk, hl⟩ := h.initLive j ((hrole j).used.1 hu)
    exact ⟨k, hinit.trans hk, (hrole k).live.2 hl⟩
  attended i j hw hp hz := by
    rw [(hrole j).parent] at hp
    exact h.attended i j ((hrole i).waiting hw.1 hw.2) hp ((hrole j).zombie.1 hz)

theorem Family.modify (h : Family t) (i : Slot) (f : Proc → Proc)
    (hi : SameRole i (t.proc i) (f (t.proc i))) : Family (t.modify i f) := by
  refine h.frame rfl fun j => ?_
  by_cases hj : j = i
  · subst hj
    rw [modify_self]
    exact hi
  · rw [modify_of_ne t hj]
    exact SameRole.refl j _

theorem Roused.sameRole (h : Roused p p') (i : Slot) : SameRole i p p' := by
  rcases h with rfl | ⟨hs, rfl⟩
  · exact SameRole.refl i _
  · exact ⟨by simp [Proc.kind, hs, Ptable.kind], by simp [Proc.kind, hs, Ptable.kind], rfl, nofun⟩

theorem kind_of {st : ProcState} (h : p.state = st) : p.kind = Ptable.kind st := by
  unfold Proc.kind
  rw [h]

theorem kind_zombie : p.kind = .zombie ↔ p.state = .ZOMBIE := by
  unfold Proc.kind
  cases p.state <;> simp [Ptable.kind]

theorem kind_embryo : p.kind = .embryo ↔ p.state = .EMBRYO := by
  unfold Proc.kind
  cases p.state <;> simp [Ptable.kind]

section

variable (h : Family t)
include h

/-- the child is published: it has a live parent and is not asleep -/
theorem Family.publish (he : (t.proc np).state = .EMBRYO) (hp : (t.proc np).parent = some cur) (p' : Proc)
    (hp' : p'.state = .RUNNABLE) (hpar : p'.parent = (t.proc np).parent) : Family (t.modify np fun _ => p') := by
  have hcur : (t.proc cur).kind = .live := h.parentLive np cur hp
  have hke : (t.proc np).kind = .embryo := kind_embryo.2 he
  have hkn : p'.kind = .live := kind_of hp'
  have hlive : ∀ k, (t.proc k).kind = .live → ((t.modify np fun _ => p').proc k).kind = .live := by
    intro k hk
    by_cases hkn' : k = np
    · subst hkn'
      rw [modify_self]
      exact hkn
    · rw [modify_of_ne t hkn']
      exact hk
  have hparent : ∀ j, ((t.modify np fun _ => p').proc j).parent = (t.proc j).parent := by
    intro j
    by_cases hj : j = np
    · subst hj
      rw [modify_self]
      exact hpar
    · rw [modify_of_ne t hj]
  refine ⟨fun j q hq => ?_, fun j => ?_, fun k hk => ?_, fun j hu hne => ?_, fun j hu => ?_, fun i j hw hpj hz => ?_⟩
  · rw [hparent] at hq
    exact hlive q (h.parentLive j q hq)
  · rw [hparent]
    exact h.noSelf j
  · rw [hparent]
    exact h.initOrphan k hk
  · rw [hparent]
    by_cases hj : j = np
    · subst hj
      rw [hp]
      exact Option.some_ne_none _
    · rw [modify_of_ne t hj] at hu
      exact h.hasParent j hu hne
  · obtain ⟨k, hk, hl⟩ := h.initLive cur (.inl hcur)
    exact ⟨k, hk, hlive k hl⟩
  · rw [hparent] at hpj
    by_cases hi : i = np
    · subst hi
      have := hw.1
      rw [modify_self, hp'] at this
      cases this
    · by_cases hj : j = np
      · subst hj
        rw [modify_self, hkn] at hz
        cases hz
      · unfold Table.Waiting at hw
        rw [modify_of_ne t hi] at hw
        rw [modify_of_ne t hj] at hz
        exact h.attended i j hw hpj hz

theorem Family.exit (hrun : (t.proc cur).state = .RUNNING) (hninit : t.initproc ≠ some cur) : Family (t.exit cur) := by
  have hx := exited_exit t cur
  generalize t.exit cur = t' at hx
  have hinit : t'.initproc = t.initproc := by rw [hx.same]
  obtain ⟨k0, hk0, hlive0⟩ := h.initLive cur (.inl (kind_of hrun))
  have hk0cur : k0 ≠ cur := by
    rintro rfl
    exact hninit hk0
  have hkind : ∀ j, j ≠ cur → (t'.proc j).kind = (t.proc j).kind := by
    intro j hj
    obtain ⟨q, hq, he⟩ := hx.other j hj
    rw [he]
    exact hq.kind
  have hself : (t'.proc cur).kind = .zombie := by
    obtain ⟨q, -, he⟩ := hx.self
    rw [he]
    rfl
  have hused : ∀ j, (t'.proc j).Used → (t.proc j).Used := by
    intro j hu
    by_cases hj : j = cur
    · subst hj
      exact .inl (kind_of hrun)
    · unfold Proc.Used at hu
      rw [hkind j hj] at hu
      exact hu
  have horph := h.initOrphan k0 hk0
  refine ⟨fun j q hq => ?_, fun j => ?_, fun k hk => ?_, fun j hu hne => ?_, fun j hu => ?_, fun i j hw hpj hz => ?_⟩
  · rw [hx.parent j] at hq
    split_ifs at hq with hc
    · rw [hk0] at hq
      cases hq
      rw [hkind k0 hk0cur]
      exact hlive0
    · have hqc : q ≠ cur := by
        rintro rfl
        exact hc hq
      rw [hkind q hqc]
      exact h.parentLive j q hq
  · rw [hx.parent j]
    split_ifs with hc
    · rw [hk0]
      rintro ⟨⟩
      rw [horph] at hc
      cases hc
    · exact h.noSelf j
  · rw [hinit, hk0] at hk
    cases hk
    rw [hx.parent k0, if_neg (by rw [horph]; exact fun e => by cases e)]
    exact horph
  · rw [hinit] at hne
    rw [hx.parent j]
    split_ifs
    · rw [hk0]
      exact Option.some_ne_none _
    · exact h.hasParent j (hused j hu) hne
  · exact ⟨k0, hinit.trans hk0, by rw [hkind k0 hk0cur]; exact hlive0⟩
  · have hi : i ≠ cur := by
      rintro rfl
      have := hw.1
      obtain ⟨q, -, he⟩ := hx.self
      rw [he] at this
      cases this
    -- a process asleep after exit was asleep before, on the same channel
    have hwas : t.Waiting i := by
      obtain ⟨q, hq, he⟩ := hx.other i hi
      obtain ⟨h1, h2⟩ := hw
      rw [he] at h1 h2
      have hqe := hq.sleeping h1
      rw [hqe] at h1 h2
      exact ⟨h1, h2⟩
    by_cases hj : j = cur
    · -- its own parent was woken
      subst hj
      rw [hx.parent j] at hpj
      split_ifs at hpj with hc
      · exact h.noSelf j hc
      · exact hx.woke i hw.1 (by rw [hwas.2, hpj]; rfl)
    · rw [hkind j hj] at hz
      rw [hx.parent j] at hpj
      split_ifs at hpj with hc
      · -- a ZOMBIE passed to init: init was woken
        exact hx.woke_init j hc (kind_zombie.1 hz) i hw.1 (by rw [hwas.2, hpj]; rfl)
      · exact h.attended i j hwas hpj hz

theorem Family.setParent (he : (t.proc np).state = .EMBRYO)
    (hrun : (t.proc cur).state = .RUNNING) : Family (t.modify np fun p => { p with parent := some cur }) := by
  have hcur : (t.proc cur).kind = .live := kind_of hrun
  have hne : cur ≠ np := by
    rintro rfl
    rw [he] at hrun
    cases hrun
  have hnew : ((t.modify np fun p => { p with parent := some cur }).proc np) = { t.proc np with parent := some cur } :=
    modify_self ..
  have hkind : ∀ j, ((t.modify np fun p => { p with parent := some cur }).proc j).kind = (t.proc j).kind := by
    intro j
    by_cases hj : j = np
    · subst hj
      rw [hnew]
      rfl
    · rw [modify_of_ne t hj]
  have hused : ∀ j, ((t.modify np fun p => { p with parent := some cur }).proc j).Used ↔ (t.proc j).Used := by
    intro j
    unfold Proc.Used
    rw [hkind j]
  obtain ⟨k0, hk0, hlive0⟩ := h.initLive cur (.inl hcur)
  refine ⟨fun j q hq => ?_, fun j => ?_, fun k hk => ?_, fun j hu hi => ?_, fun j hu => ?_, fun i j hw hpj hz => ?_⟩
  · rw [hkind q]
    by_cases hj : j = np
    · subst hj
      rw [hnew] at hq
      cases hq
      exact hcur
    · rw [modify_of_ne t hj] at hq
      exact h.parentLive j q hq
  · by_cases hj : j = np
    · subst hj
      rw [hnew]
      rintro ⟨⟩
      exact hne rfl
    · rw [modify_of_ne t hj]
      exact h.noSelf j
  · -- init is live, the new child is not
    have hkn : k ≠ np := by
      rintro rfl
      have hk' : t.initproc = some k := hk
      rw [hk0] at hk'
      cases hk'
      rw [kind_embryo.2 he] at hlive0
      cases hlive0
    rw [modify_of_ne t hkn]
    exact h.initOrphan k hk
  · by_cases hj : j = np
    · subst hj
      rw [hnew]
      exact Option.some_ne_none _
    · rw [modify_of_ne t hj]
      exact h.hasParent j ((hused j).1 hu) hi
  · exact ⟨k0, hk0, (hkind k0).trans hlive0⟩
  · rw [hkind j] at hz
    by_cases hj : j = np
    · subst hj
      rw [kind_embryo.2 he] at hz
      cases hz
    · rw [modify_of_ne t hj] at hpj
      refine h.attended i j ?_ hpj hz
      by_cases hi : i = np
      · subst hi
        rw [Table.Waiting, hnew] at hw
        exact hw
      · rw [Table.Waiting, modify_of_ne t hi] at hw
        exact hw

/-- a process goes to sleep in wait: its scan found no ZOMBIE child -/
theorem Family.waitSleep (hrun : (t.proc cur).state = .RUNNING)
    (hscan : ∀ p, (t.proc p).parent = some cur → (t.proc p).state ≠ .ZOMBIE) :
    Family (t.modify cur fun p => { p with chan := some (.proc cur), state := .SLEEPING }) := by
  have hcur : (t.proc cur).kind = .live := kind_of hrun
  have hkind : ∀ j, ((t.modify cur fun p => { p with chan := some (.proc cur), state := .SLEEPING }).proc j).kind =
      (t.proc j).kind := by
    intro j
    by_cases hj : j = cur
    · subst hj
      rw [modify_self, hcur]
      rfl
    · rw [modify_of_ne t hj]
  have hpar : ∀ j, ((t.modify cur fun p => { p with chan := some (.proc cur), state := .SLEEPING }).proc j).parent =
      (t.proc j).parent := by
    intro j
    by_cases hj : j = cur
    · subst hj
      rw [modify_self]
    · rw [modify_of_ne t hj]
  refine ⟨fun j q hq => ?_, fun j => ?_, fun k hk => ?_, fun j hu hi => ?_, fun j hu => ?_, fun i j hw hpj hz => ?_⟩
  · rw [hkind q]
    exact h.parentLive j q (by rwa [hpar j] at hq)
  · rw [hpar]
    exact h.noSelf j
  · rw [hpar]
    exact h.initOrphan k hk
  · rw [hpar]
    unfold Proc.Used at hu
    rw [hkind] at hu
    exact h.hasParent j hu hi
  · obtain ⟨k0, hk0, hl⟩ := h.initLive cur (.inl hcur)
    exact ⟨k0, hk0, (hkind k0).trans hl⟩
  · rw [hpar] at hpj
    rw [hkind] at hz
    by_cases hi : i = cur
    · subst hi
      exact hscan j hpj (kind_zombie.1 hz)
    · rw [Table.Waiting, modify_of_ne t hi] at hw
      exact h.attended i j hw hpj hz

theorem Family.reap {p : Slot} (hz : (t.proc p).state = .ZOMBIE) : Family (t.reap p) := by
  have hnew : (t.reap p).proc p =
      { t.proc p with kstack := false, pid := 0, parent := none, killed := false, state := .UNUSED } := modify_self ..
  have hold : ∀ j, j ≠ p → (t.reap p).proc j = t.proc j := fun j hj => reap_of_ne t hj
  have hlive : ∀ j, (t.proc j).kind = .live → ((t.reap p).proc j).kind = .live := by
    intro j hj
    have hjp : j ≠ p := by
      rintro rfl
      rw [kind_zombie.2 hz] at hj
      cases hj
    rw [hold j hjp]
    exact hj
  have hback : ∀ j, ((t.reap p).proc j).Used → j ≠ p := by
    rintro j hu rfl
    rw [hnew] at hu
    rcases hu with e | e <;> cases e
  refine ⟨fun j q hq => ?_, fun j => ?_, fun k hk => ?_, fun j hu hi => ?_, fun j hu => ?_, fun i j hw hpj hzj => ?_⟩
  · by_cases hj : j = p
    · subst hj
      rw [hnew] at hq
      cases hq
    · rw [hold j hj] at hq
      exact hlive q (h.parentLive j q hq)
  · by_cases hj : j = p
    · subst hj
      rw [hnew]
      exact nofun
    · rw [hold j hj]
      exact h.noSelf j
  · by_cases hk' : k = p
    · subst hk'
      rw [hnew]
    · rw [hold k hk']
      exact h.initOrphan k hk
  · have hj := hback j hu
    rw [hold j hj] at hu ⊢
    exact h.hasParent j hu hi
  · have hj := hback j hu
    rw [hold j hj] at hu
    obtain ⟨k, hk, hl⟩ := h.initLive j hu
    exact ⟨k, hk, hlive k hl⟩
  · by_cases hj : j = p
    · subst hj
      rw [hnew] at hpj
      cases hpj
    · rw [hold j hj] at hpj hzj
      by_cases hi : i = p
      · subst hi
        have := hw.1
        rw [hnew] at this
        cases this
      · rw [Table.Waiting, hold i hi] at hw
        exact h.attended i j hw hpj hzj

theorem Family.no_process (hn : t.initproc = none) (j : Slot) : ¬ (t.proc j).Used := by
  intro hu
  obtain ⟨k, hk, -⟩ := h.initLive j hu
  rw [hn] at hk
  cases hk

theorem Family.setInit (hn : t.initproc = none) : Family { t with initproc := some np } := by
  have hnone : ∀ j, (t.proc j).parent = none := by
    intro j
    cases hp : (t.proc j).parent with
    | none => rfl
    | some q => exact absurd (.inl (h.parentLive j q hp)) (h.no_process hn q)
  refine ⟨h.parentLive, h.noSelf, fun k _ => hnone k, fun j hu => absurd hu (h.no_process hn j),
    fun j hu => absurd hu (h.no_process hn j), h.attended⟩

theorem Family.initRun (he : (t.proc np).state = .EMBRYO)
    (hi : t.initproc = some np) : Family (t.modify np fun p => { p with state := .RUNNABLE }) := by
  have hnone : ∀ j, ¬ (t.proc j).Used := by
    intro j hu
    obtain ⟨k, hk, hl⟩ := h.initLive j hu
    rw [hi] at hk
    cases hk
    rw [kind_embryo.2 he] at hl
    cases hl
  have hpar : ∀ j, ((t.modify np fun p => { p with state := .RUNNABLE }).proc j).parent = none := by
    intro j
    have hj : (t.proc j).parent = none := by
      cases hp : (t.proc j).parent with
      | none => rfl
      | some q => exact absurd (.inl (h.parentLive j q hp)) (hnone q)
    by_cases hjn : j = np
    · subst hjn
      rw [modify_self]
      exact hj
    · rw [modify_of_ne t hjn]
      exact hj
  refine ⟨fun j q hq => ?_, fun j => ?_, fun k _ => hpar k, fun j hu hne => ?_, fun j _ => ⟨np, hi, ?_⟩,
    fun i j _ hpj => ?_⟩
  · rw [hpar j] at hq
    cases hq
  · rw [hpar j]
    exact nofun
  · have hj : j ≠ np := by
      rintro rfl
      exact hne hi
    rw [modify_of_ne t hj] at hu
    exact absurd hu (hnone j)
  · rw [modify_self]
    rfl
  · rw [hpar j] at hpj
    cases hpj

end

/-- a change that leaves a slot out of the families: neither before nor after it holds a process -/
theorem sameRole_outside (h : ¬ p.Used) (h' : ¬ p'.Used) (hp : p'.parent = p.parent) : SameRole i p p' := by
  unfold Proc.Used at h h'
  refine ⟨⟨fun e => absurd (.inl e) h', fun e => absurd (.inl e) h⟩,
    ⟨fun e => absurd (.inr e) h', fun e => absurd (.inr e) h⟩, hp, fun hs _ => absurd (.inl (kind_of hs)) h'⟩

/-- a live process changes between RUNNABLE, RUNNING and a sleep outside wait -/
theorem sameRole_live (h : p.kind = .live) (h' : p'.kind = .live) (hp : p'.parent = p.parent)
    (hs : p'.state = .SLEEPING → p'.chan ≠ some (.proc i)) : SameRole i p p' :=
  ⟨⟨fun _ => h, fun _ => h'⟩, by rw [h, h'], hp, fun h1 h2 => absurd h2 (hs h1)⟩

theorem not_used_embryo (h : p.state = .EMBRYO) : ¬ p.Used := by
  rintro (e | e) <;> rw [kind_of h] at e <;> cases e

theorem not_used_unused (h : p.state = .UNUSED) : ¬ p.Used := by
  rintro (e | e) <;> rw [kind_of h] at e <;> cases e

theorem findUnused_state (h : t.findUnused = some np) : (t.proc np).state = .UNUSED := by
  simpa using find_spec h

theorem kill_cases (t : Table) (pid : Word) : ((t.kill pid) = (t, -1) ∧ ∀ p, (t.proc p).pid ≠ pid) ∨
    ∃ p q, t.find (fun p => p.pid = pid) = some p ∧ (t.proc p).pid = pid ∧ Roused (t.proc p) q ∧
      t.kill pid = (t.modify p fun _ => { q with killed := true }, 0) := by
  unfold Table.kill
  cases hf : t.find fun p => p.pid = pid with
  | none =>
    refine .inl ⟨rfl, fun p hp => ?_⟩
    have : (t.find fun p => p.pid = pid).isSome := find_isSome_iff.2 ⟨p, by simpa using hp⟩
    rw [hf] at this
    cases this
  | some p =>
    right
    have hpid : (t.proc p).pid = pid := by simpa using find_spec hf
    by_cases hs : (t.proc p).state = .SLEEPING
    · refine ⟨p, { t.proc p with state := .RUNNABLE }, rfl, hpid, .inr ⟨hs, rfl⟩, ?_⟩
      simp only [Table.modify, hs, if_true]
    · refine ⟨p, t.proc p, rfl, hpid, .inl rfl, ?_⟩
      simp only [Table.modify, hs, if_false]

theorem Family.congr (h : Family t) (hproc : t'.proc = t.proc) (hinit : t'.initproc = t.initproc) : Family t' :=
  h.frame hinit fun j => by rw [hproc]; exact SameRole.refl j _

/-- **Families are kept by every event.** -/
theorem Family.apply (h : Family t) (hp : ev.Pre t) : Family (ev.apply t) := by
  unfold Ev.apply
  cases ev with
  | alloc np =>
    have hm : Family (t.modify np fun p => { p with state := .EMBRYO, pid := t.nextpid }) := by
      refine h.modify np _ ?_
      exact sameRole_outside (not_used_unused (findUnused_state hp)) (not_used_embryo rfl) rfl
    exact hm.congr rfl rfl
  | kstackFail np | copyFail np =>
    refine h.modify np _ ?_
    exact sameRole_outside (not_used_embryo hp) (not_used_unused rfl) rfl
  | kstackOk np | copyOk np =>
    refine h.modify np _ ?_
    exact sameRole_outside (not_used_embryo hp) (not_used_embryo hp) rfl
  | setParent np cur => exact h.setParent hp.1 hp.2
  | publish np =>
    obtain ⟨he, -, -, cur, hcur⟩ := hp
    refine h.publish he hcur _ rfl ?_
    rfl
  | yield cur | sleep cur n =>
    refine h.modify cur _ ?_
    exact sameRole_live (kind_of hp) rfl rfl nofun
  | waitSleep cur => exact h.waitSleep hp.1 (wait_sleep hp.2)
  | reap cur p => exact (h.reap (wait_reap hp.2).2).congr rfl rfl
  | wakeup n => exact h.frame rfl fun j => (wake_roused _ _).sameRole j
  | kill pid =>
    have hk : Family (t.kill pid).1 := by
      rcases kill_cases t pid with ⟨e, -⟩ | ⟨p, q, -, -, hq, e⟩
      · rw [e]
        exact h
      · rw [e]
        obtain ⟨h1, h2, h3, h4⟩ := hq.sameRole p
        exact h.modify p (fun _ => { q with killed := true }) ⟨h1, h2, h3, h4⟩
    exact hk.congr rfl rfl
  | renice v pid =>
    refine h.frame rfl fun j => ?_
    show SameRole j (t.proc j) (if _ then _ else _)
    split_ifs
    · exact ⟨Iff.rfl, Iff.rfl, rfl, fun h1 h2 => ⟨h1, h2⟩⟩
    · exact SameRole.refl j _
  | exit cur =>
    have hx := h.exit hp.1 hp.2
    show Family { t.exit cur with exited := _ }
    generalize t.exit cur = u at hx
    exact hx.congr rfl rfl
  | dispatch p =>
    refine h.modify p _ ?_
    exact sameRole_live (kind_of hp) rfl rfl nofun
  | tidy cur =>
    have hr : (t.proc cur).state = .RUNNING := hp
    refine h.modify cur _ ?_
    refine ⟨Iff.rfl, Iff.rfl, rfl, fun hs _ => ?_⟩
    have : (t.proc cur).state = .SLEEPING := hs
    rw [hr] at this
    cases this
  | fault cur =>
    refine h.modify cur _ ?_
    exact ⟨Iff.rfl, Iff.rfl, rfl, fun h1 h2 => ⟨h1, h2⟩⟩
  | setInit np => exact h.setInit hp.2
  | initRun np => exact h.initRun hp.1 hp.2.1

/-! ## Stacks, page directories and nice values -/

/-- a slot with a kernel stack has a nice value in range, and a process has stack and page directory -/
structure SlotEquipped (p : Proc) : Prop where
  nice : p.kstack = true → NiceOk p.niceValue
  backed : p.Used → p.kstack = true ∧ p.pgdir = true

def Equipped (t : Table) : Prop := ∀ j, SlotEquipped (t.proc j)

theorem Equipped.modify (h : Equipped t) (i : Slot) (f : Proc → Proc) (hi : SlotEquipped (f (t.proc i))) :
    Equipped (t.modify i f) := by
  intro j
  by_cases hj : j = i
  · subst hj
    rw [modify_self]
    exact hi
  · rw [modify_of_ne t hj]
    exact h j

theorem SlotEquipped.frame (h : SlotEquipped p) (hu : p'.Used → p.Used) (hk : p'.kstack = p.kstack)
    (hd : p'.pgdir = p.pgdir) (hn : p'.niceValue = p.niceValue) : SlotEquipped p' :=
  ⟨fun e => by rw [hn]; exact h.nice (hk ▸ e), fun e => by rw [hk, hd]; exact h.backed (hu e)⟩

theorem Roused.equipped (h : Roused p p') (hp : SlotEquipped p) : SlotEquipped p' := by
  rcases h with rfl | ⟨hs, rfl⟩
  · exact hp
  · exact hp.frame (fun _ => .inl (kind_of hs)) rfl rfl rfl

theorem Equipped.exit (h : Equipped t) (hrun : (t.proc cur).state = .RUNNING) : Equipped (t.exit cur) := by
  have hx := exited_exit t cur
  generalize t.exit cur = t' at hx
  intro j
  by_cases hj : j = cur
  · subst hj
    obtain ⟨q, hq, he⟩ := hx.self
    rw [he]
    exact (hq.equipped (h j)).frame (fun _ => .inl (by rw [hq.kind]; exact kind_of hrun)) rfl rfl rfl
  · obtain ⟨q, hq, he⟩ := hx.other j hj
    rw [he]
    exact (hq.equipped (h j)).frame id rfl rfl rfl

/-- **Every event keeps processes equipped.** A child takes over the nice value of its live parent. -/
theorem Equipped.apply (h : Equipped t) (hf : Family t) (hp : ev.Pre t) : Equipped (ev.apply t) := by
  unfold Ev.apply
  cases ev with
  | alloc np =>
    have hm : Equipped (t.modify np fun p => { p with state := .EMBRYO, pid := t.nextpid }) := by
      refine h.modify np _ ?_
      exact (h np).frame (fun e => absurd e (not_used_embryo rfl)) rfl rfl rfl
    exact hm
  | kstackFail np | copyFail np =>
    refine h.modify np _ ?_
    exact ⟨nofun, fun e => absurd e (not_used_unused rfl)⟩
  | kstackOk np =>
    refine h.modify np _ ?_
    exact ⟨fun _ => by show NiceOk (BitVec.ofNat 32 DEFAULT_NICE_VALUE); decide, fun e => absurd e (not_used_embryo hp)⟩
  | copyOk np =>
    refine h.modify np _ ?_
    exact ⟨(h np).nice, fun e => absurd e (not_used_embryo hp)⟩
  | setParent np cur =>
    refine h.modify np _ ?_
    exact (h np).frame id rfl rfl rfl
  | publish np =>
    obtain ⟨-, hk, hd, cur, hcur⟩ := hp
    refine h.modify np _ ?_
    refine ⟨fun _ => ?_, fun _ => ⟨hk, hd⟩⟩
    simp only [hcur]
    exact (h cur).nice ((h cur).backed (.inl (hf.parentLive np cur hcur))).1
  | yield cur | sleep cur n =>
    refine h.modify cur _ ?_
    exact (h cur).frame (fun _ => .inl (kind_of hp)) rfl rfl rfl
  | waitSleep cur =>
    refine h.modify cur _ ?_
    exact (h cur).frame (fun _ => .inl (kind_of hp.1)) rfl rfl rfl
  | reap cur p =>
    have hm : Equipped (t.reap p) := by
      refine h.modify p _ ?_
      exact ⟨nofun, fun e => absurd e (not_used_unused rfl)⟩
    exact hm
  | wakeup n => exact fun j => (wake_roused _ _).equipped (h j)
  | kill pid =>
    rcases kill_cases t pid with ⟨e, -⟩ | ⟨p, q, -, -, hq, e⟩
    · show Equipped (t.kill pid).1
      rw [e]
      exact h
    · show Equipped (t.kill pid).1
      rw [e]
      exact h.modify p (fun _ => { q with killed := true }) ((hq.equipped (h p)).frame id rfl rfl rfl)
  | renice v pid =>
    intro j
    show SlotEquipped (if _ then _ else _)
    split_ifs
    · exact ⟨fun _ => hp, (h j).backed⟩
    · exact h j
  | exit cur =>
    have hx := h.exit hp.1
    show Equipped { t.exit cur with exited := _ }
    generalize t.exit cur = u at hx
    exact hx
  | dispatch p =>
    refine h.modify p _ ?_
    exact (h p).frame (fun _ => .inl (kind_of hp)) rfl rfl rfl
  | tidy cur | fault cur =>
    refine h.modify cur _ ?_
    exact (h cur).frame id rfl rfl rfl
  | setInit np => exact h
  | initRun np =>
    refine h.modify np _ ?_
    exact ⟨(h np).nice, fun _ => hp.2.2⟩

/-! ## Lives of the occupants -/

/-- occupants exit before they are reaped, and are reaped at most once -/
structure History (t : Table) : Prop where
  zombie : ∀ j, (t.proc j).state = .ZOMBIE → (j, t.gen j) ∈ t.exited
  after : ∀ x ∈ t.reaped, x ∈ t.exited
  old : ∀ x ∈ t.reaped, x.2 < t.gen x.1 ∨ x.2 = t.gen x.1 ∧ (t.proc x.1).state = .UNUSED
  once : t.reaped.Nodup

theorem History.frame (h : History t) (hz : ∀ j, (t'.proc j).state = .ZOMBIE → (t.proc j).state = .ZOMBIE)
    (hu : ∀ j, (t.proc j).state = .UNUSED → (t'.proc j).state = .UNUSED) (hg : t'.gen = t.gen)
    (he : t'.exited = t.exited) (hr : t'.reaped = t.reaped) : History t' where
  zombie j hj := by
    rw [hg, he]
    exact h.zombie j (hz j hj)
  after x hx := by
    rw [he]
    exact h.after x (hr ▸ hx)
  old x hx := by
    rw [hg]
    exact (h.old x (hr ▸ hx)).imp_right fun e => ⟨e.1, hu _ e.2⟩
  once := by
    rw [hr]
    exact h.once

theorem History.modify (h : History t) (i : Slot) (f : Proc → Proc)
    (hz : (f (t.proc i)).state = .ZOMBIE → (t.proc i).state = .ZOMBIE)
    (hu : (t.proc i).state = .UNUSED → (f (t.proc i)).state = .UNUSED) : History (t.modify i f) := by
  refine h.frame (fun j => ?_) (fun j => ?_) rfl rfl rfl
  · by_cases hj : j = i
    · subst hj
      rw [modify_self]
      exact hz
    · rw [modify_of_ne t hj]
      exact id
  · by_cases hj : j = i
    · subst hj
      rw [modify_self]
      exact hu
    · rw [modify_of_ne t hj]
      exact id

/-- a slot in a known state other than UNUSED gets one other than ZOMBIE -/
theorem History.modify_of (h : History t) (i : Slot) (f : Proc → Proc) {st : ProcState}
    (hi : (t.proc i).state = st) (hst : st ≠ .UNUSED) (hf : (f (t.proc i)).state ≠ .ZOMBIE) : History (t.modify i f) :=
  h.modify i f (fun e => absurd e hf) fun e => absurd (hi.symm.trans e) hst

theorem Roused.state_iff (h : Roused p p') :
    (p'.state = .ZOMBIE → p.state = .ZOMBIE) ∧ (p.state = .UNUSED → p'.state = .UNUSED) := by
  rcases h with rfl | ⟨hs, rfl⟩
  · exact ⟨id, id⟩
  · exact ⟨nofun, fun e => by rw [hs] at e; cases e⟩

theorem History.alloc (h : History t) (np : Slot) : History (t.found np) := by
  have hold : ∀ j, j ≠ np → (t.found np).proc j = t.proc j := fun j hj => found_of_ne t hj
  have hnew : ((t.found np).proc np).state = .EMBRYO := by rw [found_self]
  have hgen : ∀ j, j ≠ np → (t.found np).gen j = t.gen j := fun j hj => update_of_ne hj ..
  have hgnp : (t.found np).gen np = t.gen np + 1 := update_self ..
  refine ⟨fun j hj => ?_, h.after, fun x hx => ?_, h.once⟩
  · have hjn : j ≠ np := by
      rintro rfl
      rw [hnew] at hj
      cases hj
    rw [hold j hjn] at hj
    rw [hgen j hjn]
    exact h.zombie j hj
  · have hx' := h.old x hx
    by_cases hxn : x.1 = np
    · rw [hxn] at hx' ⊢
      left
      rw [hgnp]
      omega
    · rw [hgen _ hxn, hold _ hxn]
      exact hx'

theorem History.reap (h : History t) {p : Slot} (hz : (t.proc p).state = .ZOMBIE) :
    History { t.reap p with reaped := (p, t.gen p) :: t.reaped } := by
  have hold : ∀ j, j ≠ p → (t.reap p).proc j = t.proc j := fun j hj => reap_of_ne t hj
  have hnew : ((t.reap p).proc p).state = .UNUSED := congrArg Proc.state (modify_self t p _)
  have hfresh : (p, t.gen p) ∉ t.reaped := by
    intro hm
    rcases h.old _ hm with hlt | ⟨-, hu⟩
    · exact absurd hlt (lt_irrefl _)
    · rw [hz] at hu
      cases hu
  refine ⟨fun j hj => ?_, fun x hx => ?_, fun x hx => ?_, nodup_cons.2 ⟨hfresh, h.once⟩⟩
  · have hjp : j ≠ p := by
      rintro rfl
      rw [hnew] at hj
      cases hj
    rw [hold j hjp] at hj
    exact h.zombie j hj
  · rcases mem_cons.1 hx with rfl | hx
    · exact h.zombie p hz
    · exact h.after x hx
  · rcases mem_cons.1 hx with rfl | hx
    · exact .inr ⟨rfl, hnew⟩
    · rcases h.old x hx with hlt | ⟨he, hu⟩
      · exact .inl hlt
      · refine .inr ⟨he, ?_⟩
        have hxp : x.1 ≠ p := by
          intro e
          rw [e, hz] at hu
          cases hu
        rw [hold _ hxp]
        exact hu

theorem History.exit (h : History t) (hrun : (t.proc cur).state = .RUNNING) :
    History { t.exit cur with exited := (cur, t.gen cur) :: t.exited } := by
  have hx := exited_exit t cur
  generalize t.exit cur = t' at hx
  have hgen : t'.gen = t.gen := by rw [hx.same]
  have hreap : t'.reaped = t.reaped := by rw [hx.same]
  have hother : ∀ j, j ≠ cur → ((t'.proc j).state = .ZOMBIE → (t.proc j).state = .ZOMBIE) ∧
      ((t.proc j).state = .UNUSED → (t'.proc j).state = .UNUSED) := by
    intro j hj
    obtain ⟨q, hq, he⟩ := hx.other j hj
    rw [he]
    exact hq.state_iff
  refine ⟨fun j hj => ?_, fun x hxm => ?_, fun x hxm => ?_, ?_⟩
  · show (j, t'.gen j) ∈ _
    rw [hgen]
    by_cases hjc : j = cur
    · subst hjc
      exact mem_cons_self ..
    · exact mem_cons_of_mem _ (h.zombie j ((hother j hjc).1 hj))
  · have hxm' : x ∈ t'.reaped := hxm
    rw [hreap] at hxm'
    exact mem_cons_of_mem _ (h.after x hxm')
  · have hxm' : x ∈ t'.reaped := hxm
    rw [hreap] at hxm'
    show x.2 < t'.gen x.1 ∨ x.2 = t'.gen x.1 ∧ (t'.proc x.1).state = .UNUSED
    rw [hgen]
    refine (h.old x hxm').imp_right fun ⟨he, hu⟩ => ⟨he, (hother x.1 ?_).2 hu⟩
    intro e
    rw [e, hrun] at hu
    cases hu
  · show t'.reaped.Nodup
    rw [hreap]
    exact h.once

/-- **Every event keeps the history right.** -/
theorem History.apply (h : History t) (hp : ev.Pre t) : History (ev.apply t) := by
  unfold Ev.apply
  cases ev with
  | alloc np => exact h.alloc np
  | kstackFail np | copyFail np => exact h.modify np _ nofun fun _ => rfl
  | kstackOk np | copyOk np | setParent np cur => exact h.modify np _ id id
  | publish np | initRun np => exact h.modify_of np _ hp.1 nofun nofun
  | yield cur | sleep cur n => exact h.modify_of cur _ hp nofun nofun
  | waitSleep cur => exact h.modify_of cur _ hp.1 nofun nofun
  | reap cur p => exact h.reap (wait_reap hp.2).2
  | wakeup n =>
    exact h.frame (fun j => (wake_roused _ _).state_iff.1) (fun j => (wake_roused _ _).state_iff.2) rfl rfl rfl
  | kill pid =>
    have hk : History (t.kill pid).1 := by
      rcases kill_cases t pid with ⟨e, -⟩ | ⟨p, q, -, -, hq, e⟩
      · rw [e]
        exact h
      · rw [e]
        exact h.modify p (fun _ => { q with killed := true }) hq.state_iff.1 hq.state_iff.2
    exact ⟨hk.zombie, hk.after, hk.old, hk.once⟩
  | renice v pid =>
    have hst : ∀ j, ((t.renice v pid).1.proc j).state = (t.proc j).state := by
      intro j
      show Proc.state (if _ then _ else _) = _
      split_ifs <;> rfl
    exact h.frame (fun j e => (hst j).symm.trans e) (fun j e => (hst j).trans e) rfl rfl rfl
  | exit cur => exact h.exit hp.1
  | dispatch p => exact h.modify_of p _ hp nofun nofun
  | tidy cur | fault cur => exact h.modify cur _ id id
  | setInit np => exact ⟨h.zombie, h.after, h.old, h.once⟩

/-! ## Slots an event leaves alone -/

/-- the slot whose state, stack or page directory the event sets -/
def Ev.Subject (j : Slot) : Ev → Prop
  | .alloc np | .kstackFail np | .kstackOk np | .copyFail np | .copyOk np | .setParent np _ | .publish np
  | .initRun np => j = np
  | .yield cur | .sleep cur _ | .waitSleep cur | .exit cur | .dispatch cur => j = cur
  | .reap _ p => j = p
  | _ => False

/-- any other slot can only be roused, and lose an exiting parent -/
structure Untouched (ev : Ev) (p p' : Proc) : Prop where
  state : p'.state = p.state ∨ p.state = .SLEEPING ∧ p'.state = .RUNNABLE
  kstack : p'.kstack = p.kstack
  pgdir : p'.pgdir = p.pgdir
  parent : (∀ cur, ev = .exit cur → p.parent ≠ some cur) → p'.parent = p.parent

theorem Untouched.refl (ev : Ev) (p : Proc) : Untouched ev p p := ⟨.inl rfl, rfl, rfl, fun _ => rfl⟩

theorem Roused.untouched (h : Roused p p') (ev : Ev) : Untouched ev p p' := by
  rcases h with rfl | ⟨hs, rfl⟩
  · exact Untouched.refl ev _
  · exact ⟨.inr ⟨hs, rfl⟩, rfl, rfl, fun _ => rfl⟩

theorem modify_untouched (t : Table) (ev : Ev) (f : Proc → Proc) (h : j ≠ i) :
    Untouched ev (t.proc j) ((t.modify i f).proc j) := by
  rw [modify_of_ne t h]
  exact Untouched.refl ev _

/-- a change of one slot that sets none of the fields in question -/
theorem modify_mark (t : Table) (i j : Slot) (ev : Ev) (f : Proc → Proc) (h : Untouched ev (t.proc i) (f (t.proc i))) :
    Untouched ev (t.proc j) ((t.modify i f).proc j) := by
  by_cases hj : j = i
  · subst hj
    rw [modify_self]
    exact h
  · exact modify_untouched t ev f hj

/-- **Frame.** -/
theorem Ev.untouched (hj : ¬ ev.Subject j) : Untouched ev (t.proc j) ((ev.apply t).proc j) := by
  unfold Ev.apply
  cases ev with
  | alloc np =>
    show Untouched _ _ ((t.found np).proc j)
    rw [found_of_ne t hj]
    exact Untouched.refl _ _
  | kstackFail np | kstackOk np | copyFail np | copyOk np | setParent np cur | yield cur | sleep cur n | waitSleep cur
  | dispatch p | initRun np => exact modify_untouched t _ _ hj
  | publish np =>
    show Untouched _ _ ((t.publish np).proc j)
    exact modify_untouched t _ _ hj
  | reap cur p =>
    show Untouched _ _ ((t.reap p).proc j)
    rw [reap_of_ne t hj]
    exact Untouched.refl _ _
  | wakeup n => exact (wake_roused _ _).untouched _
  | kill pid =>
    show Untouched _ _ ((t.kill pid).1.proc j)
    rcases kill_cases t pid with ⟨e, -⟩ | ⟨p, q, -, -, hq, e⟩
    · rw [e]
      exact Untouched.refl _ _
    · rw [e]
      obtain ⟨h1, h2, h3, h4⟩ := hq.untouched (.kill pid)
      exact modify_mark t p j _ (fun _ => { q with killed := true }) ⟨h1, h2, h3, h4⟩
  | renice v pid =>
    show Untouched _ _ (if _ then _ else _)
    split_ifs
    · exact ⟨.inl rfl, rfl, rfl, fun _ => rfl⟩
    · exact Untouched.refl _ _
  | exit cur =>
    have hx := exited_exit t cur
    show Untouched _ _ ((t.exit cur).proc j)
    generalize t.exit cur = t' at hx
    obtain ⟨q, hq, he⟩ := hx.other j hj
    obtain ⟨h1, h2, h3, -⟩ := hq.untouched (.exit cur)
    refine ⟨by rw [he]; exact h1, by rw [he]; exact h2, by rw [he]; exact h3, fun hne => ?_⟩
    rw [hx.parent j, if_neg (hne cur rfl)]
  | tidy cur | fault cur =>
    refine modify_mark t cur j _ _ ?_
    exact ⟨.inl rfl, rfl, rfl, fun _ => rfl⟩
  | setInit np => exact Untouched.refl _ _

theorem Ev.initproc_eq (h : ∀ np, ev ≠ .setInit np) : (ev.apply t).initproc = t.initproc := by
  cases ev with
  | kill pid =>
    show (t.kill pid).1.initproc = _
    rcases kill_cases t pid with ⟨e, -⟩ | ⟨p, q, -, -, -, e⟩
    · rw [e]
    · rw [e]
      rfl
  | exit cur =>
    have hx := exited_exit t cur
    unfold Ev.apply
    dsimp only
    generalize t.exit cur = t' at hx
    rw [hx.same]
  | setInit np => exact absurd rfl (h np)
  | _ => rfl

/-! ## Killed slots -/

/-- what the code would have to check: kill does not take an UNUSED slot for a process, and a slot given back by a
failed fork is not left killed -/
def Ev.Clean (t : Table) : Ev → Prop
  | .kill pid => ∀ p, t.find (fun p => p.pid = pid) = some p → (t.proc p).state ≠ .UNUSED
  | .kstackFail np | .copyFail np => (t.proc np).killed = false
  | _ => True

/-- an UNUSED slot is not killed, and an EMBRYO only if a kill named its pid -/
def Unkilled (t : Table) : Prop := ∀ j, (t.proc j).killed = true →
  (t.proc j).state ≠ .UNUSED ∧ ((t.proc j).state = .EMBRYO → t.named j = true)

theorem Unkilled.modify (h : Unkilled t) (i : Slot) (f : Proc → Proc)
    (hi : (f (t.proc i)).killed = true → (f (t.proc i)).state ≠ .UNUSED ∧ ((f (t.proc i)).state = .EMBRYO → t.named i = true)) :
    Unkilled (t.modify i f) := by
  intro j
  by_cases hj : j = i
  · subst hj
    rw [modify_self]
    exact hi
  · rw [modify_of_ne t hj]
    exact h j

theorem Unkilled.modify_live (h : Unkilled t) (i : Slot) (f : Proc → Proc)
    (hl : (f (t.proc i)).kind = .live) : Unkilled (t.modify i f) := by
  refine h.modify i f fun _ => ⟨fun e => ?_, fun e => ?_⟩
  · rw [kind_of e] at hl
    cases hl
  · rw [kind_of e] at hl
    cases hl

theorem Roused.unkilled (h : Roused p p') {n : Bool} (hp : p.killed = true → p.state ≠ .UNUSED ∧ (p.state = .EMBRYO → n = true)) :
    p'.killed = true → p'.state ≠ .UNUSED ∧ (p'.state = .EMBRYO → n = true) := by
  rcases h with rfl | ⟨-, rfl⟩
  · exact hp
  · exact fun _ => ⟨nofun, nofun⟩

/-- **Clean events leave no killed slot behind.** -/
theorem Unkilled.apply (h : Unkilled t) (hp : ev.Pre t) (hc : ev.Clean t) : Unkilled (ev.apply t) := by
  unfold Ev.apply
  cases ev with
  | alloc np =>
    intro j
    by_cases hj : j = np
    · subst hj
      rw [found_self]
      intro hk
      exact absurd (findUnused_state hp) (h j hk).1
    · have hnamed : (t.found np).named j = t.named j := update_of_ne hj ..
      rw [found_of_ne t hj, hnamed]
      exact h j
  | kstackFail np | copyFail np => exact h.modify np _ fun hk => by rw [show (t.proc np).killed = false from hc] at hk; cases hk
  | kstackOk np | copyOk np | setParent np cur => exact h.modify np _ (h np)
  | publish np | initRun np => exact h.modify_live np _ rfl
  | yield cur | sleep cur n | waitSleep cur => exact h.modify_live cur _ rfl
  | reap cur p =>
    have hm : Unkilled (t.reap p) := by
      refine h.modify p _ ?_
      exact nofun
    exact hm
  | wakeup n => exact fun j => (wake_roused _ _).unkilled (h j)
  | kill pid =>
    intro j hk
    have hj : ((t.kill pid).1.proc j).killed = true := hk
    show ((t.kill pid).1.proc j).state ≠ _ ∧ (((t.kill pid).1.proc j).state = _ → (t.named j || _) = true)
    rcases kill_cases t pid with ⟨e, -⟩ | ⟨p, q, hfind, hpid, hq, e⟩
    · rw [e] at hj ⊢
      exact ⟨(h j hj).1, fun he => by rw [(h j hj).2 he]; rfl⟩
    · have hu : (t.proc p).state ≠ .UNUSED := hc p hfind
      rw [e] at hj ⊢
      by_cases hjp : j = p
      · subst hjp
        rw [modify_self]
        refine ⟨fun he => hu ?_, fun _ => by simp [hpid]⟩
        rcases hq with rfl | ⟨-, rfl⟩
        · exact he
        · cases he
      · rw [modify_of_ne t hjp] at hj ⊢
        exact ⟨(h j hj).1, fun he => by rw [(h j hj).2 he]; rfl⟩
  | renice v pid =>
    intro j
    show Proc.killed (if _ then _ else _) = true → Proc.state (if _ then _ else _) ≠ _ ∧ (Proc.state (if _ then _ else _) = _ → _)
    split_ifs
    · exact h j
    · exact h j
  | exit cur =>
    have hx := exited_exit t cur
    show Unkilled { t.exit cur with exited := _ }
    generalize t.exit cur = t' at hx
    intro j
    show (t'.proc j).killed = true → (t'.proc j).state ≠ _ ∧ ((t'.proc j).state = _ → t'.named j = true)
    have hnamed : t'.named = t.named := by rw [hx.same]
    rw [hnamed]
    by_cases hj : j = cur
    · subst hj
      obtain ⟨q, -, he⟩ := hx.self
      rw [he]
      exact fun _ => ⟨nofun, nofun⟩
    · obtain ⟨q, hq, he⟩ := hx.other j hj
      rw [he]
      exact hq.unkilled (h j)
  | dispatch p => exact h.modify_live p _ rfl
  | tidy cur => exact h.modify cur _ (h cur)
  | fault cur => exact h.modify_live cur _ (kind_of hp)
  | setInit np => exact h

end Xv6.Ptable
