/-
Sleep-locks (sleeplock.c): `acquiresleep`, `releasesleep` and `holdingsleep` on one lock by any number of processes.

The fields locked and pid are the data of a monitor with lock lk->lk and the one channel lk; the steps of sleep, wakeup
and kill are those of the monitor library. A process in its own code calls acquiresleep or holdingsleep at any time,
also while it holds the lock, and calls releasesleep only while it holds it. Its code points carry its pid and whether it
is between a completed acquiresleep and its releasesleep.

Results:
- `sleeplock_exclusive`: with lk->lk free, at most one process holds the lock, locked and pid say which one,
  holdingsleep is true for it alone, and nobody sleeps on a lock that is not taken.
-/
import Xv6.Lib.Monitor

namespace Xv6.Sleeplock

open Lib.Monitor

/-! ## Model -/

/-- struct sleeplock, without its spinlock and name -/
structure SleepLock where
  locked : Bool
  pid : ℕ

/-- r = lk->locked && (lk->pid == myproc()->pid) -/
def holdingsleep (lk : SleepLock) (pid : ℕ) : Bool := lk.locked && lk.pid == pid

/-- the statements of the three functions -/
inductive Stmt where
  /-- in the code of the process; r is what the last holdingsleep returned -/
  | user (r : Bool)
  /-- acquiresleep: acquire(&lk->lk) -/
  | enter
  /-- acquiresleep: test of the while loop, then the two stores -/
  | test
  /-- acquiresleep: sleep(lk, &lk->lk) -/
  | wait
  /-- acquiresleep: release(&lk->lk) -/
  | entered
  /-- releasesleep: acquire(&lk->lk) -/
  | leave
  /-- releasesleep: locked = 0, pid = 0 -/
  | clear
  /-- releasesleep: wakeup(lk) -/
  | wake
  /-- releasesleep: release(&lk->lk) -/
  | left
  /-- holdingsleep: acquire(&lk->lk) -/
  | ask
  /-- holdingsleep: r = ... -/
  | look
  /-- holdingsleep: release(&lk->lk), return r -/
  | answer (r : Bool)

/-- a code point of the process with this pid; `own` says that it is between an acquiresleep that has taken the lock and
the releasesleep that gives it up -/
structure Point where
  stmt : Stmt
  pid : ℕ
  own : Bool

/-- the calls of a process: releasesleep only of a lock it holds -/
def Call (k k' : Point) : Prop :=
  k' = { k with stmt := .enter } ∨ (k.own = true ∧ k' = { k with stmt := .leave }) ∨ k' = { k with stmt := .ask }

def code (k : Point) : Instr SleepLock Point Unit :=
  match k.stmt with
  | .user _ => .choose (Call k)
  | .enter => .acquire { k with stmt := .test }
  | .test => .act fun _ lk =>
    if lk.locked then (lk, { k with stmt := .wait }) else (⟨true, k.pid⟩, { k with stmt := .entered, own := true })
  | .wait => .sleep () { k with stmt := .test }
  | .entered => .release { k with stmt := .user false }
  | .leave => .acquire { k with stmt := .clear }
  | .clear => .act fun _ _ => (⟨false, 0⟩, { k with stmt := .wake, own := false })
  | .wake => .wakeup () { k with stmt := .left }
  | .left => .release { k with stmt := .user false }
  | .ask => .acquire { k with stmt := .look }
  | .look => .act fun _ lk => (lk, { k with stmt := .answer (holdingsleep lk k.pid) })
  | .answer r => .release { k with stmt := .user r }

/-- after initsleeplock: not taken, and every process in its own code, the process of thread t having the pid `pid t` -/
structure Init (pid : ℕ → ℕ) (s : Cfg SleepLock Point Unit) : Prop where
  lk : s.lk = none
  pt : s.pt = none
  d : s.d = ⟨false, 0⟩
  pos : ∀ t, s.pos t = .run ⟨.user false, pid t, false⟩

abbrev Reachable (pid : ℕ → ℕ) : Cfg SleepLock Point Unit → Prop := Reach code (fun _ _ _ => True) (Init pid)

/-- the code point lies between an acquiresleep that has taken the lock and the stores of the releasesleep -/
def Point.owns (k : Point) : Prop :=
  match k.stmt with
  | .leave | .clear => True
  | _ => k.own = true

/-- process t is between a completed acquiresleep and its releasesleep -/
def Holds (s : Cfg SleepLock Point Unit) (t : ℕ) : Prop := (s.pos t).point.owns

/-! ## Discipline of the three functions -/

/-- lk->lk is held from its acquire to its release -/
def holds (k : Point) : Prop :=
  match k.stmt with
  | .user _ | .enter | .leave | .ask => False
  | _ => True

/-- sleep is called with the lock taken -/
def sees (k : Point) (lk : SleepLock) : Prop :=
  match k.stmt with
  | .wait => lk.locked = true
  | _ => True

/-- the process that the two fields name -/
def owner (lk : SleepLock) : Option ℕ := if lk.locked then some lk.pid else none

theorem locked : Locked code (fun _ _ _ => True) holds sees fun _ => True where
  acquire := by
    rintro ⟨stmt, pid, own⟩ k' h
    cases stmt <;> cases h <;> exact ⟨id, trivial, fun _ _ => trivial⟩
  release := by
    rintro ⟨stmt, pid, own⟩ k' h
    cases stmt <;> cases h <;> exact ⟨trivial, id⟩
  act := by
    rintro ⟨stmt, pid, own⟩ f h
    cases stmt with
    | test =>
      cases h
      refine ⟨trivial, fun _ lk _ _ _ => ?_⟩
      by_cases hl : lk.locked = true
      · simp only [if_pos hl]
        exact ⟨trivial, trivial, hl⟩
      · simp only [if_neg hl]
        exact ⟨trivial, trivial, trivial⟩
    | clear | look =>
      cases h
      exact ⟨trivial, fun _ _ _ _ _ => ⟨trivial, trivial, trivial⟩⟩
    | _ => cases h
  choose := by
    rintro ⟨stmt, pid, own⟩ P k' h hk
    cases stmt <;> cases h
    rcases hk with rfl | ⟨-, rfl⟩ | rfl <;> exact ⟨Iff.rfl, fun _ _ => trivial⟩
  wakeup := by
    rintro ⟨stmt, pid, own⟩ ch k' h
    cases stmt <;> cases h
    exact ⟨Iff.rfl, fun _ hs => hs⟩
  sleep := by
    rintro ⟨stmt, pid, own⟩ ch k' h
    cases stmt <;> cases h
    exact ⟨trivial, trivial, fun _ _ => trivial⟩

/-- after it cleared the fields releasesleep owes the wakeup -/
def owes (k : Point) (_ : Unit) : Prop :=
  match k.stmt with
  | .wake => True
  | _ => False

theorem holds_of_owes (k : Point) (ch : Unit) (h : owes k ch) : holds k := by
  obtain ⟨stmt, pid, own⟩ := k
  cases stmt <;> first | exact h.elim | trivial

theorem holds_of_wakeup (k : Point) (ch : Unit) (k' : Point) (h : code k = .wakeup ch k') : holds k' := by
  obtain ⟨stmt, pid, own⟩ := k
  cases stmt <;> cases h
  trivial

theorem wakes : Wakes code (fun _ _ _ => True) sees (fun _ => True) (fun _ lk => lk.locked = true) owes where
  acquire := by
    rintro ⟨stmt, pid, own⟩ k' ch h ho
    cases stmt <;> cases h <;> exact ho.elim
  release := by
    rintro ⟨stmt, pid, own⟩ k' ch h ho
    cases stmt <;> cases h <;> exact ho.elim
  act := by
    rintro ⟨stmt, pid, own⟩ f h _ lk ch _ _ _ hb
    cases stmt with
    | test =>
      cases h
      by_cases hl : lk.locked = true
      · simp only [if_pos hl]
        exact .inl hl
      · simp only [if_neg hl]
        exact .inl trivial
    | clear =>
      cases h
      exact .inr trivial
    | look =>
      cases h
      exact .inl (hb.resolve_right id)
    | _ => cases h
  choose := by
    rintro ⟨stmt, pid, own⟩ P k' ch h hk ho
    cases stmt <;> cases h
    exact ho.elim
  wakeup := by
    rintro ⟨stmt, pid, own⟩ ch' k' ch h ho
    cases stmt <;> cases h
    exact .inl rfl
  sleep := by
    rintro ⟨stmt, pid, own⟩ ch k' h
    cases stmt <;> cases h
    exact ⟨fun _ => id, fun _ => id, fun _ hs => hs⟩

/-- the process that takes the lock becomes its owner, and only the owner gives it up -/
theorem owned : Owned code (fun _ _ _ => True) (fun k lk => True ∧ sees k lk) Point.pid (fun k (_ : Unit) => k.owns)
    (fun lk _ => owner lk) where
  acquire := by
    rintro ⟨stmt, pid, own⟩ k' h
    cases stmt <;> cases h <;> exact ⟨rfl, fun _ => Iff.rfl⟩
  release := by
    rintro ⟨stmt, pid, own⟩ k' h
    cases stmt <;> cases h <;> exact ⟨rfl, fun _ => Iff.rfl⟩
  act := by
    rintro ⟨stmt, pid, own⟩ f h _ lk _ _ howns
    cases stmt with
    | test =>
      cases h
      by_cases hl : lk.locked = true
      · simp only [if_pos hl]
        exact ⟨trivial, howns, fun _ _ _ => trivial⟩
      · -- the free lock has no owner: taking it takes it from nobody
        simp only [if_neg hl]
        have hnone : owner lk = none := if_neg hl
        refine ⟨trivial, fun _ => ⟨fun _ => rfl, fun _ => rfl⟩, fun _ i hi => ?_⟩
        rw [hnone]
        exact ⟨fun e => absurd (Option.some.inj e).symm hi, nofun⟩
    | clear =>
      cases h
      refine ⟨rfl, fun _ => ⟨nofun, nofun⟩, fun _ i hi => ?_⟩
      have hme : owner lk = some pid := (howns ()).1 trivial
      rw [hme]
      exact ⟨nofun, fun e => absurd (Option.some.inj e).symm hi⟩
    | look =>
      cases h
      exact ⟨rfl, howns, fun _ _ _ => Iff.rfl⟩
    | _ => cases h
  choose := by
    rintro ⟨stmt, pid, own⟩ P k' h hk
    cases stmt <;> cases h
    rcases hk with rfl | ⟨hown, rfl⟩ | rfl
    · exact ⟨rfl, fun _ => Iff.rfl⟩
    · exact ⟨rfl, fun _ => ⟨fun _ => hown, fun _ => trivial⟩⟩
    · exact ⟨rfl, fun _ => Iff.rfl⟩
  wakeup := by
    rintro ⟨stmt, pid, own⟩ ch k' h
    cases stmt <;> cases h
    exact ⟨rfl, fun _ => Iff.rfl⟩
  sleep := by
    rintro ⟨stmt, pid, own⟩ ch k' h
    cases stmt <;> cases h
    exact ⟨rfl, fun _ => Iff.rfl⟩

/-! ## Exclusion -/

/-- the start point of some process -/
def Start (k : Point) : Prop := ∃ pid, k = ⟨.user false, pid, false⟩

theorem start_free (k : Point) (h : Start k) : ¬ holds k := by
  obtain ⟨pid, rfl⟩ := h
  exact id

theorem Init.initial {pid : ℕ → ℕ} (s : Cfg SleepLock Point Unit) (h : Init pid s) : Initial Start s ∧ True :=
  ⟨⟨h.lk, h.pt, fun t => ⟨_, ⟨pid t, rfl⟩, h.pos t⟩⟩, trivial⟩

theorem Init.own {pid : ℕ → ℕ} (s : Cfg SleepLock Point Unit) (h : Init pid s) :
    OwnInv Point.pid (fun k (_ : Unit) => k.owns) (fun lk _ => owner lk) pid s := by
  have hnone : owner s.d = none := by rw [h.d]; rfl
  refine ⟨fun t => by rw [h.pos]; rfl, fun t _ => ?_, fun _ i hi => ?_⟩
  · rw [h.pos, hnone]
    exact ⟨nofun, nofun⟩
  · rw [hnone] at hi
    cases hi

theorem owner_eq_some {lk : SleepLock} {pid : ℕ} : owner lk = some pid ↔ holdingsleep lk pid = true := by
  obtain ⟨locked, p⟩ := lk
  cases locked <;> simp [owner, holdingsleep]

/-- **Sleep-locks are exclusive and never strand a waiter.** For any number of processes with distinct pids, some killed
at any time, in every reachable state with lk->lk free, whoever has ptable.lock: at most one process is between a completed
acquiresleep and its releasesleep; locked is set if and only if there is one; pid is then its pid, and holdingsleep is
true for it and false for every other process; nobody is SLEEPING on lk while locked is clear. -/
theorem sleeplock_exclusive (pid : ℕ → ℕ) (hpid : Function.Injective pid) (s : Cfg SleepLock Point Unit) (h : Reachable pid s)
    (hlk : s.lk = none) : (∀ t u, Holds s t → Holds s u → t = u) ∧ (s.d.locked = true ↔ ∃ t, Holds s t) ∧
    (∀ t, Holds s t → s.d.pid = pid t ∧ ∀ u, holdingsleep s.d (pid u) = true ↔ u = t) ∧
    ∀ t, (s.pos t).SleepsOn () → s.d.locked = true := by
  have hown := reach_owned hpid locked.sections owned Init.initial start_free Init.own h
  have hholds : ∀ t, Holds s t ↔ holdingsleep s.d (pid t) = true := fun t => (hown.owns_iff t ()).trans owner_eq_some
  have hunique : ∀ t u, Holds s t → Holds s u → t = u := by
    intro t u ht hu
    have := ((hown.owns_iff t ()).1 ht).symm.trans ((hown.owns_iff u ()).1 hu)
    exact hpid (Option.some.inj this)
  refine ⟨hunique, ⟨fun hl => ?_, fun ⟨t, ht⟩ => ?_⟩, fun t ht => ⟨?_, fun u => ⟨fun hu => ?_, fun e => ?_⟩⟩, fun t ht => ?_⟩
  · obtain ⟨t, ht⟩ := hown.known () s.d.pid (if_pos hl)
    exact ⟨t, (hown.owns_iff t ()).2 (by rw [ht]; exact if_pos hl)⟩
  · have := (hholds t).1 ht
    exact (Bool.and_eq_true_iff.1 this).1
  · have := (hholds t).1 ht
    exact eq_of_beq (Bool.and_eq_true_iff.1 this).2
  · exact hunique u t ((hholds u).2 hu) ht
  · rw [e]
    exact (hholds t).1 ht
  · exact reach_blocked locked.sections wakes.sections holds_of_owes holds_of_wakeup Init.initial start_free h hlk ht

/-- the lock after initsleeplock, process t with pid t + 1 -/
def boot : Cfg SleepLock Point Unit where
  d := ⟨false, 0⟩
  lk := none
  pt := none
  pos t := .run ⟨.user false, t + 1, false⟩
  killed _ := false

/-- process 0 has taken the lock, process 1 sleeps on it -/
theorem sleeplock_exclusive_example : ∃ s, Reachable (· + 1) s ∧ (s.pos 1).SleepsOn () ∧ Holds s 0 ∧ s.d.pid = 1 ∧
    ¬ Holds s 1 := by
  have h1 : Reachable (· + 1) boot := .init ⟨rfl, rfl, rfl, fun _ => rfl⟩
  have h2 := h1.step (.choose (t := 0) (k := ⟨.user false, 1, false⟩) rfl rfl (.inl rfl))
  have h3 := h2.step (.acquire (t := 0) (k := ⟨.enter, 1, false⟩) rfl rfl rfl)
  have h4 := h3.step (.act (t := 0) (k := ⟨.test, 1, false⟩) rfl rfl trivial)
  have h5 := h4.step (.release (t := 0) (k := ⟨.entered, 1, true⟩) rfl rfl)
  have h6 := h5.step (.choose (t := 1) (k := ⟨.user false, 2, false⟩) rfl rfl (.inl rfl))
  have h7 := h6.step (.acquire (t := 1) (k := ⟨.enter, 2, false⟩) rfl rfl rfl)
  have h8 := h7.step (.act (t := 1) (k := ⟨.test, 2, false⟩) rfl rfl trivial)
  have h9 := h8.step (.sleep (t := 1) (k := ⟨.wait, 2, false⟩) rfl rfl rfl)
  have h10 := h9.step (.unlock (t := 1) rfl)
  have h11 := h10.step (.mark (t := 1) rfl)
  have h12 := h11.step (.switch (t := 1) rfl)
  have key := sleeplock_exclusive _ (add_left_injective 1) _ h12 rfl
  refine ⟨_, h12, rfl, rfl, (key.2.2.1 0 rfl).1, fun hne => ?_⟩
  exact absurd (key.1 0 1 rfl hne) (by decide)

end Xv6.Sleeplock
