/-
pushcli and popcli (spinlock.c): nested disabling of interrupts.

A CPU counts the pushcli calls that are open in ncli, an int, and keeps the interrupt flag from before the first of them in
intena. acquire, release and the holding inside them call the two; sched keeps intena on the stack of the process and puts it back
when the process is resumed, on whichever CPU. `Sys` is any number of CPUs, each with its scheduler and the process it runs, which
make these calls in any order. What the thread on a CPU did so far is written down beside it: how many pushcli calls are open, and
the flag before the first. The bound N on open calls stands for the range of ncli.

- `interrupts_restored`: interrupts are off while ncli > 0, popcli does not panic, and the flag comes back, if N < 2^31;
- `deep_nesting_panics`: with 2^31 + 1 open calls popcli panics.
-/
import Xv6.Proc.SpinLocks

namespace Xv6.Pushcli

open BitVec
open SpinLocks (SpinLock)

/-! ## Model -/

inductive Panic where
  | popcliInterruptible | popcli | acquire | release | mycpu | schedPtableLock | schedLocks | schedInterruptible
deriving DecidableEq, Repr

structure Cpu where
  /-- FL_IF of eflags -/
  iflag : Bool
  ncli : Word
  intena : Bool
deriving DecidableEq, Repr

def pushcli (x : Cpu) : Cpu := ⟨false, x.ncli + 1, if x.ncli = 0 then x.iflag else x.intena⟩

def popcli (x : Cpu) : Except Panic Cpu :=
  if x.iflag then .error .popcliInterruptible
  else if (x.ncli - 1).toInt < 0 then .error .popcli
  else .ok ⟨decide (x.ncli - 1 = 0) && x.intena, x.ncli - 1, x.intena⟩

inductive Instr where
  | pushcli | popcli
  /-- `while(xchg(&lk->locked, 1) != 0)`, after the check of acquire -/
  | xchg (lk : SpinLock)
  /-- `lk->locked = 0`, after the check of release -/
  | unlock (lk : SpinLock)
  /-- sched behind its call of holding -/
  | swtch
deriving DecidableEq, Repr

inductive Call where
  | pushcli | popcli
  | acquire (lk : SpinLock)
  | release (lk : SpinLock)
  | sched
deriving DecidableEq, Repr

def holding : List Instr := [.pushcli, .popcli]

def Call.code : Call → List Instr
  | .pushcli => [.pushcli]
  | .popcli => [.popcli]
  | .acquire lk => .pushcli :: (holding ++ [.xchg lk])
  | .release lk => holding ++ [.unlock lk, .popcli]
  | .sched => holding ++ [.swtch]

/-- a CPU and the thread on it -/
structure Core where
  cpu : Cpu
  /-- the process; none: the scheduler -/
  proc : Option ℕ
  /-- the rest of the call that the thread is in -/
  todo : List Instr
  /-- the pushcli calls of the thread without a popcli -/
  depth : ℕ
  /-- the flag before the first of them, unless it is lost -/
  entry : Option Bool

/-- a process inside swtch, with intena on its stack -/
structure Saved where
  intena : Bool
  depth : ℕ
  entry : Option Bool

structure Sys where
  core : ℕ → Core
  /-- the CPU that has the lock -/
  lock : SpinLock → Option ℕ
  saved : ℕ → Option Saved

/-- no call is open, the flags are any -/
def Sys.boot (flag intena : ℕ → Bool) : Sys :=
  ⟨fun c => ⟨⟨flag c, 0, intena c⟩, none, [], 0, none⟩, fun _ => none, fun _ => none⟩

def Sys.set (s : Sys) (c : ℕ) (k : Core) : Sys := { s with core := update s.core c k }

/-- one instruction on CPU c, with l behind it; none: it waits for the lock -/
def Sys.exec (s : Sys) (c : ℕ) (l : List Instr) : Instr → Option (Except Panic Sys)
  | .pushcli =>
    let k := s.core c
    some (.ok (s.set c { k with
      cpu := pushcli k.cpu, todo := l, depth := k.depth + 1, entry := if k.depth = 0 then some k.cpu.iflag else k.entry }))
  | .popcli =>
    match popcli (s.core c).cpu with
    | .error e => some (.error e)
    | .ok x => some (.ok (s.set c { s.core c with cpu := x, todo := l, depth := (s.core c).depth - 1 }))
  | .xchg lk =>
    match s.lock lk with
    | none => some (.ok { s.set c { s.core c with todo := l } with lock := update s.lock lk (some c) })
    | some c' => if c' = c then some (.error .acquire) else none
  | .unlock lk =>
    if s.lock lk = some c then some (.ok { s.set c { s.core c with todo := l } with lock := update s.lock lk none })
    else some (.error .release)
  | .swtch =>
    let k := s.core c
    match k.proc with
    | none => none
    | some i =>
      if s.lock .ptable ≠ some c then some (.error .schedPtableLock)
      else if k.cpu.iflag then some (.error .mycpu)
      else if k.cpu.ncli ≠ 1 then some (.error .schedLocks)
      else if k.cpu.iflag then some (.error .schedInterruptible)
      else
        -- the scheduler goes on behind its swtch, with one open call
        some (.ok { s.set c { k with proc := none, todo := l, depth := 1, entry := none } with
          saved := update s.saved i (some ⟨k.cpu.intena, k.depth, k.entry⟩) })

/-- Steps of the threads, with at most N open calls each. No thread makes more pops than pushes. -/
inductive Step (N : ℕ) (s : Sys) : Sys → Prop
  | call (c : ℕ) (f : Call) (h : (s.core c).todo = [])
      (hpop : f = .popcli ∨ (∃ lk, f = .release lk) → 0 < (s.core c).depth) :
      Step N s (s.set c { s.core c with todo := f.code })
  | exec (c : ℕ) {i : Instr} {l : List Instr} {s' : Sys} (h : (s.core c).todo = i :: l)
      (hN : i = .pushcli → (s.core c).depth < N) (hs : s.exec c l i = some (.ok s')) : Step N s s'
  /-- sti, cli, the way to user space and back -/
  | flag (c : ℕ) (b : Bool) (h : (s.core c).todo = []) (h0 : (s.core c).depth = 0) :
      Step N s (s.set c { s.core c with cpu.iflag := b })
  /-- the scheduler switches to a process inside swtch, which puts intena back -/
  | resume (c i : ℕ) {x : Saved} (h : (s.core c).todo = []) (hc : (s.core c).proc = none) (h1 : (s.core c).depth = 1)
      (hi : s.saved i = some x) :
      Step N s { s.set c ⟨{ (s.core c).cpu with intena := x.intena }, some i, [], x.depth, x.entry⟩ with
        saved := update s.saved i none }
  /-- the scheduler switches to a new process, which is in forkret: intena is the flag it is to have -/
  | forkret (c i : ℕ) (h : (s.core c).todo = []) (hc : (s.core c).proc = none) (h1 : (s.core c).depth = 1)
      (hi : s.saved i = none) (hnew : ∀ c', (s.core c').proc ≠ some i) :
      Step N s (s.set c { s.core c with proc := some i, entry := some (s.core c).cpu.intena })

inductive Reach (N : ℕ) : Sys → Prop
  | boot (flag intena : ℕ → Bool) : Reach N (.boot flag intena)
  | step {s s' : Sys} (h : Reach N s) (hs : Step N s s') : Reach N s'

/-! ## One CPU -/

/-- a thread with d open calls can run this code without a pop too many, and switches at most at its end -/
def Fits : ℕ → List Instr → Prop
  | _, [] => True
  | d, .pushcli :: l => Fits (d + 1) l
  | d, .popcli :: l => 0 < d ∧ Fits (d - 1) l
  | d, .xchg _ :: l => Fits d l
  | d, .unlock _ :: l => Fits d l
  | _, .swtch :: l => l = []

theorem fits_code {d : ℕ} (f : Call) (h : f = .popcli ∨ (∃ lk, f = .release lk) → 0 < d) : Fits d f.code := by
  cases f with
  | pushcli => exact trivial
  | popcli => exact ⟨h (.inl rfl), trivial⟩
  | acquire lk => exact ⟨Nat.succ_pos _, trivial⟩
  | release lk => exact ⟨Nat.succ_pos _, h (.inr ⟨lk, rfl⟩), trivial⟩
  | sched => exact ⟨Nat.succ_pos _, rfl⟩

/-- the CPU agrees with what its thread did -/
structure Core.Ok (N : ℕ) (k : Core) : Prop where
  ncli : k.cpu.ncli.toNat = k.depth
  le : k.depth ≤ N
  off : 0 < k.depth → k.cpu.iflag = false
  intena : 0 < k.depth → ∀ b, k.entry = some b → k.cpu.intena = b
  fits : Fits k.depth k.todo
  /-- a process with an open call knows its flag -/
  known : k.proc.isSome → 0 < k.depth → k.entry.isSome

section

variable {N : ℕ} {k : Core} {l : List Instr}

theorem Core.Ok.ncli_eq_zero (h : k.Ok N) : k.cpu.ncli = 0 ↔ k.depth = 0 := by
  rw [← h.ncli]
  exact toNat_eq

theorem Core.Ok.pushcli (h : k.Ok N) (hN : N < 2 ^ 31) (hlt : k.depth < N) (hl : k.todo = .pushcli :: l) :
    Core.Ok N ⟨pushcli k.cpu, k.proc, l, k.depth + 1, if k.depth = 0 then some k.cpu.iflag else k.entry⟩ := by
  have hn := h.ncli
  have hfits := h.fits
  rw [hl] at hfits
  refine ⟨(toNat_offset (i := 1) (by omega)).trans (by rw [hn]), hlt, fun _ => rfl, fun _ b hb => ?_, hfits, fun hp _ => ?_⟩
  · dsimp only at hb
    unfold Pushcli.pushcli
    split_ifs at hb with h0
    · exact (if_pos (h.ncli_eq_zero.mpr h0)).trans (Option.some.inj hb)
    · exact (if_neg (mt h.ncli_eq_zero.mp h0)).trans (h.intena (by omega) b hb)
  · dsimp only
    split_ifs with h0
    · rfl
    · exact h.known hp (by omega)

/-- popcli does not panic, and the last one brings the flag back -/
theorem Core.Ok.popcli (h : k.Ok N) (hN : N < 2 ^ 31) (hl : k.todo = .popcli :: l) : ∃ x, popcli k.cpu = .ok x ∧
    Core.Ok N { k with cpu := x, todo := l, depth := k.depth - 1 } ∧
    (x.ncli = 0 → ∀ b, k.entry = some b → x.iflag = b) := by
  have hfits := h.fits
  rw [hl] at hfits
  obtain ⟨hpos, hfits⟩ := hfits
  have hle := h.le
  have hn : (k.cpu.ncli - 1).toNat = k.depth - 1 := by
    rw [toNat_sub_of_le (by rw [le_def, h.ncli]; exact hpos), h.ncli]
    rfl
  have hint : ¬ (k.cpu.ncli - 1).toInt < 0 := by
    rw [toInt_eq_toNat_of_lt] <;> omega
  refine ⟨⟨decide (k.cpu.ncli - 1 = 0) && k.cpu.intena, k.cpu.ncli - 1, k.cpu.intena⟩, ?_,
    ⟨hn, (Nat.sub_le ..).trans hle, fun hd => ?_, fun _ => h.intena hpos, hfits, fun hp _ => h.known hp hpos⟩,
    fun h0 b hb => ?_⟩
  · rw [Pushcli.popcli, if_neg (by rw [h.off hpos]; nofun), if_neg hint]
  · have hne : k.cpu.ncli - 1 ≠ 0 := fun h0 => by
      rw [h0] at hn
      exact absurd hn.symm (Nat.ne_of_gt hd)
    dsimp only
    rw [decide_eq_false hne, Bool.false_and]
  · dsimp only at h0 ⊢
    rw [decide_eq_true h0, Bool.true_and]
    exact h.intena hpos b hb

end

/-! ## The system -/

structure Inv (N : ℕ) (s : Sys) : Prop where
  core : ∀ c, (s.core c).Ok N
  saved : ∀ i x, s.saved i = some x → x.depth = 1 ∧ x.entry = some x.intena

section

variable {N : ℕ} {s s' : Sys} {c : ℕ}

theorem Inv.place (h : Inv N s) {k : Core} {lock : SpinLock → Option ℕ} {saved : ℕ → Option Saved} (hk : k.Ok N)
    (hsaved : ∀ i x, saved i = some x → s.saved i = some x ∨ x.depth = 1 ∧ x.entry = some x.intena) :
    Inv N ⟨update s.core c k, lock, saved⟩ := by
  refine ⟨fun c' => ?_, fun i x hx => (hsaved i x hx).elim (h.saved i x) id⟩
  dsimp only
  by_cases hc : c' = c
  · rw [hc, update_self]
    exact hk
  · rw [update_of_ne hc]
    exact h.core c'

theorem Inv.exec (h : Inv N s) (hN : N < 2 ^ 31) {i : Instr} {l : List Instr} (hl : (s.core c).todo = i :: l)
    (hlt : i = .pushcli → (s.core c).depth < N) (hs : s.exec c l i = some (.ok s')) : Inv N s' := by
  have hk := h.core c
  have hfits := hk.fits
  rw [hl] at hfits
  unfold Sys.exec at hs
  cases i with
  | pushcli =>
    cases hs
    exact h.place (hk.pushcli hN (hlt rfl) hl) fun _ _ => .inl
  | popcli =>
    obtain ⟨x, hx, hok, -⟩ := hk.popcli hN hl
    rw [hx] at hs
    cases hs
    exact h.place hok fun _ _ => .inl
  | xchg lk =>
    dsimp only at hs
    split at hs
    · cases hs
      exact h.place ⟨hk.ncli, hk.le, hk.off, hk.intena, hfits, hk.known⟩ fun _ _ => .inl
    · split_ifs at hs
      cases hs
  | unlock lk =>
    dsimp only at hs
    split_ifs at hs
    · cases hs
      exact h.place ⟨hk.ncli, hk.le, hk.off, hk.intena, hfits, hk.known⟩ fun _ _ => .inl
    · cases hs
  | swtch =>
    dsimp only at hs
    split at hs
    · cases hs
    · rename_i p hp
      split_ifs at hs with h1 h2 h3 <;> cases hs
      have hd : (s.core c).depth = 1 := by rw [← hk.ncli, not_not.mp h3]; rfl
      obtain ⟨b, hb⟩ := Option.isSome_iff_exists.mp (hk.known (by rw [hp]; rfl) (by omega))
      refine h.place ⟨hk.ncli.trans hd, hd ▸ hk.le, fun _ => hk.off (by omega), fun _ _ e => ?_, ?_, fun e => ?_⟩ fun j x hx => ?_
      · cases e
      · rw [show l = [] from hfits]
        exact trivial
      · cases e
      · by_cases hj : j = p
        · rw [hj, update_self] at hx
          cases hx
          exact .inr ⟨hd, by rw [hb, hk.intena (by omega) b hb]⟩
        · rw [update_of_ne hj] at hx
          exact .inl hx

theorem Inv.step (h : Inv N s) (hN : N < 2 ^ 31) (hs : Step N s s') : Inv N s' := by
  cases hs with
  | call c f hl hpop =>
    have hk := h.core c
    exact h.place ⟨hk.ncli, hk.le, hk.off, hk.intena, fits_code f hpop, hk.known⟩ fun _ _ => .inl
  | exec c hl hlt hs => exact h.exec hN hl hlt hs
  | flag c b hl h0 =>
    have hk := h.core c
    exact h.place ⟨hk.ncli, hk.le, fun hd => absurd hd (by dsimp only; omega), hk.intena, hk.fits, hk.known⟩ fun _ _ => .inl
  | @resume c i x hl hc h1 hi =>
    have hk := h.core c
    obtain ⟨hd, he⟩ := h.saved i x hi
    refine h.place ⟨(hk.ncli.trans h1).trans hd.symm, ?_, fun _ => hk.off (by omega), fun _ b hb => ?_, trivial,
      fun _ _ => by rw [he]; rfl⟩ fun j y hy => ?_
    · rw [hd, ← h1]
      exact hk.le
    · rw [he] at hb
      exact Option.some.inj hb
    · by_cases hj : j = i
      · rw [hj, update_self] at hy
        cases hy
      · rw [update_of_ne hj] at hy
        exact .inl hy
  | forkret c i hl hc h1 hi hnew =>
    have hk := h.core c
    exact h.place ⟨hk.ncli, hk.le, hk.off, fun _ b hb => Option.some.inj hb, hk.fits, fun _ _ => rfl⟩ fun _ _ => .inl

theorem reach_inv (hN : N < 2 ^ 31) (h : Reach N s) : Inv N s := by
  induction h with
  | boot flag intena => exact ⟨fun c => ⟨rfl, Nat.zero_le N, nofun, nofun, trivial, nofun⟩, nofun⟩
  | step _ hs ih => exact ih.step hN hs

/-- **Nested disabling of interrupts is undone.** However the threads of any number of CPUs call pushcli, popcli, acquire,
release and sched, with no more pops than pushes: interrupts are off at every point where ncli > 0; popcli does not panic; and a
popcli that takes ncli to 0 brings back the flag from before the first pushcli, which every process still knows, also after it was
switched out by sched and resumed on any CPU. -/
theorem interrupts_restored (hN : N < 2 ^ 31) (h : Reach N s) (c : ℕ) :
    (0 < (s.core c).cpu.ncli.toInt → (s.core c).cpu.iflag = false) ∧
    (∀ l, (s.core c).todo = .popcli :: l → ∃ x, popcli (s.core c).cpu = .ok x ∧
      (x.ncli = 0 → ∀ b, (s.core c).entry = some b → x.iflag = b)) ∧
    ((s.core c).proc.isSome → 0 < (s.core c).depth → (s.core c).entry.isSome) := by
  have hk := (reach_inv hN h).core c
  refine ⟨fun hpos => hk.off ?_, fun l hl => ?_, hk.known⟩
  · refine Nat.pos_of_ne_zero fun h0 => ?_
    rw [hk.ncli_eq_zero.mpr h0] at hpos
    exact absurd hpos (by decide)
  · obtain ⟨x, hx, -, hflag⟩ := hk.popcli hN hl
    exact ⟨x, hx, hflag⟩

theorem reach_pushes {n : ℕ} (hn : n ≤ N) : ∃ s b, Reach N s ∧ s.core 0 =
    ⟨⟨decide (n = 0), BitVec.ofNat 32 n, b⟩, none, [], n, if n = 0 then none else some true⟩ := by
  induction n with
  | zero => exact ⟨_, false, .boot (fun _ => true) fun _ => false, rfl⟩
  | succ n ih =>
    obtain ⟨s, b, hs, hcore⟩ := ih (by omega)
    have h1 := hs.step (.call 0 .pushcli (by rw [hcore]) nofun)
    refine ⟨_, if BitVec.ofNat 32 n = 0 then decide (n =
      0) else b, h1.step (.exec 0 (i := .pushcli) (l := []) ?_ (fun _ => ?_) rfl), ?_⟩
    · simp [Sys.set, Call.code]
    · simpa [Sys.set, hcore] using hn
    · simp only [Sys.set, update_self, hcore, pushcli, ofNat_add]
      by_cases h0 : n = 0 <;> simp [h0]

theorem interrupts_restored_popcli : ∃ s x, Reach 1 s ∧ (s.core 0).entry = some true ∧ popcli (s.core 0).cpu = .ok x ∧
    (x.ncli = 0 → x.iflag = true) := by
  obtain ⟨s, b, hs, hcore⟩ := reach_pushes (le_refl 1)
  have h1 := hs.step (.call 0 .popcli (by rw [hcore]) fun _ => by rw [hcore]; exact Nat.succ_pos _)
  have he : ((s.set 0 { s.core 0 with todo := [.popcli] }).core 0).entry = some true := by simp [Sys.set, hcore]
  obtain ⟨x, hx, hflag⟩ := (interrupts_restored (by norm_num) h1 0).2.1 [] (by simp [Sys.set, Call.code])
  exact ⟨_, x, h1, he, hx, fun h0 => hflag h0 true he⟩

/-- 2^31 + 1 calls of pushcli make ncli negative, and the next popcli panics -/
theorem deep_nesting_panics : ∃ s, Reach (2 ^ 31 + 1) s ∧ (s.core 0).depth = 2 ^ 31 + 1 ∧ (s.core 0).todo = [.popcli] ∧
    s.exec 0 [] .popcli = some (.error .popcli) := by
  obtain ⟨s, b, hs, hcore⟩ := reach_pushes (le_refl (2 ^ 31 + 1))
  have h1 := hs.step (.call 0 .popcli (by rw [hcore]) fun _ => by rw [hcore]; exact Nat.succ_pos _)
  refine ⟨_, h1, ?_⟩
  simp [Sys.set, hcore, Call.code, Sys.exec, popcli]

end

end Xv6.Pushcli
