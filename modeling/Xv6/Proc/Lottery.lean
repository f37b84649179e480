/-
The LOTTERY pass of `scheduler` (proc.c): the ticket sum `niceSum`, the draw and the scan of the process table.

One pass of the source, with ptable.lock held:
- `nice_sum()` adds the nice values of the RUNNABLE slots. `total` is an int and `nice_value` a uint, so the addition
  is unsigned 32-bit and the result is read back as signed;
- if it is positive, a ticket `rand() % nice_sum() + 1` is drawn and the table is scanned. A slot that is not RUNNABLE
  is skipped (the source also adds its nice value to `running_total`, which nothing reads: left out). A RUNNABLE slot
  is skipped while `rand_num > check + nice_value`, and its nice value is added to `check`. The first other slot is
  dispatched, and the loop is left by `break` when the process comes back.

Result `lottery_draw_exact`: with the nice values of RUNNABLE slots between MIN_NICE_VALUE and MAX_NICE_VALUE and a
positive sum S, every ticket from 1 to S dispatches one RUNNABLE slot of the table, no ticket falls off its end, and a
slot is dispatched by as many tickets as its nice value.
-/
import Xv6.Param
import Xv6.Lib.WeightedDraw

namespace Xv6.Lottery

open Lib List BitVec

/-! ## Model -/

/-- enum procstate -/
inductive ProcState where
  | UNUSED | EMBRYO | SLEEPING | RUNNABLE | RUNNING | ZOMBIE
deriving DecidableEq, Repr

/-- the fields of struct proc that the scheduler pass reads and writes -/
structure Proc where
  state : ProcState
  niceValue : Word
deriving DecidableEq, Repr

/-- ptable.proc: exactly NPROC slots -/
structure ProcTable where
  proc : List Proc
  size : proc.length = NPROC

/-- nice_sum(): the loop over the table with accumulator `total` -/
def niceSumLoop : List Proc → Word → Word
  | [], total => total
  | curr :: rest, total =>
    if curr.state = .RUNNABLE then niceSumLoop rest (total + curr.niceValue) else niceSumLoop rest total

def niceSum (tbl : ProcTable) : Word := niceSumLoop tbl.proc 0

/-- the for loop of the LOTTERY scheduler from slot i on: the slot it dispatches, none if it runs off the end -/
def scanLoop (randNum : Word) : List Proc → (check : Word) → (i : ℕ) → Option ℕ
  | [], _, _ => none
  | p :: rest, check, i =>
    if p.state ≠ .RUNNABLE then scanLoop randNum rest check (i + 1)
    else if randNum > check + p.niceValue then scanLoop randNum rest (check + p.niceValue) (i + 1)
    else some i

def scan (randNum : Word) (tbl : ProcTable) : Option ℕ := scanLoop randNum tbl.proc 0 0

/-! ## The scan is a draw by prefix sums -/

/-- the tickets a slot holds in a pass -/
def tickets (p : Proc) : ℕ := if p.state = .RUNNABLE then p.niceValue.toNat else 0

/-- the nice values renice and fork keep: every RUNNABLE slot lies in the allowed range -/
def NiceInRange (l : List Proc) : Prop :=
  ∀ p ∈ l, p.state = .RUNNABLE → MIN_NICE_VALUE ≤ p.niceValue.toNat ∧ p.niceValue.toNat ≤ MAX_NICE_VALUE

instance (l : List Proc) : Decidable (NiceInRange l) := by
  unfold NiceInRange; infer_instance

theorem tickets_le {l : List Proc} (h : NiceInRange l) : ∀ n ∈ l.map tickets, n ≤ MAX_NICE_VALUE := by
  intro n hn
  obtain ⟨p, hp, rfl⟩ := mem_map.1 hn
  unfold tickets
  split_ifs with hr
  · exact (h p hp hr).2
  · exact Nat.zero_le _

theorem tickets_sum_le (tbl : ProcTable) (h : NiceInRange tbl.proc) : (tbl.proc.map tickets).sum ≤ NPROC * MAX_NICE_VALUE := by
  have hsum := sum_le_card_nsmul (tbl.proc.map tickets) MAX_NICE_VALUE (tickets_le h)
  simpa [tbl.size] using hsum

theorem niceSumLoop_toNat (l : List Proc) (total : Word) (hb : total.toNat + (l.map tickets).sum < 2 ^ 32) :
    (niceSumLoop l total).toNat = total.toNat + (l.map tickets).sum := by
  induction l generalizing total with
  | nil => simp [niceSumLoop]
  | cons p l ih =>
    simp only [map_cons, List.sum_cons] at hb ⊢
    by_cases hr : p.state = .RUNNABLE
    · simp only [tickets, hr, if_true] at hb
      have hadd : (total + p.niceValue).toNat = total.toNat + p.niceValue.toNat := toNat_add_of_lt (by omega)
      simp only [niceSumLoop, hr, if_true, tickets]
      rw [ih _ (by omega), hadd]
      omega
    · simp only [tickets, hr, if_false] at hb
      simp only [niceSumLoop, hr, if_false, tickets]
      rw [ih _ (by omega)]
      omega

theorem tickets_sum_lt (tbl : ProcTable) (h : NiceInRange tbl.proc) : (tbl.proc.map tickets).sum < 2 ^ 31 := by
  have hle := tickets_sum_le tbl h
  simp only [NPROC, MAX_NICE_VALUE] at hle
  omega

theorem niceSum_toNat (tbl : ProcTable) (hb : (tbl.proc.map tickets).sum < 2 ^ 31) :
    (niceSum tbl).toNat = (tbl.proc.map tickets).sum := by
  unfold niceSum
  rw [niceSumLoop_toNat _ _ (by simp; omega)]
  simp

/-- nice_sum() is the ticket sum: no step of the loop wraps and the result is not negative -/
theorem niceSum_toInt (tbl : ProcTable) (hb : (tbl.proc.map tickets).sum < 2 ^ 31) :
    (niceSum tbl).toInt = ((tbl.proc.map tickets).sum : ℤ) := by
  have hnat := niceSum_toNat tbl hb
  rw [toInt_eq_toNat_of_lt (by omega), hnat]

/-- **The scan is the draw.** While `check` is below the ticket, scanning the remaining slots draws from their tickets
with the ticket reduced by `check`. -/
theorem scanLoop_eq_draw (l : List Proc) (t : Word) (check : Word) (i : ℕ) (hlt : check.toNat < t.toNat)
    (hb : check.toNat + (l.map tickets).sum < 2 ^ 32) :
    scanLoop t l check i = (draw (l.map tickets) (t.toNat - check.toNat)).map (· + i) := by
  induction l generalizing check i with
  | nil => rfl
  | cons p l ih =>
    simp only [map_cons, List.sum_cons] at hb ⊢
    by_cases hr : p.state = .RUNNABLE
    · simp only [tickets, hr, if_true] at hb
      have hadd : (check + p.niceValue).toNat = check.toNat + p.niceValue.toNat := toNat_add_of_lt (by omega)
      have htk : tickets p = p.niceValue.toNat := by simp [tickets, hr]
      by_cases hgt : t > check + p.niceValue
      · have hgt' : check.toNat + p.niceValue.toNat < t.toNat := by rw [← hadd]; exact hgt
        have hle : ¬ t.toNat - check.toNat ≤ tickets p := by omega
        simp only [scanLoop, hr, ne_eq, not_true_eq_false, if_false, if_pos hgt, draw, if_neg hle]
        rw [ih _ _ (by omega) (by omega), hadd, htk, Option.map_map, Nat.sub_add_eq]
        congr 1
        funext j; simp; omega
      · have hle : t.toNat - check.toNat ≤ tickets p := by
          have : ¬ check.toNat + p.niceValue.toNat < t.toNat := by rw [← hadd]; exact hgt
          omega
        simp [scanLoop, hr, hgt, draw, hle]
    · have htk : tickets p = 0 := by simp [tickets, hr]
      rw [htk, draw_zero_cons _ _ (by omega)]
      simp only [scanLoop, hr, ne_eq, not_false_eq_true, if_true]
      rw [ih _ _ hlt (by omega), Option.map_map]
      congr 1
      funext j; simp; omega

theorem scan_eq_draw (tbl : ProcTable) (hb : (tbl.proc.map tickets).sum < 2 ^ 31) (t : ℕ) (h0 : 0 < t)
    (ht : t ≤ (tbl.proc.map tickets).sum) : scan (BitVec.ofNat 32 t) tbl = draw (tbl.proc.map tickets) t := by
  have htn : (BitVec.ofNat 32 t).toNat = t := by rw [toNat_ofNat]; exact Nat.mod_eq_of_lt (by omega)
  unfold scan
  rw [scanLoop_eq_draw _ _ _ _ (by simp [htn]; omega) (by simp; omega), htn]
  simp

theorem scanLoop_some {t : Word} {l : List Proc} {check : Word} {i n : ℕ} (h : scanLoop t l check i = some n) :
    i ≤ n ∧ ∃ p, l[n - i]? = some p ∧ p.state = .RUNNABLE := by
  induction l generalizing check i with
  | nil => simp [scanLoop] at h
  | cons q l ih =>
    have hrec : ∀ check', scanLoop t l check' (i + 1) = some n →
        i ≤ n ∧ ∃ p, (q :: l)[n - i]? = some p ∧ p.state = .RUNNABLE := by
      intro check' h'
      obtain ⟨hle, p, hp, hr⟩ := ih h'
      have hsub : n - i = n - (i + 1) + 1 := by omega
      exact ⟨by omega, p, by rw [hsub, getElem?_cons_succ]; exact hp, hr⟩
    unfold scanLoop at h
    split_ifs at h with h1 h2
    · exact hrec _ h
    · exact hrec _ h
    · cases h
      exact ⟨le_rfl, q, by simp, not_not.1 h1⟩

theorem card_scan (tbl : ProcTable) (hb : (tbl.proc.map tickets).sum < 2 ^ 31) (i : ℕ) (hi : i < tbl.proc.length) :
    ((Finset.Icc 1 (tbl.proc.map tickets).sum).filter fun t => scan (BitVec.ofNat 32 t) tbl = some i).card =
      tickets tbl.proc[i] := by
  have hcard := card_draw (tbl.proc.map tickets) i (by simpa using hi)
  rw [getElem_map] at hcard
  rw [← hcard]
  congr 1
  apply Finset.filter_congr
  intro t ht
  obtain ⟨h1, h2⟩ := Finset.mem_Icc.1 ht
  rw [scan_eq_draw tbl hb t h1 h2]

/-! ## Main result -/

/-- **Lottery draw is exact.** For every table with the RUNNABLE nice values in range and nice_sum() = S: each
ticket from 1 to S makes the scan stop at a slot of the table, and that slot is RUNNABLE (a scan dispatches at most
one slot, and none of these runs off the end); and each slot is dispatched by exactly as many of the tickets as its
nice value if it is RUNNABLE, by none otherwise. -/
theorem lottery_draw_exact (tbl : ProcTable) (hnice : NiceInRange tbl.proc) (S : ℕ)
    (hS : (niceSum tbl).toInt = S) :
    (∀ t ∈ Finset.Icc 1 S, ∃ i, ∃ hi : i < tbl.proc.length,
      scan (BitVec.ofNat 32 t) tbl = some i ∧ tbl.proc[i].state = .RUNNABLE) ∧
    ∀ i, ∀ hi : i < tbl.proc.length,
      ((Finset.Icc 1 S).filter fun t => scan (BitVec.ofNat 32 t) tbl = some i).card =
        if tbl.proc[i].state = .RUNNABLE then tbl.proc[i].niceValue.toNat else 0 := by
  have hb := tickets_sum_lt tbl hnice
  have hsum : (tbl.proc.map tickets).sum = S := by
    have := niceSum_toInt tbl hb
    omega
  constructor
  · intro t ht
    obtain ⟨h1, h2⟩ := Finset.mem_Icc.1 ht
    obtain ⟨i, hi, hd, hw⟩ := draw_lt_length (tbl.proc.map tickets) t h1 (by omega)
    have hi' : i < tbl.proc.length := by simpa using hi
    refine ⟨i, hi', ?_, ?_⟩
    · rw [scan_eq_draw tbl hb t h1 (by omega), hd]
    · -- a slot of positive weight is RUNNABLE
      simp only [getElem_map, tickets] at hw
      by_contra hr
      simp [hr] at hw
  · intro i hi
    rw [← hsum]
    exact card_scan tbl hb i hi

/-- a table with two RUNNABLE slots around a sleeping one; the other slots are free -/
def exampleTable : ProcTable where
  proc := ⟨.RUNNABLE, 3⟩ :: ⟨.SLEEPING, 50⟩ :: ⟨.RUNNABLE, 2⟩ :: List.replicate 61 ⟨.UNUSED, 0⟩
  size := by simp [NPROC]

theorem lottery_draw_exact_example : (∀ t ∈ Finset.Icc 1 5, ∃ i, ∃ hi : i < exampleTable.proc.length,
      scan (BitVec.ofNat 32 t) exampleTable = some i ∧ exampleTable.proc[i].state = .RUNNABLE) ∧
    ((Finset.Icc 1 5).filter fun t => scan (BitVec.ofNat 32 t) exampleTable = some 0).card = 3 ∧
    ((Finset.Icc 1 5).filter fun t => scan (BitVec.ofNat 32 t) exampleTable = some 1).card = 0 := by
  have h := lottery_draw_exact exampleTable (by decide) 5 (by decide)
  exact ⟨h.1, h.2 0 (by decide), h.2 1 (by decide)⟩

end Xv6.Lottery
