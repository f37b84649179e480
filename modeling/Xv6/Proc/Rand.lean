/-
The generator behind the lottery: `rand` (rand.c) and the draw `(rand() % nice_sum()) + 1` of `scheduler` (proc.c).

The kernel is built -m32, so `next` is a 32-bit unsigned long. RAND_MAX is the int 1 << 31; in the modulus it is
converted to the unsigned 2^31, above every value of next / 65536, and changes nothing. The remainder by nice_sum() is
an int remainder.

Results:
- `rand_toInt`: rand() returns the upper half of the new state, a number below 2^16, never negative;
- `card_selected`: over one period a predicate of the ticket holds 65536 times as often as over the values of rand();
- `lottery_period_fair`: over any 2^32 consecutive draws every state occurs once, every value of rand() 65536 times, and
  a RUNNABLE slot with n tickets out of S is dispatched between n * 65536 * ⌊65536 / S⌋ and n * 65536 * ⌈65536 / S⌉
  times, so that a slot with a ticket is dispatched at least once.
-/
import Xv6.Proc.Lottery
import Xv6.Lib.Lcg

namespace Xv6.Lottery

open Lib Finset BitVec

/-! ## Model -/

/-- RAND_MAX, the int 1 << 31 -/
def RAND_MAX : Word := 1#32 <<< 31

/-- the assignment to `next` in rand() -/
def advance (next : Word) : Word := next * 1103515245#32 + 12345#32

/-- rand(): the new `next` and the int it returns -/
def rand (next : Word) : Word × Word :=
  let next := advance next
  (next, (next / 65536#32) % RAND_MAX)

/-- rand_num = (rand() % nice_sum()) + 1, a remainder of ints -/
def randNum (r : Word) (tbl : ProcTable) : Word := r.srem (niceSum tbl) + 1#32

/-- one pass of the scheduler: the new `next`, and the slot it dispatches -/
def lotteryPass (tbl : ProcTable) (next : Word) : Word × Option ℕ :=
  if (niceSum tbl).toInt > 0 then ((rand next).1, scan (randNum (rand next).2 tbl) tbl) else (next, none)

/-- the value of `next` when the draw number k (counted from 0) begins -/
def nextAt (next : Word) : ℕ → Word
  | 0 => next
  | k + 1 => (rand (nextAt next k)).1

/-- what rand() returns in the draw number k -/
def randAt (next : Word) (k : ℕ) : Word := (rand (nextAt next k)).2

/-! ## One call -/

theorem advance_toNat (next : Word) : (advance next).toNat = lcg (2 ^ 32) 1103515244 12345 next.toNat := by
  unfold advance lcg
  rw [toNat_add, toNat_mul]
  simp [Nat.add_mod, Nat.mul_mod, Nat.mul_comm]

/-- rand() returns the upper half of the new state: the modulus by RAND_MAX and the sign change nothing -/
theorem rand_toNat (next : Word) : (rand next).2.toNat = (advance next).toNat / 65536 := by
  have hlt : (advance next).toNat / 65536 < 2 ^ 31 := by
    have := (advance next).isLt
    omega
  show ((advance next / 65536#32) % RAND_MAX).toNat = _
  rw [toNat_umod, toNat_udiv]
  exact Nat.mod_eq_of_lt hlt

theorem rand_lt (next : Word) : (rand next).2.toNat < 65536 := by
  rw [rand_toNat]
  have := (advance next).isLt
  omega

theorem rand_toInt (next : Word) : (rand next).2.toInt = ((advance next).toNat / 65536 : ℕ) := by
  have := rand_lt next
  rw [toInt_eq_toNat_of_lt (by omega), rand_toNat]

/-- the ticket drawn for a non-negative r: the unsigned remainder, plus one -/
theorem randNum_eq {r : Word} {tbl : ProcTable} (hr : r.toNat < 2 ^ 31) (hb : (tbl.proc.map tickets).sum < 2 ^ 31)
    (hpos : 0 < (tbl.proc.map tickets).sum) : randNum r tbl = BitVec.ofNat 32 (r.toNat % (tbl.proc.map tickets).sum + 1) := by
  have hS := niceSum_toNat tbl hb
  have hmsb : ∀ v : Word, v.toNat < 2 ^ 31 → v.msb = false := by
    intro v hv
    rw [msb_eq_false_iff_two_mul_lt]
    omega
  have hlt : r.toNat % (tbl.proc.map tickets).sum < 2 ^ 31 := lt_trans (Nat.mod_lt _ hpos) hb
  apply eq_of_toNat_eq
  unfold randNum
  rw [srem_eq, hmsb r hr, hmsb (niceSum tbl) (by omega)]
  simp only [toNat_add, toNat_umod, hS, toNat_ofNat]

/-! ## One period -/

theorem nextAt_toNat (next : Word) (k : ℕ) : (nextAt next k).toNat = (lcg (2 ^ 32) 1103515244 12345)^[k] next.toNat := by
  induction k with
  | zero => rfl
  | succ k ih =>
    rw [Function.iterate_succ_apply', ← ih]
    exact advance_toNat _

/-- over a period a predicate of the state holds as often as over all words -/
theorem card_nextAt (next : Word) (P : ℕ → Prop) [DecidablePred P] :
    #{k ∈ range (2 ^ 32) | P (nextAt next (k + 1)).toNat} = #{s ∈ range (2 ^ 32) | P s} := by
  rw [← card_lcg (b := 1103515244) (c := 12345) (by decide) rfl 32 next.toNat P]
  refine congrArg Finset.card (filter_congr fun k _ => ?_)
  rw [nextAt_toNat]

/-- over a period a predicate of the value of rand() holds 65536 times as often as over the numbers below 65536 -/
theorem card_randAt (next : Word) (P : ℕ → Prop) [DecidablePred P] :
    #{k ∈ range (2 ^ 32) | P (randAt next k).toNat} = #{v ∈ range 65536 | P v} * 65536 := by
  have hquot : #{k ∈ range (2 ^ 32) | P (randAt next k).toNat} = #{s ∈ range (2 ^ 32) | P (s / 65536)} := by
    rw [← card_nextAt next fun s => P (s / 65536)]
    refine congrArg Finset.card (filter_congr fun k _ => ?_)
    unfold randAt
    rw [rand_toNat]
    rfl
  rw [hquot, show (2 : ℕ) ^ 32 = 65536 * 65536 by norm_num]
  exact card_div 65536 (by norm_num) P

theorem card_scan_succ (tbl : ProcTable) (hb : (tbl.proc.map tickets).sum < 2 ^ 31) (i : ℕ) (hi : i < tbl.proc.length) :
    #{t ∈ range (tbl.proc.map tickets).sum | scan (BitVec.ofNat 32 (t + 1)) tbl = some i} = tickets tbl.proc[i] := by
  rw [← card_scan tbl hb i hi]
  refine card_bij (fun t _ => t + 1) ?_ ?_ ?_
  · intro t ht
    obtain ⟨ht, hs⟩ := mem_filter.1 ht
    have := mem_range.1 ht
    exact mem_filter.2 ⟨mem_Icc.2 ⟨by omega, by omega⟩, hs⟩
  · intro t _ u _ h
    omega
  · intro t ht
    obtain ⟨ht, hs⟩ := mem_filter.1 ht
    obtain ⟨h1, h2⟩ := mem_Icc.1 ht
    refine ⟨t - 1, mem_filter.2 ⟨mem_range.2 (by omega), ?_⟩, by omega⟩
    rw [Nat.sub_add_cancel h1]
    exact hs

/-- the draws of a period that dispatch slot i, as a count over the values of rand() -/
theorem card_selected (tbl : ProcTable) (hb : (tbl.proc.map tickets).sum < 2 ^ 31) (hpos : 0 < (tbl.proc.map tickets).sum)
    (next : Word) (i : ℕ) : #{k ∈ range (2 ^ 32) | scan (randNum (randAt next k) tbl) tbl = some i} =
      #{v ∈ range 65536 | scan (BitVec.ofNat 32 (v % (tbl.proc.map tickets).sum + 1)) tbl = some i} * 65536 := by
  rw [← card_randAt next fun v => scan (BitVec.ofNat 32 (v % (tbl.proc.map tickets).sum + 1)) tbl = some i]
  refine congrArg Finset.card (filter_congr fun k _ => ?_)
  have hlt : (randAt next k).toNat < 65536 := rand_lt _
  rw [randNum_eq (by omega) hb hpos]

/-! ## Main result -/

theorem mul_le_mul_scaled (M : ℕ) {n q c : ℕ} (h : n * q ≤ c) : n * M * q ≤ c * M := by
  rw [Nat.mul_right_comm]
  exact Nat.mul_le_mul_right M h

theorem mul_le_mul_scaled' (M : ℕ) {n q c : ℕ} (h : c ≤ n * q) : c * M ≤ n * M * q := by
  rw [Nat.mul_right_comm]
  exact Nat.mul_le_mul_right M h

/-- **Fair over a period.** For every start of `next` and every table whose ticket sum S lies in 1..6400: in 2^32
consecutive draws the state takes every 32-bit value once; rand() lies in 0..65535 and returns each value 65536 times;
a RUNNABLE slot with nice value n is dispatched at least n * 65536 * ⌊65536 / S⌋ and at most n * 65536 * ⌈65536 / S⌉
times; and it is dispatched at least once if it holds a ticket. -/
theorem lottery_period_fair (next : Word) (tbl : ProcTable) (S : ℕ) (hS : (tbl.proc.map tickets).sum = S) (hmin : 1 ≤ S)
    (hmax : S ≤ 6400) : (∀ w : Word, #{k ∈ range (2 ^ 32) | nextAt next (k + 1) = w} = 1) ∧
    (∀ k, 0 ≤ (randAt next k).toInt ∧ (randAt next k).toInt < 65536) ∧
    (∀ v < 65536, #{k ∈ range (2 ^ 32) | (randAt next k).toInt = (v : ℕ)} = 65536) ∧
    ∀ i, ∀ hi : i < tbl.proc.length, tbl.proc[i].state = .RUNNABLE → tbl.proc[i].niceValue.toNat * 65536 * (65536 / S) ≤
        #{k ∈ range (2 ^ 32) | scan (randNum (randAt next k) tbl) tbl = some i} ∧
      #{k ∈ range (2 ^ 32) | scan (randNum (randAt next k) tbl) tbl = some i} ≤
        tbl.proc[i].niceValue.toNat * 65536 * (65536 ⌈/⌉ S) ∧ (0 < tbl.proc[i].niceValue.toNat →
        0 < #{k ∈ range (2 ^ 32) | scan (randNum (randAt next k) tbl) tbl = some i}) := by
  have hlt : ∀ k, (randAt next k).toNat < 65536 := fun k => rand_lt _
  have hint : ∀ k, (randAt next k).toInt = (randAt next k).toNat := by
    intro k
    have := hlt k
    exact toInt_eq_toNat_of_lt (by omega)
  have hb : (tbl.proc.map tickets).sum < 2 ^ 31 := by omega
  refine ⟨?_, ?_, ?_, ?_⟩
  · intro w
    have hone := card_nextAt next fun s => s = w.toNat
    rw [filter_eq', if_pos (mem_range.2 w.isLt), card_singleton] at hone
    simp only [toNat_inj] at hone
    exact hone
  · intro k
    have := hlt k
    rw [hint k]
    omega
  · intro v hv
    have hval := card_randAt next fun r => r = v
    rw [filter_eq', if_pos (mem_range.2 hv), card_singleton, one_mul] at hval
    rw [← hval]
    refine congrArg Finset.card (filter_congr fun k _ => ?_)
    rw [hint k, Nat.cast_inj]
  · intro i hi hrun
    have htk : tickets tbl.proc[i] = tbl.proc[i].niceValue.toNat := by simp [tickets, hrun]
    have hsel := card_selected tbl hb (by omega) next i
    have hcard := card_scan_succ tbl hb i hi
    have hge := card_mod_ge 65536 hmin fun t => scan (BitVec.ofNat 32 (t + 1)) tbl = some i
    have hle := card_mod_le 65536 hmin fun t => scan (BitVec.ofNat 32 (t + 1)) tbl = some i
    rw [hS] at hsel hcard
    rw [hcard, htk] at hge hle
    have hlow := (mul_le_mul_scaled 65536 hge).trans hsel.ge
    refine ⟨hlow, hsel.le.trans (mul_le_mul_scaled' 65536 hle), ?_⟩
    intro hn
    have hquot : 0 < 65536 / S := Nat.div_pos (by omega) hmin
    exact lt_of_lt_of_le (Nat.mul_pos (Nat.mul_pos hn (by norm_num)) hquot) hlow

/-- from the boot value of `next`, slot 0 of the example table (3 of 5 tickets) is dispatched about 3/5 of the time -/
theorem lottery_period_fair_example :
    3 * 65536 * 13107 ≤ #{k ∈ range (2 ^ 32) | scan (randNum (randAt 1 k) exampleTable) exampleTable = some 0} ∧
    #{k ∈ range (2 ^ 32) | scan (randNum (randAt 1 k) exampleTable) exampleTable = some 0} ≤ 3 * 65536 * 13108 := by
  have h := (lottery_period_fair 1 exampleTable 5 (by decide) (by decide) (by decide)).2.2.2 0 (by decide) rfl
  exact ⟨h.1, h.2.1⟩

end Xv6.Lottery
