/-
The live window of a ring buffer: n cells from position `start` on, indices taken modulo the capacity N.

Positions are running counters that are never reset. `window_congr` says that only the position modulo N matters, so a
counter that wraps at a multiple of N gives the same window. The last part is about such counters of 32 bits: the
distance from one to another, and the window between them.
-/
import Mathlib.Tactic
import Mathlib.Data.BitVec

namespace Xv6.Lib.Ring

open List

variable {α : Type} {N : ℕ}

/-- the n cells from `start` on, in order -/
def window (N : ℕ) (cell : ℕ → α) (start n : ℕ) : List α := (List.range n).map fun i => cell ((start + i) % N)

theorem window_congr {cell : ℕ → α} {start start' : ℕ} (h : start ≡ start' [MOD N]) (n : ℕ) :
    window N cell start n = window N cell start' n := by
  unfold window
  apply map_congr_left
  intro i _
  exact congrArg cell (h.add_right i)

/-- the cell behind the window lies outside it as long as the window is not full -/
theorem index_ne {start i n : ℕ} (hi : i < n) (hn : n < N) : (start + i) % N ≠ (start + n) % N := by
  intro h
  have hdvd : N ∣ start + n - (start + i) := (Nat.modEq_iff_dvd' (by omega)).1 h
  have := Nat.le_of_dvd (by omega) hdvd
  omega

/-- **Push.** Writing the cell behind a window that is not full appends to it. -/
theorem window_push {cell cell' : ℕ → α} {start n : ℕ} {v : α} (hn : n < N) (hv : cell' ((start + n) % N) = v)
    (hother : ∀ j, j ≠ (start + n) % N → cell' j = cell j) : window N cell' start (n + 1) = window N cell start n ++ [v] := by
  unfold window
  rw [range_succ, map_append]
  congr 1
  · apply map_congr_left
    intro i hi
    exact hother _ (index_ne (mem_range.1 hi) hn)
  · simp [hv]

/-- **Pop.** The first cell of the window and the rest. -/
theorem window_pop (cell : ℕ → α) (start n : ℕ) :
    window N cell start (n + 1) = cell (start % N) :: window N cell (start + 1) n := by
  unfold window
  rw [range_succ_eq_map, map_cons, map_map]
  congr 1
  apply map_congr_left
  intro i _
  simp only [Function.comp, Nat.succ_eq_add_one]
  congr 2
  omega

theorem window_append (cell : ℕ → α) (start m n : ℕ) :
    window N cell start (m + n) = window N cell start m ++ window N cell (start + m) n := by
  unfold window
  rw [range_add, map_append, map_map]
  congr 1
  apply map_congr_left
  intro i _
  simp only [Function.comp]
  congr 2
  omega

@[simp] theorem length_window (cell : ℕ → α) (start n : ℕ) : (window N cell start n).length = n := by
  simp [window]

/-! ## Counters that wrap -/

/-- how far counter v is ahead of counter u -/
def ahead (u v : BitVec 32) : ℕ := (v - u).toNat

theorem eq_add_ahead (u v : BitVec 32) : v = u + BitVec.ofNat 32 (ahead u v) := by
  unfold ahead
  bv_omega

variable {u v : BitVec 32}

theorem ahead_eq_zero : ahead u v = 0 ↔ u = v := by
  unfold ahead
  constructor
  · intro h
    bv_omega
  · intro h
    bv_omega

theorem ahead_succ (h : ahead u v + 1 < 2 ^ 32) : ahead u (v + 1#32) = ahead u v + 1 := by
  unfold ahead at *
  bv_omega

/-- one step of the counter behind, or one step back of the counter ahead, shortens the distance -/
theorem ahead_pop (h : u ≠ v) : ahead (u + 1#32) v + 1 = ahead u v := by
  unfold ahead
  bv_omega

theorem ahead_back (h : u ≠ v) : ahead u (v - 1#32) + 1 = ahead u v := by
  unfold ahead
  bv_omega

theorem ahead_add {w : BitVec 32} (h : ahead u v + ahead v w < 2 ^ 32) : ahead u w = ahead u v + ahead v w := by
  unfold ahead at *
  bv_omega

/-- a counter modulo N does not see the wrap if N divides 2^32 -/
theorem toNat_add_modEq (hN : N ∣ 2 ^ 32) (u : BitVec 32) (n : ℕ) : (u + BitVec.ofNat 32 n).toNat ≡ u.toNat + n [MOD N] := by
  rw [BitVec.toNat_add, BitVec.toNat_ofNat]
  exact ((Nat.mod_modEq _ _).trans ((Nat.mod_modEq _ _).add_left _)).of_dvd hN

theorem toNat_modEq_ahead (hN : N ∣ 2 ^ 32) (u v : BitVec 32) : v.toNat ≡ u.toNat + ahead u v [MOD N] := by
  have h := toNat_add_modEq hN u (ahead u v)
  rwa [← eq_add_ahead u v] at h

/-- the cells between two counters -/
def between (N : ℕ) (cell : ℕ → α) (u v : BitVec 32) : List α := window N cell u.toNat (ahead u v)

theorem between_append (hN : N ∣ 2 ^ 32) (cell : ℕ → α) {w : BitVec 32} (h : ahead u v + ahead v w < 2 ^ 32) :
    between N cell u w = between N cell u v ++ between N cell v w := by
  unfold between
  rw [ahead_add h, window_append, window_congr (toNat_modEq_ahead hN u v)]

@[simp] theorem between_self (cell : ℕ → α) (u : BitVec 32) : between N cell u u = [] := by
  simp [between, ahead_eq_zero.2, window]

theorem between_push (hN : N ∣ 2 ^ 32) (hN' : N < 2 ^ 32) {cell cell' : ℕ → α} {b : α}
    (hlt : ahead u v < N) (hb : cell' (v.toNat % N) = b) (hother : ∀ j, j ≠ v.toNat % N → cell' j = cell j) :
    between N cell' u (v + 1#32) = between N cell u v ++ [b] := by
  have hidx : v.toNat % N = (u.toNat + ahead u v) % N := toNat_modEq_ahead hN u v
  rw [hidx] at hb hother
  unfold between
  rw [ahead_succ (by omega)]
  exact window_push hlt hb hother

theorem between_pop (hN : N ∣ 2 ^ 32) (cell : ℕ → α) (h : u ≠ v) :
    between N cell u v = cell (u.toNat % N) :: between N cell (u + 1#32) v := by
  unfold between
  rw [← ahead_pop h, window_pop]
  congr 1
  exact (window_congr (toNat_add_modEq hN u 1) _).symm

end Xv6.Lib.Ring
