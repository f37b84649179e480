/-
Drawing from a list of weights by prefix sums: ticket t (counted from 1) goes to the first entry at which the running
sum reaches t.

- `draw_eq_some_iff`: entry i is drawn exactly by the tickets in the half-open bracket (sum of the first i weights,
  sum of the first i + 1 weights];
- `draw_lt_length`: every ticket from 1 to the total draws some entry;
- `card_draw`: the number of tickets that draw entry i is its weight.
-/
import Mathlib.Tactic

namespace Xv6.Lib

open List

/-- the entry drawn by ticket t -/
def draw : List ℕ → ℕ → Option ℕ
  | [], _ => none
  | w :: ws, t => if t ≤ w then some 0 else (draw ws (t - w)).map (· + 1)

theorem draw_zero_cons (ws : List ℕ) (t : ℕ) (ht : 0 < t) : draw (0 :: ws) t = (draw ws t).map (· + 1) := by
  have h0 : ¬ t ≤ 0 := by omega
  simp [draw, h0]

/-- **The bracket of an entry.** A positive ticket draws i exactly when it lies above the first i weights and at most
at the first i + 1 weights. -/
theorem draw_eq_some_iff (ws : List ℕ) (t i : ℕ) (ht : 0 < t) (hi : i < ws.length) :
    draw ws t = some i ↔ (ws.take i).sum < t ∧ t ≤ (ws.take (i + 1)).sum := by
  induction ws generalizing t i with
  | nil => simp at hi
  | cons w ws ih =>
    by_cases hw : t ≤ w
    · -- the head takes the ticket: later brackets start at or above w
      cases i with
      | zero => simp [draw, hw, ht]
      | succ i =>
        simp only [draw, if_pos hw, take_succ_cons, List.sum_cons]
        constructor
        · intro h; simp at h
        · rintro ⟨h, -⟩; omega
    · have ht' : 0 < t - w := by omega
      cases i with
      | zero =>
        simp only [draw, if_neg hw, take_zero, List.sum_nil, take_succ_cons, List.sum_cons]
        constructor
        · intro h; simp at h
        · rintro ⟨-, h⟩; omega
      | succ i =>
        simp only [length_cons] at hi
        have hrec := ih (t - w) i ht' (by omega)
        simp only [draw, if_neg hw, take_succ_cons, List.sum_cons]
        rw [Option.map_eq_some_iff]
        constructor
        · rintro ⟨j, hj, hji⟩
          have hj' : j = i := by omega
          subst hj'
          have := hrec.1 hj
          omega
        · rintro ⟨h1, h2⟩
          exact ⟨i, hrec.2 ⟨by omega, by omega⟩, rfl⟩

/-- **No ticket is lost.** Every ticket from 1 to the total weight draws an entry of the list, one of positive weight. -/
theorem draw_lt_length (ws : List ℕ) (t : ℕ) (h0 : 0 < t) (ht : t ≤ ws.sum) :
    ∃ i, ∃ hi : i < ws.length, draw ws t = some i ∧ 0 < ws[i] := by
  induction ws generalizing t with
  | nil => simp at ht; omega
  | cons w ws ih =>
    by_cases hw : t ≤ w
    · exact ⟨0, by simp, by simp [draw, hw], by simp; omega⟩
    · simp only [List.sum_cons] at ht
      obtain ⟨i, hi, hd, hpos⟩ := ih (t - w) (by omega) (by omega)
      exact ⟨i + 1, by simpa using hi, by simp [draw, hw, hd], by simpa using hpos⟩

/-- **Every entry gets as many tickets as its weight.** -/
theorem card_draw (ws : List ℕ) (i : ℕ) (hi : i < ws.length) :
    ((Finset.Icc 1 ws.sum).filter fun t => draw ws t = some i).card = ws[i] := by
  have hset : (Finset.Icc 1 ws.sum).filter (fun t => draw ws t = some i) =
      Finset.Ioc (ws.take i).sum (ws.take (i + 1)).sum := by
    ext t
    simp only [Finset.mem_filter, Finset.mem_Icc, Finset.mem_Ioc]
    constructor
    · rintro ⟨⟨h1, -⟩, hd⟩
      exact (draw_eq_some_iff ws t i h1 hi).1 hd
    · rintro ⟨h1, h2⟩
      have hle : (ws.take (i + 1)).sum ≤ ws.sum := (take_sublist _ _).sum_le_sum (by simp)
      exact ⟨⟨by omega, by omega⟩, (draw_eq_some_iff ws t i (by omega) hi).2 ⟨h1, h2⟩⟩
  rw [hset, Nat.card_Ioc, sum_take_succ ws i hi]
  omega

end Xv6.Lib
