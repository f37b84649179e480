/-
What finitely many slots hold, as a multiset: slot i of n holds the goods `g b` if it contains `b`.

`stock_update` is how the stock changes when one slot is filled, emptied or replaced; `stock_fill` and `stock_clear` are the
two cases in which a slot with one good appears or goes. `stock_toList` reads the stock off in the order of the slots.
-/
import Mathlib.Tactic

namespace Xv6.Lib

open Finset
open Function (update update_self update_of_ne)

variable {α β : Type}

@[irreducible] def stock (n : ℕ) (g : β → Multiset α) (f : ℕ → Option β) : Multiset α :=
  ∑ i ∈ Finset.range n, (f i).elim 0 g

variable {n i : ℕ} {g : β → Multiset α} {f f' : ℕ → Option β} {b : β} {a : α}

theorem stock_update (hi : i < n) (x : Option β) : stock n g (update f i x) + (f i).elim 0 g = stock n g f + x.elim 0 g := by
  have hrest : ∑ j ∈ (Finset.range n).erase i, (update f i x j).elim 0 g =
      ∑ j ∈ (Finset.range n).erase i, (f j).elim 0 g :=
    Finset.sum_congr rfl fun j hj => by rw [update_of_ne (ne_of_mem_erase hj)]
  unfold stock
  rw [← add_sum_erase _ _ (mem_range.2 hi), ← add_sum_erase _ (fun j => (f j).elim 0 g)
    (mem_range.2 hi), hrest, update_self, add_right_comm, add_comm (x.elim 0 g), add_right_comm]

theorem stock_congr (h : ∀ i < n, f i = f' i) : stock n g f = stock n g f' := by
  unfold stock
  exact Finset.sum_congr rfl fun i hi => by rw [h i (mem_range.1 hi)]

theorem stock_fill (hi : i < n) (hf : f i = none) (hb : g b = {a}) : stock n g (update f i (some b)) = a ::ₘ stock n g f := by
  have h := stock_update (g := g) (f := f) hi (some b)
  rw [hf] at h
  simpa [hb, add_comm] using h

theorem stock_clear (hi : i < n) (hf : f i = some b) (hb : g b = {a}) : stock n g f = a ::ₘ stock n g (update f i none) := by
  have h := stock_update (g := g) (f := f) hi none
  rw [hf] at h
  simpa [hb, add_comm] using h.symm

theorem stock_eq_zero (h : ∀ i < n, f i = none) : stock n g f = 0 := by
  unfold stock
  exact sum_eq_zero fun i hi => by rw [h i (mem_range.1 hi)]; rfl

theorem mem_stock {x : α} : x ∈ stock n g f ↔ ∃ i < n, ∃ b, f i = some b ∧ x ∈ g b := by
  unfold stock
  rw [Multiset.mem_sum]
  constructor
  · rintro ⟨i, hi, hx⟩
    cases hf : f i with
    | none => rw [hf] at hx; exact absurd hx (Multiset.notMem_zero x)
    | some b => rw [hf] at hx; exact ⟨i, mem_range.1 hi, b, hf, hx⟩
  · rintro ⟨i, hi, b, hf, hx⟩
    refine ⟨i, mem_range.2 hi, ?_⟩
    rw [hf]
    exact hx

theorem stock_toList (n : ℕ) (f : ℕ → Option α) : stock n (fun b => {b}) f = ((List.range n).filterMap f : Multiset α) := by
  induction n with
  | zero =>
    unfold stock
    rfl
  | succ n ih =>
    unfold stock at ih ⊢
    rw [sum_range_succ, ih, List.range_succ, List.filterMap_append, ← Multiset.coe_add]
    cases hf : f n with
    | none | some b => simp [hf]

theorem card_stock_le (hg : ∀ b, Multiset.card (g b) = 1) (m : ℕ) (h : ∀ i, m ≤ i → i < n → f i = none) :
    Multiset.card (stock n g f) ≤ m := by
  unfold stock
  rw [Multiset.card_sum]
  calc ∑ i ∈ Finset.range n, Multiset.card ((f i).elim 0 g)
      ≤ ∑ i ∈ Finset.range n, if i < m then 1 else 0 := by
        refine sum_le_sum fun i hi => ?_
        by_cases him : i < m
        · rw [if_pos him]
          cases hf : f i with
          | none => simp
          | some b => simp [hg]
        · rw [if_neg him, h i (by omega) (mem_range.1 hi)]
          simp
    _ = (Finset.filter (· < m) (Finset.range n)).card := (card_filter _ _).symm
    _ ≤ (Finset.range m).card :=
        card_le_card fun i hi => mem_range.2 (mem_filter.1 hi).2
    _ = m := card_range m

end Xv6.Lib
