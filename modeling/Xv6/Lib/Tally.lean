/-
Counting the elements of finitely many lists that satisfy a predicate, where the predicate may depend on the list.

`tally_update` and `tally_update_pred` are the two ways a count changes: one list is replaced, or the predicate changes on
one list. `tally_pos` reads a positive count as the existence of an element. `census` adds up a measure of finitely many
things; `census_update` is how it changes with one of them, and `apply_update_same` is for what does not change.
-/
import Mathlib.Tactic

namespace Xv6.Lib

open Finset
open Function (update update_self update_of_ne update_eq_self apply_update)

variable {α : Type}

theorem apply_update_same {β : Type} (g : α → β) {F : ℕ → α} {i : ℕ} {x : α} (h : g x = g (F i)) (j : ℕ) :
    g (update F i x j) = g (F j) := by
  rw [apply_update fun _ => g, h, update_eq_self]

/-- how many elements of `L 0, …, L (n - 1)` satisfy the predicate of their list -/
def tally (n : ℕ) (L : ℕ → List α) (f : ℕ → α → Bool) : ℕ := ∑ d ∈ Finset.range n, (L d).countP (f d)

variable {n d : ℕ} {L : ℕ → List α} {f g : ℕ → α → Bool}

theorem tally_eq_add (hd : d < n) : tally n L f = (L d).countP (f d) + ∑ x ∈ (Finset.range n).erase d, (L x).countP (f x) :=
  (add_sum_erase _ _ (mem_range.mpr hd)).symm

theorem tally_update (hd : d < n) (l : List α) :
    tally n (update L d l) f + (L d).countP (f d) = tally n L f + l.countP (f d) := by
  have hrest : ∑ x ∈ (Finset.range n).erase d, (update L d l x).countP (f x) =
      ∑ x ∈ (Finset.range n).erase d, (L x).countP (f x) :=
    Finset.sum_congr rfl fun x hx => by rw [update_of_ne (ne_of_mem_erase hx)]
  rw [tally_eq_add hd, tally_eq_add (L := L) hd, hrest, update_self]
  omega

theorem tally_update_pred (hd : d < n) (h : ∀ x, x ≠ d → f x = g x) :
    tally n L f + (L d).countP (g d) = tally n L g + (L d).countP (f d) := by
  have hrest : ∑ x ∈ (Finset.range n).erase d, (L x).countP (f x) =
      ∑ x ∈ (Finset.range n).erase d, (L x).countP (g x) :=
    Finset.sum_congr rfl fun x hx => by rw [h x (ne_of_mem_erase hx)]
  rw [tally_eq_add hd, tally_eq_add (f := g) hd, hrest]
  omega

theorem tally_pos : 0 < tally n L f ↔ ∃ d < n, ∃ e ∈ L d, f d e = true := by
  unfold tally
  rw [sum_pos_iff]
  simp [List.countP_pos_iff]

/-! ## Measures -/

section Census

variable {β : Type} {g : β → ℕ} {F : ℕ → β}

/-- the sum of a measure over `F 0, …, F (n - 1)` -/
def census (n : ℕ) (g : β → ℕ) (F : ℕ → β) : ℕ := ∑ x ∈ Finset.range n, g (F x)

theorem census_update (hd : d < n) (v : β) : census n g (update F d v) + g (F d) = census n g F + g v := by
  have h1 := add_sum_erase (Finset.range n) (fun x => g (update F d v x)) (mem_range.2 hd)
  have h2 := add_sum_erase (Finset.range n) (fun x => g (F x)) (mem_range.2 hd)
  have hrest : ∑ x ∈ (Finset.range n).erase d, g (update F d v x) = ∑ x ∈ (Finset.range n).erase d, g (F x) :=
    Finset.sum_congr rfl fun x hx => by rw [update_of_ne (ne_of_mem_erase hx)]
  simp only [update_self] at h1
  unfold census
  omega

theorem census_pos : 0 < census n g F ↔ ∃ x < n, 0 < g (F x) := by
  unfold census
  rw [sum_pos_iff]
  simp

theorem census_eq_zero (h : ∀ x < n, g (F x) = 0) : census n g F = 0 :=
  sum_eq_zero fun x hx => h x (mem_range.1 hx)

end Census

end Xv6.Lib
