/-
Exact allocation: a bitmap that marks precisely what is in use.

Units 0, …, hi - 1 are handed out to slots; those below lo are reserved. A slot holds the number of a unit, or 0 for none.
`Exact` says that a unit is marked iff it is reserved or held, that no two slots hold the same unit, and that no slot holds
a reserved one. Filling an empty slot with an unmarked unit and emptying a slot keep it, if the mark is changed with the slot.
-/
import Mathlib.Tactic

namespace Xv6.Lib

open Function (update update_self update_of_ne)

/-- the marked units are the reserved ones and those that exactly one slot holds -/
structure Exact {κ : Type*} (lo hi : ℕ) (marked : ℕ → Bool) (val : κ → ℕ) : Prop where
  pos : 0 < lo
  marks : ∀ b < hi, marked b = true ↔ b < lo ∨ ∃ k, val k = b
  once : ∀ k k', val k ≠ 0 → val k = val k' → k = k'
  range : ∀ k, val k ≠ 0 → lo ≤ val k ∧ val k < hi

namespace Exact

variable {κ : Type*} {lo hi : ℕ} {marked marked' : ℕ → Bool} {val val' : κ → ℕ}

section

variable (h : Exact lo hi marked val)
include h

theorem congr (hm : ∀ c < hi, marked' c = marked c) (hv : ∀ k, val' k = val k) : Exact lo hi marked' val' := by
  obtain rfl : val' = val := funext hv
  exact ⟨h.pos, fun b hb => by rw [hm b hb]; exact h.marks b hb, h.once, h.range⟩

theorem marked_val {k : κ} (hk : val k ≠ 0) : marked (val k) = true :=
  (h.marks _ (h.range k hk).2).2 (.inr ⟨k, rfl⟩)

theorem lo_le {b : ℕ} (hb : b < hi) (hm : marked b = false) : lo ≤ b := by
  by_contra hlt
  rw [(h.marks b hb).2 (.inl (by omega))] at hm
  cases hm

theorem val_ne {b : ℕ} (hb : b < hi) (hm : marked b = false) (k : κ) : val k ≠ b := by
  intro hk
  rw [(h.marks b hb).2 (.inr ⟨k, hk⟩)] at hm
  cases hm

end

variable [DecidableEq κ]

theorem fill (h : Exact lo hi marked val) {k : κ} (hk : val k = 0) {b : ℕ} (hb : b < hi) (hm : marked b = false)
    (hm' : ∀ c < hi, marked' c = (marked c || decide (c = b))) : Exact lo hi marked' (update val k b) := by
  have hlo := h.lo_le hb hm
  have hne := h.val_ne hb hm
  have hpos := h.pos
  refine ⟨h.pos, fun c hc => ?_, fun i j hi hij => ?_, fun i hi => ?_⟩
  · rw [hm' c hc, Bool.or_eq_true, decide_eq_true_eq, h.marks c hc]
    constructor
    · rintro ((hlt | ⟨i, rfl⟩) | rfl)
      · exact .inl hlt
      · by_cases hik : i = k
        · subst hik
          rw [hk]
          exact .inl hpos
        · exact .inr ⟨i, update_of_ne hik _ _⟩
      · exact .inr ⟨k, update_self _ _ _⟩
    · rintro (hlt | ⟨i, hi⟩)
      · exact .inl (.inl hlt)
      · by_cases hik : i = k
        · subst hik
          rw [update_self] at hi
          exact .inr hi.symm
        · rw [update_of_ne hik] at hi
          exact .inl (.inr ⟨i, hi⟩)
  · by_cases hik : i = k <;> by_cases hjk : j = k
    · rw [hik, hjk]
    · subst hik
      rw [update_self, update_of_ne hjk] at hij
      exact absurd hij.symm (hne j)
    · subst hjk
      rw [update_self, update_of_ne hik] at hij
      exact absurd hij (hne i)
    · rw [update_of_ne hik] at hi hij
      rw [update_of_ne hjk] at hij
      exact h.once i j hi hij
  · by_cases hik : i = k
    · subst hik
      rw [update_self]
      exact ⟨hlo, hb⟩
    · rw [update_of_ne hik] at hi ⊢
      exact h.range i hi

theorem clear (h : Exact lo hi marked val) {k : κ} (hk : val k ≠ 0)
    (hm' : ∀ c < hi, marked' c = (marked c && !decide (c = val k))) : Exact lo hi marked' (update val k 0) := by
  have hrange := h.range k hk
  have hpos := h.pos
  refine ⟨h.pos, fun c hc => ?_, fun i j hi hij => ?_, fun i hi => ?_⟩
  · rw [hm' c hc, Bool.and_eq_true, Bool.not_eq_true', decide_eq_false_iff_not, h.marks c hc]
    constructor
    · rintro ⟨hlt | ⟨i, rfl⟩, hne⟩
      · exact .inl hlt
      · refine .inr ⟨i, update_of_ne ?_ _ _⟩
        rintro rfl
        exact hne rfl
    · rintro (hlt | ⟨i, hi⟩)
      · exact ⟨.inl hlt, by omega⟩
      · by_cases hik : i = k
        · subst hik
          rw [update_self] at hi
          exact ⟨.inl (by omega), by omega⟩
        · rw [update_of_ne hik] at hi
          refine ⟨.inr ⟨i, hi⟩, fun hck => hik ?_⟩
          exact (h.once k i hk (by rw [hi, ← hck])).symm
  · by_cases hik : i = k
    · subst hik
      rw [update_self] at hi
      exact absurd rfl hi
    · rw [update_of_ne hik] at hi hij
      by_cases hjk : j = k
      · subst hjk
        rw [update_self] at hij
        exact absurd hij hi
      · rw [update_of_ne hjk] at hij
        exact h.once i j hi hij
  · by_cases hik : i = k
    · subst hik
      rw [update_self] at hi
      exact absurd rfl hi
    · rw [update_of_ne hik] at hi ⊢
      exact h.range i hi

end Exact

end Xv6.Lib
