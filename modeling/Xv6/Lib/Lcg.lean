/-
Linear congruential generators x ↦ (a * x + c) mod 2^w, and counting over one period.

The state after n steps is a^n * x + c * (1 + a + … + a^(n-1)). With a = b + 1 it differs from x by the geometric sum
times b * x + c, which is odd when 4 divides b and c is odd. Lifting the exponent gives that 2^w divides the geometric
sum exactly when it divides n, so the period from every state is 2^w.

- `two_pow_dvd_geom`: 2^k divides 1 + a + … + a^(n-1) exactly when it divides n;
- `lcg_injOn`: the first 2^w iterates from a state are distinct;
- `card_lcg`: over 2^w consecutive steps a predicate holds as often as over the numbers below 2^w;
- `card_div`, `card_mod_ge`, `card_mod_le`: how often a predicate holds of the quotients and of the remainders of the
  numbers below a bound.
-/
import Mathlib.Tactic
import Mathlib.NumberTheory.Multiplicity
import Mathlib.Data.Int.CardIntervalMod
import Mathlib.Algebra.Order.Floor.Div

namespace Xv6.Lib

open Finset

/-! ## The generator -/

/-- one step of the generator with multiplier b + 1 and increment c, modulo m -/
def lcg (m b c x : ℕ) : ℕ := ((b + 1) * x + c) % m

/-- the geometric sum 1 + a + … + a^(n-1) for a = b + 1 -/
def geom (b n : ℕ) : ℕ := ∑ i ∈ range n, (b + 1) ^ i

theorem geom_succ (b n : ℕ) : geom b (n + 1) = (b + 1) * geom b n + 1 := by
  unfold geom
  rw [sum_range_succ', mul_sum]
  simp [pow_succ, mul_comm]

/-- **The state after n steps.** It is the start plus the geometric sum times b * x + c. -/
theorem lcg_iterate_modEq (m b c x n : ℕ) : (lcg m b c)^[n] x ≡ x + geom b n * (b * x + c) [MOD m] := by
  induction n with
  | zero => simp [geom, Nat.ModEq]
  | succ n ih =>
    rw [Function.iterate_succ_apply']
    calc lcg m b c ((lcg m b c)^[n] x)
        ≡ (b + 1) * (lcg m b c)^[n] x + c [MOD m] := Nat.mod_modEq _ _
      _ ≡ (b + 1) * (x + geom b n * (b * x + c)) + c [MOD m] := (ih.mul_left _).add_right _
      _ = x + geom b (n + 1) * (b * x + c) := by rw [geom_succ]; ring

/-- **Lifting the exponent.** For a multiplier that is 1 modulo 4, a power of two divides the geometric sum of n terms
exactly when it divides n. -/
theorem two_pow_dvd_geom {b : ℕ} (hb : 4 ∣ b) (k n : ℕ) : 2 ^ k ∣ geom b n ↔ 2 ^ k ∣ n := by
  rcases Nat.eq_zero_or_pos b with rfl | hpos
  · simp [geom]
  have hmul : ((b : ℤ) + 1) ^ n - 1 ^ n = geom b n * b := by
    have := geom_sum_mul_add (b : ℤ) n
    rw [one_pow, ← this]
    simp [geom]
  have h4 : (4 : ℤ) ∣ (b : ℤ) + 1 - 1 := by simpa using Int.natCast_dvd_natCast.2 hb
  have hodd : ¬ (2 : ℤ) ∣ (b : ℤ) + 1 := by omega
  have hlte := Int.two_pow_sub_pow' n h4 hodd
  rw [hmul, emultiplicity_mul Int.prime_two, add_sub_cancel_right, add_comm] at hlte
  have hfin : FiniteMultiplicity (2 : ℤ) b := Int.finiteMultiplicity_iff.2 ⟨by decide, by omega⟩
  have heq : emultiplicity (2 : ℤ) (geom b n) = emultiplicity (2 : ℤ) n :=
    (WithTop.add_left_inj (finiteMultiplicity_iff_emultiplicity_ne_top.1 hfin)).1 hlte
  have hcast : ∀ x : ℕ, 2 ^ k ∣ x ↔ (k : ℕ∞) ≤ emultiplicity (2 : ℤ) x := by
    intro x
    rw [← pow_dvd_iff_le_emultiplicity]
    exact_mod_cast (Int.natCast_dvd_natCast (m := 2 ^ k) (n := x)).symm
  rw [hcast, hcast, heq]

/-- **Full period.** From every state, n steps lead back to it modulo 2^w exactly when 2^w divides n. -/
theorem lcg_iterate_modEq_self {b c : ℕ} (hb : 4 ∣ b) (hc : c % 2 = 1) (w x n : ℕ) :
    (lcg (2 ^ w) b c)^[n] x ≡ x [MOD 2 ^ w] ↔ 2 ^ w ∣ n := by
  have hcop : Nat.Coprime (2 ^ w) (b * x + c) := by
    apply Nat.Coprime.pow_left
    rw [Nat.coprime_two_left, Nat.odd_iff, Nat.add_mod, Nat.mul_mod]
    have : b % 2 = 0 := by omega
    simp [this, hc]
  have hit := lcg_iterate_modEq (2 ^ w) b c x n
  calc (lcg (2 ^ w) b c)^[n] x ≡ x [MOD 2 ^ w]
      ↔ x + geom b n * (b * x + c) ≡ x + 0 [MOD 2 ^ w] := ⟨fun h => hit.symm.trans h, fun h => hit.trans h⟩
    _ ↔ geom b n * (b * x + c) ≡ 0 [MOD 2 ^ w] := Nat.ModEq.add_iff_left (Nat.ModEq.refl x)
    _ ↔ 2 ^ w ∣ geom b n := by rw [Nat.modEq_zero_iff_dvd, hcop.dvd_mul_right]
    _ ↔ 2 ^ w ∣ n := two_pow_dvd_geom hb w n

theorem lcg_injOn {b c : ℕ} (hb : 4 ∣ b) (hc : c % 2 = 1) (w x : ℕ) :
    Set.InjOn (fun k => (lcg (2 ^ w) b c)^[k + 1] x) (range (2 ^ w)) := by
  have key : ∀ i d, i + d < 2 ^ w →
      (lcg (2 ^ w) b c)^[i + 1] x = (lcg (2 ^ w) b c)^[i + d + 1] x → d = 0 := by
    intro i d hlt heq
    rw [show i + d + 1 = d + (i + 1) by ring, Function.iterate_add_apply _ d] at heq
    have hdvd := (lcg_iterate_modEq_self hb hc w _ d).1 (Nat.ModEq.symm (by rw [← heq]))
    exact Nat.eq_zero_of_dvd_of_lt hdvd (by omega)
  intro i hi j hj heq
  simp only [coe_range, Set.mem_Iio] at hi hj
  rcases Nat.le_total i j with h | h
  · obtain ⟨d, rfl⟩ := Nat.exists_eq_add_of_le h
    have := key i d hj heq
    omega
  · obtain ⟨d, rfl⟩ := Nat.exists_eq_add_of_le h
    have := key j d hi heq.symm
    omega

/-- **One period visits every state once.** A predicate holds of as many of 2^w consecutive states as of the numbers
below 2^w. -/
theorem card_lcg {b c : ℕ} (hb : 4 ∣ b) (hc : c % 2 = 1) (w x : ℕ) (P : ℕ → Prop) [DecidablePred P] :
    #{k ∈ range (2 ^ w) | P ((lcg (2 ^ w) b c)^[k + 1] x)} = #{s ∈ range (2 ^ w) | P s} := by
  have hinj := lcg_injOn hb hc w x
  have himage : (range (2 ^ w)).image (fun k => (lcg (2 ^ w) b c)^[k + 1] x) = range (2 ^ w) := by
    apply eq_of_subset_of_card_le
    · intro s hs
      obtain ⟨k, -, rfl⟩ := mem_image.1 hs
      rw [Function.iterate_succ_apply', mem_range]
      exact Nat.mod_lt _ (Nat.two_pow_pos w)
    · rw [card_image_of_injOn hinj]
  conv_rhs => rw [← himage, filter_image]
  rw [card_image_of_injOn (hinj.mono (coe_subset.2 (filter_subset _ _)))]

/-! ## Quotients and remainders -/

theorem card_div (n : ℕ) {m : ℕ} (hm : 0 < m) (P : ℕ → Prop) [DecidablePred P] :
    #{s ∈ range (n * m) | P (s / m)} = #{v ∈ range n | P v} * m := by
  have hmaps : ∀ s ∈ (range (n * m)).filter (fun s => P (s / m)), s / m ∈ (range n).filter P := by
    intro s hs
    obtain ⟨hs, hP⟩ := mem_filter.1 hs
    exact mem_filter.2 ⟨mem_range.2 ((Nat.div_lt_iff_lt_mul hm).2 (mem_range.1 hs)), hP⟩
  rw [card_eq_sum_card_fiberwise hmaps]
  refine sum_const_nat fun v hv => ?_
  obtain ⟨hv, hP⟩ := mem_filter.1 hv
  have hfib : {s ∈ (range (n * m)).filter (fun s => P (s / m)) | s / m = v} = Finset.Ico (v * m) ((v + 1) * m) := by
    ext s
    simp only [mem_filter, mem_range, mem_Ico, Nat.div_eq_iff hm, Nat.succ_mul]
    have hle : (v + 1) * m ≤ n * m := Nat.mul_le_mul_right m (mem_range.1 hv)
    rw [Nat.succ_mul] at hle
    constructor
    · rintro ⟨-, h⟩
      omega
    · intro h
      have hv : s / m = v := (Nat.div_eq_iff hm).2 (by omega)
      exact ⟨⟨by omega, hv ▸ hP⟩, by omega⟩
  rw [hfib, Nat.card_Ico, Nat.succ_mul, Nat.add_sub_cancel_left]

theorem card_mod_eq (N : ℕ) {S t : ℕ} (ht : t < S) :
    #{v ∈ range N | v % S = t} = N / S + if t < N % S then 1 else 0 := by
  have h := Nat.count_modEq_card N (by omega : 0 < S) t
  rw [Nat.count_eq_card_filter_range, Nat.mod_eq_of_lt ht] at h
  rw [← h]
  congr 1
  apply filter_congr
  intro v _
  rw [Nat.ModEq, Nat.mod_eq_of_lt ht]

theorem card_mod (N : ℕ) {S : ℕ} (hS : 0 < S) (P : ℕ → Prop) [DecidablePred P] :
    #{v ∈ range N | P (v % S)} = ∑ t ∈ (range S).filter P, #{v ∈ range N | v % S = t} := by
  have hmaps : ∀ v ∈ (range N).filter (fun v => P (v % S)), v % S ∈ (range S).filter P := by
    intro v hv
    exact mem_filter.2 ⟨mem_range.2 (Nat.mod_lt v hS), (mem_filter.1 hv).2⟩
  rw [card_eq_sum_card_fiberwise hmaps]
  refine Finset.sum_congr rfl fun t ht => ?_
  rw [filter_filter]
  congr 1
  apply filter_congr
  intro v _
  constructor
  · exact fun h => h.2
  · rintro rfl
    exact ⟨(mem_filter.1 ht).2, rfl⟩

/-- **Remainders are even to within one.** Each remainder modulo S occurs at least N / S times below N … -/
theorem card_mod_ge (N : ℕ) {S : ℕ} (hS : 0 < S) (P : ℕ → Prop) [DecidablePred P] :
    #{t ∈ range S | P t} * (N / S) ≤ #{v ∈ range N | P (v % S)} := by
  rw [card_mod N hS P, ← smul_eq_mul]
  refine card_nsmul_le_sum _ _ _ fun t ht => ?_
  rw [card_mod_eq N (mem_range.1 (mem_filter.1 ht).1)]
  omega

theorem card_mod_le (N : ℕ) {S : ℕ} (hS : 0 < S) (P : ℕ → Prop) [DecidablePred P] :
    #{v ∈ range N | P (v % S)} ≤ #{t ∈ range S | P t} * (N ⌈/⌉ S) := by
  rw [card_mod N hS P, ← smul_eq_mul]
  refine sum_le_card_nsmul _ _ _ fun t ht => ?_
  rw [card_mod_eq N (mem_range.1 (mem_filter.1 ht).1), Nat.ceilDiv_eq_add_pred_div]
  have hNS := Nat.div_add_mod N S
  split_ifs with h
  · rw [Nat.le_div_iff_mul_le hS, Nat.add_mul, Nat.mul_comm (N / S)]
    omega
  · exact Nat.div_le_div_right (by omega)

end Xv6.Lib
