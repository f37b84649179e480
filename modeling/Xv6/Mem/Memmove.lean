/-
memmove of string.c, which the kernel uses, and of ulib.c, which user programs use.

Memory is a function of 32-bit addresses, and pointers wrap. The kernel's memmove copies downwards when the source overlaps
the destination from below; the user's copies upwards only.

- `memmove_moves_bytes`: the kernel's memmove moves the bytes whatever the overlap, and the user's does if and only if the
  destination does not start inside the source, and then with the same result.
- `user_memmove_smears`: there, it writes over bytes that it still has to read.
-/
import Xv6.Param

namespace Xv6.Memmove

open Lib BitVec

abbrev Memory := Word → Byte

/-- `*d++ = *s++`, n times -/
def copyUp : ℕ → Memory → Word → Word → Memory
  | 0, m, _, _ => m
  | n + 1, m, d, s => copyUp n (update m d (m s)) (d + 1) (s + 1)

/-- `*--d = *--s`, n times -/
def copyDown : ℕ → Memory → Word → Word → Memory
  | 0, m, _, _ => m
  | n + 1, m, d, s => copyDown n (update m (d - 1) (m (s - 1))) (d - 1) (s - 1)

/-- memmove of string.c -/
def memmove (m : Memory) (dst src n : Word) : Memory :=
  if src < dst ∧ dst < src + n then copyDown n.toNat m (dst + n) (src + n) else copyUp n.toNat m dst src

/-- memmove of ulib.c, where n is an int -/
def userMemmove (m : Memory) (dst src n : Word) : Memory := copyUp n.toInt.toNat m dst src

/-- the n bytes at dst are those that were at src, and all others are as before -/
structure Moved (m m' : Memory) (dst src : Word) (n : ℕ) : Prop where
  bytes : ∀ i < n, m' (dst + BitVec.ofNat 32 i) = m (src + BitVec.ofNat 32 i)
  others : ∀ a : Word, a.toNat < dst.toNat ∨ dst.toNat + n ≤ a.toNat → m' a = m a

theorem ne_of_toNat {a b : Word} (h : a.toNat ≠ b.toNat) : a ≠ b := fun heq => h (congrArg BitVec.toNat heq)

theorem add_one_add (p : Word) (i : ℕ) : p + 1 + BitVec.ofNat 32 i = p + BitVec.ofNat 32 (i + 1) := by
  rw [BitVec.add_assoc, add_comm i 1, BitVec.ofNat_add]
  rfl

variable {m : Memory} {n : ℕ} {d s : Word}

theorem copyUp_moved : ∀ {m : Memory} {d s : Word}, d.toNat + n ≤ 2 ^ 32 → s.toNat + n ≤ 2 ^ 32 →
    d.toNat ≤ s.toNat ∨ s.toNat + n ≤ d.toNat → Moved m (copyUp n m d s) d s n := by
  induction n with
  | zero =>
    intro m d s _ _ _
    exact ⟨fun i hi => absurd hi (Nat.not_lt_zero i), fun _ _ => rfl⟩
  | succ n ih =>
    intro m d s hd hs hover
    cases hn : n with
    | zero =>
      -- the last byte: after it the pointers may wrap
      refine ⟨fun i hi => ?_, fun a ha => update_of_ne (ne_of_toNat (by omega)) ..⟩
      obtain rfl : i = 0 := by omega
      show update m d (m s) (d + 0#32) = m (s + 0#32)
      rw [BitVec.add_zero, BitVec.add_zero, update_self]
    | succ k =>
      rw [← hn]
      have hd1 : (d + 1).toNat = d.toNat + 1 := toNat_offset (p := d) (i := 1) (by omega)
      have hs1 : (s + 1).toNat = s.toNat + 1 := toNat_offset (p := s) (i := 1) (by omega)
      obtain ⟨hbytes, hothers⟩ := ih (m := update m d (m s)) (d := d + 1) (s := s + 1) (by omega) (by omega) (by omega)
      refine ⟨fun i hi => ?_, fun a ha => ?_⟩
      · cases i with
        | zero =>
          show copyUp n (update m d (m s)) (d + 1) (s + 1) (d + 0#32) = m (s + 0#32)
          rw [BitVec.add_zero, BitVec.add_zero, hothers d (by omega), update_self]
        | succ i =>
          rw [← add_one_add, ← add_one_add]
          show copyUp n (update m d (m s)) (d + 1) (s + 1) _ = _
          have hsi := toNat_offset (p := s + 1) (i := i) (by omega)
          rw [hbytes i (by omega), update_of_ne (ne_of_toNat (by omega))]
      · show copyUp n (update m d (m s)) (d + 1) (s + 1) a = m a
        rw [hothers a (by omega), update_of_ne (ne_of_toNat (by omega))]

/-- downwards is right if the destination is above the source -/
theorem copyDown_moved (hover : s.toNat ≤ d.toNat) : ∀ {m : Memory}, d.toNat + n ≤ 2 ^ 32 →
    Moved m (copyDown n m (d + BitVec.ofNat 32 n) (s + BitVec.ofNat 32 n)) d s n := by
  have hlast : ∀ (p : Word) (n : ℕ), p + BitVec.ofNat 32 (n + 1) - 1 = p + BitVec.ofNat 32 n := by
    intro p n
    rw [BitVec.ofNat_add, ← BitVec.add_assoc]
    exact add_sub_cancel ..
  induction n with
  | zero =>
    intro m _
    exact ⟨fun i hi => absurd hi (Nat.not_lt_zero i), fun _ _ => rfl⟩
  | succ n ih =>
    intro m hd
    have hdn := toNat_offset (p := d) (i := n) (by omega)
    obtain ⟨hbytes, hothers⟩ :=
      ih (m := update m (d + BitVec.ofNat 32 n) (m (s + BitVec.ofNat 32 n))) (by omega)
    rw [copyDown, hlast, hlast]
    refine ⟨fun i hi => ?_, fun a ha => ?_⟩
    · rcases Nat.lt_succ_iff_lt_or_eq.1 hi with hlt | rfl
      · have hsi := toNat_offset (p := s) (i := i) (by omega)
        rw [hbytes i hlt, update_of_ne (ne_of_toNat (by omega))]
      · rw [hothers _ (by omega), update_self]
    · rw [hothers a (by omega), update_of_ne (ne_of_toNat (by omega))]

theorem Moved.unique {m1 m2 : Memory} (hd : d.toNat + n ≤ 2 ^ 32) (h1 : Moved m m1 d s n) (h2 : Moved m m2 d s n) : m1 = m2 := by
  funext a
  by_cases ha : a.toNat < d.toNat ∨ d.toNat + n ≤ a.toNat
  · rw [h1.others a ha, h2.others a ha]
  · obtain ⟨i, hi, rfl⟩ : ∃ i < n, d + BitVec.ofNat 32 i = a := by
      refine ⟨a.toNat - d.toNat, by omega, eq_of_toNat_eq ?_⟩
      rw [toNat_offset (by omega)]
      omega
    rw [h1.bytes i hi, h2.bytes i hi]

theorem memmove_moved {m : Memory} {dst src n : Word} (hd : dst.toNat + n.toNat ≤ 2 ^ 32)
    (hs : src.toNat + n.toNat ≤ 2 ^ 32) : Moved m (memmove m dst src n) dst src n.toNat := by
  unfold memmove
  have hn : BitVec.ofNat 32 n.toNat = n := by rw [ofNat_toNat, setWidth_eq]
  split_ifs with hover
  · have h := copyDown_moved (n := n.toNat) (BitVec.le_def.1 (BitVec.le_of_lt hover.1)) (m := m) hd
    rwa [hn] at h
  · refine copyUp_moved hd hs ?_
    rw [lt_def, lt_def, toNat_add] at hover
    -- the end of the source does not wrap if the destination is above it
    by_cases hlt : src.toNat < dst.toNat ∧ 0 < n.toNat
    · rw [Nat.mod_eq_of_lt (by omega)] at hover
      omega
    · omega

theorem copyUp_add (a b : ℕ) : ∀ (m : Memory) (d s : Word),
    copyUp (a + b) m d s = copyUp b (copyUp a m d s) (d + BitVec.ofNat 32 a) (s + BitVec.ofNat 32 a) := by
  induction a with
  | zero =>
    intro m d s
    rw [Nat.zero_add, BitVec.add_zero, BitVec.add_zero]
    rfl
  | succ a ih =>
    intro m d s
    rw [Nat.succ_add, ← add_one_add, ← add_one_add]
    exact ih _ _ _

theorem copyUp_below {a : Word} : ∀ {m : Memory} {d s : Word}, a.toNat < d.toNat → d.toNat + n ≤ 2 ^ 32 →
    copyUp n m d s a = m a := by
  induction n with
  | zero => exact fun _ _ => rfl
  | succ n ih =>
    intro m d s ha hd
    have hput : update m d (m s) a = m a := update_of_ne (ne_of_toNat (by omega)) ..
    cases n with
    | zero => exact hput
    | succ n =>
      have hd1 : (d + 1).toNat = d.toNat + 1 := toNat_offset (p := d) (i := 1) (by omega)
      exact (ih (by omega) (by omega)).trans hput

theorem copyUp_first (hd : d.toNat + (n + 1) ≤ 2 ^ 32) : copyUp (n + 1) m d s d = m s := by
  cases n with
  | zero => exact update_self ..
  | succ n =>
    have hd1 : (d + 1).toNat = d.toNat + 1 := toNat_offset (p := d) (i := 1) (by omega)
    have hrest := copyUp_below (n := n + 1) (m := update m d (m s)) (a := d) (d := d + 1) (s := s + 1) (by omega) (by omega)
    exact hrest.trans (update_self ..)

/-- upwards, with the destination k bytes above the source and inside it, the byte at the source comes out twice -/
theorem copyUp_twice {k : ℕ} (hk : k < n) (hds : d.toNat = s.toNat + k) (hd : d.toNat + n ≤ 2 ^ 32) :
    copyUp n m d s (d + BitVec.ofNat 32 k) = m s := by
  obtain ⟨j, rfl⟩ : ∃ j, n = k + (j + 1) := ⟨n - k - 1, by omega⟩
  have hdk := toNat_offset (p := d) (i := k) (by omega)
  have hsk : s + BitVec.ofNat 32 k = d := eq_of_toNat_eq (by rw [toNat_offset (by omega), hds])
  rw [copyUp_add, copyUp_first (by omega), hsk]
  cases k with
  | zero => exact congrArg m (eq_of_toNat_eq hds)
  | succ k =>
    have h := (copyUp_moved (n := k + 1) (m := m) (d := d) (s := s) (by omega) (by omega) (by omega)).bytes 0 (Nat.succ_pos k)
    rwa [BitVec.add_zero, BitVec.add_zero] at h

/-- **memmove moves the bytes.** The kernel's does so for every memory, and the user's if and only if the destination is not
above the source or lies behind it; then both do the same. -/
theorem memmove_moves_bytes (dst src n : Word) (hd : dst.toNat + n.toNat ≤ 2 ^ 32) (hs : src.toNat + n.toNat ≤ 2 ^ 32)
    (hn : 0 ≤ n.toInt) : (∀ m, Moved m (memmove m dst src n) dst src n.toNat) ∧
      ((∀ m, Moved m (userMemmove m dst src n) dst src n.toNat) ↔
        dst.toNat ≤ src.toNat ∨ src.toNat + n.toNat ≤ dst.toNat) ∧
      ∀ m, Moved m (userMemmove m dst src n) dst src n.toNat → userMemmove m dst src n = memmove m dst src n := by
  have hint : n.toInt.toNat = n.toNat := by
    have := n.isLt
    rw [toInt_eq_toNat_cond] at hn ⊢
    split_ifs at hn ⊢ <;> omega
  have huser : ∀ m, userMemmove m dst src n = copyUp n.toNat m dst src := fun m => by
    unfold userMemmove
    rw [hint]
  refine ⟨fun m => memmove_moved hd hs, ⟨fun hall => ?_, fun hover m => ?_⟩, fun m h => h.unique hd (memmove_moved hd hs)⟩
  · by_contra hover
    have hne : dst ≠ src := ne_of_toNat (by omega)
    have hsrc : src + BitVec.ofNat 32 (dst.toNat - src.toNat) = dst := eq_of_toNat_eq (by rw [toNat_offset (by omega)]; omega)
    -- a memory in which the bytes at the source and at the destination differ
    have h := (hall (update (fun _ => 0) src 1)).bytes (dst.toNat - src.toNat) (by omega)
    rw [huser, copyUp_twice (by omega) (by omega) hd, hsrc, update_self, update_of_ne hne] at h
    exact absurd h (by decide)
  · rw [huser]
    exact copyUp_moved hd hs hover

/-- three bytes, moved down by one -/
theorem memmove_moves_bytes_example : userMemmove (fun a => a.setWidth 8) 100 101 3 = memmove (fun a => a.setWidth 8) 100 101 3 :=
  have h := memmove_moves_bytes 100 101 3 (by decide) (by decide) (by decide)
  h.2.2 _ (h.2.1.2 (by decide) _)

/-- **The user's memmove of two bytes, up by one**, reads the first of them twice. -/
theorem user_memmove_smears : ¬ Moved (fun a => a.setWidth 8) (userMemmove (fun a => a.setWidth 8) 101 100 2) 101 100 2 ∧
    Moved (fun a => a.setWidth 8) (memmove (fun a => a.setWidth 8) 101 100 2) 101 100 2 := by
  refine ⟨fun h => absurd (h.bytes 1 (by decide)) (by decide), ?_⟩
  exact memmove_moved (n := 2) (by decide) (by decide)

end Xv6.Memmove
