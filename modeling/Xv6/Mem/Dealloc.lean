/-
deallocuvm of vm.c in 32-bit arithmetic, with the jump over missing page tables.

The loop counter is a uint. Without a page table for it, the counter is set to the last page before the next directory boundary,
so that the increment of the loop lands on that boundary. `Mem.deallocuvm` counts pages instead and jumps to the boundary.

- `deallocuvm_eq`: up to KERNBASE the two are the same function, and the loop ends;
- `deallocuvm_skips_exactly`: it does what the loop without jumps does, and frees and clears each present entry of the range once.
-/
import Xv6.Mem.Exec

namespace Xv6.Dealloc

open Mem BitVec List

/-! ## Model -/

/-- page directory index -/
def PDX (va : Word) : Word := va >>> 22 &&& 0x3FF

def PGADDR (d t o : Word) : Word := d <<< 22 ||| t <<< 12 ||| o

def PGROUNDUP (sz : Word) : Word := (sz + BitVec.ofNat 32 PGSIZE - 1) &&& ~~~(BitVec.ofNat 32 PGSIZE - 1)

/-- the loop of deallocuvm; none: the fuel is too small -/
def deallocLoop (L : Layout) (oldsz : Word) : ℕ → Kmem → Space → Word → Option (Except Panic (Kmem × Space))
  | 0, _, _, _ => none
  | fuel + 1, k, s, a =>
    if a < oldsz then
      match s.tab (PDX a).toNat with
      | none =>
        let a := PGADDR (PDX a + 1) 0 0 - BitVec.ofNat 32 PGSIZE
        deallocLoop L oldsz fuel k s (a + BitVec.ofNat 32 PGSIZE)
      | some _ =>
        match visit L k s (a.toNat / PGSIZE) with
        | .error p => some (.error p)
        | .ok (k, s) => deallocLoop L oldsz fuel k s (a + BitVec.ofNat 32 PGSIZE)
    else some (.ok (k, s))

def deallocuvm (L : Layout) (fuel : ℕ) (k : Kmem) (s : Space) (oldsz newsz : Word) :
    Option (Except Panic (Word × Kmem × Space)) :=
  if newsz ≥ oldsz then some (.ok (oldsz, k, s))
  else
    match deallocLoop L oldsz fuel k s (PGROUNDUP newsz) with
    | none => none
    | some (.error p) => some (.error p)
    | some (.ok (k, s)) => some (.ok (newsz, k, s))

/-- the pages from PGROUNDUP(newsz) up to oldsz -/
def pages (oldsz newsz : Word) : List ℕ :=
  List.range' (numPages newsz.toNat) (numPages oldsz.toNat - numPages newsz.toNat)

/-- the space with the entries of these pages cleared -/
def cleared (s : Space) (l : List ℕ) : Space :=
  { s with pte := fun x => if x ∈ l ∧ (entry s x).isSome then none else s.pte x }

/-- kfree takes the frame -/
def Freeable (L : Layout) (e : Pte) : Prop := L.first ≤ e.frame ∧ e.frame < PHYSTOP

instance (L : Layout) (e : Pte) : Decidable (Freeable L e) := inferInstanceAs (Decidable (_ ∧ _))

/-! ## Addresses -/

section Addresses

variable {a sz : Word} {x : ℕ}

theorem PDX_toNat (ha : a.toNat = x * 4096) (hx : x < 0x80000) : (PDX a).toNat = x / 1024 := by
  unfold PDX
  rw [toNat_and, toNat_ushiftRight, ha, Nat.shiftRight_eq_div_pow]
  show x * 4096 / 2 ^ 22 &&& 2 ^ 10 - 1 = _
  rw [Nat.and_two_pow_sub_one_eq_mod]
  omega

/-- the jump and the increment lead to the next directory boundary -/
theorem jump_toNat (ha : a.toNat = x * 4096) (hx : x < 0x80000) :
    (PGADDR (PDX a + 1) 0 0 - BitVec.ofNat 32 PGSIZE + BitVec.ofNat 32 PGSIZE).toNat = (x / 1024 + 1) * 1024 * 4096 := by
  have hd : (PDX a + 1#32).toNat = x / 1024 + 1 := by
    rw [← PDX_toNat ha hx]
    exact toNat_offset (i := 1) (by rw [PDX_toNat ha hx]; omega)
  unfold PGADDR
  simp only [sub_add_cancel, ofNat_eq_ofNat, zero_shiftLeft, or_zero, toNat_shiftLeft, hd]
  rw [Nat.shiftLeft_eq]
  omega

theorem PGROUNDUP_toNat (h : sz.toNat < 0x80000000) : (PGROUNDUP sz).toNat = numPages sz.toNat * 4096 := by
  have hsum : (sz + BitVec.ofNat 32 PGSIZE - 1).toNat = sz.toNat + 4095 := by
    have hadd := toNat_offset (p := sz) (i := PGSIZE) (by unfold PGSIZE; omega)
    rw [toNat_sub, hadd]
    unfold PGSIZE
    simp only [ofNat_eq_ofNat, toNat_ofNat]
    omega
  unfold PGROUNDUP numPages
  rw [show ~~~(BitVec.ofNat 32 PGSIZE - 1) = BitVec.allOnes 32 <<< 12 by decide, ← shiftLeft_ushiftRight,
    toNat_shiftLeft, toNat_ushiftRight, hsum, Nat.shiftRight_eq_div_pow, Nat.shiftLeft_eq]
  omega

end Addresses

/-! ## The loops -/

section Loops

variable {L : Layout} {oldsz newsz : Word}

/-- the loop over words does what the loop over page numbers does -/
theorem deallocLoop_eq (hle : oldsz.toNat ≤ 0x80000000) (n : ℕ) :
    ∀ {x fuel : ℕ} {a : Word} (k : Kmem) (s : Space), a.toNat = x * 4096 → x ≤ 0x80000 → numPages oldsz.toNat - x ≤ n → n < fuel →
      deallocLoop L oldsz fuel k s a = some (Mem.deallocLoop L k s (numPages oldsz.toNat) x) := by
  induction n using Nat.strong_induction_on with
  | _ n ih =>
    intro x fuel a k s ha hx hn hfuel
    obtain ⟨fuel, rfl⟩ : ∃ f, fuel = f + 1 := ⟨fuel - 1, by omega⟩
    have hcond : a < oldsz ↔ x < numPages oldsz.toNat := by
      rw [lt_def, ha]
      unfold numPages
      omega
    unfold deallocLoop
    by_cases hlt : x < numPages oldsz.toNat
    · have hx' : x < 0x80000 := by
        unfold numPages at hlt
        omega
      have hnext : (a + BitVec.ofNat 32 PGSIZE).toNat = (x + 1) * 4096 := by
        rw [toNat_offset] <;> rw [ha] <;> unfold PGSIZE <;> omega
      rw [if_pos (hcond.mpr hlt), PDX_toNat ha hx', ha, show x * 4096 / PGSIZE = x from Nat.mul_div_cancel x (by decide)]
      cases htab : s.tab (x / 1024) with
      | none =>
        rw [Mem.deallocLoop, if_pos hlt, htab]
        exact ih (n - 1) (by omega) k s (jump_toNat ha hx') (by omega) (by omega) (by omega)
      | some t =>
        rw [deallocLoop_visit k hlt htab]
        cases visit L k s x with
        | error p => rfl
        | ok r => exact ih (n - 1) (by omega) r.1 r.2 hnext hx' (by omega) (by omega)
    · rw [if_neg (fun h => hlt (hcond.mp h)), Mem.deallocLoop, if_neg hlt]

/-- Looking at every page once clears and frees each present entry once, if kfree takes them all. -/
theorem plainLoop_exact {l : List ℕ} (hl : l.Nodup) : ∀ (k : Kmem) (s : Space), plainLoop L k s l =
    if ∀ e ∈ l.filterMap (entry s), Freeable L e then
      .ok (⟨((l.filterMap (entry s)).map Pte.frame).reverse ++ k.freelist, k.grant⟩, cleared s l)
    else .error .kfree := by
  induction l with
  | nil =>
    intro k s
    simp [plainLoop, cleared]
  | cons x l ih =>
    intro k s
    obtain ⟨hx, hl⟩ := nodup_cons.mp hl
    rw [plainLoop, visit, filterMap_cons]
    cases he : entry s x with
    | none =>
      have hclear : cleared s (x :: l) = cleared s l := by
        unfold cleared
        congr 1
        funext y
        by_cases hy : y = x <;> simp [hy, he]
      rw [hclear]
      exact ih hl k s
    | some e =>
      -- the rest of the pages still has its entries when this one is cleared
      have hne : ∀ {y}, y ≠ x → entry { s with pte := update s.pte x none } y = entry s y := fun h => by
        simp [entry, update_of_ne h]
      have hrest : l.filterMap (entry { s with pte := update s.pte x none }) = l.filterMap (entry s) :=
        filterMap_congr fun y hy => hne fun h => hx (h ▸ hy)
      have hclear : cleared s (x :: l) = cleared { s with pte := update s.pte x none } l := by
        unfold cleared
        congr 1
        funext y
        by_cases hy : y = x
        · simp [hy, he]
        · simp [hy, hne hy]
      dsimp only
      by_cases hf : Freeable L e
      · have hk : kfree L k e.frame = .ok { k with freelist := e.frame :: k.freelist } :=
          if_neg (not_or.mpr ⟨not_lt.mpr hf.1, not_le.mpr hf.2⟩)
        have h0 := (L.extmem_lt.trans_le L.data_le).trans_le hf.1
        rw [if_neg (by omega), hk, hclear]
        simp only [ih hl, hrest, List.forall_mem_cons, hf, true_and, List.map_cons, List.reverse_cons, List.append_assoc,
          singleton_append]
      · have hk : kfree L k e.frame = .error .kfree := if_pos (by unfold Freeable at hf; omega)
        rw [hk, if_neg (show ¬ ∀ e' ∈ e :: _, Freeable L e' from fun h => hf (h e List.mem_cons_self))]
        split_ifs <;> rfl

/-- `Mem.deallocuvm` is the function of the source on the sizes below KERNBASE -/
theorem deallocuvm_eq (k : Kmem) (s : Space) (hlt : newsz < oldsz) (hle : oldsz.toNat ≤ KERNBASE * PGSIZE) {fuel : ℕ}
    (hfuel : numPages oldsz.toNat < fuel) : deallocuvm L fuel k s oldsz newsz =
      some ((Mem.deallocuvm L k s oldsz.toNat newsz.toNat).map fun r => (newsz, r.2)) := by
  rw [kernbase_bytes] at hle
  have hlt' : newsz.toNat < oldsz.toNat := hlt
  have hloop : deallocLoop L oldsz fuel k s (PGROUNDUP newsz) = _ :=
    deallocLoop_eq hle _ k s (PGROUNDUP_toNat (by omega)) (by unfold numPages; omega) (Nat.sub_le ..) hfuel
  unfold deallocuvm Mem.deallocuvm
  rw [if_neg (Nat.not_le.mpr hlt'), if_neg (BitVec.not_le.mpr hlt), hloop]
  cases Mem.deallocLoop L k s (numPages oldsz.toNat) (numPages newsz.toNat) <;> rfl

/-- **The skip over missing page tables is exact.** For every page table and all sizes newsz < oldsz up to KERNBASE deallocuvm
ends. It does what the loop over every page of the range does: the present entries of the range are cleared and their frames
freed, each once and in order, and nothing else changes. If kfree refuses one of the frames, both loops panic. -/
theorem deallocuvm_skips_exactly (L : Layout) (k : Kmem) (s : Space) (oldsz newsz : Word) (hlt : newsz < oldsz)
    (hle : oldsz.toNat ≤ KERNBASE * PGSIZE) :
    (∀ x, x ∈ pages oldsz newsz ↔ (PGROUNDUP newsz).toNat ≤ x * PGSIZE ∧ x * PGSIZE < oldsz.toNat) ∧
    ∃ n, ∀ fuel, n ≤ fuel →
      deallocuvm L fuel k s oldsz newsz = some ((plainLoop L k s (pages oldsz newsz)).map fun r => (newsz, r)) ∧
      deallocuvm L fuel k s oldsz newsz = some (
        if ∀ e ∈ (pages oldsz newsz).filterMap (entry s), Freeable L e then
          .ok (newsz, ⟨(((pages oldsz newsz).filterMap (entry s)).map Pte.frame).reverse ++ k.freelist, k.grant⟩,
            cleared s (pages oldsz newsz))
        else .error .kfree) := by
  have hlt' : newsz.toNat < oldsz.toNat := hlt
  have hle' := hle
  rw [kernbase_bytes] at hle'
  have hplain : Mem.deallocuvm L k s oldsz.toNat newsz.toNat =
      (plainLoop L k s (pages oldsz newsz)).map fun r => (newsz.toNat, r) := by
    unfold Mem.deallocuvm pages
    rw [if_neg (by omega), plainLoop_eq _ _ k s le_rfl]
    cases plainLoop L k s _ <;> rfl
  refine ⟨fun x => ?_, numPages oldsz.toNat + 1, fun fuel hfuel => ?_⟩
  · rw [PGROUNDUP_toNat (by omega), pages, mem_range'_1]
    unfold numPages PGSIZE
    omega
  · have heq : deallocuvm L fuel k s oldsz newsz = some ((plainLoop L k s (pages oldsz newsz)).map fun r => (newsz, r)) := by
      rw [deallocuvm_eq k s hlt hle hfuel, hplain]
      cases plainLoop L k s _ <;> rfl
    refine ⟨heq, ?_⟩
    rw [heq, plainLoop_exact (l := pages oldsz newsz) nodup_range']
    split_ifs <;> rfl

/-- the first page table is missing, the second has one entry -/
theorem deallocuvm_skips_exactly_next :
    let tab := fun d => if d = 1 then some 0x201 else none
    ∃ n, ∀ fuel, n ≤ fuel → deallocuvm ⟨0x101, 0x102, by decide, by decide, by decide⟩ fuel ⟨[], fun _ => true⟩
      ⟨0x200, tab, fun x => if x = 1024 then some ⟨0x300, true, true⟩ else none⟩ 0x401000 0x3FF000 =
        some (.ok (0x3FF000, ⟨[0x300], fun _ => true⟩, ⟨0x200, tab, fun _ => none⟩)) := by
  obtain ⟨-, n, h⟩ := deallocuvm_skips_exactly ⟨0x101, 0x102, by decide, by decide, by decide⟩ ⟨[], fun _ => true⟩
    ⟨0x200, fun d => if d = 1 then some 0x201 else none, fun x => if x = 1024 then some ⟨0x300, true, true⟩ else none⟩
    0x401000 0x3FF000 (by decide) (by rw [kernbase_bytes]; decide)
  refine ⟨n, fun fuel hf => (h fuel hf).2.trans ?_⟩
  rw [show pages 0x401000 0x3FF000 = [1023, 1024] by unfold pages numPages; decide, if_pos (by decide)]
  simp only [cleared, entry, Option.some.injEq, Except.ok.injEq, Prod.mk.injEq, true_and, Space.mk.injEq]
  refine ⟨rfl, funext fun x => ?_⟩
  by_cases hx : x = 1024 <;> simp [hx]

end Loops

end Xv6.Dealloc
