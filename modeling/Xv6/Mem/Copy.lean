/-
freevm and copyuvm with the contents of memory.

fork copies an address space: every page below sz is copied into a frame of its own. As in `Growth`, the pages have contents,
and the words of the page tables are not part of them.

- `freevm_run`: freevm gives all pages of the address space back, and fills no others with junk;
- `mapKernel_pte`: which entries setupkvm makes;
- `copyuvm_copies`: copyuvm builds a copy that shares no page with the original, or gives back all that it took; the
  pages of the original are as they were.
-/
import Xv6.Mem.Growth

namespace Xv6.Ram

open Lib Mem Multiset

/-! ## Model -/

/-- the loop of freevm over the page tables -/
def freeTables (L : Layout) (tab : ℕ → Option ℕ) (m : Phys) : List ℕ → Except Panic Phys
  | [] => .ok m
  | i :: rest =>
    match tab i with
    | none => freeTables L tab m rest
    | some t =>
      match kfree L m t with
      | .error e => .error e
      | .ok m => freeTables L tab m rest

@[irreducible] def freevm (L : Layout) (m : Phys) (s : Space) : Except Panic Phys := do
  let a ← deallocuvm L m s (KERNBASE * PGSIZE) 0
  let m ← freeTables L a.2.2.tab a.2.1 (List.range NPDENTRIES)
  kfree L m a.2.2.dir

section

variable (L : Layout)

def setupkvm (m : Phys) : Except Panic (Option Space × Phys) :=
  match kalloc m.kmem with
  | (none, k) => .ok (none, ⟨k, m.ram⟩)
  | (some d, k) =>
    match mapKernel k ⟨d, fun _ => none, fun _ => none⟩ (kmap L) with
    | .error p => .error p
    | .ok (true, k, s) => .ok (some s, ⟨k, m.ram⟩)
    | .ok (false, k, s) =>
      match freevm L ⟨k, m.ram⟩ s with
      | .error p => .error p
      | .ok m => .ok (none, m)

/-- the label bad of copyuvm -/
def copyBad (m : Phys) (d : Space) : Except Panic (Option Space × Phys) :=
  match freevm L m d with
  | .error p => .error p
  | .ok m => .ok (none, m)

/-- the loop of copyuvm: n more pages from the virtual page i on -/
def copyPages (m : Phys) (old d : Space) (i : ℕ) : ℕ → Except Panic (Option Space × Phys)
  | 0 => .ok (some d, m)
  | n + 1 =>
    match old.tab (i / 1024) with
    | none => .error .pteShouldExist
    | some _ =>
      match old.pte i with
      | none => .error .pageNotPresent
      | some e =>
        match kalloc m.kmem with
        | (none, k) => copyBad L ⟨k, m.ram⟩ d
        | (some mem, k) =>
          -- memmove(mem, (char*)P2V(pa), PGSIZE)
          let ram := update m.ram mem (m.ram e.frame)
          match mappages k d i mem e.w e.u 1 with
          | .error p => .error p
          | .ok (true, k, d) => copyPages ⟨k, ram⟩ old d (i + 1) n
          | .ok (false, k, d) =>
            match kfree L ⟨k, ram⟩ mem with
            | .error p => .error p
            | .ok m => copyBad L m d

def copyuvm (m : Phys) (old : Space) (sz : ℕ) : Except Panic (Option Space × Phys) :=
  match setupkvm L m with
  | .error p => .error p
  | .ok (none, m) => .ok (none, m)
  | .ok (some d, m) => copyPages L m old d 0 (numPages sz)

end

theorem of_bind_ok {α β : Type} {x : Except Panic α} {g : α → Except Panic β} {b : β} (h : (x >>= g) = .ok b) :
    ∃ a, x = .ok a ∧ g a = .ok b := by
  cases x with
  | error e => cases h
  | ok a => exact ⟨a, rfl, h⟩

theorem ok_bind {α β : Type} {x : Except Panic α} {a : α} (h : x = .ok a) (g : α → Except Panic β) : (x >>= g) = g a := by
  rw [h]
  rfl

/-! ## freevm -/

section Free

variable {L : Layout} {m m' : Phys} {s : Space}

theorem kfree_kept {v p : ℕ} (h : kfree L m v = .ok m') (hp : p ≠ v) : m'.ram p = m.ram p := by
  unfold kfree at h
  cases hk : Mem.kfree L m.kmem v with
  | error e =>
    rw [hk] at h
    cases h
  | ok k =>
    rw [hk] at h
    cases h
    exact update_of_ne hp _ _

theorem freeTables_kept {tab : ℕ → Option ℕ} {p : ℕ} (is : List ℕ) : ∀ {m : Phys}, freeTables L tab m is = .ok m' →
    (∀ i ∈ is, tab i ≠ some p) → m'.ram p = m.ram p := by
  induction is with
  | nil =>
    intro m h _
    cases h
    rfl
  | cons i is ih =>
    intro m h hp
    have hrest : ∀ i ∈ is, tab i ≠ some p := fun j hj => hp j (List.mem_cons_of_mem _ hj)
    unfold freeTables at h
    cases ht : tab i with
    | none =>
      rw [ht] at h
      exact ih h hrest
    | some t =>
      rw [ht] at h
      dsimp only at h
      cases hk : kfree L m t with
      | error e =>
        rw [hk] at h
        cases h
      | ok m1 =>
        rw [hk] at h
        have hne : p ≠ t := fun heq => hp i List.mem_cons_self (by rw [ht, heq])
        exact (ih h hrest).trans (kfree_kept hk hne)

/-- freevm fills the pages of the address space with junk, and no others -/
theorem freevm_kept {s : Space} (hs : s.Ok) (hfine : Fine L (m.kmem.freelist + s.pages)) (h : freevm L m s = .ok m') {p : ℕ}
    (hp : p ∉ s.pages) : m'.ram p = m.ram p := by
  obtain ⟨k1, s1, hrun1, -, htab1, hdir1, -⟩ := deallocuvm_spec m.kmem s 0 (le_refl (KERNBASE * PGSIZE)) hs hfine
  obtain ⟨r, hrun, hram⟩ := deallocuvm_eq hrun1
  unfold freevm at h
  obtain ⟨a, ha, h⟩ := of_bind_ok h
  obtain ⟨m2, h2, h⟩ := of_bind_ok h
  rw [hrun] at ha
  have hphys : a.2.1 = ⟨k1, r⟩ := (congrArg (·.2.1) (Except.ok.inj ha)).symm
  have hspace : a.2.2 = s1 := (congrArg (·.2.2) (Except.ok.inj ha)).symm
  rw [hspace, hdir1] at h
  rw [hspace, htab1, hphys] at h2
  calc m'.ram p = m2.ram p := kfree_kept h fun heq => hp (by rw [heq]; exact dir_mem_pages s)
    _ = r p := freeTables_kept _ h2 fun i _ ht => hp (tab_mem_pages hs ht)
    _ = m.ram p := hram p fun x e _ hx he heq => hp (by
        rw [numPages_kernbase] at hx
        rw [← heq]
        exact frame_mem_pages hx he)

theorem freeTables_eq {tab : ℕ → Option ℕ} {k : Kmem} (is : List ℕ) : ∀ {m : Phys},
    Mem.freeTables L tab m.kmem is = .ok k → ∃ r, freeTables L tab m is = .ok ⟨k, r⟩ := by
  induction is with
  | nil =>
    intro m h
    cases h
    exact ⟨m.ram, rfl⟩
  | cons i is ih =>
    intro m h
    unfold Mem.freeTables at h
    unfold freeTables
    cases ht : tab i with
    | none =>
      rw [ht] at h
      exact ih h
    | some t =>
      rw [ht] at h
      dsimp only at h ⊢
      cases hk : Mem.kfree L m.kmem t with
      | error e =>
        rw [hk] at h
        cases h
      | ok k1 =>
        rw [hk] at h
        rw [kfree_eq hk]
        exact ih (m := ⟨k1, memset m.ram t 1⟩) h

theorem freevm_eq {k : Kmem} (h : Mem.freevm L m.kmem s = .ok k) : ∃ r, freevm L m s = .ok ⟨k, r⟩ := by
  unfold Mem.freevm at h
  cases hd : Mem.deallocuvm L m.kmem s (KERNBASE * PGSIZE) 0 with
  | error e =>
    rw [hd] at h
    cases h
  | ok a =>
    obtain ⟨n, k1, s1⟩ := a
    rw [hd] at h
    dsimp only at h
    obtain ⟨r1, hrun1, -⟩ := deallocuvm_eq hd
    cases ht : Mem.freeTables L s1.tab k1 (List.range NPDENTRIES) with
    | error e =>
      rw [ht] at h
      cases h
    | ok k2 =>
      rw [ht] at h
      obtain ⟨r2, hrun2⟩ := freeTables_eq (m := ⟨k1, r1⟩) _ ht
      have hlast : freevm L m s = kfree L ⟨k2, r2⟩ s1.dir := by
        unfold freevm
        rw [ok_bind hrun1]
        dsimp only
        rw [ok_bind hrun2]
      exact ⟨_, hlast.trans (kfree_eq (m := ⟨k2, r2⟩) h)⟩

/-- **freevm** gives the pages of the address space back, and leaves what is in the others. -/
theorem freevm_run (hs : s.Ok) (hfine : Fine L (m.kmem.freelist + s.pages)) : ∃ m', freevm L m s = .ok m' ∧
    (m'.kmem.freelist : Multiset ℕ) = m.kmem.freelist + s.pages ∧ ∀ p, p ∉ s.pages → m'.ram p = m.ram p := by
  obtain ⟨k, hk, hfree, -⟩ := freevm_spec m.kmem s hs hfine
  obtain ⟨r, hrun⟩ := freevm_eq hk
  exact ⟨⟨k, r⟩, hrun, hfree, fun p hp => freevm_kept hs hfine hrun hp⟩

end Free

/-! ## The kernel's part of an address space -/

/-- the entry of a virtual page that the kernel's map has -/
def kernelPte : List KMap → ℕ → Option Pte
  | [], _ => none
  | m :: rest, x =>
    if m.virt ≤ x ∧ x < m.virt + m.pages then some ⟨m.phys + (x - m.virt), m.w, false⟩ else kernelPte rest x

theorem mappages_pte (w : Bool) (n : ℕ) : ∀ {k k' : Kmem} {s s' : Space} {v f : ℕ}, s.Ok → KERNBASE ≤ v → v + n ≤ TOP →
    (v + n ≤ KERNBASE + PHYSTOP ∨ DEVSPACE ≤ v) → mappages k s v f w false n = .ok (true, k', s') →
      ∀ x, s'.pte x = if v ≤ x ∧ x < v + n then some ⟨f + (x - v), w, false⟩ else s.pte x := by
  induction n with
  | zero =>
    intro k k' s s' v f _ _ _ _ h x
    cases h
    rw [if_neg (by omega)]
  | succ n ih =>
    intro k k' s s' v f hs hv htop hreg h x
    have hgap : v / 1024 < 568 ∨ 1016 ≤ v / 1024 := by
      simp only [KERNBASE, PHYSTOP, DEVSPACE] at hreg
      omega
    obtain ⟨b, k1, s1, hwalk, hs1, hpte1, -, htab1, -⟩ := walkpgdir_alloc k hs (show v < TOP by omega) hgap
    unfold mappages at h
    rw [hwalk] at h
    cases b with
    | false => cases h
    | true =>
      dsimp only at h
      split_ifs at h
      have hs2 := hs1.setPte (e := ⟨f, w, false⟩) (htab1 rfl) fun _ => rfl
      rw [ih hs2 (by omega) (by omega) (by omega) h x]
      by_cases hx : x = v
      · rw [if_neg (by omega), if_pos (by omega), hx, Nat.sub_self]
        exact update_self ..
      · by_cases hin : v + 1 ≤ x ∧ x < v + 1 + n
        · rw [if_pos hin, if_pos (by omega), show f + 1 + (x - (v + 1)) = f + (x - v) by omega]
        · rw [if_neg hin, if_neg (by omega)]
          dsimp only
          rw [update_of_ne hx, hpte1]

theorem kernelPte_below (l : List KMap) : ∀ {lo x : ℕ}, Ascending lo l → x < lo → kernelPte l x = none := by
  induction l with
  | nil => exact fun _ _ => rfl
  | cons m rest ih =>
    rintro lo x ⟨hlo, -, -, -, hasc⟩ hx
    rw [kernelPte, if_neg (by omega)]
    exact ih hasc (by omega)

/-- **The loop of setupkvm** makes the entries of the kernel's map. -/
theorem mapKernel_pte (l : List KMap) : ∀ {lo : ℕ} {k k' : Kmem} {s s' : Space}, Ascending lo l → s.Ok →
    (∀ x, lo ≤ x → s.pte x = none) → mapKernel k s l = .ok (true, k', s') → ∀ x, lo ≤ x → s'.pte x = kernelPte l x := by
  induction l with
  | nil =>
    intro lo k k' s s' _ _ hnone h x hx
    cases h
    exact hnone x hx
  | cons m rest ih =>
    rintro lo k k' s s' ⟨hlo, hk, htop, hreg, hasc⟩ hs hnone h x hx
    obtain ⟨b, k1, s1, hmap, hs1, -⟩ := mappages_kernel m.w m.pages k s m.virt m.phys hs hk htop hreg
      fun x h1 _ => hnone x (by omega)
    unfold mapKernel at h
    rw [hmap] at h
    cases b with
    | false => cases h
    | true =>
      have hpte1 := mappages_pte m.w m.pages hs hk htop hreg hmap
      have hnone1 : ∀ x, m.virt + m.pages ≤ x → s1.pte x = none := fun x hx => by
        rw [hpte1, if_neg (by omega)]
        exact hnone x (by omega)
      rw [kernelPte]
      by_cases hhigh : m.virt + m.pages ≤ x
      · rw [if_neg (by omega)]
        exact ih hasc hs1 hnone1 h x hhigh
      · obtain ⟨b2, k2, s2, hmap2, -, -, hsame2, -⟩ := mapKernel_spec rest _ k1 s1 hasc hs1 hnone1
        have heq : mapKernel k1 s1 rest = .ok (true, k', s') := h
        rw [hmap2] at heq
        cases heq
        rw [hsame2 x (by omega), hpte1]
        split_ifs with hin
        · rfl
        · rw [kernelPte_below rest hasc (by omega)]
          exact hnone x hx

section Copy

variable {L : Layout} {m : Phys}

theorem copyBad_run {d : Space} {F : Multiset ℕ} (hd : d.Ok) (hfine : Fine L F) (hpages : (m.kmem.freelist : Multiset ℕ) + d.pages = F) :
    ∃ m', copyBad L m d = .ok (none, m') ∧ (m'.kmem.freelist : Multiset ℕ) = F ∧ ∀ p, p ∉ F → m'.ram p = m.ram p := by
  obtain ⟨m', hrun, hfree, hkept⟩ := freevm_run (m := m) hd (by rw [hpages]; exact hfine)
  unfold copyBad
  rw [hrun]
  refine ⟨m', rfl, hfree.trans hpages, fun p hp => hkept p fun hmem => hp ?_⟩
  rw [← hpages]
  exact mem_add.2 (.inr hmem)

/-- where setupkvm succeeds it does what it does without contents -/
theorem setupkvm_some_iff {s : Space} {m' : Phys} :
    setupkvm L m = .ok (some s, m') ↔ Mem.setupkvm L m.kmem = .ok (some s, m'.kmem) ∧ m'.ram = m.ram := by
  unfold setupkvm Mem.setupkvm
  rcases kalloc m.kmem with ⟨_ | d, k⟩
  · simp
  · dsimp only
    rcases mapKernel k ⟨d, fun _ => none, fun _ => none⟩ (kmap L) with e | ⟨_ | _, k1, s1⟩
    · simp
    · dsimp only
      cases freevm L ⟨k1, m.ram⟩ s1 <;> cases Mem.freevm L k1 s1 <;> simp
    · obtain ⟨k', r'⟩ := m'
      simp [and_assoc, eq_comm]

/-- **setupkvm** makes the kernel's part, or gives back what it took; the contents of the other pages stay. -/
theorem setupkvm_run (hfine : Fine L m.kmem.freelist) : ∃ r m', setupkvm L m = .ok (r, m') ∧
    (∀ p, p ∉ m.kmem.freelist → m'.ram p = m.ram p) ∧ (r = none → (m'.kmem.freelist : Multiset ℕ) = m.kmem.freelist) ∧
    ∀ d, r = some d → d.Ok ∧ (m'.kmem.freelist : Multiset ℕ) + d.pages = m.kmem.freelist ∧
      (∀ x < KERNBASE, d.pte x = none) ∧ ∀ x, KERNBASE ≤ x → d.pte x = kernelPte (kmap L) x := by
  unfold setupkvm
  rcases kalloc_cases m.kmem with ⟨d, k1, hk, hfree, -⟩ | ⟨k1, hk, hfree, -⟩
  · rw [hk]
    obtain ⟨hempty, hnew⟩ := new_space hfree
    obtain ⟨b, k2, s, hmap, hs, hacc, hsame, -⟩ :=
      mapKernel_spec (kmap L) KERNBASE k1 _ (ascending_kmap L) hempty fun _ _ => rfl
    rw [hnew] at hacc
    dsimp only
    rw [hmap]
    cases b with
    | true =>
      refine ⟨some s, ⟨k2, m.ram⟩, rfl, fun _ _ => rfl, nofun, ?_⟩
      rintro s' ⟨⟩
      exact ⟨hs, hacc, hsame, mapKernel_pte (kmap L) (ascending_kmap L) hempty (fun _ _ => rfl) hmap⟩
    | false =>
      obtain ⟨m', hrun, hfree', hkept⟩ := copyBad_run (m := ⟨k2, m.ram⟩) hs hfine hacc
      exact ⟨none, m', hrun, hkept, fun _ => hfree', nofun⟩
  · rw [hk]
    exact ⟨none, ⟨k1, m.ram⟩, rfl, fun _ _ => rfl, fun _ => by rw [hfree], nofun⟩

/-! ## copyuvm -/

/-- page x of d has the flags of page x of old and the bytes it had in ram -/
def SamePage (ram : Pages) (old : Space) (x : ℕ) (d : Space) (m : Phys) : Prop :=
  ∃ e e', old.pte x = some e ∧ d.pte x = some e' ∧ e'.w = e.w ∧ e'.u = e.u ∧ m.ram e'.frame = ram e.frame

/-- the pages below i are copied: d has them and no others, and its pages are of F -/
structure CopiedBelow (ram : Pages) (old : Space) (F : Multiset ℕ) (i : ℕ) (d : Space) (m : Phys) : Prop where
  ok : d.Ok
  pages : (m.kmem.freelist : Multiset ℕ) + d.pages = F
  bound : i ≤ KERNBASE
  copied : ∀ x < i, SamePage ram old x d m
  above : ∀ x, i ≤ x → x < KERNBASE → d.pte x = none
  kept : ∀ p, p ∉ F → m.ram p = ram p

variable {ram : Pages} {old d : Space} {F : Multiset ℕ} {i : ℕ}

theorem CopiedBelow.lt (h : CopiedBelow ram old F i d m) (hfine : Fine L F) (hnodup : F.Nodup) : i < KERNBASE := by
  have hb := h.bound
  have hle : i ≤ PHYSTOP := by
    have hmaps : ∀ x ∈ Finset.range i, ((d.pte x).elim 0 Pte.frame) ∈ Finset.range PHYSTOP := by
      intro x hx
      obtain ⟨e, e', -, he', -⟩ := h.copied x (Finset.mem_range.1 hx)
      have hmem : e'.frame ∈ F := by
        rw [← h.pages]
        exact mem_add.2 (.inr (frame_mem_pages ((Finset.mem_range.1 hx).trans_le hb) he'))
      rw [he', Finset.mem_range]
      exact (hfine _ hmem).2
    have hinj : Set.InjOn (fun x => (d.pte x).elim 0 Pte.frame) (Finset.range i) := by
      intro x hx y hy hxy
      rw [Finset.mem_coe, Finset.mem_range] at hx hy
      obtain ⟨-, e, -, he, -⟩ := h.copied x hx
      obtain ⟨-, e', -, he', -⟩ := h.copied y hy
      dsimp only at hxy
      rw [he, he'] at hxy
      exact pte_inj (nodup_of_le (by rw [← h.pages]; exact le_add_left _ _) hnodup)
        (hx.trans_le hb) (hy.trans_le hb) he he' hxy
    simpa using Finset.card_le_card_of_injOn _ hmaps hinj
  have hlt : PHYSTOP < KERNBASE := by
    unfold PHYSTOP KERNBASE
    omega
  omega

theorem CopiedBelow.step {k : Kmem} {d' : Space} {f : ℕ} {e : Pte} (h : CopiedBelow ram old F i d m) (hi : i < KERNBASE)
    (he : old.pte i = some e) (hold : e.frame ∉ F) (hf : f ∈ m.kmem.freelist) (hnodup : F.Nodup) (hd' : d'.Ok)
    (hpages : (k.freelist : Multiset ℕ) + d'.pages = F) (hpte : d'.pte = update d.pte i (some ⟨f, e.w, e.u⟩)) :
    CopiedBelow ram old F (i + 1) d' ⟨k, update m.ram f (m.ram e.frame)⟩ := by
  have hfF : f ∈ F := by
    rw [← h.pages]
    exact mem_add.2 (.inl hf)
  refine ⟨hd', hpages, hi, fun x hx => ?_, fun x h1 h2 => ?_, fun p hp => ?_⟩
  · by_cases hxi : x = i
    · rw [hxi]
      refine ⟨e, ⟨f, e.w, e.u⟩, he, by rw [hpte, update_self], rfl, rfl, ?_⟩
      show update m.ram f (m.ram e.frame) f = _
      rw [update_self, h.kept _ hold]
    · obtain ⟨e1, e2, h1, h2, hw, hu, hram⟩ := h.copied x (by omega)
      have hne : e2.frame ≠ f := by
        intro heq
        rw [← h.pages] at hnodup
        have hmem : f ∈ d.pages := by
          rw [← heq]
          exact frame_mem_pages (by omega) h2
        exact disjoint_left.1 (nodup_add.1 hnodup).2.2 (mem_coe.2 hf) hmem
      refine ⟨e1, e2, h1, by rw [hpte, update_of_ne hxi, h2], hw, hu, ?_⟩
      show update m.ram f (m.ram e.frame) e2.frame = _
      rw [update_of_ne hne, hram]
  · rw [hpte, update_of_ne (by omega)]
    exact h.above x (by omega) h2
  · show update m.ram f (m.ram e.frame) p = _
    rw [update_of_ne fun heq => hp (by rw [heq]; exact hfF), h.kept p hp]

/-- **The loop of copyuvm** copies the pages, or gives everything back. -/
theorem copyPages_run (hold : old.Ok) (hfine : Fine L F) (hnodup : F.Nodup) (hout : ∀ p ∈ old.pages, p ∉ F) (n : ℕ) :
    ∀ {i : ℕ} {d : Space} {m : Phys}, CopiedBelow ram old F i d m → (∀ x, i ≤ x → x < i + n → (old.pte x).isSome) →
      ∃ r m', copyPages L m old d i n = .ok (r, m') ∧ (∀ p, p ∉ F → m'.ram p = ram p) ∧
        (r = none → (m'.kmem.freelist : Multiset ℕ) = F) ∧
        ∀ d', r = some d' → CopiedBelow ram old F (i + n) d' m' ∧ ∀ x, KERNBASE ≤ x → d'.pte x = d.pte x := by
  induction n with
  | zero =>
    intro i d m h _
    refine ⟨some d, m, rfl, h.kept, nofun, ?_⟩
    rintro d' ⟨⟩
    exact ⟨h, fun _ _ => rfl⟩
  | succ n ih =>
    intro i d m h hmapped
    have hi := h.lt hfine hnodup
    obtain ⟨e, he⟩ := Option.isSome_iff_exists.1 (hmapped i le_rfl (by omega))
    obtain ⟨t, ht⟩ := Option.ne_none_iff_exists'.1 (hold.backed i e he)
    have hframe : e.frame ∉ F := hout _ (frame_mem_pages hi he)
    unfold copyPages
    rw [ht, he]
    dsimp only
    rcases kalloc_cases m.kmem with ⟨f, k1, hk, hfree, -⟩ | ⟨k1, hk, hfree, -⟩
    · have hfmem : f ∈ m.kmem.freelist := by
        rw [hfree]
        exact List.mem_cons_self
      have hfF : f ∈ F := by
        rw [← h.pages]
        exact mem_add.2 (.inl hfmem)
      have hacc0 : f ::ₘ ((k1.freelist : Multiset ℕ) + d.pages) = F := by
        rw [← h.pages, hfree, ← cons_coe, cons_add]
      obtain ⟨b, k2, d2, hmap, hd2, htrue, hfalse, -⟩ := mappages_user k1 h.ok hi (h.above i le_rfl hi) f e.w e.u
      rw [hk]
      dsimp only
      rw [hmap]
      cases b with
      | true =>
        obtain ⟨hacc2, hpte2⟩ := htrue rfl
        rw [hacc0] at hacc2
        obtain ⟨r, m', hrun, hkept, hnone, hsome⟩ :=
          ih (h.step hi he hframe hfmem hnodup hd2 hacc2 hpte2) fun x h1 h2 => hmapped x (by omega) (by omega)
        refine ⟨r, m', hrun, hkept, hnone, fun d' hd' => ?_⟩
        obtain ⟨hp, hker⟩ := hsome d' hd'
        refine ⟨by rwa [show i + (n + 1) = i + 1 + n by omega], fun x hx => ?_⟩
        rw [hker x hx, hpte2, update_of_ne (by omega)]
      | false =>
        obtain ⟨hacc2, -⟩ := hfalse rfl
        have hback : ((f :: k2.freelist : List ℕ) : Multiset ℕ) + d2.pages = F := by
          rw [← hacc0, ← cons_coe, cons_add, hacc2]
        dsimp only
        rw [kfree_eq (m := ⟨k2, update m.ram f (m.ram e.frame)⟩) (kfree_fine (hfine f hfF))]
        dsimp only
        obtain ⟨m', hrun, hfree', hkept⟩ := copyBad_run
          (m := ⟨{ k2 with freelist := f :: k2.freelist }, memset (update m.ram f (m.ram e.frame)) f 1⟩) hd2 hfine hback
        refine ⟨none, m', hrun, fun p hp => ?_, fun _ => hfree', nofun⟩
        have hpf : p ≠ f := fun heq => hp (by rw [heq]; exact hfF)
        have hset : memset (update m.ram f (m.ram e.frame)) f 1 p = m.ram p :=
          (update_of_ne hpf _ _).trans (update_of_ne hpf _ _)
        exact (hkept p hp).trans (hset.trans (h.kept p hp))
    · rw [hk]
      obtain ⟨m', hrun, hfree', hkept⟩ := copyBad_run (m := ⟨k1, m.ram⟩) h.ok hfine (show (k1.freelist : Multiset ℕ) + _ = F by
        rw [hfree, h.pages])
      refine ⟨none, m', hrun, fun p hp => ?_, fun _ => hfree', nofun⟩
      rw [hkept p hp]
      exact h.kept p hp

/-- a byte seen through a page table -/
def load (s : Space) (ram : Pages) (x : ℕ) (o : Fin PGSIZE) : Option Byte := (s.pte x).map fun e => ram e.frame o

/-- a byte written through a page table -/
def store (s : Space) (ram : Pages) (x : ℕ) (o : Fin PGSIZE) (b : Byte) : Pages :=
  match s.pte x with
  | none => ram
  | some e => update ram e.frame fun o' => if o' = o then b else ram e.frame o'

theorem load_store {s t : Space} {x y : ℕ} (h : ∀ e e', s.pte x = some e → t.pte y = some e' → e'.frame ≠ e.frame)
    (ram : Pages) (o o' : Fin PGSIZE) (b : Byte) : load t (store s ram x o b) y o' = load t ram y o' := by
  unfold load store
  cases hs : s.pte x with
  | none => rfl
  | some e =>
    cases ht : t.pte y with
    | none => rfl
    | some e' =>
      exact congrArg (fun page : Bytes PGSIZE => some (page o')) (update_of_ne (h e e' hs ht) _ ram)

/-- **d is a copy of the n pages of old, in pages of its own.** -/
structure Copied (L : Layout) (m : Phys) (old : Space) (n : ℕ) (d : Space) (m' : Phys) : Prop where
  /-- the kernel's entries are those of its map -/
  kernel : ∀ x, KERNBASE ≤ x → d.pte x = kernelPte (kmap L) x
  /-- the same flags and the same bytes -/
  copied : ∀ x < n, SamePage m.ram old x d m'
  /-- and nothing else -/
  above : ∀ x, n ≤ x → x < KERNBASE → d.pte x = none
  /-- all its pages were free, and are no pages of the original -/
  fresh : ∀ p ∈ d.pages, p ∈ m.kmem.freelist ∧ p ∉ old.pages
  /-- its pages are all different: frames, page tables and directory -/
  distinct : d.pages.Nodup
  /-- no write of a process is seen by the other one -/
  separate : ∀ ram x y o o' b, x < KERNBASE → y < KERNBASE →
    load old (store d ram x o b) y o' = load old ram y o' ∧ load d (store old ram x o b) y o' = load d ram y o'

/-- **copyuvm copies without sharing.** Let old map all pages below sz, and none of its pages be free. Whatever kalloc
refuses, copyuvm returns a copy, or 0 with all pages it took on the free list again; the pages of old are as before. -/
theorem copyuvm_copies (m : Phys) (old : Space) (sz : ℕ) (hold : old.Ok) (hfine : Fine L m.kmem.freelist)
    (hnodup : m.kmem.freelist.Nodup) (hout : ∀ p ∈ old.pages, p ∉ m.kmem.freelist)
    (hmapped : ∀ x < numPages sz, (old.pte x).isSome) :
    ∃ r m', copyuvm L m old sz = .ok (r, m') ∧ (∀ p ∈ old.pages, m'.ram p = m.ram p) ∧
      (r = none → (m'.kmem.freelist : Multiset ℕ) = m.kmem.freelist) ∧ ∀ d, r = some d → Copied L m old (numPages sz) d m' := by
  obtain ⟨r, m1, hrun1, hkept1, hnone1, hsome1⟩ := setupkvm_run hfine
  unfold copyuvm
  rw [hrun1]
  cases r with
  | none => exact ⟨none, m1, rfl, fun p hp => hkept1 p (hout p hp), hnone1, nofun⟩
  | some d =>
    obtain ⟨hd, hpages, hempty, hkernel⟩ := hsome1 d rfl
    have hstart : CopiedBelow m.ram old m.kmem.freelist 0 d m1 :=
      ⟨hd, hpages, Nat.zero_le _, fun x hx => absurd hx (Nat.not_lt_zero x), fun x _ hx => hempty x hx, hkept1⟩
    obtain ⟨r, m2, hrun2, hkept2, hnone2, hsome2⟩ := copyPages_run (L := L) hold hfine (coe_nodup.2 hnodup) hout
      (numPages sz) hstart fun x _ hx => hmapped x (by omega)
    refine ⟨r, m2, hrun2, fun p hp => hkept2 p (hout p hp), hnone2, fun d' hd' => ?_⟩
    obtain ⟨hp, hker⟩ := hsome2 d' hd'
    rw [zero_add] at hp
    have hfree : ∀ p ∈ d'.pages, p ∈ m.kmem.freelist := fun p hmem => by
      rw [← mem_coe, ← hp.pages]
      exact mem_add.2 (.inr hmem)
    have hfresh : ∀ p ∈ d'.pages, p ∉ old.pages := fun p hmem hmem' => hout p hmem' (hfree p hmem)
    refine ⟨fun x hx => (hker x hx).trans (hkernel x hx), hp.copied, hp.above, fun p hmem => ⟨hfree p hmem, hfresh p hmem⟩, ?_,
      fun ram x y o o' b hx hy => ?_⟩
    · exact nodup_of_le (by rw [← hp.pages]; exact le_add_left _ _) (coe_nodup.2 hnodup)
    · have hne : ∀ {x y e e'}, x < KERNBASE → y < KERNBASE → d'.pte x = some e → old.pte y = some e' → e'.frame ≠ e.frame :=
        fun hx hy he he' heq => hfresh _ (frame_mem_pages hx he) (by rw [← heq]; exact frame_mem_pages hy he')
      exact ⟨load_store (fun _ _ => hne hx hy) ram o o' b, load_store (fun _ _ he he' => (hne hy hx he' he).symm) ram o o' b⟩

theorem copyuvm_copies_example : ∃ (s : State) (p : Mem.Proc), s.procs 0 = some p ∧
    ∀ grant ram, ∃ r m', copyuvm exampleLayout ⟨⟨s.freelist, grant⟩, ram⟩ p.image.space 4096 = .ok (r, m') ∧
      ∀ d, r = some d → SamePage ram p.image.space 0 d m' := by
  obtain ⟨s, p, hb⟩ := booted
  have hnodup := nodup_add.1 hb.nodup
  refine ⟨s, p, hb.proc, fun grant ram => ?_⟩
  obtain ⟨r, m', hrun, -, -, hcopy⟩ := copyuvm_copies (L := exampleLayout) ⟨⟨s.freelist, grant⟩, ram⟩ p.image.space 4096
    hb.ok.space (hb.fine.of_le (le_add_right _ _)) (coe_nodup.1 hnodup.1)
    (fun q hq hfree => disjoint_left.1 hnodup.2.2 (mem_coe.2 hfree) hq)
    fun x hx => Option.ne_none_iff_isSome.1 (hb.full x hx)
  exact ⟨r, m', hrun, fun d hd => (hcopy d hd).copied 0 (by unfold numPages; omega)⟩

end Copy

end Xv6.Ram
