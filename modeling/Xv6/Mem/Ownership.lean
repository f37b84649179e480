/-
Ownership of physical pages and the sizes of processes, over all runs.

Results:
- `size_matches_mapping`: if no sbrk takes away exactly sz bytes, each process has exactly the pages below PGROUNDUP(sz) mapped,
  what the argument fetchers accept is present, and no call panics, but for an exec that pushes an argument to an address
  without a page table;
- `sbrk_to_zero_unmaps`: sbrk(-sz) frees all pages and fails, and sz stays as it was;
- `every_page_one_role`: every page is in one role, and no frame is mapped twice.
-/
import Xv6.Mem.Run

namespace Xv6.Mem

open Lib Multiset

variable {L : Layout} {s : State}

/-! ## Size and mapping -/

/-- fetchint accepts addr -/
def fetchint (sz addr : ℕ) : Prop := ¬ (addr ≥ sz ∨ (addr + 4) % 2 ^ 32 > sz)

/-- fetchstr begins to look for the end of the string at addr -/
def fetchstr (sz addr : ℕ) : Prop := ¬ addr ≥ sz

/-- argptr accepts size bytes at addr -/
def argptr (sz addr : ℕ) (size : ℤ) : Prop := ¬ (size < 0 ∨ addr ≥ sz ∨ (addr + size) % 2 ^ 32 > sz)

theorem Image.Ok.present {m : Image} (hfull : Full m.space (numPages m.sz)) {b : ℕ} (hb : b < m.sz) :
    (m.space.pte (b / 4096)).isSome := by
  refine Option.ne_none_iff_isSome.1 (hfull (b / 4096) ?_)
  unfold numPages
  omega

/-- **Size matches mapping, as long as sbrk behaves.** In every run in which no sbrk takes away exactly sz bytes, in every state
reached: each process has sz below KERNBASE and exactly the pages below PGROUNDUP(sz) mapped; what fetchint, fetchstr and
argptr accept is backed by present pages; and a call stops the kernel only in uva2ka, at an argument that exec pushes to an
address without a page table. -/
theorem size_matches_mapping (L : Layout) (others : ℕ) (s : State) (h : Reach L others SbrkOk s) :
    (∀ i p, s.procs i = some p → p.image.sz < KERNBASE * PGSIZE ∧
      (∀ v < KERNBASE, (p.image.space.pte v).isSome ↔ v < numPages p.image.sz) ∧
      (∀ addr, fetchint p.image.sz addr → ∀ b, addr ≤ b → b < addr + 4 → (p.image.space.pte (b / 4096)).isSome) ∧
      (∀ addr, fetchstr p.image.sz addr → ∀ b, addr ≤ b → b < p.image.sz → (p.image.space.pte (b / 4096)).isSome) ∧
      ∀ addr size, size < 2 ^ 31 → argptr p.image.sz addr size →
        ∀ b, addr ≤ b → (b : ℤ) < addr + size → (p.image.space.pte (b / 4096)).isSome) ∧
    ∀ a e, call L s a = .error e → e = .trap ∧ ¬ ExecOk a := by
  have hinv := reach_inv h
  have hcomplete := reach_complete h
  constructor
  · intro i p hp
    have hok := (hinv.procs i p hp).2
    obtain ⟨hfull, -⟩ := hcomplete i p hp
    have hlt := hok.lt
    rw [kernbase_bytes] at hlt
    refine ⟨hok.lt, fun v hv => ⟨fun hsome => ?_, fun hlow => Option.ne_none_iff_isSome.1 (hfull v hlow)⟩,
      fun addr ha b h1 h2 => Image.Ok.present hfull ?_, fun addr _ b _ hb => Image.Ok.present hfull hb,
      fun addr size hsize ha b h1 h2 => Image.Ok.present hfull ?_⟩
    · by_contra hge
      rw [hok.above v (by omega) hv] at hsome
      cases hsome
    · unfold fetchint at ha
      omega
    · unfold argptr at ha
      omega
  · intro a e hc
    have hsafe := call_spec hinv a
    rw [hc] at hsafe
    exact hsafe.resolve_left fun hincomplete => hincomplete hcomplete

/-- a kernel that ends at 4 MB -/
def exampleLayout : Layout where
  data := 0x108
  first := 0x400
  extmem_lt := by decide
  data_le := by decide
  first_le := by decide

/-- init after boot, of one page -/
structure Booted (s : State) (p : Proc) : Prop where
  boot : boot exampleLayout 0 = some s
  proc : s.procs 0 = some p
  alive : p.zombie = false
  size : p.image.sz = 4096
  ok : p.image.Ok exampleLayout
  full : Full p.image.space (numPages 4096)
  fine : Fine exampleLayout (s.freelist + p.image.space.pages)
  nodup : ((s.freelist : Multiset ℕ) + p.image.space.pages).Nodup
  room : 54000 < s.freelist.length

theorem booted : ∃ s p, Booted s p := by
  obtain ⟨s, hs, hfree⟩ := boot_exists exampleLayout 0 (by decide)
  obtain ⟨hinv, hcomplete, p, hp, hz, hsz⟩ := boot_inv hs
  obtain ⟨hi, hok⟩ := hinv.procs 0 p hp
  have hle := image_le_roles hi hp
  have hfull := (hcomplete 0 p hp).1
  rw [hsz] at hfull
  refine ⟨s, p, hs, hp, hz, hsz, hok, hfull, hinv.fine.of_le hle, nodup_of_le hle hinv.nodup, ?_⟩
  simp only [exampleLayout, PHYSTOP] at hfree
  omega

theorem live_of {i : ℕ} {p : Proc} (hp : s.procs i = some p) (hz : p.zombie = false) : s.live i = some p := by
  unfold State.live
  rw [hp]
  simp [hz]

theorem sbrk_grows (hs : boot exampleLayout 0 = some s) (hfree : 54000 < s.freelist.length) {w : Word} {n : ℕ}
    (hw : w.toInt = n) (hn : 0 < n) (hlt : PGSIZE + n < KERNBASE * PGSIZE) (hroom : numPages (PGSIZE + n) < 40000) :
    ∃ t p, (∀ guard : State → Act → Prop, guard s (.sbrk 0 w fun _ => true) → Reach exampleLayout 0 guard t) ∧
      t.procs 0 = some p ∧ p.zombie = false ∧ p.image.sz = PGSIZE + n ∧ 4000 < t.freelist.length := by
  obtain ⟨hinv, -, p, hp, hz, hsz⟩ := boot_inv hs
  obtain ⟨hi, hok⟩ := hinv.procs 0 p hp
  rw [← hsz] at hroom
  have hlt : p.image.sz + n < KERNBASE * PGSIZE := by
    rw [hsz]
    exact hlt
  obtain ⟨k, sp, hgrow, hlen⟩ := growproc_grow (k := ⟨s.freelist, fun _ => true⟩) (fun _ => rfl) hok
    (hinv.fine.of_le (image_le_roles hi hp)) hn hlt (by dsimp only; omega)
  dsimp only at hlen
  have hcall : call exampleLayout s (.sbrk 0 w fun _ => true) = .ok { s with
      freelist := k.freelist
      procs := update s.procs 0 (some { p with image := ⟨sp, p.image.sz + n⟩ }) } := by
    show sysSbrk exampleLayout s 0 w (fun _ => true) = _
    unfold sysSbrk
    rw [live_of hp hz]
    dsimp only
    rw [hw, hgrow]
  refine ⟨_, { p with image := ⟨sp, p.image.sz + n⟩ }, fun guard hg => (Reach.boot hs).step hg hcall, ?_, hz,
    congrArg (· + n) hsz, ?_⟩
  · dsimp only
    rw [update_self]
  · dsimp only
    omega

theorem init_grown : ∃ t p, (∀ guard : State → Act → Prop, (∀ s, guard s (.sbrk 0 52428800#32 fun _ => true)) →
      Reach exampleLayout 0 guard t) ∧
    MInv exampleLayout t ∧ t.procs 0 = some p ∧ p.zombie = false ∧ p.image.sz = PGSIZE + 52428800 ∧
    4000 < t.freelist.length ∧ ∀ x < 12801, (p.image.space.pte x).isSome := by
  obtain ⟨s, _, hb⟩ := booted
  have hw : (52428800#32 : Word).toInt = (52428800 : ℕ) := by decide
  have hlt : PGSIZE + 52428800 < KERNBASE * PGSIZE := by
    rw [kernbase_bytes]
    unfold PGSIZE
    norm_num
  have hpages : numPages (PGSIZE + 52428800) = 12801 := by
    unfold numPages PGSIZE
    norm_num
  obtain ⟨t, p, hreach, hp, hz, hsz, hlen⟩ := sbrk_grows hb.boot hb.room hw (by norm_num) hlt (by rw [hpages]; norm_num)
  have hclean : Reach exampleLayout 0 SbrkOk t := hreach _ fun q _ => by rw [hw]; omega
  exact ⟨t, p, fun guard hg => hreach guard (hg s), reach_inv hclean, hp, hz, hsz, hlen, fun x hx =>
    Option.ne_none_iff_isSome.1 ((reach_complete hclean 0 p hp).1 x (by rw [hsz, hpages]; exact hx))⟩

/-- init after it has grown by 50 MB: the last of its new pages is mapped -/
theorem size_matches_mapping_example : ∃ s p, Reach exampleLayout 0 SbrkOk s ∧ s.procs 0 = some p ∧
    (p.image.space.pte 12800).isSome := by
  obtain ⟨s, p, hreach, -, hp, -, hsz, -⟩ := init_grown
  have hclean := hreach SbrkOk fun s q _ => by
    rw [show (52428800#32 : Word).toInt = 52428800 by decide]
    omega
  refine ⟨s, p, hclean, hp, (((size_matches_mapping exampleLayout 0 s hclean).1 0 p hp).2.1 12800 ?_).2 ?_⟩
  · unfold KERNBASE
    omega
  · rw [hsz]
    unfold numPages PGSIZE
    omega

/-- after boot, sbrk(-4096) of init fails and leaves sz at 4096, but page 0 is gone -/
theorem sbrk_to_zero_unmaps : ∃ s p, Reach exampleLayout 0 (fun _ _ => True) s ∧ s.procs 0 = some p ∧
    p.image.sz = PGSIZE ∧ 0 < numPages p.image.sz ∧ p.image.space.pte 0 = none := by
  obtain ⟨s, p, hb⟩ := booted
  have hsz := hb.size
  obtain ⟨k, sp, hrun, hnone⟩ := growproc_to_zero ⟨s.freelist, fun _ => true⟩ hb.ok hb.fine (by rw [hsz]; decide)
  have hn : (-4096#32 : Word).toInt = -(p.image.sz : ℤ) := by
    rw [hsz]
    decide
  have hone : 0 < numPages p.image.sz := by
    rw [hsz]
    unfold numPages
    omega
  have hcall : call exampleLayout s (.sbrk 0 (-4096#32) fun _ => true) = .ok { s with
      freelist := k.freelist
      procs := update s.procs 0 (some { p with image := ⟨sp, p.image.sz⟩ }) } := by
    show sysSbrk exampleLayout s 0 (-4096#32) (fun _ => true) = _
    unfold sysSbrk
    rw [live_of hb.proc hb.alive]
    dsimp only
    rw [hn, hrun]
  refine ⟨_, { p with image := ⟨sp, p.image.sz⟩ }, (Reach.boot hb.boot).step trivial hcall, ?_, hsz, hone, hnone 0 hone⟩
  dsimp only
  rw [update_self]

/-! ## Isolation -/

theorem MInv.apart (h : MInv L s) {i j : ℕ} {p q : Proc} (hp : s.procs i = some p) (hq : s.procs j = some q) (hij : i ≠ j)
    {x : ℕ} (hx : x ∈ p.pages) : x ∉ q.pages := by
  have hi := (h.procs i p hp).1
  have hj := (h.procs j q hq).1
  have hq' : update s.procs i none j = some q := by rw [update_of_ne (Ne.symm hij), hq]
  have hle : p.pages + q.pages ≤ s.roles := by
    unfold State.roles
    rw [stock_split hi hp, stock_split hj hq', ← add_assoc p.pages]
    exact (le_add_right _ _).trans ((le_add_right _ _).trans (le_add_left _ _))
  exact disjoint_left.1 (nodup_add.1 (nodup_of_le hle h.nodup)).2.2 hx

variable {sp : Space}

/-- two different entries of an address space do not map the same frame -/
theorem pte_inj (hnodup : sp.pages.Nodup) {v w : ℕ} (hv : v < KERNBASE) (hw : w < KERNBASE) {e f : Pte}
    (he : sp.pte v = some e) (hf : sp.pte w = some f) (hef : e.frame = f.frame) : v = w := by
  by_contra hvw
  rw [pages_clearPte hv he] at hnodup
  refine (nodup_cons.1 hnodup).1 ?_
  rw [hef]
  refine frame_mem_pages hw ?_
  dsimp only
  rw [update_of_ne (Ne.symm hvw)]
  exact hf

/-- **Every page has one role.** In every run, in every state reached: every page between the end of the kernel and PHYSTOP is
exactly once on the free list, a kernel stack, a directory or table page or a user frame of one address space, a pipe or a CPU's stack; entries with
PTE_U lie below KERNBASE and map such pages; and no frame is mapped by two entries, of one process or of two. -/
theorem every_page_one_role (L : Layout) (others : ℕ) (s : State) {guard : State → Act → Prop} (h : Reach L others guard s) :
    s.roles = (Finset.Ico L.first PHYSTOP).val ∧ (∀ i p, s.procs i = some p → ∀ v e, p.image.space.pte v = some e → e.u = true →
      v < KERNBASE ∧ L.first ≤ e.frame ∧ e.frame < PHYSTOP) ∧
    ∀ i j p q, s.procs i = some p → s.procs j = some q → ∀ v w e f, v < KERNBASE → w < KERNBASE →
      p.image.space.pte v = some e → q.image.space.pte w = some f → e.frame = f.frame → i = j ∧ v = w := by
  have hinv := reach_inv h
  refine ⟨hinv.roles, fun i p hp v e he hu => ?_, fun i j p q hp hq v w e f hv hw he hf hef => ?_⟩
  · obtain ⟨hi, hok⟩ := hinv.procs i p hp
    have hv : v < KERNBASE := by
      by_contra hge
      rw [hok.space.kernel v e (by omega) he] at hu
      cases hu
    have hmem : e.frame ∈ s.roles :=
      mem_of_le (image_le_roles hi hp) (mem_add.2 (.inr (frame_mem_pages hv he)))
    exact ⟨hv, hinv.fine e.frame hmem⟩
  · by_cases hij : i = j
    · subst hij
      rw [hp] at hq
      cases hq
      have hle := image_le_roles (hinv.procs i p hp).1 hp
      exact ⟨rfl, pte_inj (nodup_add.1 (nodup_of_le hle hinv.nodup)).2.1 hv hw he hf hef⟩
    · have h1 : e.frame ∈ p.pages := mem_of_le (space_le_process p) (frame_mem_pages hv he)
      have h2 : f.frame ∈ q.pages := mem_of_le (space_le_process q) (frame_mem_pages hw hf)
      rw [← hef] at h2
      exact absurd h2 (hinv.apart hp hq hij h1)

/-- init after it has grown by 50 MB -/
theorem every_page_one_role_example : ∃ s p, Reach exampleLayout 0 (fun _ _ => True) s ∧ s.procs 0 = some p ∧
    p.image.sz = PGSIZE + 52428800 ∧ s.roles = (Finset.Ico 0x400 0xE000).val := by
  obtain ⟨s, p, hreach, -, hp, -, hsz, -⟩ := init_grown
  have hrun := hreach (fun _ _ => True) fun _ => trivial
  exact ⟨s, p, hrun, hp, hsz, (every_page_one_role exampleLayout 0 s hrun).1⟩

end Xv6.Mem
