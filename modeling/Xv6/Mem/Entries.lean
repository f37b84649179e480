/-
The page table entries that exec follows.

walkpgdir returns 0 where there is no page table. loaduvm and clearpteu test for it and panic; uva2ka does not, and the access
stops the kernel.

- `exec_follows_present_entries`: exec returns if and only if it does not come to push an argument to an address between the
  physical memory and the devices;
- `long_argument_follows_null`: a string of 40 MB makes exec follow a missing entry.
-/
import Xv6.Mem.Ownership

namespace Xv6.Mem

open Lib Multiset

/-- uva2ka returns an address only for a page that is present and for users -/
theorem uva2ka_present {s : Space} {v pa : ℕ} (h : uva2ka s v = .ok (some pa)) : ∃ e, s.pte v = some e ∧ e.u = true ∧ e.frame = pa := by
  unfold uva2ka at h
  cases ht : s.tab (v / 1024) with
  | none =>
    rw [ht] at h
    cases h
  | some t =>
    rw [ht] at h
    cases he : s.pte v with
    | none =>
      rw [he] at h
      cases h
    | some e =>
      rw [he] at h
      cases hu : e.u with
      | false => simp [hu] at h
      | true => exact ⟨e, rfl, hu, by simpa [hu] using h⟩

section Exec

variable {L : Layout} {k : Kmem} {cur : Image} {file : ElfFile} {args : List ℕ}

/-- with a stack the arguments are pushed, and one without a page table for its place stops the kernel -/
theorem finish_stops {s : Space} {sz : ℕ} (hok : Image.Ok L ⟨s, sz⟩) (hfull : Full s (numPages sz))
    (hfine : Fine L (k.freelist + s.pages)) (hlens : ∀ len ∈ args, len < KERNBASE * PGSIZE) (hcount : args.length ≤ MAXARG)
    (hstack : HasStack L k s sz) (hfit : ¬ ArgsFit ((numPages sz + 1) * 4096) ((numPages sz + 2) * 4096) args) :
    finish L k s sz cur args = .error .trap := by
  obtain ⟨r, k3, s3, hrun3, -, -, hres3, -⟩ := stack_fresh (k := k) hok hfull hfine
  obtain ⟨r', k', s', hrun', hr0⟩ := hstack
  rw [hrun3] at hrun'
  cases hrun'
  obtain ⟨hr, s4, hrun4, -, hfresh⟩ := hres3 hr0
  unfold finish
  rw [hrun3]
  dsimp only
  rw [if_neg hr0, show r / 4096 - 2 = numPages sz by omega, hrun4]
  dsimp only
  rw [hr]
  rcases pushAll_spec hfresh hlens with ⟨b, l, -, -, hall⟩ | ⟨hrun5, -⟩
  · exact absurd (hall hcount) hfit
  · rw [hrun5]

theorem exec_stops (hfree : Fine L (k.freelist : Multiset ℕ)) (hlens : ∀ len ∈ args, len < KERNBASE * PGSIZE)
    (hcount : args.length ≤ MAXARG) (hb : Builds L k file)
    (hfit : ¬ ArgsFit ((imagePages file - 1) * 4096) (imagePages file * 4096) args) : exec L k cur file args = .error .trap := by
  obtain ⟨helf, s1, k1, sz, s2, k2, h1, h2, hstack⟩ := hb
  obtain ⟨r, k1', hrun1, -, hsome1, -⟩ := setupkvm_spec L k hfree
  rw [h1] at hrun1
  cases hrun1
  obtain ⟨hacc1, hs1, hkvm1, hempty1⟩ := hsome1 s1 rfl
  obtain ⟨r, k2', s2', hrun2, -, hacc2, hres2⟩ := loadSegments_spec file.phdrs k1 s1 0 (.empty hs1 hkvm1 hempty1)
    (full_zero s1) (by rw [hacc1]; exact hfree)
  rw [h2] at hrun2
  cases hrun2
  obtain ⟨hok2, hfull2, hsz⟩ := hres2 sz rfl
  have himg : imagePages file = numPages sz + 2 := by
    unfold imagePages
    rw [← hsz]
  rw [himg] at hfit
  rw [exec_of_segments helf h1 h2, finish_stops hok2 hfull2 (by rw [hacc2, hacc1]; exact hfree) hlens hcount hstack hfit]
  rfl

/-- **Entries that exist.** For every file, caller and list of strings below sz as sys_exec admits them: exec returns if and
only if, in case it comes to push the arguments, none of them has its place between the physical memory and the devices;
otherwise uva2ka follows walkpgdir's 0, and no other function of vm.c panics; and the addresses that uva2ka returns are those of
pages that are present and for users. -/
theorem exec_follows_present_entries (h : cur.Ok L) (hfine : Fine L (k.freelist + cur.space.pages))
    (hlens : ∀ len ∈ args, len < cur.sz) (hcount : args.length < MAXARG) :
    ((∃ r, exec L k cur file args = .ok r) ↔
      (Builds L k file → ArgsFit ((imagePages file - 1) * 4096) (imagePages file * 4096) args)) ∧
      (∀ e, exec L k cur file args = .error e → e = .trap) ∧
      ∀ s v pa, uva2ka s v = .ok (some pa) → ∃ e, s.pte v = some e ∧ e.u = true ∧ e.frame = pa := by
  have hshort : ∀ len ∈ args, len < KERNBASE * PGSIZE := fun len hlen => (hlens len hlen).trans h.lt
  have hspec := exec_spec k h hfine file hshort
  refine ⟨⟨?_, fun hargs => ?_⟩, fun e he => ?_, fun _ _ _ => uva2ka_present⟩
  · rintro ⟨r, hr⟩ hb
    by_contra hfit
    rw [exec_stops (hfine.of_le (le_add_right _ _)) hshort hcount.le hb hfit] at hr
    cases hr
  · rcases hspec with ⟨k', m, l, hrun, -⟩ | ⟨-, hb, hfit⟩
    · exact ⟨_, hrun⟩
    · exact absurd (hargs hb) hfit
  · rcases hspec with ⟨k', m, l, hrun, -⟩ | ⟨hrun, -⟩ <;> rw [hrun] at he <;> cases he
    rfl

end Exec

/-- init, grown by 50 MB, calls exec with two strings -/
theorem exec_follows_present_entries_example : ∃ t p, Reach exampleLayout 0 (fun _ _ => True) t ∧
    t.procs 0 = some p ∧ ∃ r, exec exampleLayout ⟨t.freelist, fun _ => true⟩ p.image ⟨true, []⟩ [7, 5000] = .ok r := by
  obtain ⟨t, p, hreach, hinv, hp, -, hsz, -⟩ := init_grown
  obtain ⟨hi, hok⟩ := hinv.procs 0 p hp
  refine ⟨t, p, hreach _ fun _ => trivial, hp, (exec_follows_present_entries (k := ⟨t.freelist, fun _ => true⟩) hok
    (hinv.fine.of_le (image_le_roles hi hp)) ?_ (by decide)).1.2 fun _ => ?_⟩
  · have hbig : 5000 < PGSIZE + 52428800 := by
      unfold PGSIZE
      norm_num
    rw [hsz]
    intro len hlen
    rcases List.mem_pair.1 hlen with rfl | rfl
    · omega
    · exact hbig
  · have h7 : push (2 * 4096) 7 = 8184 := by
      unfold push
      norm_num
    have h5 : push 8184 5000 = 3180 := by
      unfold push
      norm_num
    have himg : imagePages ⟨true, []⟩ = 2 := by
      unfold imagePages segEnd
      rw [numPages_zero]
    rw [himg]
    unfold ArgsFit ArgsFit
    rw [h7, h5]
    exact ⟨fun hlt => absurd hlt (by norm_num), fun _ _ => ⟨fun hlt => absurd hlt (by norm_num), fun h => absurd h (by norm_num)⟩⟩

/-- the stack address of a string of 40 MB in an image of two pages -/
theorem push_long : push (2 * PGSIZE) 41943039 = 4253032448 := by
  unfold push PGSIZE
  norm_num

theorem hole_long : Hole (push (2 * PGSIZE) 41943039) := by
  rw [push_long]
  unfold Hole KERNBASE PHYSTOP DEVSPACE
  norm_num

/-- Init grows by 50 MB and calls exec, of a file without segments, with a string of 40 MB: the string's place is below the
devices, where there is no page table, and uva2ka follows the 0 that walkpgdir returns. -/
theorem long_argument_follows_null : ∃ t p, Reach exampleLayout 0 (fun _ _ => True) t ∧ t.procs 0 = some p ∧
    p.zombie = false ∧ 41943039 < p.image.sz ∧
    exec exampleLayout ⟨t.freelist, fun _ => true⟩ p.image ⟨true, []⟩ [41943039] = .error .trap := by
  obtain ⟨t, p, hreach, hinv, hp, hz, hsz, hlen, -⟩ := init_grown
  obtain ⟨hi, -⟩ := hinv.procs 0 p hp
  have hfree : Fine exampleLayout (t.freelist : Multiset ℕ) :=
    (hinv.fine.of_le (image_le_roles hi hp)).of_le (le_add_right _ _)
  refine ⟨t, p, hreach _ fun _ => trivial, hp, hz, by rw [hsz]; unfold PGSIZE; norm_num, ?_⟩
  obtain ⟨s1, k1, hrun1, hacc1, hs1, hkvm1, hempty1, hgen1, -⟩ :=
    setupkvm_some (k := ⟨t.freelist, fun _ => true⟩) hfree (fun _ => rfl) (by dsimp only; omega)
  obtain ⟨r, k3, s3, hrun3, -, -, -, hroom3⟩ := stack_fresh (k := k1) (.empty hs1 hkvm1 hempty1) (full_zero s1)
    (by rw [hacc1]; exact hfree)
  have hr0 : r ≠ 0 := hroom3 hgen1 (by rw [numPages_zero, kernbase_bytes]; norm_num) (by
    rw [hacc1, numPages_zero, coe_card]
    dsimp only
    omega)
  refine exec_stops hfree ?_ (by decide) ⟨rfl, s1, k1, 0, s1, k1, hrun1, rfl, r, k3, s3, hrun3, hr0⟩ fun hfit => ?_
  · rintro len hmem
    rw [List.mem_singleton.1 hmem, kernbase_bytes]
    norm_num
  · have himg : imagePages ⟨true, []⟩ * 4096 = 2 * PGSIZE := by
      unfold imagePages segEnd PGSIZE
      rw [numPages_zero]
    rw [himg] at hfit
    exact hfit.1 (by unfold PGSIZE; norm_num) hole_long

end Xv6.Mem
