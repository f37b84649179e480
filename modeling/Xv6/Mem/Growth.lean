/-
Growing a process: what sbrk does to the size, and what allocuvm does to the pages and to what is in them.

The functions of the page tables say which pages they take and give back. Here memory has contents as well: allocuvm clears a
page before it maps it, kfree fills a page with ones. The words of the page tables are not part of the contents.

Results:
- `growproc_moves_break`: growproc returns 0 with the size moved by n, or -1 with the size unchanged, exactly if n does not take
  away more than there is, or there is nothing;
- `allocuvm_rolls_back`: allocuvm maps fresh cleared pages up to the new size, or leaves every mapping and every byte as it was
  and all pages but empty page tables on the free list.
-/
import Xv6.Mem.Ownership

/-! ## The break -/

namespace Xv6.Mem

open Lib

variable {L : Layout}

/-- sz + n below zero wraps to a size above sz, which deallocuvm takes for a size that is no smaller -/
theorem growproc_below_zero (k : Kmem) {cur : Image} (hlt : cur.sz < KERNBASE * PGSIZE) {n : ℤ}
    (h1 : -2 ^ 31 ≤ n) (hn : cur.sz + n < 0) : growproc L k cur n = .ok (k, cur, decide (cur.sz ≠ 0)) := by
  rcases newsz_cases hlt h1 (by omega) with ⟨h0, -⟩ | ⟨-, hge⟩
  · omega
  · unfold growproc
    generalize (((cur.sz : ℤ) + n) % 2 ^ 32).toNat = newsz at hge ⊢
    rw [if_neg (by omega), if_pos (by omega)]
    unfold deallocuvm
    rw [if_pos hge]
    dsimp only
    split_ifs with hz
    · rw [decide_eq_false (not_not.2 hz)]
    · rw [decide_eq_true hz]

theorem growproc_up (k : Kmem) {cur : Image} (h : cur.Ok L) (hfine : Fine L (k.freelist + cur.space.pages)) {n : ℕ}
    (hn : n < 2 ^ 31) : ∃ k' m b, growproc L k cur n = .ok (k', m, b) ∧
      (b = true → m.sz = cur.sz + n ∧ cur.sz + n < KERNBASE * PGSIZE) ∧ (b = false → m.sz = cur.sz) := by
  have hlt := h.lt
  have hnew : (((cur.sz : ℤ) + n) % 2 ^ 32).toNat = cur.sz + n := by
    rw [kernbase_bytes] at hlt
    omega
  unfold growproc
  rw [hnew]
  by_cases hp : (n : ℤ) > 0
  · rw [if_pos hp]
    obtain ⟨r, k', s', hrun, -, -, -, hres, -⟩ := allocuvm_spec k cur.space cur.sz (cur.sz + n) h.space hfine h.above
    rw [hrun]
    dsimp only
    split_ifs with hz
    · exact ⟨_, _, _, rfl, nofun, fun _ => rfl⟩
    · rcases hres with ⟨hr, hbound, -⟩ | ⟨hr, -⟩
      · exact ⟨_, _, _, rfl, fun _ => ⟨show r = _ by omega, by omega⟩, nofun⟩
      · exact absurd hr hz
  · rw [if_neg hp, if_neg (by omega)]
    exact ⟨_, _, _, rfl, fun _ => ⟨by omega, by omega⟩, nofun⟩

/-- growproc has returned 0 with the size moved by exactly n, below KERNBASE, or -1 with the size as it was -/
def Moved (cur : Image) (n : ℤ) (m : Image) (b : Bool) : Prop :=
  (b = true → 0 ≤ cur.sz + n ∧ cur.sz + n < (KERNBASE * PGSIZE : ℕ) ∧ (m.sz : ℤ) = cur.sz + n) ∧ (b = false → m.sz = cur.sz)

theorem growproc_moved (k : Kmem) {cur : Image} (h : cur.Ok L) (hfine : Fine L (k.freelist + cur.space.pages)) {n : ℤ}
    (h1 : -2 ^ 31 ≤ n) (h2 : n < 2 ^ 31) (hn : 0 ≤ cur.sz + n) : ∃ k' m b, growproc L k cur n = .ok (k', m, b) ∧
      Moved cur n m b := by
  have hlt := h.lt
  by_cases hneg : n < 0
  · have hnew : (((cur.sz : ℤ) + n) % 2 ^ 32).toNat = (cur.sz + n).toNat := by
      rcases newsz_cases h.lt h1 h2 with ⟨-, heq⟩ | ⟨hlow, -⟩
      · exact heq
      · omega
    unfold growproc
    rw [hnew, if_neg (by omega), if_pos hneg]
    obtain ⟨k', s', hrun, -⟩ :=
      deallocuvm_spec k cur.space (cur.sz + n).toNat (Nat.le_of_lt h.lt) h.space hfine
    rw [hrun, if_neg (by omega)]
    dsimp only
    split_ifs with hz
    · exact ⟨_, _, _, rfl, nofun, fun _ => rfl⟩
    · refine ⟨_, _, _, rfl, fun _ => ⟨hn, by omega, ?_⟩, nofun⟩
      show (((cur.sz + n).toNat : ℕ) : ℤ) = _
      omega
  · obtain ⟨j, rfl⟩ := Int.eq_ofNat_of_zero_le (not_lt.1 hneg)
    obtain ⟨k', m, b, hrun, hup, hsame⟩ := growproc_up k h hfine (n := j) (by omega)
    refine ⟨k', m, b, hrun, fun hb => ?_, hsame⟩
    obtain ⟨hsz, hbound⟩ := hup hb
    omega

/-- **sbrk moves the break.** growproc does not panic; it returns 0 with the size moved by exactly n, or -1 with the size as it
was, if and only if n does not take away more than there is or there is nothing to take away. -/
theorem growproc_moves_break (k : Kmem) {cur : Image} (h : cur.Ok L) (hfine : Fine L (k.freelist + cur.space.pages)) {n : ℤ}
    (h1 : -2 ^ 31 ≤ n) (h2 : n < 2 ^ 31) : ∃ k' m b, growproc L k cur n = .ok (k', m, b) ∧
      (Moved cur n m b ↔ 0 ≤ cur.sz + n ∨ cur.sz = 0) := by
  by_cases hn : 0 ≤ (cur.sz : ℤ) + n
  · obtain ⟨k', m, b, hrun, hmoved⟩ := growproc_moved k h hfine h1 h2 hn
    exact ⟨k', m, b, hrun, iff_of_true hmoved (.inl hn)⟩
  · refine ⟨k, cur, _, growproc_below_zero k h.lt h1 (not_le.1 hn), ⟨fun hm => .inr ?_, fun hz => ⟨fun hb => ?_, fun _ => rfl⟩⟩⟩
    · by_contra hz
      exact hn (hm.1 (decide_eq_true hz)).1
    · exact absurd (hz.resolve_left hn) (of_decide_eq_true hb)

/-- after boot, sbrk(8192) of init either fails or leaves it with 12288 bytes -/
theorem growproc_moves_break_example : ∃ s p, Reach exampleLayout 0 (fun _ _ => True) s ∧ s.procs 0 = some p ∧
    p.image.sz = PGSIZE ∧ ∃ k m b, growproc exampleLayout ⟨s.freelist, fun _ => true⟩ p.image 8192 = .ok (k, m, b) ∧
      (b = true → (m.sz : ℤ) = 12288) := by
  obtain ⟨s, p, hb⟩ := booted
  have hsz := hb.size
  obtain ⟨k, m, b, hrun, hmove⟩ := growproc_moves_break ⟨s.freelist, fun _ => true⟩ hb.ok hb.fine (n := 8192)
    (by norm_num) (by norm_num)
  refine ⟨s, p, .boot hb.boot, hb.proc, hsz, k, m, b, hrun, fun hb => ?_⟩
  have := ((hmove.2 (.inl (by omega))).1 hb).2.2
  omega

/-- after boot, sbrk(-8192) of init, which has 4096 bytes, returns 0 and the size stays -/
theorem sbrk_below_zero_succeeds : ∃ s p, Reach exampleLayout 0 (fun _ _ => True) s ∧ s.procs 0 = some p ∧
    (p.image.sz : ℤ) + -8192 < 0 ∧ growproc exampleLayout ⟨s.freelist, fun _ => true⟩ p.image (-8192) =
      .ok (⟨s.freelist, fun _ => true⟩, p.image, true) := by
  obtain ⟨s, p, hb⟩ := booted
  have hsz := hb.size
  have hrun := growproc_below_zero (L := exampleLayout) ⟨s.freelist, fun _ => true⟩ hb.ok.lt (n := -8192) (by norm_num)
    (by omega)
  rw [decide_eq_true (by rw [hsz]; decide)] at hrun
  exact ⟨s, p, .boot hb.boot, hb.proc, by omega, hrun⟩

end Xv6.Mem

/-! ## Pages with their contents -/

namespace Xv6.Ram

open Lib Mem Multiset

/-- what is in the pages of memory -/
abbrev Pages := ℕ → Bytes PGSIZE

/-- the allocator, and what is in memory -/
structure Phys where
  kmem : Kmem
  ram : Pages

/-- memset(v, c, PGSIZE) -/
def memset (r : Pages) (v : ℕ) (c : Byte) : Pages := update r v fun _ => c

variable (L : Layout)

def kfree (m : Phys) (v : ℕ) : Except Panic Phys :=
  match Mem.kfree L m.kmem v with
  | .error p => .error p
  | .ok k => .ok ⟨k, memset m.ram v 1⟩

/-- the loop of deallocuvm, from virtual page a up to stop -/
def deallocLoop (m : Phys) (s : Space) (stop a : ℕ) : Except Panic (Phys × Space) :=
  if a < stop then
    match s.tab (a / 1024) with
    | none => deallocLoop m s stop ((a / 1024 + 1) * 1024)
    | some _ =>
      match s.pte a with
      | none => deallocLoop m s stop (a + 1)
      | some e =>
        if e.frame = 0 then .error .kfree
        else
          match kfree L m e.frame with
          | .error p => .error p
          | .ok m => deallocLoop m { s with pte := update s.pte a none } stop (a + 1)
  else .ok (m, s)
termination_by stop - a
decreasing_by all_goals omega

def deallocuvm (m : Phys) (s : Space) (oldsz newsz : ℕ) : Except Panic (ℕ × Phys × Space) :=
  if newsz ≥ oldsz then .ok (oldsz, m, s)
  else
    match deallocLoop L m s (numPages oldsz) (numPages newsz) with
    | .error p => .error p
    | .ok (m, s) => .ok (newsz, m, s)

/-- the loop of allocuvm: n more pages from the virtual page a on -/
def allocLoop (m : Phys) (s : Space) (oldsz newsz a : ℕ) : ℕ → Except Panic (ℕ × Phys × Space)
  | 0 => .ok (newsz, m, s)
  | n + 1 =>
    match kalloc m.kmem with
    | (none, k) =>
      match deallocuvm L ⟨k, m.ram⟩ s newsz oldsz with
      | .error p => .error p
      | .ok (_, m, s) => .ok (0, m, s)
    | (some mem, k) =>
      match mappages k s a mem true true 1 with
      | .error p => .error p
      | .ok (true, k, s) => allocLoop ⟨k, memset m.ram mem 0⟩ s oldsz newsz (a + 1) n
      | .ok (false, k, s) =>
        match deallocuvm L ⟨k, memset m.ram mem 0⟩ s newsz oldsz with
        | .error p => .error p
        | .ok (_, m, s) =>
          match kfree L m mem with
          | .error p => .error p
          | .ok m => .ok (0, m, s)

@[irreducible] def allocuvm (m : Phys) (s : Space) (oldsz newsz : ℕ) : Except Panic (ℕ × Phys × Space) :=
  if newsz ≥ KERNBASE * PGSIZE then .ok (0, m, s)
  else if newsz < oldsz then .ok (oldsz, m, s)
  else allocLoop L m s oldsz newsz (numPages oldsz) (numPages newsz - numPages oldsz)

section Specs

variable {L}

/-! ## Without the contents these are the functions of vm.c -/

variable {k : Kmem} {s' : Space} {oldsz newsz p : ℕ}

theorem kfree_eq {m : Phys} {v : ℕ} (h : Mem.kfree L m.kmem v = .ok k) : kfree L m v = .ok ⟨k, memset m.ram v 1⟩ := by
  unfold kfree
  rw [h]

/-- the contents do not matter to the loop, and only the pages that it frees change -/
theorem deallocLoop_eq {stop a : ℕ} {m : Phys} {s : Space} (h : Mem.deallocLoop L m.kmem s stop a = .ok (k, s')) :
    ∃ r, deallocLoop L m s stop a = .ok (⟨k, r⟩, s') ∧
      ∀ p, (∀ x e, a ≤ x → x < stop → s.pte x = some e → e.frame ≠ p) → r p = m.ram p := by
  induction hm : stop - a using Nat.strong_induction_on generalizing a m s with
  | _ n ih =>
    unfold Mem.deallocLoop at h
    unfold deallocLoop
    by_cases ha : a < stop
    · rw [if_pos ha] at h ⊢
      cases ht : s.tab (a / 1024) with
      | none =>
        rw [ht] at h
        obtain ⟨r, hrun, hram⟩ := ih (stop - (a / 1024 + 1) * 1024) (by omega) h rfl
        exact ⟨r, hrun, fun p hp => hram p fun x e h1 h2 => hp x e (by omega) h2⟩
      | some t =>
        rw [ht] at h
        cases he : s.pte a with
        | none =>
          rw [he] at h
          obtain ⟨r, hrun, hram⟩ := ih (stop - (a + 1)) (by omega) h rfl
          exact ⟨r, hrun, fun p hp => hram p fun x e h1 h2 => hp x e (by omega) h2⟩
        | some e =>
          rw [he] at h
          dsimp only at h ⊢
          split_ifs at h with hz
          rw [if_neg hz]
          cases hk : Mem.kfree L m.kmem e.frame with
          | error p =>
            rw [hk] at h
            cases h
          | ok k1 =>
            rw [hk] at h
            rw [kfree_eq hk]
            have h' : Mem.deallocLoop L (Phys.mk k1 (memset m.ram e.frame 1)).kmem
                { s with pte := update s.pte a none } stop (a + 1) = .ok (k, s') := h
            obtain ⟨r, hrun, hram⟩ := ih (stop - (a + 1)) (by omega) h' rfl
            refine ⟨r, hrun, fun p hp => ?_⟩
            have hne : p ≠ e.frame := fun heq => hp a e le_rfl ha he heq.symm
            refine (hram p fun x e' h1 h2 hx => ?_).trans (update_of_ne hne _ _)
            dsimp only at hx
            rw [update_of_ne (by omega)] at hx
            exact hp x e' (by omega) h2 hx
    · rw [if_neg ha] at h ⊢
      cases h
      exact ⟨m.ram, rfl, fun _ _ => rfl⟩

theorem deallocuvm_eq {n : ℕ} {m : Phys} {s : Space} (h : Mem.deallocuvm L m.kmem s oldsz newsz = .ok (n, k, s')) :
    ∃ r, deallocuvm L m s oldsz newsz = .ok (n, ⟨k, r⟩, s') ∧
      ∀ p, (∀ x e, numPages newsz ≤ x → x < numPages oldsz → s.pte x = some e → e.frame ≠ p) → r p = m.ram p := by
  unfold Mem.deallocuvm at h
  unfold deallocuvm
  split_ifs at h ⊢ with hge
  · cases h
    exact ⟨m.ram, rfl, fun _ _ => rfl⟩
  · cases hloop : Mem.deallocLoop L m.kmem s (numPages oldsz) (numPages newsz) with
    | error p =>
      rw [hloop] at h
      cases h
    | ok x =>
      rw [hloop] at h
      cases h
      obtain ⟨r, hrun, hram⟩ := deallocLoop_eq hloop
      rw [hrun]
      exact ⟨r, rfl, hram⟩

theorem allocLoop_eq {n : ℕ} (j : ℕ) : ∀ {a : ℕ} {m : Phys} {s : Space},
    Mem.allocLoop L m.kmem s oldsz newsz a j = .ok (n, k, s') → ∃ r, allocLoop L m s oldsz newsz a j = .ok (n, ⟨k, r⟩, s') := by
  induction j with
  | zero =>
    intro a m s h
    cases h
    exact ⟨m.ram, rfl⟩
  | succ j ih =>
    intro a m s h
    unfold Mem.allocLoop at h
    unfold allocLoop
    rcases kalloc_cases m.kmem with ⟨p, k1, hk, -⟩ | ⟨k1, hk, -⟩
    · rw [hk] at h ⊢
      dsimp only at h ⊢
      cases hmap : mappages k1 s a p true true 1 with
      | error e =>
        rw [hmap] at h
        cases h
      | ok x =>
        obtain ⟨b, k2, s2⟩ := x
        rw [hmap] at h
        cases b with
        | true => exact ih (m := ⟨k2, memset m.ram p 0⟩) h
        | false =>
          dsimp only at h ⊢
          cases hd : Mem.deallocuvm L k2 s2 newsz oldsz with
          | error e =>
            rw [hd] at h
            cases h
          | ok y =>
            obtain ⟨n', k3, s3⟩ := y
            obtain ⟨r, hrun, -⟩ := deallocuvm_eq (m := ⟨k2, memset m.ram p 0⟩) hd
            rw [hd] at h
            rw [hrun]
            dsimp only at h ⊢
            cases hf : Mem.kfree L k3 p with
            | error e =>
              rw [hf] at h
              cases h
            | ok k4 =>
              rw [hf] at h
              cases h
              rw [kfree_eq (m := ⟨k3, r⟩) hf]
              exact ⟨_, rfl⟩
    · rw [hk] at h ⊢
      dsimp only at h ⊢
      cases hd : Mem.deallocuvm L k1 s newsz oldsz with
      | error e =>
        rw [hd] at h
        cases h
      | ok y =>
        obtain ⟨n', k3, s3⟩ := y
        obtain ⟨r, hrun, -⟩ := deallocuvm_eq (m := ⟨k1, m.ram⟩) hd
        rw [hd] at h
        rw [hrun]
        cases h
        exact ⟨r, rfl⟩

theorem allocuvm_eq {n : ℕ} {m : Phys} {s : Space}
    (h : Mem.allocuvm L m.kmem s oldsz newsz = .ok (n, k, s')) : ∃ r, allocuvm L m s oldsz newsz = .ok (n, ⟨k, r⟩, s') := by
  unfold Mem.allocuvm at h
  unfold allocuvm
  by_cases h1 : newsz ≥ KERNBASE * PGSIZE
  · rw [if_pos h1] at h ⊢
    obtain ⟨rfl, hrest⟩ := Prod.mk.inj (Except.ok.inj h)
    obtain ⟨rfl, rfl⟩ := Prod.mk.inj hrest
    exact ⟨m.ram, rfl⟩
  · rw [if_neg h1] at h ⊢
    by_cases h2 : newsz < oldsz
    · rw [if_pos h2] at h ⊢
      obtain ⟨rfl, hrest⟩ := Prod.mk.inj (Except.ok.inj h)
      obtain ⟨rfl, rfl⟩ := Prod.mk.inj hrest
      exact ⟨m.ram, rfl⟩
    · rw [if_neg h2] at h ⊢
      exact allocLoop_eq _ h

/-! ## allocuvm -/

theorem mappages_tables {k' : Kmem} {s : Space} {v f : ℕ} {w u b : Bool}
    (h : mappages k s v f w u 1 = .ok (b, k', s')) : s'.dir = s.dir ∧ ∀ i t, s.tab i = some t → s'.tab i = some t := by
  unfold mappages walkpgdir at h
  cases ht : s.tab (v / 1024) with
  | some t =>
    rw [ht] at h
    dsimp only at h
    split_ifs at h
    unfold mappages at h
    cases h
    exact ⟨rfl, fun _ _ => id⟩
  | none =>
    rw [ht] at h
    rw [if_pos rfl] at h
    rcases kalloc_cases k with ⟨p, k1, hk, -⟩ | ⟨k1, hk, -⟩
    · rw [hk] at h
      dsimp only at h
      rw [if_neg (by simp)] at h
      unfold mappages at h
      cases h
      refine ⟨rfl, fun i t hi => ?_⟩
      dsimp only
      rw [update_of_ne]
      · exact hi
      · rintro rfl
        rw [ht] at hi
        cases hi
    · rw [hk] at h
      cases h
      exact ⟨rfl, fun _ _ => id⟩

/-- the pages of an address space are its directory, its page tables and the frames of its users -/
theorem mem_pages {s : Space} : p ∈ s.pages ↔
    p = s.dir ∨ (∃ i < NPDENTRIES, s.tab i = some p) ∨ ∃ x < KERNBASE, ∃ e, s.pte x = some e ∧ e.frame = p := by
  unfold Space.pages
  rw [mem_cons, mem_add, mem_stock, mem_stock]
  simp [eq_comm]

/-- since m₀ and s₀, with lo pages, the pages up to a have been added, and the pages in X are taken but not mapped -/
structure Grown (m₀ : Phys) (s₀ : Space) (lo a : ℕ) (X : Multiset ℕ) (m : Phys) (s : Space) : Prop where
  ok : s.Ok
  pages : X + ((m.kmem.freelist : Multiset ℕ) + s.pages) = m₀.kmem.freelist + s₀.pages
  dir : s.dir = s₀.dir
  tab : ∀ i t, s₀.tab i = some t → s.tab i = some t
  same : ∀ x, x < lo ∨ KERNBASE ≤ x → s.pte x = s₀.pte x
  new : ∀ x, lo ≤ x → x < a → ∃ f, s.pte x = some ⟨f, true, true⟩ ∧ m.ram f = Bytes.zero PGSIZE
  above : ∀ x, a ≤ x → x < KERNBASE → s.pte x = none
  kept : ∀ p ∈ s₀.pages, m.ram p = m₀.ram p

variable {m₀ m : Phys} {s₀ s : Space} {lo a : ℕ} {X : Multiset ℕ}

/-- an address space that has what s₀ has below lo has its pages -/
theorem mem_pages_of_below {s₀ s : Space} {lo : ℕ} (hdir : s.dir = s₀.dir) (htab : ∀ i t, s₀.tab i = some t → s.tab i = some t)
    (hsame : ∀ x < lo, s.pte x = s₀.pte x) (habove : Above s₀ lo) (hp : p ∈ s₀.pages) : p ∈ s.pages := by
  rw [mem_pages] at hp ⊢
  rcases hp with rfl | ⟨i, hi, ht⟩ | ⟨x, hx, e, he, rfl⟩
  · exact .inl hdir.symm
  · exact .inr (.inl ⟨i, hi, htab i p ht⟩)
  · have hlo : x < lo := by
      by_contra hge
      rw [habove x (by omega) hx] at he
      cases he
    exact .inr (.inr ⟨x, hx, e, by rw [hsame x hlo]; exact he, rfl⟩)

theorem Grown.mem (h : Grown m₀ s₀ lo a X m s) (habove : Above s₀ lo) (hp : p ∈ s₀.pages) : p ∈ s.pages :=
  mem_pages_of_below h.dir h.tab (fun x hx => h.same x (.inl hx)) habove hp

theorem Grown.fresh (h : Grown m₀ s₀ lo a X m s) (hnodup : ((m₀.kmem.freelist : Multiset ℕ) + s₀.pages).Nodup)
    (hp : p ∈ X + (m.kmem.freelist : Multiset ℕ)) : p ∉ s.pages := by
  rw [← h.pages, ← add_assoc] at hnodup
  exact disjoint_left.1 (nodup_add.1 hnodup).2.2 hp

theorem Grown.kalloc_some (h : Grown m₀ s₀ lo a 0 m s) (hlist : m.kmem.freelist = p :: k.freelist)
    (hnodup : ((m₀.kmem.freelist : Multiset ℕ) + s₀.pages).Nodup) (habove : Above s₀ lo) (hlo : a ≤ KERNBASE) :
    Grown m₀ s₀ lo a {p} ⟨k, memset m.ram p 0⟩ s := by
  have hp : p ∉ s.pages := h.fresh hnodup (by rw [hlist, zero_add]; exact List.mem_cons_self)
  refine ⟨h.ok, ?_, h.dir, h.tab, h.same, fun x h1 h2 => ?_, h.above, fun q hq => ?_⟩
  · rw [← h.pages, hlist, zero_add, ← cons_coe, singleton_add, cons_add]
  · obtain ⟨f, hf, hzero⟩ := h.new x h1 h2
    refine ⟨f, hf, (update_of_ne ?_ _ _).trans hzero⟩
    rintro rfl
    exact hp (frame_mem_pages (by omega) hf)
  · refine (update_of_ne ?_ _ _).trans (h.kept q hq)
    rintro rfl
    exact hp (h.mem habove hq)

/-- mappages has mapped the page, or has found no memory for a page table -/
theorem Grown.mappages_one (h : Grown m₀ s₀ lo a {p} ⟨k, memset m.ram p 0⟩ s) (hlo : lo ≤ a) (ha : a < KERNBASE) :
    ∃ b k' s', mappages k s a p true true 1 = .ok (b, k', s') ∧ (b = true → Grown m₀ s₀ lo (a + 1) 0 ⟨k', memset m.ram p 0⟩ s') ∧
      (b = false → Grown m₀ s₀ lo a {p} ⟨k', memset m.ram p 0⟩ s') := by
  obtain ⟨b, k', s', hrun, hs', htrue, hfalse, -⟩ := mappages_user k h.ok ha (h.above a le_rfl ha) p true true
  obtain ⟨hdir, htab⟩ := mappages_tables hrun
  have htab' : ∀ i t, s₀.tab i = some t → s'.tab i = some t := fun i t ht => htab i t (h.tab i t ht)
  refine ⟨b, k', s', hrun, fun hb => ?_, fun hb => ?_⟩
  · obtain ⟨hacc, hpte⟩ := htrue hb
    refine ⟨hs', ?_, hdir.trans h.dir, htab', fun x hx => ?_, fun x h1 h2 => ?_, fun x h1 h2 => ?_, h.kept⟩
    · rw [zero_add, hacc, ← h.pages, singleton_add]
    · rw [hpte, update_of_ne (by omega)]
      exact h.same x hx
    · rw [hpte]
      by_cases hx : x = a
      · subst hx
        rw [update_self]
        exact ⟨p, rfl, update_self ..⟩
      · rw [update_of_ne hx]
        exact h.new x h1 (by omega)
    · rw [hpte, update_of_ne (by omega)]
      exact h.above x (by omega) h2
  · obtain ⟨hacc, hpte⟩ := hfalse hb
    refine ⟨hs', ?_, hdir.trans h.dir, htab', ?_, ?_, ?_, h.kept⟩
    · rw [hacc]
      exact h.pages
    all_goals rw [hpte]
    · exact h.same
    · exact h.new
    · exact h.above

section

variable (h : Grown m₀ s₀ lo a X m s) (hnodup : ((m₀.kmem.freelist : Multiset ℕ) + s₀.pages).Nodup)
include h hnodup

theorem Grown.nodup : s.pages.Nodup := by
  rw [← h.pages, ← add_assoc] at hnodup
  exact (nodup_add.1 hnodup).2.1

theorem Grown.added (habove : Above s₀ lo) {x : ℕ} {e : Pte} (hlo : lo ≤ x) (hx : x < KERNBASE) (he : s.pte x = some e) :
    e.frame ∉ s₀.pages := by
  intro hp
  have hunique := h.nodup hnodup
  rw [pages_clearPte hx he] at hunique
  refine (nodup_cons.1 hunique).1 (mem_pages_of_below h.dir h.tab (fun y hy => ?_) habove hp)
  dsimp only
  rw [update_of_ne (by omega)]
  exact h.same y (.inl hy)

end

theorem Grown.undo (h : Grown m₀ s₀ lo a X m s) (hlo : lo = numPages oldsz) (ha : a ≤ numPages newsz)
    (hlt : newsz < KERNBASE * PGSIZE) (hfine : Fine L (m₀.kmem.freelist + s₀.pages))
    (hnodup : ((m₀.kmem.freelist : Multiset ℕ) + s₀.pages).Nodup) (habove : Above s₀ lo) :
    ∃ n m' s', deallocuvm L m s newsz oldsz = .ok (n, m', s') ∧ Grown m₀ s₀ lo lo X m' s' := by
  obtain ⟨k', s', hrun, hs', htab, hdir, hacc, hpte, -⟩ := deallocuvm_spec m.kmem s oldsz (Nat.le_of_lt hlt) h.ok
    (hfine.of_le (by rw [← h.pages]; exact le_add_left _ _))
  obtain ⟨r, hrun', hram⟩ := deallocuvm_eq hrun
  have hpages := numPages_le (Nat.le_of_lt hlt)
  refine ⟨_, _, s', hrun', hs', ?_, hdir.trans h.dir, fun i t ht => ?_, fun x hx => ?_, fun x h1 h2 => absurd h2 (by omega),
    fun x h1 h2 => ?_, fun p hp => ?_⟩
  · rw [hacc]
    exact h.pages
  · rw [htab]
    exact h.tab i t ht
  · rw [hpte x, if_neg (by omega)]
    exact h.same x hx
  · rw [hpte x]
    split_ifs
    · rfl
    · exact h.above x (by omega) h2
  · refine (hram p fun x e h1 h2 he heq => ?_).trans (h.kept p hp)
    rw [← heq] at hp
    exact h.added hnodup habove (by omega) (by omega) he hp

theorem allocLoop_spec (hlt : newsz < KERNBASE * PGSIZE) (hfine : Fine L (m₀.kmem.freelist + s₀.pages))
    (hnodup : ((m₀.kmem.freelist : Multiset ℕ) + s₀.pages).Nodup) (habove : Above s₀ (numPages oldsz)) (n : ℕ) :
    ∀ {a : ℕ} {m : Phys} {s : Space}, numPages oldsz ≤ a → a + n = numPages newsz → Grown m₀ s₀ (numPages oldsz) a 0 m s →
      ∃ r m' s', allocLoop L m s oldsz newsz a n = .ok (r, m', s') ∧
        ((r = newsz ∧ Grown m₀ s₀ (numPages oldsz) (numPages newsz) 0 m' s') ∨
          (r = 0 ∧ Grown m₀ s₀ (numPages oldsz) (numPages oldsz) 0 m' s')) := by
  have hpages := numPages_le (Nat.le_of_lt hlt)
  induction n with
  | zero =>
    intro a m s _ ha h
    rw [← ha]
    exact ⟨newsz, m, s, rfl, .inl ⟨rfl, h⟩⟩
  | succ n ih =>
    intro a m s hlo ha h
    unfold allocLoop
    rcases kalloc_cases m.kmem with ⟨p, k, hk, hlist, -⟩ | ⟨k, hk, hlist, -⟩
    · rw [hk]
      obtain ⟨b, k', s', hmap, htrue, hfalse⟩ :=
        (h.kalloc_some hlist hnodup habove (by omega)).mappages_one hlo (by omega)
      dsimp only
      rw [hmap]
      cases b with
      | true => exact ih (by omega) (by omega) (htrue rfl)
      | false =>
        obtain ⟨_, m', s'', hrun, hback⟩ := (hfalse rfl).undo rfl (by omega) hlt hfine hnodup habove
        have hp : p ∈ (m₀.kmem.freelist : Multiset ℕ) + s₀.pages := by
          rw [← hback.pages]
          exact mem_add.2 (.inl (mem_singleton_self p))
        dsimp only
        rw [hrun]
        dsimp only
        rw [kfree_eq (kfree_fine (hfine p hp))]
        refine ⟨0, _, s'', rfl, .inr ⟨rfl, { hback with pages := ?_, kept := fun q hq => ?_, new := ?_ }⟩⟩
        · rw [← hback.pages, zero_add, ← cons_coe, singleton_add, cons_add]
        · intro x h1 h2
          omega
        · refine (update_of_ne ?_ _ _).trans (hback.kept q hq)
          rintro rfl
          exact hback.fresh hnodup (mem_add.2 (.inl (mem_singleton_self q))) (hback.mem habove hq)
    · rw [hk]
      have h' : Grown m₀ s₀ (numPages oldsz) a 0 ⟨k, m.ram⟩ s := { h with pages := by rw [← h.pages, hlist] }
      obtain ⟨_, m', s', hrun, hback⟩ := h'.undo rfl (by omega) hlt hfine hnodup habove
      dsimp only
      rw [hrun]
      exact ⟨0, m', s', rfl, .inr ⟨rfl, hback⟩⟩

/-- the pages from lo up to hi are mapped to fresh cleared frames, and what was mapped is as it was -/
structure Extended (m : Phys) (s : Space) (lo hi : ℕ) (m' : Phys) (s' : Space) : Prop where
  mapped : ∀ x < KERNBASE, (s'.pte x).isSome ↔ x < hi
  same : ∀ x, x < lo ∨ KERNBASE ≤ x → s'.pte x = s.pte x
  fresh : ∀ x, lo ≤ x → x < hi → ∃ f, s'.pte x = some ⟨f, true, true⟩ ∧ f ∈ m.kmem.freelist ∧ m'.ram f = Bytes.zero PGSIZE
  distinct : ∀ x y e e', x < hi → y < hi → s'.pte x = some e → s'.pte y = some e' → e.frame = e'.frame → x = y
  kept : ∀ x < lo, ∀ e, s.pte x = some e → m'.ram e.frame = m.ram e.frame

/-- all mappings and what is in the mapped pages are as before, and what is missing on the free list are empty page tables -/
structure RolledBack (m : Phys) (s : Space) (m' : Phys) (s' : Space) : Prop where
  pte : s'.pte = s.pte
  kept : ∀ x < KERNBASE, ∀ e, s.pte x = some e → m'.ram e.frame = m.ram e.frame
  tab : ∀ i t, s.tab i = some t → s'.tab i = some t
  free : ∀ p ∈ m.kmem.freelist, p ∈ m'.kmem.freelist ∨
    ∃ i, s.tab i = none ∧ s'.tab i = some p ∧ ∀ x, x / 1024 = i → s'.pte x = none

theorem Grown.extended {hi : ℕ} (h : Grown m₀ s₀ lo hi 0 m s) (hhi : hi ≤ KERNBASE) (hle : lo ≤ hi)
    (hnodup : ((m₀.kmem.freelist : Multiset ℕ) + s₀.pages).Nodup) (hfull : Full s₀ lo) (habove : Above s₀ lo) :
    Extended m₀ s₀ lo hi m s := by
  refine ⟨fun x hx => ⟨fun hsome => ?_, fun hlt => ?_⟩, h.same, fun x h1 h2 => ?_, fun x y e e' hx hy he he' heq => ?_,
    fun x hx e he => h.kept _ (frame_mem_pages (by omega) he)⟩
  · by_contra hge
    rw [h.above x (by omega) hx] at hsome
    cases hsome
  · by_cases hlo : x < lo
    · rw [h.same x (.inl hlo)]
      exact Option.ne_none_iff_isSome.1 (hfull x hlo)
    · obtain ⟨f, hf, -⟩ := h.new x (by omega) hlt
      rw [hf]
      rfl
  · obtain ⟨f, hf, hzero⟩ := h.new x h1 h2
    have hx : x < KERNBASE := by omega
    have hmem : f ∈ (m₀.kmem.freelist : Multiset ℕ) + s₀.pages := by
      rw [← h.pages, zero_add]
      exact mem_add.2 (.inr (frame_mem_pages hx hf))
    refine ⟨f, hf, ?_, hzero⟩
    exact mem_coe.1 ((mem_add.1 hmem).resolve_right (h.added hnodup habove h1 hx hf))
  · exact pte_inj (h.nodup hnodup) (by omega) (by omega) he he' heq

theorem Grown.rolledBack (h : Grown m₀ s₀ lo lo 0 m s) (hs₀ : s₀.Ok)
    (hnodup : ((m₀.kmem.freelist : Multiset ℕ) + s₀.pages).Nodup) (habove : Above s₀ lo) : RolledBack m₀ s₀ m s := by
  have hpte : s.pte = s₀.pte := by
    funext x
    by_cases hx : x < lo ∨ KERNBASE ≤ x
    · exact h.same x hx
    · rw [h.above x (by omega) (by omega), habove x (by omega) (by omega)]
  refine ⟨hpte, fun x hx e he => h.kept _ (frame_mem_pages hx he), h.tab, fun p hp => ?_⟩
  have hmem : p ∈ (m.kmem.freelist : Multiset ℕ) + s.pages := by
    rw [← zero_add ((m.kmem.freelist : Multiset ℕ) + s.pages), h.pages]
    exact mem_add.2 (.inl hp)
  have hout : p ∉ s₀.pages := disjoint_left.1 (nodup_add.1 hnodup).2.2 hp
  rcases mem_add.1 hmem with hfree | hpage
  · exact .inl hfree
  rcases mem_pages.1 hpage with rfl | ⟨i, hi, ht⟩ | ⟨x, hx, e, he, rfl⟩
  · exact absurd (mem_pages.2 (.inl h.dir)) hout
  · have hnone : s₀.tab i = none := by
      cases ht₀ : s₀.tab i with
      | none => rfl
      | some t =>
        rw [h.tab i t ht₀] at ht
        cases ht
        exact absurd (mem_pages.2 (.inr (.inl ⟨i, hi, ht₀⟩))) hout
    refine .inr ⟨i, hnone, ht, fun x hx => ?_⟩
    rw [hpte]
    by_contra hne
    obtain ⟨e, he⟩ := Option.ne_none_iff_exists'.1 hne
    exact hs₀.backed x e he (by rw [hx]; exact hnone)
  · rw [hpte] at he
    exact absurd (frame_mem_pages hx he) hout

theorem Grown.refl (m : Phys) (hs : s.Ok) (habove : Above s lo) : Grown m s lo lo 0 m s :=
  ⟨hs, zero_add _, rfl, fun _ _ => id, fun _ _ => rfl, fun x h1 h2 => absurd h2 (by omega), habove, fun _ _ => rfl⟩

theorem allocuvm_grown (m : Phys) {s : Space} (oldsz newsz : ℕ) (hs : s.Ok) (hfine : Fine L (m.kmem.freelist + s.pages))
    (hnodup : ((m.kmem.freelist : Multiset ℕ) + s.pages).Nodup) (habove : Above s (numPages oldsz)) :
    ∃ r m' s', allocuvm L m s oldsz newsz = .ok (r, m', s') ∧
      ((r = newsz ∧ oldsz ≤ newsz ∧ newsz < KERNBASE * PGSIZE ∧ Grown m s (numPages oldsz) (numPages newsz) 0 m' s') ∨
       (r = 0 ∧ Grown m s (numPages oldsz) (numPages oldsz) 0 m' s') ∨ (newsz < oldsz ∧ r = oldsz ∧ m' = m ∧ s' = s)) := by
  unfold allocuvm
  split_ifs with hbig hless
  · exact ⟨0, m, s, rfl, .inr (.inl ⟨rfl, .refl m hs habove⟩)⟩
  · exact ⟨oldsz, m, s, rfl, .inr (.inr ⟨hless, rfl, rfl, rfl⟩)⟩
  · have hlt : newsz < KERNBASE * PGSIZE := by omega
    have hmono := numPages_mono (show oldsz ≤ newsz by omega)
    obtain ⟨r, m', s', hrun, hres⟩ := allocLoop_spec (L := L) hlt hfine hnodup habove
      (numPages newsz - numPages oldsz) le_rfl (by omega) (.refl m hs habove)
    refine ⟨r, m', s', hrun, ?_⟩
    rcases hres with ⟨hr, hg⟩ | ⟨hr, hg⟩
    · exact .inl ⟨hr, by omega, hlt, hg⟩
    · exact .inr (.inl ⟨hr, hg⟩)

/-- **allocuvm rolls back.** Let exactly the pages below PGROUNDUP(oldsz) be mapped. Whatever kalloc refuses, allocuvm either
returns newsz, with exactly the pages below PGROUNDUP(newsz) mapped, the new ones to fresh cleared frames, and the old ones as
they were; or it returns 0, with every mapping as before and nothing missing on the free list but empty page tables; or newsz is
smaller and it returns oldsz and does nothing. -/
theorem allocuvm_rolls_back (m : Phys) {s : Space} (oldsz newsz : ℕ) (hs : s.Ok) (hfine : Fine L (m.kmem.freelist + s.pages))
    (hnodup : ((m.kmem.freelist : Multiset ℕ) + s.pages).Nodup)
    (hmapped : ∀ x < KERNBASE, (s.pte x).isSome ↔ x < numPages oldsz) :
    ∃ r m' s', allocuvm L m s oldsz newsz = .ok (r, m', s') ∧
      ((r = newsz ∧ oldsz ≤ newsz ∧ Extended m s (numPages oldsz) (numPages newsz) m' s') ∨
       (r = 0 ∧ RolledBack m s m' s') ∨
       (newsz < oldsz ∧ r = oldsz ∧ m' = m ∧ s' = s)) := by
  have habove : Above s (numPages oldsz) := fun x h1 h2 => by
    rw [← Option.not_isSome_iff_eq_none, hmapped x h2]
    omega
  obtain ⟨r, m', s', hrun, hres⟩ := allocuvm_grown m oldsz newsz hs hfine hnodup habove
  refine ⟨r, m', s', hrun, ?_⟩
  rcases hres with ⟨hr, hle, hlt, hg⟩ | ⟨hr, hg⟩ | h
  · have hpages := numPages_le (Nat.le_of_lt hlt)
    have hmono := numPages_mono hle
    have hfull : Full s (numPages oldsz) := fun x hx => Option.ne_none_iff_isSome.2 ((hmapped x (by omega)).2 hx)
    exact .inl ⟨hr, hle, hg.extended hpages hmono hnodup hfull habove⟩
  · exact .inr (.inl ⟨hr, hg.rolledBack hs hnodup habove⟩)
  · exact .inr (.inr h)

/-- after boot, the memory of init grows by a page or stays as it is -/
theorem allocuvm_rolls_back_example : ∃ (s : State) (p : Mem.Proc), s.procs 0 = some p ∧
    ∀ grant ram, ∃ r m' s', allocuvm exampleLayout ⟨⟨s.freelist, grant⟩, ram⟩ p.image.space 4096 8192 = .ok (r, m', s') ∧
      (r = 8192 ∨ r = 0) := by
  obtain ⟨s, p, hb⟩ := booted
  have hmapped : ∀ x < KERNBASE, (p.image.space.pte x).isSome ↔ x < numPages 4096 := by
    intro x hx
    refine ⟨fun hsome => ?_, fun hlt => Option.ne_none_iff_isSome.1 (hb.full x hlt)⟩
    by_contra hge
    rw [hb.ok.above x (by rw [hb.size]; omega) hx] at hsome
    cases hsome
  refine ⟨s, p, hb.proc, fun grant ram => ?_⟩
  obtain ⟨r, m', s', hrun, hres⟩ := allocuvm_rolls_back (L := exampleLayout) ⟨⟨s.freelist, grant⟩, ram⟩ 4096 8192 hb.ok.space
    hb.fine hb.nodup hmapped
  refine ⟨r, m', s', hrun, ?_⟩
  rcases hres with ⟨hr, -⟩ | ⟨hr, -⟩ | ⟨hlt, -⟩
  · exact .inl hr
  · exact .inr hr
  · omega

end Specs

end Xv6.Ram
