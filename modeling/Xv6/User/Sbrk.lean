/-
malloc over the kernel's sbrk.

The allocator asks sys_sbrk for memory, which moves the break of the process with growproc. The number of bytes is a product of
unsigned words and reaches growproc as a signed one. Here the process is both: the heap of its allocator, and the pages and the
size the kernel has for it. Other processes take and give back pages between the calls.

An access beyond the break would fault. All headers in use lie below it, as long as no request is larger than MOST.

- `malloc_returns_enough`: with requests up to MOST, malloc returns 0 or a block that has room for all bytes of the request,
  below the break, in the memory that sbrk has returned, apart from all other blocks and from all headers;
- `wrapped_request_gets_no_room`: malloc(2^32 - 1) returns the break itself, a block with no bytes at all.
-/
import Xv6.Mem.Growth
import Xv6.User.Malloc

namespace Xv6.Malloc

open Lib List
open Xv6.Mem (Layout Kmem Image Panic State Fine growproc growproc_spec growproc_up growproc_grow numPages kernbase_bytes
  exampleLayout Booted booted)

/-! ## Model -/

/-- the heap of the allocator, the free pages of the kernel, and the pages and the size of the process -/
structure Proc where
  heap : Heap
  kmem : Kmem
  image : Image

/-- sys_sbrk: the old size, or -1 -/
def Proc.sbrk (L : Layout) (s : Proc) (n : Word) : Except Panic (Option ℕ × Proc) :=
  match growproc L s.kmem s.image n.toInt with
  | .error p => .error p
  | .ok (k, image, ok) => .ok (if ok then some s.image.sz else none, ⟨s.heap, k, image⟩)

/-- the process, for malloc -/
abbrev platform (L : Layout) : Platform Proc Panic where
  heap := Proc.heap
  setHeap s h := { s with heap := h }
  sbrk s n := s.sbrk L (BitVec.ofNat 32 n)

def Proc.malloc (L : Layout) (base fuel : ℕ) (s : Proc) (nbytes : Word) : Except Panic (Option (Proc × Option ℕ)) :=
  Malloc.malloc (platform L) base fuel s nbytes

/-- the call returns x -/
def Returns {α : Type} (call : ℕ → Except Panic (Option α)) (x : α) : Prop := ∃ k, ∀ fuel, k ≤ fuel → call fuel = .ok (some x)

/-- the largest request whose bytes, with a header, are a positive signed word -/
def MOST : ℕ := 0x7ffffff0

/-- what malloc with requests up to MOST, free, writes to the blocks handed out and the other processes can lead to; lo is the
size of the process before the first call -/
inductive Run (L : Layout) (base lo : ℕ) : Proc → Prop where
  | init {m : Mem} {k : Kmem} {image : Image} (hm : m.freep = 0) (hbase : base + 8 ≤ lo) (hsz : image.sz = lo)
      (hi : image.Ok L) (hf : Fine L (k.freelist + image.space.pages)) : Run L base lo ⟨⟨m, lo, 0, []⟩, k, image⟩
  | malloc {s s' : Proc} {nbytes : Word} {r : Option ℕ} (hr : Run L base lo s) (hn : nbytes.toNat ≤ MOST)
      (hm : Returns (fun fuel => s.malloc L base fuel nbytes) (s', r)) : Run L base lo s'
  | free {s : Proc} {m : Mem} {fuel b : ℕ} (hr : Run L base lo s) (hb : b ∈ s.heap.allocated)
      (hf : free fuel s.heap.m (b + 8) = some m) :
      Run L base lo { s with heap := { s.heap with m := m, allocated := s.heap.allocated.erase b } }
  | write {s : Proc} {m : Mem} (hr : Run L base lo s) (hfreep : m.freep = s.heap.m.freep)
      (hm : ∀ x, ¬ Payload s.heap x → m.ptr x = s.heap.m.ptr x ∧ m.size x = s.heap.m.size x) :
      Run L base lo { s with heap := { s.heap with m := m } }
  | others {s : Proc} {k : Kmem} (hr : Run L base lo s) (hf : Fine L (k.freelist + s.image.space.pages)) :
      Run L base lo { s with kmem := k }

/-! ## sbrk -/

/-- all blocks lie in the memory from lo on -/
structure From (base lo : ℕ) (L al : List ℕ) : Prop where
  free : ∀ a ∈ L, a = base ∨ lo ≤ a
  taken : ∀ b ∈ al, lo ≤ b

/-- the image is in order, and the heap ends at the break -/
structure Proc.Ok (L : Layout) (s : Proc) : Prop where
  image : s.image.Ok L
  fine : Fine L (s.kmem.freelist + s.image.space.pages)
  brk : s.heap.brk = s.image.sz

section Calls

variable {L : Layout} {base lo : ℕ} {s : Proc} {F : List ℕ}

theorem sbrk_eq {n : Word} {i : ℤ} {k : Kmem} {image : Image} (hn : n.toInt = i)
    (hgrow : growproc L s.kmem s.image i = .ok (k, image, true)) : s.sbrk L n = .ok (some s.image.sz, ⟨s.heap, k, image⟩) := by
  unfold Proc.sbrk
  rw [hn, hgrow]
  rfl

/-- **sbrk of a positive number** of bytes moves the break by as many, or fails and leaves it. -/
theorem sbrk_run (hs : s.Ok L) {n : Word} (hn : n.toNat < 2 ^ 31) : ∃ k image, image.Ok L ∧
    Fine L (k.freelist + image.space.pages) ∧ ((s.sbrk L n = .ok (none, ⟨s.heap, k, image⟩) ∧ image.sz = s.image.sz) ∨
        (s.sbrk L n = .ok (some s.image.sz, ⟨s.heap, k, image⟩) ∧ image.sz = s.image.sz + n.toNat)) := by
  have hint : n.toInt = n.toNat := BitVec.toInt_eq_toNat_of_lt (by omega)
  obtain ⟨k, image, b, hrun, hok, hpages, -⟩ := growproc_spec s.kmem hs.image hs.fine (n := n.toInt) (by omega) (by omega)
  obtain ⟨k', image', b', hrun', htrue, hfalse⟩ := growproc_up s.kmem hs.image hs.fine hn
  rw [← hint, hrun] at hrun'
  cases hrun'
  refine ⟨k, image, hok, by rw [hpages]; exact hs.fine, ?_⟩
  unfold Proc.sbrk
  rw [hrun]
  cases b with
  | false => exact .inl ⟨rfl, hfalse rfl⟩
  | true => exact .inr ⟨rfl, (htrue rfl).1⟩

/-- **malloc's invariant**, once freep is set -/
structure Proc.Inv (L : Layout) (base lo : ℕ) (s : Proc) (F : List ℕ) : Prop where
  ok : s.Ok L
  heap : Malloc.Inv base s.heap F
  headers : From base lo F s.heap.allocated
  low : lo ≤ s.heap.brk

/-- **morecore.** It returns 0 and the heap is as before, or there is a free block of nu units. -/
theorem morecore_run (h : s.Inv L base lo F) {nu : ℕ} (hnu : nu * 8 < 2 ^ 31) : ∃ s' k,
    s'.heap.allocated = s.heap.allocated ∧ (∀ b ∈ s.heap.allocated, s'.heap.m.size b = s.heap.m.size b) ∧
      ((s'.heap = s.heap ∧ s'.Inv L base lo F ∧ ∀ fuel, morecore (platform L) fuel s nu = .ok (some (s', none))) ∨
        ∃ F', s'.Inv L base lo F' ∧ (∃ a ∈ F', nu ≤ s'.heap.m.size a) ∧
          ∀ fuel, k ≤ fuel → morecore (platform L) fuel s nu = .ok (some (s', some s'.heap.m.freep))) := by
  generalize hnu' : (if nu < 4096 then 4096 else nu) = nu'
  have hpos : 0 < nu' ∧ nu ≤ nu' ∧ nu' * 8 < 2 ^ 31 := by
    rw [← hnu']
    split_ifs <;> omega
  have hword : (BitVec.ofNat 32 (nu' * 8)).toNat = nu' * 8 := by
    rw [BitVec.toNat_ofNat]
    exact Nat.mod_eq_of_lt (by omega)
  obtain ⟨k, image, hok, hfine, hres⟩ := sbrk_run h.ok (n := BitVec.ofNat 32 (nu' * 8)) (by omega)
  rcases hres with ⟨hrun, hsz⟩ | ⟨hrun, hsz⟩
  · refine ⟨⟨s.heap, k, image⟩, 0, rfl, fun _ _ => rfl, .inl ⟨rfl, ⟨⟨hok, hfine, h.ok.brk.trans hsz.symm⟩, h.heap, h.headers,
      h.low⟩, fun fuel => ?_⟩⟩
    exact morecore_none hnu' hrun
  · have hbrk := h.ok.brk
    have hlow := h.low
    obtain ⟨ha, hb, -⟩ := h.heap.region hbrk.le hpos.1
    obtain ⟨k0, m', hf⟩ := free_total ha hb
    obtain ⟨F', hinv, ⟨a, haF, hfit⟩, hsame, hnew⟩ := h.heap.grown hbrk.le hpos.1 hf
    refine ⟨⟨⟨m', s.image.sz + nu' * 8, s.heap.units + nu', s.heap.allocated⟩, k, image⟩, k0, rfl, hsame,
      .inr ⟨F', ⟨⟨hok, hfine, ?_⟩, hinv, ⟨fun a hmem => ?_, h.headers.taken⟩, show lo ≤ s.image.sz + nu' * 8 by omega⟩,
        ⟨a, haF, hpos.2.1.trans hfit⟩, fun fuel hle => ?_⟩⟩
    · show s.image.sz + nu' * 8 = image.sz
      omega
    · rcases hnew a hmem with hold | hnew
      · exact h.headers.free a hold
      · exact .inr (by omega)
    · obtain ⟨j, rfl⟩ := Nat.exists_eq_add_of_le hle
      exact morecore_eq (y := platform L) (h := s.heap) hnu' hrun rfl (free_mono hf j)

/-! ## malloc -/

/-- malloc has handed out the block b of nunits -/
structure Granted (L : Layout) (base lo nunits : ℕ) (s s' : Proc) (b : ℕ) : Prop where
  inv : ∃ F', s'.Inv L base lo F'
  allocated : s'.heap.allocated = b :: s.heap.allocated
  size : s'.heap.m.size b = nunits
  same : ∀ c ∈ s.heap.allocated, s'.heap.m.size c = s.heap.m.size c

theorem take_run {nunits q p : ℕ} (h : s.Inv L base lo F) (hn : 0 < nunits) (hq : q ∈ F) (hp : s.heap.m.ptr q = p)
    (hfit : nunits ≤ s.heap.m.size p) : ∃ s' b, Granted L base lo nunits s s' b ∧
      ∀ fuel, 1 ≤ fuel → search (platform L) nunits fuel s q p = .ok (some (s', some (b + 8))) := by
  obtain ⟨F', b, ht, hres, hpb, hsub⟩ := take_spec h.heap.arena hn hq hp hfit
  have hinv := ht.inv h.heap
  have hpF : p ∈ F := hp ▸ h.heap.arena.ptr_mem hq
  have hlo : lo ≤ p := by
    refine (h.headers.free p hpF).resolve_left fun heq => ?_
    rw [heq, h.heap.arena.zero] at hfit
    omega
  have hfrom : From base lo F' (s.heap.take nunits q p).1.allocated := by
    refine ⟨fun a ha => h.headers.free a (hsub a ha), fun c hc => ?_⟩
    rw [ht.allocated] at hc
    rcases mem_cons.1 hc with rfl | hc
    · exact hlo.trans hpb
    · exact h.headers.taken c hc
  refine ⟨{ s with heap := (s.heap.take nunits q p).1 }, b, ⟨⟨F', ⟨h.ok.image, h.ok.fine, ht.brk.trans h.ok.brk⟩, hinv, hfrom,
    by rw [ht.brk]; exact h.low⟩, ht.allocated, ht.size, ht.same⟩, fun fuel hfuel => ?_⟩
  obtain ⟨j, rfl⟩ := Nat.exists_eq_add_of_le' hfuel
  rw [search_take (y := platform L) (s := s) rfl hfit, hres]

/-- **The search with a large enough block** needs no more memory. -/
theorem search_finds {nunits : ℕ} (h : s.Inv L base lo F) (hn : 0 < nunits) (hfit : ∃ a ∈ F, nunits ≤ s.heap.m.size a) :
    ∃ s' b k, Granted L base lo nunits s s' b ∧ ∀ fuel, k ≤ fuel →
        search (platform L) nunits fuel s s.heap.m.freep (s.heap.m.ptr s.heap.m.freep) = .ok (some (s', some (b + 8))) := by
  obtain ⟨k, q, p, hq, hp, hres, hrun⟩ := search_round (y := platform L) (s := s) rfl h.heap nunits
  obtain ⟨a, ha, hle⟩ := hfit
  obtain ⟨s', b, hg, hfound⟩ := take_run h hn hq hp (hres.resolve_right fun hall => absurd hle (not_le.2 (hall.2 a ha)))
  refine ⟨s', b, k + 1, hg, fun fuel hle => ?_⟩
  obtain ⟨j, rfl⟩ := Nat.exists_eq_add_of_le' hle
  rw [show j + (k + 1) = (j + 1) + k by omega, hrun]
  exact hfound _ (by omega)

/-- **The loop of malloc** returns 0 and the heap is as before, or it returns a block. -/
theorem search_run {nunits : ℕ} (h : s.Inv L base lo F) (hn : 0 < nunits) (hsmall : nunits * 8 < 2 ^ 31) : ∃ s' r k,
    (∀ fuel, k ≤ fuel → search (platform L) nunits fuel s s.heap.m.freep (s.heap.m.ptr s.heap.m.freep) = .ok (some (s', r))) ∧
      ((r = none ∧ s'.heap = s.heap ∧ s'.Inv L base lo F) ∨ ∃ b, r = some (b + 8) ∧ Granted L base lo nunits s s' b) := by
  obtain ⟨k, q, p, hq, hp, hres, hpass⟩ := search_round (y := platform L) (s := s) rfl h.heap nunits
  rcases hres with hfit | ⟨rfl, hall⟩
  · obtain ⟨s', b, hg, hfound⟩ := take_run h hn hq hp hfit
    refine ⟨s', some (b + 8), k + 1, fun fuel hle => ?_, .inr ⟨b, rfl, hg⟩⟩
    obtain ⟨j, rfl⟩ := Nat.exists_eq_add_of_le' hle
    rw [show j + (k + 1) = (j + 1) + k by omega, hpass]
    exact hfound _ (by omega)
  · have hnofit := not_le.2 (hall _ h.heap.arena.start)
    obtain ⟨s1, k1, hal, hsame, hmore⟩ := morecore_run h hsmall
    rcases hmore with ⟨hheap, hinv, hrun⟩ | ⟨F1, hinv, hfit1, hrun⟩
    · refine ⟨s1, none, k + 1, fun fuel hle => ?_, .inl ⟨rfl, hheap, hinv⟩⟩
      obtain ⟨j, rfl⟩ := Nat.exists_eq_add_of_le' hle
      rw [show j + (k + 1) = (j + 1) + k by omega, hpass]
      exact search_refused rfl hnofit (hrun j)
    · obtain ⟨s', b, k2, hg, hfound⟩ := search_finds hinv hn hfit1
      refine ⟨s', some (b + 8), k1 + k2 + k + 1, fun fuel hle => ?_, .inr ⟨b, rfl, hg.inv, by rw [hg.allocated, hal], hg.size,
        fun c hc => (hg.same c (by rw [hal]; exact hc)).trans (hsame c hc)⟩⟩
      obtain ⟨j, rfl⟩ := Nat.exists_eq_add_of_le' hle
      rw [show j + (k1 + k2 + k + 1) = (j + k1 + k2 + 1) + k by omega, hpass,
        search_more (y := platform L) (s := s) rfl hnofit (hrun _ (by omega))]
      exact hfound _ (by omega)

/-! ## All runs -/

/-- nothing has been allocated yet, or the invariant holds -/
def Proc.Good (L : Layout) (base lo : ℕ) (s : Proc) : Prop :=
  (s.Ok L ∧ s.heap.m.freep = 0 ∧ s.heap.allocated = [] ∧ s.heap.units = 0 ∧ base + 8 ≤ lo ∧ lo ≤ s.heap.brk) ∨
    ∃ F, s.Inv L base lo F

theorem Proc.Good.start (hbase : 0 < base) (hg : s.Good L base lo) :
    ∃ F, Proc.Inv L base lo { s with heap := s.heap.start base } F ∧
      (s.heap.start base).allocated = s.heap.allocated ∧
        ∀ c ∈ s.heap.allocated, (s.heap.start base).m.size c = s.heap.m.size c := by
  rcases hg with ⟨hok, h0, hal, hu, hlow, hbrk⟩ | ⟨F, hi⟩
  · have hstart : s.heap.start base =
        { s.heap with m := ⟨update s.heap.m.ptr base base, update s.heap.m.size base 0, base⟩ } := if_pos h0
    rw [hstart, hal]
    exact ⟨[base], ⟨⟨hok.image, hok.fine, hok.brk⟩, .first hal hu (hlow.trans hbrk),
      ⟨fun a ha => .inl (mem_singleton.1 ha), by rw [hal]; exact nofun⟩, hbrk⟩, rfl, nofun⟩
  · have hne : s.heap.m.freep ≠ 0 := by
      have := hi.heap.arena.base_le hi.heap.arena.start
      omega
    have hstart : s.heap.start base = s.heap := if_neg hne
    rw [hstart]
    exact ⟨F, hi, rfl, fun _ _ => rfl⟩

theorem nunits_small {nbytes : Word} (hn : nbytes.toNat ≤ MOST) :
    nunits nbytes * 8 < 2 ^ 31 ∧ 8 + nbytes.toNat ≤ 8 * nunits nbytes := by
  unfold MOST at hn
  have hsum : (nbytes + 8 - 1).toNat = nbytes.toNat + 7 := by bv_omega
  unfold nunits
  rw [hsum]
  omega

/-- **malloc returns**, 0 or a block. -/
theorem malloc_run (hbase : 0 < base) (hg : s.Good L base lo) {nbytes : Word} (hn : nbytes.toNat ≤ MOST) : ∃ s' r,
    Returns (fun fuel => s.malloc L base fuel nbytes) (s', r) ∧ s'.Good L base lo ∧
      (r = none ∨ ∃ b, r = some (b + 8) ∧ Granted L base lo (nunits nbytes) s s' b) := by
  obtain ⟨F, hinv, hal, hsame⟩ := hg.start hbase
  obtain ⟨s', r, k, hrun, hres⟩ := search_run hinv (nunits_pos nbytes) (nunits_small hn).1
  refine ⟨s', r, ⟨k, hrun⟩, ?_⟩
  rcases hres with ⟨hr, -, hinv'⟩ | ⟨b, hr, hgr⟩
  · exact ⟨.inr ⟨F, hinv'⟩, .inl hr⟩
  · refine ⟨.inr hgr.inv, .inr ⟨b, hr, hgr.inv, by rw [hgr.allocated]; exact congrArg _ hal, hgr.size, fun c hc => ?_⟩⟩
    exact (hgr.same c (show c ∈ (s.heap.start base).allocated by rw [hal]; exact hc)).trans (hsame c hc)

theorem Returns.unique {α : Type} {call : ℕ → Except Panic (Option α)} {x y : α} (hx : Returns call x) (hy : Returns call y) :
    x = y := by
  obtain ⟨i, hi⟩ := hx
  obtain ⟨j, hj⟩ := hy
  have h := hi (max i j) (le_max_left i j)
  rw [hj (max i j) (le_max_right i j)] at h
  exact (Option.some.inj (Except.ok.inj h)).symm

theorem Proc.Inv.freed (h : s.Inv L base lo F) {m : Mem} {fuel b : ℕ} (hb : b ∈ s.heap.allocated)
    (hf : Malloc.free fuel s.heap.m (b + 8) = some m) :
    ∃ F', Proc.Inv L base lo { s with heap := { s.heap with m := m, allocated := s.heap.allocated.erase b } } F' := by
  obtain ⟨F', hinv, hnew⟩ := h.heap.freed hb hf
  refine ⟨F', ⟨h.ok.image, h.ok.fine, h.ok.brk⟩, hinv, ⟨fun a ha => ?_, fun c hc => ?_⟩, h.low⟩
  · rcases hnew a ha with hold | rfl
    · exact h.headers.free a hold
    · exact .inr (h.headers.taken a hb)
  · exact h.headers.taken c (mem_of_mem_erase hc)

/-- **Every run** keeps the invariant. -/
theorem run_good (hbase : 0 < base) (hr : Run L base lo s) : s.Good L base lo := by
  induction hr with
  | init hm hbase hsz hi hf => exact .inl ⟨⟨hi, hf, hsz.symm⟩, hm, rfl, rfl, hbase, le_rfl⟩
  | malloc _ hn hm ih =>
    obtain ⟨s2, r2, hret, hgood, -⟩ := malloc_run hbase ih hn
    have heq := hm.unique hret
    cases heq
    exact hgood
  | free _ hb hf ih =>
    rcases ih with ⟨-, -, hal, -⟩ | ⟨F, hi⟩
    · rw [hal] at hb
      cases hb
    · exact .inr (hi.freed hb hf)
  | write _ hfreep hm ih =>
    rcases ih with ⟨hok, h0, hal, hu, hlow, hbrk⟩ | ⟨F, hi⟩
    · exact .inl ⟨⟨hok.image, hok.fine, hok.brk⟩, hfreep.trans h0, hal, hu, hlow, hbrk⟩
    · exact .inr ⟨F, ⟨hi.ok.image, hi.ok.fine, hi.ok.brk⟩, hi.heap.written hfreep hm, hi.headers, hi.low⟩
  | others _ hf ih =>
    rcases ih with ⟨hok, h0, hal, hu, hlow, hbrk⟩ | ⟨F, hi⟩
    · exact .inl ⟨⟨hok.image, hf, hok.brk⟩, h0, hal, hu, hlow, hbrk⟩
    · exact .inr ⟨F, ⟨hi.ok.image, hf, hi.ok.brk⟩, hi.heap, hi.headers, hi.low⟩

end Calls

/-- **malloc returns enough memory or 0**, if no request is larger than MOST: all bytes of the request lie in the memory that
sbrk has added to the process, and in no other block and no header. -/
theorem malloc_returns_enough (L : Layout) (base lo : ℕ) (hbase : 0 < base) (s : Proc) (hr : Run L base lo s) (nbytes : Word)
    (hn : nbytes.toNat ≤ MOST) : ∃ s' r, Returns (fun fuel => s.malloc L base fuel nbytes) (s', r) ∧
      (r = none ∨ ∃ b, r = some (b + 8) ∧ s'.heap.allocated = b :: s.heap.allocated ∧
        lo ≤ b ∧ b + 8 + nbytes.toNat ≤ s'.image.sz ∧ (∀ c ∈ s.heap.allocated, s'.heap.m.size c = s.heap.m.size c ∧
          (s.heap.m.past c ≤ b ∨ b + 8 + nbytes.toNat ≤ c)) ∧
        ∀ i, s'.heap.m.ptr^[i] s'.heap.m.freep + 8 ≤ b ∨ b + 8 + nbytes.toNat ≤ s'.heap.m.ptr^[i] s'.heap.m.freep) := by
  obtain ⟨s', r, hret, -, hres⟩ := malloc_run hbase (run_good hbase hr) hn
  refine ⟨s', r, hret, hres.imp_right ?_⟩
  rintro ⟨b, hb, ⟨F, hinv⟩, hal, hsize, hsame⟩
  have ha := hinv.heap.arena
  have hbmem : b ∈ s'.heap.allocated := by
    rw [hal]
    exact mem_cons_self
  obtain ⟨hlow, hpos, htop⟩ := ha.taken b hbmem
  have hroom : b + 8 + nbytes.toNat ≤ s'.heap.m.past b := by
    have := (nunits_small hn).2
    unfold Mem.past
    rw [hsize]
    omega
  refine ⟨b, hb, hal, hinv.headers.taken b hbmem, ?_, fun c hc => ⟨hsame c hc, ?_⟩, fun i => ?_⟩
  · rw [← hinv.ok.brk]
    omega
  · have hap := ha.alApart
    rw [hal] at hap
    rcases (pairwise_cons.1 hap).1 c hc with hlt | hlt
    · exact .inr (hroom.trans hlt)
    · rw [Mem.past_congr (hsame c hc)] at hlt
      exact .inl hlt
  · have hmem : s'.heap.m.ptr^[i] s'.heap.m.freep ∈ F := by
      induction i with
      | zero => exact ha.start
      | succ i ih =>
        rw [Function.iterate_succ_apply']
        exact ha.ptr_mem ih
    generalize s'.heap.m.ptr^[i] s'.heap.m.freep = a at hmem
    rcases ha.apart b hbmem a hmem with hlt | hlt
    · refine .inl ?_
      rcases ha.block a hmem with rfl | ⟨-, hsz⟩
      · exact hlow
      · unfold Mem.past at hlt
        omega
    · exact .inr (hroom.trans hlt)

/-- a process of one page whose program has not called malloc yet -/
def newProc (k : Kmem) (image : Image) : Proc := ⟨⟨⟨fun _ => 0, fun _ => 0, 0⟩, 4096, 0, []⟩, k, image⟩

theorem newProc_run {t : State} {p : Xv6.Mem.Proc} (hb : Booted t p) (grant : ℕ → Bool) :
    Run exampleLayout 100 4096 (newProc ⟨t.freelist, grant⟩ p.image) := .init rfl (by decide) hb.size hb.ok hb.fine

/-- malloc(1) of that process -/
theorem malloc_returns_enough_example : ∃ s, Run exampleLayout 100 4096 s ∧
    ∃ s' r, Returns (fun fuel => s.malloc exampleLayout 100 fuel 1) (s', r) ∧
      ∀ b, r = some (b + 8) → 4096 ≤ b ∧ b + 9 ≤ s'.image.sz := by
  obtain ⟨t, p, hb⟩ := booted
  have hrun := newProc_run hb fun _ => true
  obtain ⟨s', r, hret, hres⟩ := malloc_returns_enough exampleLayout 100 4096 (by decide) _ hrun 1 (by decide)
  refine ⟨_, hrun, s', r, hret, fun b hr => ?_⟩
  rcases hres with hnone | ⟨c, hc, -, hlo, htop, -⟩
  · rw [hnone] at hr
    cases hr
  · have hbc := Option.some.inj (hc.symm.trans hr)
    have hone : (1 : Word).toNat = 1 := rfl
    omega

/-- its heap when malloc starts, with base at 100 alone -/
def noRegion : Heap := ⟨⟨update (fun _ => 0) 100 100, update (fun _ => 0) 100 0, 100⟩, 4096, 0, []⟩

/-- and with the first region, of 4096 units -/
def oneRegion : Heap where
  m := ⟨update (update (update (fun _ => 0) 100 100) 4096 100) 100 4096,
    update (update (fun _ => 0) 100 0) 4096 4096, 100⟩
  brk := 4096 + 4096 * 8
  units := noRegion.units + 4096
  allocated := noRegion.allocated

theorem free_oneRegion (j : ℕ) :
    free (j + 1) ⟨noRegion.m.ptr, update noRegion.m.size 4096 4096, noRegion.m.freep⟩ (4096 + 8) = some oneRegion.m := by
  rfl

/-- **malloc(2^32 - 1)**: nbytes + 7 wraps, so a header alone is taken for enough, and the block starts where the memory of the
process ends. -/
theorem wrapped_request_gets_no_room : ∃ s, Run exampleLayout 100 4096 s ∧
    ∃ s', Returns (fun fuel => s.malloc exampleLayout 100 fuel 0xffffffff) (s', some s'.image.sz) := by
  obtain ⟨t, p, hb⟩ := booted
  refine ⟨_, newProc_run hb fun _ => true, ?_⟩
  have hsz := hb.size
  have hroom := hb.room
  obtain ⟨k', sp, hgrow, -⟩ := growproc_grow (k := ⟨t.freelist, fun _ => true⟩) (n := 32768) (fun _ => rfl) hb.ok hb.fine
    (by norm_num) (by rw [hsz, kernbase_bytes]; norm_num) (by rw [hsz]; unfold numPages; dsimp only; omega)
  unfold newProc
  generalize (⟨t.freelist, fun _ => true⟩ : Kmem) = k, p.image = image at hgrow hsz ⊢
  rw [hsz, show 4096 + 32768 = 36864 by norm_num] at hgrow
  have hsbrk : Proc.sbrk exampleLayout ⟨noRegion, k, image⟩ (BitVec.ofNat 32 (4096 * 8)) =
      .ok (some 4096, ⟨noRegion, k', ⟨sp, 36864⟩⟩) := by
    have h := sbrk_eq (s := ⟨noRegion, k, image⟩) (n := BitVec.ofNat 32 (4096 * 8)) (by decide) hgrow
    rw [h]
    exact congrArg (fun sz => Except.ok (some sz, _)) hsz
  refine ⟨⟨(oneRegion.take 1 100 4096).1, k', ⟨sp, 36864⟩⟩, 2, fun fuel hle => ?_⟩
  obtain ⟨j, rfl⟩ := Nat.exists_eq_add_of_le' hle
  have hmore := morecore_eq (y := platform exampleLayout) (if_pos (show 1 < 4096 by norm_num)) hsbrk rfl (free_oneRegion j)
  have hnu : nunits 0xffffffff = 1 := by decide
  have htake : (oneRegion.take 1 100 4096).2 = some 36864 := by decide
  show search (platform exampleLayout) (nunits 0xffffffff) (j + 1 + 1) ⟨noRegion, k, image⟩ 100 noRegion.m.freep = _
  rw [hnu]
  refine (search_more (h := noRegion) rfl (show ¬ 1 ≤ noRegion.m.size noRegion.m.freep by decide) hmore).trans ?_
  show search (platform exampleLayout) 1 (j + 1) ⟨oneRegion, k', ⟨sp, 36864⟩⟩ 100 4096 = _
  refine (search_take rfl (show 1 ≤ oneRegion.m.size 4096 by decide)).trans ?_
  exact congrArg (fun r => Except.ok (some (_, r))) htake

end Xv6.Malloc
