/-
The image of a process: growproc (proc.c) and exec (exec.c), with loaduvm, uva2ka and copyout (vm.c).

What exec reads of the file is given: whether it is an ELF file, its program headers, and which reads of a segment succeed. Of
the argument strings only the lengths matter. uva2ka does not test what walkpgdir returns. The kernel is compiled with -O2, and
where the result is 0 the compiled uva2ka ends in ud2 (kernel.asm, copyout.cold): the trap stops the kernel.

- `growproc_spec`: what sbrk maps and frees, for every n;
- `exec_spec`: exec replaces the image by a complete one or leaves it as it was, and loses no page, unless the kernel stops at
  an argument pushed to an address between the physical memory and the devices.
-/
import Xv6.Mem.Vm

namespace Xv6.Mem

open Lib Multiset

/-! ## Model -/

def MAXARG : ℕ := 32

/-- pgdir and sz of a process -/
structure Image where
  space : Space
  sz : ℕ

/-- growproc, and whether it returns 0 -/
def growproc (L : Layout) (k : Kmem) (cur : Image) (n : ℤ) : Except Panic (Kmem × Image × Bool) :=
  let newsz := (((cur.sz : ℤ) + n) % 2 ^ 32).toNat
  if n > 0 then
    match allocuvm L k cur.space cur.sz newsz with
    | .error p => .error p
    | .ok (sz, k, s) => if sz = 0 then .ok (k, ⟨s, cur.sz⟩, false) else .ok (k, ⟨s, sz⟩, true)
  else if n < 0 then
    match deallocuvm L k cur.space cur.sz newsz with
    | .error p => .error p
    | .ok (sz, k, s) => if sz = 0 then .ok (k, ⟨s, cur.sz⟩, false) else .ok (k, ⟨s, sz⟩, true)
  else .ok (k, cur, true)

/-- uva2ka at virtual page v; without a page table walkpgdir returns 0, and reading the entry there is a fault -/
def uva2ka (s : Space) (v : ℕ) : Except Panic (Option ℕ) :=
  match s.tab (v / 1024) with
  | none => .error .trap
  | some _ =>
    match s.pte v with
    | none => .ok none
    | some e => if e.u = false then .ok none else .ok (some e.frame)

/-- the loop of copyout over n pages: whether it returns 0, and the pages it wrote to -/
def copyLoop (s : Space) (v : ℕ) : ℕ → Except Panic (Bool × List ℕ)
  | 0 => .ok (true, [])
  | n + 1 =>
    match uva2ka s v with
    | .error p => .error p
    | .ok none => .ok (false, [])
    | .ok (some pa) =>
      match copyLoop s ((v + 1) % TOP) n with
      | .error p => .error p
      | .ok (b, l) => .ok (b, pa :: l)

@[irreducible] def copyout (s : Space) (va len : ℕ) : Except Panic (Bool × List ℕ) :=
  copyLoop s (va / 4096) (if len = 0 then 0 else numPages (va % 4096 + len))

structure Phdr where
  /-- type == ELF_PROG_LOAD -/
  load : Bool
  vaddr : Word
  memsz : Word
  filesz : Word
  /-- whether readi delivers page i of the segment -/
  read : ℕ → Bool

structure ElfFile where
  /-- the file exists, its header can be read and has the magic number -/
  elf : Bool
  /-- the program headers, none where readi fails -/
  phdrs : List (Option Phdr)

/-- loaduvm, n more pages from page i of the segment at virtual page v on; false for -1 -/
def loaduvm (s : Space) (read : ℕ → Bool) (v i : ℕ) : ℕ → Except Panic Bool
  | 0 => .ok true
  | n + 1 =>
    match s.tab ((v + i) / 1024) with
    | none => .error .addressShouldExist
    | some _ => if read i then loaduvm s read v (i + 1) n else .ok false

/-- the loop of exec over the program headers; none for the jump to bad -/
def loadSegments (L : Layout) (k : Kmem) (s : Space) (sz : ℕ) : List (Option Phdr) →
    Except Panic (Option ℕ × Kmem × Space)
  | [] => .ok (some sz, k, s)
  | none :: _ => .ok (none, k, s)
  | some ph :: rest =>
    if ph.load = false then loadSegments L k s sz rest
    else if ph.memsz < ph.filesz then .ok (none, k, s)
    else if ph.vaddr + ph.memsz < ph.vaddr then .ok (none, k, s)
    else
      match allocuvm L k s sz (ph.vaddr + ph.memsz).toNat with
      | .error p => .error p
      | .ok (sz, k, s) =>
        if sz = 0 then .ok (none, k, s)
        else if ph.vaddr.toNat % 4096 ≠ 0 then .ok (none, k, s)
        else
          match loaduvm s ph.read (ph.vaddr.toNat / 4096) 0 (numPages ph.filesz.toNat) with
          | .error p => .error p
          | .ok false => .ok (none, k, s)
          | .ok true => loadSegments L k s sz rest

/-- sp = (sp - (strlen + 1)) & ~3 -/
@[irreducible] def push (sp len : ℕ) : ℕ := (sp + 2 ^ 32 - (len + 1)) % 2 ^ 32 / 4 * 4

/-- go on with the next argument after a copyout, unless it failed -/
def thenPush (x : Except Panic (Bool × List ℕ)) (y : Except Panic (Option (ℕ × ℕ) × List ℕ)) :
    Except Panic (Option (ℕ × ℕ) × List ℕ) :=
  match x with
  | .error p => .error p
  | .ok (false, l) => .ok (none, l)
  | .ok (true, l) =>
    match y with
    | .error p => .error p
    | .ok (r, l') => .ok (r, l ++ l')

/-- the loop of exec over the arguments: argc and sp, or none for the jump to bad, and the pages written to -/
def pushArgs (s : Space) (argc sp : ℕ) : List ℕ → Except Panic (Option (ℕ × ℕ) × List ℕ)
  | [] => .ok (some (argc, sp), [])
  | len :: rest =>
    if argc ≥ MAXARG then .ok (none, [])
    else thenPush (copyout s (push sp len) (len + 1)) (pushArgs s (argc + 1) (push sp len) rest)

/-- the size of ustack: return address, argc, argv pointer, and the argument pointers with their 0 -/
@[irreducible] def ustackBytes (argc : ℕ) : ℕ := (3 + argc + 1) * 4

/-- sp -= (3 + argc + 1) * 4 -/
@[irreducible] def pushStack (sp argc : ℕ) : ℕ := (sp + 2 ^ 32 - ustackBytes argc) % 2 ^ 32

/-- the writes l, then those of a copyout -/
def andWrites (l : List ℕ) (x : Except Panic (Bool × List ℕ)) : Except Panic (Bool × List ℕ) :=
  match x with
  | .error p => .error p
  | .ok (b, l') => .ok (b, l ++ l')

/-- the arguments, then ustack -/
@[irreducible] def pushAll (s : Space) (sz : ℕ) (args : List ℕ) : Except Panic (Bool × List ℕ) :=
  match pushArgs s 0 sz args with
  | .error p => .error p
  | .ok (none, l) => .ok (false, l)
  | .ok (some (argc, sp), l) => andWrites l (copyout s (pushStack sp argc) (ustackBytes argc))

/-- the label bad: the new address space is freed, the image stays -/
def execBad (L : Layout) (k : Kmem) (s : Space) (cur : Image) (l : List ℕ) : Except Panic (Kmem × Image × List ℕ) :=
  match freevm L k s with
  | .error p => .error p
  | .ok k => .ok (k, cur, l)

/-- exec from the end of the transaction on: whether it returns 0, the image of the process, and the pages copyout wrote to -/
def finish (L : Layout) (k : Kmem) (s : Space) (sz : ℕ) (cur : Image) (args : List ℕ) :
    Except Panic (Bool × Kmem × Image × List ℕ) :=
  match allocuvm L k s (numPages sz * PGSIZE) (numPages sz * PGSIZE + 2 * PGSIZE) with
  | .error p => .error p
  | .ok (sz, k, s) =>
    if sz = 0 then (execBad L k s cur []).map (false, ·)
    else
      match clearpteu s (sz / 4096 - 2) with
      | .error p => .error p
      | .ok s =>
        match pushAll s sz args with
        | .error p => .error p
        | .ok (false, l) => (execBad L k s cur l).map (false, ·)
        | .ok (true, l) =>
          match freevm L k cur.space with
          | .error p => .error p
          | .ok k => .ok (true, k, ⟨s, sz⟩, l)

/-- exec: the new image of the process, and the pages copyout wrote to -/
def exec (L : Layout) (k : Kmem) (cur : Image) (file : ElfFile) (args : List ℕ) : Except Panic (Kmem × Image × List ℕ) :=
  if file.elf = false then .ok (k, cur, [])
  else
    match setupkvm L k with
    | .error p => .error p
    | .ok (none, k) => .ok (k, cur, [])
    | .ok (some s, k) =>
      match loadSegments L k s 0 file.phdrs with
      | .error p => .error p
      | .ok (none, k, s) => execBad L k s cur []
      | .ok (some sz, k, s) => (finish L k s sz cur args).map Prod.snd

/-! ## What is mapped -/

/-- nothing is mapped from virtual page m up to the kernel -/
def Above (s : Space) (m : ℕ) : Prop := ∀ x, m ≤ x → x < KERNBASE → s.pte x = none

/-- all of the first m virtual pages are mapped -/
def Full (s : Space) (m : ℕ) : Prop := ∀ x < m, s.pte x ≠ none

variable {L : Layout} {s : Space} {sz m len sp : ℕ} {cur : Image} {k : Kmem} {args l : List ℕ}

theorem Space.Kvm.congr {s' : Space} (h : s.Kvm L) (hpte : ∀ x, KERNBASE ≤ x → s'.pte x = s.pte x) :
    s'.Kvm L := fun m hm x h1 h2 => by
  rw [hpte x ((kernbase_le_virt hm).trans h1)]
  exact h m hm x h1 h2

/-- an image as the kernel keeps it -/
structure Image.Ok (L : Layout) (m : Image) : Prop where
  space : m.space.Ok
  kvm : m.space.Kvm L
  lt : m.sz < KERNBASE * PGSIZE
  above : Above m.space (numPages m.sz)

theorem kernbase_bytes : KERNBASE * PGSIZE = 2 ^ 31 := by
  unfold KERNBASE PGSIZE
  rfl

theorem Image.Ok.empty (hs : s.Ok) (hkvm : s.Kvm L) (hempty : ∀ x < KERNBASE, s.pte x = none) : Image.Ok L ⟨s, 0⟩ := by
  refine ⟨hs, hkvm, ?_, fun x _ hx => hempty x hx⟩
  rw [kernbase_bytes]
  norm_num

theorem full_zero (s : Space) : Full s (numPages 0) := fun x hx => by
  rw [numPages_zero] at hx
  omega

theorem newsz_cases {n : ℤ} (hsz : sz < KERNBASE * PGSIZE) (h1 : -2 ^ 31 ≤ n) (h2 : n < 2 ^ 31) :
    (0 ≤ sz + n ∧ (((sz : ℤ) + n) % 2 ^ 32).toNat = (sz + n).toNat) ∨ (sz + n < 0 ∧ sz ≤ (((sz : ℤ) + n) % 2 ^ 32).toNat) := by
  simp only [KERNBASE, PGSIZE] at hsz
  omega

/-- **growproc.** It loses no page and keeps the image in order; and unless it was asked to give up everything, the pages
below sz stay complete. -/
theorem growproc_spec (k : Kmem) (h : cur.Ok L) (hfine : Fine L (k.freelist + cur.space.pages)) {n : ℤ} (h1 : -2 ^ 31 ≤ n)
    (h2 : n < 2 ^ 31) : ∃ k' m b, growproc L k cur n = .ok (k', m, b) ∧ m.Ok L ∧
      (k'.freelist : Multiset ℕ) + m.space.pages = k.freelist + cur.space.pages ∧
      (Full cur.space (numPages cur.sz) → 0 < cur.sz → (cur.sz : ℤ) + n ≠ 0 → Full m.space (numPages m.sz) ∧ 0 < m.sz) := by
  have hcases := newsz_cases h.lt h1 h2
  unfold growproc
  dsimp only
  generalize (((cur.sz : ℤ) + n) % 2 ^ 32).toNat = newsz at hcases ⊢
  by_cases hp : n > 0
  · rw [if_pos hp]
    obtain ⟨r, k', s', hrun, hs', hacc, hsame, hres, -⟩ := allocuvm_spec k cur.space cur.sz newsz h.space hfine h.above
    have hkvm := h.kvm.congr fun x hx => hsame x (.inr hx)
    rw [hrun]
    rcases hres with ⟨hr, hlt, hmid, hhigh⟩ | ⟨hr, hhigh⟩
    · have hne : r ≠ 0 := by omega
      dsimp only
      rw [if_neg hne]
      refine ⟨k', ⟨s', r⟩, true, rfl, ⟨hs', hkvm, ?_, hhigh⟩, hacc,
        fun hfull hpos _ => ⟨fun x hx => ?_, Nat.pos_of_ne_zero hne⟩⟩
      · have := h.lt
        show r < _
        omega
      · by_cases hlow : x < numPages cur.sz
        · rw [hsame x (.inl hlow)]
          exact hfull x hlow
        · obtain ⟨e, he, -⟩ := hmid x (by omega) hx
          dsimp only
          rw [he]
          nofun
    · dsimp only
      rw [if_pos hr]
      refine ⟨k', ⟨s', cur.sz⟩, false, rfl, ⟨hs', hkvm, h.lt, hhigh⟩, hacc, fun hfull hpos _ => ⟨fun x hx => ?_, hpos⟩⟩
      rw [hsame x (.inl hx)]
      exact hfull x hx
  · rw [if_neg hp]
    by_cases hn : n < 0
    · rw [if_pos hn]
      obtain ⟨k', s', hrun, hs', htab, hdir, hacc, hpte, -⟩ :=
        deallocuvm_spec k cur.space newsz (Nat.le_of_lt h.lt) h.space hfine
      have hkvm : s'.Kvm L := h.kvm.congr fun x hx => by
        have := numPages_le (Nat.le_of_lt h.lt)
        rw [hpte x, if_neg (by omega)]
      rw [hrun]
      dsimp only
      by_cases hge : newsz ≥ cur.sz
      · have hsame : s'.pte = cur.space.pte := funext fun x => by
          have := numPages_mono hge
          rw [hpte x, if_neg (by omega)]
        have habove : Above s' (numPages cur.sz) := fun x hx1 hx2 => by rw [hsame]; exact h.above x hx1 hx2
        rw [if_pos hge]
        by_cases hz : cur.sz = 0
        · rw [if_pos hz]
          exact ⟨k', ⟨s', cur.sz⟩, false, rfl, ⟨hs', hkvm, h.lt, habove⟩, hacc, fun _ hpos => absurd hpos (by omega)⟩
        · rw [if_neg hz]
          refine ⟨k', ⟨s', cur.sz⟩, true, rfl, ⟨hs', hkvm, h.lt, habove⟩, hacc, fun hfull hpos _ => ⟨?_, hpos⟩⟩
          intro x hx
          rw [hsame]
          exact hfull x hx
      · rw [if_neg hge]
        have habove : ∀ m, newsz ≤ m → Above s' (numPages m) := fun m hm x hx1 hx2 => by
          have := numPages_mono hm
          rw [hpte x]
          split_ifs with hx
          · rfl
          · exact h.above x (by omega) hx2
        by_cases hz : newsz = 0
        · rw [if_pos hz]
          exact ⟨k', ⟨s', cur.sz⟩, false, rfl, ⟨hs', hkvm, h.lt, habove _ (by omega)⟩, hacc,
            fun _ _ hne => absurd hne (by omega)⟩
        · rw [if_neg hz]
          have hlt : newsz < KERNBASE * PGSIZE := by
            have := h.lt
            omega
          refine ⟨k', ⟨s', newsz⟩, true, rfl, ⟨hs', hkvm, hlt, habove _ le_rfl⟩, hacc,
            fun hfull hpos _ => ⟨?_, Nat.pos_of_ne_zero hz⟩⟩
          intro x hx
          have hmono := numPages_mono (show newsz ≤ cur.sz by omega)
          dsimp only at hx ⊢
          rw [hpte x, if_neg (by omega)]
          exact hfull x (by omega)
    · rw [if_neg hn]
      exact ⟨k, cur, true, rfl, h, rfl, fun hfull hpos _ => ⟨hfull, hpos⟩⟩

/-- asked to give up everything, growproc frees all pages and fails, and sz stays -/
theorem growproc_to_zero (k : Kmem) (h : cur.Ok L) (hfine : Fine L (k.freelist + cur.space.pages)) (hpos : 0 < cur.sz) :
    ∃ k' s', growproc L k cur (-cur.sz) = .ok (k', ⟨s', cur.sz⟩, false) ∧ ∀ x < numPages cur.sz, s'.pte x = none := by
  obtain ⟨k', s', hrun, -, -, -, -, hpte, -⟩ := deallocuvm_spec k cur.space 0 (Nat.le_of_lt h.lt) h.space hfine
  have hzero : (((cur.sz : ℤ) + -cur.sz) % 2 ^ 32).toNat = 0 := by
    rw [add_neg_cancel]
    rfl
  unfold growproc
  dsimp only
  rw [hzero, if_neg (by omega), if_pos (by omega), hrun, if_neg (by omega)]
  refine ⟨k', s', rfl, fun x hx => ?_⟩
  rw [hpte x, if_pos ⟨by rw [numPages_zero]; exact Nat.zero_le x, hx⟩]

theorem growproc_grow (hg : Generous k) (h : cur.Ok L) (hfine : Fine L (k.freelist + cur.space.pages)) {n : ℕ} (hn : 0 < n)
    (hlt : cur.sz + n < KERNBASE * PGSIZE) (hroom : 1026 + numPages (cur.sz + n) < k.freelist.length) :
    ∃ k' s', growproc L k cur n = .ok (k', ⟨s', cur.sz + n⟩, true) ∧
      k.freelist.length ≤ k'.freelist.length + 1025 + numPages (cur.sz + n) := by
  obtain ⟨r, k', s', hrun, -, hacc, -, hres, hgen⟩ := allocuvm_spec k cur.space cur.sz (cur.sz + n) h.space hfine h.above
  have hr : r = cur.sz + n := by
    rw [(hgen hg).2 hlt (by rw [card_add, coe_card]; omega)]
    omega
  have hnew : (((cur.sz : ℤ) + n) % 2 ^ 32).toNat = cur.sz + n := by
    rw [kernbase_bytes] at hlt
    omega
  have hcard : Multiset.card s'.pages ≤ 1025 + numPages (cur.sz + n) := by
    refine card_pages_le _ fun x h1 h2 => ?_
    rcases hres with ⟨-, -, -, hhigh⟩ | ⟨hz, -⟩
    · exact hhigh x (by rw [hr]; exact h1) h2
    · omega
  have hsum := congrArg Multiset.card hacc
  rw [card_add, card_add, coe_card, coe_card] at hsum
  unfold growproc
  dsimp only
  rw [hnew, if_pos (by omega), hrun]
  dsimp only
  rw [if_neg (by omega), hr]
  exact ⟨k', s', rfl, by omega⟩

/-! ## copyout -/

/-- the user frames of an address space -/
def Space.HasFrame (s : Space) (p : ℕ) : Prop := ∃ x < KERNBASE, ∃ e, s.pte x = some e ∧ e.frame = p

/-- the image exec has built when it pushes the arguments: m pages, the last one for the user, the one before it not -/
structure Fresh (L : Layout) (s : Space) (m : ℕ) : Prop where
  ok : s.Ok
  kvm : s.Kvm L
  two : 2 ≤ m
  lt : m < KERNBASE
  full : Full s m
  guard : ∀ e, s.pte (m - 2) = some e → e.u = false
  stack : ∀ e, s.pte (m - 1) = some e → e.u = true
  above : Above s m

theorem uva2ka_of_pte (hs : s.Ok) {v : ℕ} {e : Pte} (he : s.pte v = some e) :
    uva2ka s v = .ok (if e.u then some e.frame else none) := by
  unfold uva2ka
  cases ht : s.tab (v / 1024) with
  | none => exact absurd ht (hs.backed v e he)
  | some t =>
    rw [he]
    cases hu : e.u with
    | true | false => simp [hu]

theorem copyLoop_user (hs : s.Ok) (hm : m ≤ KERNBASE) (hfull : Full s m) (n : ℕ) :
    ∀ v, v + n ≤ m → ∃ b l, copyLoop s v n = .ok (b, l) ∧ (∀ p ∈ l, s.HasFrame p) ∧
      (b = true ↔ ∀ x, v ≤ x → x < v + n → ∃ e, s.pte x = some e ∧ e.u = true) := by
  induction n with
  | zero =>
    intro v _
    exact ⟨true, [], rfl, fun p hp => absurd hp List.not_mem_nil, fun _ x h1 h2 => absurd h2 (by omega), fun _ => rfl⟩
  | succ n ih =>
    intro v hv
    obtain ⟨e, he⟩ := Option.ne_none_iff_exists'.1 (hfull v (by omega))
    unfold copyLoop
    rw [uva2ka_of_pte hs he]
    cases hu : e.u with
    | false =>
      refine ⟨false, [], rfl, fun p hp => absurd hp List.not_mem_nil, nofun, fun hall => ?_⟩
      obtain ⟨e', he', hu'⟩ := hall v le_rfl (by omega)
      rw [he] at he'
      cases he'
      exact absurd (hu.symm.trans hu') Bool.false_ne_true
    | true =>
      have hmod : (v + 1) % TOP = v + 1 := by
        simp only [TOP, KERNBASE] at *
        omega
      obtain ⟨b, l, hrun, hl, hb⟩ := ih (v + 1) (by omega)
      rw [if_pos rfl]
      dsimp only
      rw [hmod, hrun]
      refine ⟨b, e.frame :: l, rfl, fun p hp => ?_, fun hb' x h1 h2 => ?_, fun hall => hb.2 fun x h1 h2 => hall x ?_ ?_⟩
      · rcases List.mem_cons.1 hp with rfl | hp
        · exact ⟨v, by omega, e, he, rfl⟩
        · exact hl p hp
      · by_cases hx : x = v
        · rw [hx]
          exact ⟨e, he, hu⟩
        · exact hb.1 hb' x (by omega) (by omega)
      · omega
      · omega

/-- between the physical memory and the devices there is no page table -/
def Hole (va : ℕ) : Prop := KERNBASE + PHYSTOP ≤ va / 4096 ∧ va / 4096 < DEVSPACE

theorem kmap_covers (L : Layout) {v : ℕ} (h1 : KERNBASE ≤ v) (h2 : v < TOP)
    (h3 : ¬ (KERNBASE + PHYSTOP ≤ v ∧ v < DEVSPACE)) : ∃ m ∈ kmap L, m.virt ≤ v ∧ v < m.virt + m.pages := by
  have h4 := L.extmem_lt
  have h5 := L.data_le
  have h6 := L.first_le
  unfold kmap
  by_cases ha : v < KERNBASE + EXTMEM
  · exact ⟨_, List.mem_cons_self, h1, ha⟩
  · by_cases hb : v < KERNBASE + L.data
    · refine ⟨_, List.mem_cons_of_mem _ List.mem_cons_self, ?_, ?_⟩ <;> dsimp only <;> omega
    · by_cases hc : v < KERNBASE + PHYSTOP
      · refine ⟨_, List.mem_cons_of_mem _ (List.mem_cons_of_mem _ List.mem_cons_self), ?_, ?_⟩ <;> dsimp only <;> omega
      · refine ⟨_, List.mem_cons_of_mem _ (List.mem_cons_of_mem _ (List.mem_cons_of_mem _ List.mem_cons_self)), ?_, ?_⟩ <;>
          dsimp only <;> omega

theorem copyout_pages {va : ℕ} (hlen : 0 < len) :
    copyout s va len = copyLoop s (va / 4096) ((va + len - 1) / 4096 - va / 4096 + 1) := by
  unfold copyout
  rw [if_neg (by omega)]
  congr 1
  unfold numPages
  omega

/-- an address of the kernel that has an entry: copyout gives up at once -/
theorem copyout_kernel (hs : s.Ok) (hkvm : s.Kvm L) {va : ℕ} (hlen : 0 < len)
    (h1 : KERNBASE ≤ va / 4096) (h2 : va / 4096 < TOP) (h3 : ¬ Hole va) : copyout s va len = .ok (false, []) := by
  obtain ⟨m, hm, hlo, hhi⟩ := kmap_covers L h1 h2 h3
  obtain ⟨e, he⟩ := Option.isSome_iff_exists.1 (hkvm m hm _ hlo hhi)
  rw [copyout_pages hlen]
  unfold copyLoop
  rw [uva2ka_of_pte hs he, hs.kernel _ e h1 he, if_neg Bool.false_ne_true]

theorem copyout_hole (hs : s.Ok) {va : ℕ} (hlen : 0 < len) (hhole : Hole va) : copyout s va len = .error .trap := by
  have htab : s.tab (va / 4096 / 1024) = none := by
    obtain ⟨h1, h2⟩ := hhole
    refine hs.gap _ ?_ ?_ <;> simp only [KERNBASE, PHYSTOP, DEVSPACE] at h1 h2 <;> omega
  rw [copyout_pages hlen]
  unfold copyLoop uva2ka
  rw [htab]

/-- below sz copyout writes to frames of the new image only; it returns 0 only if it does not touch the guard page, and does if
it starts in the stack page -/
theorem copyout_user (h : Fresh L s m) {va : ℕ} (hlen : 0 < len) (hva : va + len ≤ m * 4096) :
    ∃ b l, copyout s va len = .ok (b, l) ∧ (∀ p ∈ l, s.HasFrame p) ∧
      (b = true → ¬ (va / 4096 ≤ m - 2 ∧ m - 2 ≤ (va + len - 1) / 4096)) ∧ ((m - 1) * 4096 ≤ va → b = true) := by
  have hm := h.lt
  have htwo := h.two
  obtain ⟨b, l, hrun, hl, hb⟩ := copyLoop_user h.ok (Nat.le_of_lt hm) h.full ((va + len - 1) / 4096 - va / 4096 + 1)
    (va / 4096) (by omega)
  rw [copyout_pages hlen]
  refine ⟨b, l, hrun, hl, fun hb' hg => ?_, fun hstack => hb.2 fun x h1 h2 => ?_⟩
  · obtain ⟨e, he, hu⟩ := hb.1 hb' (m - 2) hg.1 (by omega)
    rw [h.guard e he] at hu
    cases hu
  · obtain rfl : x = m - 1 := by omega
    obtain ⟨e, he⟩ := Option.ne_none_iff_exists'.1 (h.full (m - 1) (by omega))
    exact ⟨e, he, h.stack e he⟩

/-- no argument that exec comes to push has its place between the physical memory and the devices, where only an address that
wraps around can lie; base is the bottom of the stack page, below which exec gives up -/
def ArgsFit (base : ℕ) : ℕ → List ℕ → Prop
  | _, [] => True
  | sp, len :: rest => (sp < len + 1 → ¬ Hole (push sp len)) ∧
    (base ≤ push sp len → push sp len ≤ sp → ArgsFit base (push sp len) rest)

theorem Fresh.bytes_lt (h : Fresh L s m) : m * 4096 < 2 ^ 31 := by
  have := h.lt
  unfold KERNBASE at this
  omega

theorem push_eq (h : len + 1 ≤ sp) (hsp : sp < 2 ^ 32) : push sp len = (sp - (len + 1)) / 4 * 4 := by
  unfold push
  omega

theorem push_end (h : len + 1 ≤ sp) (hsp : sp ≤ m * 4096) (hm : m * 4096 < 2 ^ 31) : push sp len + (len + 1) ≤ m * 4096 := by
  rw [push_eq h (by omega)]
  omega

/-- a string that does not reach into the guard page lies in the stack page -/
theorem push_stay (h : len + 1 ≤ sp) (hsp : (m - 1) * 4096 ≤ sp) (hle : sp ≤ m * 4096) (hm : m * 4096 < 2 ^ 31) (htwo : 2 ≤ m)
    (hg : ¬ (push sp len / 4096 ≤ m - 2 ∧ m - 2 ≤ (push sp len + (len + 1) - 1) / 4096)) : (m - 1) * 4096 ≤ push sp len := by
  rw [push_eq h (by omega)] at hg ⊢
  omega

theorem pushStack_end {argc : ℕ} (ha : argc ≤ MAXARG) (h : 4096 ≤ sp) (hsp : sp ≤ m * 4096) :
    pushStack sp argc + ustackBytes argc ≤ m * 4096 := by
  unfold MAXARG at ha
  unfold pushStack ustackBytes
  omega

theorem ustackBytes_pos (argc : ℕ) : 0 < ustackBytes argc := by
  unfold ustackBytes
  omega

theorem push_wrap (h : sp < len + 1) (hlen : len < 2 ^ 31) : 2 ^ 31 ≤ push sp len ∧ push sp len < 2 ^ 32 := by
  unfold push
  omega

/-- the arguments find their places in the stack page or exec gives up, or one of them lies where there is no page table -/
theorem pushArgs_spec (h : Fresh L s m) (args : List ℕ) :
    ∀ argc sp, argc ≤ MAXARG → (m - 1) * 4096 ≤ sp → sp ≤ m * 4096 → (∀ len ∈ args, len < KERNBASE * PGSIZE) →
    (∃ r l, pushArgs s argc sp args = .ok (r, l) ∧ (∀ p ∈ l, s.HasFrame p) ∧
      (∀ a, r = some a → a.1 ≤ MAXARG ∧ (m - 1) * 4096 ≤ a.2 ∧ a.2 ≤ m * 4096) ∧
      (argc + args.length ≤ MAXARG → ArgsFit ((m - 1) * 4096) sp args)) ∨
    pushArgs s argc sp args = .error .trap ∧ ¬ ArgsFit ((m - 1) * 4096) sp args := by
  have hm := h.bytes_lt
  have htwo := h.two
  induction args with
  | nil =>
    intro argc sp hargc h1 h2 _
    refine .inl ⟨some (argc, sp), [], rfl, fun p hp => absurd hp List.not_mem_nil, ?_, fun _ => trivial⟩
    rintro a ⟨⟩
    exact ⟨hargc, h1, h2⟩
  | cons len rest ih =>
    intro argc sp hargc h1 h2 hlens
    have hlen := hlens len List.mem_cons_self
    unfold pushArgs
    by_cases hmax : argc ≥ MAXARG
    · rw [if_pos hmax]
      exact .inl ⟨none, [], rfl, fun p hp => absurd hp List.not_mem_nil, nofun, fun hcount => by
        rw [List.length_cons] at hcount
        omega⟩
    · rw [if_neg hmax]
      by_cases hwrap : len + 1 ≤ sp
      · have hend := push_end hwrap h2 hm
        obtain ⟨b, l, hrun, hl, hb, hstack⟩ := copyout_user h (Nat.succ_pos len) hend
        rw [hrun]
        cases b with
        | false =>
          exact .inl ⟨none, l, rfl, hl, nofun, fun _ => ⟨fun hlt => absurd hwrap (by omega),
            fun hbase _ => absurd (hstack hbase) Bool.false_ne_true⟩⟩
        | true =>
          have hstay := push_stay hwrap h1 h2 hm htwo (hb rfl)
          have hle : push sp len ≤ sp := by
            rw [push_eq hwrap (by omega)]
            omega
          rcases ih (argc + 1) (push sp len) (Nat.lt_of_not_le hmax) hstay (hle.trans h2)
              fun x hx => hlens x (List.mem_cons_of_mem _ hx) with ⟨r, l', hrun', hl', hr, hfit⟩ | ⟨hrun', hfit⟩
          · rw [hrun']
            refine .inl ⟨r, l ++ l', rfl, fun p hp => ?_, hr, fun hcount => ⟨fun hlt => absurd hwrap (by omega),
              fun _ _ => hfit (by rw [List.length_cons] at hcount; omega)⟩⟩
            rcases List.mem_append.1 hp with hp | hp
            · exact hl p hp
            · exact hl' p hp
          · rw [hrun']
            exact .inr ⟨rfl, fun hall => hfit (hall.2 hstay hle)⟩
      · -- the address wraps around, into the kernel's part
        have hlt := Nat.lt_of_not_le hwrap
        rw [kernbase_bytes] at hlen
        have hpush := push_wrap hlt hlen
        have hkernel : KERNBASE ≤ push sp len / 4096 ∧ push sp len / 4096 < TOP := by
          unfold KERNBASE TOP
          omega
        by_cases hhole : Hole (push sp len)
        · rw [copyout_hole h.ok (Nat.succ_pos len) hhole]
          exact .inr ⟨rfl, fun hall => hall.1 hlt hhole⟩
        · rw [copyout_kernel h.ok h.kvm (Nat.succ_pos len) hkernel.1 hkernel.2 hhole]
          exact .inl ⟨none, [], rfl, fun p hp => absurd hp List.not_mem_nil, nofun,
            fun _ => ⟨fun _ => hhole, fun _ hle => absurd hpush.1 (by omega)⟩⟩

theorem pushAll_spec (h : Fresh L s m) (hlens : ∀ len ∈ args, len < KERNBASE * PGSIZE) :
    (∃ b l, pushAll s (m * 4096) args = .ok (b, l) ∧ (∀ p ∈ l, s.HasFrame p) ∧
      (args.length ≤ MAXARG → ArgsFit ((m - 1) * 4096) (m * 4096) args)) ∨
    pushAll s (m * 4096) args = .error .trap ∧ ¬ ArgsFit ((m - 1) * 4096) (m * 4096) args := by
  have htwo := h.two
  unfold pushAll
  rcases pushArgs_spec h args 0 (m * 4096) (Nat.zero_le _) (by omega) le_rfl hlens with
    ⟨r, l, hrun, hl, hr, hfit⟩ | ⟨hrun, hfit⟩
  · rw [hrun]
    rw [Nat.zero_add] at hfit
    rcases r with _ | ⟨argc, sp⟩
    · exact .inl ⟨false, l, rfl, hl, hfit⟩
    · obtain ⟨ha, h1, h2⟩ := hr _ rfl
      dsimp only at ha h1 h2
      have hend := pushStack_end ha (show 4096 ≤ sp by omega) h2
      obtain ⟨b, l', hrun', hl', -⟩ := copyout_user h (ustackBytes_pos argc) hend
      refine .inl ⟨b, l ++ l', ?_, fun p hp => ?_, hfit⟩
      · show andWrites l (copyout s (pushStack sp argc) (ustackBytes argc)) = _
        rw [hrun']
        rfl
      · rcases List.mem_append.1 hp with hp | hp
        · exact hl p hp
        · exact hl' p hp
  · rw [hrun]
    exact .inr ⟨rfl, hfit⟩

theorem tab_mem_pages (hs : s.Ok) {i t : ℕ} (ht : s.tab i = some t) : t ∈ s.pages := by
  have hi : i < NPDENTRIES := by
    by_contra hi
    rw [hs.bound i (by omega)] at ht
    cases ht
  unfold Space.pages
  exact mem_cons_of_mem (mem_add.2 (.inl (mem_stock.2 ⟨i, hi, t, ht, mem_singleton_self t⟩)))

theorem dir_mem_pages (s : Space) : s.dir ∈ s.pages := mem_cons_self _ _

/-! ## exec -/

theorem loaduvm_spec (hs : s.Ok) (read : ℕ → Bool) {v : ℕ} (hfull : Full s m) (n : ℕ) :
    ∀ i, v + i + n ≤ m → ∃ b, loaduvm s read v i n = .ok b := by
  induction n with
  | zero =>
    intro i _
    exact ⟨true, rfl⟩
  | succ n ih =>
    intro i hi
    obtain ⟨e, he⟩ := Option.ne_none_iff_exists'.1 (hfull (v + i) (by omega))
    unfold loaduvm
    cases ht : s.tab ((v + i) / 1024) with
    | none => exact absurd ht (hs.backed _ e he)
    | some t =>
      by_cases hr : read i = true
      · dsimp only
        rw [if_pos hr]
        exact ih (i + 1) (by omega)
      · dsimp only
        rw [if_neg hr]
        exact ⟨false, rfl⟩

/-- a segment makes the image that is built longer and keeps it complete -/
theorem allocuvm_grow (h : Image.Ok L ⟨s, sz⟩) (hfull : Full s (numPages sz))
    (hfine : Fine L (k.freelist + s.pages)) (newsz : ℕ) :
    ∃ r k' s', allocuvm L k s sz newsz = .ok (r, k', s') ∧ s'.Ok ∧
      (k'.freelist : Multiset ℕ) + s'.pages = k.freelist + s.pages ∧
      (r ≠ 0 → r = max sz newsz ∧ Image.Ok L ⟨s', r⟩ ∧ Full s' (numPages r)) := by
  obtain ⟨r, k', s', hrun, hs, hacc, hsame, hres, -⟩ := allocuvm_spec k s sz newsz h.space hfine h.above
  refine ⟨r, k', s', hrun, hs, hacc, fun hr0 => ?_⟩
  obtain ⟨hr, hlt, hmid, hhigh⟩ := hres.resolve_right fun hz => hr0 hz.1
  refine ⟨hr, ⟨hs, h.kvm.congr fun x hx => hsame x (.inr hx), ?_, hhigh⟩, fun x hx => ?_⟩
  · have := h.lt
    dsimp only at this ⊢
    omega
  · by_cases hlow : x < numPages sz
    · rw [hsame x (.inl hlow)]
      exact hfull x hlow
    · obtain ⟨e, he, -⟩ := hmid x (by omega) hx
      rw [he]
      nofun

/-- where the segments end -/
def segEnd (sz : ℕ) : List (Option Phdr) → ℕ
  | [] => sz
  | none :: rest => segEnd sz rest
  | some ph :: rest => segEnd (if ph.load then max sz (ph.vaddr + ph.memsz).toNat else sz) rest

theorem loadSegments_spec (phdrs : List (Option Phdr)) : ∀ (k : Kmem) (s : Space) (sz : ℕ),
    Image.Ok L ⟨s, sz⟩ → Full s (numPages sz) → Fine L (k.freelist + s.pages) →
    ∃ r k' s', loadSegments L k s sz phdrs = .ok (r, k', s') ∧ s'.Ok ∧
      (k'.freelist : Multiset ℕ) + s'.pages = k.freelist + s.pages ∧
      ∀ sz', r = some sz' → Image.Ok L ⟨s', sz'⟩ ∧ Full s' (numPages sz') ∧ sz' = segEnd sz phdrs := by
  induction phdrs with
  | nil =>
    intro k s sz h hfull _
    refine ⟨some sz, k, s, rfl, h.space, rfl, ?_⟩
    rintro sz' ⟨⟩
    exact ⟨h, hfull, rfl⟩
  | cons o rest ih =>
    intro k s sz h hfull hfine
    have hbad : ∀ {k' : Kmem} {s' : Space}, s'.Ok → (k'.freelist : Multiset ℕ) + s'.pages = k.freelist + s.pages →
        ∃ (r : Option ℕ) (k'' : Kmem) (s'' : Space),
          (Except.ok (none, k', s') : Except Panic (Option ℕ × Kmem × Space)) = .ok (r, k'', s'') ∧ s''.Ok ∧
          (k''.freelist : Multiset ℕ) + s''.pages = k.freelist + s.pages ∧
          ∀ sz', r = some sz' → Image.Ok L ⟨s'', sz'⟩ ∧ Full s'' (numPages sz') ∧ sz' = segEnd sz (o :: rest) :=
      fun hs hacc => ⟨none, _, _, rfl, hs, hacc, nofun⟩
    cases o with
    | none =>
      unfold loadSegments
      exact @hbad k s h.space rfl
    | some ph =>
      unfold loadSegments
      by_cases hload : ph.load = false
      · rw [if_pos hload]
        unfold segEnd
        rw [hload, if_neg Bool.false_ne_true]
        exact ih k s sz h hfull hfine
      · rw [if_neg hload]
        by_cases hmem : ph.memsz < ph.filesz
        · rw [if_pos hmem]
          exact @hbad k s h.space rfl
        · rw [if_neg hmem]
          by_cases hwrap : ph.vaddr + ph.memsz < ph.vaddr
          · rw [if_pos hwrap]
            exact @hbad k s h.space rfl
          · rw [if_neg hwrap]
            obtain ⟨r, k1, s1, hrun, hs1, hacc1, hres1⟩ := allocuvm_grow h hfull hfine (ph.vaddr + ph.memsz).toNat
            rw [hrun]
            dsimp only
            by_cases hr0 : r = 0
            · rw [if_pos hr0]
              exact hbad hs1 hacc1
            · rw [if_neg hr0]
              obtain ⟨hr, hok1, hfull1⟩ := hres1 hr0
              by_cases halign : ph.vaddr.toNat % 4096 ≠ 0
              · rw [if_pos halign]
                exact hbad hs1 hacc1
              · rw [if_neg halign]
                have hend : ph.vaddr.toNat / 4096 + 0 + numPages ph.filesz.toNat ≤ numPages r := by
                  have h1 : ¬ (ph.vaddr + ph.memsz).toNat < ph.vaddr.toNat := hwrap
                  have h2 : ¬ ph.memsz.toNat < ph.filesz.toNat := hmem
                  have h3 := ph.vaddr.isLt
                  have h4 := ph.memsz.isLt
                  rw [BitVec.toNat_add] at h1 hr
                  unfold numPages
                  omega
                obtain ⟨b, hb⟩ := loaduvm_spec hs1 ph.read hfull1 (numPages ph.filesz.toNat) 0 hend
                rw [hb]
                cases b with
                | false => exact hbad hs1 hacc1
                | true =>
                  obtain ⟨r', k2, s2, hrun2, hs2, hacc2, hres2⟩ := ih k1 s1 r hok1 hfull1 (by rw [hacc1]; exact hfine)
                  refine ⟨r', k2, s2, hrun2, hs2, hacc2.trans hacc1, fun sz' hsz' => ?_⟩
                  unfold segEnd
                  rw [if_pos (by simpa using hload), ← hr]
                  exact hres2 sz' hsz'

/-- the size of the image exec builds -/
def imagePages (file : ElfFile) : ℕ := numPages (segEnd 0 file.phdrs) + 2

/-- two pages above n pages: clearpteu takes the lower one from the users -/
theorem fresh_of_cleared {s' : Space} {n : ℕ} (hkvm : s.Kvm L) (hfull : Full s n) (hs' : s'.Ok)
    (hsame : ∀ x, x < n ∨ KERNBASE ≤ x → s'.pte x = s.pte x) (hmid : ∀ x, n ≤ x → x < n + 2 → ∃ e, s'.pte x = some e ∧ e.u = true)
    (hhigh : Above s' (n + 2)) (hlt : n + 2 < KERNBASE) :
    ∃ s'', clearpteu s' n = .ok s'' ∧ s''.pages = s'.pages ∧ Fresh L s'' (n + 2) ∧ ∀ x ≠ n, s''.pte x = s'.pte x := by
  obtain ⟨e, he, -⟩ := hmid n le_rfl (by omega)
  obtain ⟨s'', hrun', hs'', hpages', -, hpte⟩ := clearpteu_spec hs' he
  have hother : ∀ x ≠ n, s''.pte x = s'.pte x := fun x hx => by
    rw [hpte, update_of_ne hx]
  refine ⟨s'', hrun', hpages', ⟨hs'', hkvm.congr fun x hx => ?_, by omega, hlt, fun x hx => ?_,
    fun e' he' => ?_, fun e' he' => ?_, fun x h1 h2 => ?_⟩, hother⟩
  · rw [hother x (by omega)]
    exact hsame x (.inr hx)
  · by_cases hx1 : x = n
    · rw [hx1, hpte, update_self]
      nofun
    · rw [hother x hx1]
      by_cases hx2 : x < n
      · rw [hsame x (.inl hx2)]
        exact hfull x hx2
      · obtain ⟨e, he, -⟩ := hmid x (by omega) hx
        rw [he]
        nofun
  · rw [show n + 2 - 2 = n by omega, hpte, update_self] at he'
    cases he'
    rfl
  · obtain ⟨f, hf, hu⟩ := hmid (n + 1) (by omega) (by omega)
    rw [show n + 2 - 1 = n + 1 by omega, hother _ (by omega), hf] at he'
    cases he'
    exact hu
  · rw [hother x (by omega)]
    exact hhigh x h1 h2

/-- the two pages above the segments: the upper one is the stack, the lower one is not for users -/
theorem stack_fresh (hok : Image.Ok L ⟨s, sz⟩) (hfull : Full s (numPages sz)) (hfine : Fine L (k.freelist + s.pages)) :
    ∃ r k' s', allocuvm L k s (numPages sz * PGSIZE) (numPages sz * PGSIZE + 2 * PGSIZE) = .ok (r, k', s') ∧ s'.Ok ∧
      (k'.freelist : Multiset ℕ) + s'.pages = k.freelist + s.pages ∧
      (r ≠ 0 → r = (numPages sz + 2) * 4096 ∧ ∃ s'', clearpteu s' (numPages sz) = .ok s'' ∧ s''.pages = s'.pages ∧
        Fresh L s'' (numPages sz + 2)) ∧ (Generous k → (numPages sz + 2) * 4096 < KERNBASE * PGSIZE →
        1028 + numPages sz < Multiset.card ((k.freelist : Multiset ℕ) + s.pages) → r ≠ 0) := by
  have hround : numPages (numPages sz * PGSIZE) = numPages sz := by
    unfold numPages PGSIZE
    omega
  have hnum : numPages (numPages sz * PGSIZE + 2 * PGSIZE) = numPages sz + 2 := by
    unfold numPages PGSIZE
    omega
  obtain ⟨r, k', s', hrun, hs', hacc, hsame, hres, hgen⟩ := allocuvm_spec k s (numPages sz * PGSIZE)
    (numPages sz * PGSIZE + 2 * PGSIZE) hok.space hfine (by rw [hround]; exact hok.above)
  refine ⟨r, k', s', hrun, hs', hacc, fun hr0 => ?_, fun hg hlt hroom => ?_⟩
  · obtain ⟨hr, hlt, hmid, hhigh⟩ := hres.resolve_right fun hz => hr0 hz.1
    rw [max_eq_right (Nat.le_add_right _ _)] at hr
    rw [hr, hnum] at hmid hhigh
    rw [hround] at hmid hsame
    obtain ⟨s'', hrun', hpages', hfresh, -⟩ := fresh_of_cleared hok.kvm hfull hs' hsame
      hmid hhigh (by simp only [PGSIZE] at hlt; omega)
    exact ⟨by rw [hr]; unfold PGSIZE; omega, s'', hrun', hpages', hfresh⟩
  · rw [(hgen hg).2 (by simp only [PGSIZE] at hlt ⊢; omega) (by rw [hnum]; omega)]
    unfold PGSIZE
    omega

/-- allocuvm finds the two pages above the segments -/
def HasStack (L : Layout) (k : Kmem) (s : Space) (sz : ℕ) : Prop :=
  ∃ r k' s', allocuvm L k s (numPages sz * PGSIZE) (numPages sz * PGSIZE + 2 * PGSIZE) = .ok (r, k', s') ∧ r ≠ 0

/-- exec comes to push the arguments: the file is an ELF file, its segments can be loaded, and there are pages for them and for
the stack -/
def Builds (L : Layout) (k : Kmem) (file : ElfFile) : Prop :=
  file.elf = true ∧ ∃ s1 k1 sz s2 k2, setupkvm L k = .ok (some s1, k1) ∧
    loadSegments L k1 s1 0 file.phdrs = .ok (some sz, k2, s2) ∧ HasStack L k2 s2 sz

/-- **The end of exec.** It frees the new image or the old one, and writes only to pages of the new one; or an argument lies where
there is no page table. -/
theorem finish_spec {F : Multiset ℕ} (h : cur.Ok L) (hfine : Fine L (F + cur.space.pages))
    (hok : Image.Ok L ⟨s, sz⟩) (hfull : Full s (numPages sz)) (hacc : (k.freelist : Multiset ℕ) + s.pages = F)
    (hlens : ∀ len ∈ args, len < KERNBASE * PGSIZE) :
    (∃ b k' m l, finish L k s sz cur args = .ok (b, k', m, l) ∧ (∀ p ∈ l, p ∈ F) ∧
      (b = false → m = cur ∧ (k'.freelist : Multiset ℕ) = F) ∧
      (b = true → m.Ok L ∧ Full m.space (numPages m.sz) ∧ m.sz = (numPages sz + 2) * 4096 ∧ m.space.pages ≤ F ∧
        (k'.freelist : Multiset ℕ) + m.space.pages = F + cur.space.pages)) ∨
    finish L k s sz cur args = .error .trap ∧ HasStack L k s sz ∧
      ¬ ArgsFit ((numPages sz + 1) * 4096) ((numPages sz + 2) * 4096) args := by
  have hfree : Fine L F := hfine.of_le (le_add_right _ _)
  -- the error paths: the new address space is freed
  have hbad : ∀ {k1 : Kmem} {s1 : Space}, s1.Ok → (k1.freelist : Multiset ℕ) + s1.pages = F → ∀ l : List ℕ,
      ∃ k', (execBad L k1 s1 cur l).map (false, ·) = .ok (false, k', cur, l) ∧ (k'.freelist : Multiset ℕ) = F := by
    intro k1 s1 hs hacc1 l
    obtain ⟨k2, hrun, hfree2, -⟩ := freevm_spec k1 s1 hs (by rw [hacc1]; exact hfree)
    refine ⟨k2, ?_, by rw [hfree2, hacc1]⟩
    unfold execBad
    rw [hrun]
    rfl
  obtain ⟨r, k3, s3, hrun3, hs3, hacc3, hres3, -⟩ := stack_fresh (k := k) hok hfull (by rw [hacc]; exact hfree)
  rw [hacc] at hacc3
  unfold finish
  rw [hrun3]
  dsimp only
  by_cases hr0 : r = 0
  · rw [if_pos hr0]
    obtain ⟨k', hrun, hk'⟩ := hbad hs3 hacc3 []
    exact .inl ⟨false, k', cur, [], hrun, fun p hp => absurd hp List.not_mem_nil, fun _ => ⟨rfl, hk'⟩, nofun⟩
  · rw [if_neg hr0]
    obtain ⟨hr, s4, hrun4, hpages4, hfresh⟩ := hres3 hr0
    have hs4 := hfresh.ok
    have hmlt := hfresh.lt
    rw [show r / 4096 - 2 = numPages sz by omega, hrun4]
    rw [← hpages4] at hacc3
    have hle : s4.pages ≤ F := by
      rw [← hacc3]
      exact le_add_left _ _
    dsimp only
    rw [hr]
    rcases pushAll_spec hfresh hlens with ⟨b, l, hrun5, hl, -⟩ | ⟨hrun5, hfit⟩
    · have hmem : ∀ p ∈ l, p ∈ F := fun p hp => by
        obtain ⟨x, hx, e, he, rfl⟩ := hl p hp
        exact mem_of_le hle (frame_mem_pages hx he)
      rw [hrun5]
      left
      cases b with
      | false =>
        obtain ⟨k', hrun, hk'⟩ := hbad hs4 hacc3 l
        exact ⟨false, k', cur, l, hrun, hmem, fun _ => ⟨rfl, hk'⟩, nofun⟩
      | true =>
        have hacc4 : (k3.freelist : Multiset ℕ) + cur.space.pages + s4.pages = F + cur.space.pages := by
          rw [add_right_comm, hacc3]
        obtain ⟨k5, hrun6, hfree6, -⟩ := freevm_spec k3 cur.space h.space
          (hfine.of_le (by rw [← hacc4]; exact le_add_right _ _))
        dsimp only
        rw [hrun6]
        have hnum : numPages ((numPages sz + 2) * 4096) = numPages sz + 2 := by
          unfold numPages
          omega
        refine ⟨true, k5, ⟨s4, (numPages sz + 2) * 4096⟩, l, rfl, hmem, nofun, fun _ => ⟨⟨hs4, hfresh.kvm, ?_, ?_⟩, ?_, rfl, hle,
          by rw [hfree6, hacc4]⟩⟩
        · simp only [PGSIZE]
          omega
        · dsimp only
          rw [hnum]
          exact hfresh.above
        · dsimp only
          rw [hnum]
          exact hfresh.full
    · rw [hrun5]
      exact .inr ⟨rfl, ⟨r, k3, s3, hrun3, hr0⟩, hfit⟩

theorem exec_of_segments {k1 k2 : Kmem} {file : ElfFile} {s1 s2 : Space} (helf : file.elf = true)
    (h1 : setupkvm L k = .ok (some s1, k1)) (h2 : loadSegments L k1 s1 0 file.phdrs = .ok (some sz, k2, s2)) (args : List ℕ) :
    exec L k cur file args = (finish L k2 s2 sz cur args).map Prod.snd := by
  unfold exec
  rw [if_neg (by simp [helf]), h1]
  dsimp only
  rw [h2]

/-- **exec.** It loses no page, writes only to pages that were free, and leaves the image as it was or complete; it stops the
kernel only at an argument that is pushed to an address without a page table. -/
theorem exec_spec (k : Kmem) (h : cur.Ok L) (hfine : Fine L (k.freelist + cur.space.pages)) (file : ElfFile)
    (hlens : ∀ len ∈ args, len < KERNBASE * PGSIZE) :
    (∃ k' m l, exec L k cur file args = .ok (k', m, l) ∧ m.Ok L ∧
      (k'.freelist : Multiset ℕ) + m.space.pages = k.freelist + cur.space.pages ∧ (∀ p ∈ l, p ∈ k.freelist) ∧
      (m = cur ∨ Full m.space (numPages m.sz) ∧ 0 < m.sz)) ∨
    exec L k cur file args = .error .trap ∧ Builds L k file ∧
      ¬ ArgsFit ((imagePages file - 1) * 4096) (imagePages file * 4096) args := by
  have hfree : Fine L (k.freelist : Multiset ℕ) := hfine.of_le (le_add_right _ _)
  have hnil : ∀ p ∈ ([] : List ℕ), p ∈ k.freelist := fun p hp => absurd hp List.not_mem_nil
  by_cases helf : file.elf = false
  · unfold exec
    rw [if_pos helf]
    exact .inl ⟨k, cur, [], rfl, h, rfl, hnil, .inl rfl⟩
  · obtain ⟨r, k1, hrun1, hnone1, hsome1, -⟩ := setupkvm_spec L k hfree
    cases r with
    | none =>
      unfold exec
      rw [if_neg helf, hrun1]
      exact .inl ⟨k1, cur, [], rfl, h, by rw [hnone1 rfl], hnil, .inl rfl⟩
    | some s1 =>
      obtain ⟨hacc1, hs1, hkvm1, hempty1⟩ := hsome1 s1 rfl
      obtain ⟨r, k2, s2, hrun2, hs2, hacc2, hres2⟩ := loadSegments_spec file.phdrs k1 s1 0 (.empty hs1 hkvm1 hempty1)
        (full_zero s1) (by rw [hacc1]; exact hfree)
      rw [hacc1] at hacc2
      cases r with
      | none =>
        obtain ⟨k3, hrun3, hfree3, -⟩ := freevm_spec k2 s2 hs2 (by rw [hacc2]; exact hfree)
        unfold exec execBad
        rw [if_neg helf, hrun1]
        dsimp only
        rw [hrun2]
        dsimp only
        rw [hrun3]
        exact .inl ⟨k3, cur, [], rfl, h, by rw [hfree3, hacc2], hnil, .inl rfl⟩
      | some sz =>
        obtain ⟨hok2, hfull2, hsz⟩ := hres2 sz rfl
        have himg : imagePages file = numPages sz + 2 := by
          unfold imagePages
          rw [← hsz]
        rw [himg, exec_of_segments (Bool.eq_true_of_not_eq_false helf) hrun1 hrun2]
        rcases finish_spec h hfine hok2 hfull2 hacc2 hlens with
          ⟨b, k3, m, l, hrun3, hmem, hfail, hdone⟩ | ⟨hrun3, hstack, hfit⟩
        · rw [hrun3]
          left
          cases b with
          | false =>
            obtain ⟨rfl, hk3⟩ := hfail rfl
            exact ⟨k3, m, l, rfl, h, by rw [hk3], fun p hp => mem_coe.1 (hmem p hp), .inl rfl⟩
          | true =>
            obtain ⟨hm, hfull, hmsz, -, hacc⟩ := hdone rfl
            exact ⟨k3, m, l, rfl, hm, hacc, fun p hp => mem_coe.1 (hmem p hp), .inr ⟨hfull, by omega⟩⟩
        · rw [hrun3]
          exact .inr ⟨rfl, ⟨Bool.eq_true_of_not_eq_false helf, s1, k1, sz, s2, k2, hrun1, hrun2, hstack⟩, hfit⟩

end Xv6.Mem
