/-
Physical pages and address spaces: kalloc.c and the functions of vm.c on page directories.

A page is its number, an address divided by PGSIZE. An address space is its page directory: the page it lies on, the page
table each directory entry points to, and the entries of those tables under the number of the virtual page they map. What a
page contains is reached only through its role; that no page ever has two roles is what is proved. The oracle `grant` of the
allocator decides which calls of kalloc fail although there are free pages. Sizes are uints, as natural numbers.

- `setupkvm_spec`, `allocuvm_spec`, `deallocuvm_spec`, `freevm_spec`, `copyuvm_spec`: each function moves pages between the
  free list and the address space and loses or duplicates none, also when it fails half-way; and which virtual pages are
  mapped afterwards.
-/
import Xv6.Param
import Xv6.Lib.Stock

namespace Xv6.Mem

open Lib Multiset
open Multiset (add_cons cons_swap mem_cons_of_mem cons_coe cons_add mem_cons_self le_cons_self card_cons card_add coe_card)

/-! ## Model -/

def PGSIZE : ℕ := 4096

def NPDENTRIES : ℕ := 1024

/-- EXTMEM / PGSIZE -/
def EXTMEM : ℕ := 0x100

/-- PHYSTOP / PGSIZE -/
def PHYSTOP : ℕ := 0xE000

/-- KERNBASE / PGSIZE -/
@[irreducible] def KERNBASE : ℕ := 0x80000

/-- DEVSPACE / PGSIZE -/
def DEVSPACE : ℕ := 0xFE000

/-- the number of virtual pages -/
@[irreducible] def TOP : ℕ := 0x100000

/-- PGROUNDUP(sz) / PGSIZE -/
@[irreducible] def numPages (sz : ℕ) : ℕ := (sz + 4095) / 4096

/-- where the linker put the kernel: the page of `data`, and the first page after `end` -/
structure Layout where
  data : ℕ
  first : ℕ
  extmem_lt : EXTMEM < data
  data_le : data ≤ first
  first_le : first ≤ PHYSTOP

structure Kmem where
  freelist : List ℕ
  /-- whether the n-th call of kalloc from now on may succeed -/
  grant : ℕ → Bool

def kalloc (k : Kmem) : Option ℕ × Kmem :=
  let grant := fun n => k.grant (n + 1)
  if k.grant 0 then
    match k.freelist with
    | [] => (none, { k with grant := grant })
    | r :: next => (some r, ⟨next, grant⟩)
  else (none, { k with grant := grant })

inductive Panic where
  | kfree
  | remap
  | pteShouldExist
  | pageNotPresent
  | addressShouldExist
  | clearpteu
  /-- panic("trap"): an exception in the kernel -/
  | trap
deriving DecidableEq, Repr

def kfree (L : Layout) (k : Kmem) (v : ℕ) : Except Panic Kmem :=
  if v < L.first ∨ PHYSTOP ≤ v then .error .kfree else .ok { k with freelist := v :: k.freelist }

/-- a present page table entry -/
structure Pte where
  frame : ℕ
  w : Bool
  u : Bool
deriving DecidableEq, Repr

structure Space where
  dir : ℕ
  /-- the page tables, by PDX -/
  tab : ℕ → Option ℕ
  /-- the present entries of the page tables, by virtual page -/
  pte : ℕ → Option Pte

/-- walkpgdir: whether there is an entry for virtual page v, created if alloc -/
def walkpgdir (k : Kmem) (s : Space) (v : ℕ) (alloc : Bool) : Bool × Kmem × Space :=
  match s.tab (v / 1024) with
  | some _ => (true, k, s)
  | none =>
    if alloc then
      match kalloc k with
      | (none, k) => (false, k, s)
      | (some t, k) =>
        (true, k, { s with
          tab := update s.tab (v / 1024) (some t)
          pte := fun x => if x / 1024 = v / 1024 then none else s.pte x })
    else (false, k, s)

/-- mappages, for n pages from the virtual page v on and the physical page f on -/
def mappages (k : Kmem) (s : Space) (v : ℕ) (f : ℕ) (w u : Bool) : ℕ → Except Panic (Bool × Kmem × Space)
  | 0 => .ok (true, k, s)
  | n + 1 =>
    match walkpgdir k s v true with
    | (false, k, s) => .ok (false, k, s)
    | (true, k, s) =>
      if (s.pte v).isSome then .error .remap
      else mappages k { s with pte := update s.pte v (some ⟨f, w, u⟩) } (v + 1) (f + 1) w u n

/-- the loop of deallocuvm, from virtual page a up to stop -/
def deallocLoop (L : Layout) (k : Kmem) (s : Space) (stop a : ℕ) : Except Panic (Kmem × Space) :=
  if a < stop then
    match s.tab (a / 1024) with
    | none => deallocLoop L k s stop ((a / 1024 + 1) * 1024)
    | some _ =>
      match s.pte a with
      | none => deallocLoop L k s stop (a + 1)
      | some e =>
        if e.frame = 0 then .error .kfree
        else
          match kfree L k e.frame with
          | .error p => .error p
          | .ok k => deallocLoop L k { s with pte := update s.pte a none } stop (a + 1)
  else .ok (k, s)
termination_by stop - a
decreasing_by all_goals omega

@[irreducible] def deallocuvm (L : Layout) (k : Kmem) (s : Space) (oldsz newsz : ℕ) : Except Panic (ℕ × Kmem × Space) :=
  if newsz ≥ oldsz then .ok (oldsz, k, s)
  else
    match deallocLoop L k s (numPages oldsz) (numPages newsz) with
    | .error p => .error p
    | .ok (k, s) => .ok (newsz, k, s)

/-- the loop of freevm over the page tables -/
def freeTables (L : Layout) (tab : ℕ → Option ℕ) (k : Kmem) : List ℕ → Except Panic Kmem
  | [] => .ok k
  | i :: rest =>
    match tab i with
    | none => freeTables L tab k rest
    | some t =>
      match kfree L k t with
      | .error p => .error p
      | .ok k => freeTables L tab k rest

@[irreducible] def freevm (L : Layout) (k : Kmem) (s : Space) : Except Panic Kmem :=
  match deallocuvm L k s (KERNBASE * PGSIZE) 0 with
  | .error p => .error p
  | .ok (_, k, s) =>
    match freeTables L s.tab k (List.range NPDENTRIES) with
    | .error p => .error p
    | .ok k => kfree L k s.dir

structure KMap where
  virt : ℕ
  phys : ℕ
  pages : ℕ
  w : Bool

def kmap (L : Layout) : List KMap :=
  [⟨KERNBASE, 0, EXTMEM, true⟩,
   ⟨KERNBASE + EXTMEM, EXTMEM, L.data - EXTMEM, false⟩,
   ⟨KERNBASE + L.data, L.data, PHYSTOP - L.data, true⟩,
   ⟨DEVSPACE, DEVSPACE, TOP - DEVSPACE, true⟩]

/-- the loop of setupkvm -/
def mapKernel (k : Kmem) (s : Space) : List KMap → Except Panic (Bool × Kmem × Space)
  | [] => .ok (true, k, s)
  | m :: rest =>
    match mappages k s m.virt m.phys m.w false m.pages with
    | .error p => .error p
    | .ok (false, k, s) => .ok (false, k, s)
    | .ok (true, k, s) => mapKernel k s rest

@[irreducible] def setupkvm (L : Layout) (k : Kmem) : Except Panic (Option Space × Kmem) :=
  match kalloc k with
  | (none, k) => .ok (none, k)
  | (some d, k) =>
    match mapKernel k ⟨d, fun _ => none, fun _ => none⟩ (kmap L) with
    | .error p => .error p
    | .ok (true, k, s) => .ok (some s, k)
    | .ok (false, k, s) =>
      match freevm L k s with
      | .error p => .error p
      | .ok k => .ok (none, k)

/-- the loop of allocuvm: n more pages from the virtual page a on -/
def allocLoop (L : Layout) (k : Kmem) (s : Space) (oldsz newsz a : ℕ) : ℕ → Except Panic (ℕ × Kmem × Space)
  | 0 => .ok (newsz, k, s)
  | n + 1 =>
    match kalloc k with
    | (none, k) =>
      match deallocuvm L k s newsz oldsz with
      | .error p => .error p
      | .ok (_, k, s) => .ok (0, k, s)
    | (some mem, k) =>
      match mappages k s a mem true true 1 with
      | .error p => .error p
      | .ok (true, k, s) => allocLoop L k s oldsz newsz (a + 1) n
      | .ok (false, k, s) =>
        match deallocuvm L k s newsz oldsz with
        | .error p => .error p
        | .ok (_, k, s) =>
          match kfree L k mem with
          | .error p => .error p
          | .ok k => .ok (0, k, s)

@[irreducible] def allocuvm (L : Layout) (k : Kmem) (s : Space) (oldsz newsz : ℕ) : Except Panic (ℕ × Kmem × Space) :=
  if newsz ≥ KERNBASE * PGSIZE then .ok (0, k, s)
  else if newsz < oldsz then .ok (oldsz, k, s)
  else allocLoop L k s oldsz newsz (numPages oldsz) (numPages newsz - numPages oldsz)

/-- the loop of copyuvm: n more pages from the virtual page i on -/
def copyPages (L : Layout) (k : Kmem) (old d : Space) (i : ℕ) : ℕ → Except Panic (Option Space × Kmem)
  | 0 => .ok (some d, k)
  | n + 1 =>
    match old.tab (i / 1024) with
    | none => .error .pteShouldExist
    | some _ =>
      match old.pte i with
      | none => .error .pageNotPresent
      | some e =>
        match kalloc k with
        | (none, k) =>
          match freevm L k d with
          | .error p => .error p
          | .ok k => .ok (none, k)
        | (some mem, k) =>
          match mappages k d i mem e.w e.u 1 with
          | .error p => .error p
          | .ok (true, k, d) => copyPages L k old d (i + 1) n
          | .ok (false, k, d) =>
            match kfree L k mem with
            | .error p => .error p
            | .ok k =>
              match freevm L k d with
              | .error p => .error p
              | .ok k => .ok (none, k)

@[irreducible] def copyuvm (L : Layout) (k : Kmem) (old : Space) (sz : ℕ) : Except Panic (Option Space × Kmem) :=
  match setupkvm L k with
  | .error p => .error p
  | .ok (none, k) => .ok (none, k)
  | .ok (some d, k) => copyPages L k old d 0 (numPages sz)

/-- Clear PTE_U on a page. -/
def clearpteu (s : Space) (v : ℕ) : Except Panic Space :=
  match s.tab (v / 1024) with
  | none => .error .clearpteu
  | some _ => .ok { s with pte := update s.pte v ((s.pte v).map fun e => { e with u := false }) }

/-! ## The pages of an address space -/

def Space.pages (s : Space) : Multiset ℕ :=
  s.dir ::ₘ (stock NPDENTRIES (fun t => {t}) s.tab + stock KERNBASE (fun e => {e.frame}) s.pte)

structure Space.Ok (s : Space) : Prop where
  /-- a present entry lies in a page table -/
  backed : ∀ v e, s.pte v = some e → s.tab (v / 1024) ≠ none
  /-- the kernel's pages are not for users -/
  kernel : ∀ v e, KERNBASE ≤ v → s.pte v = some e → e.u = false
  /-- nothing lies between the physical memory and the devices -/
  gap : ∀ i, 568 ≤ i → i < 1016 → s.tab i = none
  bound : ∀ i, NPDENTRIES ≤ i → s.tab i = none

/-- the pages the allocator accepts -/
def Fine (L : Layout) (X : Multiset ℕ) : Prop := ∀ p ∈ X, L.first ≤ p ∧ p < PHYSTOP

/-- kalloc fails only without free pages -/
def Generous (k : Kmem) : Prop := ∀ n, k.grant n = true

theorem kalloc_cases (k : Kmem) : (∃ p k', kalloc k = (some p, k') ∧ k.freelist = p :: k'.freelist ∧ (Generous k → Generous k')) ∨
    ∃ k', kalloc k = (none, k') ∧ k'.freelist = k.freelist ∧ (Generous k → Generous k' ∧ k'.freelist = []) := by
  unfold kalloc
  by_cases hg : k.grant 0 = true
  · simp only [hg, if_true]
    cases hf : k.freelist with
    | nil => exact .inr ⟨_, rfl, rfl, fun h => ⟨fun n => h (n + 1), rfl⟩⟩
    | cons p rest => exact .inl ⟨p, _, rfl, rfl, fun h n => h (n + 1)⟩
  · rw [if_neg hg]
    exact .inr ⟨_, rfl, rfl, fun h => absurd (h 0) hg⟩

variable {L : Layout} {s : Space} {v : ℕ} {e : Pte}

theorem kfree_fine {k : Kmem} {p : ℕ} (h : L.first ≤ p ∧ p < PHYSTOP) :
    kfree L k p = .ok { k with freelist := p :: k.freelist } := by
  unfold kfree
  exact if_neg (by omega)

theorem Fine.of_le {X Y : Multiset ℕ} (h : Fine L Y) (hle : X ≤ Y) : Fine L X :=
  fun p hp => h p (mem_of_le hle hp)

theorem Fine.ne_zero {X : Multiset ℕ} (h : Fine L X) {p : ℕ} (hp : p ∈ X) : p ≠ 0 := by
  have h1 := (h p hp).1
  have h2 := L.extmem_lt
  have h3 := L.data_le
  omega

/-! ## One entry -/

theorem Space.Ok.setPte (h : s.Ok) (ht : s.tab (v / 1024) ≠ none) (hu : KERNBASE ≤ v → e.u = false) :
    ({ s with pte := update s.pte v (some e) } : Space).Ok where
  backed x e' hx := by
    dsimp only at hx
    by_cases hxv : x = v
    · rw [hxv]
      exact ht
    · rw [update_of_ne hxv] at hx
      exact h.backed x e' hx
  kernel x e' hk hx := by
    dsimp only at hx
    by_cases hxv : x = v
    · subst hxv
      rw [update_self] at hx
      cases hx
      exact hu hk
    · rw [update_of_ne hxv] at hx
      exact h.kernel x e' hk hx
  gap := h.gap
  bound := h.bound

theorem Space.Ok.clearPte (h : s.Ok) (v : ℕ) : ({ s with pte := update s.pte v none } : Space).Ok where
  backed x e hx := by
    dsimp only at hx
    by_cases hxv : x = v
    · subst hxv
      rw [update_self] at hx
      cases hx
    · rw [update_of_ne hxv] at hx
      exact h.backed x e hx
  kernel x e hk hx := by
    dsimp only at hx
    by_cases hxv : x = v
    · subst hxv
      rw [update_self] at hx
      cases hx
    · rw [update_of_ne hxv] at hx
      exact h.kernel x e hk hx
  gap := h.gap
  bound := h.bound

theorem pages_setPte_user (hv : v < KERNBASE) (hn : s.pte v = none) (e : Pte) :
    ({ s with pte := update s.pte v (some e) } : Space).pages = e.frame ::ₘ s.pages := by
  unfold Space.pages
  dsimp only
  rw [stock_fill (g := fun e : Pte => {e.frame}) hv hn rfl, add_cons, cons_swap]

theorem pages_setPte_kernel (hv : KERNBASE ≤ v) (x : Option Pte) :
    ({ s with pte := update s.pte v x } : Space).pages = s.pages := by
  unfold Space.pages
  dsimp only
  rw [stock_congr fun i hi => update_of_ne (Nat.ne_of_lt (lt_of_lt_of_le hi hv)) x s.pte]

theorem pages_clearPte (hv : v < KERNBASE) (he : s.pte v = some e) :
    s.pages = e.frame ::ₘ ({ s with pte := update s.pte v none } : Space).pages := by
  unfold Space.pages
  dsimp only
  rw [stock_clear (g := fun e : Pte => {e.frame}) hv he rfl, add_cons, cons_swap]

theorem frame_mem_pages (hv : v < KERNBASE) (he : s.pte v = some e) : e.frame ∈ s.pages := by
  unfold Space.pages
  exact mem_cons_of_mem (mem_add.2 (.inr (mem_stock.2 ⟨v, hv, e, he, mem_singleton_self _⟩)))

/-- **walkpgdir with alloc.** The table page comes from the free list; the entries stay as they are. -/
theorem walkpgdir_alloc (k : Kmem) (hs : s.Ok) (hv : v < TOP) (hgap : v / 1024 < 568 ∨ 1016 ≤ v / 1024) :
    ∃ b k' s', walkpgdir k s v true = (b, k', s') ∧ s'.Ok ∧ s'.pte = s.pte ∧
      (k'.freelist : Multiset ℕ) + s'.pages = k.freelist + s.pages ∧ (b = true → s'.tab (v / 1024) ≠ none) ∧
      (Generous k → Generous k' ∧ (b = false → k'.freelist = [])) := by
  unfold walkpgdir
  cases ht : s.tab (v / 1024) with
  | some t =>
    refine ⟨true, k, s, rfl, hs, rfl, rfl, fun _ => ?_, fun h => ⟨h, nofun⟩⟩
    rw [ht]
    nofun
  | none =>
    rcases kalloc_cases k with ⟨t, k', hk, hfree, hgen⟩ | ⟨k', hk, hfree, hgen⟩
    · rw [if_pos rfl, hk]
      have hpte : (fun x => if x / 1024 = v / 1024 then none else s.pte x) = s.pte := by
        funext x
        split_ifs with hx
        · cases hp : s.pte x with
          | none => rfl
          | some e => exact absurd (by rw [hx]; exact ht) (hs.backed x e hp)
        · rfl
      have hlt : v / 1024 < NPDENTRIES := by
        unfold NPDENTRIES
        unfold TOP at hv
        omega
      refine ⟨true, k', _, rfl, ⟨?_, ?_, ?_, ?_⟩, hpte, ?_, fun _ => ?_, fun h => ⟨hgen h, nofun⟩⟩
      · intro x e hx
        have hx : s.pte x = some e := (congrFun hpte x).symm.trans hx
        dsimp only
        by_cases hxv : x / 1024 = v / 1024
        · rw [hxv, update_self]
          nofun
        · rw [update_of_ne hxv]
          exact hs.backed x e hx
      · intro x e hk hx
        exact hs.kernel x e hk ((congrFun hpte x).symm.trans hx)
      · intro i h1 h2
        dsimp only
        rw [update_of_ne (by omega)]
        exact hs.gap i h1 h2
      · intro i hi
        dsimp only
        rw [update_of_ne (by omega)]
        exact hs.bound i hi
      · unfold Space.pages
        dsimp only
        rw [hpte, stock_fill hlt ht rfl, hfree, ← cons_coe]
        simp only [cons_add, add_cons, cons_swap]
      · dsimp only
        rw [update_self]
        nofun
    · rw [if_pos rfl, hk]
      exact ⟨false, k', s, rfl, hs, rfl, by rw [hfree], nofun, fun h => ⟨(hgen h).1, fun _ => (hgen h).2⟩⟩

/-! ## Kernel mappings -/

theorem mappages_kernel (w : Bool) (n : ℕ) : ∀ (k : Kmem) (s : Space) (v : ℕ) (f : ℕ), s.Ok → KERNBASE ≤ v →
    v + n ≤ TOP → (v + n ≤ KERNBASE + PHYSTOP ∨ DEVSPACE ≤ v) → (∀ x, v ≤ x → x < v + n → s.pte x = none) →
    ∃ b k' s', mappages k s v f w false n = .ok (b, k', s') ∧ s'.Ok ∧
      (k'.freelist : Multiset ℕ) + s'.pages = k.freelist + s.pages ∧ (∀ x, x < v ∨ v + n ≤ x → s'.pte x = s.pte x) ∧
      (b = true → ∀ x, v ≤ x → x < v + n → (s'.pte x).isSome) ∧ (Generous k → Generous k' ∧ (b = false → k'.freelist = [])) := by
  induction n with
  | zero =>
    intro k s v f hs hv _ _ _
    exact ⟨true, k, s, rfl, hs, rfl, fun _ _ => rfl, fun _ x h1 h2 => absurd h2 (by omega), fun h => ⟨h, nofun⟩⟩
  | succ n ih =>
    intro k s v f hs hv htop hreg hnone
    have hgap : v / 1024 < 568 ∨ 1016 ≤ v / 1024 := by
      simp only [KERNBASE, PHYSTOP, DEVSPACE] at hreg
      omega
    obtain ⟨b, k1, s1, hwalk, hs1, hpte1, hacc1, htab1, hgen1⟩ :=
      walkpgdir_alloc k hs (show v < TOP by omega) hgap
    unfold mappages
    rw [hwalk]
    cases b with
    | false =>
      refine ⟨false, k1, s1, rfl, hs1, hacc1, fun x _ => by rw [hpte1], nofun, fun h => ?_⟩
      exact ⟨(hgen1 h).1, (hgen1 h).2⟩
    | true =>
      have hfree : (s1.pte v).isSome = false := by
        rw [hpte1, hnone v le_rfl (by omega)]
        rfl
      dsimp only
      rw [hfree, if_neg Bool.false_ne_true]
      have hs2 := hs1.setPte (e := ⟨f, w, false⟩) (htab1 rfl) fun _ => rfl
      have hother : ∀ x, x ≠ v → update s1.pte v (some ⟨f, w, false⟩) x = s.pte x := fun x hx => by
        rw [update_of_ne hx, hpte1]
      obtain ⟨b, k3, s3, hmap, hs3, hacc3, hsame3, hmapped3, hgen3⟩ := ih k1 _ (v + 1) (f + 1) hs2 (by omega) (by omega)
        (by omega) fun x h1 h2 => by
          dsimp only
          rw [hother x (by omega)]
          exact hnone x (by omega) (by omega)
      refine ⟨b, k3, s3, hmap, hs3, ?_, fun x hx => ?_, fun hb x h1 h2 => ?_, fun h => hgen3 (hgen1 h).1⟩
      · rw [hacc3, pages_setPte_kernel hv, hacc1]
      · rw [hsame3 x (by omega)]
        exact hother x (by omega)
      · by_cases hx : x = v
        · rw [hsame3 x (by omega), hx]
          dsimp only
          rw [update_self]
          rfl
        · exact hmapped3 hb x (by omega) (by omega)

/-- regions of the kernel's map in ascending order, from lo on -/
def Ascending : ℕ → List KMap → Prop
  | _, [] => True
  | lo, m :: rest => lo ≤ m.virt ∧ KERNBASE ≤ m.virt ∧ m.virt + m.pages ≤ TOP ∧
    (m.virt + m.pages ≤ KERNBASE + PHYSTOP ∨ DEVSPACE ≤ m.virt) ∧ Ascending (m.virt + m.pages) rest

theorem ascending_kmap (L : Layout) : Ascending KERNBASE (kmap L) := by
  have h1 := L.extmem_lt
  have h2 := L.data_le
  have h3 := L.first_le
  simp only [kmap, Ascending, KERNBASE, EXTMEM, PHYSTOP, DEVSPACE, TOP, and_true] at *
  omega

theorem kernbase_le_virt {m : KMap} (hm : m ∈ kmap L) : KERNBASE ≤ m.virt := by
  simp only [kmap, List.mem_cons, List.not_mem_nil, or_false] at hm
  rcases hm with rfl | rfl | rfl | rfl
  · exact le_rfl
  · exact Nat.le_add_right _ _
  · exact Nat.le_add_right _ _
  · show KERNBASE ≤ DEVSPACE
    unfold KERNBASE DEVSPACE
    omega

theorem mapKernel_spec (l : List KMap) : ∀ (lo : ℕ) (k : Kmem) (s : Space), Ascending lo l → s.Ok →
    (∀ x, lo ≤ x → s.pte x = none) → ∃ b k' s', mapKernel k s l = .ok (b, k', s') ∧ s'.Ok ∧
      (k'.freelist : Multiset ℕ) + s'.pages = k.freelist + s.pages ∧ (∀ x, x < lo → s'.pte x = s.pte x) ∧
      (b = true → ∀ m ∈ l, ∀ x, m.virt ≤ x → x < m.virt + m.pages → (s'.pte x).isSome) ∧
      (Generous k → Generous k' ∧ (b = false → k'.freelist = [])) := by
  induction l with
  | nil =>
    intro lo k s _ hs _
    exact ⟨true, k, s, rfl, hs, rfl, fun _ _ => rfl, fun _ m hm => absurd hm List.not_mem_nil, fun h => ⟨h, nofun⟩⟩
  | cons m rest ih =>
    rintro lo k s ⟨hlo, hk, htop, hreg, hasc⟩ hs hnone
    obtain ⟨b, k1, s1, hmap, hs1, hacc1, hsame1, hmapped1, hgen1⟩ := mappages_kernel m.w m.pages k s m.virt m.phys hs hk
      htop hreg fun x h1 _ => hnone x (by omega)
    unfold mapKernel
    rw [hmap]
    cases b with
    | false =>
      exact ⟨false, k1, s1, rfl, hs1, hacc1, fun x hx => hsame1 x (by omega), nofun, hgen1⟩
    | true =>
      obtain ⟨b, k2, s2, hmap2, hs2, hacc2, hsame2, hmapped2, hgen2⟩ := ih _ k1 s1 hasc hs1 fun x hx => by
        rw [hsame1 x (by omega)]
        exact hnone x (by omega)
      refine ⟨b, k2, s2, hmap2, hs2, hacc2.trans hacc1, fun x hx => ?_, fun hb m' hm' x h1 h2 => ?_,
        fun h => hgen2 (hgen1 h).1⟩
      · rw [hsame2 x (by omega), hsame1 x (by omega)]
      · rcases List.mem_cons.1 hm' with rfl | hm'
        · rw [hsame2 x (by omega)]
          exact hmapped1 rfl x h1 h2
        · exact hmapped2 hb m' hm' x h1 h2

/-! ## Giving pages back -/

/-- the entry of page x, if it has a page table and is present in it -/
def entry (s : Space) (x : ℕ) : Option Pte := if (s.tab (x / 1024)).isSome then s.pte x else none

/-- the page of one round: its entry, if present, is cleared and its frame freed -/
def visit (L : Layout) (k : Kmem) (s : Space) (x : ℕ) : Except Panic (Kmem × Space) :=
  match entry s x with
  | none => .ok (k, s)
  | some e =>
    if e.frame = 0 then .error .kfree
    else
      match kfree L k e.frame with
      | .error p => .error p
      | .ok k => .ok (k, { s with pte := update s.pte x none })

/-- the loop that looks at every page -/
def plainLoop (L : Layout) (k : Kmem) (s : Space) : List ℕ → Except Panic (Kmem × Space)
  | [] => .ok (k, s)
  | x :: l =>
    match visit L k s x with
    | .error p => .error p
    | .ok (k, s) => plainLoop L k s l

theorem deallocLoop_visit {stop x t : ℕ} (k : Kmem) {s : Space} (hlt : x < stop) (ht : s.tab (x / 1024) = some t) :
    deallocLoop L k s stop x =
      match visit L k s x with
      | .error p => .error p
      | .ok (k, s) => deallocLoop L k s stop (x + 1) := by
  rw [deallocLoop, if_pos hlt, ht, visit, show entry s x = s.pte x by simp [entry, ht]]
  cases s.pte x with
  | none => rfl
  | some e =>
    dsimp only
    split_ifs
    · rfl
    · cases kfree L k e.frame <;> rfl

theorem plainLoop_append {l : List ℕ} (k : Kmem) {s : Space} (h : ∀ x ∈ l, s.tab (x / 1024) = none) (r : List ℕ) :
    plainLoop L k s (l ++ r) = plainLoop L k s r := by
  induction l with
  | nil => rfl
  | cons x l ih =>
    rw [List.cons_append, plainLoop, visit, show entry s x = none by simp [entry, h x List.mem_cons_self]]
    exact ih fun y hy => h y (List.mem_cons_of_mem x hy)

/-- the jump leaves out nothing that the loop over all pages would do -/
theorem plainLoop_eq (stop n : ℕ) : ∀ {x : ℕ} (k : Kmem) (s : Space), stop - x ≤ n →
    deallocLoop L k s stop x = plainLoop L k s (List.range' x (stop - x)) := by
  induction n using Nat.strong_induction_on with
  | _ n ih =>
    intro x k s hn
    by_cases hlt : x < stop
    · cases htab : s.tab (x / 1024) with
      | none =>
        -- the rest of this table's pages, up to stop, comes first in the list
        have hsplit : List.range' x (stop - x) =
            List.range' x (min stop ((x / 1024 + 1) * 1024) - x) ++
              List.range' ((x / 1024 + 1) * 1024) (stop - (x / 1024 + 1) * 1024) := by
          rcases Nat.le_total stop ((x / 1024 + 1) * 1024) with h | h
          · rw [Nat.min_eq_left h, Nat.sub_eq_zero_of_le h, List.range'_zero, List.append_nil]
          · rw [Nat.min_eq_right h, List.range'_eq_append_iff]
            exact ⟨_, by omega, rfl, by congr 1 <;> omega⟩
        rw [deallocLoop, if_pos hlt, htab, hsplit, plainLoop_append k]
        · exact ih (n - 1) (by omega) k s (by omega)
        · intro y hy
          rw [List.mem_range'_1] at hy
          rw [show y / 1024 = x / 1024 by omega, htab]
      | some t =>
        rw [deallocLoop_visit k hlt htab, show stop - x = stop - (x + 1) + 1 by omega, List.range'_succ, plainLoop]
        cases visit L k s x with
        | error p => rfl
        | ok r => exact ih (n - 1) (by omega) r.1 r.2 (by omega)
    · rw [deallocLoop, if_neg hlt, show stop - x = 0 by omega]
      rfl

theorem Space.Ok.entry_eq {s : Space} (h : s.Ok) (x : ℕ) : entry s x = s.pte x := by
  unfold entry
  cases hp : s.pte x with
  | none => exact ite_self none
  | some e => rw [if_pos (Option.isSome_iff_ne_none.2 (h.backed x e hp))]

theorem plainLoop_spec (l : List ℕ) : ∀ (k : Kmem) (s : Space), (∀ x ∈ l, x < KERNBASE) → s.Ok → Fine L (k.freelist + s.pages) →
    ∃ k' s', plainLoop L k s l = .ok (k', s') ∧ s'.Ok ∧ s'.tab = s.tab ∧ s'.dir = s.dir ∧
      (k'.freelist : Multiset ℕ) + s'.pages = k.freelist + s.pages ∧
      (∀ x, s'.pte x = if x ∈ l then none else s.pte x) ∧ (Generous k → Generous k') := by
  induction l with
  | nil =>
    intro k s _ hs _
    exact ⟨k, s, rfl, hs, rfl, rfl, rfl, fun x => (if_neg List.not_mem_nil).symm, id⟩
  | cons y l ih =>
    intro k s hl hs hfine
    obtain ⟨hlt, hl⟩ := List.forall_mem_cons.1 hl
    rw [plainLoop, visit, hs.entry_eq]
    cases hp : s.pte y with
    | none =>
      obtain ⟨k', s', hrun, hs', htab, hdir, hacc, hpte, hgen⟩ := ih k s hl hs hfine
      refine ⟨k', s', hrun, hs', htab, hdir, hacc, fun x => ?_, hgen⟩
      by_cases hx : x = y <;> simp [hpte, hx, hp]
    | some e =>
      have hmem : e.frame ∈ (k.freelist : Multiset ℕ) + s.pages := Multiset.mem_add.2 (.inr (frame_mem_pages hlt hp))
      have hacc1 : ((e.frame :: k.freelist : List ℕ) : Multiset ℕ) + ({ s with pte := update s.pte y none } : Space).pages =
          k.freelist + s.pages := by
        rw [pages_clearPte hlt hp, ← cons_coe, cons_add, add_cons]
      dsimp only
      rw [if_neg (hfine.ne_zero hmem), kfree_fine (hfine _ hmem)]
      obtain ⟨k', s', hrun, hs', htab, hdir, hacc, hpte, hgen⟩ := ih { k with freelist := e.frame :: k.freelist }
        { s with pte := update s.pte y none } hl (hs.clearPte y) (by rw [hacc1]; exact hfine)
      refine ⟨k', s', hrun, hs', htab, hdir, hacc.trans hacc1, fun x => ?_, hgen⟩
      by_cases hx : x = y <;> simp [hpte, hx]

theorem numPages_mono {a b : ℕ} (h : a ≤ b) : numPages a ≤ numPages b := by
  unfold numPages
  omega

theorem numPages_le {sz : ℕ} (h : sz ≤ KERNBASE * PGSIZE) : numPages sz ≤ KERNBASE := by
  unfold numPages
  simp only [KERNBASE, PGSIZE] at *
  omega

theorem numPages_zero : numPages 0 = 0 := by
  unfold numPages
  rfl

theorem numPages_kernbase : numPages (KERNBASE * PGSIZE) = KERNBASE := by
  unfold numPages KERNBASE PGSIZE
  rfl

/-- **deallocuvm.** The pages from PGROUNDUP(newsz) up to oldsz go to the free list. -/
theorem deallocuvm_spec (k : Kmem) (s : Space) {oldsz : ℕ} (newsz : ℕ) (hle : oldsz ≤ KERNBASE * PGSIZE)
    (hs : s.Ok) (hfine : Fine L (k.freelist + s.pages)) :
    ∃ k' s', deallocuvm L k s oldsz newsz = .ok (if newsz ≥ oldsz then oldsz else newsz, k', s') ∧ s'.Ok ∧
      s'.tab = s.tab ∧ s'.dir = s.dir ∧ (k'.freelist : Multiset ℕ) + s'.pages = k.freelist + s.pages ∧
      (∀ x, s'.pte x = if numPages newsz ≤ x ∧ x < numPages oldsz then none else s.pte x) ∧
      (Generous k → Generous k') := by
  unfold deallocuvm
  by_cases h : newsz ≥ oldsz
  · rw [if_pos h, if_pos h]
    refine ⟨k, s, rfl, hs, rfl, rfl, rfl, fun x => ?_, id⟩
    have := numPages_mono h
    rw [if_neg (by omega)]
  · have hbound := numPages_le hle
    obtain ⟨k', s', hrun, hs', htab, hdir, hacc, hpte, hgen⟩ :=
      plainLoop_spec (List.range' (numPages newsz) (numPages oldsz - numPages newsz)) k s
        (fun x hx => by rw [List.mem_range'_1] at hx; omega) hs hfine
    rw [if_neg h, if_neg h, plainLoop_eq _ _ k s le_rfl, hrun]
    exact ⟨k', s', rfl, hs', htab, hdir, hacc,
      fun x => (hpte x).trans (if_congr (List.mem_range'_1.trans (by omega)) rfl rfl), hgen⟩

theorem freeTables_spec (tab : ℕ → Option ℕ) (l : List ℕ) : ∀ k : Kmem, Fine L (l.filterMap tab : Multiset ℕ) →
    ∃ k', freeTables L tab k l = .ok k' ∧
      (k'.freelist : Multiset ℕ) = k.freelist + (l.filterMap tab : Multiset ℕ) ∧ (Generous k → Generous k') := by
  induction l with
  | nil =>
    intro k _
    exact ⟨k, rfl, by simp, id⟩
  | cons i rest ih =>
    intro k hfine
    unfold freeTables
    cases ht : tab i with
    | none =>
      rw [List.filterMap_cons_none ht] at hfine ⊢
      exact ih k hfine
    | some t =>
      rw [List.filterMap_cons_some ht, ← cons_coe] at hfine ⊢
      dsimp only
      rw [kfree_fine (hfine t (mem_cons_self _ _))]
      obtain ⟨k', hrun, hfree, hgen⟩ :=
        ih { k with freelist := t :: k.freelist } fun p hp => hfine p (mem_cons_of_mem hp)
      refine ⟨k', hrun, ?_, hgen⟩
      rw [hfree, ← cons_coe, cons_add, add_cons]

/-- **freevm.** All pages of the address space go to the free list. -/
theorem freevm_spec (k : Kmem) (s : Space) (hs : s.Ok) (hfine : Fine L (k.freelist + s.pages)) :
    ∃ k', freevm L k s = .ok k' ∧ (k'.freelist : Multiset ℕ) = k.freelist + s.pages ∧ (Generous k → Generous k') := by
  obtain ⟨k1, s1, hrun1, hs1, htab1, hdir1, hacc1, hpte1, hgen1⟩ :=
    deallocuvm_spec k s 0 (le_refl (KERNBASE * PGSIZE)) hs hfine
  have hnone : ∀ x < KERNBASE, s1.pte x = none := fun x hx => by
    rw [hpte1 x, numPages_kernbase, if_pos ⟨by rw [numPages_zero]; exact Nat.zero_le x, hx⟩]
  have hpages : s1.pages = s1.dir ::ₘ ((List.range NPDENTRIES).filterMap s1.tab : Multiset ℕ) := by
    unfold Space.pages
    rw [stock_eq_zero hnone, add_zero, stock_toList]
  have hfine1 : Fine L (k1.freelist + s1.pages) := by
    rw [hacc1]
    exact hfine
  rw [hpages] at hfine1 hacc1
  obtain ⟨k2, hrun2, hfree2, hgen2⟩ := freeTables_spec s1.tab (List.range NPDENTRIES) k1
    (hfine1.of_le ((le_cons_self _ _).trans (le_add_left _ _)))
  have hdir := hfine1 s1.dir (mem_add.2 (.inr (mem_cons_self _ _)))
  unfold freevm
  rw [hrun1]
  dsimp only
  rw [hrun2]
  dsimp only
  refine ⟨_, kfree_fine hdir, ?_, fun h => hgen2 (hgen1 h)⟩
  rw [← hacc1, ← cons_coe, hfree2, add_cons]

/-! ## Building an address space -/

/-- the kernel's part of an address space is complete -/
def Space.Kvm (L : Layout) (s : Space) : Prop :=
  ∀ m ∈ kmap L, ∀ x, m.virt ≤ x → x < m.virt + m.pages → (s.pte x).isSome

theorem card_pages_le (m : ℕ) (h : ∀ x, m ≤ x → x < KERNBASE → s.pte x = none) : Multiset.card s.pages ≤ 1025 + m := by
  have htab := card_stock_le (n := NPDENTRIES) (g := fun t : ℕ => ({t} : Multiset ℕ)) (f := s.tab) (fun _ => rfl) NPDENTRIES
    fun i h1 h2 => absurd h2 (by omega)
  have hpte := card_stock_le (n := KERNBASE) (g := fun e : Pte => ({e.frame} : Multiset ℕ)) (f := s.pte) (fun _ => rfl) m h
  unfold Space.pages
  rw [card_cons, card_add]
  unfold NPDENTRIES at htab ⊢
  omega

theorem new_space {k k1 : Kmem} {d : ℕ} (hfree : k.freelist = d :: k1.freelist) : (⟨d, fun _ => none, fun _ => none⟩ : Space).Ok ∧
      (k1.freelist : Multiset ℕ) + (⟨d, fun _ => none, fun _ => none⟩ : Space).pages = k.freelist := by
  refine ⟨⟨nofun, nofun, fun _ _ _ => rfl, fun _ _ => rfl⟩, ?_⟩
  unfold Space.pages
  rw [stock_eq_zero fun _ _ => rfl, stock_eq_zero fun _ _ => rfl, hfree, ← cons_coe, add_zero, add_cons, add_zero]

/-- **setupkvm.** A new address space with the kernel's part only, or nothing. -/
theorem setupkvm_spec (L : Layout) (k : Kmem) (hfine : Fine L k.freelist) :
    ∃ r k', setupkvm L k = .ok (r, k') ∧ (r = none → (k'.freelist : Multiset ℕ) = k.freelist) ∧
      (∀ s, r = some s → (k'.freelist : Multiset ℕ) + s.pages = k.freelist ∧ s.Ok ∧ s.Kvm L ∧ ∀ x < KERNBASE, s.pte x = none) ∧
      (Generous k → Generous k' ∧ (1025 < k.freelist.length → r ≠ none)) := by
  unfold setupkvm
  rcases kalloc_cases k with ⟨d, k1, hk, hfree, hgen⟩ | ⟨k1, hk, hfree, hgen⟩
  · rw [hk]
    obtain ⟨hempty, hnew⟩ := new_space hfree
    obtain ⟨b, k2, s, hmap, hs, hacc, hsame, hmapped, hgen2⟩ :=
      mapKernel_spec (kmap L) KERNBASE k1 _ (ascending_kmap L) hempty fun _ _ => rfl
    rw [hnew] at hacc
    dsimp only
    rw [hmap]
    cases b with
    | true =>
      refine ⟨some s, k2, rfl, nofun, ?_, fun h => ⟨(hgen2 (hgen h)).1, fun _ => nofun⟩⟩
      rintro s' ⟨⟩
      exact ⟨hacc, hs, hmapped rfl, hsame⟩
    | false =>
      obtain ⟨k3, hrun, hfree3, hgen3⟩ := freevm_spec k2 s hs (by rw [hacc]; exact hfine)
      dsimp only
      rw [hrun]
      refine ⟨none, k3, rfl, fun _ => hfree3.trans hacc, nofun, fun h => ⟨hgen3 (hgen2 (hgen h)).1, fun hlen => ?_⟩⟩
      -- all free pages would have become page tables
      have hcard := congrArg Multiset.card hacc
      have hle := card_pages_le 0 fun x _ hx => hsame x hx
      rw [(hgen2 (hgen h)).2 rfl] at hcard
      simp only [card_add, coe_card, List.length_nil] at hcard
      omega
  · rw [hk]
    refine ⟨none, k1, rfl, fun _ => by rw [hfree], nofun, fun h => ⟨(hgen h).1, fun hlen => ?_⟩⟩
    rw [← hfree, (hgen h).2] at hlen
    exact absurd hlen (Nat.not_lt_zero _)

/-- **mappages of one user page.** -/
theorem mappages_user (k : Kmem) (hs : s.Ok) (hv : v < KERNBASE) (hnone : s.pte v = none) (f : ℕ) (w u : Bool) :
    ∃ b k' s', mappages k s v f w u 1 = .ok (b, k', s') ∧ s'.Ok ∧
      (b = true → (k'.freelist : Multiset ℕ) + s'.pages = f ::ₘ (k.freelist + s.pages) ∧
        s'.pte = update s.pte v (some ⟨f, w, u⟩)) ∧
      (b = false → (k'.freelist : Multiset ℕ) + s'.pages = k.freelist + s.pages ∧ s'.pte = s.pte) ∧
      (Generous k → Generous k' ∧ (b = false → k'.freelist = [])) := by
  have hbound : v < TOP ∧ v / 1024 < 568 := by
    unfold KERNBASE at hv
    unfold TOP
    omega
  obtain ⟨b, k1, s1, hwalk, hs1, hpte1, hacc1, htab1, hgen1⟩ := walkpgdir_alloc k hs hbound.1 (.inl hbound.2)
  unfold mappages
  rw [hwalk]
  cases b with
  | false => exact ⟨false, k1, s1, rfl, hs1, nofun, fun _ => ⟨hacc1, hpte1⟩, hgen1⟩
  | true =>
    have hfree : s1.pte v = none := by rw [hpte1, hnone]
    dsimp only
    rw [hfree, if_neg (by exact Bool.false_ne_true)]
    refine ⟨true, k1, _, rfl, hs1.setPte (htab1 rfl) fun h => absurd h (by omega), fun _ => ⟨?_, ?_⟩, nofun,
      fun h => ⟨(hgen1 h).1, nofun⟩⟩
    · rw [pages_setPte_user hv hfree, add_cons, hacc1]
    · dsimp only
      rw [hpte1]

theorem allocLoop_spec {oldsz newsz : ℕ} (hlt : newsz < KERNBASE * PGSIZE) (n : ℕ) :
    ∀ (a : ℕ) (k : Kmem) (s : Space), numPages oldsz ≤ a → a + n = numPages newsz → s.Ok →
    Fine L (k.freelist + s.pages) → (∀ x, a ≤ x → x < KERNBASE → s.pte x = none) →
    ∃ r k' s', allocLoop L k s oldsz newsz a n = .ok (r, k', s') ∧ s'.Ok ∧
      (k'.freelist : Multiset ℕ) + s'.pages = k.freelist + s.pages ∧
      (∀ x, x < numPages oldsz ∨ KERNBASE ≤ x → s'.pte x = s.pte x) ∧ ((r = newsz ∧ (∀ x, x < a → s'.pte x = s.pte x) ∧
        (∀ x, a ≤ x → x < numPages newsz → ∃ e, s'.pte x = some e ∧ e.u = true) ∧
        ∀ x, numPages newsz ≤ x → x < KERNBASE → s'.pte x = none) ∨
       (r = 0 ∧ ∀ x, numPages oldsz ≤ x → x < KERNBASE → s'.pte x = none)) ∧ (Generous k → Generous k' ∧
        (1026 + numPages newsz < Multiset.card ((k.freelist : Multiset ℕ) + s.pages) → r = newsz)) := by
  have hpages := numPages_le (Nat.le_of_lt hlt)
  -- both error paths end in this deallocuvm
  have hundo : ∀ (a : ℕ) (k : Kmem) (s : Space), a ≤ numPages newsz → s.Ok → Fine L (k.freelist + s.pages) →
      (∀ x, a ≤ x → x < KERNBASE → s.pte x = none) →
      ∃ k' s', deallocuvm L k s newsz oldsz = .ok (if oldsz ≥ newsz then newsz else oldsz, k', s') ∧ s'.Ok ∧
        (k'.freelist : Multiset ℕ) + s'.pages = k.freelist + s.pages ∧
        (∀ x, x < numPages oldsz ∨ KERNBASE ≤ x → s'.pte x = s.pte x) ∧
        (∀ x, numPages oldsz ≤ x → x < KERNBASE → s'.pte x = none) ∧ (Generous k → Generous k') := by
    intro a k s ha hs hfine hnone
    obtain ⟨k', s', hrun, hs', -, -, hacc, hpte, hgen⟩ := deallocuvm_spec k s oldsz (Nat.le_of_lt hlt) hs hfine
    refine ⟨k', s', hrun, hs', hacc, fun x hx => ?_, fun x h1 h2 => ?_, hgen⟩
    · rw [hpte x, if_neg (by omega)]
    · rw [hpte x]
      split_ifs with hx
      · rfl
      · exact hnone x (by omega) h2
  induction n with
  | zero =>
    intro a k s ha hn hs hfine hnone
    exact ⟨newsz, k, s, rfl, hs, rfl, fun _ _ => rfl, .inl ⟨rfl, fun _ _ => rfl, fun x h1 h2 => absurd h2 (by omega),
      fun x h1 h2 => hnone x (by omega) h2⟩, fun h => ⟨h, fun _ => rfl⟩⟩
  | succ n ih =>
    intro a k s ha hn hs hfine hnone
    have hcard := card_pages_le a hnone
    unfold allocLoop
    rcases kalloc_cases k with ⟨mem, k1, hk, hfree, hgen1⟩ | ⟨k1, hk, hfree, hgen1⟩
    · have hacc0 : (k.freelist : Multiset ℕ) + s.pages = mem ::ₘ (k1.freelist + s.pages) := by
        rw [hfree, ← cons_coe, cons_add]
      have hva : a < KERNBASE := by omega
      obtain ⟨b, k2, s2, hmap, hs2, htrue, hfalse, hgen2⟩ :=
        mappages_user k1 hs hva (hnone a le_rfl hva) mem true true
      rw [hk]
      dsimp only
      rw [hmap]
      cases b with
      | true =>
        obtain ⟨hacc2, hpte2⟩ := htrue rfl
        rw [← hacc0] at hacc2
        have hother : ∀ x, x ≠ a → s2.pte x = s.pte x := fun x hx => by rw [hpte2, update_of_ne hx]
        obtain ⟨r, k3, s3, hrun, hs3, hacc3, hsame3, hres3, hgen3⟩ := ih (a + 1) k2 s2 (by omega) (by omega) hs2
          (by rw [hacc2]; exact hfine) fun x h1 h2 => by
            rw [hother x (by omega)]
            exact hnone x (by omega) h2
        refine ⟨r, k3, s3, hrun, hs3, hacc3.trans hacc2, fun x hx => ?_, ?_, fun h => ?_⟩
        · rw [hsame3 x hx, hother x (by omega)]
        · rcases hres3 with ⟨hr, hlow, hmid, hhigh⟩ | hzero
          · refine .inl ⟨hr, fun x hx => ?_, fun x h1 h2 => ?_, hhigh⟩
            · rw [hlow x (by omega), hother x (by omega)]
            · by_cases hx : x = a
              · refine ⟨⟨mem, true, true⟩, ?_, rfl⟩
                rw [hx, hlow a (by omega), hpte2, update_self]
              · exact hmid x (by omega) h2
          · exact .inr hzero
        · rw [← hacc2]
          exact hgen3 (hgen2 (hgen1 h)).1
      | false =>
        obtain ⟨hacc2, hpte2⟩ := hfalse rfl
        have hfine2 : Fine L (k2.freelist + s2.pages) := by
          rw [hacc2]
          refine hfine.of_le ?_
          rw [hacc0]
          exact le_cons_self _ _
        obtain ⟨k3, s3, hrun, hs3, hacc3, hsame3, hnone3, hgen3⟩ := hundo a k2 s2 (by omega) hs2 hfine2
          fun x h1 h2 => by rw [hpte2]; exact hnone x h1 h2
        have hmem := hfine mem (by rw [hacc0]; exact mem_cons_self _ _)
        dsimp only
        rw [hrun]
        dsimp only
        rw [kfree_fine hmem]
        refine ⟨0, _, s3, rfl, hs3, ?_, fun x hx => ?_, .inr ⟨rfl, hnone3⟩,
          fun h => ⟨hgen3 (hgen2 (hgen1 h)).1, fun hc => ?_⟩⟩
        · rw [hacc0, ← cons_coe, cons_add, hacc3, hacc2]
        · rw [hsame3 x hx, hpte2]
        · -- no page was left for the page table
          have h1 := (hgen2 (hgen1 h)).2 rfl
          have h2 := congrArg Multiset.card hacc2
          have hcard2 := card_pages_le a (s := s2) fun x hx1 hx2 => by rw [hpte2]; exact hnone x hx1 hx2
          rw [h1] at h2
          rw [hacc0] at hc
          simp only [card_add, card_cons, coe_card, List.length_nil] at h2 hc
          omega
    · obtain ⟨k3, s3, hrun, hs3, hacc3, hsame3, hnone3, hgen3⟩ := hundo a k1 s (by omega) hs
        (by rw [hfree]; exact hfine) hnone
      rw [hk]
      dsimp only
      rw [hrun]
      refine ⟨0, k3, s3, rfl, hs3, by rw [hacc3, hfree], hsame3, .inr ⟨rfl, hnone3⟩,
        fun h => ⟨hgen3 (hgen1 h).1, fun hc => ?_⟩⟩
      rw [← hfree, (hgen1 h).2] at hc
      simp only [card_add, coe_card, List.length_nil] at hc
      omega

/-- **allocuvm.** Either user pages from PGROUNDUP(oldsz) up to the larger size, or 0 and nothing above oldsz. -/
theorem allocuvm_spec (k : Kmem) (s : Space) (oldsz newsz : ℕ) (hs : s.Ok) (hfine : Fine L (k.freelist + s.pages))
    (hnone : ∀ x, numPages oldsz ≤ x → x < KERNBASE → s.pte x = none) :
    ∃ r k' s', allocuvm L k s oldsz newsz = .ok (r, k', s') ∧ s'.Ok ∧
      (k'.freelist : Multiset ℕ) + s'.pages = k.freelist + s.pages ∧
      (∀ x, x < numPages oldsz ∨ KERNBASE ≤ x → s'.pte x = s.pte x) ∧ ((r = max oldsz newsz ∧ newsz < KERNBASE * PGSIZE ∧
        (∀ x, numPages oldsz ≤ x → x < numPages r → ∃ e, s'.pte x = some e ∧ e.u = true) ∧
        ∀ x, numPages r ≤ x → x < KERNBASE → s'.pte x = none) ∨
       (r = 0 ∧ ∀ x, numPages oldsz ≤ x → x < KERNBASE → s'.pte x = none)) ∧
      (Generous k → Generous k' ∧ (newsz < KERNBASE * PGSIZE →
        1026 + numPages newsz < Multiset.card ((k.freelist : Multiset ℕ) + s.pages) → r = max oldsz newsz)) := by
  unfold allocuvm
  by_cases h1 : newsz ≥ KERNBASE * PGSIZE
  · rw [if_pos h1]
    exact ⟨0, k, s, rfl, hs, rfl, fun _ _ => rfl, .inr ⟨rfl, hnone⟩, fun h => ⟨h, fun h2 => absurd h1 (by omega)⟩⟩
  · rw [if_neg h1]
    by_cases h2 : newsz < oldsz
    · rw [if_pos h2]
      have hmax : oldsz = max oldsz newsz := (max_eq_left (Nat.le_of_lt h2)).symm
      exact ⟨oldsz, k, s, rfl, hs, rfl, fun _ _ => rfl,
        .inl ⟨hmax, by omega, fun x h3 h4 => absurd h4 (by omega), hnone⟩, fun h => ⟨h, fun _ _ => hmax⟩⟩
    · rw [if_neg h2]
      have hmono := numPages_mono (show oldsz ≤ newsz by omega)
      have hmax : newsz = max oldsz newsz := (max_eq_right (by omega)).symm
      obtain ⟨r, k', s', hrun, hs', hacc, hsame, hres, hgen⟩ := allocLoop_spec
        (show newsz < KERNBASE * PGSIZE by omega) (numPages newsz - numPages oldsz) (numPages oldsz) k s le_rfl (by omega) hs
        hfine hnone
      refine ⟨r, k', s', hrun, hs', hacc, hsame, ?_, fun h => ⟨(hgen h).1, fun _ hc => ?_⟩⟩
      · rcases hres with ⟨hr, -, hmid, hhigh⟩ | hzero
        · rw [hr]
          exact .inl ⟨hmax, by omega, hmid, hhigh⟩
        · exact .inr hzero
      · rw [← hmax]
        exact (hgen h).2 hc

/-! ## Copying an address space -/

theorem copyPages_spec {old : Space} (hold : old.Ok) (n : ℕ) : ∀ (i : ℕ) (k : Kmem) (d : Space), d.Ok →
    Fine L (k.freelist + d.pages) → i + n ≤ KERNBASE → (∀ x, i ≤ x → x < KERNBASE → d.pte x = none) →
    (∃ p x, copyPages L k old d i n = .error p ∧ i ≤ x ∧ x < i + n ∧ old.pte x = none) ∨
    (∃ k', copyPages L k old d i n = .ok (none, k') ∧ (k'.freelist : Multiset ℕ) = k.freelist + d.pages) ∨
    ∃ d' k', copyPages L k old d i n = .ok (some d', k') ∧ d'.Ok ∧ (k'.freelist : Multiset ℕ) + d'.pages = k.freelist + d.pages ∧
      (∀ x, x < i ∨ KERNBASE ≤ x → d'.pte x = d.pte x) ∧ (∀ x, i ≤ x → x < i + n → (d'.pte x).isSome) ∧
      ∀ x, i + n ≤ x → x < KERNBASE → d'.pte x = none := by
  induction n with
  | zero =>
    intro i k d hd _ _ hnone
    exact .inr (.inr ⟨d, k, rfl, hd, rfl, fun _ _ => rfl, fun x h1 h2 => absurd h2 (by omega), hnone⟩)
  | succ n ih =>
    intro i k d hd hfine hi hnone
    unfold copyPages
    cases ht : old.tab (i / 1024) with
    | none =>
      refine .inl ⟨.pteShouldExist, i, rfl, le_rfl, by omega, ?_⟩
      cases hp : old.pte i with
      | none => rfl
      | some e => exact absurd ht (hold.backed i e hp)
    | some t =>
      cases hp : old.pte i with
      | none => exact .inl ⟨.pageNotPresent, i, rfl, le_rfl, by omega, hp⟩
      | some e =>
        rcases kalloc_cases k with ⟨mem, k1, hk, hfree, -⟩ | ⟨k1, hk, hfree, -⟩
        · have hacc0 : (k.freelist : Multiset ℕ) + d.pages = mem ::ₘ (k1.freelist + d.pages) := by
            rw [hfree, ← cons_coe, cons_add]
          have hvi : i < KERNBASE := by omega
          obtain ⟨b, k2, d2, hmap, hd2, htrue, hfalse, -⟩ := mappages_user k1 hd hvi (hnone i le_rfl hvi) mem e.w e.u
          dsimp only
          rw [hk]
          dsimp only
          rw [hmap]
          cases b with
          | true =>
            obtain ⟨hacc2, hpte2⟩ := htrue rfl
            rw [← hacc0] at hacc2
            have hother : ∀ x, x ≠ i → d2.pte x = d.pte x := fun x hx => by rw [hpte2, update_of_ne hx]
            rcases ih (i + 1) k2 d2 hd2 (by rw [hacc2]; exact hfine) (by omega) (fun x h1 h2 => by
              rw [hother x (by omega)]
              exact hnone x (by omega) h2) with ⟨p, x, hrun, h1, h2, h3⟩ | ⟨k3, hrun, hfree3⟩ |
                ⟨d3, k3, hrun, hd3, hacc3, hsame3, hmid3, hhigh3⟩
            · exact .inl ⟨p, x, hrun, by omega, by omega, h3⟩
            · exact .inr (.inl ⟨k3, hrun, hfree3.trans hacc2⟩)
            · refine .inr (.inr ⟨d3, k3, hrun, hd3, hacc3.trans hacc2, fun x hx => ?_, fun x h1 h2 => ?_,
                fun x h1 h2 => hhigh3 x (by omega) h2⟩)
              · rw [hsame3 x (by omega), hother x (by omega)]
              · by_cases hx : x = i
                · rw [hx, hsame3 i (by omega), hpte2, update_self]
                  rfl
                · exact hmid3 x (by omega) (by omega)
          | false =>
            obtain ⟨hacc2, -⟩ := hfalse rfl
            have hmem := hfine mem (by rw [hacc0]; exact mem_cons_self _ _)
            have hacc3 : ((mem :: k2.freelist : List ℕ) : Multiset ℕ) + d2.pages = k.freelist + d.pages := by
              rw [hacc0, ← cons_coe, cons_add, hacc2]
            obtain ⟨k3, hrun, hfree3, -⟩ := freevm_spec { k2 with freelist := mem :: k2.freelist } d2 hd2
              (by rw [hacc3]; exact hfine)
            dsimp only
            rw [kfree_fine hmem]
            dsimp only
            rw [hrun]
            exact .inr (.inl ⟨k3, rfl, hfree3.trans hacc3⟩)
        · obtain ⟨k3, hrun, hfree3, -⟩ := freevm_spec k1 d hd (by rw [hfree]; exact hfine)
          dsimp only
          rw [hk]
          dsimp only
          rw [hrun]
          exact .inr (.inl ⟨k3, rfl, by rw [hfree3, hfree]⟩)

/-- **copyuvm.** It panics only if a page below sz is missing; otherwise it builds a copy or nothing. -/
theorem copyuvm_spec (k : Kmem) {old : Space} (hold : old.Ok) {sz : ℕ} (hsz : sz ≤ KERNBASE * PGSIZE)
    (hfine : Fine L k.freelist) :
    (∃ p x, copyuvm L k old sz = .error p ∧ x < numPages sz ∧ old.pte x = none) ∨
    (∃ k', copyuvm L k old sz = .ok (none, k') ∧ (k'.freelist : Multiset ℕ) = k.freelist) ∨
    ∃ d k', copyuvm L k old sz = .ok (some d, k') ∧ d.Ok ∧ d.Kvm L ∧
      (k'.freelist : Multiset ℕ) + d.pages = k.freelist ∧ (∀ x, x < numPages sz → (d.pte x).isSome) ∧
      ∀ x, numPages sz ≤ x → x < KERNBASE → d.pte x = none := by
  obtain ⟨r, k1, hrun, hnone, hsome, -⟩ := setupkvm_spec L k hfine
  unfold copyuvm
  rw [hrun]
  cases r with
  | none => exact .inr (.inl ⟨k1, rfl, hnone rfl⟩)
  | some d =>
    obtain ⟨hacc, hd, hkvm, hempty⟩ := hsome d rfl
    rcases copyPages_spec hold (numPages sz) 0 k1 d hd (by rw [hacc]; exact hfine) (by
      have := numPages_le hsz
      omega) (fun x _ hx => hempty x hx) with ⟨p, x, hrun, -, h2, h3⟩ | ⟨k3, hrun, hfree3⟩ |
        ⟨d3, k3, hrun, hd3, hacc3, hsame3, hmid3, hhigh3⟩
    · exact .inl ⟨p, x, hrun, by omega, h3⟩
    · exact .inr (.inl ⟨k3, hrun, hfree3.trans hacc⟩)
    · refine .inr (.inr ⟨d3, k3, hrun, hd3, fun m hm x h1 h2 => ?_, hacc3.trans hacc, fun x hx => ?_, fun x h1 h2 => ?_⟩)
      · rw [hsame3 x (.inr ((kernbase_le_virt hm).trans h1))]
        exact hkvm m hm x h1 h2
      · exact hmid3 x (Nat.zero_le x) (by omega)
      · exact hhigh3 x (by omega) h2

theorem pages_replace {e' : Pte} (he : s.pte v = some e) (hf : e'.frame = e.frame) :
    ({ s with pte := update s.pte v (some e') } : Space).pages = s.pages := by
  by_cases hv : v < KERNBASE
  · have h := stock_update (g := fun e : Pte => ({e.frame} : Multiset ℕ)) (f := s.pte) hv (some e')
    rw [he] at h
    simp only [Option.elim_some, hf] at h
    unfold Space.pages
    dsimp only
    rw [add_right_cancel h]
  · exact pages_setPte_kernel (by omega) _

theorem clearpteu_spec (hs : s.Ok) (he : s.pte v = some e) :
    ∃ s', clearpteu s v = .ok s' ∧ s'.Ok ∧ s'.pages = s.pages ∧ s'.dir = s.dir ∧ s'.pte =
      update s.pte v (some { e with u := false }) := by
  have ht := hs.backed v e he
  unfold clearpteu
  cases htab : s.tab (v / 1024) with
  | none => exact absurd htab ht
  | some t =>
    rw [he]
    exact ⟨_, rfl, hs.setPte ht fun _ => rfl, pages_replace he rfl, rfl, rfl⟩

end Xv6.Mem
