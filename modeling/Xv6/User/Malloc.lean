/-
umalloc.c: malloc and free of the user programs.

A header is a pointer and a size, in units of sizeof(Header) = 8 bytes, and is named by its address. `base` is the address
of the static header, below all memory that sbrk returns. Memory is the two fields of the headers; blocks are disjoint and
at least one unit long, so two headers never share bytes, and addresses do not wrap, since sbrk returns memory of the address
space. sbrk either fails or returns any address from the end of the last region on. The program may write to its own blocks
between the calls, so all words but the headers in use may change there. The search loops take fuel.

Beside the memory the heap keeps what no code reads: the end of the last region, the units obtained from sbrk and the
blocks handed out.

- `malloc_free_arena`: in every reachable heap the free list is one circle through base, increasing but for its wrap, its
  blocks are disjoint from each other and from those handed out, none adjacent to another, free and allocated units are
  those obtained from sbrk, and every call of malloc and free returns.
-/
import Xv6.Param
import Xv6.Lib.Circular

namespace Xv6.Malloc

open Lib List
open List (mem_append mem_append_right mem_cons_self mem_cons append_of_mem headD_cons pairwise_singleton)

/-! ## Model -/

/-- the headers and freep -/
structure Mem where
  ptr : ℕ → ℕ
  size : ℕ → ℕ
  freep : ℕ

/-- `p + p->s.size` -/
def Mem.past (m : Mem) (p : ℕ) : ℕ := p + 8 * m.size p

/-- the loop of free: after which header bp belongs -/
def findPlace (m : Mem) (bp : ℕ) : ℕ → ℕ → Option ℕ
  | 0, _ => none
  | fuel + 1, p =>
    if p < bp ∧ bp < m.ptr p then some p
    else if m.ptr p ≤ p ∧ (p < bp ∨ bp < m.ptr p) then some p
    else findPlace m bp fuel (m.ptr p)

/-- free joins bp with the block after it -/
def joinNext (m : Mem) (bp p : ℕ) : Mem :=
  if m.past bp = m.ptr p then
    { m with
      size := update m.size bp (m.size bp + m.size (m.ptr p))
      ptr := update m.ptr bp (m.ptr (m.ptr p)) }
  else { m with ptr := update m.ptr bp (m.ptr p) }

/-- and with the block before it -/
def joinPrev (m : Mem) (bp p : ℕ) : Mem :=
  if m.past p = bp then
    { m with size := update m.size p (m.size p + m.size bp), ptr := update m.ptr p (m.ptr bp) }
  else { m with ptr := update m.ptr p bp }

def free (fuel : ℕ) (m : Mem) (ap : ℕ) : Option Mem :=
  let bp := ap - 8
  match findPlace m bp fuel m.freep with
  | none => none
  | some p => some { joinPrev (joinNext m bp p) bp p with freep := p }

/-- the memory, the end of the last region, the units obtained from sbrk, and the headers of the blocks handed out -/
structure Heap where
  m : Mem
  brk : ℕ
  units : ℕ
  allocated : List ℕ

/-- what sbrk does with the break and the number of bytes asked for -/
abbrev Sbrk := ℕ → ℕ → Option ℕ

/-- a region lies above all earlier ones -/
def Sbrk.Fresh (sbrk : Sbrk) : Prop := ∀ brk n p, sbrk brk n = some p → brk ≤ p

/-- what malloc runs on: a state with the heap in it, and sbrk -/
structure Platform (σ ε : Type) where
  heap : σ → Heap
  setHeap : σ → Heap → σ
  sbrk : σ → ℕ → Except ε (Option ℕ × σ)

/-- the heap alone -/
abbrev Sbrk.platform (sbrk : Sbrk) : Platform Heap Empty := ⟨fun h => h, fun _ h => h, fun h n => .ok (sbrk h.brk n, h)⟩

section

variable {σ ε : Type} (y : Platform σ ε)

/-- `.ok none`: the fuel is too small; `.ok (some (s, none))`: it returns 0 -/
def morecore (fuel : ℕ) (s : σ) (nu : ℕ) : Except ε (Option (σ × Option ℕ)) :=
  let nu := if nu < 4096 then 4096 else nu
  match y.sbrk s (nu * 8) with
  | .error e => .error e
  | .ok (none, s) => .ok (some (s, none))
  | .ok (some hp, s) =>
    match free fuel { (y.heap s).m with size := update (y.heap s).m.size hp nu } (hp + 8) with
    | none => .ok none
    | some m => .ok (some (y.setHeap s ⟨m, hp + nu * 8, (y.heap s).units + nu, (y.heap s).allocated⟩, some m.freep))

/-- the block p is large enough: all of it, or its tail -/
def Heap.take (h : Heap) (nunits prevp p : ℕ) : Heap × Option ℕ :=
  if h.m.size p = nunits then
    ({ h with
      m := { h.m with ptr := update h.m.ptr prevp (h.m.ptr p), freep := prevp }
      allocated := p :: h.allocated }, some (p + 8))
  else
    let rest := h.m.size p - nunits
    ({ h with
      m := { h.m with size := update (update h.m.size p rest) (p + 8 * rest) nunits, freep := prevp }
      allocated := (p + 8 * rest) :: h.allocated }, some (p + 8 * rest + 8))

/-- the loop of malloc -/
def search (nunits : ℕ) : ℕ → σ → ℕ → ℕ → Except ε (Option (σ × Option ℕ))
  | 0, _, _, _ => .ok none
  | fuel + 1, s, prevp, p =>
    if nunits ≤ (y.heap s).m.size p then
      .ok (some (y.setHeap s ((y.heap s).take nunits prevp p).1, ((y.heap s).take nunits prevp p).2))
    else if p = (y.heap s).m.freep then
      match morecore y fuel s nunits with
      | .error e => .error e
      | .ok none => .ok none
      | .ok (some (s, none)) => .ok (some (s, none))
      | .ok (some (s, some p)) => search nunits fuel s p ((y.heap s).m.ptr p)
    else search nunits fuel s p ((y.heap s).m.ptr p)

/-- nbytes in units, with one for the header -/
def nunits (nbytes : Word) : ℕ := (nbytes + 8 - 1).toNat / 8 + 1

variable (base : ℕ)

/-- malloc before its loop: the first call makes the list of base alone -/
def Heap.start (h : Heap) : Heap :=
  if h.m.freep = 0 then { h with m := ⟨update h.m.ptr base base, update h.m.size base 0, base⟩ } else h

def malloc (fuel : ℕ) (s : σ) (nbytes : Word) : Except ε (Option (σ × Option ℕ)) :=
  let h := (y.heap s).start base
  search y (nunits nbytes) fuel (y.setHeap s h) h.m.freep (h.m.ptr h.m.freep)

end

section

variable (base : ℕ)

/-- x is a word of the program's, in a block handed out -/
def Payload (h : Heap) (x : ℕ) : Prop := ∃ b ∈ h.allocated, b + 8 ≤ x ∧ x < h.m.past b

/-- what any sequence of malloc, free and writes to the blocks handed out can lead to -/
inductive Reachable : Heap → Prop where
  | init {m : Mem} {brk : ℕ} (hm : m.freep = 0) (hbrk : base + 8 ≤ brk) : Reachable ⟨m, brk, 0, []⟩
  | malloc {h h' : Heap} {sbrk : Sbrk} {fuel : ℕ} {nbytes : Word} {r : Option ℕ} (hr : Reachable h) (hs : sbrk.Fresh)
      (hn : nunits nbytes * 8 < 2 ^ 32) (hm : malloc sbrk.platform base fuel h nbytes = .ok (some (h', r))) : Reachable h'
  | free {h : Heap} {m : Mem} {fuel b : ℕ} (hr : Reachable h) (hb : b ∈ h.allocated)
      (hf : free fuel h.m (b + 8) = some m) : Reachable { h with m := m, allocated := h.allocated.erase b }
  | write {h : Heap} {m : Mem} (hr : Reachable h) (hfreep : m.freep = h.m.freep)
      (hm : ∀ x, ¬ Payload h x → m.ptr x = h.m.ptr x ∧ m.size x = h.m.size x) : Reachable { h with m := m }

/-! ## The arena -/

/-- **The free list L and the allocated blocks al.** L is a circle that starts with base; each free block ends before the
next one starts; the allocated blocks are apart from the free ones and from each other, and all end at top at the latest. -/
structure Arena (m : Mem) (L al : List ℕ) (top : ℕ) : Prop where
  head : L.head? = some base
  walk : Walk m.ptr L base
  start : m.freep ∈ L
  zero : m.size base = 0
  gaps : L.Pairwise fun a b => m.past a < b
  block : ∀ a ∈ L, a = base ∨ base + 8 ≤ a ∧ 0 < m.size a
  inside : ∀ a ∈ L, m.past a ≤ top
  taken : ∀ b ∈ al, base + 8 ≤ b ∧ 0 < m.size b ∧ m.past b ≤ top
  apart : ∀ b ∈ al, ∀ a ∈ L, m.past a ≤ b ∨ m.past b ≤ a
  alApart : al.Pairwise fun b c => m.past b ≤ c ∨ m.past c ≤ b

/-- the units of the blocks of a list -/
def Mem.sum (m : Mem) (l : List ℕ) : ℕ := (l.map m.size).sum

end

variable {base : ℕ} {m : Mem} {L al : List ℕ} {top : ℕ}

theorem Mem.le_past (m : Mem) (p : ℕ) : p ≤ m.past p := Nat.le_add_right ..

variable {m' m1 : Mem} {l l1 l0 l2 : List ℕ} {bp p fuel b prevp nu : ℕ} {h : Heap} {sbrk : Sbrk}

theorem Mem.past_congr {m : Mem} {x : ℕ} (h : m'.size x = m.size x) : m'.past x = m.past x := by
  unfold Mem.past
  rw [h]

theorem Mem.sum_congr {m : Mem} (h : ∀ a ∈ l, m'.size a = m.size a) : m'.sum l = m.sum l := by
  unfold Mem.sum
  rw [map_congr_left h]

theorem Mem.sum_nil (m : Mem) : m.sum [] = 0 := rfl

theorem Mem.sum_append (m : Mem) (l1 l2 : List ℕ) : m.sum (l1 ++ l2) = m.sum l1 + m.sum l2 := by
  unfold Mem.sum
  rw [map_append, List.sum_append]

theorem Mem.sum_cons (m : Mem) (a : ℕ) (l : List ℕ) : m.sum (a :: l) = m.size a + m.sum l := by
  unfold Mem.sum
  rw [map_cons, List.sum_cons]

namespace Arena

theorem sorted (h : Arena base m L al top) : L.Pairwise (· < ·) :=
  h.gaps.imp fun {a _} hab => lt_of_le_of_lt (m.le_past a) hab

theorem nodup (h : Arena base m L al top) : L.Nodup := h.sorted.imp fun hab => ne_of_lt hab

theorem base_mem (h : Arena base m L al top) : base ∈ L := mem_of_head? h.head

theorem ptr_mem (h : Arena base m L al top) {a : ℕ} (ha : a ∈ L) : m.ptr a ∈ L := by
  rcases mem_append.1 (h.walk.next_mem ha) with hm | hm
  · exact mem_of_mem_tail hm
  · rw [mem_singleton.1 hm]
    exact h.base_mem

theorem base_le (h : Arena base m L al top) {a : ℕ} (ha : a ∈ L) : base ≤ a := by
  rcases h.block a ha with rfl | ⟨hle, -⟩
  · exact le_rfl
  · omega

theorem eq_cons (h : Arena base m L al top) : L = base :: L.tail := (cons_head?_tail h.head).symm

theorem notMem_of_apart {bp : ℕ} (hpos : 0 < m.size bp) (hap : ∀ a ∈ L, m.past a ≤ bp ∨ m.past bp ≤ a) : bp ∉ L := by
  intro hmem
  have := hap bp hmem
  unfold Mem.past at this
  omega

theorem taken_notMem (h : Arena base m L al top) {b : ℕ} (hb : b ∈ al) : b ∉ L :=
  notMem_of_apart (h.taken b hb).2.1 (h.apart b hb)

theorem al_nodup (h : Arena base m L al top) : al.Nodup := by
  refine h.alApart.imp_of_mem fun {b c} hb _ hap heq => ?_
  subst heq
  have := (h.taken b hb).2.1
  unfold Mem.past at hap
  omega

theorem mono (h : Arena base m L al top) {top' : ℕ} (hle : top ≤ top') : Arena base m L al top' :=
  ⟨h.head, h.walk, h.start, h.zero, h.gaps, h.block, fun a ha => (h.inside a ha).trans hle,
    fun b hb => ⟨(h.taken b hb).1, (h.taken b hb).2.1, (h.taken b hb).2.2.trans hle⟩, h.apart, h.alApart⟩

theorem congr (h : Arena base m L al top) (m' : Mem) (hfreep : m'.freep = m.freep)
    (hL : ∀ a ∈ L, m'.ptr a = m.ptr a ∧ m'.size a = m.size a) (hal : ∀ b ∈ al, m'.size b = m.size b) :
    Arena base m' L al top := by
  have hpL : ∀ a ∈ L, m'.past a = m.past a := fun a ha => Mem.past_congr (hL a ha).2
  have hpal : ∀ b ∈ al, m'.past b = m.past b := fun b hb => Mem.past_congr (hal b hb)
  refine ⟨h.head, h.walk.congr fun a ha => (hL a ha).1, hfreep ▸ h.start, ((hL base h.base_mem).2).trans h.zero,
    h.gaps.imp_of_mem fun {a b} ha _ hab => by rw [hpL a ha]; exact hab,
    fun a ha => by rw [(hL a ha).2]; exact h.block a ha, fun a ha => by rw [hpL a ha]; exact h.inside a ha,
    fun b hb => by rw [hal b hb, hpal b hb]; exact h.taken b hb,
    fun b hb a ha => by rw [hpL a ha, hpal b hb]; exact h.apart b hb a ha,
    h.alApart.imp_of_mem fun {b c} hb hc hbc => by rw [hpal b hb, hpal c hc]; exact hbc⟩

/-- the first header stays when something after it is replaced -/
theorem head_of_cons {l1 l2 : List ℕ} {p : ℕ} (h : Arena base m (l1 ++ p :: l2) al top) (l : List ℕ) :
    (l1 ++ p :: l).head? = some base := by
  have := h.head
  cases l1 with
  | nil | cons a l0 => exact this

end Arena

/-- a is a free block of m', between the free blocks l1 and l and apart from those allocated, as they are in m -/
structure Between (base : ℕ) (m m' : Mem) (l1 l al : List ℕ) (top a : ℕ) : Prop where
  block : a = base ∨ base + 8 ≤ a ∧ 0 < m'.size a
  inside : m'.past a ≤ top
  before : ∀ x ∈ l1, m.past x < a
  after : ∀ y ∈ l, m'.past a < y
  apart : ∀ b ∈ al, m'.past a ≤ b ∨ m.past b ≤ a

/-- **A part of the free list is replaced**, and the headers of the rest and those allocated keep their sizes. -/
theorem Arena.splice {mid : List ℕ} (h : Arena base m (l1 ++ (l0 ++ l)) al top)
    (hsize : ∀ x, x ∈ l1 ∨ x ∈ l ∨ x ∈ al → m'.size x = m.size x) (hhead : (l1 ++ (mid ++ l)).head? = some base)
    (hwalk : Walk m'.ptr (l1 ++ (mid ++ l)) base) (hstart : m'.freep ∈ l1 ++ (mid ++ l)) (hzero : m'.size base = 0)
    (hgaps : mid.Pairwise fun a b => m'.past a < b) (hmid : ∀ a ∈ mid, Between base m m' l1 l al top a) :
    Arena base m' (l1 ++ (mid ++ l)) al top := by
  have hpast := fun x hx => Mem.past_congr (hsize x hx)
  have hin1 : ∀ a ∈ l1, a ∈ l1 ++ (l0 ++ l) := fun a ha => mem_append_left _ ha
  have hin : ∀ a ∈ l, a ∈ l1 ++ (l0 ++ l) := fun a ha => mem_append_right _ (mem_append_right _ ha)
  -- a property of the blocks of the list: those outside mid have it since they had it
  have hall : ∀ {P : ℕ → Prop}, (∀ a ∈ l1, P a) → (∀ a ∈ mid, P a) → (∀ a ∈ l, P a) → ∀ a ∈ l1 ++ (mid ++ l), P a := by
    intro P h1 h2 h3 a ha
    rcases mem_append.1 ha with ha | ha
    · exact h1 a ha
    · rcases mem_append.1 ha with ha | ha
      · exact h2 a ha
      · exact h3 a ha
  obtain ⟨hg1, hg2, hcross⟩ := pairwise_append.1 h.gaps
  refine ⟨hhead, hwalk, hstart, hzero, ?_, hall (fun a ha => ?_) (fun a ha => (hmid a ha).block) fun a ha => ?_,
    hall (fun a ha => ?_) (fun a ha => (hmid a ha).inside) fun a ha => ?_, fun b hb => ?_,
    fun b hb => hall (fun a ha => ?_) (fun a ha => ?_) fun a ha => ?_, ?_⟩
  · refine pairwise_append.2 ⟨?_, pairwise_append.2 ⟨hgaps, ?_, fun a ha y hy => (hmid a ha).after y hy⟩, ?_⟩
    · exact hg1.imp_of_mem fun {x y} hx _ hxy => by rw [hpast x (.inl hx)]; exact hxy
    · exact (pairwise_append.1 hg2).2.1.imp_of_mem fun {x y} hx _ hxy => by rw [hpast x (.inr (.inl hx))]; exact hxy
    · intro x hx y hy
      rw [hpast x (.inl hx)]
      rcases mem_append.1 hy with hy | hy
      · exact (hmid y hy).before x hx
      · exact hcross x hx y (mem_append_right _ hy)
  · rw [hsize a (.inl ha)]
    exact h.block a (hin1 a ha)
  · rw [hsize a (.inr (.inl ha))]
    exact h.block a (hin a ha)
  · rw [hpast a (.inl ha)]
    exact h.inside a (hin1 a ha)
  · rw [hpast a (.inr (.inl ha))]
    exact h.inside a (hin a ha)
  · rw [hsize b (.inr (.inr hb)), hpast b (.inr (.inr hb))]
    exact h.taken b hb
  · rw [hpast a (.inl ha), hpast b (.inr (.inr hb))]
    exact h.apart b hb a (hin1 a ha)
  · rw [hpast b (.inr (.inr hb))]
    exact (hmid a ha).apart b hb
  · rw [hpast a (.inr (.inl ha)), hpast b (.inr (.inr hb))]
    exact h.apart b hb a (hin a ha)
  · refine h.alApart.imp_of_mem fun {b c} hb hc hbc => ?_
    rw [hpast b (.inr (.inr hb)), hpast c (.inr (.inr hc))]
    exact hbc

theorem Mem.sum_splice {m : Mem} (mid : List ℕ) (hsize : ∀ x, x ∈ l1 ∨ x ∈ l ∨ x ∈ al → m'.size x = m.size x) :
    m'.sum (l1 ++ (mid ++ l)) = m.sum l1 + (m'.sum mid + m.sum l) := by
  have h1 : m'.sum l1 = m.sum l1 := Mem.sum_congr fun a ha => hsize a (.inl ha)
  have h2 : m'.sum l = m.sum l := Mem.sum_congr fun a ha => hsize a (.inr (.inl ha))
  rw [Mem.sum_append, Mem.sum_append, h1, h2]

/-! ## free -/

/-- where the loop of free stops -/
def Stops (m : Mem) (bp p : ℕ) : Prop := p < bp ∧ bp < m.ptr p ∨ m.ptr p ≤ p ∧ (p < bp ∨ bp < m.ptr p)

theorem findPlace_stop (h : Stops m bp p) (fuel : ℕ) : findPlace m bp (fuel + 1) p = some p := by
  unfold findPlace
  rcases h with h | h
  · rw [if_pos h]
  · rw [if_pos h]
    split_ifs <;> rfl

theorem findPlace_next (h : ¬ Stops m bp p) (fuel : ℕ) : findPlace m bp (fuel + 1) p = findPlace m bp fuel (m.ptr p) := by
  unfold Stops at h
  rw [not_or] at h
  show (if _ then _ else _) = _
  rw [if_neg h.1, if_neg h.2]

theorem findPlace_walk {z : ℕ} (fuel : ℕ) (l : List ℕ) (hw : Walk m.ptr l z) (hl : ∀ x ∈ l, ¬ Stops m bp x) :
    findPlace m bp (fuel + l.length) (l.headD z) = findPlace m bp fuel z := by
  induction l with
  | nil => rfl
  | cons a l ih =>
    show findPlace m bp (fuel + l.length + 1) a = _
    rw [findPlace_next (hl a mem_cons_self), hw.1]
    exact ih hw.2 fun x hx => hl x (mem_cons_of_mem a hx)

theorem stops_iff (h : Arena base m (l1 ++ p :: l2) al top) (hp : p < bp)
    (h2 : ∀ y ∈ l2, bp < y) {x : ℕ} (hx : x ∈ l1 ++ p :: l2) : Stops m bp x ↔ x = p := by
  have hs := h.sorted
  have hbase : base < bp := lt_of_le_of_lt (h.base_le (by simp)) hp
  -- behind x there is the rest of the list, or base
  obtain ⟨s, t, hst⟩ := append_of_mem hx
  have hw := h.walk
  rw [hst] at hw hs
  have hnext : m.ptr x = t.headD base := (Walk.append.1 hw).2.1
  have hxt : ∀ y ∈ t, x < y := (pairwise_cons.1 (pairwise_append.1 hs).2.1).1
  have hxbase : base ≤ x := h.base_le hx
  rcases mem_append.1 hx with hx1 | hx2
  · -- before p: the next header is p at the latest
    have hxp : x < p := (pairwise_append.1 h.sorted).2.2 x hx1 p mem_cons_self
    refine ⟨fun hstop => ?_, fun e => absurd e (ne_of_lt hxp)⟩
    have hpt : p ∈ t := by
      have hpin : p ∈ s ++ x :: t := by
        rw [← hst]
        simp
      rcases mem_append.1 hpin with hps | hpt
      · have := (pairwise_append.1 hs).2.2 p hps x mem_cons_self
        omega
      · rcases mem_cons.1 hpt with rfl | hpt
        · exact absurd hxp (lt_irrefl _)
        · exact hpt
    cases t with
    | nil => cases hpt
    | cons y t =>
      have hyp : y ≤ p := by
        rcases mem_cons.1 hpt with rfl | hpt
        · exact le_rfl
        · exact ((pairwise_cons.1 (pairwise_cons.1 (pairwise_append.1 hs).2.1).2).1 p hpt).le
      have hxy := hxt y mem_cons_self
      unfold Stops at hstop
      rw [hnext] at hstop
      simp only [headD_cons] at hstop
      omega
  · rcases mem_cons.1 hx2 with rfl | hx2
    · refine ⟨fun _ => rfl, fun _ => ?_⟩
      have hnext' : m.ptr x = l2.headD base := (Walk.append.1 h.walk).2.1
      unfold Stops
      rw [hnext']
      cases l2 with
      | nil => exact .inr ⟨hxbase, .inl hp⟩
      | cons y l2 => exact .inl ⟨hp, h2 y mem_cons_self⟩
    · have hbx := h2 x hx2
      refine ⟨fun hstop => ?_, fun e => by omega⟩
      unfold Stops at hstop
      rw [hnext] at hstop
      cases t with
      | nil =>
        simp only [headD_nil] at hstop
        omega
      | cons y t =>
        have hxy := hxt y mem_cons_self
        simp only [headD_cons] at hstop
        omega

/-- **The search of free ends**, from whatever header freep names, at the last header below bp. -/
theorem findPlace_spec (h : Arena base m (l1 ++ p :: l2) al top) (hp : p < bp)
    (h2 : ∀ y ∈ l2, bp < y) : ∃ fuel, findPlace m bp fuel m.freep = some p := by
  have hiff := fun {x : ℕ} => stops_iff h hp h2 (x := x)
  have hnd := h.nodup
  have hne1 : ∀ x ∈ l1, ¬ Stops m bp x := fun x hx hs => by
    have heq := (hiff (mem_append_left _ hx)).1 hs
    subst heq
    exact (disjoint_of_nodup_append hnd) hx mem_cons_self
  have hne2 : ∀ x ∈ l2, ¬ Stops m bp x := fun x hx hs => by
    have heq := (hiff (by simp [hx])).1 hs
    subst heq
    exact (nodup_cons.1 (nodup_append.1 hnd).2.1).1 hx
  have hstop : ∀ fuel, findPlace m bp (fuel + 1) p = some p := findPlace_stop ((hiff (by simp)).2 rfl)
  obtain ⟨hw1, hw2⟩ := Walk.append.1 h.walk
  have hw1 : Walk m.ptr l1 p := hw1
  -- from any header of the first part the walk gets to p
  have hfirst : ∀ s x t, l1 = s ++ x :: t → findPlace m bp (1 + (t.length + 1)) x = some p := by
    rintro s x t rfl
    have := findPlace_walk 1 (x :: t) (Walk.append.1 hw1).2 fun y hy => hne1 y (mem_append_right _ hy)
    rw [headD_cons, length_cons] at this
    rw [this]
    exact hstop 0
  have hbase : ∃ k, ∀ fuel, findPlace m bp (fuel + k) base = some p := by
    refine ⟨1 + l1.length, fun fuel => ?_⟩
    have hd : l1.headD p = base := by
      have := h.head
      cases l1 with
      | nil | cons a l => exact Option.some.inj this
    rw [← hd, ← Nat.add_assoc, findPlace_walk (fuel + 1) l1 hw1 hne1]
    exact hstop fuel
  rcases mem_append.1 h.start with hx | hx
  · obtain ⟨s, t, hst⟩ := append_of_mem hx
    exact ⟨_, hfirst s _ t hst⟩
  · rcases mem_cons.1 hx with heq | hx
    · rw [heq]
      exact ⟨_, hstop 0⟩
    · obtain ⟨s, t, rfl⟩ := append_of_mem hx
      obtain ⟨k, hk⟩ := hbase
      refine ⟨0 + k + (t.length + 1), ?_⟩
      have := findPlace_walk (0 + k) (m.freep :: t) (Walk.append.1 hw2.2).2 fun y hy => hne2 y (mem_append_right _ hy)
      rw [headD_cons, length_cons] at this
      rw [this]
      exact hk 0

/-- the search stays in the free list, so what it finds is that header -/
theorem findPlace_eq (h : Arena base m (l1 ++ p :: l2) al top) (hp : p < bp)
    (h2 : ∀ y ∈ l2, bp < y) (fuel : ℕ) : ∀ {x p' : ℕ}, x ∈ l1 ++ p :: l2 → findPlace m bp fuel x = some p' → p' = p := by
  induction fuel with
  | zero => exact fun _ hf => nomatch hf
  | succ fuel ih =>
    intro x p' hx hf
    by_cases hs : Stops m bp x
    · rw [findPlace_stop hs] at hf
      rw [← Option.some.inj hf]
      exact (stops_iff h hp h2 hx).1 hs
    · rw [findPlace_next hs] at hf
      refine ih ?_ hf
      rcases mem_append.1 (h.walk.next_mem hx) with hm | hm
      · exact mem_of_mem_tail hm
      · rw [mem_singleton.1 hm]
        exact h.base_mem

/-- bp is a block by itself: in the arena, but neither free nor allocated -/
structure Loose (base : ℕ) (m : Mem) (L al : List ℕ) (top bp : ℕ) : Prop where
  low : base + 8 ≤ bp
  pos : 0 < m.size bp
  top : m.past bp ≤ top
  apart : ∀ a ∈ L, m.past a ≤ bp ∨ m.past bp ≤ a
  alApart : ∀ b ∈ al, m.past b ≤ bp ∨ m.past bp ≤ b

/-- bp has been joined with the block after it, if that is adjacent; l is what follows then -/
structure Joined (base : ℕ) (m m1 : Mem) (bp : ℕ) (l2 l al : List ℕ) (top : ℕ) : Prop where
  ptr : m1.ptr bp = l.headD base
  ptr_ne : ∀ x, x ≠ bp → m1.ptr x = m.ptr x
  size_ne : ∀ x, x ≠ bp → m1.size x = m.size x
  suffix : l <:+ l2
  gap : ∀ y ∈ l, m1.past bp < y
  le : m.size bp ≤ m1.size bp
  sum : m1.size bp + m.sum l = m.size bp + m.sum l2
  top : m1.past bp ≤ top
  alApart : ∀ b ∈ al, m.past b ≤ bp ∨ m1.past bp ≤ b

theorem joinNext_spec (h : Arena base m (l1 ++ p :: l2) al top) (hb : Loose base m (l1 ++ p :: l2) al top bp)
    (h2 : ∀ y ∈ l2, bp < y) : ∃ l, Joined base m (joinNext m bp p) bp l2 l al top := by
  have hnext : m.ptr p = l2.headD base := (Walk.append.1 h.walk).2.1
  have hle : ∀ y ∈ l2, m.past bp ≤ y := fun y hy => by
    have := hb.apart y (by simp [hy])
    have := m.le_past y
    have := h2 y hy
    omega
  have hlow := hb.low
  have hpast := m.le_past bp
  unfold joinNext
  split_ifs with heq
  · cases l2 with
    | nil =>
      rw [hnext, headD_nil] at heq
      omega
    | cons q l =>
      rw [headD_cons] at hnext
      rw [hnext] at heq ⊢
      have hq : q ∈ l1 ++ p :: q :: l := by simp
      have hqw : m.ptr q = l.headD base := (Walk.append.1 h.walk).2.2.1
      have hgq : ∀ y ∈ l, m.past q < y :=
        (pairwise_cons.1 (pairwise_cons.1 (pairwise_append.1 h.gaps).2.1).2).1
      have hnew : bp + 8 * (m.size bp + m.size q) = m.past q := by
        unfold Mem.past at heq ⊢
        omega
      have hsize : update m.size bp (m.size bp + m.size q) bp = m.size bp + m.size q := update_self ..
      have hpast' : bp + 8 * update m.size bp (m.size bp + m.size q) bp = m.past q := by
        rw [hsize]
        exact hnew
      refine ⟨l, ?_, fun x hx => update_of_ne hx .., fun x hx => update_of_ne hx ..,
        suffix_cons q l, fun y hy => ?_, ?_, ?_, ?_, fun b hbal => ?_⟩
      · exact (update_self ..).trans hqw
      · show bp + 8 * update m.size bp (m.size bp + m.size q) bp < y
        rw [hpast']
        exact hgq y hy
      · show m.size bp ≤ update m.size bp (m.size bp + m.size q) bp
        rw [hsize]
        exact Nat.le_add_right ..
      · show update m.size bp (m.size bp + m.size q) bp + m.sum l = _
        rw [hsize, m.sum_cons]
        ring
      · show bp + 8 * update m.size bp (m.size bp + m.size q) bp ≤ top
        rw [hpast']
        exact h.inside q hq
      · show _ ∨ bp + 8 * update m.size bp (m.size bp + m.size q) bp ≤ b
        rw [hpast']
        have hpos := (h.taken b hbal).2.1
        have hbq := h.apart b hbal q hq
        rcases hb.alApart b hbal with hl | hr
        · exact .inl hl
        · unfold Mem.past at hbq hr heq ⊢
          omega
  · refine ⟨l2, (update_self ..).trans hnext, fun x hx => update_of_ne hx .., fun _ _ => rfl,
      suffix_refl l2, fun y hy => ?_, le_rfl, rfl, hb.top, hb.alApart⟩
    show m.past bp < y
    cases l2 with
    | nil => cases hy
    | cons q l =>
      rw [hnext, headD_cons] at heq
      have hq := hle q mem_cons_self
      rcases mem_cons.1 hy with rfl | hy
      · omega
      · have := (pairwise_cons.1 (pairwise_cons.1 (pairwise_append.1 h.gaps).2.1).2).1 y hy
        have := m.le_past q
        omega

/-- bp is in the free list now -/
structure Freed (base : ℕ) (m m' : Mem) (L L' al : List ℕ) (top bp : ℕ) : Prop where
  arena : Arena base m' L' al top
  sum : m'.sum L' = m.sum L + m.size bp
  fits : ∃ a ∈ L', m.size bp ≤ m'.size a
  same : ∀ b ∈ al, m'.size b = m.size b

/-- the headers around p and those allocated are neither p nor bp -/
theorem Arena.outside {x : ℕ} (h : Arena base m (l1 ++ p :: (l0 ++ l)) al top)
    (hb : Loose base m (l1 ++ p :: (l0 ++ l)) al top bp) (hx : x ∈ l1 ∨ x ∈ l ∨ x ∈ al) : x ≠ bp ∧ x ≠ p := by
  have hbL : bp ∉ l1 ++ p :: (l0 ++ l) := Arena.notMem_of_apart hb.pos hb.apart
  have hnd := nodup_append.1 h.nodup
  rcases hx with hx | hx | hx
  · exact ⟨fun e => hbL (e ▸ by simp [hx]), fun e => hnd.2.2 x hx p mem_cons_self e⟩
  · exact ⟨fun e => hbL (e ▸ by simp [hx]), fun e => (nodup_cons.1 hnd.2.1).1 (e ▸ mem_append_right _ hx)⟩
  · refine ⟨fun e => ?_, fun e => h.taken_notMem hx (e ▸ by simp)⟩
    have hpos := (h.taken x hx).2.1
    have := hb.alApart x hx
    subst e
    unfold Mem.past at this
    omega

theorem Joined.walks (hj : Joined base m m1 bp (l0 ++ l) l al top)
    (h : Arena base m (l1 ++ p :: (l0 ++ l)) al top) (hb : Loose base m (l1 ++ p :: (l0 ++ l)) al top bp) :
    p ∉ l1 ∧ p ∉ l ∧ Walk m1.ptr (l1 ++ p :: (l0 ++ l)) base ∧ Walk m1.ptr l base := by
  have hbL : bp ∉ l1 ++ p :: (l0 ++ l) := Arena.notMem_of_apart hb.pos hb.apart
  have hwalk : Walk m1.ptr (l1 ++ p :: (l0 ++ l)) base := h.walk.congr fun x hx => hj.ptr_ne x fun e => hbL (e ▸ hx)
  exact ⟨fun hm => (h.outside hb (.inl hm)).2 rfl, fun hm => (h.outside hb (.inr (.inl hm))).2 rfl, hwalk,
    (Walk.append.1 (Walk.append.1 hwalk).2.2).2⟩

theorem joinPrev_grow (h : Arena base m (l1 ++ p :: (l0 ++ l)) al top) (hb : Loose base m (l1 ++ p :: (l0 ++ l)) al top bp)
    (hp : p < bp) (hj : Joined base m m1 bp (l0 ++ l) l al top) (heq : m.past p = bp) :
    Freed base m { m1 with size := update m1.size p (m1.size p + m1.size bp), ptr := update m1.ptr p (m1.ptr bp), freep := p }
      (l1 ++ p :: (l0 ++ l)) (l1 ++ ([p] ++ l)) al top bp := by
  have hpL : p ∈ l1 ++ p :: (l0 ++ l) := by simp
  have hL : Arena base m (l1 ++ ((p :: l0) ++ l)) al top := h
  have hout := fun x hx => h.outside hb (x := x) hx
  obtain ⟨hp1, hp2, hwalk, hwl⟩ := hj.walks h hb
  obtain ⟨-, -, hgcross⟩ := pairwise_append.1 h.gaps
  have hbefore : ∀ x ∈ l1, m.past x < p := fun x hx => hgcross x hx p mem_cons_self
  have hpbp : p ≠ bp := ne_of_lt hp
  have hbase : base ≤ p := h.base_le hpL
  have hlow := hb.low
  have hsum := hj.sum
  have hsp : m1.size p = m.size p := hj.size_ne p hpbp
  have hpbase : p ≠ base := fun e => by
    rw [e] at heq
    unfold Mem.past at heq
    rw [h.zero] at heq
    omega
  generalize hm2 : ({ m1 with size := update m1.size p (m1.size p + m1.size bp)
                              ptr := update m1.ptr p (m1.ptr bp), freep := p } : Mem) = m2
  have hs2 : ∀ x, x ≠ bp → x ≠ p → m2.size x = m.size x := fun x hx hxp => by
    rw [← hm2]
    exact (update_of_ne hxp ..).trans (hj.size_ne x hx)
  have hs2p : m2.size p = m.size p + m1.size bp := by
    rw [← hm2, ← hsp]
    exact update_self ..
  have hpast2p : m2.past p = m1.past bp := by
    unfold Mem.past at heq ⊢
    rw [hs2p]
    omega
  have hptr2 : m2.ptr = update m1.ptr p (l.headD base) := by
    rw [← hm2, ← hj.ptr]
  have hfreep2 : m2.freep = p := by rw [← hm2]
  have hsize := fun x hx => hs2 x (hout x hx).1 (hout x hx).2
  refine ⟨hL.splice hsize (h.head_of_cons l) ?_ (by rw [hfreep2]; simp) ?_
    (pairwise_singleton ..) fun a ha => ?_, ?_, ⟨p, by simp, ?_⟩, fun b hbm => hsize b (.inr (.inr hbm))⟩
  · rw [hptr2]
    exact hwalk.relink hwl hp1 hp2
  · rw [hs2 base (by omega) (Ne.symm hpbase)]
    exact h.zero
  · rw [mem_singleton.1 ha]
    refine ⟨(h.block p hpL).imp_right fun hblk => ⟨hblk.1, by omega⟩, by rw [hpast2p]; exact hj.top, hbefore,
      fun y hy => by rw [hpast2p]; exact hj.gap y hy, fun b hbm => ?_⟩
    rw [hpast2p]
    have hpos := (h.taken b hbm).2.1
    have hbp := h.apart b hbm p hpL
    have hbb := hj.alApart b hbm
    unfold Mem.past at hbp hbb heq ⊢
    omega
  · rw [Mem.sum_splice [p] hsize]
    simp only [Mem.sum_append, Mem.sum_cons, Mem.sum_nil, hs2p] at hsum ⊢
    omega
  · rw [hs2p]
    exact hj.le.trans (Nat.le_add_left ..)

theorem joinPrev_insert (h : Arena base m (l1 ++ p :: (l0 ++ l)) al top) (hb : Loose base m (l1 ++ p :: (l0 ++ l)) al top bp)
    (hp : p < bp) (hj : Joined base m m1 bp (l0 ++ l) l al top) (heq : ¬ m.past p = bp) :
    Freed base m { m1 with ptr := update m1.ptr p bp, freep := p }
      (l1 ++ p :: (l0 ++ l)) (l1 ++ ([p, bp] ++ l)) al top bp := by
  have hpL : p ∈ l1 ++ p :: (l0 ++ l) := by simp
  have hL : Arena base m (l1 ++ ((p :: l0) ++ l)) al top := h
  have hout := fun x hx => h.outside hb (x := x) hx
  obtain ⟨hp1, hp2, hwalk, hwl⟩ := hj.walks h hb
  obtain ⟨-, hgp, hgcross⟩ := pairwise_append.1 h.gaps
  have hbefore : ∀ x ∈ l1, m.past x < p := fun x hx => hgcross x hx p mem_cons_self
  have hpbp : p ≠ bp := ne_of_lt hp
  have hbase : base ≤ p := h.base_le hpL
  have hlow := hb.low
  have hsum := hj.sum
  have hpb : m.past p ≤ bp := by
    have := hb.apart p hpL
    have := m.le_past bp
    omega
  generalize hm2 : ({ m1 with ptr := update m1.ptr p bp, freep := p } : Mem) = m2
  have hs2 : ∀ x, x ≠ bp → m2.size x = m.size x := fun x hx => by
    rw [← hm2]
    exact hj.size_ne x hx
  have hs2b : m2.size bp = m1.size bp := by rw [← hm2]
  have hpast2p : m2.past p = m.past p := Mem.past_congr (hs2 p hpbp)
  have hpast2b : m2.past bp = m1.past bp := Mem.past_congr hs2b
  have hptr2 : m2.ptr = update m1.ptr p ((bp :: l).headD base) := by rw [← hm2]; rfl
  have hfreep2 : m2.freep = p := by rw [← hm2]
  have hsize := fun x hx => hs2 x (hout x hx).1
  refine ⟨hL.splice hsize (h.head_of_cons _) ?_ (by rw [hfreep2]; simp)
    (by rw [hs2 base (by omega)]; exact h.zero) ?_ fun a ha => ?_, ?_, ⟨bp, by simp, ?_⟩,
    fun b hbm => hsize b (.inr (.inr hbm))⟩
  · rw [hptr2]
    have hnew : Walk m1.ptr (bp :: l) base := ⟨hj.ptr, hwl⟩
    refine hwalk.relink hnew hp1 fun hmem => ?_
    rcases mem_cons.1 hmem with e | hmem
    · exact hpbp e
    · exact hp2 hmem
  · rw [pairwise_pair, hpast2p]
    omega
  · rcases mem_cons.1 ha with rfl | ha
    · refine ⟨?_, by rw [hpast2p]; exact h.inside a hpL, hbefore, fun y hy => ?_, fun b hbm => ?_⟩
      · rw [hs2 a hpbp]
        exact h.block a hpL
      · rw [hpast2p]
        exact (pairwise_cons.1 hgp).1 y (mem_append_right _ hy)
      · rw [hpast2p]
        exact h.apart b hbm a hpL
    · rw [mem_singleton.1 ha]
      refine ⟨.inr ⟨hlow, by rw [hs2b]; exact lt_of_lt_of_le hb.pos hj.le⟩, by rw [hpast2b]; exact hj.top,
        fun x hx => (hbefore x hx).trans hp, fun y hy => by rw [hpast2b]; exact hj.gap y hy, fun b hbm => ?_⟩
      rw [hpast2b]
      exact (hj.alApart b hbm).symm
  · rw [Mem.sum_splice [p, bp] hsize]
    simp only [Mem.sum_append, Mem.sum_cons, Mem.sum_nil, hs2b, hs2 p hpbp] at hsum ⊢
    omega
  · rw [hs2b]
    exact hj.le

theorem joinPrev_spec (h : Arena base m (l1 ++ p :: l2) al top) (hb : Loose base m (l1 ++ p :: l2) al top bp) (hp : p < bp)
    (hj : Joined base m m1 bp l2 l al top) :
    ∃ L', Freed base m { joinPrev m1 bp p with freep := p } (l1 ++ p :: l2) L' al top bp ∧
      ∀ a ∈ L', a ∈ l1 ++ p :: l2 ∨ a = bp := by
  obtain ⟨l0, rfl⟩ := hj.suffix
  unfold joinPrev
  rw [Mem.past_congr (hj.size_ne p (ne_of_lt hp))]
  split_ifs with heq
  · refine ⟨_, joinPrev_grow h hb hp hj heq, fun a ha => ?_⟩
    simp only [mem_append, mem_cons] at ha ⊢
    tauto
  · refine ⟨_, joinPrev_insert h hb hp hj heq, fun a ha => ?_⟩
    simp only [mem_append, mem_cons, not_mem_nil] at ha ⊢
    tauto

theorem Loose.split (h : Arena base m L al top) (hb : Loose base m L al top bp) :
    ∃ l1 p l2, L = l1 ++ p :: l2 ∧ p < bp ∧ ∀ y ∈ l2, bp < y :=
  exists_split h.sorted (Arena.notMem_of_apart hb.pos hb.apart) ⟨base, h.base_mem, by have := hb.low; omega⟩

/-- **free.** The block is in the free list, joined with its neighbours. No other header is new. -/
theorem free_spec (h : Arena base m L al top) (hb : Loose base m L al top bp)
    (hf : free fuel m (bp + 8) = some m') : ∃ L', Freed base m m' L L' al top bp ∧ ∀ a ∈ L', a ∈ L ∨ a = bp := by
  obtain ⟨l1, p, l2, rfl, hp, h2⟩ := hb.split h
  obtain ⟨l, hj⟩ := joinNext_spec h hb h2
  unfold free at hf
  rw [Nat.add_sub_cancel] at hf
  dsimp only at hf
  cases hfind : findPlace m bp fuel m.freep with
  | none => simp [hfind] at hf
  | some p' =>
    have heq := findPlace_eq h hp h2 fuel h.start hfind
    subst heq
    rw [hfind] at hf
    cases hf
    exact joinPrev_spec h hb hp hj

/-- **free returns.** -/
theorem free_total (h : Arena base m L al top) (hb : Loose base m L al top bp) : ∃ fuel m', free fuel m (bp + 8) = some m' := by
  obtain ⟨l1, p, l2, rfl, hp, h2⟩ := hb.split h
  obtain ⟨fuel, hfind⟩ := findPlace_spec h hp h2
  refine ⟨fuel, { joinPrev (joinNext m bp p) bp p with freep := p }, ?_⟩
  unfold free
  rw [Nat.add_sub_cancel]
  dsimp only
  rw [hfind]

/-! ## malloc -/

theorem Arena.free_apart (h : Arena base m L al top) {a : ℕ} (ha : a ∈ L) (hb : b ∈ L) (hab : a ≠ b) :
    m.past a < b ∨ m.past b < a := by
  have hsym : L.Pairwise fun a b => m.past a < b ∨ m.past b < a := h.gaps.imp .inl
  have : Std.Symm fun a b => m.past a < b ∨ m.past b < a := ⟨fun _ _ => Or.symm⟩
  exact hsym.forall ha hb hab

/-- the header that points to a free block is the one before it -/
theorem Arena.split_at (h : Arena base m L al top) (hprev : prevp ∈ L) (hp : m.ptr prevp = p)
    (hbase : p ≠ base) : ∃ l1 l2, L = l1 ++ prevp :: p :: l2 := by
  have hpm : p ∈ L.tail := by
    have := h.walk.next_mem hprev
    rw [hp] at this
    rcases mem_append.1 this with hm | hm
    · exact hm
    · exact absurd (mem_singleton.1 hm) hbase
  obtain ⟨s, t, hst⟩ := append_of_mem hpm
  have hL : L = base :: (s ++ p :: t) := by rw [← hst]; exact h.eq_cons
  have hnd : (L.tail ++ [base]).Nodup := by
    have := h.nodup
    rw [h.eq_cons] at this
    exact (perm_append_singleton base L.tail).nodup_iff.2 this
  -- the header before p, which may be base
  obtain ⟨l1, x, hx⟩ : ∃ l1 x, base :: s = l1 ++ [x] := by
    rcases eq_nil_or_concat (base :: s) with e | ⟨l1, x, e⟩
    · cases e
    · exact ⟨l1, x, by rw [e, concat_eq_append]⟩
  have hL' : L = l1 ++ x :: p :: t := by
    rw [hL, ← cons_append, hx, append_assoc]
    rfl
  have hwx : m.ptr x = p := by
    have hw := h.walk
    rw [hL'] at hw
    exact (Walk.append.1 hw).2.1
  have hxp : x = prevp := h.walk.next_inj hnd (by rw [hL']; simp) hprev (hwx.trans hp.symm)
  subst hxp
  exact ⟨l1, t, hL'⟩

theorem Arena.allocate (h : Arena base m L al top) (hb : Loose base m L al top b) : Arena base m L (b :: al) top := by
  refine ⟨h.head, h.walk, h.start, h.zero, h.gaps, h.block, h.inside, fun c hc => ?_, fun c hc => ?_,
    pairwise_cons.2 ⟨fun c hc => (hb.alApart c hc).symm, h.alApart⟩⟩
  · rcases mem_cons.1 hc with rfl | hc
    · exact ⟨hb.low, hb.pos, hb.top⟩
    · exact h.taken c hc
  · rcases mem_cons.1 hc with rfl | hc
    · exact hb.apart
    · exact h.apart c hc

/-- a block of nunits has been taken out of the free list -/
structure Taken (base : ℕ) (h h' : Heap) (L L' : List ℕ) (nunits b : ℕ) : Prop where
  arena : Arena base h'.m L' h'.allocated h'.brk
  allocated : h'.allocated = b :: h.allocated
  brk : h'.brk = h.brk
  units : h'.units = h.units
  sum : h'.m.sum L' + nunits = h.m.sum L
  size : h'.m.size b = nunits
  same : ∀ c ∈ h.allocated, h'.m.size c = h.m.size c

theorem Arena.ne_of_mem (h : Arena base m (l1 ++ prevp :: p :: l2) al top) {a : ℕ} (ha : a ∈ l1 ++ [prevp] ∨ a ∈ l2) : a ≠ p := by
  have hnd := nodup_append.1 h.nodup
  have hndp := nodup_cons.1 hnd.2.1
  rintro rfl
  rcases ha with hm | hm
  · rcases mem_append.1 hm with hm | hm
    · exact hnd.2.2 a hm a (by simp) rfl
    · exact hndp.1 (mem_singleton.1 hm ▸ mem_cons_self)
  · exact (nodup_cons.1 hndp.2).1 hm

theorem take_whole {nunits : ℕ}
    (ha : Arena base h.m (l1 ++ prevp :: p :: l2) h.allocated h.brk) (hbase : p ≠ base) (heq : h.m.size p = nunits) :
    Taken base h { h with
      m := { h.m with ptr := update h.m.ptr prevp (h.m.ptr p), freep := prevp }
      allocated := p :: h.allocated } (l1 ++ prevp :: p :: l2) (l1 ++ ([prevp] ++ l2)) nunits p := by
  have hpL : p ∈ l1 ++ prevp :: p :: l2 := by simp
  obtain ⟨hlow, hpos⟩ := (ha.block p hpL).resolve_left hbase
  obtain ⟨-, hg2, hcross⟩ := pairwise_append.1 ha.gaps
  obtain ⟨hgprev, -⟩ := pairwise_cons.1 hg2
  have hnd := nodup_append.1 ha.nodup
  have hndp := nodup_cons.1 hnd.2.1
  have hL : Arena base h.m (l1 ++ ([prevp, p] ++ l2)) h.allocated h.brk := ha
  have hwalk : Walk (update h.m.ptr prevp (h.m.ptr p)) (l1 ++ ([prevp] ++ l2)) base := by
    obtain ⟨-, -, hw3, hw4⟩ := Walk.append.1 ha.walk
    rw [hw3]
    exact ha.walk.relink hw4 (fun hm => hnd.2.2 prevp hm prevp (by simp) rfl) fun hm => hndp.1 (mem_cons_of_mem p hm)
  generalize hm2 : ({ h.m with ptr := update h.m.ptr prevp (h.m.ptr p), freep := prevp } : Mem) = m2
  have hs2 : m2.size = h.m.size := by rw [← hm2]
  have hpast2 : ∀ x, m2.past x = h.m.past x := fun x => Mem.past_congr (by rw [hs2])
  have hsize : ∀ x, x ∈ l1 ∨ x ∈ l2 ∨ x ∈ h.allocated → m2.size x = h.m.size x := fun x _ => by rw [hs2]
  have hprevL : prevp ∈ l1 ++ prevp :: p :: l2 := by simp
  have harena : Arena base m2 (l1 ++ ([prevp] ++ l2)) h.allocated h.brk := by
    refine hL.splice hsize (ha.head_of_cons l2) (by rw [← hm2]; exact hwalk) (by rw [← hm2]; simp)
      (by rw [hs2]; exact ha.zero) (pairwise_singleton ..) fun a hm => ?_
    rw [mem_singleton.1 hm]
    refine ⟨by rw [hs2]; exact ha.block prevp hprevL, ?_, fun x hx => hcross x hx prevp mem_cons_self, fun y hy => ?_,
      fun c hc => ?_⟩ <;> rw [hpast2]
    · exact ha.inside prevp hprevL
    · exact hgprev y (mem_cons_of_mem p hy)
    · exact ha.apart c hc prevp hprevL
  have hloose : Loose base m2 (l1 ++ ([prevp] ++ l2)) h.allocated h.brk p := by
    refine ⟨hlow, by rw [hs2]; exact hpos, by rw [hpast2]; exact ha.inside p hpL, fun a hm => ?_, fun c hc => ?_⟩
    · rw [hpast2, hpast2]
      have ham : a ∈ l1 ++ [prevp] ∨ a ∈ l2 := by
        rw [← append_assoc] at hm
        exact mem_append.1 hm
      have := ha.free_apart (by simp only [mem_append, mem_cons] at hm ⊢; tauto) hpL (ha.ne_of_mem ham)
      omega
    · rw [hpast2, hpast2]
      exact (ha.apart c hc p hpL).symm
  refine ⟨harena.allocate hloose, rfl, rfl, rfl, ?_, by rw [hs2]; exact heq, fun c hc => hsize c (.inr (.inr hc))⟩
  dsimp only
  rw [Mem.sum_splice [prevp] hsize]
  simp only [Mem.sum_append, Mem.sum_cons, Mem.sum_nil, hs2, heq]
  omega

theorem take_tail {nunits : ℕ}
    (ha : Arena base h.m (l1 ++ prevp :: p :: l2) h.allocated h.brk) (hbase : p ≠ base) (hn : 0 < nunits)
    (hlt : nunits < h.m.size p) :
    Taken base h { h with
      m := { h.m with
        size := update (update h.m.size p (h.m.size p - nunits)) (p + 8 * (h.m.size p - nunits)) nunits
        freep := prevp }
      allocated := (p + 8 * (h.m.size p - nunits)) :: h.allocated } (l1 ++ prevp :: p :: l2) (l1 ++ prevp :: p :: l2) nunits
      (p + 8 * (h.m.size p - nunits)) := by
  have hpL : p ∈ l1 ++ prevp :: p :: l2 := by simp
  obtain ⟨hlow, hpos⟩ := (ha.block p hpL).resolve_left hbase
  obtain ⟨-, hg2, hcross⟩ := pairwise_append.1 ha.gaps
  obtain ⟨hgprev, hgp⟩ := pairwise_cons.1 hg2
  generalize hrest : h.m.size p - nunits = rest
  have hpast : h.m.past p = p + 8 * rest + 8 * nunits := by
    unfold Mem.past
    omega
  generalize hb : p + 8 * rest = b
  rw [hb] at hpast
  have hbp : b ≠ p := by omega
  generalize hm2 : ({ h.m with
    size := update (update h.m.size p rest) b nunits, freep := prevp } : Mem) = m2
  have hsb : m2.size b = nunits := by
    rw [← hm2]
    exact update_self ..
  have hsp : m2.size p = rest := by
    rw [← hm2]
    exact (update_of_ne (Ne.symm hbp) ..).trans (update_self ..)
  have hs2 : ∀ x, x ≠ b → x ≠ p → m2.size x = h.m.size x := fun x hx hxp => by
    rw [← hm2]
    exact (update_of_ne hx ..).trans (update_of_ne hxp ..)
  have hpast2p : m2.past p = b := by
    unfold Mem.past
    rw [hsp]
    exact hb
  have hpast2b : m2.past b = h.m.past p := by
    unfold Mem.past at hpast ⊢
    rw [hsb]
    exact hpast.symm
  have hlist : l1 ++ prevp :: p :: l2 = (l1 ++ [prevp]) ++ ([p] ++ l2) := by simp
  have hone := ha
  rw [hlist] at ha hpL ⊢
  -- nothing else begins inside p
  have hfree : ∀ a, a ∈ l1 ++ [prevp] ∨ a ∈ l2 → h.m.past a < p ∨ h.m.past p < a := fun a hm =>
    ha.free_apart (by simp only [mem_append, mem_cons] at hm ⊢; tauto) hpL (hone.ne_of_mem hm)
  have hsize : ∀ x, x ∈ l1 ++ [prevp] ∨ x ∈ l2 ∨ x ∈ h.allocated → m2.size x = h.m.size x := by
    intro x hx
    rw [← or_assoc] at hx
    have hle := h.m.le_past x
    rcases hx with hx | hx
    · have := hfree x hx
      exact hs2 x (by omega) (hone.ne_of_mem hx)
    · have := ha.apart x hx p hpL
      have := (ha.taken x hx).2.1
      refine hs2 x ?_ ?_ <;> unfold Mem.past at * <;> omega
  have hpast2 := fun x hx => Mem.past_congr (hsize x hx)
  have harena : Arena base m2 ((l1 ++ [prevp]) ++ ([p] ++ l2)) h.allocated h.brk := by
    refine ha.splice hsize ha.head (by rw [← hm2]; exact ha.walk) (by rw [← hm2]; simp) ?_ (pairwise_singleton ..)
      fun a hm => ?_
    · rw [hs2 base (by omega) (Ne.symm hbase)]
      exact ha.zero
    · rw [mem_singleton.1 hm]
      refine ⟨.inr ⟨hlow, by omega⟩, ?_, fun x hx => ?_, fun y hy => ?_, fun c hc => ?_⟩
      · have := ha.inside p hpL
        omega
      · rcases mem_append.1 hx with hx | hx
        · exact hcross x hx p (by simp)
        · rw [mem_singleton.1 hx]
          exact hgprev p mem_cons_self
      · have := (pairwise_cons.1 hgp).1 y hy
        omega
      · have := ha.apart c hc p hpL
        omega
  have hloose : Loose base m2 ((l1 ++ [prevp]) ++ ([p] ++ l2)) h.allocated h.brk b := by
    refine ⟨by omega, by omega, by rw [hpast2b]; exact ha.inside p hpL, fun a hm => ?_, fun c hc => ?_⟩
    · rw [hpast2b]
      by_cases hap : a = p
      · rw [hap, hpast2p]
        exact .inl le_rfl
      · have ham : a ∈ l1 ++ [prevp] ∨ a ∈ l2 := by
          simp only [mem_append, mem_cons] at hm ⊢
          tauto
        have := hfree a ham
        rw [hpast2 a (ham.imp_right .inl)]
        omega
    · rw [hpast2b, hpast2 c (.inr (.inr hc))]
      have := ha.apart c hc p hpL
      omega
  refine ⟨harena.allocate hloose, rfl, rfl, rfl, ?_, hsb, fun c hc => hsize c (.inr (.inr hc))⟩
  dsimp only
  rw [Mem.sum_splice [p] hsize]
  simp only [Mem.sum_append, Mem.sum_cons, Mem.sum_nil, hsp]
  omega

theorem take_spec {nunits : ℕ} (ha : Arena base h.m L h.allocated h.brk) (hn : 0 < nunits)
    (hprev : prevp ∈ L) (hp : h.m.ptr prevp = p) (hfit : nunits ≤ h.m.size p) :
    ∃ L' b, Taken base h (h.take nunits prevp p).1 L L' nunits b ∧ (h.take nunits prevp p).2 = some (b + 8) ∧ p ≤ b ∧
      ∀ a ∈ L', a ∈ L := by
  have hbase : p ≠ base := fun e => by
    rw [e, ha.zero] at hfit
    omega
  obtain ⟨l1, l2, rfl⟩ := ha.split_at hprev hp hbase
  unfold Heap.take
  split_ifs with heq
  · refine ⟨_, p, take_whole ha hbase heq, rfl, le_rfl, fun a hm => ?_⟩
    simp only [mem_append, mem_cons] at hm ⊢
    tauto
  · exact ⟨_, _, take_tail ha hbase hn (by omega), rfl, Nat.le_add_right .., fun _ => id⟩

/-- the invariant between the calls of malloc, once freep is set -/
structure Inv (base : ℕ) (h : Heap) (L : List ℕ) : Prop where
  arena : Arena base h.m L h.allocated h.brk
  low : base + 8 ≤ h.brk
  sum : h.m.sum L + h.m.sum h.allocated = h.units

theorem Inv.region (hi : Inv base h L) {hp : ℕ} (hle : h.brk ≤ hp) (hnu : 0 < nu) :
    Arena base { h.m with size := update h.m.size hp nu } L h.allocated (hp + nu * 8) ∧
    Loose base { h.m with size := update h.m.size hp nu } L h.allocated (hp + nu * 8) hp ∧
    (∀ a ∈ L, update h.m.size hp nu a = h.m.size a) ∧
    ∀ b ∈ h.allocated, update h.m.size hp nu b = h.m.size b := by
  have hlow := hi.low
  have hL : ∀ a ∈ L, a ≠ hp := fun a ha e => by
    have hin := hi.arena.inside a ha
    have := hi.arena.block a ha
    unfold Mem.past at hin
    omega
  have hal : ∀ b ∈ h.allocated, b ≠ hp := fun b hb e => by
    have ht := hi.arena.taken b hb
    unfold Mem.past at ht
    omega
  have hsL : ∀ a ∈ L, update h.m.size hp nu a = h.m.size a := fun a ha => update_of_ne (hL a ha) ..
  have hsal : ∀ b ∈ h.allocated, update h.m.size hp nu b = h.m.size b := fun b hb =>
    update_of_ne (hal b hb) ..
  have hself : update h.m.size hp nu hp = nu := update_self ..
  have hpos : 0 < update h.m.size hp nu hp := by
    rw [hself]
    exact hnu
  have ha := hi.arena.congr { h.m with size := update h.m.size hp nu } rfl (fun a ha => ⟨rfl, hsL a ha⟩) hsal
  refine ⟨ha.mono (by omega), ⟨by omega, hpos, ?_, fun a hm => .inl ((ha.inside a hm).trans hle),
    fun b hb => .inl ((ha.taken b hb).2.2.trans hle)⟩, hsL, hsal⟩
  show hp + 8 * update h.m.size hp nu hp ≤ _
  rw [hself]
  omega

theorem Inv.grown (hi : Inv base h L) (hle : h.brk ≤ p) (hnu : 0 < nu)
    (hf : free fuel { h.m with size := update h.m.size p nu } (p + 8) = some m') :
    ∃ L', Inv base ⟨m', p + nu * 8, h.units + nu, h.allocated⟩ L' ∧ (∃ a ∈ L', nu ≤ m'.size a) ∧
      (∀ b ∈ h.allocated, m'.size b = h.m.size b) ∧ ∀ a ∈ L', a ∈ L ∨ a = p := by
  obtain ⟨ha, hb, hsL, hsal⟩ := hi.region hle hnu
  obtain ⟨L', hfr, hmem⟩ := free_spec ha hb hf
  have hself : update h.m.size p nu p = nu := update_self ..
  have hlow := hi.low
  have hsame : ∀ b ∈ h.allocated, m'.size b = h.m.size b := fun b hb' => (hfr.same b hb').trans (hsal b hb')
  refine ⟨L', ⟨hfr.arena, show base + 8 ≤ p + nu * 8 by omega, ?_⟩, ?_, hsame, hmem⟩
  · show m'.sum L' + m'.sum h.allocated = h.units + nu
    have hsum := hfr.sum
    have hold : Mem.sum { h.m with size := update h.m.size p nu } L = h.m.sum L := Mem.sum_congr hsL
    rw [hold] at hsum
    have hsum' : m'.sum L' = h.m.sum L + nu := hsum.trans (congrArg (h.m.sum L + ·) hself)
    have := hi.sum
    rw [Mem.sum_congr hsame]
    omega
  · obtain ⟨a, hal, hfit⟩ := hfr.fits
    refine ⟨a, hal, le_trans ?_ hfit⟩
    show nu ≤ update h.m.size p nu p
    rw [hself]

/-- **morecore.** With the memory of sbrk there is a free block of nu units. -/
theorem morecore_spec {h' : Heap} {r : Option ℕ} (hi : Inv base h L) (hs : sbrk.Fresh)
    (hm : morecore sbrk.platform fuel h nu = .ok (some (h', r))) : (r = none ∧ h' = h) ∨
      ∃ L', r = some h'.m.freep ∧ Inv base h' L' ∧ ∃ a ∈ L', nu ≤ h'.m.size a := by
  unfold morecore at hm
  dsimp only [Sbrk.platform] at hm
  generalize hnu : (if nu < 4096 then 4096 else nu) = nu' at hm
  have hpos : 0 < nu' ∧ nu ≤ nu' := by
    rw [← hnu]
    split_ifs <;> omega
  cases hp : sbrk h.brk (nu' * 8) with
  | none =>
    rw [hp] at hm
    cases hm
    exact .inl ⟨rfl, rfl⟩
  | some p =>
    rw [hp] at hm
    dsimp only at hm
    cases hf : free fuel { h.m with size := update h.m.size p nu' } (p + 8) with
    | none =>
      rw [hf] at hm
      cases hm
    | some m' =>
      rw [hf] at hm
      cases hm
      obtain ⟨L', hinv, ⟨a, ha, hfit⟩, -⟩ := hi.grown (hs _ _ _ hp) hpos.1 hf
      exact .inr ⟨L', rfl, hinv, a, ha, hpos.2.trans hfit⟩

theorem Taken.inv {h' : Heap} {L' : List ℕ} {nunits : ℕ} (ht : Taken base h h' L L' nunits b) (hi : Inv base h L) :
    Inv base h' L' := by
  refine ⟨ht.arena, by rw [ht.brk]; exact hi.low, ?_⟩
  rw [ht.allocated, Mem.sum_cons, ht.size, Mem.sum_congr ht.same, ht.units, ← hi.sum, ← ht.sum]
  ring

/-- **The loop of malloc** keeps the invariant, whatever it finds. -/
theorem search_spec {nunits : ℕ} (hs : sbrk.Fresh) (hn : 0 < nunits) (fuel : ℕ) :
    ∀ {h h' : Heap} {L : List ℕ} {prevp : ℕ} {r : Option ℕ}, Inv base h L → prevp ∈ L →
      search sbrk.platform nunits fuel h prevp (h.m.ptr prevp) = .ok (some (h', r)) → ∃ L', Inv base h' L' := by
  induction fuel with
  | zero => exact fun _ _ hm => nomatch hm
  | succ fuel ih =>
    intro h h' L prevp r hi hprev hm
    rw [search] at hm
    split_ifs at hm with hfit hfreep
    · obtain ⟨L', b, ht, -⟩ := take_spec hi.arena hn hprev rfl hfit
      cases hm
      exact ⟨L', ht.inv hi⟩
    · cases hmc : morecore sbrk.platform fuel h nunits with
      | error e => exact e.elim
      | ok o =>
        rw [hmc] at hm
        rcases o with _ | ⟨h1, r1⟩
        · cases hm
        · rcases morecore_spec hi hs hmc with ⟨rfl, rfl⟩ | ⟨L', rfl, hi', -⟩
          · cases hm
            exact ⟨L, hi⟩
          · exact ih hi' hi'.arena.start hm
    · exact ih hi (hi.arena.ptr_mem hprev) hm

/-! ### malloc returns -/

theorem findPlace_mono (fuel : ℕ) : ∀ {x p : ℕ}, findPlace m bp fuel x = some p → ∀ k, findPlace m bp (fuel + k) x = some p := by
  induction fuel with
  | zero => exact fun hf => nomatch hf
  | succ fuel ih =>
    intro x p hf k
    rw [Nat.add_right_comm]
    by_cases hs : Stops m bp x
    · rw [findPlace_stop hs] at hf ⊢
      exact hf
    · rw [findPlace_next hs] at hf ⊢
      exact ih hf k

theorem free_mono {ap : ℕ} (hf : free fuel m ap = some m') (k : ℕ) : free (fuel + k) m ap = some m' := by
  unfold free at hf ⊢
  dsimp only at hf ⊢
  cases hp : findPlace m (ap - 8) fuel m.freep with
  | none => simp [hp] at hf
  | some p =>
    rw [hp] at hf
    rw [findPlace_mono fuel hp k]
    exact hf

/-- from freep the list leads through all other headers back to freep -/
theorem Arena.rotate (h : Arena base m L al top) : ∃ l, Walk m.ptr l m.freep ∧ l.headD m.freep = m.ptr m.freep ∧
    m.freep ∉ l ∧ ∀ a, a ∈ L ↔ a = m.freep ∨ a ∈ l := by
  obtain ⟨s, t, hst⟩ := append_of_mem h.start
  have hw := h.walk
  have hnd := h.nodup
  have hhead := h.head
  rw [hst] at hw hnd hhead
  obtain ⟨hws, hnext, hwt⟩ := Walk.append.1 hw
  have hbase : base = s.headD m.freep := by
    cases s with
    | nil | cons a s => exact (Option.some.inj hhead).symm
  rw [hbase] at hwt hnext
  refine ⟨t ++ s, Walk.append.2 ⟨hwt, hws⟩, by rw [headD_append, hnext], fun hm => ?_, fun a => ?_⟩
  · rcases mem_append.1 hm with hm | hm
    · exact (nodup_cons.1 (nodup_append.1 hnd).2.1).1 hm
    · exact (disjoint_of_nodup_append hnd) hm mem_cons_self
  · rw [hst]
    simp only [mem_append, mem_cons]
    tauto

section Platform

variable {σ ε : Type} {y : Platform σ ε} {s s' : σ} {nunits q hp : ℕ}

theorem morecore_none {nu' : ℕ} (hnu : (if nu < 4096 then 4096 else nu) = nu') (hsbrk : y.sbrk s (nu' * 8) = .ok (none, s')) :
    morecore y fuel s nu = .ok (some (s', none)) := by
  unfold morecore
  dsimp only
  rw [hnu, hsbrk]

theorem morecore_eq {nu' : ℕ} (hnu : (if nu < 4096 then 4096 else nu) = nu') (hsbrk : y.sbrk s (nu' * 8) = .ok (some hp, s'))
    (hh : y.heap s' = h) (hfree : free fuel { h.m with size := update h.m.size hp nu' } (hp + 8) = some m) :
    morecore y fuel s nu = .ok (some (y.setHeap s' ⟨m, hp + nu' * 8, h.units + nu', h.allocated⟩, some m.freep)) := by
  subst hh
  unfold morecore
  dsimp only
  rw [hnu, hsbrk]
  dsimp only
  rw [hfree]

/-- the loop passes the blocks that are too small, up to the first that is not, or to freep -/
theorem search_pass (hh : y.heap s = h) (l : List ℕ) (hw : Walk h.m.ptr l h.m.freep) (hl : h.m.freep ∉ l)
    (hsub : ∀ a ∈ l, a ∈ L) : ∀ prevp, prevp ∈ L → h.m.ptr prevp = l.headD h.m.freep →
      ∃ k q p, q ∈ L ∧ h.m.ptr q = p ∧ (nunits ≤ h.m.size p ∨ p = h.m.freep ∧ ∀ a ∈ l, h.m.size a < nunits) ∧
        ∀ fuel, search y nunits (fuel + k) s prevp (l.headD h.m.freep) = search y nunits fuel s q p := by
  induction l with
  | nil => exact fun prevp hprev hptr => ⟨0, prevp, _, hprev, hptr, .inr ⟨rfl, nofun⟩, fun _ => rfl⟩
  | cons a l ih =>
    intro prevp hprev hptr
    rw [mem_cons, not_or] at hl
    by_cases hfit : nunits ≤ h.m.size a
    · exact ⟨0, prevp, a, hprev, hptr, .inl hfit, fun _ => rfl⟩
    · obtain ⟨k, q, p, hq, hp, hres, hrun⟩ :=
        ih hw.2 hl.2 (fun b hb => hsub b (mem_cons_of_mem _ hb)) a (hsub a mem_cons_self) hw.1
      refine ⟨k + 1, q, p, hq, hp, hres.imp_right fun hall => ⟨hall.1, fun b hb => ?_⟩, fun fuel => ?_⟩
      · rcases mem_cons.1 hb with rfl | hb
        · exact not_le.1 hfit
        · exact hall.2 b hb
      · rw [← hrun fuel, ← hw.1]
        show search y nunits (fuel + k + 1) s prevp a = _
        rw [search, hh, if_neg hfit, if_neg (Ne.symm hl.1)]

/-- from freep on: a block that is large enough, or freep again and none is -/
theorem search_round (hh : y.heap s = h) (hi : Inv base h L) (nunits : ℕ) : ∃ k q p, q ∈ L ∧ h.m.ptr q = p ∧
    (nunits ≤ h.m.size p ∨ p = h.m.freep ∧ ∀ a ∈ L, h.m.size a < nunits) ∧
      ∀ fuel, search y nunits (fuel + k) s h.m.freep (h.m.ptr h.m.freep) = search y nunits fuel s q p := by
  obtain ⟨l, hw, hd, hl, hmem⟩ := hi.arena.rotate
  obtain ⟨k, q, p, hq, hp, hres, hrun⟩ :=
    search_pass hh l hw hl (fun a ha => (hmem a).2 (.inr ha)) h.m.freep hi.arena.start hd.symm
  rw [hd] at hrun
  refine ⟨k, q, p, hq, hp, or_iff_not_imp_left.2 fun hno => ?_, hrun⟩
  obtain ⟨rfl, hall⟩ := hres.resolve_left hno
  refine ⟨rfl, fun a ha => ?_⟩
  rcases (hmem a).1 ha with rfl | ha
  · exact not_le.1 hno
  · exact hall a ha

theorem search_take (hh : y.heap s = h) (hfit : nunits ≤ h.m.size p) : search y nunits (fuel + 1) s q p =
    .ok (some (y.setHeap s (h.take nunits q p).1, (h.take nunits q p).2)) := by
  subst hh
  rw [search, if_pos hfit]

theorem search_refused (hh : y.heap s = h) (hno : ¬ nunits ≤ h.m.size h.m.freep)
    (hmore : morecore y fuel s nunits = .ok (some (s', none))) :
    search y nunits (fuel + 1) s q h.m.freep = .ok (some (s', none)) := by
  subst hh
  rw [search, if_neg hno, if_pos rfl, hmore]

/-- at freep it asks for more memory, and goes on if it gets some -/
theorem search_more (hh : y.heap s = h) (hno : ¬ nunits ≤ h.m.size h.m.freep)
    (hmore : morecore y fuel s nunits = .ok (some (s', some p))) :
    search y nunits (fuel + 1) s q h.m.freep = search y nunits fuel s' p ((y.heap s').m.ptr p) := by
  subst hh
  rw [search, if_neg hno, if_pos rfl, hmore]

end Platform

/-- with a large enough block in the list the search needs no more memory -/
theorem search_fits (sbrk : Sbrk) {nunits : ℕ} (hi : Inv base h L) (hfit : ∃ a ∈ L, nunits ≤ h.m.size a) :
    ∃ k x, ∀ fuel, search sbrk.platform nunits (fuel + k) h h.m.freep (h.m.ptr h.m.freep) = .ok (some x) := by
  obtain ⟨k, q, p, -, -, hres, hrun⟩ := search_round (y := sbrk.platform) (s := h) rfl hi nunits
  obtain ⟨a, ha, hle⟩ := hfit
  refine ⟨1 + k, h.take nunits q p, fun fuel => ?_⟩
  rw [← Nat.add_assoc, hrun]
  exact search_take rfl (hres.resolve_right fun hall => absurd hle (not_le.2 (hall.2 a ha)))

theorem morecore_total (hi : Inv base h L) (hs : sbrk.Fresh) (nu : ℕ) :
    ∃ k x, ∀ fuel, k ≤ fuel → morecore sbrk.platform fuel h nu = .ok (some x) := by
  generalize hnu : (if nu < 4096 then 4096 else nu) = nu'
  have hpos : 0 < nu' := by
    rw [← hnu]
    split_ifs <;> omega
  have hsbrk : sbrk.platform.sbrk h (nu' * 8) = .ok (sbrk h.brk (nu' * 8), h) := rfl
  cases hp : sbrk h.brk (nu' * 8) with
  | none =>
    rw [hp] at hsbrk
    exact ⟨0, _, fun _ _ => morecore_none hnu hsbrk⟩
  | some p =>
    rw [hp] at hsbrk
    obtain ⟨ha, hb, -, -⟩ := hi.region (hs _ _ _ hp) hpos
    obtain ⟨k, m', hf⟩ := free_total ha hb
    refine ⟨k, (⟨m', p + nu' * 8, h.units + nu', h.allocated⟩, some m'.freep), fun fuel hle => ?_⟩
    obtain ⟨j, rfl⟩ := Nat.exists_eq_add_of_le hle
    exact morecore_eq hnu hsbrk rfl (free_mono hf j)

/-- **The search of malloc ends**: it asks for memory at most once. -/
theorem search_total {nunits : ℕ} (hi : Inv base h L) (hs : sbrk.Fresh) :
    ∃ fuel x, search sbrk.platform nunits fuel h h.m.freep (h.m.ptr h.m.freep) = .ok (some x) := by
  obtain ⟨k, q, p, -, -, hres, hrun⟩ := search_round (y := sbrk.platform) (s := h) rfl hi nunits
  rcases hres with hfit | ⟨rfl, hall⟩
  · exact ⟨0 + 1 + k, _, (hrun _).trans (search_take rfl hfit)⟩
  · have hno := not_le.2 (hall _ hi.arena.start)
    obtain ⟨k1, ⟨h1, r1⟩, hm⟩ := morecore_total hi hs nunits
    rcases morecore_spec hi hs (hm k1 le_rfl) with ⟨rfl, -⟩ | ⟨L', rfl, hi', hfit'⟩
    · exact ⟨k1 + 1 + k, _, (hrun _).trans (search_refused rfl hno (hm k1 le_rfl))⟩
    · obtain ⟨k2, x, hx⟩ := search_fits sbrk hi' hfit'
      refine ⟨k1 + k2 + 1 + k, x, (hrun _).trans ?_⟩
      exact (search_more rfl hno (hm _ (Nat.le_add_right ..))).trans (hx k1)

/-! ## All runs -/

/-- nothing has been allocated yet, or the arena is in order -/
def Ok (base : ℕ) (h : Heap) : Prop :=
  (h.m.freep = 0 ∧ h.allocated = [] ∧ h.units = 0 ∧ base + 8 ≤ h.brk) ∨ ∃ L, Inv base h L

theorem Inv.first (hal : h.allocated = []) (hu : h.units = 0) (hbrk : base + 8 ≤ h.brk) :
    Inv base { h with m := ⟨update h.m.ptr base base, update h.m.size base 0, base⟩ } [base] := by
  obtain ⟨m, brk, units, allocated⟩ := h
  obtain rfl : allocated = [] := hal
  have hptr : update m.ptr base base base = base := update_self ..
  have hsize : update m.size base 0 base = 0 := update_self ..
  refine ⟨⟨rfl, ⟨hptr, trivial⟩, mem_cons_self, hsize, pairwise_singleton _ _, fun a ha => ?_,
    fun a ha => ?_, (fun _ hb => nomatch hb), (fun _ hb => nomatch hb), List.Pairwise.nil⟩, hbrk, ?_⟩
  · exact .inl (mem_singleton.1 ha)
  · rw [mem_singleton.1 ha]
    show base + 8 * update m.size base 0 base ≤ brk
    rw [hsize]
    have : base + 8 ≤ brk := hbrk
    omega
  · show update m.size base 0 base + 0 + 0 = units
    rw [hsize]
    exact hu.symm

theorem Ok.start (hbase : 0 < base) (hok : Ok base h) : ∃ L, Inv base (h.start base) L := by
  unfold Heap.start
  rcases hok with ⟨h0, hal, hu, hbrk⟩ | ⟨L, hi⟩
  · rw [if_pos h0]
    exact ⟨_, .first hal hu hbrk⟩
  · have hne : h.m.freep ≠ 0 := by
      have := hi.arena.base_le hi.arena.start
      omega
    rw [if_neg hne]
    exact ⟨L, hi⟩

theorem nunits_pos (nbytes : Word) : 0 < nunits nbytes := Nat.succ_pos _

/-- an allocated block is a block by itself once it is taken off the list of allocated blocks -/
theorem Inv.loose (hi : Inv base h L) (hb : b ∈ h.allocated) :
    Arena base h.m L (h.allocated.erase b) h.brk ∧ Loose base h.m L (h.allocated.erase b) h.brk b := by
  have ha := hi.arena
  have hsub := erase_sublist (a := b) (l := h.allocated)
  obtain ⟨hlow, hpos, htop⟩ := ha.taken b hb
  refine ⟨⟨ha.head, ha.walk, ha.start, ha.zero, ha.gaps, ha.block, ha.inside, fun c hc => ha.taken c (hsub.subset hc),
    fun c hc => ha.apart c (hsub.subset hc), ha.alApart.sublist hsub⟩, hlow, hpos, htop, ha.apart b hb, fun c hc => ?_⟩
  have hcb : c ≠ b := fun e => by
    rw [e, ha.al_nodup.mem_erase_iff] at hc
    exact hc.1 rfl
  have : Std.Symm fun b c => h.m.past b ≤ c ∨ h.m.past c ≤ b := ⟨fun _ _ => Or.symm⟩
  exact ha.alApart.forall (hsub.subset hc) hb hcb

theorem Inv.freed (hi : Inv base h L) {m : Mem} (hb : b ∈ h.allocated) (hf : free fuel h.m (b + 8) = some m) :
    ∃ L', Inv base { h with m := m, allocated := h.allocated.erase b } L' ∧ ∀ a ∈ L', a ∈ L ∨ a = b := by
  obtain ⟨ha, hl⟩ := hi.loose hb
  obtain ⟨L', hfr, hmem⟩ := free_spec ha hl hf
  refine ⟨L', ⟨hfr.arena, hi.low, ?_⟩, hmem⟩
  show m.sum L' + m.sum (h.allocated.erase b) = h.units
  have hperm : h.m.sum h.allocated = h.m.size b + h.m.sum (h.allocated.erase b) := by
    rw [← Mem.sum_cons]
    exact ((perm_cons_erase hb).map h.m.size).sum_eq
  have := hi.sum
  have := hfr.sum
  rw [Mem.sum_congr hfr.same]
  omega

theorem Inv.written (hi : Inv base h L) {m : Mem} (hfreep : m.freep = h.m.freep)
    (hm : ∀ x, ¬ Payload h x → m.ptr x = h.m.ptr x ∧ m.size x = h.m.size x) : Inv base { h with m := m } L := by
  have hL : ∀ a ∈ L, ¬ Payload h a := fun a ha hp => by
    obtain ⟨b, hb, h1, h2⟩ := hp
    have := hi.arena.apart b hb a ha
    have := h.m.le_past a
    omega
  have hal : ∀ c ∈ h.allocated, ¬ Payload h c := fun c hc hp => by
    obtain ⟨b, hb, h1, h2⟩ := hp
    have hcb : c ≠ b := by omega
    have : Std.Symm fun b c => h.m.past b ≤ c ∨ h.m.past c ≤ b := ⟨fun _ _ => Or.symm⟩
    have := hi.arena.alApart.forall hc hb hcb
    have := h.m.le_past c
    omega
  refine ⟨hi.arena.congr m hfreep (fun a ha => hm a (hL a ha)) fun c hc => (hm c (hal c hc)).2, hi.low, ?_⟩
  show m.sum L + m.sum h.allocated = h.units
  rw [Mem.sum_congr fun a ha => (hm a (hL a ha)).2, Mem.sum_congr fun c hc => (hm c (hal c hc)).2]
  exact hi.sum

/-- **Every run** keeps the arena in order. -/
theorem reach_ok (hbase : 0 < base) (hr : Reachable base h) : Ok base h := by
  induction hr with
  | init hm hbrk => exact .inl ⟨hm, rfl, rfl, hbrk⟩
  | malloc _ hs _ hm ih =>
    obtain ⟨L, hi⟩ := ih.start hbase
    exact .inr (search_spec hs (nunits_pos _) _ hi hi.arena.start hm)
  | @free h m fuel b _ hb hf ih =>
    rcases ih with ⟨-, hal, -, -⟩ | ⟨L, hi⟩
    · rw [hal] at hb
      cases hb
    · obtain ⟨L', hi', -⟩ := hi.freed hb hf
      exact .inr ⟨L', hi'⟩
  | @write h m _ hfreep hm ih =>
    rcases ih with ⟨h0, hal, hu, hbrk⟩ | ⟨L, hi⟩
    · exact .inl ⟨hfreep.trans h0, hal, hu, hbrk⟩
    · exact .inr ⟨L, hi.written hfreep hm⟩

/-- **The allocator.** In every heap that malloc, free and writes to allocated blocks lead to:
- once freep is set, the free list from freep is one circle, through base and the blocks fs; its addresses increase but at
  the wrap back to base; free blocks are disjoint from each other and from the allocated ones, which are disjoint from each
  other, and no free block ends where another one starts; and the free and the allocated units are those obtained from sbrk;
- free of an allocated block returns, and so does malloc, whether sbrk fails or returns fresh memory. -/
theorem malloc_free_arena (base : ℕ) (hbase : 0 < base) (h : Heap) (hr : Reachable base h) :
    (h.m.freep ≠ 0 → ∃ fs, Walk h.m.ptr (base :: fs) base ∧ h.m.freep ∈ base :: fs ∧ (base :: fs).Pairwise (· < ·) ∧
      (∀ a ∈ fs, ∀ b ∈ fs, a ≠ b → h.m.past a ≤ b ∨ h.m.past b ≤ a) ∧
      (∀ a ∈ fs, ∀ b ∈ h.allocated, h.m.past a ≤ b ∨ h.m.past b ≤ a) ∧
      h.allocated.Pairwise (fun b c => h.m.past b ≤ c ∨ h.m.past c ≤ b) ∧
      (∀ a ∈ base :: fs, ∀ b ∈ base :: fs, a ≠ b → h.m.past a ≠ b) ∧ h.m.sum fs + h.m.sum h.allocated = h.units) ∧
    (∀ b ∈ h.allocated, ∃ fuel m', free fuel h.m (b + 8) = some m') ∧
    ∀ (sbrk : Sbrk) (nbytes : Word), sbrk.Fresh → nunits nbytes * 8 < 2 ^ 32 →
      ∃ fuel r, malloc sbrk.platform base fuel h nbytes = .ok (some r) := by
  have hok := reach_ok hbase hr
  refine ⟨fun hne => ?_, fun b hb => ?_, fun sbrk nbytes hs _ => ?_⟩
  · obtain ⟨L, hi⟩ := hok.resolve_left fun h0 => hne h0.1
    have ha := hi.arena
    have hL := ha.eq_cons
    have htail : ∀ a ∈ L.tail, a ∈ L := fun a hm => mem_of_mem_tail hm
    have hsum := hi.sum
    rw [hL, Mem.sum_cons, ha.zero, Nat.zero_add] at hsum
    refine ⟨L.tail, ?_, ?_, ?_, fun a hm b hb hab => ?_, fun a hm b hb => ha.apart b hb a (htail a hm), ha.alApart,
      fun a hm b hb hab e => ?_, hsum⟩
    · rw [← hL]
      exact ha.walk
    · rw [← hL]
      exact ha.start
    · rw [← hL]
      exact ha.sorted
    · rcases ha.free_apart (htail a hm) (htail b hb) hab with hlt | hlt
      · exact .inl hlt.le
      · exact .inr hlt.le
    · rw [← hL] at hm hb
      rcases ha.free_apart hm hb hab with hlt | hlt
      · omega
      · have := h.m.le_past a
        have := h.m.le_past b
        omega
  · rcases hok with ⟨-, hal, -, -⟩ | ⟨L, hi⟩
    · rw [hal] at hb
      cases hb
    · obtain ⟨ha, hl⟩ := hi.loose hb
      exact free_total ha hl
  · obtain ⟨L, hi⟩ := hok.start hbase
    exact search_total hi hs

/-- sbrk with memory left -/
def plenty : Sbrk := fun brk _ => some brk

/-- a program that has called malloc(1): of the 4096 units of the first region two are allocated -/
theorem malloc_free_arena_example : ∃ h, Reachable 100 h ∧ h.units = 4096 ∧ h.allocated ≠ [] ∧
    ∃ fs, Walk h.m.ptr (100 :: fs) 100 ∧ h.m.sum fs + h.m.sum h.allocated = 4096 := by
  have h0 : Reachable 100 ⟨⟨fun _ => 0, fun _ => 0, 0⟩, 200, 0, []⟩ := .init rfl (by decide)
  have hs : plenty.Fresh := fun brk n p e => (Option.some.inj e).le
  have h1 := h0.malloc hs (by decide) (rfl : malloc plenty.platform 100 4 _ 1 = .ok (some _))
  obtain ⟨fs, hw, -, -, -, -, -, -, hsum⟩ := (malloc_free_arena 100 (by decide) _ h1).1 (by decide)
  exact ⟨_, h1, rfl, cons_ne_nil _ _, fs, hw, hsum⟩

end Xv6.Malloc
