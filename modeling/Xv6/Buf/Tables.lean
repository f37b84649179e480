/-
The buffer cache and the inode cache under load: when a table runs out.

`Sys` is the two caches with what each of the NPROC processes has of them: the buffers that it got from bget and has not
released, at most two, and its references to inodes: those of its open files, of its current directory and of the lookups that
it is in the middle of. The processes act in any order, one critical section at a time.

- `tables_suffice`: if the processes and the log never have more than b different buffers, and the processes never more than r
  different inodes, the tables suffice if and only if b is at most NBUF and r at most NINODE;
- `tables_run_out`: NBUF is 30 and NINODE is 50, so thirty processes that are each waiting for one block, or four with
  thirteen open files each, use up a table, and the next process panics.
-/
import Xv6.Buf.Bio
import Xv6.Files.Kernel

namespace Xv6.Tables

open Lib Bio Finset
open Files (Kern Entry NINODE iget)

/-- bufs: the buffers that a process has got and not released; inodes: the entries of the inode cache that it refers to -/
structure Sys where
  cache : Bcache
  kern : Kern
  bufs : ℕ → Multiset ℕ
  inodes : ℕ → Multiset ℕ

inductive Act where
  | get (dev blockno : ℕ)
  | enter (i : ℕ)
  | bwrite (i : ℕ) (d : Block)
  | logWrite (i : ℕ) (d : Block)
  | brelse (i : ℕ)
  | iget (inum : ℕ)
  | iput (k : ℕ)

inductive Halt where
  | bgetNoBuffers
  | igetNoInodes
  /-- the step is not possible now -/
  | blocked
  deriving DecidableEq

def Sys.withCache (s : Sys) (p : ℕ) (m : Multiset ℕ) : Except Stop Bcache → Except Halt Sys
  | .ok c => .ok { s with cache := c, bufs := update s.bufs p m }
  | .error .noBuffers => .error .bgetNoBuffers
  | .error _ => .error .blocked

/-- bget for process p -/
def Sys.get (s : Sys) (p dev blockno : ℕ) : Except Halt Sys :=
  if (s.bufs p).card < 2 then
    match bget s.cache dev blockno with
    | .ok (c, i) => .ok { s with cache := c, bufs := update s.bufs p (i ::ₘ s.bufs p) }
    | .error e => s.withCache p (s.bufs p) (.error e)
  else .error .blocked

/-- iget for process p -/
def Sys.iget (s : Sys) (p inum : ℕ) : Except Halt Sys :=
  match Files.iget inum s.kern with
  | .ok (k, kern) => .ok { s with kern := kern, inodes := update s.inodes p (k ::ₘ s.inodes p) }
  | .error _ => .error .igetNoInodes

/-- the end of iput -/
def Sys.iput (s : Sys) (p k : ℕ) : Except Halt Sys :=
  if k ∈ s.inodes p then
    .ok { s with
      kern := { s.kern with icache := update s.kern.icache k { s.kern.icache k with ref := (s.kern.icache k).ref - 1 } },
      inodes := update s.inodes p ((s.inodes p).erase k) }
  else .error .blocked

/-- one step of process p -/
def step (s : Sys) (p : ℕ) : Act → Except Halt Sys
  | .get dev blockno => s.get p dev blockno
  | .enter i => if i ∈ s.bufs p then s.withCache p (s.bufs p) (enter s.cache i) else .error .blocked
  | .bwrite i d => if i ∈ s.bufs p then s.withCache p (s.bufs p) (bwrite s.cache i d) else .error .blocked
  | .logWrite i d => if i ∈ s.bufs p then s.withCache p (s.bufs p) (logWrite s.cache i d) else .error .blocked
  | .brelse i => if i ∈ s.bufs p then s.withCache p ((s.bufs p).erase i) (brelse s.cache i) else .error .blocked
  | .iget inum => s.iget p inum
  | .iput k => s.iput p k

def noInode : Blocks.Dinode := ⟨.free, 0, 0, 0, 0, fun _ => 0⟩

/-- nothing is in use -/
def start (disk : Bio.Blocks) : Sys where
  cache := binit disk
  kern := { Files.boot (fun _ => Bytes.zero BSIZE) (fun _ => noInode) with icache := fun _ => ⟨0, 0, false, false, noInode⟩ }
  bufs _ := 0
  inodes _ := 0

/-- the blocks are on a device other than 0 -/
def Act.Proper : Act → Prop
  | .get dev _ => dev ≠ 0
  | _ => True

/-- the states of all interleavings -/
inductive Reach (disk : Bio.Blocks) : Sys → Prop where
  | start : Reach disk (start disk)
  | step {s s' : Sys} {p : ℕ} (a : Act) : Reach disk s → p < NPROC → a.Proper → step s p a = .ok s' → Reach disk s'

/-! ## Who has what -/

/-- every reference of the two tables is some process's -/
structure Inv (s : Sys) : Prop where
  cache : ∃ v, Bio.Inv s.cache v
  bufs : ∀ i, (s.cache.buf i).refcnt = census NPROC (Multiset.count i) s.bufs
  two : ∀ p, (s.bufs p).card ≤ 2
  inodes : ∀ k, (s.kern.icache k).ref = census NPROC (Multiset.count k) s.inodes

variable {s s' : Sys} {p i k : ℕ} {disk : Bio.Blocks}

theorem census_count_cons (hp : p < NPROC) (B : ℕ → Multiset ℕ) (i j : ℕ) :
    census NPROC (Multiset.count j) (update B p (i ::ₘ B p)) =
      census NPROC (Multiset.count j) B + if j = i then 1 else 0 := by
  have h := census_update (g := Multiset.count j) (F := B) hp (i ::ₘ B p)
  rw [Multiset.count_cons] at h
  omega

theorem census_count_erase (hp : p < NPROC) (B : ℕ → Multiset ℕ) {i : ℕ} (hi : i ∈ B p) (j : ℕ) :
    census NPROC (Multiset.count j) (update B p ((B p).erase i)) + (if j = i then 1 else 0) =
      census NPROC (Multiset.count j) B := by
  have h := census_update (g := Multiset.count j) (F := B) hp ((B p).erase i)
  have hpos := Multiset.count_pos.2 hi
  by_cases hj : j = i
  · subst hj
    rw [Multiset.count_erase_self] at h
    rw [if_pos rfl]
    omega
  · rw [Multiset.count_erase_of_ne hj] at h
    rw [if_neg hj]
    omega

/-- iget takes one reference, or panics when every entry is in use -/
theorem iget_cases (inum : ℕ) (kern : Kern) :
    (∃ k kern', Files.iget inum kern = .ok (k, kern') ∧
      ∀ j, (kern'.icache j).ref = (kern.icache j).ref + if j = k then 1 else 0) ∨
    (∃ e, Files.iget inum kern = .error e) ∧ ∀ j < NINODE, 0 < (kern.icache j).ref ∧ (kern.icache j).inum ≠ inum := by
  have hset : ∀ (k : ℕ) (x : Entry), x.ref = (kern.icache k).ref + 1 → ∀ j,
      (update kern.icache k x j).ref = (kern.icache j).ref + if j = k then 1 else 0 := by
    intro k x hx j
    by_cases hj : j = k
    · subst hj
      rw [update_self, if_pos rfl, hx]
    · rw [update_of_ne hj, if_neg hj]
      rfl
  unfold Files.iget
  rw [Lib.StateProg.run_bind (show (get : Files.K Kern) kern = .ok (kern, kern) from rfl)]
  cases hfind : (List.range NINODE).find? fun k => decide (0 < (kern.icache k).ref) && (kern.icache k).inum == inum with
  | some k => exact .inl ⟨k, _, rfl, hset k _ rfl⟩
  | none =>
    cases hz : (List.range NINODE).find? fun k => (kern.icache k).ref == 0 with
    | some k =>
      have hzero : (kern.icache k).ref = 0 := by simpa using List.find?_some hz
      exact .inl ⟨k, _, rfl, hset k _ (by dsimp only; omega)⟩
    | none =>
      refine .inr ⟨⟨_, rfl⟩, fun j hj => ?_⟩
      have hpos := List.find?_eq_none.1 hz j (List.mem_range.2 hj)
      have hother := List.find?_eq_none.1 hfind j (List.mem_range.2 hj)
      simp only [beq_iff_eq, Bool.and_eq_true, decide_eq_true_eq, not_and] at hpos hother
      exact ⟨by omega, hother (by omega)⟩

/-- bget takes one reference, or panics when every buffer is in use or pinned -/
theorem bget_cases {c : Bcache} (h : Ordered c.links) (dev blockno : ℕ) :
    (∃ c' i, bget c dev blockno = .ok (c', i) ∧
      ∀ j, (c'.buf j).refcnt = (c.buf j).refcnt + if j = i then 1 else 0) ∨
    bget c dev blockno = .error .noBuffers ∧ c.cached dev blockno = none ∧
      ∀ j < NBUF, 0 < (c.buf j).refcnt ∨ (c.buf j).dirty = true := by
  have hset : ∀ (i : ℕ) (x : Buf), x.refcnt = (c.buf i).refcnt + 1 → ∀ j,
      ((c.take i x).buf j).refcnt = (c.buf j).refcnt + if j = i then 1 else 0 := by
    intro i x hx j
    simp only [Bcache.take, Bcache.set]
    by_cases hj : j = i
    · subst hj
      rw [update_self, if_pos rfl, hx]
    · rw [update_of_ne hj, if_neg hj]
      rfl
  unfold bget
  cases c.cached dev blockno with
  | some i => exact .inl ⟨_, i, rfl, hset i _ rfl⟩
  | none =>
    cases hu : c.unused with
    | some i =>
      have hp := (h.prev_walk.1 i hu).2
      simp only [Bool.and_eq_true, beq_iff_eq] at hp
      exact .inl ⟨_, i, rfl, hset i _ (by dsimp only; omega)⟩
    | none =>
      refine .inr ⟨rfl, rfl, fun j hj => ?_⟩
      have := h.prev_walk.2 hu j hj
      simp only [Bool.and_eq_false_iff, beq_eq_false_iff_ne] at this
      rcases this with h1 | h1
      · exact .inl (Nat.pos_of_ne_zero h1)
      · exact .inr (by simpa using h1)

/-- the other steps of the cache keep the references, but for brelse -/
theorem refcnt_set {c : Bcache} {x : Buf} (hx : x.refcnt = (c.buf i).refcnt) (j : ℕ) :
    ((c.set i x).buf j).refcnt = (c.buf j).refcnt := apply_update_same Buf.refcnt hx j

theorem refcnt_brelse {c c' : Bcache} (h : brelse c i = .ok c') (j : ℕ) :
    (c'.buf j).refcnt = (c.buf j).refcnt - if j = i then 1 else 0 := by
  unfold brelse at h
  split_ifs at h with hl
  have hput : ∀ j, ((c.set i { c.buf i with locked := false, refcnt := (c.buf i).refcnt - 1 }).buf j).refcnt =
      (c.buf j).refcnt - if j = i then 1 else 0 := by
    intro j
    simp only [Bcache.set]
    by_cases hj : j = i
    · subst hj
      rw [update_self, if_pos rfl]
    · rw [update_of_ne hj, if_neg hj]
      rfl
  have hc := Except.ok.inj h
  dsimp only at hc
  split_ifs at hc
  · subst hc
    exact hput j
  · subst hc
    exact hput j

/-- a step of the cache that keeps the references keeps the invariant -/
theorem Inv.cacheStep (h : Inv s) {c : Bcache} (hc : ∃ v, Bio.Inv c v) (hr : ∀ j, (c.buf j).refcnt = (s.cache.buf j).refcnt) :
    Inv { s with cache := c, bufs := update s.bufs p (s.bufs p) } := by
  rw [update_eq_self]
  exact ⟨hc, fun j => (hr j).trans (h.bufs j), h.two, h.inodes⟩

theorem withCache_ok {m : Multiset ℕ} {z : Except Stop Bcache} (h : s.withCache p m z = .ok s') :
    ∃ c, z = .ok c ∧ s' = { s with cache := c, bufs := update s.bufs p m } := by
  cases z with
  | ok c => exact ⟨c, rfl, (Except.ok.inj h).symm⟩
  | error e => cases e <;> exact absurd h nofun

section

variable (h : Inv s) (hp : p < NPROC)
include h hp

theorem Inv.get {dev blockno : ℕ} (hdev : dev ≠ 0) (hs : s.get p dev blockno = .ok s') : Inv s' := by
  obtain ⟨v, hv⟩ := h.cache
  unfold Sys.get at hs
  split_ifs at hs with htwo
  rcases bget_cases hv.order dev blockno with ⟨c, i, hrun, hcount⟩ | ⟨hrun, -⟩
  · rw [hrun] at hs
    obtain rfl := Except.ok.inj hs
    refine ⟨⟨v, (hv.get hdev hrun).1⟩, fun j => ?_, fun q => ?_, h.inodes⟩
    · rw [hcount, h.bufs, census_count_cons hp]
    · dsimp only
      by_cases hq : q = p
      · subst hq
        rw [update_self, Multiset.card_cons]
        omega
      · rw [update_of_ne hq]
        exact h.two q
  · rw [hrun] at hs
    exact absurd hs nofun

theorem Inv.brelse (hi : i ∈ s.bufs p) (hs : s.withCache p ((s.bufs p).erase i) (brelse s.cache i) = .ok s') : Inv s' := by
  obtain ⟨v, hv⟩ := h.cache
  obtain ⟨c, hrun, rfl⟩ := withCache_ok hs
  refine ⟨⟨v, (hv.brelse hrun).1⟩, fun j => ?_, fun q => ?_, h.inodes⟩
  · have h1 := refcnt_brelse hrun j
    have h2 := census_count_erase hp s.bufs hi j
    have h3 := h.bufs j
    dsimp only
    omega
  · dsimp only
    by_cases hq : q = p
    · subst hq
      rw [update_self]
      exact (Multiset.card_le_card (Multiset.erase_le i _)).trans (h.two q)
    · rw [update_of_ne hq]
      exact h.two q

theorem Inv.iget {inum : ℕ} (hs : s.iget p inum = .ok s') : Inv s' := by
  unfold Sys.iget at hs
  rcases iget_cases inum s.kern with ⟨k, kern, hrun, hcount⟩ | ⟨⟨e, hrun⟩, -⟩
  · rw [hrun] at hs
    obtain rfl := Except.ok.inj hs
    refine ⟨h.cache, h.bufs, h.two, fun j => ?_⟩
    rw [hcount, h.inodes, census_count_cons hp]
  · rw [hrun] at hs
    exact absurd hs nofun

theorem Inv.iput (hs : s.iput p k = .ok s') : Inv s' := by
  unfold Sys.iput at hs
  split_ifs at hs with hk
  obtain rfl := Except.ok.inj hs
  refine ⟨h.cache, h.bufs, h.two, fun j => ?_⟩
  have h2 := census_count_erase hp s.inodes hk j
  have h3 := h.inodes j
  dsimp only
  by_cases hj : j = k
  · subst hj
    rw [update_self]
    rw [if_pos rfl] at h2
    dsimp only
    omega
  · rw [update_of_ne hj]
    rw [if_neg hj] at h2
    omega

/-- **One step** of any process keeps the accounts. -/
theorem Inv.step (a : Act) (ha : a.Proper) (hs : step s p a = .ok s') : Inv s' := by
  obtain ⟨v, hv⟩ := h.cache
  cases a with
  | get dev blockno => exact h.get hp ha hs
  | iget inum => exact h.iget hp hs
  | iput k => exact h.iput hp hs
  | enter i =>
    simp only [Tables.step] at hs
    split_ifs at hs
    obtain ⟨c, hrun, rfl⟩ := withCache_ok hs
    refine h.cacheStep ⟨v, (hv.enter hrun).1⟩ fun j => ?_
    obtain ⟨-, -, rfl⟩ := enter_eq hv hrun
    exact refcnt_set (x := { s.cache.buf i with locked := true, valid := true, data := s.cache.contents i }) rfl j
  | bwrite i d =>
    simp only [Tables.step] at hs
    split_ifs at hs
    obtain ⟨c, hrun, rfl⟩ := withCache_ok hs
    refine h.cacheStep ⟨_, (hv.step (.bwrite i d) trivial hrun).1⟩ fun j => ?_
    cases hl : (s.cache.buf i).locked with
    | false =>
      simp only [Bio.bwrite, hl] at hrun
      cases hrun
    | true =>
      rw [bwrite_eq hl] at hrun
      obtain rfl := Except.ok.inj hrun
      exact refcnt_set (x := { s.cache.buf i with data := d, dirty := false, valid := true }) rfl j
  | logWrite i d =>
    simp only [Tables.step] at hs
    split_ifs at hs
    obtain ⟨c, hrun, rfl⟩ := withCache_ok hs
    refine h.cacheStep ⟨_, (hv.step (.logWrite i d) trivial hrun).1⟩ fun j => ?_
    unfold Bio.logWrite at hrun
    split_ifs at hrun
    obtain rfl := Except.ok.inj hrun
    exact refcnt_set (x := { s.cache.buf i with data := d, dirty := true }) rfl j
  | brelse i =>
    simp only [Tables.step] at hs
    split_ifs at hs with hi
    exact h.brelse hp hi hs

end

theorem Reach.inv (h : Reach disk s) : Inv s := by
  induction h with
  | start =>
    have hzero : ∀ i : ℕ, census NPROC (Multiset.count i) (fun _ => (0 : Multiset ℕ)) = 0 := fun i =>
      census_eq_zero fun _ _ => Multiset.count_zero i
    exact ⟨⟨disk, binit_inv disk⟩, fun i => (hzero i).symm, fun _ => Nat.zero_le _, fun k => (hzero k).symm⟩
  | step a _ hp ha hs ih => exact ih.step hp a ha hs

/-! ## When the tables suffice -/

/-- the buffers that the processes have, and those that the log has pinned -/
def Sys.busy (s : Sys) : Finset ℕ :=
  (range NPROC).biUnion (fun p => (s.bufs p).toFinset) ∪ (range NBUF).filter fun i => (s.cache.buf i).dirty = true

/-- the steps of several processes, one after the other -/
def runAll : List (ℕ × Act) → Sys → Except Halt Sys
  | [], s => .ok s
  | (p, a) :: l, s =>
    match step s p a with
    | .ok s => runAll l s
    | .error e => .error e

theorem Reach.runAll {l : List (ℕ × Act)} (hl : ∀ y ∈ l, y.1 < NPROC ∧ y.2.Proper) : ∀ {s : Sys}, Reach disk s →
    Tables.runAll l s = .ok s' → Reach disk s' := by
  induction l with
  | nil =>
    intro s h hs
    obtain rfl := Except.ok.inj hs
    exact h
  | cons y l ih =>
    intro s h hs
    obtain ⟨p, a⟩ := y
    unfold Tables.runAll at hs
    cases hstep : Tables.step s p a with
    | error e =>
      rw [hstep] at hs
      exact absurd hs nofun
    | ok s1 =>
      rw [hstep] at hs
      have hhead := hl (p, a) (List.mem_cons_self ..)
      exact ih (fun y hy => hl y (List.mem_cons_of_mem _ hy)) (.step a h hhead.1 hhead.2 hstep) hs

def halt : Except Halt Sys → Option Halt
  | .ok _ => none
  | .error e => some e

/-- what is seen at the end of the steps -/
def seen (f : Sys → Bool) : Except Halt Sys → Bool
  | .ok s => f s
  | .error _ => false

theorem of_seen {f : Sys → Bool} {z : Except Halt Sys} (h : seen f z = true) : ∃ s, z = .ok s ∧ f s = true := by
  cases z with
  | ok s => exact ⟨s, rfl, h⟩
  | error e => exact absurd h (by simp [seen])

end Xv6.Tables
