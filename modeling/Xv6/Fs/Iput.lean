/-
`iput` and the other users of one inode's cache entry, cut into their critical sections (`fs.c`).

Any number of processes take (`iget`, `idup`), lock (`ilock`, with the load from disk), link, unlink, write, unlock and
drop (`iput`) references to one inode, and allocate it anew (`ialloc` and `create`) once it is free. `ip->lock` is a
sleep lock, taken by one step and released by another; `icache.lock` protects single accesses to `ref`, each a step.
So `iput` is: take `ip->lock`; test `valid` and `nlink`; read `ref`; if it was 1, truncate and clear the type on disk,
then clear `valid`; release; and only then decrement `ref`. `ilock` on a free inode panics: no step leads on from there.

References that no call is working on (a cwd, an open file, a local variable) are the number `handles`; `busy`, `allocs`
and `frees` are ghost.

- `overlapping_iput_leaks`: two overlapping `iput`s of an unlinked inode both read `ref = 2`, and nobody frees it.
- `last_reference_frees`: in every run in which no `iput` reads `ref` while another process stands between its test and
  its decrement, an inode with `nlink = 0` and `ref = 0` is free on disk, empty, and was freed once per allocation.
-/
import Mathlib.Tactic

namespace Xv6.Iput

open Finset

/-- where a process stands with the inode -/
inductive Pc where
  | idle
  | ilockAcq | ilockLoad | locked
  -- create, after ialloc: ilock, then nlink = 1
  | createAcq | createLoad | createLink
  | iputAcq | iputTest | iputRead | iputTrunc | iputInval | iputRel | iputDec
  deriving DecidableEq

/-- the cache entry (`ref`, `valid`, `nlink`, `lock`), the inode on disk (`dtype`: its type is nonzero), references -/
structure St (ι : Type) where
  ref : ℤ
  valid : Bool
  nlink : BitVec 16
  lock : Option ι
  dtype : Bool
  dnlink : BitVec 16
  dsize : ℕ
  handles : ℕ
  pc : ι → Pc
  busy : Finset ι
  allocs : ℕ
  frees : ℕ

variable {ι : Type} [DecidableEq ι]

/-- `p` moves to `c` -/
def St.go (s : St ι) (p : ι) (c : Pc) : St ι := { s with pc := Function.update s.pc p c }

/-- one step of process `p` -/
inductive Step (s : St ι) (p : ι) : St ι → Prop where
  -- iget: an entry with ref 0 is recycled, its valid flag cleared
  | iget : s.pc p = .idle → Step s p { s with
      ref := s.ref + 1, handles := s.handles + 1, valid := if s.ref = 0 then false else s.valid }
  | idup : s.pc p = .idle → 0 < s.handles → Step s p { s with ref := s.ref + 1, handles := s.handles + 1 }
  | ilock : s.pc p = .idle → 0 < s.handles →
      Step s p { s.go p .ilockAcq with handles := s.handles - 1, busy := insert p s.busy }
  | ilockAcq : s.pc p = .ilockAcq → s.lock = none → Step s p { s.go p .ilockLoad with lock := some p }
  | ilockHit : s.pc p = .ilockLoad → s.valid = true → Step s p (s.go p .locked)
  | ilockLoad : s.pc p = .ilockLoad → s.valid = false → s.dtype = true →
      Step s p { s.go p .locked with valid := true, nlink := s.dnlink }
  -- under ip->lock: sys_link and its undo, sys_unlink (nlink < 1 panics) and writei, each with its iupdate
  | link : s.pc p = .locked → Step s p { s with nlink := s.nlink + 1, dnlink := s.nlink + 1 }
  | linkUndo : s.pc p = .locked → Step s p { s with nlink := s.nlink - 1, dnlink := s.nlink - 1 }
  | unlink : s.pc p = .locked → 1 ≤ s.nlink.toInt → Step s p { s with nlink := s.nlink - 1, dnlink := s.nlink - 1 }
  | write (n : ℕ) : s.pc p = .locked → Step s p { s with dsize := n }
  | iunlock : s.pc p = .locked →
      Step s p { s.go p .idle with lock := none, handles := s.handles + 1, busy := s.busy.erase p }
  -- ialloc finds the inode free, clears it and takes a reference
  | ialloc : s.pc p = .idle → s.dtype = false → Step s p { s.go p .createAcq with
      dtype := true, dnlink := 0, dsize := 0, ref := s.ref + 1, valid := if s.ref = 0 then false else s.valid,
      busy := insert p s.busy, allocs := s.allocs + 1 }
  | createAcq : s.pc p = .createAcq → s.lock = none → Step s p { s.go p .createLoad with lock := some p }
  | createHit : s.pc p = .createLoad → s.valid = true → Step s p (s.go p .createLink)
  | createLoad : s.pc p = .createLoad → s.valid = false → s.dtype = true →
      Step s p { s.go p .createLink with valid := true, nlink := s.dnlink }
  | createLink : s.pc p = .createLink → Step s p { s.go p .locked with nlink := 1, dnlink := 1 }
  | iput : s.pc p = .idle → 0 < s.handles →
      Step s p { s.go p .iputAcq with handles := s.handles - 1, busy := insert p s.busy }
  | iputAcq : s.pc p = .iputAcq → s.lock = none → Step s p { s.go p .iputTest with lock := some p }
  | iputKeep : s.pc p = .iputTest → ¬ (s.valid = true ∧ s.nlink = 0) → Step s p (s.go p .iputRel)
  | iputTest : s.pc p = .iputTest → s.valid = true ∧ s.nlink = 0 → Step s p (s.go p .iputRead)
  | iputShared : s.pc p = .iputRead → s.ref ≠ 1 → Step s p (s.go p .iputRel)
  | iputLast : s.pc p = .iputRead → s.ref = 1 → Step s p (s.go p .iputTrunc)
  | iputTrunc : s.pc p = .iputTrunc →
      Step s p { s.go p .iputInval with dtype := false, dnlink := s.nlink, dsize := 0, frees := s.frees + 1 }
  | iputInval : s.pc p = .iputInval → Step s p { s.go p .iputRel with valid := false }
  | iputRel : s.pc p = .iputRel → Step s p { s.go p .iputDec with lock := none }
  | iputDec : s.pc p = .iputDec → Step s p { s.go p .idle with ref := s.ref - 1, busy := s.busy.erase p }

/-- an inode nobody references: free and cleared, or allocated with a link -/
def St.start (links : BitVec 16) (size : ℕ) : St ι where
  ref := 0
  valid := false
  nlink := 0
  lock := none
  dtype := links ≠ 0
  dnlink := links
  dsize := if links = 0 then 0 else size
  handles := 0
  pc := fun _ => .idle
  busy := ∅
  allocs := if links = 0 then 0 else 1
  frees := 0

/-- the states reached by steps that meet `Guard` -/
inductive Reach (Guard : St ι → ι → Prop) : St ι → Prop where
  | start (links : BitVec 16) (size : ℕ) : Reach Guard (St.start links size)
  | step {s s' : St ι} {p : ι} : Reach Guard s → Guard s p → Step s p s' → Reach Guard s'

/-- past the test of `iput` with the reference still counted -/
def Pc.stale : Pc → Bool
  | .iputInval | .iputRel | .iputDec => true
  | _ => false

/-- `iput` reads `ref` only when no other process is between its own test and its decrement -/
def NoStaleRef (s : St ι) (p : ι) : Prop := s.pc p = .iputRead → ∀ q, (s.pc q).stale = false

/-! ## The invariant -/

/-- between `acquiresleep` and `releasesleep` -/
def Pc.holdsLock : Pc → Bool
  | .ilockLoad | .locked | .createLoad | .createLink | .iputTest | .iputRead | .iputTrunc | .iputInval | .iputRel => true
  | _ => false

/-- has a reference whose `iput` has not decided yet, or has decided to free -/
def Pc.holding : Pc → Bool
  | .idle | .iputInval | .iputRel | .iputDec => false
  | _ => true

/-- has allocated the inode and not yet loaded it -/
def Pc.creating : Pc → Bool
  | .createAcq | .createLoad => true
  | _ => false

/-- works on a loaded copy -/
def Pc.loaded : Pc → Bool
  | .locked | .createLink | .iputRead | .iputTrunc | .iputInval => true
  | _ => false

structure Inv (s : St ι) : Prop where
  count : s.ref = s.handles + s.busy.card
  busy : ∀ q, q ∈ s.busy ↔ s.pc q ≠ .idle
  lock : ∀ q, (s.pc q).holdsLock = true ↔ s.lock = some q
  loaded : ∀ q, (s.pc q).loaded = true → s.valid = true
  zero : ∀ q, s.pc q = .iputRead ∨ s.pc q = .iputTrunc → s.nlink = 0
  sync : s.valid = true → (∀ q, s.pc q ≠ .iputInval) → s.dtype = true ∧ s.dnlink = s.nlink
  -- an allocated inode without links has a reference still to be dropped
  unlinked : s.dtype = true → s.dnlink = 0 → 0 < s.handles ∨ ∃ q, (s.pc q).holding = true
  unloaded : s.dtype = true → s.dnlink = 0 → (s.valid = false ∨ ∃ q, s.pc q = .iputInval) →
    ∃ q, (s.pc q).creating = true
  empty : s.dtype = false → s.dsize = 0
  once : s.allocs = s.frees + if s.dtype then 1 else 0

variable {s s' : St ι} {p q : ι}

omit [DecidableEq ι] in
theorem Inv.lock_uniq (hi : Inv s) (hp : (s.pc p).holdsLock = true) (hq : (s.pc q).holdsLock = true) : q = p := by
  have h1 := (hi.lock p).mp hp
  have h2 := (hi.lock q).mp hq
  rw [h1] at h2
  exact (Option.some.inj h2).symm

section

variable (h : Step s p s')
include h

theorem step_other (hq : q ≠ p) : s'.pc q = s.pc q := by
  cases h <;> simp [St.go, hq]

/-- who works on a reference, and the references nobody works on -/
theorem step_refs : (s'.busy = s.busy ∧ (s'.pc p = .idle ↔ s.pc p = .idle) ∧ s'.ref - s'.handles = s.ref - s.handles) ∨
    (s.pc p = .idle ∧ s'.pc p ≠ .idle ∧ s'.busy = insert p s.busy ∧ s'.ref - s'.handles = s.ref - s.handles + 1) ∨
    (s.pc p ≠ .idle ∧ s'.pc p = .idle ∧ s'.busy = s.busy.erase p ∧ s'.ref - s'.handles = s.ref - s.handles - 1) := by
  cases h <;> simp_all [St.go] <;> omega

theorem step_busy (hi : Inv s) : s'.ref = s'.handles + s'.busy.card ∧ ∀ q, q ∈ s'.busy ↔ s'.pc q ≠ .idle := by
  have hc := hi.count
  have hb := hi.busy
  have hfr : ∀ q, q ≠ p → s'.pc q = s.pc q := fun q hq => step_other h hq
  rcases step_refs h with ⟨h1, h2, h3⟩ | ⟨h1, h2, h3, h4⟩ | ⟨h1, h2, h3, h4⟩
  · refine ⟨by rw [h1]; omega, fun q => ?_⟩
    rw [h1, hb q]
    by_cases hq : q = p
    · rw [hq]; exact not_congr h2.symm
    · rw [hfr q hq]
  · have hp : p ∉ s.busy := fun hp => (hb p).mp hp h1
    refine ⟨by rw [h3, card_insert_of_notMem hp]; push_cast; omega, fun q => ?_⟩
    rw [h3, mem_insert, hb q]
    by_cases hq : q = p
    · simp [hq, h2]
    · simp [hq, hfr q hq]
  · have hp : p ∈ s.busy := (hb p).mpr h1
    have hpos := card_pos.mpr ⟨p, hp⟩
    refine ⟨by rw [h3, card_erase_of_mem hp]; omega, fun q => ?_⟩
    rw [h3, mem_erase, hb q]
    by_cases hq : q = p
    · simp [hq, h2]
    · simp [hq, hfr q hq]

theorem step_lock (hi : Inv s) (q : ι) : (s'.pc q).holdsLock = true ↔ s'.lock = some q := by
  have hl := hi.lock p
  have hq := hi.lock q
  have hfr : q ≠ p → s'.pc q = s.pc q := fun hq => step_other h hq
  by_cases hqp : q = p
  · subst hqp
    cases h <;> simp_all [St.go, Pc.holdsLock]
  · rw [hfr hqp, hq]
    cases h <;> simp_all [St.go, Pc.holdsLock] <;> grind

/-- `valid` is set by a load, and cleared by `iput` or when an entry without references is recycled -/
theorem step_valid : s'.valid = s.valid ∨ s'.valid = true ∨ (s.ref = 0 ∧ s'.valid = false) ∨ s.pc p = .iputInval := by
  cases h <;> simp_all [St.go] <;> grind

end

omit [DecidableEq ι] in
theorem Pc.loaded_holdsLock {c : Pc} (h : c.loaded = true) : c.holdsLock = true := by
  cases c <;> simp_all [Pc.loaded, Pc.holdsLock]

omit [DecidableEq ι] in
theorem Inv.ref_pos (hi : Inv s) (hq : s.pc q ≠ .idle) : s.ref ≠ 0 := by
  have := card_pos.mpr ⟨q, (hi.busy q).mpr hq⟩
  have := hi.count
  omega

theorem step_loaded (h : Step s p s') (hi : Inv s) (q : ι) (hq : (s'.pc q).loaded = true) : s'.valid = true := by
  by_cases hqp : q = p
  · subst hqp
    have hl := hi.loaded q
    cases h <;> simp_all [St.go, Pc.loaded]
  · rw [step_other h hqp] at hq
    have hv := hi.loaded q hq
    have hidle : s.pc q ≠ .idle := by intro e; simp [e, Pc.loaded] at hq
    rcases step_valid h with e | e | ⟨e, -⟩ | e
    · rw [e, hv]
    · exact e
    · exact absurd e (hi.ref_pos hidle)
    · exact absurd (hi.lock_uniq (p := p) (by simp [e, Pc.holdsLock]) (Pc.loaded_holdsLock hq)) hqp

theorem step_zero (h : Step s p s') (hi : Inv s) (q : ι) (hq : s'.pc q = .iputRead ∨ s'.pc q = .iputTrunc) : s'.nlink = 0 := by
  by_cases hqp : q = p
  · subst hqp
    have hz := hi.zero q
    cases h <;> simp_all [St.go]
  · rw [step_other h hqp] at hq
    have hz := hi.zero q hq
    -- `nlink` changes only under the lock, which `q` holds
    have hl : (s.pc p).holdsLock = false := by
      by_contra hl
      exact hqp (hi.lock_uniq (by simpa using hl) (by rcases hq with e | e <;> simp [e, Pc.holdsLock]))
    cases h <;> simp_all [St.go, Pc.holdsLock]

theorem step_sync (h : Step s p s') (hi : Inv s) (hv : s'.valid = true) (hn : ∀ q, s'.pc q ≠ .iputInval) :
    s'.dtype = true ∧ s'.dnlink = s'.nlink := by
  have hs := hi.sync
  have hl := hi.loaded p
  have hnp := hn p
  have hfr : s.pc p ≠ .iputInval → ∀ q, s.pc q ≠ .iputInval := by
    intro hp q
    by_cases hqp : q = p
    · rw [hqp]; exact hp
    · rw [← step_other h hqp]; exact hn q
  cases h <;> simp_all [St.go, Pc.loaded]

omit [DecidableEq ι] in
/-- the lock holder reads a copy that agrees with the disk, unless it is the one about to invalidate it -/
theorem Inv.sync_of_lock (hi : Inv s) (hl : (s.pc p).holdsLock = true) (hp : s.pc p ≠ .iputInval)
    (hv : s.valid = true) : s.dtype = true ∧ s.dnlink = s.nlink :=
  hi.sync hv fun q hq => by
    have := hi.lock_uniq hl (q := q) (by simp [hq, Pc.holdsLock])
    exact hp (this ▸ hq)

/-- `iput` decides while other references are fresh: if its own is not the only one, another one is left -/
theorem other_ref (hi : Inv s) (hp : s.pc p = .iputRead) (hr : s.ref ≠ 1) (hg : NoStaleRef s p) :
    0 < s.handles ∨ ∃ q, q ≠ p ∧ (s.pc q).holding = true := by
  by_contra hno
  simp only [not_or, not_lt, nonpos_iff_eq_zero, not_exists, not_and, Bool.not_eq_true] at hno
  have hbusy : s.busy = {p} := by
    ext q
    rw [hi.busy q, mem_singleton]
    constructor
    · intro hq
      by_contra hqp
      have h1 := hno.2 q hqp
      have h2 := hg hp q
      cases hc : s.pc q <;> simp_all [Pc.holding, Pc.stale]
    · rintro rfl
      simp [hp]
  have := hi.count
  rw [hbusy, hno.1] at this
  simp at this
  exact hr this

section

variable (h : Step s p s') (hi : Inv s)
include h hi

theorem step_unlinked (hg : NoStaleRef s p) (ht : s'.dtype = true)
    (hz : s'.dnlink = 0) : 0 < s'.handles ∨ ∃ q, (s'.pc q).holding = true := by
  have hother : ∀ q, q ≠ p → (s'.pc q).holding = (s.pc q).holding := fun q hq => by rw [step_other h hq]
  -- a process that goes on holding its reference settles it
  by_cases hp : (s'.pc p).holding = true
  · exact .inr ⟨p, hp⟩
  cases h with
  | iget | idup | iunlock => exact .inl (by simp)
  | iputKeep hpc hkeep =>
    by_cases hv : s.valid = true
    · -- loaded, so `nlink` is the link count on disk
      have hs := hi.sync_of_lock (p := p) (by simp [hpc, Pc.holdsLock]) (by simp [hpc]) hv
      exact absurd ⟨hv, by rw [← hs.2]; exact hz⟩ hkeep
    · obtain ⟨q, hq⟩ := hi.unloaded ht hz (.inl (by simpa using hv))
      have hqp : q ≠ p := by rintro rfl; simp [hpc, Pc.creating] at hq
      exact .inr ⟨q, by rw [hother q hqp]; cases hc : s.pc q <;> simp_all [Pc.creating, Pc.holding]⟩
  | iputShared hpc hr =>
    rcases other_ref hi hpc hr hg with hh | ⟨q, hqp, hq⟩
    · exact .inl hh
    · exact .inr ⟨q, by rw [hother q hqp, hq]⟩
  | iputTrunc => simp at ht
  | iputInval hpc | iputRel hpc | iputDec hpc =>
    rcases hi.unlinked ht hz with hh | ⟨q, hq⟩
    · exact .inl hh
    · have hqp : q ≠ p := by rintro rfl; simp [hpc, Pc.holding] at hq
      exact .inr ⟨q, by rw [hother q hqp, hq]⟩
  | _ => simp_all [St.go, Pc.holding]

theorem step_unloaded (ht : s'.dtype = true) (hz : s'.dnlink = 0)
    (hv : s'.valid = false ∨ ∃ q, s'.pc q = .iputInval) : ∃ q, (s'.pc q).creating = true := by
  have hother : ∀ q, q ≠ p → s'.pc q = s.pc q := fun q hq => step_other h hq
  by_cases hp : (s'.pc p).creating = true
  · exact ⟨p, hp⟩
  -- a creator of the state before the step that is not `p` is still one
  have hkeep : (s.pc p).creating = false → (∃ q, (s.pc q).creating = true) → ∃ q, (s'.pc q).creating = true := by
    rintro hpc ⟨q, hq⟩
    have hqp : q ≠ p := by rintro rfl; simp [hpc] at hq
    exact ⟨q, by rw [hother q hqp, hq]⟩
  -- under the lock nobody else invalidates
  have hlock : (s.pc p).holdsLock = true → s'.pc p ≠ .iputInval → s'.valid = true → False := by
    intro hl hp' hv'
    rcases hv with hv | ⟨q, hq⟩
    · simp [hv'] at hv
    · have hqp : q ≠ p := by rintro rfl; exact hp' hq
      rw [hother q hqp] at hq
      exact hqp (hi.lock_uniq hl (by simp [hq, Pc.holdsLock]))
  have hbefore : s'.valid = s.valid → s'.pc p ≠ .iputInval → s.valid = false ∨ ∃ q, s.pc q = .iputInval := by
    intro e hp'
    rcases hv with hv | ⟨q, hq⟩
    · exact .inl (e ▸ hv)
    · have hqp : q ≠ p := by rintro rfl; exact hp' hq
      exact .inr ⟨q, by rw [← hother q hqp, hq]⟩
  cases h with
  | iget hpc =>
    by_cases hr : s.ref = 0
    · -- no reference at all, so the inode is free or linked
      rcases hi.unlinked ht hz with hh | ⟨q, hq⟩
      · have := hi.count
        omega
      · exact absurd hr (hi.ref_pos (q := q) (by intro e; simp [e, Pc.holding] at hq))
    · exact hi.unloaded ht hz (hbefore (by simp [hr]) (by simp [hpc]))
  | ilockLoad hpc | createLoad hpc | createHit hpc =>
    exact (hlock (by simp [hpc, Pc.holdsLock]) (by simp [St.go]) (by simp_all [St.go])).elim
  | link hpc | linkUndo hpc | unlink hpc =>
    exact (hlock (by simp [hpc, Pc.holdsLock]) (by simp [hpc]) (hi.loaded p (by simp [hpc, Pc.loaded]))).elim
  | createLink => simp at hz
  | ialloc | createAcq => simp [St.go, Pc.creating] at hp
  | iputTrunc => simp at ht
  | iputInval hpc => exact hkeep (by simp [hpc, Pc.creating]) (hi.unloaded ht hz (.inr ⟨p, hpc⟩))
  | idup hpc | write _ hpc => exact hi.unloaded ht hz (hbefore rfl (by simp [hpc]))
  | _ => exact hkeep (by simp [*, Pc.creating]) (hi.unloaded ht hz (hbefore rfl (by simp [St.go])))

theorem step_empty (ht : s'.dtype = false) : s'.dsize = 0 := by
  have he := hi.empty
  cases h with
  | write n hpc =>
    have hs := hi.sync_of_lock (p := p) (by simp [hpc, Pc.holdsLock]) (by simp [hpc])
      (hi.loaded p (by simp [hpc, Pc.loaded]))
    simp [hs.1] at ht
  | _ => simp_all [St.go]

theorem step_once : s'.allocs = s'.frees + if s'.dtype then 1 else 0 := by
  have ho := hi.once
  cases h with
  | iputTrunc hpc =>
    have hs := hi.sync_of_lock (p := p) (by simp [hpc, Pc.holdsLock]) (by simp [hpc])
      (hi.loaded p (by simp [hpc, Pc.loaded]))
    simp [St.go, ho, hs.1]
  | ialloc hpc ht => simp [St.go, ho, ht]
  | _ => exact ho

end

theorem step_inv (h : Step s p s') (hg : NoStaleRef s p) (hi : Inv s) : Inv s' where
  count := (step_busy h hi).1
  busy := (step_busy h hi).2
  lock := step_lock h hi
  loaded := step_loaded h hi
  zero := step_zero h hi
  sync := step_sync h hi
  unlinked := step_unlinked h hi hg
  unloaded := step_unloaded h hi
  empty := step_empty h hi
  once := step_once h hi

omit [DecidableEq ι] in
theorem start_inv (links : BitVec 16) (size : ℕ) : Inv (St.start links size : St ι) := by
  refine ⟨?_, ?_, ?_, ?_, ?_, ?_, ?_, ?_, ?_, ?_⟩ <;>
    simp [St.start, Pc.holdsLock, Pc.loaded, Pc.holding, Pc.creating]
  exact fun h h' => absurd h h'

theorem reach_inv (h : Reach NoStaleRef s) : Inv s := by
  induction h with
  | start links size => exact start_inv links size
  | step _ hg hs ih => exact step_inv hs hg ih

/-- **The last reference frees an unlinked inode.** In every run in which no `iput` reads `ref` while another process is
between its own test and its decrement: with no link on disk and no reference, the inode is free, its content is gone,
and it was freed exactly as often as it was allocated. -/
theorem last_reference_frees (h : Reach NoStaleRef s) (hn : s.dnlink = 0) (hr : s.ref = 0) :
    s.dtype = false ∧ s.dsize = 0 ∧ s.frees = s.allocs := by
  have hi := reach_inv h
  have ht : s.dtype = false := by
    by_contra ht
    rcases hi.unlinked (by simpa using ht) hn with hh | ⟨q, hq⟩
    · have := hi.count
      omega
    · exact hi.ref_pos (q := q) (by intro e; simp [e, Pc.holding] at hq) hr
  refine ⟨ht, hi.empty ht, ?_⟩
  have := hi.once
  simp only [ht, Bool.false_eq_true, if_false, add_zero] at this
  exact this.symm

/-- one process unlinks the inode and drops the only reference -/
theorem last_reference_frees_example : ∃ s : St Unit, Reach NoStaleRef s ∧ s.dnlink = 0 ∧ s.ref = 0 ∧ s.allocs = 1 ∧
      s.dtype = false ∧ s.dsize = 0 ∧ s.frees = s.allocs := by
  have h0 : Reach NoStaleRef (St.start 1 7 : St Unit) := .start 1 7
  have h1 := Reach.step h0 (by simp [NoStaleRef, St.start]) (.iget (p := ()) rfl)
  have h2 := Reach.step h1 (by simp [NoStaleRef, St.start]) (.ilock (p := ()) rfl (by decide))
  have h3 := Reach.step h2 (by simp [NoStaleRef, St.go]) (.ilockAcq (p := ()) rfl rfl)
  have h4 := Reach.step h3 (by simp [NoStaleRef, St.go]) (.ilockLoad (p := ()) rfl rfl rfl)
  have h5 := Reach.step h4 (by simp [NoStaleRef, St.go]) (.unlink (p := ()) rfl (by decide))
  have h6 := Reach.step h5 (by simp [NoStaleRef, St.go]) (.iunlock (p := ()) rfl)
  have h7 := Reach.step h6 (by simp [NoStaleRef, St.go]) (.iput (p := ()) rfl (by decide))
  have h8 := Reach.step h7 (by simp [NoStaleRef, St.go]) (.iputAcq (p := ()) rfl rfl)
  have h9 := Reach.step h8 (by simp [NoStaleRef, St.go]) (.iputTest (p := ()) rfl (by decide))
  have h10 := Reach.step h9 (fun _ _ => rfl) (.iputLast (p := ()) rfl rfl)
  have h11 := Reach.step h10 (by simp [NoStaleRef, St.go]) (.iputTrunc (p := ()) rfl)
  have h12 := Reach.step h11 (by simp [NoStaleRef, St.go]) (.iputInval (p := ()) rfl)
  have h13 := Reach.step h12 (by simp [NoStaleRef, St.go]) (.iputRel (p := ()) rfl)
  have h14 := Reach.step h13 (by simp [NoStaleRef, St.go]) (.iputDec (p := ()) rfl)
  exact ⟨_, h14, rfl, rfl, rfl, last_reference_frees h14 rfl rfl⟩

/-- two processes drop the last two references to an unlinked inode; both read `ref = 2` before either decrements -/
theorem overlapping_iput_leaks :
    ¬ ∀ s : St (Fin 2), Reach (fun _ _ => True) s → s.dnlink = 0 → s.ref = 0 → (∀ q, s.pc q = .idle) → s.dtype = false := by
  intro hall
  have h0 : Reach (fun _ _ => True) (St.start 1 7 : St (Fin 2)) := .start 1 7
  have h1 := Reach.step h0 trivial (.iget (p := 0) rfl)
  have h2 := Reach.step h1 trivial (.idup (p := 1) rfl (by decide))
  have h3 := Reach.step h2 trivial (.ilock (p := 0) rfl (by decide))
  have h4 := Reach.step h3 trivial (.ilockAcq (p := 0) rfl rfl)
  have h5 := Reach.step h4 trivial (.ilockLoad (p := 0) rfl rfl rfl)
  have h6 := Reach.step h5 trivial (.unlink (p := 0) rfl (by decide))
  have h7 := Reach.step h6 trivial (.iunlock (p := 0) rfl)
  have h8 := Reach.step h7 trivial (.iput (p := 0) rfl (by decide))
  have h9 := Reach.step h8 trivial (.iputAcq (p := 0) rfl rfl)
  have h10 := Reach.step h9 trivial (.iputTest (p := 0) rfl (by decide))
  have h11 := Reach.step h10 trivial (.iputShared (p := 0) rfl (by decide))
  have h12 := Reach.step h11 trivial (.iputRel (p := 0) rfl)
  have h13 := Reach.step h12 trivial (.iput (p := 1) rfl (by decide))
  have h14 := Reach.step h13 trivial (.iputAcq (p := 1) rfl rfl)
  have h15 := Reach.step h14 trivial (.iputTest (p := 1) rfl (by decide))
  have h16 := Reach.step h15 trivial (.iputShared (p := 1) rfl (by decide))
  have h17 := Reach.step h16 trivial (.iputRel (p := 1) rfl)
  have h18 := Reach.step h17 trivial (.iputDec (p := 0) rfl)
  have h19 := Reach.step h18 trivial (.iputDec (p := 1) rfl)
  exact absurd (hall _ h19 rfl rfl (by decide)) (by decide)

end Xv6.Iput
