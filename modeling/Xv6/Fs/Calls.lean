/-
The calls of `Sysfile` keep the link ledger and the reference counts.

`Inv` is the invariant at each step of a call: the ledger of `Links`, and that `ref i` covers the current directories and
open files that hold inode `i` together with the references `own` the call itself holds. A process between its old and
new current directory (`chdir`, `exit`) is `away`. Every function of `Sysfile` has one triple; `F` in a triple is a fact
about the rest of the state that the function leaves alone.
-/
import Xv6.Fs.Links

namespace Xv6.Links

open Lib Lib.LockProg Sysfile Multiset

/-! ## References -/

/-- the current directory of process `p`, unless it is `away` -/
def cwds (s : Kern) (away : Option ℕ) (p : ℕ) : List ℕ :=
  if away = some p then [] else ((s.proc p).map Proc.cwd).toList

/-- the inode behind file `f` of the table -/
def opens (s : Kern) (f : ℕ) : List ℕ := if (s.file f).isInode then [(s.file f).ip] else []

/-- the references to `i` of processes and open files -/
def refCount (s : Kern) (away : Option ℕ) (i : ℕ) : ℕ :=
  tally NPROC (cwds s away) (fun _ c => c = i) + tally NFILE (opens s) fun _ c => c = i

structure Refs (m : Mode) (own : Multiset ℕ) (away : Option ℕ) (s : Kern) : Prop where
  count : ∀ i, refCount s away i + own.count i ≤ s.ref i
  closed : ∀ f, (s.file f).ref = 0 → (s.file f).isInode = false
  files : ∀ f, 0 < (s.file f).ref → f < NFILE
  procs : ∀ q, (s.proc q).isSome → q < NPROC
  held : m = .entries → ∀ i, 0 < s.ref i → Alloc s.inode i
  valid : ∀ i, s.valid i = true → Alloc s.inode i

/-- the invariant at a step of a call -/
structure Inv (m : Mode) (pend : Multiset ℕ) (fr : Option ℕ) (own : Multiset ℕ) (away : Option ℕ) (s : Kern) : Prop where
  ledger : ∃ det leak, Ledger m s.inode det leak pend fr
  refs : Refs m own away s

/-! ## Conditions on the steps -/

/-- no entry is made in a directory without links, and no `nlink` passes the 16-bit limit -/
def LinkedDirs : Ev → Kern → Prop
  | .inc i, s => (s.inode i).nlink ≠ 0x7fff ∧ ((s.inode i).type = .dir → (s.inode i).nlink ≠ 0)
  | .entry dp _, s => (s.inode dp).nlink ≠ 0
  | _, _ => True

/-- no inode is freed that is still the ".." of another directory, and no `nlink` passes the 16-bit limit -/
def ParentsKept : Ev → Kern → Prop
  | .inc i, s => (s.inode i).nlink ≠ 0x7fff
  | .put i, s => s.frees i = true →
      ∀ d < NINODES, d ≠ i → (s.inode d).type = .dir → (s.inode d).ents[1]? ≠ some ⟨i, dotdot⟩
  | _, _ => True

def guard : Mode → Ev → Kern → Prop
  | .links => LinkedDirs
  | .entries => ParentsKept

/-- what the runs of a call keep -/
def spec (m : Mode) : Spec Kern Panic Ev where
  Guard := guard m
  Always s := m = .entries → NoDangling s.inode
  Safe x := m = .entries → x ≠ .ilockNoType

variable {m : Mode} {pend own : Multiset ℕ} {fr away : Option ℕ} {s : Kern} {i : ℕ}

theorem Inv.always (h : Inv m pend fr own away s) : (spec m).Always s := by
  rintro rfl
  obtain ⟨det, leak, hl⟩ := h.ledger
  exact hl.noDangling

/-- the inode table, the file table and the processes are the same -/
structure Same (s s' : Kern) : Prop where
  inode : s'.inode = s.inode
  file : s'.file = s.file
  proc : s'.proc = s.proc

theorem Same.refCount {s' : Kern} (h : Same s s') : refCount s' away i = refCount s away i := by
  unfold Links.refCount cwds opens
  rw [h.file, h.proc]

/-- more references, and other `valid` bits of allocated inodes -/
theorem Inv.same {own' : Multiset ℕ} {s' : Kern} (h : Inv m pend fr own away s) (hs : Same s s')
    (hc : ∀ i, s.ref i + own'.count i ≤ s'.ref i + own.count i)
    (hh : m = .entries → ∀ i, 0 < s'.ref i → 0 < s.ref i ∨ Alloc s.inode i)
    (hv : ∀ i, s'.valid i = true → s.valid i = true ∨ Alloc s.inode i) : Inv m pend fr own' away s' := by
  obtain ⟨hl, hr⟩ := h
  refine ⟨by rwa [hs.inode], ?_, ?_, ?_, ?_, ?_, ?_⟩
  · intro i
    have h1 := hr.count i
    have h2 := hc i
    rw [hs.refCount]
    omega
  · rw [hs.file]
    exact hr.closed
  · rw [hs.file]
    exact hr.files
  · rw [hs.proc]
    exact hr.procs
  · intro hm i hi
    rw [hs.inode]
    exact (hh hm i hi).elim (hr.held hm i) id
  · intro i hi
    rw [hs.inode]
    exact (hv i hi).elim (hr.valid i) id

theorem Inv.iget (h : Inv m pend fr own away s) (ha : m = .entries → Alloc s.inode i) :
    Inv m pend fr (i ::ₘ own) away (s.iget i) := by
  refine h.same ⟨rfl, rfl, rfl⟩ ?_ ?_ ?_
  · intro j
    rw [count_cons]
    by_cases hj : j = i
    · subst hj
      simp [Kern.iget]
      omega
    · simp [Kern.iget, hj]
  · intro hm j hj
    by_cases hji : j = i
    · exact .inr (hji ▸ ha hm)
    · exact .inl (by simpa [Kern.iget, hji] using hj)
  · intro j hj
    by_cases hr : s.ref i = 0
    · by_cases hji : j = i
      · subst hji
        simp [Kern.iget, hr] at hj
      · exact .inl (by simpa [Kern.iget, hr, hji] using hj)
    · exact .inl (by simpa [Kern.iget, hr] using hj)

/-- `ref--` -/
def dropRef (s : Kern) (i : ℕ) : Kern := { s with ref := update s.ref i (s.ref i - 1) }

/-- the section of `iput` -/
def putSection (s : Kern) (i : ℕ) : Kern := if s.frees i then s.free i else s

/-- what freeing inodes can do: others are as they were -/
def Shrinks (T T' : Table) : Prop := ∀ j, T' j = T j ∨ ¬ Alloc T' j

theorem shrinks_putSection : Shrinks s.inode (putSection s i).inode := by
  intro j
  unfold putSection
  split_ifs
  · by_cases hj : j = i
    · subst hj
      exact .inr (by simp [Alloc, Kern.free, Kern.setInode])
    · exact .inl (by simp [Kern.free, Kern.setInode, hj])
  · exact .inl rfl

theorem Inv.iput (h : Inv m pend none (i ::ₘ own) away s) (hg : guard m (.put i) s) :
    Inv m pend none own away (dropRef (putSection s i) i) := by
  have hcount : ∀ j, refCount s away j + own.count j ≤ update s.ref i (s.ref i - 1) j := by
    intro j
    have := h.refs.count j
    rw [count_cons] at this
    by_cases hj : j = i
    · subst hj
      rw [update_self]
      simp at this
      omega
    · rw [update_of_ne hj]
      simpa [hj] using this
  unfold putSection
  split_ifs with hf
  · have hfree := hf
    simp only [Kern.frees, Bool.and_eq_true, beq_iff_eq] at hf
    obtain ⟨⟨hv, hn⟩, hr⟩ := hf
    have hheld : ∀ j, 0 < update s.ref i (s.ref i - 1) j → j ≠ i ∧ 0 < s.ref j := by
      intro j hj
      have hji : j ≠ i := by
        rintro rfl
        simp [hr] at hj
      exact ⟨hji, by simpa [hji] using hj⟩
    obtain ⟨det, leak, hl⟩ := h.ledger
    have hchild : m = .entries → ∀ d, IsDir s.inode d → d ≠ i → parent s.inode d ≠ i := by
      rintro rfl d hd hdi hp
      obtain ⟨par, rest, he, -⟩ := hl.dots d hd (by simp)
      rw [parent_of_dots he] at hp
      subst hp
      apply hg hfree d (hl.small d hd.alloc).2 hdi hd
      change (ents s.inode d)[1]? = _
      rw [he]
      rfl
    obtain ⟨leak', hl'⟩ := hl.release (h.refs.valid i hv) hn hchild
    refine ⟨⟨det, leak', hl'⟩, hcount, h.refs.closed, h.refs.files, h.refs.procs, ?_, ?_⟩
    · intro hm j hj
      obtain ⟨hji, hj⟩ := hheld j hj
      exact alloc_release.mpr ⟨hji, h.refs.held hm j hj⟩
    · intro j hj
      have hji : j ≠ i := by
        rintro rfl
        simp [dropRef, Kern.free] at hj
      refine alloc_release.mpr ⟨hji, h.refs.valid j ?_⟩
      simpa [dropRef, Kern.free, Kern.setInode, hji] using hj
  · refine ⟨h.ledger, hcount, h.refs.closed, h.refs.files, h.refs.procs, ?_, h.refs.valid⟩
    intro hm j hj
    apply h.refs.held hm j
    by_cases hji : j = i
    · subst hji
      simp [dropRef] at hj
      omega
    · simpa [dropRef, hji] using hj

/-! ## Triples of the basic actions -/

section

variable {P : Kern → Prop} {e : Ev}

theorem triple_modify {Q : Unit → Kern → Prop} {f : Kern → Kern} (h : ∀ s, P s → guard m e s → Q () (f s))
    (hA : ∀ s, Q () s → (spec m).Always s) : Triple (spec m) P (modify e f) Q := by
  apply Triple.act
  · rintro s ⟨⟩ s' hs - hg heq
    cases heq
    exact ⟨hA _ (h s hs hg), h s hs hg⟩
  · rintro s x - - ⟨⟩

theorem triple_look {α : Type} {f : Kern → α} : Triple (spec m) P (look f) fun a s => P s ∧ a = f s := by
  apply Triple.act
  · rintro s x s' hs hA - heq
    cases heq
    exact ⟨hA, hs, rfl⟩
  · rintro s x - - ⟨⟩

theorem triple_check {x : Panic} {f : Kern → Bool} (hx : x ≠ .ilockNoType) :
    Triple (spec m) P (check x f) fun _ s => P s ∧ f s = true := by
  apply Triple.act
  · intro s y s' hs hA _ heq
    split_ifs at heq with hf
    cases heq
    exact ⟨hA, hs, hf⟩
  · intro s y _ _ heq
    split_ifs at heq with hf
    cases heq
    exact fun _ => hx

theorem triple_panic {α : Type} {x : Panic} {Q : α → Kern → Prop} (hx : x ≠ .ilockNoType) : Triple (spec m) P (panic x) Q := by
  apply Triple.act
  · rintro s y s' - - - ⟨⟩
  · rintro s y - - heq
    cases heq
    exact fun _ => hx

theorem triple_fail {Q : ℤ → Kern → Prop} (h : ∀ s, P s → Q (-1) s) : Triple (spec m) P fail Q := .pure h

end

/-! ## Triples of `fs.c` -/

/-- a fact that only reads the inode table, the file table and the processes -/
def Steady (F : Kern → Prop) : Prop := ∀ s s', F s → Same s s' → F s'

/-- a fact that also survives freeing inodes -/
def Robust (F : Kern → Prop) : Prop :=
  ∀ s s', F s → Shrinks s.inode s'.inode → s'.file = s.file → s'.proc = s.proc → F s'

theorem Robust.steady {F : Kern → Prop} (h : Robust F) : Steady F :=
  fun s s' hs hsame => h s s' hs (fun j => .inl (by rw [hsame.inode])) hsame.file hsame.proc

/-- the invariant and a fact -/
abbrev Good (m : Mode) (pend : Multiset ℕ) (fr : Option ℕ) (own : Multiset ℕ) (away : Option ℕ) (F : Kern → Prop) :
    Kern → Prop := fun s => Inv m pend fr own away s ∧ F s

section

variable {F : Kern → Prop} {e : Ev} {p : ℕ}

theorem triple_iget (hF : Steady F) (ha : m = .entries → ∀ s, F s → Alloc s.inode i) :
    Triple (spec m) (Good m pend fr own away F) (iget i) fun _ => Good m pend fr (i ::ₘ own) away F := by
  apply triple_modify
  · rintro s ⟨h, hf⟩ -
    exact ⟨h.iget fun hm => ha hm s hf, hF s _ hf ⟨rfl, rfl, rfl⟩⟩
  · exact fun s h => h.1.always

/-- a locked inode is loaded; one with a reference is allocated, so `ilock: no type` is not reached -/
theorem triple_ilock (hF : Steady F) : Triple (spec m) (Good m pend fr own away F) (ilock i) fun _ =>
      Good m pend fr own away fun s => F s ∧ s.valid i = true := by
  refine .bind (triple_check (by decide)) fun _ => ?_
  refine Triple.bind Triple.acquire fun _ => ?_
  apply Triple.act
  · rintro s x s' ⟨⟨h, hf⟩, -⟩ hA - heq
    split_ifs at heq with hv ht
    · cases heq
      exact ⟨hA, h, hf, hv⟩
    · cases heq
      refine ⟨hA, h.same ⟨rfl, rfl, rfl⟩ (fun _ => le_refl _) (fun _ _ => .inl) ?_, hF s _ hf ⟨rfl, rfl, rfl⟩, by simp⟩
      intro j hj
      by_cases hji : j = i
      · exact .inr (hji ▸ ht)
      · exact .inl (by simpa [hji] using hj)
  · rintro s x ⟨⟨h, -⟩, hr⟩ - heq hm
    split_ifs at heq with hv ht
    exact absurd ht (h.refs.held hm i (of_decide_eq_true hr))

theorem triple_iunlock {P : Kern → Prop} : Triple (spec m) P (iunlock i) fun _ => P := by
  refine Triple.bind (triple_check (by decide)) fun _ => ?_
  exact Triple.release.conseq (fun _ h => h.1) fun _ _ => id

theorem triple_iput (hF : Robust F) :
    Triple (spec m) (Good m pend none (i ::ₘ own) away F) (iput e i) fun _ => Good m pend none own away F := by
  let P : Kern → Prop := fun s => Good m pend none own away F (dropRef s i)
  refine .bind .acquire fun _ => .bind (Q := fun _ => P) ?_ fun _ => .bind .release fun _ => ?_
  · apply triple_modify
    · rintro s ⟨h, hf⟩ hg
      refine ⟨h.iput hg, hF s _ hf shrinks_putSection ?_ ?_⟩ <;> (split_ifs <;> rfl)
    · exact fun s h => h.1.always
  · apply triple_modify
    · exact fun s h _ => h
    · exact fun s h => h.1.always

theorem triple_iunlockput (hF : Robust F) :
    Triple (spec m) (Good m pend none (i ::ₘ own) away F) (iunlockput e i) fun _ => Good m pend none own away F :=
  .bind triple_iunlock fun _ => triple_iput hF

theorem Inv.cwd_lt (h : Inv m pend fr own away s) {pr : Proc} (hp : s.proc p = some pr) (hne : away ≠ some p) :
    0 < s.ref pr.cwd := by
  have hlt := h.refs.procs p (by simp [hp])
  have hpos : 0 < tally NPROC (cwds s away) (fun _ c => c = pr.cwd) :=
    tally_pos.mpr ⟨p, hlt, pr.cwd, by simp [cwds, hne, hp], by simp⟩
  have := h.refs.count pr.cwd
  unfold refCount at this
  omega

theorem triple_start {path : List Byte} (hF : Steady F) (hcur : ∀ s, F s → (s.proc p).isSome) :
    Triple (spec m) (Good m pend fr own none F) (start p path) fun i => Good m pend fr (i ::ₘ own) none F := by
  unfold start
  split_ifs
  · refine .bind (Q := fun _ => Good m pend fr (ROOTINO ::ₘ own) none F) ?_ fun _ => .pure fun _ h => h
    apply triple_modify
    · rintro s ⟨h, hf⟩ -
      obtain ⟨det, leak, hl⟩ := h.ledger
      exact ⟨h.iget fun _ => hl.root.1.alloc, hF s _ hf ⟨rfl, rfl, rfl⟩⟩
    · exact fun s h => h.1.always
  · apply Triple.act
    · rintro s x s' ⟨h, hf⟩ hA - heq
      cases heq
      refine ⟨hA, ?_, hF s _ hf ⟨rfl, rfl, rfl⟩⟩
      obtain ⟨pr, hpr⟩ := Option.isSome_iff_exists.mp (hcur s hf)
      have hpos := h.cwd_lt hpr (by simp)
      simp only [hpr, Option.map_some, Option.getD_some]
      refine h.same ⟨rfl, rfl, rfl⟩ ?_ ?_ fun _ => .inl
      · intro j
        rw [count_cons]
        by_cases hj : j = pr.cwd
        · subst hj
          simp
          omega
        · simp [hj]
      · intro _ j hj
        by_cases hjc : j = pr.cwd
        · exact .inl (hjc ▸ hpos)
        · exact .inl (by simpa [hjc] using hj)
    · rintro s x - - ⟨⟩

theorem lookup_some {name : Name} {l : List Dirent} {k off : ℕ} (h : lookup name k l = some (i, off)) :
    k ≤ off ∧ l[off - k]? = some ⟨i, name⟩ ∧ i ≠ 0 := by
  induction l generalizing k with
  | nil => simp [lookup] at h
  | cons de l ih =>
    have hnext : lookup name (k + 1) l = some (i, off) → k ≤ off ∧ (de :: l)[off - k]? = some ⟨i, name⟩ ∧ i ≠ 0 := by
      intro h
      obtain ⟨h1, h2, h3⟩ := ih h
      have : off - k = off - (k + 1) + 1 := by omega
      rw [this, List.getElem?_cons_succ]
      exact ⟨by omega, h2, h3⟩
    simp only [lookup] at h
    split_ifs at h with hu hn
    · exact hnext h
    · obtain ⟨rfl, rfl⟩ : de.inum = i ∧ k = off := by simpa using h
      subst hn
      simpa using hu
    · exact hnext h

theorem lookup_none {name : Name} {l : List Dirent} {k : ℕ} (h : lookup name k l = none) {de : Dirent} (hm : de ∈ l)
    (hu : de.inum ≠ 0) : de.name ≠ name := by
  induction l generalizing k with
  | nil => simp at hm
  | cons x l ih =>
    simp only [lookup] at h
    split_ifs at h with h1 h2
    · obtain rfl | hm := List.mem_cons.mp hm
      · exact absurd h1 hu
      · exact ih h hm
    · obtain rfl | hm := List.mem_cons.mp hm
      · exact Ne.symm h2
      · exact ih h hm

theorem Dots.ne_of_lookup {d : ℕ} {l : List Dirent} {name : Name} (h : Dots d l) (hd : d ≠ 0)
    (hl : lookup name 0 l = none) : name ≠ dot ∧ name ≠ dotdot := by
  obtain ⟨par, rest, rfl, hpar, -⟩ := h
  exact ⟨Ne.symm (lookup_none hl (List.mem_cons_self ..) hd),
    Ne.symm (lookup_none hl (List.mem_cons_of_mem _ (List.mem_cons_self ..)) hpar)⟩

/-- what `dirlookup` finds -/
def Found (m : Mode) (pend : Multiset ℕ) (fr : Option ℕ) (own : Multiset ℕ) (away : Option ℕ) (F : Kern → Prop) (dp : ℕ)
    (name : Name) : Option (ℕ × ℕ) → Kern → Prop
  | none => Good m pend fr own away fun s => F s ∧ IsDir s.inode dp ∧ lookup name 0 (ents s.inode dp) = none
  | some (i, off) => Good m pend fr (i ::ₘ own) away fun s =>
      F s ∧ IsDir s.inode dp ∧ (ents s.inode dp)[off]? = some ⟨i, name⟩ ∧ i ≠ 0

theorem triple_dirlookup {dp : ℕ} {name : Name} (hF : Steady F) :
    Triple (spec m) (Good m pend fr own away F) (dirlookup dp name) (Found m pend fr own away F dp name) := by
  apply Triple.act
  · rintro s x s' ⟨h, hf⟩ hA - heq
    split_ifs at heq with hd
    have hdir : IsDir s.inode dp := not_not.mp hd
    split at heq
    · next hl =>
      cases heq
      exact ⟨hA, h, hf, hdir, hl⟩
    · next j off hl =>
      cases heq
      obtain ⟨-, hget, hj⟩ := lookup_some hl
      refine ⟨hA, h.iget ?_, hF s _ hf ⟨rfl, rfl, rfl⟩, hdir, hget, hj⟩
      rintro rfl
      exact h.always rfl dp hdir _ (List.mem_of_getElem? hget) hj
  · intro s x _ _ heq _
    split_ifs at heq with hd
    · cases heq
      decide
    · split at heq <;> cases heq

/-- what a path search ends in -/
def Walked (m : Mode) (pend own : Multiset ℕ) (F : Kern → Prop) : Option (ℕ × Name) → Kern → Prop
  | none => Good m pend none own none F
  | some (i, _) => Good m pend none (i ::ₘ own) none F

theorem triple_namexLoop {np : Bool} {names : List Name} (hF : Robust F) :
    Triple (spec m) (Good m pend none (i ::ₘ own) none F) (namexLoop np i names) (Walked m pend own F) := by
  induction names generalizing i with
  | nil =>
    unfold namexLoop
    split_ifs
    · exact .bind (triple_iput hF) fun _ => .pure fun _ h => h
    · exact .pure fun _ h => h
  | cons name rest ih =>
    unfold namexLoop
    refine .bind (triple_ilock hF.steady) fun _ => .bind triple_look fun n => ?_
    have hgive : Triple (spec m) (Good m pend none (i ::ₘ own) none F)
        (do iunlockput .silent i; return none : KProg (Option (ℕ × Name))) (Walked m pend own F) :=
      .bind (triple_iunlockput hF) fun _ => .pure fun _ h => h
    refine .conseq (P := Good m pend none (i ::ₘ own) none F) ?_ (fun s h => ⟨h.1.1, h.1.2.1⟩) fun _ _ => id
    refine .ite (fun _ => hgive) fun _ => .ite (fun _ => ?_) fun _ => ?_
    · exact .bind triple_iunlock fun _ => .pure fun _ h => h
    · refine .bind (triple_dirlookup hF.steady) fun r => ?_
      match r with
      | none => exact hgive.conseq (fun s h => ⟨h.1, h.2.1⟩) fun _ _ => id
      | some (next, off) =>
        refine .bind (Q := fun _ => Good m pend none (next ::ₘ own) none F) ?_ fun _ => ih
        refine (triple_iunlockput hF).conseq (fun s h => ⟨?_, h.2.1⟩) fun _ _ => id
        have := h.1
        rwa [cons_swap] at this

theorem triple_namex {path : List Byte} {np : Bool} (hF : Robust F) (hcur : ∀ s, F s → (s.proc p).isSome) :
    Triple (spec m) (Good m pend none own none F) (namex p path np) (Walked m pend own F) :=
  .bind (triple_start hF.steady hcur) fun _ => triple_namexLoop hF

/-- `namei` -/
def Reached (m : Mode) (pend own : Multiset ℕ) (F : Kern → Prop) : Option ℕ → Kern → Prop
  | none => Good m pend none own none F
  | some i => Good m pend none (i ::ₘ own) none F

theorem triple_namei {path : List Byte} (hF : Robust F) (hcur : ∀ s, F s → (s.proc p).isSome) :
    Triple (spec m) (Good m pend none own none F) (namei p path) (Reached m pend own F) := by
  refine .bind (triple_namex hF hcur) fun r => .pure fun s h => ?_
  match r with
  | none => exact h
  | some (i, name) => exact h

/-! ## Writing inodes -/

/-- an inode keeps its type and gets new fields that keep the ledger -/
theorem Inv.setInode {pend' : Multiset ℕ} {fr' : Option ℕ} {n : Inode} (h : Inv m pend fr own away s)
    (ht : n.type = (s.inode i).type) (hl : ∃ det leak, Ledger m (update s.inode i n) det leak pend' fr') :
    Inv m pend' fr' own away (s.setInode i n) := by
  refine ⟨hl, h.refs.count, h.refs.closed, h.refs.files, h.refs.procs, ?_, ?_⟩
  · intro hm j hj
    exact (alloc_update_iff ht).mpr (h.refs.held hm j hj)
  · intro j hj
    exact (alloc_update_iff ht).mpr (h.refs.valid j hj)

theorem guard_inc (h : guard m (.inc i) s) : (s.inode i).nlink ≠ 0x7fff := by
  cases m with
  | links => exact h.1
  | entries => exact h

theorem triple_inc {F' : Kern → Prop}
    (h : ∀ s, Good m pend fr own away F s → guard m (.inc i) s →
      Alloc s.inode i ∧ F' (s.setInode i { s.inode i with nlink := (s.inode i).nlink + 1 })) :
    Triple (spec m) (Good m pend fr own away F) (setNlink (.inc i) i (· + 1))
      fun _ => Good m (i ::ₘ pend) fr own away F' := by
  apply triple_modify
  · rintro s ⟨hI, hf⟩ hg
    obtain ⟨ha, hf'⟩ := h s ⟨hI, hf⟩ hg
    obtain ⟨det, leak, hl⟩ := hI.ledger
    exact ⟨hI.setInode rfl ⟨det, leak, hl.inc ha (guard_inc hg)⟩, hf'⟩
  · exact fun s h => h.1.always

theorem triple_dec {F' : Kern → Prop} (ha : ∀ s, Good m (i ::ₘ pend) fr own away F s → Alloc s.inode i)
    (hF : ∀ s n, F s → n.type = (s.inode i).type → F' (s.setInode i n)) :
    Triple (spec m) (Good m (i ::ₘ pend) fr own away F) (setNlink .silent i (· - 1)) fun _ => Good m pend fr own away F' := by
  apply triple_modify
  · rintro s ⟨h, hf⟩ -
    obtain ⟨det, leak, hl⟩ := h.ledger
    exact ⟨h.setInode rfl ⟨det, leak, hl.dec (ha s ⟨h, hf⟩)⟩, hF s _ hf rfl⟩
  · exact fun s h => h.1.always

/-- a directory with links that nothing owes has not been unlinked -/
theorem Ledger.live {T : Table} {det : ℕ → Bool} {leak : ℕ → ℕ} {dp : ℕ} (h : Ledger m T det leak pend fr) (hd : IsDir T dp)
    (hn : pend.count dp < (T dp).nlink.toInt) (hm : m = .links) : det dp = false := by
  by_contra hdet
  have hl := (h.dead hm dp hd (by simpa using hdet)).2
  have h1 := h.small dp hd.alloc
  have h2 := h.nlink dp hd.alloc
  rw [h.exact hm dp (by omega), hl] at h2
  omega

/-- `writeEntry` names an inode that is owed the link: not a directory, or the new directory `fr` with its dots -/
theorem triple_writeEntry {dp ip : ℕ} {name : Name} (hfr : fr ≠ some dp) (hne : dp ≠ ip) :
    Triple (spec m) (Good m {ip} fr own none fun s => (IsDir s.inode dp ∧ lookup name 0 (ents s.inode dp) = none) ∧
          (fr = none ∧ ¬ IsDir s.inode ip ∨ fr = some ip ∧ Dots ip (ents s.inode ip) ∧ parent s.inode ip = dp))
      (writeEntry dp name ip) fun ok s => ok = true ∧ Inv m 0 none own none s := by
  apply Triple.act
  · rintro s x s' ⟨h, ⟨hd, hlook⟩, hnew⟩ - hg heq
    simp only at heq
    split_ifs at heq
    cases heq
    obtain ⟨det, leak, hl⟩ := h.ledger
    have hname := (hl.dots dp hd hfr).ne_of_lookup (by have := hl.small dp hd.alloc; omega) hlook
    have hlive : m = .links → det dp = false := by
      intro hm
      apply hl.live hd _ hm
      subst hm
      have hpos : (s.inode dp).nlink.toInt ≠ 0 := fun e => hg (BitVec.eq_of_toInt_eq e)
      have := hl.nlink dp hd.alloc
      rw [count_singleton, if_neg hne] at this ⊢
      omega
    have hl' : Ledger m _ det leak (ip ::ₘ 0) fr := hl
    have hI := h.setInode (n := { s.inode dp with ents := addEntry (s.inode dp).ents ⟨ip, name⟩ }) rfl
      ⟨det, leak, hl'.addName hd hfr hname hnew hlive⟩
    exact ⟨hI.always, rfl, hI⟩
  · intro s x _ _ heq _
    simp only at heq
    split_ifs at heq
    cases heq
    decide

end

/-! ## `sys_link` -/

/-- process `p` exists -/
def Cur (p : ℕ) (s : Kern) : Prop := (s.proc p).isSome

theorem robust_cur {p : ℕ} : Robust (Cur p) := by
  intro s s' h _ _ hp
  unfold Cur
  rwa [hp]

theorem robust_true : Robust fun _ => True := fun _ _ _ _ _ _ => trivial

/-- an inode does not become a directory by others being freed -/
theorem robust_not_dir {F : Kern → Prop} (hF : Robust F) : Robust fun s => F s ∧ ¬ IsDir s.inode i := by
  rintro s s' ⟨hf, hd⟩ hs hfile hproc
  refine ⟨hF s s' hf hs hfile hproc, fun hd' => ?_⟩
  obtain h | h := hs i
  · exact hd (by unfold IsDir at hd' ⊢; rwa [← h])
  · exact h hd'.alloc

/-- between calls -/
abbrev Idle (m : Mode) : Kern → Prop := Inv m 0 none 0 none

theorem triple_linkBad {F : Kern → Prop} (hF : Robust F) :
    Triple (spec m) (Good m {i} none {i} none F) (linkBad i) fun _ => Idle m := by
  refine .bind (triple_ilock hF.steady) fun _ => .bind (Q := fun _ => Good m 0 none {i} none fun _ => True)
    (triple_dec (fun s h => h.1.refs.valid i h.2.2) fun _ _ _ _ => trivial) fun _ => ?_
  exact .bind (triple_iunlockput robust_true) fun _ => triple_fail fun _ h => h.1

theorem triple_dirlink {dp ip : ℕ} {name : Name} :
    Triple (spec m) (Good m {ip} none own none fun s => ¬ IsDir s.inode ip) (dirlink dp name ip)
      fun ok => Inv m (if ok then 0 else {ip}) none own none := by
  have hnd : Robust fun s => ¬ IsDir s.inode ip := fun s s' h hs hf hp => (robust_not_dir robust_true s s' ⟨trivial, h⟩
    hs hf hp).2
  refine .bind (triple_dirlookup hnd.steady) fun r => ?_
  match r with
  | some (j, off) =>
    refine .bind (Q := fun _ => Good m {ip} none own none fun _ => True) ?_ fun _ => .pure fun _ h => h.1
    exact (triple_iput robust_true).conseq (fun s h => ⟨h.1, trivial⟩) fun _ _ => id
  | none =>
    refine .extract (φ := dp ≠ ip) (fun s h e => h.2.1 (e ▸ h.2.2.1)) fun hne => ?_
    refine (triple_writeEntry (show none ≠ some dp by simp) hne).conseq (fun s h => ⟨h.1, h.2.2, .inl ⟨rfl, h.2.1⟩⟩) ?_
    rintro ok s ⟨rfl, h⟩
    exact h

theorem triple_sysLink {p : ℕ} {old new : List Byte} :
    Triple (spec m) (Good m 0 none 0 none (Cur p)) (sysLink p old new) fun _ => Idle m := by
  refine .bind (triple_namei robust_cur fun _ h => h) fun r => ?_
  match r with
  | none => exact triple_fail fun _ h => h.1
  | some ip =>
    refine .bind (triple_ilock robust_cur.steady) fun _ => .bind triple_look fun n => ?_
    refine .ite (fun _ => ?_) fun hn => ?_
    · refine .bind ((triple_iunlockput robust_cur).conseq (fun s h => ⟨h.1.1, h.1.2.1⟩) fun _ _ => id) fun _ => ?_
      exact triple_fail fun _ h => h.1
    have hF : Robust fun s => Cur p s ∧ ¬ IsDir s.inode ip := robust_not_dir robust_cur
    refine .bind (Q := fun _ => Good m {ip} none {ip} none fun s => Cur p s ∧ ¬ IsDir s.inode ip) ?_ fun _ => ?_
    · refine .conseq (P := Good m 0 none {ip} none fun s => (Cur p s ∧ ¬ IsDir s.inode ip) ∧ s.valid ip = true)
        (triple_inc ?_) ?_ fun _ _ => id
      · rintro s ⟨h, ⟨hc, hd⟩, hv⟩ -
        exact ⟨h.refs.valid ip hv, hc, fun h' => hd ((isDir_update_iff (n := { s.inode ip with
          nlink := (s.inode ip).nlink + 1 }) rfl).mp h')⟩
      · rintro s ⟨⟨h, hc, hv⟩, rfl⟩
        exact ⟨h, ⟨hc, hn⟩, hv⟩
    refine .bind triple_iunlock fun _ => .bind (triple_namex hF fun _ h => h.1) fun r => ?_
    match r with
    | none => exact triple_linkBad hF
    | some (dp, name) =>
      refine .bind (triple_ilock hF.steady) fun _ => ?_
      refine .bind (triple_dirlink.conseq (fun s h => ⟨h.1, h.2.1.2⟩) fun _ _ => id) fun ok => ?_
      cases ok with
      | true =>
        refine .bind (Q := fun _ => Good m 0 none {ip} none fun _ => True) ?_ fun _ => ?_
        · exact (triple_iunlockput robust_true).conseq (fun s h => ⟨h, trivial⟩) fun _ _ => id
        · exact .bind (triple_iput robust_true) fun _ => .pure fun _ h => h.1
      | false =>
        refine .bind (Q := fun _ => Good m {ip} none {ip} none fun _ => True) ?_ fun _ => triple_linkBad robust_true
        exact (triple_iunlockput robust_true).conseq (fun s h => ⟨h, trivial⟩) fun _ _ => id

/-! ## `sys_unlink` -/

theorem triple_unlinkBad {dp : ℕ} : Triple (spec m) (Inv m 0 none {dp} none) (unlinkBad dp) fun _ => Idle m := by
  refine .bind (Q := fun _ => Good m 0 none 0 none fun _ => True) ?_ fun _ => triple_fail fun _ h => h.1
  exact (triple_iunlockput robust_true).conseq (fun s h => ⟨h, trivial⟩) fun _ _ => id

/-- the entry of `ip` in `dp` is cleared; a directory's link of its parent is owed too -/
theorem triple_clear {dp ip off : ℕ} {name : Name} {n : Inode} (hname : name ≠ dot ∧ name ≠ dotdot) (hip : ip ≠ 0)
    (hn : ¬ (n.type = .dir ∧ ¬ isdirempty n.ents = true)) : Triple (spec m) (Good m 0 none own none fun s =>
        (IsDir s.inode dp ∧ (ents s.inode dp)[off]? = some ⟨ip, name⟩) ∧ n = s.inode ip)
      (modify .silent fun s => s.setInode dp { s.inode dp with ents := (s.inode dp).ents.set off ⟨0, []⟩ })
      fun _ => Good m (if n.type = .dir then {ip, dp} else {ip}) none own none fun s => IsDir s.inode dp := by
  apply triple_modify
  · rintro s ⟨h, ⟨hd, he⟩, rfl⟩ -
    obtain ⟨det, leak, hl⟩ := h.ledger
    refine ⟨h.setInode rfl ?_, (isDir_setEnts (T := s.inode) (d := dp) (l := (s.inode dp).ents.set off unused)).mpr hd⟩
    split_ifs with ht
    · have hempty : isdirempty (ents s.inode ip) = true := by
        by_contra hc
        exact hn ⟨ht, hc⟩
      exact ⟨_, leak, hl.unlinkDir hd he hname ht hempty⟩
    · exact ⟨det, leak, hl.unlinkFile hd he hname hip ht⟩
  · exact fun s h => h.1.always

theorem triple_dropDotdot {dp ip : ℕ} {t : IType} :
    Triple (spec m) (Good m (if t = .dir then {ip, dp} else {ip}) none own none fun s => IsDir s.inode dp)
      (dropDotdot dp t) fun _ => Good m {ip} none own none fun _ => True := by
  unfold dropDotdot
  split_ifs
  · rw [pair_comm]
    exact triple_dec (fun s h => h.2.alloc) fun _ _ _ _ => trivial
  · exact .pure fun s h => ⟨h.1, trivial⟩

theorem triple_sysUnlink {p : ℕ} {path : List Byte} :
    Triple (spec m) (Good m 0 none 0 none (Cur p)) (sysUnlink p path) fun _ => Idle m := by
  refine .bind (triple_namex robust_cur fun _ h => h) fun r => ?_
  match r with
  | none => exact triple_fail fun _ h => h.1
  | some (dp, name) =>
    refine .bind (triple_ilock robust_cur.steady) fun _ => ?_
    refine .ite (fun _ => triple_unlinkBad.conseq (fun s h => h.1) fun _ _ => id) fun hdots => ?_
    have hname : name ≠ dot ∧ name ≠ dotdot := not_or.mp hdots
    refine .bind ((triple_dirlookup robust_true.steady).conseq (fun s h => ⟨h.1, trivial⟩) fun _ _ => id) fun r => ?_
    match r with
    | none => exact triple_unlinkBad.conseq (fun s h => h.1) fun _ _ => id
    | some (ip, off) =>
      refine .extract (fun s h => h.2.2.2.2) fun hip => ?_
      let F : Kern → Prop := fun s => IsDir s.inode dp ∧ (ents s.inode dp)[off]? = some ⟨ip, name⟩
      have hF : Steady F := by
        rintro s s' h hs
        change IsDir s'.inode dp ∧ _
        rwa [hs.inode]
      refine .bind ((triple_ilock hF).conseq (fun s h => ⟨h.1, h.2.2.1, h.2.2.2.1⟩) fun _ _ => id) fun _ => ?_
      refine .bind (triple_check (by decide)) fun _ => .bind triple_look fun n => ?_
      refine .ite (fun _ => ?_) fun hn => ?_
      · refine .bind (Q := fun _ => Good m 0 none {dp} none fun _ => True) ?_ fun _ => ?_
        · exact (triple_iunlockput robust_true).conseq (fun s h => ⟨h.1.1.1, trivial⟩) fun _ _ => id
        · exact triple_unlinkBad.conseq (fun s h => h.1) fun _ _ => id
      · refine .bind ((triple_clear hname hip hn).conseq (fun s h => ⟨h.1.1.1, h.1.1.2.1, h.2⟩) fun _ _ => id)
          fun _ => .bind triple_dropDotdot fun _ => ?_
        refine .bind (Q := fun _ => Good m {ip} none {ip} none fun _ => True) ?_ fun _ => ?_
        · refine (triple_iunlockput robust_true).conseq (fun s h => ⟨?_, trivial⟩) fun _ _ => id
          have := h.1
          rwa [cons_swap] at this
        refine .bind (Q := fun _ => Good m 0 none {ip} none fun _ => True) (triple_dec ?_ fun _ _ _ _ => trivial)
          fun _ => .bind (triple_iunlockput robust_true) fun _ => .pure fun _ h => h.1
        rintro s ⟨h, -⟩
        obtain ⟨det, leak, hl⟩ := h.ledger
        exact hl.alloc_of_pend hip (by simp)

/-! ## `create` -/

theorem Inv.ialloc {t : IType} (h : Inv m pend none own away s) (hf : (s.inode i).type = .free)
    (hi : 1 ≤ i ∧ i < NINODES) (ht : t ≠ .free) :
    Inv m pend (if t = .dir then some i else none) own away (s.setInode i { type := t }) := by
  obtain ⟨det, leak, hl⟩ := h.ledger
  have hmono : ∀ j, Alloc s.inode j → Alloc (s.setInode i { type := t }).inode j := by
    intro j hj
    by_cases hji : j = i
    · subst hji
      simpa [Alloc, Kern.setInode] using ht
    · simpa [Alloc, Kern.setInode, hji] using hj
  exact ⟨⟨_, leak, hl.alloc (fun ha => ha hf) hi⟩, h.refs.count, h.refs.closed, h.refs.files, h.refs.procs,
    fun hm j hj => hmono j (h.refs.held hm j hj), fun j hj => hmono j (h.refs.valid j hj)⟩

/-- what `create` knows of the parent `dp` while it builds inode `ip` of type `t` with entries `l` -/
def Building (dp : ℕ) (name : Name) (ip : ℕ) (t : IType) (l : List Dirent) (s : Kern) : Prop :=
  (IsDir s.inode dp ∧ lookup name 0 (ents s.inode dp) = none) ∧ (s.inode ip).type = t ∧ ents s.inode ip = l

section

variable {dp ip : ℕ} {name : Name} {t : IType} {l : List Dirent}

theorem steady_building : Steady (Building dp name ip t l) := by
  rintro s s' h hs
  unfold Building
  rwa [hs.inode]

theorem building_setInode {n : Inode} (h : IsDir s.inode dp ∧ lookup name 0 (ents s.inode dp) = none) (hne : dp ≠ ip)
    (ht : n.type = t) : Building dp name ip t n.ents (s.setInode ip n) := by
  simp only [Building, Kern.setInode, IsDir, ents, update_self, update_of_ne hne]
  exact ⟨h, ht, trivial⟩

theorem Building.inc {n : BitVec 16} (h : Building dp name ip t l s) (hne : dp ≠ ip) :
    Building dp name ip t l (s.setInode dp { s.inode dp with nlink := n }) := by
  simp only [Building, Kern.setInode, IsDir, ents, update_self, update_of_ne (Ne.symm hne)]
  exact h

theorem triple_iallocLoop {is : List ℕ} (hip : ∀ i ∈ is, 1 ≤ i ∧ i < NINODES) (ht : t ≠ .free) :
    Triple (spec m) (Good m 0 none own none fun s => IsDir s.inode dp ∧ lookup name 0 (ents s.inode dp) = none)
      (iallocLoop t is) fun ip s =>
        (dp ≠ ip ∧ ip ≠ 0) ∧ Good m 0 (if t = .dir then some ip else none) (ip ::ₘ own) none
          (fun s => Building dp name ip t [] s ∧ (s.inode ip).nlink = 0) s := by
  induction is with
  | nil => exact triple_panic (by decide)
  | cons i is ih =>
    unfold iallocLoop
    have hi := hip i (List.mem_cons_self ..)
    refine .bind (Q := fun got s =>
      if got = true then dp ≠ i ∧ Good m 0 (if t = .dir then some i else none) own none
        (fun s => Building dp name i t [] s ∧ (s.inode i).nlink = 0) s
      else Good m 0 none own none (fun s => IsDir s.inode dp ∧ lookup name 0 (ents s.inode dp) = none) s) ?_ fun got => ?_
    · apply Triple.act
      · rintro s x s' ⟨h, hf⟩ hA - heq
        split_ifs at heq with hfree
        · cases heq
          have hne : dp ≠ i := by
            rintro rfl
            exact hf.1.alloc hfree
          have hI := h.ialloc hfree hi ht
          refine ⟨hI.always, hne, hI, ?_, by simp [Kern.setInode]⟩
          exact building_setInode hf hne rfl
        · cases heq
          exact ⟨hA, h, hf⟩
      · intro s x _ _ heq
        split_ifs at heq
    · cases got with
      | true =>
        refine .extract (fun s h => h.1) fun hne => ?_
        refine .bind (Q := fun _ => Good m 0 (if t = .dir then some i else none) (i ::ₘ own) none
          (fun s => Building dp name i t [] s ∧ (s.inode i).nlink = 0)) ?_ fun _ => .pure fun s h => ⟨⟨hne, by omega⟩, h⟩
        refine (triple_iget ?_ ?_).conseq (fun s h => h.2) fun _ _ => id
        · rintro s s' ⟨h1, h2⟩ hs
          exact ⟨steady_building s s' h1 hs, by rw [hs.inode, h2]⟩
        · rintro - s ⟨h, -⟩
          unfold Alloc
          rwa [h.2.1]
      | false => exact ih fun j hj => hip j (List.mem_cons_of_mem _ hj)

theorem triple_ialloc (ht : t ≠ .free) :
    Triple (spec m) (Good m 0 none own none fun s => IsDir s.inode dp ∧ lookup name 0 (ents s.inode dp) = none)
      (ialloc t) fun ip s =>
        (dp ≠ ip ∧ ip ≠ 0) ∧ Good m 0 (if t = .dir then some ip else none) (ip ::ₘ own) none
          (fun s => Building dp name ip t [] s ∧ (s.inode ip).nlink = 0) s := by
  refine triple_iallocLoop (fun i hi => ?_) ht
  have := List.mem_range'_1.mp hi
  simp only [NINODES] at this ⊢
  omega

theorem triple_dirlink_new {F : Kern → Prop} {d : ℕ} {x : Name} {Q : Bool → Kern → Prop} (hF : Steady F)
    (hx : ∀ s, F s → lookup x 0 (ents s.inode d) = none) (hw : Triple (spec m) (Good m pend fr own away F) (writeEntry d x i) Q) :
    Triple (spec m) (Good m pend fr own away F) (dirlink d x i) Q := by
  refine .bind (triple_dirlookup hF) fun r => ?_
  match r with
  | none => exact hw.conseq (fun s h => ⟨h.1, h.2.1⟩) fun _ _ => id
  | some (j, off) =>
    refine .extract (φ := False) ?_ False.elim
    rintro s ⟨-, hf, -, he, hj⟩
    exact lookup_none (hx s hf) (List.mem_of_getElem? he) hj rfl

/-- the parent is linked by others than the new ".." -/
def Linked (m : Mode) (dp : ℕ) (s : Kern) : Prop := m = .links → 1 < (s.inode dp).nlink.toInt

theorem steady_linked : Steady fun s => Building dp name ip t l s ∧ Linked m dp s := by
  rintro s s' ⟨h1, h2⟩ hs
  refine ⟨steady_building s s' h1 hs, ?_⟩
  unfold Linked
  rwa [hs.inode]

/-- `writeEntry` of a dot in the directory under construction -/
theorem triple_writeDot {pend' : Multiset ℕ} {x : Name} {j : ℕ} (hne : dp ≠ ip)
    (h : ∀ s det leak, Linked m dp s → Ledger m s.inode det leak pend (some ip) → Building dp name ip .dir l s →
      Ledger m (setEnts s.inode ip (addEntry l ⟨j, x⟩)) det leak pend' (some ip)) :
    Triple (spec m) (Good m pend (some ip) own none fun s => Building dp name ip .dir l s ∧ Linked m dp s)
      (writeEntry ip x j) fun ok s => ok = true ∧ Good m pend' (some ip) own none
        (fun s => Building dp name ip .dir (addEntry l ⟨j, x⟩) s ∧ Linked m dp s) s := by
  apply Triple.act
  · rintro s y s' ⟨hI, hb, hf⟩ - - heq
    simp only at heq
    split_ifs at heq
    cases heq
    obtain ⟨det, leak, hl⟩ := hI.ledger
    have hents : (s.inode ip).ents = l := hb.2.2
    rw [hents]
    have hI' := hI.setInode (n := { s.inode ip with ents := addEntry l ⟨j, x⟩ }) rfl ⟨det, leak, h s det leak hf hl hb⟩
    refine ⟨hI'.always, rfl, hI', building_setInode hb.1 hne hb.2.1, ?_⟩
    simpa only [Linked, Kern.setInode, update_of_ne hne] using hf
  · intro s y _ _ heq _
    simp only at heq
    split_ifs at heq
    cases heq
    decide

theorem triple_createDot (hne : dp ≠ ip) :
    Triple (spec m) (Good m {dp, ip} (some ip) own none fun s => Building dp name ip .dir [] s ∧ Linked m dp s)
      (dirlink ip dot ip) fun ok s => ok = true ∧ Good m {dp, ip} (some ip) own none
        (fun s => Building dp name ip .dir [⟨ip, dot⟩] s ∧ Linked m dp s) s := by
  refine triple_dirlink_new steady_linked ?_ (triple_writeDot hne ?_)
  · rintro s ⟨hb, -⟩
    rw [hb.2.2]
    rfl
  · intro s det leak _ hl hb
    exact hl.addDot hb.2.2

theorem triple_createDotdot (hne : dp ≠ ip) (hip : ip ≠ 0) :
    Triple (spec m) (Good m {dp, ip} (some ip) own none fun s => Building dp name ip .dir [⟨ip, dot⟩] s ∧ Linked m dp s)
      (dirlink ip dotdot dp) fun ok s => ok = true ∧ Good m {ip} (some ip) own none
        (fun s => Building dp name ip .dir [⟨ip, dot⟩, ⟨dp, dotdot⟩] s ∧ Linked m dp s) s := by
  have hadd : addEntry [⟨ip, dot⟩] ⟨dp, dotdot⟩ = [⟨ip, dot⟩, ⟨dp, dotdot⟩] := by
    rw [addEntry_cons hip]
    rfl
  rw [← hadd]
  refine triple_dirlink_new steady_linked ?_ (triple_writeDot hne ?_)
  · rintro s ⟨hb, -⟩
    rw [hb.2.2]
    simp [lookup, hip, dot, dotdot]
  · intro s det leak hlinked hl hb
    rw [hadd]
    refine hl.addDotdot hb.2.2 hne fun hm => hl.live hb.1.1 ?_ hm
    have := hlinked hm
    simp [hne]
    omega

/-- the new inode can get its name -/
def Ready (fr : Option ℕ) (dp : ℕ) (name : Name) (ip : ℕ) (s : Kern) : Prop :=
  (IsDir s.inode dp ∧ lookup name 0 (ents s.inode dp) = none) ∧
    (fr = none ∧ ¬ IsDir s.inode ip ∨ fr = some ip ∧ Dots ip (ents s.inode ip) ∧ parent s.inode ip = dp)

theorem triple_createDots (hne : dp ≠ ip) (hip : ip ≠ 0) :
    Triple (spec m) (Good m {ip} (if t = .dir then some ip else none) own none (Building dp name ip t []))
      (createDots dp ip t) fun _ => Good m {ip} (if t = .dir then some ip else none) own none
        (Ready (if t = .dir then some ip else none) dp name ip) := by
  unfold createDots
  split_ifs with ht
  · subst ht
    refine .bind (Q := fun _ => Good m {dp, ip} (some ip) own none fun s =>
      Building dp name ip .dir [] s ∧ Linked m dp s) (triple_inc ?_) fun _ => ?_
    · rintro s ⟨hI, hb⟩ hg
      refine ⟨hb.1.1.alloc, hb.inc hne, ?_⟩
      rintro rfl
      obtain ⟨det, leak, hl⟩ := hI.ledger
      have hn := hl.nlink dp hb.1.1.alloc
      have hpos : (s.inode dp).nlink.toInt ≠ 0 := fun e => hg.2 hb.1.1 (BitVec.eq_of_toInt_eq e)
      simp only [Kern.setInode, update_self]
      rw [toInt_succ hg.1]
      omega
    refine .bind (triple_createDot hne) fun _ => .bind (triple_check (by decide)) fun _ => ?_
    refine .bind ((triple_createDotdot hne hip).conseq (fun s h => h.1.2) fun _ _ => id) fun _ => ?_
    refine (triple_check (by decide)).conseq (fun _ => id) ?_
    rintro - s ⟨⟨-, hI, hb, -⟩, -⟩
    obtain ⟨det, leak, hl⟩ := hI.ledger
    have hdp := hl.small dp hb.1.1.alloc
    refine ⟨hI, hb.1, .inr ⟨rfl, ?_, parent_of_dots hb.2.2⟩⟩
    exact ⟨dp, [], hb.2.2, by omega, by simp⟩
  · refine .pure fun s h => ⟨h.1, h.2.1, .inl ⟨rfl, fun hd => ht ?_⟩⟩
    exact h.2.2.1.symm.trans hd

theorem triple_createNew {major minor : BitVec 16} (ht : t ≠ .free) :
    Triple (spec m) (Good m 0 none {dp} none fun s => IsDir s.inode dp ∧ lookup name 0 (ents s.inode dp) = none)
      (createNew dp name t major minor) fun ip => Inv m 0 none {ip} none := by
  refine .bind (triple_ialloc ht) fun ip => .extract (fun s h => h.1) fun ⟨hne, hip⟩ => ?_
  let fr : Option ℕ := if t = .dir then some ip else none
  have hsteady : Steady fun s => Building dp name ip t [] s ∧ (s.inode ip).nlink = 0 :=
    fun s s' h hs => ⟨steady_building s s' h.1 hs, by rw [hs.inode, h.2]⟩
  refine .bind ((triple_ilock hsteady).conseq (fun s h => h.2) fun _ _ => id) fun _ => ?_
  refine .bind (Q := fun _ => Good m {ip} fr {ip, dp} none (Building dp name ip t [])) (triple_modify ?_ ?_) fun _ => ?_
  · rintro s ⟨hI, ⟨hb, h0⟩, -⟩ -
    obtain ⟨det, leak, hl⟩ := hI.ledger
    have ha : Alloc s.inode ip := by
      unfold Alloc
      rwa [hb.2.1]
    refine ⟨hI.setInode rfl ⟨det, leak, hl.init ha h0 rfl rfl rfl⟩, ?_⟩
    have := building_setInode (n := { s.inode ip with major := major, minor := minor, nlink := 1 }) hb.1 hne hb.2.1
    rwa [show (s.inode ip).ents = [] from hb.2.2] at this
  · exact fun s h => h.1.always
  refine .bind (triple_createDots hne hip) fun _ => ?_
  have hfr : fr ≠ some dp := by
    intro h
    simp only [fr] at h
    split_ifs at h
    exact hne (Option.some.inj h).symm
  have hready : Steady (Ready fr dp name ip) := by
    intro s s' h hs
    unfold Ready
    rwa [hs.inode]
  refine .bind (triple_dirlink_new hready (fun s h => h.1.2) (triple_writeEntry hfr hne)) fun _ => ?_
  refine .bind (triple_check (by decide)) fun _ => ?_
  refine .bind (Q := fun _ => Good m 0 none {ip} none fun _ => True) ?_ fun _ => .pure fun _ h => h.1
  refine (triple_iunlockput robust_true).conseq (fun s h => ⟨?_, trivial⟩) fun _ _ => id
  have := h.1.2
  rwa [pair_comm] at this

/-- `create` returns with a reference to the inode -/
def Created (m : Mode) : Option ℕ → Kern → Prop
  | none => Idle m
  | some ip => Inv m 0 none {ip} none

theorem triple_create {p : ℕ} {path : List Byte} {major minor : BitVec 16} (ht : t ≠ .free) :
    Triple (spec m) (Good m 0 none 0 none (Cur p)) (create p path t major minor) (Created m) := by
  refine .bind (triple_namex robust_cur fun _ h => h) fun r => ?_
  match r with
  | none => exact .pure fun _ h => h.1
  | some (dp, name) =>
    refine .bind (triple_ilock robust_cur.steady) fun _ => ?_
    refine .bind ((triple_dirlookup robust_true.steady).conseq (fun s h => ⟨h.1, trivial⟩) fun _ _ => id) fun r => ?_
    match r with
    | some (ip, off) =>
      refine .bind (Q := fun _ => Good m 0 none {ip} none fun _ => True) ?_ fun _ => ?_
      · refine (triple_iunlockput robust_true).conseq (fun s h => ⟨?_, trivial⟩) fun _ _ => id
        have := h.1
        rwa [cons_swap] at this
      refine .bind (triple_ilock robust_true.steady) fun _ => .bind triple_look fun n => ?_
      refine .ite (fun _ => .pure fun s h => h.1.1) fun _ => ?_
      refine .bind (Q := fun _ => Good m 0 none 0 none fun _ => True) ?_ fun _ => .pure fun _ h => h.1
      exact (triple_iunlockput robust_true).conseq (fun s h => ⟨h.1.1, trivial⟩) fun _ _ => id
    | none =>
      refine .bind ((triple_createNew ht).conseq (fun s h => ⟨h.1, h.2.2⟩) fun _ _ => id) fun ip => ?_
      exact .pure fun s h => h

end

/-! ## Open files and current directories -/

/-- the inode behind a file -/
def behind (x : File) : List ℕ := if x.isInode then [x.ip] else []

section

variable {p f : ℕ}

theorem opens_setFile {x : File} : opens (s.setFile f x) = update (opens s) f (behind x) := by
  funext g
  by_cases hg : g = f
  · subst hg; simp [opens, Kern.setFile, behind]
  · simp [opens, Kern.setFile, hg]

theorem Inv.setFile {own' : Multiset ℕ} {x : File} (h : Inv m pend fr own away s) (hf : f < NFILE)
    (hc : x.ref = 0 → x.isInode = false)
    (hown : ∀ i, (behind x).countP (· = i) + own'.count i ≤ (behind (s.file f)).countP (· = i) + own.count i) :
    Inv m pend fr own' away (s.setFile f x) := by
  have hfile : ∀ g, g ≠ f → (s.setFile f x).file g = s.file g := fun g hg => by simp [Kern.setFile, hg]
  refine ⟨h.ledger, ?_, ?_, ?_, h.refs.procs, h.refs.held, h.refs.valid⟩
  · intro i
    have h1 := h.refs.count i
    have h2 := hown i
    have h3 := tally_update (L := opens s) (f := fun _ c => decide (c = i)) hf (behind x)
    unfold refCount at h1 ⊢
    rw [opens_setFile]
    change tally NPROC (cwds s away) _ + _ + _ ≤ s.ref i
    change _ + List.countP _ (behind (s.file f)) = _ at h3
    omega
  · intro g
    by_cases hg : g = f
    · subst hg; simpa [Kern.setFile] using hc
    · rw [hfile g hg]; exact h.refs.closed g
  · intro g
    by_cases hg : g = f
    · exact fun _ => hg ▸ hf
    · rw [hfile g hg]; exact h.refs.files g

/-- process `p` leaves its current directory: the reference becomes the call's -/
theorem Inv.leave (h : Inv m pend fr own none s) {pr : Proc} (hp : s.proc p = some pr) :
    Inv m pend fr (pr.cwd ::ₘ own) (some p) s := by
  refine ⟨h.ledger, ?_, h.refs.closed, h.refs.files, h.refs.procs, h.refs.held, h.refs.valid⟩
  intro i
  have hlt := h.refs.procs p (by simp [hp])
  have hcwds : cwds s (some p) = update (cwds s none) p [] := by
    funext q
    by_cases hq : q = p
    · subst hq; simp [cwds]
    · simp [cwds, hq, Ne.symm hq]
  have h1 := h.refs.count i
  have h2 := tally_update (L := cwds s none) (f := fun _ c => decide (c = i)) hlt []
  unfold refCount at h1 ⊢
  rw [hcwds, count_cons]
  have h3 : (cwds s none p).countP (fun c => decide (c = i)) = if i = pr.cwd then 1 else 0 := by
    simp [cwds, hp, List.countP_cons, eq_comm]
  rw [h3, List.countP_nil] at h2
  omega

/-- process `p` enters a directory the call has a reference to, or is gone -/
theorem Inv.enter {own' : Multiset ℕ} {x : Option Proc} (h : Inv m pend fr own (some p) s) (hp : p < NPROC)
    (hown : ∀ i, (x.map Proc.cwd).toList.countP (· = i) + own'.count i ≤ own.count i) :
    Inv m pend fr own' none (s.setProc p x) := by
  refine ⟨h.ledger, ?_, h.refs.closed, h.refs.files, ?_, h.refs.held, h.refs.valid⟩
  · intro i
    have hcwds : cwds (s.setProc p x) none = update (cwds s (some p)) p (x.map Proc.cwd).toList := by
      funext q
      by_cases hq : q = p
      · subst hq; simp [cwds, Kern.setProc]
      · simp [cwds, Kern.setProc, hq, Ne.symm hq]
    have h1 := h.refs.count i
    have h2 := tally_update (L := cwds s (some p)) (f := fun _ c => decide (c = i)) hp (x.map Proc.cwd).toList
    have h3 := hown i
    have h4 : cwds s (some p) p = [] := by simp [cwds]
    unfold refCount at h1 ⊢
    rw [hcwds]
    rw [h4, List.countP_nil] at h2
    change _ + tally NFILE (opens s) _ + _ ≤ s.ref i
    omega
  · intro q hq
    by_cases hqp : q = p
    · exact hqp ▸ hp
    · exact h.refs.procs q (by simpa [Kern.setProc, hqp] using hq)

theorem Inv.setOfile {pr : Proc} {o : ℕ → Option ℕ} (h : Inv m pend fr own none s) (hp : s.proc p = some pr) :
    Inv m pend fr own none (s.setProc p (some { pr with ofile := o })) := by
  have hlt := h.refs.procs p (by simp [hp])
  refine (h.leave hp).enter hlt fun i => ?_
  rw [count_cons]
  by_cases hi : i = pr.cwd
  · simp [hi]; omega
  · simp [hi, Ne.symm hi]

/-- a fact about inodes and processes alone -/
def FileFree (F : Kern → Prop) : Prop := ∀ s f x, F s → F (s.setFile f x)

variable {F : Kern → Prop}

theorem triple_fileclose (hF : Robust F) (hff : FileFree F) :
    Triple (spec m) (Good m pend none own none F) (fileclose f) fun _ => Good m pend none own none F := by
  refine .bind (Q := fun r => match r with
    | none => Good m pend none own none F
    | some x => if x.isInode = true then Good m pend none (x.ip ::ₘ own) none F else Good m pend none own none F) ?_ ?_
  · apply Triple.act
    · rintro s x s' ⟨h, hf⟩ hA - heq
      simp only at heq
      split_ifs at heq with h1 h2
      · cases heq
        refine ⟨hA, h.setFile (h.refs.files f (by omega)) ?_ ?_, hff s f _ hf⟩
        · intro h0
          simp only at h0
          omega
        · intro i
          exact le_refl _
      · cases heq
        have hlt := h.refs.files f (by omega)
        refine ⟨hA, ?_⟩
        simp only
        split_ifs with hin
        · refine ⟨h.setFile hlt (fun _ => rfl) fun i => ?_, hff s f _ hf⟩
          rw [count_cons]
          by_cases hi : i = (s.file f).ip
          · simp [behind, hin, hi]
          · simp [behind, hin, hi]
        · refine ⟨h.setFile hlt (fun _ => rfl) fun i => ?_, hff s f _ hf⟩
          simp [behind]
    · intro s x _ _ heq _
      simp only at heq
      split_ifs at heq
      cases heq
      decide
  · intro r
    match r with
    | none => exact .pure fun _ h => h
    | some x =>
      simp only
      split_ifs
      · exact triple_iput hF
      · exact .pure fun _ h => h

theorem fileFree_cur : FileFree (Cur p) := fun _ _ _ h => h

theorem triple_openFile {ip : ℕ} {omode : Word} :
    Triple (spec m) (Inv m 0 none {ip} none) (openFile p ip omode) fun _ => Idle m := by
  have hput : Triple (spec m) (Inv m 0 none {ip} none) (do iunlockput .silent ip; fail) fun _ => Idle m := by
    refine .bind (Q := fun _ => Good m 0 none 0 none fun _ => True) ?_ fun _ => triple_fail fun _ h => h.1
    exact (triple_iunlockput robust_true).conseq (fun s h => ⟨h, trivial⟩) fun _ _ => id
  -- a file just claimed holds no inode yet
  let Claimed (f : ℕ) : Kern → Prop := fun s => (s.file f).isInode = false ∧ 0 < (s.file f).ref
  refine .bind (Q := fun r => match r with
    | none => Inv m 0 none {ip} none
    | some f => Good m 0 none {ip} none (Claimed f)) ?_ fun r => ?_
  · apply Triple.act
    · intro s x s' h hA _ heq
      split at heq
      · cases heq
        exact ⟨hA, h⟩
      · next f hfind =>
        cases heq
        have hlt : f < NFILE := List.mem_range.mp (List.mem_of_find?_eq_some hfind)
        have href : (s.file f).ref = 0 := by simpa using List.find?_some hfind
        have hno := h.refs.closed f href
        refine ⟨hA, h.setFile hlt (by simp) fun i => le_refl _, ?_, ?_⟩
        · simpa [Kern.setFile] using hno
        · simp [Kern.setFile]
    · intro s x _ _ heq
      split at heq <;> cases heq
  match r with
  | none => exact hput
  | some f =>
    refine Triple.bind (Q := fun _ => Good m 0 none {ip} none (Claimed f)) ?_ fun r => ?_
    · apply Triple.act
      · rintro s x s' ⟨h, hf⟩ hA - heq
        split at heq
        · cases heq
          exact ⟨hA, h, hf⟩
        · next pr hpr =>
          split at heq
          · cases heq
            exact ⟨hA, h, hf⟩
          · cases heq
            exact ⟨hA, h.setOfile hpr, hf⟩
      · intro s x _ _ heq
        split at heq
        · cases heq
        · split at heq <;> cases heq
    match r with
    | none =>
      refine .bind (Q := fun _ => Good m 0 none {ip} none fun _ => True) ?_ fun _ =>
        hput.conseq (fun s h => h.1) fun _ _ => id
      exact (triple_fileclose robust_true fun _ _ _ _ => trivial).conseq (fun s h => ⟨h.1, trivial⟩) fun _ _ => id
    | some fd =>
      refine .bind triple_iunlock fun _ => .bind (Q := fun _ => Idle m) (triple_modify ?_ fun s h => h.always)
        fun _ => .pure fun _ h => h
      rintro s ⟨h, hno, hpos⟩ -
      refine h.setFile (h.refs.files f hpos) (fun h0 => ?_) fun i => ?_
      · simp only at h0
        omega
      · simp [behind, hno, count_singleton, List.countP_cons, eq_comm]

theorem triple_sysOpen {path : List Byte} {omode : Word} :
    Triple (spec m) (Good m 0 none 0 none (Cur p)) (sysOpen p path omode) fun _ => Idle m := by
  refine .ite (fun _ => ?_) fun _ => ?_
  · refine .bind (triple_create (by decide)) fun r => ?_
    match r with
    | none => exact triple_fail fun _ h => h
    | some ip => exact triple_openFile
  · refine .bind (triple_namei robust_cur fun _ h => h) fun r => ?_
    match r with
    | none => exact triple_fail fun _ h => h.1
    | some ip =>
      refine .bind (triple_ilock robust_cur.steady) fun _ => .bind triple_look fun n => ?_
      refine .ite (fun _ => ?_) fun _ => triple_openFile.conseq (fun s h => h.1.1) fun _ _ => id
      refine .bind ((triple_iunlockput robust_cur).conseq (fun s h => ⟨h.1.1, h.1.2.1⟩) fun _ _ => id) fun _ => ?_
      exact triple_fail fun _ h => h.1

theorem triple_createAndPut {path : List Byte} {t : IType} {major minor : BitVec 16} (ht : t ≠ .free) :
    Triple (spec m) (Good m 0 none 0 none (Cur p)) (createAndPut p path t major minor) fun _ => Idle m := by
  refine .bind (triple_create ht) fun r => ?_
  match r with
  | none => exact triple_fail fun _ h => h
  | some ip =>
    refine .bind (Q := fun _ => Good m 0 none 0 none fun _ => True) ?_ fun _ => .pure fun _ h => h.1
    exact (triple_iunlockput robust_true).conseq (fun s h => ⟨h, trivial⟩) fun _ _ => id

theorem triple_putCwd {cwd : ℕ} : Triple (spec m) (fun s => Good m 0 none own none (Cur p) s ∧ cwd = cwdOf p s) (iput .silent cwd)
      fun _ => Good m 0 none own (some p) (Cur p) := by
  refine (triple_iput robust_cur).conseq ?_ fun _ _ => id
  rintro s ⟨⟨h, hc⟩, rfl⟩
  obtain ⟨pr, hpr⟩ := Option.isSome_iff_exists.mp hc
  refine ⟨?_, hc⟩
  rw [show cwdOf p s = pr.cwd by simp [cwdOf, hpr]]
  exact h.leave hpr

theorem triple_sysChdir {path : List Byte} :
    Triple (spec m) (Good m 0 none 0 none (Cur p)) (sysChdir p path) fun _ => Idle m := by
  refine .bind (triple_namei robust_cur fun _ h => h) fun r => ?_
  match r with
  | none => exact triple_fail fun _ h => h.1
  | some ip =>
    refine .bind (triple_ilock robust_cur.steady) fun _ => .bind triple_look fun n => ?_
    refine .conseq (P := Good m 0 none {ip} none (Cur p)) ?_ (fun s h => ⟨h.1.1, h.1.2.1⟩) fun _ _ => id
    refine .ite (fun _ => ?_) fun _ => ?_
    · exact .bind (triple_iunlockput robust_cur) fun _ => triple_fail fun _ h => h.1
    refine .bind triple_iunlock fun _ => .bind triple_look fun cwd => .bind triple_putCwd fun _ => ?_
    refine .bind (Q := fun _ => Idle m) (triple_modify ?_ fun s h => h.always) fun _ => .pure fun _ h => h
    rintro s ⟨h, hc⟩ -
    refine h.enter (h.refs.procs p hc) fun i => ?_
    obtain ⟨pr, hpr⟩ := Option.isSome_iff_exists.mp hc
    simp [hpr, count_singleton, List.countP_cons, eq_comm]

theorem triple_clearFd {fd : ℕ} :
    Triple (spec m) (Good m 0 none own none (Cur p)) (clearFd p fd) fun _ => Good m 0 none own none (Cur p) := by
  refine triple_modify ?_ fun s h => h.1.always
  rintro s ⟨h, hc⟩ -
  obtain ⟨pr, hpr⟩ := Option.isSome_iff_exists.mp hc
  rw [hpr, Option.map_some]
  exact ⟨h.setOfile hpr, by simp [Cur, Kern.setProc]⟩

theorem triple_sysClose {fd : ℕ} : Triple (spec m) (Good m 0 none 0 none (Cur p)) (sysClose p fd) fun _ => Idle m := by
  refine .bind triple_look fun r => .conseq (P := Good m 0 none 0 none (Cur p)) ?_ (fun s h => h.1) fun _ _ => id
  match r with
  | none => exact triple_fail fun _ h => h.1
  | some f =>
    exact .bind triple_clearFd fun _ => .bind (triple_fileclose robust_cur fileFree_cur) fun _ =>
      .pure fun _ h => h.1

theorem triple_exitFiles {fds : List ℕ} :
    Triple (spec m) (Good m 0 none 0 none (Cur p)) (exitFiles p fds) fun _ => Good m 0 none 0 none (Cur p) := by
  induction fds with
  | nil => exact .pure fun _ h => h
  | cons fd fds ih =>
    refine .bind triple_look fun r =>
      .conseq (P := Good m 0 none 0 none (Cur p)) ?_ (fun s h => h.1) fun _ _ => id
    match r with
    | none => exact ih
    | some f =>
      exact .bind (triple_fileclose robust_cur fileFree_cur) fun _ => .bind triple_clearFd fun _ => ih

theorem triple_exit : Triple (spec m) (Good m 0 none 0 none (Cur p)) (exit p) fun _ => Idle m := by
  refine .bind (triple_check (by decide)) fun _ => ?_
  refine .bind (triple_exitFiles.conseq (fun s h => h.1) fun _ _ => id) fun _ => ?_
  refine .bind triple_look fun cwd => .bind triple_putCwd fun _ => ?_
  refine .bind (Q := fun _ => Idle m) (triple_modify ?_ fun s h => h.always) fun _ => .pure fun _ h => h
  rintro s ⟨h, hc⟩ -
  exact h.enter (h.refs.procs p hc) fun i => by simp

theorem Inv.absent {q : ℕ} (h : Inv m pend fr own none s) (hq : s.proc q = none) : Inv m pend fr own (some q) s := by
  refine ⟨h.ledger, fun i => ?_, h.refs.closed, h.refs.files, h.refs.procs, h.refs.held, h.refs.valid⟩
  have : cwds s (some q) = cwds s none := by
    funext r
    by_cases hr : q = r
    · subst hr; simp [cwds, hq]
    · simp [cwds, hr]
  unfold refCount
  rw [this]
  exact h.refs.count i

/-- the parent exists, the child does not yet -/
def Forking (p q : ℕ) (s : Kern) : Prop := Cur p s ∧ (s.proc q).isNone = true

theorem triple_filedup {q : ℕ} :
    Triple (spec m) (Good m 0 none 0 none (Forking p q)) (filedup f) fun _ => Good m 0 none 0 none (Forking p q) := by
  apply Triple.act
  · rintro s x s' ⟨h, hf⟩ hA - heq
    split_ifs at heq
    cases heq
    exact ⟨hA, h.setFile (h.refs.files f (by omega)) (by simp) fun i => le_refl _, hf⟩
  · intro s x _ _ heq _
    split_ifs at heq
    cases heq
    decide

theorem triple_forkFiles {q : ℕ} {fds : List ℕ} : Triple (spec m) (Good m 0 none 0 none (Forking p q)) (forkFiles p fds)
      fun _ => Good m 0 none 0 none (Forking p q) := by
  induction fds with
  | nil => exact .pure fun _ h => h
  | cons fd fds ih =>
    refine .bind triple_look fun r =>
      .conseq (P := Good m 0 none 0 none (Forking p q)) ?_ (fun s h => h.1) fun _ _ => id
    match r with
    | none => exact ih
    | some f => exact .bind triple_filedup fun _ => ih

theorem triple_fork {q : ℕ} (hq : q < NPROC) : Triple (spec m) (Good m 0 none 0 none (Cur p)) (fork p q) fun _ => Idle m := by
  refine .bind triple_look fun unused => .ite (fun hu => ?_) fun _ => triple_fail fun _ h => h.1.1
  refine .bind (triple_forkFiles.conseq (fun s h => ⟨h.1.1, h.1.2, h.2.symm.trans hu⟩) fun _ _ => id) fun _ => ?_
  refine .bind (Q := fun _ => Idle m) (triple_modify ?_ fun s h => h.always) fun _ => .pure fun _ h => h
  rintro s ⟨h, hc, hnone⟩ -
  obtain ⟨pr, hpr⟩ := Option.isSome_iff_exists.mp hc
  have hcwd : cwdOf p s = pr.cwd := by simp [cwdOf, hpr]
  have hpos := h.cwd_lt hpr (by simp)
  have hdup : Inv m 0 none {pr.cwd} (some q) { s with ref := update s.ref pr.cwd (s.ref pr.cwd + 1) } := by
    refine (h.absent (Option.isNone_iff_eq_none.mp hnone)).same ⟨rfl, rfl, rfl⟩ ?_ ?_ fun _ => .inl
    · intro i
      rw [count_singleton]
      by_cases hi : i = pr.cwd
      · simp [hi]
      · simp [hi]
    · intro _ i hi
      by_cases hip : i = pr.cwd
      · exact .inl (hip ▸ hpos)
      · exact .inl (by simpa [hip] using hi)
  rw [hcwd, hpr]
  refine hdup.enter hq fun i => ?_
  simp [count_singleton, List.countP_cons, eq_comm]

/-- **Every call keeps the invariant.** -/
theorem triple_code (sc : Syscall) : Triple (spec m) (Good m 0 none 0 none (Cur p)) (sc.code p) fun _ => Idle m := by
  cases sc with
  | «open» path omode => exact triple_sysOpen
  | mkdir path | mknod path major minor => exact triple_createAndPut (by decide)
  | link old new => exact triple_sysLink
  | unlink path => exact triple_sysUnlink
  | chdir path => exact triple_sysChdir
  | close fd => exact triple_sysClose
  | fork q => exact triple_fork q.isLt
  | exit => exact triple_exit

end

/-! ## Runs -/

theorem refs_boot (files : List Name) : Refs m 0 none (boot files) := by
  have htype : ∀ i, i = ROOTINO → Alloc (boot files).inode i := by
    rintro i rfl
    exact (mkfs_isDir.mpr rfl).alloc
  refine ⟨?_, fun _ _ => rfl, ?_, ?_, ?_, ?_⟩
  · intro i
    have hfiles : tally NFILE (opens (boot files)) (fun _ c => decide (c = i)) = 0 := by
      simp [tally, opens, boot]
    have hcwd : tally NPROC (cwds (boot files) none) (fun _ c => decide (c = i)) = if i = ROOTINO then 1 else 0 := by
      have h0 : 0 < NPROC := by decide
      rw [tally_eq_add h0, Finset.sum_eq_zero]
      · simp [cwds, boot, List.countP_cons, eq_comm]
      · intro q hq
        simp [cwds, boot, Finset.ne_of_mem_erase hq]
    unfold refCount
    rw [hfiles, hcwd]
    simp [boot]
  · simp [boot]
  · intro q hq
    have : q = 0 := by
      by_contra hne
      simp [boot, hne] at hq
    subst this
    decide
  · intro _ i hi
    apply htype
    by_contra hne
    simp [boot, hne] at hi
  · simp [boot]

theorem reach_idle {c : Cfg Kern} (h : Reach (guard m) c) : Idle m c.st := by
  induction h with
  | boot hf => exact ⟨⟨_, _, ledger_mkfs hf⟩, refs_boot _⟩
  | call sc _ hp hr ih => exact (triple_code sc _ ⟨ih, hp⟩ ih.always).2.2 _ _ hr

end Xv6.Links
