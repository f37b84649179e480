/-
The file table, the descriptors and the pipes: what the functions of `file.c`, `pipe.c` and `proc.c` keep.

`FileTable` is what holds while a call runs that has claimed the files c: a file's reference count is the number of
descriptors that name it, plus the claims; a pipe has an end open iff some file is that end; and a process that is not in use
has no descriptors. It is part of the frame (`Tab`) that the inode cache's functions keep, so the two invariants are carried
along together:

- `tr_fileclose`: the claim is given up, and with the last one the pipe's end or the inode's reference;
- `tr_openFile`, `tr_sysPipe`: a failure leaves the descriptors as they were;
- `tr_fork`, `tr_exit`: the child shares the descriptors, and a zombie has none.
-/
import Xv6.Files.Paths

namespace Xv6.Files

open Lib Lib.StateProg Blocks Multiset
open Sysfile (IType elems)

variable {sb : Superblock} {W : Prop} {m : Multiset ℕ} {L : Finset ℕ} {s : Kern} {c : Multiset ℕ} {x : Option ℕ}
  {F : ℕ → File} {Q : ℕ → Option Pipe} {P P0 P1 : ℕ → Proc} {D : Store → (ℕ → Dinode) → Prop}

/-! ## The invariant -/

/-- descriptors of a process that name f -/
def fds (f : ℕ) (y : Proc) : ℕ := census NOFILE (fun o => if o = some f then 1 else 0) y.ofile

/-- pairs of a process and a descriptor that name f -/
def slots (f : ℕ) (P : ℕ → Proc) : ℕ := census NPROC (fds f) P

/-- f is an end of pipe q: the write end iff w -/
def IsEnd (F : ℕ → File) (q : ℕ) (w : Bool) (f : ℕ) : Prop :=
  0 < (F f).ref ∧ (F f).type = .pipe ∧ (F f).pipe = q ∧ (F f).writable = w

structure PipeTable (F : ℕ → File) (Q : ℕ → Option Pipe) : Prop where
  alive : ∀ q w f, IsEnd F q w f → ∃ y, Q q = some y
  opens : ∀ q y, Q q = some y → (y.readopen = true ↔ ∃ f, IsEnd F q false f) ∧ (y.writeopen = true ↔ ∃ f, IsEnd F q true f) ∧
    (y.readopen = true ∨ y.writeopen = true)
  one : ∀ q w f f', IsEnd F q w f → IsEnd F q w f' → f = f'

/-- x: a process that fork is about to make -/
structure FileTable (c : Multiset ℕ) (x : Option ℕ) (F : ℕ → File) (Q : ℕ → Option Pipe) (P : ℕ → Proc) : Prop where
  refs : ∀ f, (F f).ref = c.count f + slots f P
  bound : ∀ f, NFILE ≤ f → (F f).ref = 0
  closed : ∀ f, (F f).ref = 0 → (F f).type = .none
  fdBound : ∀ p fd, NOFILE ≤ fd → (P p).ofile fd = none
  idle : ∀ p, (P p).state ≠ .used → (some p ≠ x → ∀ fd, (P p).ofile fd = none) ∧ (P p).cwd = none
  home : ∀ p, (P p).state = .used → p < NPROC ∧ ∃ k, (P p).cwd = some k
  pipes : PipeTable F Q

/-- the file table with the descriptors of P1, while the processes are P0 and the disk is as D says -/
def Tab (c : Multiset ℕ) (x : Option ℕ) (P1 P0 : ℕ → Proc) (D : Store → (ℕ → Dinode) → Prop) : Frame where
  cond B T F Q P := FileTable c x F Q P1 ∧ P = P0 ∧ D B T
  pins _ := none

/-- either D says nothing, or it says that every inode of a well-formed image has a link -/
def Steady (W : Prop) (D : Store → (ℕ → Dinode) → Prop) : Prop :=
  (∀ B T, D B T) ∨ (W ∧ ∀ B T, D B T → ∀ i, (T i).type ≠ .free → (T i).nlink ≠ 0)

def Any : Store → (ℕ → Dinode) → Prop := fun _ _ => True

theorem any_steady : Steady W Any := .inl fun _ _ => trivial

theorem tab_kept : (Tab c x P1 P0 D).Kept m := fun _ _ h => absurd h (by simp [Tab])

theorem Steady.tab (h : Steady W D) : (Tab c x P1 P0 D).Free ∨ (Tab c x P1 P0 D).Linked W :=
  h.imp (fun hD _ _ _ _ _ _ _ hc => ⟨hc.1, hc.2.1, hD _ _⟩) fun hD => ⟨hD.1, fun _ _ _ _ _ hc => hD.2 _ _ hc.2.2⟩

/-- the invariant when the call has nothing claimed -/
abbrev Idle (sb : Superblock) (W : Prop) (P : ℕ → Proc) (D : Store → (ℕ → Dinode) → Prop) (m : Multiset ℕ) (L : Finset ℕ)
    (s : Kern) : Prop := Holds sb W (Tab 0 none P P D) m L s

theorem Holds.any (h : Holds sb W (Tab c x P1 P0 D) m L s) : Holds sb W (Tab c x P1 P0 Any) m L s :=
  ⟨h.1, h.2.1, h.2.2.1, trivial⟩

/-- the tables change, and with them who refers to the inodes -/
theorem Core.setTables {I : ℕ → Option ℕ} (h : Core sb W I m L s) {F : ℕ → File} {Q : ℕ → Option Pipe} {P : ℕ → Proc}
    {m' : Multiset ℕ} (hI : ∀ k, I k = none)
    (hr : ∀ k, m'.count k + fileRefs k F + cwdRefs k P = m.count k + fileRefs k s.file + cwdRefs k s.proc) :
    Core sb W I m' L { s with file := F, pipe := Q, proc := P } :=
  ⟨h.bound, h.uniq, fun k => (h.refs k).trans (hr k).symm, h.locks, h.loaded, fun k i hk => absurd hk (by simp [hI]),
    fun hw => ⟨(h.disk hw).good, (h.disk hw).copy⟩⟩

variable {f fd : ℕ} {v : File}

theorem fileRefs_update (hf : f < NFILE) (k : ℕ) (F : ℕ → File) (v : File) :
    fileRefs k (update F f v) + (if 0 < (F f).ref ∧ (F f).type = .inode ∧ (F f).ip = k then 1 else 0) =
      fileRefs k F + (if 0 < v.ref ∧ v.type = .inode ∧ v.ip = k then 1 else 0) := census_update hf v

theorem fileRefs_same (hf : f < NFILE) {k : ℕ} {F : ℕ → File}
    (h : (0 < v.ref ∧ v.type = .inode ∧ v.ip = k) ↔ (0 < (F f).ref ∧ (F f).type = .inode ∧ (F f).ip = k)) :
    fileRefs k (update F f v) = fileRefs k F := by
  have := fileRefs_update hf k F v
  simp only [h] at this
  omega

theorem cwdRefs_congr {P P' : ℕ → Proc} (h : ∀ p, (P' p).cwd = (P p).cwd) (k : ℕ) : cwdRefs k P' = cwdRefs k P := by
  unfold cwdRefs census
  exact Finset.sum_congr rfl fun p _ => by
    dsimp only
    rw [h p]

theorem FileTable.lt (h : FileTable c x F Q P) (hf : 0 < (F f).ref) : f < NFILE := by
  by_contra hge
  have := h.bound f (by omega)
  omega

theorem FileTable.pos (h : FileTable (f ::ₘ c) x F Q P) : 0 < (F f).ref := by
  have := h.refs f
  rw [count_cons_self] at this
  omega

theorem FileTable.open_pos (h : FileTable c x F Q P) {p : ℕ} (hp : p < NPROC) (hf : (P p).ofile fd = some f) : 0 < (F f).ref := by
  have hfd : fd < NOFILE := by
    by_contra hge
    rw [h.fdBound p fd (by omega)] at hf
    exact absurd hf (by simp)
  have h1 : 0 < fds f (P p) := census_pos.2 ⟨fd, hfd, by simp [hf]⟩
  have h2 : 0 < slots f P := census_pos.2 ⟨p, hp, h1⟩
  have := h.refs f
  omega

/-! ## Files -/

theorem PipeTable.congr {F' : ℕ → File} (h : PipeTable F Q) (he : ∀ q w f, IsEnd F' q w f ↔ IsEnd F q w f) : PipeTable F' Q := by
  refine ⟨fun q w f hf => h.alive q w f ((he q w f).1 hf), fun q y hq => ?_, fun q w f f' hf hf' =>
    h.one q w f f' ((he q w f).1 hf) ((he q w f').1 hf')⟩
  simp only [he]
  exact h.opens q y hq

theorem isEnd_update_of_ne {g q : ℕ} {w : Bool} (hg : g ≠ f) (v : File) : IsEnd (update F f v) q w g ↔ IsEnd F q w g := by
  unfold IsEnd
  rw [update_of_ne hg]

theorem FileTable.setFile (h : FileTable c x F Q P) (hlt : f < NFILE) {c' : Multiset ℕ}
    (hr : v.ref = c'.count f + slots f P) (hc : ∀ g, g ≠ f → c'.count g = c.count g) (hz : v.ref = 0 → v.type = .none)
    (he : ∀ q w, (0 < v.ref ∧ v.type = .pipe ∧ v.pipe = q ∧ v.writable = w) ↔ IsEnd F q w f) :
    FileTable c' x (update F f v) Q P := by
  refine ⟨fun g => ?_, fun g hg => ?_, fun g hg => ?_, h.fdBound, h.idle, h.home, h.pipes.congr fun q w g => ?_⟩
  · by_cases hgf : g = f
    · subst hgf
      rw [update_self]
      exact hr
    · rw [update_of_ne hgf, hc g hgf]
      exact h.refs g
  · rw [update_of_ne (by omega)]
    exact h.bound g hg
  · by_cases hgf : g = f
    · subst hgf
      rw [update_self] at hg ⊢
      exact hz hg
    · rw [update_of_ne hgf] at hg ⊢
      exact h.closed g hg
  · by_cases hgf : g = f
    · subst hgf
      unfold IsEnd
      rw [update_self]
      exact he q w
    · exact isEnd_update_of_ne hgf v

/-- **filealloc** claims a file that is not used. -/
theorem tr_filealloc : Tr W (Holds sb W (Tab c x P1 P0 D) m L) filealloc fun r s =>
    r.elim (Holds sb W (Tab c x P1 P0 D) m L s) fun f =>
      (s.file f).type = .none ∧ Holds sb W (Tab (f ::ₘ c) x P1 P0 D) m L s := by
  refine .read fun s => ?_
  cases hf : (List.range NFILE).find? fun f => (s.file f).ref == 0 with
  | none => exact .pure fun s h => h.2
  | some f =>
    have hlt := List.mem_range.1 (List.mem_of_find?_eq_some hf)
    have hzero : (s.file f).ref = 0 := by simpa using List.find?_some hf
    refine .bind (Q := fun _ s => (s.file f).type = .none ∧ Holds sb W (Tab (f ::ₘ c) x P1 P0 D) m L s)
      (.update ?_) fun _ => .pure fun _ => id
    rintro s' ⟨rfl, hcore, hft, hP, hD⟩
    have htype := hft.closed f hzero
    have hr := hft.refs f
    dsimp only
    rw [update_self]
    refine ⟨htype, hcore.setTables (fun _ => rfl) fun k => ?_, hft.setFile hlt ?_ (fun g hg =>
      count_cons_of_ne hg c) (fun h => absurd h (by simp)) fun q w => ?_, hP, hD⟩
    · rw [fileRefs_same hlt (by simp [htype])]
    · rw [count_cons_self]
      dsimp only
      omega
    · simp [IsEnd, htype]

/-- **filedup** of a file that is open. -/
theorem tr_filedup (f : ℕ) : Tr W (fun s => Holds sb W (Tab c x P1 P0 D) m L s ∧ 0 < (s.file f).ref) (filedup f) fun _ =>
    Holds sb W (Tab (f ::ₘ c) x P1 P0 D) m L := by
  refine .read fun s => ?_
  refine .extract (φ := 0 < (s.file f).ref) (fun s' h => h.1 ▸ h.2.2) fun hpos => ?_
  rw [if_neg (by omega)]
  refine .update ?_
  rintro s' ⟨rfl, ⟨hcore, hft, hP, hD⟩, -⟩
  have hlt := hft.lt hpos
  have hr := hft.refs f
  refine ⟨hcore.setTables (fun _ => rfl) fun k => ?_, hft.setFile hlt ?_ (fun g hg => count_cons_of_ne hg c)
    (fun h => absurd h (by simp)) fun q w => ?_, hP, hD⟩
  · rw [fileRefs_same hlt (by simp [hpos])]
  · rw [count_cons_self]
    dsimp only
    omega
  · simp [IsEnd, hpos]

/-! ## Closing -/

/-- the pipe after pipeclose -/
def closeEnd (y : Pipe) (w : Bool) : Pipe := if w then { y with writeopen := false } else { y with readopen := false }

theorem closeEnd_readopen (y : Pipe) (w : Bool) : (closeEnd y w).readopen = (y.readopen && w) := by
  cases w <;> simp [closeEnd]

theorem closeEnd_writeopen (y : Pipe) (w : Bool) : (closeEnd y w).writeopen = (y.writeopen && !w) := by
  cases w <;> simp [closeEnd]

theorem PipeTable.close (h : PipeTable F Q) {q : ℕ} {w : Bool} (hf : IsEnd F q w f) {y : Pipe} (hy : Q q = some y)
    (hv : v.ref = 0) : PipeTable (update F f v) (update Q q
      (if (closeEnd y w).readopen = false ∧ (closeEnd y w).writeopen = false then none else some (closeEnd y w))) := by
  have hself : ∀ q' w', ¬ IsEnd (update F f v) q' w' f := by
    intro q' w' hend
    have := hend.1
    rw [update_self, hv] at this
    exact absurd this (by omega)
  have hend : ∀ q' w' g, IsEnd (update F f v) q' w' g ↔ g ≠ f ∧ IsEnd F q' w' g := by
    intro q' w' g
    by_cases hg : g = f
    · subst hg
      exact ⟨fun h => absurd h (hself q' w'), fun h => absurd rfl h.1⟩
    · rw [isEnd_update_of_ne hg]
      exact ⟨fun h => ⟨hg, h⟩, fun h => h.2⟩
  -- the other end of q, and the ends of other pipes
  have hother : ∀ q' w', (q', w') ≠ (q, w) → ((∃ g, IsEnd (update F f v) q' w' g) ↔ ∃ g, IsEnd F q' w' g) := by
    intro q' w' hne
    refine exists_congr fun g => (hend q' w' g).trans ⟨fun h => h.2, fun h => ⟨?_, h⟩⟩
    rintro rfl
    exact hne (by rw [← h.2.2.1, ← h.2.2.2, hf.2.2.1, hf.2.2.2])
  have hgone : ¬ ∃ g, IsEnd (update F f v) q w g := by
    rintro ⟨g, hg⟩
    have hg' := (hend q w g).1 hg
    exact hg'.1 (h.one q w g f hg'.2 hf)
  obtain ⟨hread, hwrite, -⟩ := h.opens q y hy
  refine ⟨fun q' w' g hg => ?_, fun q' y' hq' => ?_, fun q' w' g g' hg hg' =>
    h.one q' w' g g' ((hend q' w' g).1 hg).2 ((hend q' w' g').1 hg').2⟩
  · by_cases hqq : q' = q
    · subst hqq
      -- a second end is open, so the page stays
      have hne : w' ≠ w := by
        rintro rfl
        exact hgone ⟨g, hg⟩
      have hg' := ((hend q' w' g).1 hg).2
      rw [update_self, if_neg]
      · exact ⟨_, rfl⟩
      · rw [closeEnd_readopen, closeEnd_writeopen]
        cases w <;> cases w' <;> simp_all
        · exact ⟨g, hg'⟩
        · exact ⟨g, hg'⟩
    · rw [update_of_ne hqq]
      exact h.alive q' w' g ((hend q' w' g).1 hg).2
  · by_cases hqq : q' = q
    · subst hqq
      rw [update_self] at hq'
      split_ifs at hq' with hboth
      obtain rfl := Option.some.inj hq'
      refine ⟨?_, ?_, ?_⟩
      · rw [closeEnd_readopen]
        cases w with
        | false => simp [hgone]
        | true =>
          rw [hother q' false (by simp), Bool.and_true]
          exact hread
      · rw [closeEnd_writeopen]
        cases w with
        | true => simp [hgone]
        | false =>
          rw [hother q' true (by simp), Bool.not_false, Bool.and_true]
          exact hwrite
      · by_contra hno
        simp only [not_or, Bool.not_eq_true] at hno
        exact hboth hno
    · rw [update_of_ne hqq] at hq'
      rw [hother q' false (by simp [hqq]), hother q' true (by simp [hqq])]
      exact h.opens q' y' hq'

/-- the last claim of a file is given up; the pipes are what they are then -/
theorem FileTable.last (h : FileTable (f ::ₘ c) x F Q P) (hlast : (F f).ref = 1) (hr : v.ref = 0) (ht : v.type = .none)
    {Q' : ℕ → Option Pipe} (hp : PipeTable (update F f v) Q') : FileTable c x (update F f v) Q' P := by
  refine ⟨fun g => ?_, fun g hg => ?_, fun g hg => ?_, h.fdBound, h.idle, h.home, hp⟩
  · have hg := h.refs g
    by_cases hgf : g = f
    · subst hgf
      rw [count_cons_self] at hg
      rw [update_self]
      omega
    · rw [count_cons_of_ne hgf] at hg
      rw [update_of_ne hgf]
      exact hg
  · by_cases hgf : g = f
    · subst hgf
      rw [update_self]
      exact hr
    · rw [update_of_ne hgf]
      exact h.bound g hg
  · by_cases hgf : g = f
    · subst hgf
      rw [update_self]
      exact ht
    · rw [update_of_ne hgf] at hg ⊢
      exact h.closed g hg

/-- **fileclose** gives up a claim; with the last one, the pipe's end is closed or the inode put. -/
theorem tr_fileclose (hD : Steady W D) (f : ℕ) : Tr W (Holds sb W (Tab (f ::ₘ c) x P1 P0 D) m L) (fileclose sb f) fun _ =>
    Holds sb W (Tab c x P1 P0 D) m L := by
  refine .read fun s => ?_
  refine .extract (φ := Holds sb W (Tab (f ::ₘ c) x P1 P0 D) m L s) (fun s' h => h.1 ▸ h.2) ?_
  rintro ⟨hcore, hft, hP, hDs⟩
  have hpos := hft.pos
  have hlt := hft.lt hpos
  have hr := hft.refs f
  rw [count_cons_self] at hr
  dsimp only
  rw [if_neg (by omega)]
  refine .ite (fun hmore => .update ?_) fun hlast => ?_
  · rintro s' ⟨rfl, -⟩
    refine ⟨hcore.setTables (fun _ => rfl) fun k => ?_, hft.setFile hlt (by dsimp only; omega)
      (fun g hg => (count_cons_of_ne hg c).symm) (fun h => absurd h (by dsimp only; omega)) fun q w => ?_, hP, hDs⟩
    · rw [fileRefs_same hlt (by simp [hpos, hmore])]
    · simp [IsEnd, hpos, hmore]
  · have hone : (s.file f).ref = 1 := by omega
    -- the pipes, if f is no end of one
    have hsame : (s.file f).type ≠ .pipe → FileTable c x (update s.file f { s.file f with ref := 0, type := .none })
        s.pipe P1 := by
      intro ht
      refine hft.last hone rfl rfl (hft.pipes.congr fun q w g => ?_)
      by_cases hgf : g = f
      · subst hgf
        simp [IsEnd, ht]
      · exact isEnd_update_of_ne hgf _
    cases ht : (s.file f).type with
    | none =>
      refine .bind (Q := fun _ => Holds sb W (Tab c x P1 P0 D) m L) (.update ?_) fun _ => .pure fun _ => id
      rintro s' ⟨rfl, -⟩
      refine ⟨hcore.setTables (fun _ => rfl) fun k => ?_, hsame (by simp [ht]), hP, hDs⟩
      rw [fileRefs_same hlt (by simp [ht])]
    | pipe =>
      have hend : IsEnd s.file (s.file f).pipe (s.file f).writable f := ⟨hpos, ht, rfl, rfl⟩
      obtain ⟨y, hy⟩ := hft.pipes.alive _ _ _ hend
      rintro s' ⟨rfl, -⟩
      have hclose : pipeclose (s'.file f).pipe (s'.file f).writable
          { s' with file := update s'.file f { s'.file f with ref := 0, type := .none } } =
          .ok ((), { s' with
            file := update s'.file f { s'.file f with ref := 0, type := .none },
            pipe := update s'.pipe (s'.file f).pipe
              (if (closeEnd y (s'.file f).writable).readopen = false ∧ (closeEnd y (s'.file f).writable).writeopen =
                false then none
                else some (closeEnd y (s'.file f).writable)) }) := by
        show Except.ok ((), _) = _
        dsimp only
        rw [hy]
        rfl
      show Ends _ _ (pipeclose _ _ _)
      rw [hclose]
      refine ⟨hcore.setTables (fun _ => rfl) fun k => ?_, hft.last hone rfl rfl (hft.pipes.close hend hy rfl), hP, hDs⟩
      rw [fileRefs_same hlt (by simp [ht])]
    | inode =>
      refine .bind (Q := fun _ => Holds sb W (Tab c x P1 P0 D) ((s.file f).ip ::ₘ m) L) (.update ?_) fun _ =>
        tr_beginOp.bind fun _ => (tr_iput hD.tab tab_kept).bind fun _ => tr_endOp
      rintro s' ⟨rfl, -⟩
      refine ⟨hcore.setTables (fun _ => rfl) fun k => ?_, hsame (by simp [ht]), hP, hDs⟩
      have hcount := fileRefs_update hlt k s'.file { s'.file f with ref := 0, type := .none }
      by_cases hk : (s'.file f).ip = k
      · subst hk
        rw [if_pos ⟨hpos, ht, rfl⟩, if_neg (by simp)] at hcount
        rw [count_cons_self]
        dsimp only at hcount ⊢
        omega
      · rw [if_neg (by simp [hk]), if_neg (by simp)] at hcount
        rw [count_cons_of_ne (Ne.symm hk)]
        dsimp only at hcount ⊢
        omega

/-! ## Descriptors -/

/-- descriptor fd of process p is o -/
def setOfile (P : ℕ → Proc) (p fd : ℕ) (o : Option ℕ) : ℕ → Proc :=
  update P p { P p with ofile := update (P p).ofile fd o }

theorem setOfile_ofile (P : ℕ → Proc) (p fd : ℕ) (o : Option ℕ) (q : ℕ) :
    (setOfile P p fd o q).ofile = if q = p then update (P p).ofile fd o else (P q).ofile := by
  unfold setOfile
  split_ifs with h
  · subst h
    rw [update_self]
  · rw [update_of_ne h]

theorem setOfile_cwd (P : ℕ → Proc) (p fd : ℕ) (o : Option ℕ) (q : ℕ) : (setOfile P p fd o q).cwd = (P q).cwd :=
  apply_update_same Proc.cwd (by rfl) q

theorem setOfile_state (P : ℕ → Proc) (p fd : ℕ) (o : Option ℕ) (q : ℕ) : (setOfile P p fd o q).state = (P q).state :=
  apply_update_same Proc.state (by rfl) q

theorem setOfile_back (P : ℕ → Proc) {p : ℕ} (h : (P p).ofile fd = none) (o : Option ℕ) :
    setOfile (setOfile P p fd o) p fd none = P := by
  unfold setOfile
  rw [update_idem, update_self]
  dsimp only
  rw [update_idem, ← h, update_eq_self, update_eq_self]

theorem slots_setOfile {p : ℕ} (hp : p < NPROC) (hfd : fd < NOFILE) (P : ℕ → Proc) (o : Option ℕ) (g : ℕ) :
    slots g (setOfile P p fd o) + (if (P p).ofile fd = some g then 1 else 0) = slots g P + (if o = some g then 1 else 0) := by
  have h1 := census_update (g := fds g) (F := P) hp { P p with ofile := update (P p).ofile fd o }
  have h2 := census_update (g := fun o => if o = some g then 1 else 0) (F := (P p).ofile) hfd o
  have h3 : fds g { P p with ofile := update (P p).ofile fd o } =
    census NOFILE (fun o => if o = some g then 1 else 0) (update (P p).ofile fd o) := rfl
  have h4 : fds g (P p) = census NOFILE (fun o => if o = some g then 1 else 0) (P p).ofile := rfl
  unfold slots setOfile
  omega

theorem FileTable.setOfile (h : FileTable c x F Q P) {p : ℕ} (hp : p < NPROC) (hfd : fd < NOFILE) {o : Option ℕ}
    (hu : o = none ∨ (P p).state = .used ∨ some p = x) {c' : Multiset ℕ}
    (hc : ∀ g, c'.count g + (if o = some g then 1 else 0) = c.count g + (if (P p).ofile fd = some g then 1 else 0)) :
    FileTable c' x F Q (setOfile P p fd o) := by
  refine ⟨fun g => ?_, h.bound, h.closed, fun q fd' hfd' => ?_, fun q hq => ?_, fun q hq => ?_, h.pipes⟩
  · have h1 := slots_setOfile hp hfd P o g
    have h2 := hc g
    have h3 := h.refs g
    omega
  · rw [setOfile_ofile]
    split_ifs with hqp
    · rw [update_of_ne (by omega)]
      exact h.fdBound p fd' hfd'
    · exact h.fdBound q fd' hfd'
  · rw [setOfile_state] at hq
    rw [setOfile_cwd, setOfile_ofile]
    refine ⟨fun hx fd' => ?_, (h.idle q hq).2⟩
    split_ifs with hqp
    · subst hqp
      rcases hu with rfl | hused | hex
      · by_cases hff : fd' = fd
        · subst hff
          rw [update_self]
        · rw [update_of_ne hff]
          exact (h.idle q hq).1 hx fd'
      · exact absurd hused hq
      · exact absurd hex hx
    · exact (h.idle q hq).1 hx fd'
  · rw [setOfile_state] at hq
    rw [setOfile_cwd]
    exact h.home q hq

theorem FileTable.give (h : FileTable (f ::ₘ c) x F Q P) {p : ℕ} (hp : p < NPROC) (hfd : fd < NOFILE)
    (hu : (P p).state = .used ∨ some p = x) (hn : (P p).ofile fd = none) :
    FileTable c x F Q (Files.setOfile P p fd (some f)) := by
  refine h.setOfile hp hfd (.inr hu) fun g => ?_
  rw [hn, if_neg (show ¬ (none : Option ℕ) = some g by simp)]
  by_cases hg : g = f
  · subst hg
    rw [count_cons_self, if_pos rfl]
  · rw [count_cons_of_ne hg, if_neg (by simpa using Ne.symm hg)]

theorem FileTable.take (h : FileTable c x F Q P) {p : ℕ} (hp : p < NPROC) (hf : (P p).ofile fd = some f) :
    FileTable (f ::ₘ c) x F Q (Files.setOfile P p fd none) := by
  have hfd : fd < NOFILE := by
    by_contra hge
    rw [h.fdBound p fd (by omega)] at hf
    exact absurd hf (by simp)
  refine h.setOfile hp hfd (.inl rfl) fun g => ?_
  rw [hf, if_neg (show ¬ (none : Option ℕ) = some g by simp)]
  by_cases hg : g = f
  · subst hg
    rw [count_cons_self, if_pos rfl]
  · rw [count_cons_of_ne hg, if_neg (by simpa using Ne.symm hg)]

theorem Core.setProc {I : ℕ → Option ℕ} (h : Core sb W I m L s) (hI : ∀ k, I k = none) {P : ℕ → Proc}
    (hP : ∀ p, (P p).cwd = (s.proc p).cwd) : Core sb W I m L { s with proc := P } :=
  h.setTables hI fun k => by rw [cwdRefs_congr hP]

theorem tr_fdalloc_run (p f : ℕ) (s0 : Kern) : Tr W (fun s => s = s0) (fdalloc p f) fun r s =>
    r.elim (s = s0) fun fd => fd < NOFILE ∧ (s0.proc p).ofile fd = none ∧ s =
      { s0 with proc := setOfile s0.proc p fd (some f) } := by
  rintro s rfl
  unfold fdalloc
  rw [run_bind (show (get : K Kern) s = .ok (s, s) from rfl)]
  cases hf : (List.range NOFILE).find? fun fd => ((s.proc p).ofile fd).isNone with
  | none => exact rfl
  | some fd =>
    have hnone : (s.proc p).ofile fd = none := by simpa using List.find?_some hf
    exact ⟨List.mem_range.1 (List.mem_of_find?_eq_some hf), hnone, rfl⟩

/-- **fdalloc** makes a descriptor of the claim, or leaves it. -/
theorem tr_fdalloc {p : ℕ} (hu : (P0 p).state = .used) (hp : p < NPROC) :
    Tr W (Holds sb W (Tab (f ::ₘ c) none P0 P0 D) m L) (fdalloc p f) fun r s =>
      r.elim (Holds sb W (Tab (f ::ₘ c) none P0 P0 D) m L s) fun fd => (P0 p).ofile fd = none ∧
        Holds sb W (Tab c none (setOfile P0 p fd (some f)) (setOfile P0 p fd (some f)) D) m L s := by
  rintro s0 ⟨hcore, hft, rfl, hD⟩
  refine (tr_fdalloc_run p f s0 s0 rfl).mono fun r hr => ?_
  obtain ⟨r, s⟩ := r
  cases r with
  | none =>
    obtain rfl : s = s0 := hr
    exact ⟨hcore, hft, rfl, hD⟩
  | some fd =>
    obtain ⟨hlt, hnone, rfl⟩ := hr
    exact ⟨hnone, hcore.setProc (fun _ => rfl) (setOfile_cwd _ _ _ _), hft.give hp hlt (.inl hu) hnone, rfl, hD⟩

theorem tr_fdalloc_file {R : (ℕ → File) → Prop} (p f : ℕ) : Tr W (fun s => R s.file) (fdalloc p f) fun _ s => R s.file := by
  intro s0 h
  refine (tr_fdalloc_run p f s0 s0 rfl).mono fun r hr => ?_
  obtain ⟨r, s⟩ := r
  cases r with
  | none =>
    obtain rfl : s = s0 := hr
    exact h
  | some fd =>
    obtain ⟨-, -, rfl⟩ := hr
    exact h

theorem tr_argfd {α : Type} {p : ℕ} {fd : ℤ} {f : Option ℕ → K α} {R : α → Kern → Prop}
    (hn : Tr W (Holds sb W (Tab c none P0 P0 D) m L) (f none) R)
    (hs : ∀ g, (P0 p).ofile fd.toNat = some g → Tr W (Holds sb W (Tab c none P0 P0 D) m L) (f (some g)) R) :
    Tr W (Holds sb W (Tab c none P0 P0 D) m L) (argfd p fd >>= f) R := by
  intro s h
  show Ends _ _ (f (if fd < 0 ∨ fd ≥ NOFILE then none else (s.proc p).ofile fd.toNat) s)
  split_ifs
  · exact hn s h
  · cases hf : (s.proc p).ofile fd.toNat with
    | none => exact hn s h
    | some g => exact hs g (h.2.2.1 ▸ hf) s h

/-! ## Calls -/

/-- between calls -/
def Settled (sb : Superblock) (W : Prop) (s : Kern) : Prop := Idle sb W s.proc Any 0 ∅ s

theorem Holds.settled (h : Idle sb W P0 D 0 ∅ s) : Settled sb W s := by
  have hP := h.2.2.1
  exact ⟨h.1, hP ▸ h.2.1, rfl, trivial⟩

/-- after a call that returns r: a failure leaves the descriptors alone, and what D says of the disk -/
def Out (sb : Superblock) (W : Prop) (P0 : ℕ → Proc) (D : Store → (ℕ → Dinode) → Prop) (r : ℤ) (s : Kern) : Prop :=
  Settled sb W s ∧ (r = -1 → Idle sb W P0 D 0 ∅ s)

theorem Holds.out (h : Idle sb W P0 D 0 ∅ s) (r : ℤ) : Out sb W P0 D r s := ⟨h.settled, fun _ => h⟩

theorem Out.of_ne (h : Settled sb W s) {r : ℤ} (hr : r ≠ -1) : Out sb W P0 D r s := ⟨h, fun h' => absurd h' hr⟩

theorem After.out {r : ℤ} (h : After sb W (Tab 0 none P0 P0 D) 0 ∅ r s) : Out sb W P0 D r s := by
  refine ⟨?_, h.2⟩
  obtain ⟨hcore, B, T, hft, rfl, -⟩ := h.1
  exact ⟨hcore, hft, rfl, trivial⟩

/-- a process that makes a call -/
structure Runs (P : ℕ → Proc) (p : ℕ) : Prop where
  used : (P p).state = .used
  lt : p < NPROC
  cwd : ∃ k, (P p).cwd = some k

theorem Runs.home (h : Runs P0 p) : (Tab c x P1 P0 D).Home p := by
  rintro B T F Q P ⟨-, rfl, -⟩
  exact ⟨h.lt, h.cwd⟩

theorem Settled.runs (h : Settled sb W s) {p : ℕ} (hp : (s.proc p).state = .used) : Runs s.proc p :=
  ⟨hp, (h.2.1.home p hp).1, (h.2.1.home p hp).2⟩

section Dup

variable {p : ℕ} (hp : Runs P0 p)
include hp

theorem tr_sysDup (fd : ℤ) : Tr W (Idle sb W P0 Any 0 ∅) (sysDup p fd) fun _ => Settled sb W := by
  refine tr_argfd (.pure fun _ h => h.settled) fun f hf => ?_
  rintro s ⟨hcore, hft, rfl, -⟩
  have hpos := hft.open_pos hp.lt hf
  -- counting first and storing then gives the same state
  have hrun : ∀ t : Kern, 0 < (t.file f).ref → filedup f t =
      .ok ((), { t with file := update t.file f { t.file f with ref := (t.file f).ref + 1 } }) := by
    intro t ht
    show (if (t.file f).ref < 1 then throw Panic.filedup else Files.setFile f _ : K Unit) t = _
    rw [if_neg (by omega)]
    rfl
  have hdup : Ends (Err W) (fun r => Holds sb W (Tab (f ::ₘ 0) none s.proc s.proc Any) 0 ∅ r.2) (filedup f s) :=
    tr_filedup f s ⟨⟨hcore, hft, rfl, trivial⟩, hpos⟩
  rw [hrun s hpos] at hdup
  show Ends _ _ ((fdalloc p f >>= _) s)
  refine Triple.bind (R := fun _ => Settled sb W) (tr_fdalloc_run (W := W) p f s) (fun r => ?_) s rfl
  cases r with
  | none =>
    refine .pure ?_
    rintro s' rfl
    have hidle : Idle sb W s'.proc Any 0 ∅ s' := ⟨hcore, hft, rfl, trivial⟩
    exact hidle.settled
  | some fd' =>
    rintro s' ⟨hlt, hnone, rfl⟩
    show Ends _ _ (filedup f { s with proc := setOfile s.proc p fd' (some f) } >>= fun r => Except.ok ((fd' : ℤ), r.2))
    rw [hrun { s with proc := setOfile s.proc p fd' (some f) } hpos]
    have hidle : Idle sb W (setOfile s.proc p fd' (some f)) Any 0 ∅ _ :=
      ⟨hdup.1.setProc (fun _ => rfl) (setOfile_cwd _ _ _ _), hdup.2.1.give hp.lt hlt (.inl hp.used) hnone, rfl, trivial⟩
    exact hidle.settled

theorem tr_sysClose (fd : ℤ) : Tr W (Idle sb W P0 Any 0 ∅) (sysClose sb p fd) fun _ => Settled sb W := by
  refine tr_argfd (.pure fun _ h => h.settled) fun f hf => ?_
  refine .bind (Q := fun _ => Holds sb W (Tab (f ::ₘ 0) none (setOfile P0 p fd.toNat none)
    (setOfile P0 p fd.toNat none) Any) 0 ∅) (.update ?_) fun _ =>
    (tr_fileclose any_steady f).bind fun _ => .pure fun _ h => h.settled
  rintro s ⟨hcore, hft, rfl, -⟩
  exact ⟨hcore.setProc (fun _ => rfl) (setOfile_cwd _ _ _ _), hft.take hp.lt hf, rfl, trivial⟩

end Dup

/-! ## read and write -/

theorem Holds.setOff (h : Holds sb W (Tab c x P1 P0 D) m L s) (hf : f < NFILE) (o : ℕ) :
    Holds sb W (Tab c x P1 P0 D) m L { s with file := update s.file f { s.file f with off := o } } := by
  refine ⟨h.1.setTables (fun _ => rfl) fun k => ?_, h.2.1.setFile hf (h.2.1.refs f) (fun _ _ => rfl) (h.2.1.closed f)
    fun q w => Iff.rfl, h.2.2⟩
  rw [fileRefs_same (v := { s.file f with off := o }) hf Iff.rfl]

theorem tr_fileread (hf : f < NFILE) {n : ℕ} (hn : n < 2 ^ 32) :
    Tr W (Holds sb W (Tab c x P1 P0 Any) m L) (fileread sb f n) fun _ => Holds sb W (Tab c x P1 P0 Any) m L := by
  refine .read fun s => ?_
  refine .ite (fun _ => .pure fun _ h => h.2) fun _ => ?_
  cases ht : (s.file f).type with
  | none => exact tr_throw (err_other ⟨nofun, nofun, nofun, nofun⟩)
  | pipe => exact .pure fun _ h => h.2
  | inode =>
    -- while the inode is read, the file stays as it is
    let G : Frame := ⟨fun B T F Q P => (Tab c x P1 P0 Any).cond B T F Q P ∧ F f = s.file f, fun _ => none⟩
    have hfree : G.Free := fun _ _ _ _ _ _ _ h => ⟨⟨h.1.1, h.1.2.1, trivial⟩, h.2⟩
    refine .conseq (P := Holds sb W G m L) (Q := fun _ => Holds sb W (Tab c x P1 P0 Any) m L) ?_ ?_ fun _ _ => id
    · refine tr_lock fun hip => .bind (tr_readi (.inl hfree) (Finset.mem_insert_self _ _) _ hn) fun r => ?_
      cases r with
      | none => exact (tr_unlock hip).bind fun _ => .pure fun _ h => ⟨h.1, h.2.1⟩
      | some l =>
        refine .bind (Q := fun _ => Holds sb W (Tab c x P1 P0 Any) m (insert (s.file f).ip L)) (.update ?_)
          fun _ => (tr_unlock hip).bind fun _ => .pure fun _ => id
        rintro s' ⟨hcore, hc, hfile⟩
        have hoff := Holds.setOff ⟨hcore, hc⟩ hf ((s.file f).off + l.length)
        dsimp only at hoff
        rw [hfile, ht] at hoff
        exact hoff
    · rintro s' ⟨rfl, h⟩
      exact ⟨h.1, h.2, rfl⟩

theorem tr_writeRounds (hf : f < NFILE) (ip : ℕ) (l : List (List Byte)) (hl : ∀ src ∈ l, src.length < 2 ^ 32) :
    Tr W (Holds sb W (Tab c x P1 P0 Any) m L) (writeRounds sb f ip l) fun _ => Holds sb W (Tab c x P1 P0 Any) m L := by
  induction l with
  | nil => exact .pure fun _ => id
  | cons src rest ih =>
    have hfree : (Tab c x P1 P0 Any).Free := fun _ _ _ _ _ _ _ h => ⟨h.1, h.2.1, trivial⟩
    refine tr_beginOp.bind fun _ => tr_lock fun hip => .read fun s => ?_
    refine .bind (.conseq (tr_writei hfree (Finset.mem_insert_self _ _) _ (hl src (List.mem_cons_self ..)))
      (fun _ h => h.2) fun _ _ => id) fun r => ?_
    refine .bind (Q := fun _ => Holds sb W (Tab c x P1 P0 Any) m (insert ip L)) (.update fun s h =>
      h.setOff hf _) fun _ => (tr_unlock hip).bind fun _ => tr_endOp.bind fun _ => ?_
    cases r with
    | none => exact .pure fun _ => id
    | some n =>
      exact .ite (fun _ => tr_throw (err_other ⟨nofun, nofun, nofun, nofun⟩)) fun _ =>
        ih fun src hs => hl src (List.mem_cons_of_mem _ hs)

theorem pieces_length (fuel : ℕ) : ∀ (src : List Byte), ∀ l ∈ pieces fuel src, l.length ≤ maxWrite := by
  induction fuel with
  | zero => exact fun _ l h => absurd h (by simp [pieces])
  | succ fuel ih =>
    intro src l hl
    unfold pieces at hl
    split_ifs at hl
    · exact absurd hl (by simp)
    · rcases List.mem_cons.1 hl with rfl | hl
      · exact List.length_take_le _ _
      · exact ih _ l hl

theorem tr_filewrite (hf : f < NFILE) (src : List Byte) :
    Tr W (Holds sb W (Tab c x P1 P0 Any) m L) (filewrite sb f src) fun _ => Holds sb W (Tab c x P1 P0 Any) m L := by
  refine .read fun s => ?_
  refine .ite (fun _ => .pure fun _ h => h.2) fun _ => ?_
  cases ht : (s.file f).type with
  | none => exact tr_throw (err_other ⟨nofun, nofun, nofun, nofun⟩)
  | pipe => exact .pure fun _ h => h.2
  | inode =>
    have hlen : ∀ l ∈ pieces src.length src, l.length < 2 ^ 32 := fun l hl =>
      lt_of_le_of_lt (pieces_length _ src l hl) (by decide)
    exact (Triple.conseq (tr_writeRounds hf (s.file f).ip _ hlen) (fun _ h => h.2) fun _ _ => id).bind fun _ =>
      Triple.pure fun _ => id

theorem tr_sysRead {p : ℕ} (hp : Runs P0 p) (fd : ℤ) {n : ℕ} (hn : n < 2 ^ 32) :
    Tr W (Idle sb W P0 Any 0 ∅) (sysRead sb p fd n) fun _ => Settled sb W := by
  refine tr_argfd (.pure fun _ h => h.settled) fun f hf => ?_
  refine .extract (φ := f < NFILE) (fun s h => h.2.1.lt (h.2.1.open_pos hp.lt hf)) fun hlt => ?_
  exact (tr_fileread hlt hn).conseq (fun _ => id) fun _ _ h => h.settled

theorem tr_sysWrite {p : ℕ} (hp : Runs P0 p) (fd : ℤ) (src : List Byte) :
    Tr W (Idle sb W P0 Any 0 ∅) (sysWrite sb p fd src) fun _ => Settled sb W := by
  refine tr_argfd (.pure fun _ h => h.settled) fun f hf => ?_
  refine .extract (φ := f < NFILE) (fun s h => h.2.1.lt (h.2.1.open_pos hp.lt hf)) fun hlt => ?_
  exact (tr_filewrite hlt src).conseq (fun _ => id) fun _ _ h => h.settled

end Xv6.Files
