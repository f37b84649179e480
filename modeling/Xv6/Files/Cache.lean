/-
The inode cache: what the functions of `fs.c` keep.

`Core` is what holds of the cache and the disk while a call runs that has the references m and has locked the entries L: the
reference counts are the call's references plus those of the file table and of the current directories; no inode has two
entries; and, if the image was well formed (W), the books of the block layer are right, every file has exactly its blocks,
and every loaded copy of an inode is the inode on disk. Each function takes `Core` to `Core`, with the references and locks
it takes and gives back. It keeps the rest (G) too: the file table, the pipes and the processes, and, while it only reads, the
disk.
-/
import Xv6.Files.Discipline
import Xv6.Lib.Tally

namespace Xv6.Files

open Lib Lib.StateProg Blocks Multiset
open Sysfile (IType elems)

/-! ## The invariant -/

/-- files that refer to entry k -/
def fileRefs (k : ℕ) (F : ℕ → File) : ℕ := census NFILE (fun x => if 0 < x.ref ∧ x.type = .inode ∧ x.ip = k then 1 else 0) F

/-- current directories that refer to entry k -/
def cwdRefs (k : ℕ) (P : ℕ → Proc) : ℕ := census NPROC (fun x => if x.cwd = some k then 1 else 0) P

/-- how many blocks each inode has by its size -/
def sizes (T : ℕ → Dinode) (i : ℕ) : ℕ := nblk (T i).size

theorem sizes_update (T : ℕ → Dinode) (i : ℕ) (n : Dinode) : sizes (update T i n) = update (sizes T) i (nblk n.size) := by
  funext j
  unfold sizes
  by_cases h : j = i
  · subst h
    rw [update_self, update_self]
  · rw [update_of_ne h, update_of_ne h]

/-- the disk and the copies of inodes, for a well-formed image -/
structure Synced (sb : Superblock) (s : Kern) : Prop where
  good : Good sb s.disk.data s.dinode (sizes s.dinode)
  copy : ∀ k, 0 < (s.icache k).ref → (s.icache k).valid = true →
    (s.icache k).n = s.dinode (s.icache k).inum ∧ (s.icache k).n.type ≠ .free

structure Core (sb : Superblock) (W : Prop) (I : ℕ → Option ℕ) (m : Multiset ℕ) (L : Finset ℕ) (s : Kern) : Prop where
  bound : ∀ k, NINODE ≤ k → (s.icache k).ref = 0
  uniq : ∀ k k', 0 < (s.icache k).ref → 0 < (s.icache k').ref → (s.icache k).inum = (s.icache k').inum → k = k'
  refs : ∀ k, (s.icache k).ref = m.count k + fileRefs k s.file + cwdRefs k s.proc
  locks : ∀ k, (s.icache k).locked = true ↔ k ∈ L
  loaded : ∀ k ∈ L, (s.icache k).valid = true ∧ 0 < (s.icache k).ref
  named : ∀ k i, I k = some i → k ∈ m ∧ (s.icache k).inum = i
  disk : W → Synced sb s

/-- the errors that can occur: no panic of the file table, and none of the block layer's two on a well-formed image -/
def Err (W : Prop) (p : Panic) : Prop := NotFile p ∧ (W → p ≠ .freeingFreeBlock ∧ p ≠ .bmapOutOfRange)

/-- what a call knows besides: a condition on the blocks and inodes on disk, the file table, the pipes and the processes; and,
for some of the entries that it has a reference to, which inode they are -/
structure Frame where
  cond : Store → (ℕ → Dinode) → (ℕ → File) → (ℕ → Option Pipe) → (ℕ → Proc) → Prop
  pins : ℕ → Option ℕ

variable {sb : Superblock} {W : Prop} {G G' : Frame} {I : ℕ → Option ℕ} {m : Multiset ℕ} {L : Finset ℕ} {s : Kern}

/-- `Core`, and G of the rest -/
def Holds (sb : Superblock) (W : Prop) (G : Frame) (m : Multiset ℕ) (L : Finset ℕ) (s : Kern) : Prop :=
  Core sb W G.pins m L s ∧ G.cond s.disk.data s.dinode s.file s.pipe s.proc

/-- G says nothing of the disk -/
def Frame.Free (G : Frame) : Prop := ∀ ⦃B T B' T' F Q P⦄, G.cond B T F Q P → G.cond B' T' F Q P

/-- G says that every inode of a well-formed image has a link, so that iput frees none -/
def Frame.Linked (W : Prop) (G : Frame) : Prop :=
  W ∧ ∀ ⦃B T F Q P⦄, G.cond B T F Q P → ∀ i, (T i).type ≠ .free → (T i).nlink ≠ 0

/-- what is left of G when the disk changes -/
def Frame.Loose (G : Frame) : Frame := ⟨fun _ _ F Q P => ∃ B T, G.cond B T F Q P, G.pins⟩

/-- the entries that G names have a reference in m -/
def Frame.Kept (G : Frame) (m : Multiset ℕ) : Prop := ∀ k i, G.pins k = some i → k ∈ m

theorem Frame.Kept.cons (h : G.Kept m) (k : ℕ) : G.Kept (k ::ₘ m) := fun j i hj => mem_cons_of_mem (h j i hj)

theorem Frame.loose_free (G : Frame) : G.Loose.Free := fun _ _ _ _ _ _ _ => id

theorem Frame.Free.loose (h : G.Free) : G.Loose = G := by
  have hcond : G.Loose.cond = G.cond := by
    funext B T F Q P
    exact propext ⟨fun ⟨_, _, hG⟩ => h hG, fun hG => ⟨B, T, hG⟩⟩
  cases G
  exact congrArg (Frame.mk · _) hcond

theorem Holds.loose (h : Holds sb W G m L s) : Holds sb W G.Loose m L s := ⟨h.1, _, _, h.2⟩

abbrev Tr {α : Type} (W : Prop) (P : Kern → Prop) (x : K α) (Q : α → Kern → Prop) : Prop := Triple (Err W) P x Q

variable {k : ℕ} {n : Dinode}

theorem Core.setEntry (h : Core sb W I m L s) {x : Entry} {m' : Multiset ℕ} {L' : Finset ℕ} (hb : NINODE ≤ k → x.ref = 0)
    (hu : 0 < x.ref → ∀ k', k' ≠ k → 0 < (s.icache k').ref → (s.icache k').inum ≠ x.inum)
    (hr : x.ref = m'.count k + fileRefs k s.file + cwdRefs k s.proc) (hm : ∀ k', k' ≠ k → m'.count k' = m.count k')
    (hl : x.locked = true ↔ k ∈ L') (hL : ∀ k', k' ≠ k → (k' ∈ L' ↔ k' ∈ L)) (hload : k ∈ L' → x.valid = true ∧ 0 < x.ref)
    (hn : ∀ i, I k = some i → k ∈ m' ∧ x.inum = i)
    (hd : W → 0 < x.ref → x.valid = true → x.n = s.dinode x.inum ∧ x.n.type ≠ .free) :
    Core sb W I m' L' { s with icache := update s.icache k x } := by
  refine ⟨fun j hj => ?_, fun i j hi hj hij => ?_, fun j => ?_, fun j => ?_, fun j hj => ?_, fun j i hj => ?_,
    fun hw => ⟨(h.disk hw).good, fun j hj hv => ?_⟩⟩
  · dsimp only
    by_cases hk : j = k
    · subst hk
      rw [update_self]
      exact hb hj
    · rw [update_of_ne hk]
      exact h.bound j hj
  · dsimp only at hi hj hij
    by_cases hik : i = k <;> by_cases hjk : j = k
    · rw [hik, hjk]
    · subst hik
      rw [update_self] at hi hij
      rw [update_of_ne hjk] at hj hij
      exact absurd hij.symm (hu hi j hjk hj)
    · subst hjk
      rw [update_self] at hj hij
      rw [update_of_ne hik] at hi hij
      exact absurd hij (hu hj i hik hi)
    · rw [update_of_ne hik] at hi hij
      rw [update_of_ne hjk] at hj hij
      exact h.uniq i j hi hj hij
  · dsimp only
    by_cases hk : j = k
    · subst hk
      rw [update_self]
      exact hr
    · rw [update_of_ne hk, hm j hk]
      exact h.refs j
  · dsimp only
    by_cases hk : j = k
    · subst hk
      rw [update_self]
      exact hl
    · rw [update_of_ne hk, hL j hk]
      exact h.locks j
  · dsimp only
    by_cases hk : j = k
    · subst hk
      rw [update_self]
      exact hload hj
    · rw [update_of_ne hk]
      exact h.loaded j ((hL j hk).1 hj)
  · dsimp only
    by_cases hk : j = k
    · subst hk
      rw [update_self]
      exact hn i hj
    · rw [update_of_ne hk, ← count_pos, hm j hk, count_pos]
      exact h.named j i hj
  · dsimp only at hj hv ⊢
    by_cases hk : j = k
    · subst hk
      rw [update_self] at hj hv ⊢
      exact hd hw hj hv
    · rw [update_of_ne hk] at hj hv ⊢
      exact (h.disk hw).copy j hj hv

/-- inode and copy change together; v: whether the copy stays valid -/
theorem Core.rewrite (h : Core sb W I m L s) (hk : 0 < (s.icache k).ref) {d : Dev} {v : Bool}
    (hv : k ∈ L → v = true)
    (hgood : W → Good sb d.data (update s.dinode (s.icache k).inum n)
      (sizes (update s.dinode (s.icache k).inum n)))
    (htype : W → v = true → n.type ≠ .free) :
    Core sb W I m L { s with
      disk := d, dinode := update s.dinode (s.icache k).inum n,
      icache := update s.icache k { s.icache k with n := n, valid := v } } := by
  have hentry : ∀ j, (update s.icache k { s.icache k with n := n, valid := v } j).ref = (s.icache j).ref ∧
      (update s.icache k { s.icache k with n := n, valid := v } j).inum = (s.icache j).inum ∧
      (update s.icache k { s.icache k with n := n, valid := v } j).locked = (s.icache j).locked := fun j =>
    ⟨apply_update_same Entry.ref (by rfl) j, apply_update_same Entry.inum (by rfl) j, apply_update_same Entry.locked (by rfl) j⟩
  refine ⟨fun j hj => ?_, fun i j hi hj hij => ?_, fun j => ?_, fun j => ?_, fun j hj => ⟨?_, ?_⟩, fun j i hj => ?_,
    fun hw => ⟨hgood hw, fun j hj hval => ?_⟩⟩
  · rw [(hentry j).1]
    exact h.bound j hj
  · dsimp only at hi hj hij
    rw [(hentry i).1] at hi
    rw [(hentry j).1] at hj
    rw [(hentry i).2.1, (hentry j).2.1] at hij
    exact h.uniq i j hi hj hij
  · rw [(hentry j).1]
    exact h.refs j
  · rw [(hentry j).2.2]
    exact h.locks j
  · dsimp only
    by_cases hjk : j = k
    · subst hjk
      rw [update_self]
      exact hv hj
    · rw [update_of_ne hjk]
      exact (h.loaded j hj).1
  · rw [(hentry j).1]
    exact (h.loaded j hj).2
  · rw [(hentry j).2.1]
    exact h.named j i hj
  · dsimp only at hj hval ⊢
    rw [(hentry j).1] at hj
    by_cases hjk : j = k
    · subst hjk
      rw [update_self] at hval ⊢
      dsimp only at hval ⊢
      rw [update_self]
      exact ⟨rfl, htype hw hval⟩
    · rw [update_of_ne hjk] at hval ⊢
      have hne : (s.icache j).inum ≠ (s.icache k).inum := fun heq => hjk (h.uniq j k hj hk heq)
      rw [update_of_ne hne]
      exact (h.disk hw).copy j hj hval

theorem Core.record (h : Core sb W I m L s) (e : LogEv) :
    Core sb W I m L { s with disk := { s.disk with trace := e :: s.disk.trace } } :=
  ⟨h.bound, h.uniq, h.refs, h.locks, h.loaded, h.named, fun hw => ⟨(h.disk hw).good, (h.disk hw).copy⟩⟩

theorem tr_record (e : LogEv) : Tr W (Holds sb W G m L) (record e) fun _ => Holds sb W G m L :=
  .update fun _ h => ⟨h.1.record e, h.2⟩

theorem tr_beginOp : Tr W (Holds sb W G m L) beginOp fun _ => Holds sb W G m L := tr_record _

theorem tr_endOp : Tr W (Holds sb W G m L) endOp fun _ => Holds sb W G m L := tr_record _

theorem tr_throw {α : Type} {P : Kern → Prop} {Q : α → Kern → Prop} {p : Panic} (h : Err W p) :
    Tr W P (throw p : K α) Q := .throw fun _ _ => h

theorem tr_entry {α : Type} {P : Kern → Prop} {f : Entry → K α} {Q : α → Kern → Prop}
    (h : ∀ s, Tr W (fun s' => s' = s ∧ P s') (f (s.icache k)) Q) : Tr W P (entry k >>= f) Q := fun s hs => h s s ⟨rfl, hs⟩

theorem tr_iget (inum : ℕ) : Tr W (Holds sb W G m L) (iget inum) fun k => Holds sb W G (k ::ₘ m) L := by
  refine .read fun s => ?_
  cases hf : (List.range NINODE).find? fun k => decide (0 < (s.icache k).ref) && (s.icache k).inum == inum with
  | some k =>
    have hlt := List.mem_range.1 (List.mem_of_find?_eq_some hf)
    have hp := List.find?_some hf
    simp only [Bool.and_eq_true, decide_eq_true_eq, beq_iff_eq] at hp
    dsimp only
    refine .bind (Q := fun _ => Holds sb W G (k ::ₘ m) L) (.update ?_) fun _ => .pure fun _ h => h
    rintro s' ⟨rfl, h⟩
    have hr := h.1.refs k
    refine ⟨h.1.setEntry (fun hk => absurd hk (by omega)) (fun _ k' hk' hk0 heq => hk' (h.1.uniq k' k hk0 hp.1 heq)) ?_
      (fun k' hk' => count_cons_of_ne hk' m) (h.1.locks k) (fun _ _ => Iff.rfl)
      (fun hk => ⟨(h.1.loaded k hk).1, Nat.succ_pos _⟩) (fun i hi => ⟨mem_cons_self k m, (h.1.named k i hi).2⟩)
      (fun hw _ hv => (h.1.disk hw).copy k hp.1 hv), h.2⟩
    rw [count_cons_self]
    dsimp only
    omega
  | none =>
    dsimp only
    cases hz : (List.range NINODE).find? fun k => (s.icache k).ref == 0 with
    | none => exact tr_throw ⟨⟨nofun, nofun⟩, fun _ => ⟨nofun, nofun⟩⟩
    | some k =>
      have hlt := List.mem_range.1 (List.mem_of_find?_eq_some hz)
      have hzero : (s.icache k).ref = 0 := by simpa using List.find?_some hz
      dsimp only
      refine .bind (Q := fun _ => Holds sb W G (k ::ₘ m) L) (.update ?_) fun _ => .pure fun _ h => h
      rintro s' ⟨rfl, h⟩
      have hr := h.1.refs k
      have hL : k ∉ L := fun hk => by
        have := (h.1.loaded k hk).2
        omega
      refine ⟨h.1.setEntry (fun hk => absurd hk (by omega)) (fun _ k' _ hk0 heq => ?_) ?_
        (fun k' hk' => count_cons_of_ne hk' m) (h.1.locks k) (fun _ _ => Iff.rfl) (fun hk => absurd hk hL)
        (fun i hi => ?_) (fun _ _ hv => absurd hv (by simp)), h.2⟩
      · rw [List.find?_eq_none] at hf
        have hlt' : k' < NINODE := by
          by_contra hge
          have := h.1.bound k' (by omega)
          omega
        exact hf k' (List.mem_range.2 hlt') (by simp [hk0, heq])
      · rw [count_cons_self]
        dsimp only
        omega
      · -- an entry without references is not one that the call knows
        have := count_pos.2 (h.1.named k i hi).1
        omega

theorem tr_idup (k : ℕ) : Tr W (fun s => Holds sb W G m L s ∧ 0 < (s.icache k).ref) (idup k)
    fun _ => Holds sb W G (k ::ₘ m) L := by
  refine tr_entry fun s => .update ?_
  rintro s' ⟨rfl, h, hpos⟩
  have hr := h.1.refs k
  refine ⟨h.1.setEntry (fun hk => ?_) (fun _ k' hk' hk0 heq => hk' (h.1.uniq k' k hk0 hpos heq)) ?_
    (fun k' hk' => count_cons_of_ne hk' m) (h.1.locks k) (fun _ _ => Iff.rfl)
    (fun hk => ⟨(h.1.loaded k hk).1, Nat.succ_pos _⟩) (fun i hi => ⟨mem_cons_self k m, (h.1.named k i hi).2⟩)
    (fun hw _ hv => (h.1.disk hw).copy k hpos hv), h.2⟩
  · have := h.1.bound k hk
    omega
  · rw [count_cons_self]
    dsimp only
    omega

theorem tr_ilock (k : ℕ) : Tr W (Holds sb W G m L) (ilock k) fun _ s => k ∉ L ∧ Holds sb W G m (insert k L) s := by
  refine .read fun s => ?_
  have herr : ∀ {p : Panic}, p = .ilock ∨ p = .hang ∨ p = .ilockNoType → Err W p := by
    rintro p (rfl | rfl | rfl) <;> exact ⟨⟨nofun, nofun⟩, fun _ => ⟨nofun, nofun⟩⟩
  refine .ite (fun _ => tr_throw (herr (.inl rfl))) fun href => ?_
  refine .ite (fun _ => tr_throw (herr (.inr (.inl rfl)))) fun hlock => ?_
  have hkey : ∀ (v : Bool) (n : Dinode), Holds sb W G m L s →
      (W → n = s.dinode (s.icache k).inum ∧ n.type ≠ .free) → v = true →
      k ∉ L ∧ Holds sb W G m (insert k L)
        { s with icache := update s.icache k { s.icache k with locked := true, valid := v, n := n } } := by
    intro v n h hn hv
    have hL : k ∉ L := fun hk => hlock ((h.1.locks k).2 hk)
    refine ⟨hL, h.1.setEntry (fun hk => h.1.bound k hk) (fun hpos k' hk' hk0 heq => hk' (h.1.uniq k' k hk0 hpos heq))
      (h.1.refs k) (fun _ _ => rfl) (by simp) (fun k' hk' => by simp [hk']) (fun _ => ⟨hv, by dsimp only; omega⟩)
      (fun i hi => h.1.named k i hi) (fun hw _ _ => hn hw), h.2⟩
  refine .ite (fun hv => .update ?_) fun hv => .ite (fun _ => tr_throw (herr (.inr (.inr rfl)))) fun ht =>
    .update ?_
  · rintro s' ⟨rfl, h⟩
    exact hkey (s'.icache k).valid (s'.icache k).n h (fun hw => (h.1.disk hw).copy k (by omega) hv) hv
  · rintro s' ⟨rfl, h⟩
    exact hkey true (s'.dinode (s'.icache k).inum) h (fun _ => ⟨rfl, ht⟩) rfl

theorem tr_iunlock (k : ℕ) : Tr W (Holds sb W G m L) (iunlock k) fun _ => Holds sb W G m (L.erase k) := by
  refine tr_entry fun s => .ite (fun _ => tr_throw ⟨⟨nofun, nofun⟩, fun _ => ⟨nofun, nofun⟩⟩) fun _ => .update ?_
  rintro s' ⟨rfl, h⟩
  exact ⟨h.1.setEntry (fun hk => h.1.bound k hk) (fun hpos k' hk' hk0 heq => hk' (h.1.uniq k' k hk0 hpos heq))
    (h.1.refs k) (fun _ _ => rfl) (by simp) (fun k' hk' => by simp [hk']) (fun hk => absurd hk (Finset.notMem_erase k L))
    (fun i hi => h.1.named k i hi) (fun hw hpos hv => (h.1.disk hw).copy k hpos hv), h.2⟩

theorem Holds.withInput (h : Holds sb W G m L s) (l : List (Option (List Byte))) : Holds sb W G m L { s with input := l } :=
  ⟨⟨h.1.bound, h.1.uniq, h.1.refs, h.1.locks, h.1.loaded, h.1.named, fun hw => ⟨(h.1.disk hw).good, (h.1.disk hw).copy⟩⟩, h.2⟩

theorem tr_relock (hk : k ∈ L) : Tr W (Holds sb W G m (L.erase k)) (ilock k) fun _ => Holds sb W G m L :=
  (tr_ilock k).conseq (fun _ => id) fun _ _ h => Finset.insert_erase hk ▸ h.2

theorem tr_consoleread (hk : k ∈ L) (n : ℕ) : Tr W (Holds sb W G m L) (consoleread k n) fun _ => Holds sb W G m L := by
  refine .bind (tr_iunlock k) fun _ => .read fun s => .bind (Q := fun _ => Holds sb W G m (L.erase k)) ?_ fun _ => ?_
  · exact .update fun s' h => h.2.withInput _
  · exact .bind (tr_relock hk) fun _ => .pure fun _ => id

theorem tr_consolewrite (hk : k ∈ L) (src : List Byte) :
    Tr W (Holds sb W G m L) (consolewrite k src) fun _ => Holds sb W G m L :=
  .bind (tr_iunlock k) fun _ => .bind (tr_relock hk) fun _ => .pure fun _ => id

/-! ## The block layer on a loaded inode -/

/-- a function of the block layer on the inode of entry k: R is what it does on a well-formed image -/
theorem tr_onInode {α : Type} {f : Dev → Dinode → Except Panic (Dev × Dinode × α)}
    (hf : ∀ d n, Ends NotFile (fun _ => True) (f d n)) {s0 : Kern} {R : Dev → Dinode → α → Prop}
    (hR : W → Safe (fun r => R r.1 r.2.1 r.2.2) (f s0.disk (s0.icache k).n)) :
    Tr W (fun s => s = s0) (onInode k f) fun a s => ∃ d n, (W → R d n a) ∧ s =
      { s0 with disk := d, icache := update s0.icache k { s0.icache k with n := n } } := by
  rintro s rfl
  have h1 := hf s.disk (s.icache k).n
  unfold onInode
  cases hr : f s.disk (s.icache k).n with
  | error e =>
    rw [hr] at h1
    refine ⟨h1, fun hw => ?_⟩
    have h2 := hR hw
    rw [hr] at h2
    exact ⟨h2.1, h2.2.1⟩
  | ok r =>
    obtain ⟨d, n, a⟩ := r
    refine ⟨d, n, fun hw => ?_, rfl⟩
    have h2 := hR hw
    rw [hr] at h2
    exact h2

/-- the size, the links and the device numbers of an inode have no part in the books -/
theorem good_setFields {B : Store} {T : ℕ → Dinode} {e : ℕ → ℕ} {i : ℕ} {n' : Dinode} (h : Good sb B (update T i n) e)
    (ht : n'.type = n.type) (ha : n'.addrs = n.addrs) : Good sb B (update T i n') e := by
  have hslot : ∀ sl, n'.slot B sl = n.slot B sl := by
    intro sl
    cases sl with
    | addr k =>
      show n'.addrs k = n.addrs k
      rw [ha]
    | entry j =>
      show n'.entry B j = n.entry B j
      unfold Dinode.entry
      rw [ha]
  refine ⟨h.books.congr (fun _ _ => rfl) fun ⟨j, sl⟩ => ?_, fun j hj => ?_⟩
  · by_cases hji : j = i
    · subst hji
      unfold refs
      dsimp only
      rw [update_self, update_self, ht, hslot]
    · unfold refs
      dsimp only
      rw [update_of_ne hji, update_of_ne hji]
  · by_cases hji : j = i
    · subst hji
      rw [update_self] at hj ⊢
      have hheld := h.held j (by rw [update_self, ← ht]; exact hj)
      rw [update_self] at hheld
      exact ⟨hheld.le, by rw [ha]; exact hheld.direct, by rw [ha]; exact hheld.last, fun k => by
        rw [show n'.entry B k = n.entry B k from hslot (.entry k)]
        exact hheld.entries k⟩
    · rw [update_of_ne hji] at hj ⊢
      have hheld := h.held j (by rw [update_of_ne hji]; exact hj)
      rwa [update_of_ne hji] at hheld

theorem good_release {B : Store} {T : ℕ → Dinode} {e : ℕ → ℕ} {i : ℕ} (h : Good sb B (update T i n) e)
    (hz : ∀ k, n.addrs k = 0) {n' : Dinode} (hn : n'.type = .free) : Good sb B (update T i n') e := by
  refine ⟨h.books.congr (fun _ _ => rfl) fun ⟨j, sl⟩ => ?_, fun j hj => ?_⟩
  · by_cases hji : j = i
    · subst hji
      unfold refs
      dsimp only
      rw [update_self, update_self, if_pos hn]
      split_ifs
      · rfl
      · cases sl with
        | addr k => exact (hz k).symm
        | entry j =>
          show 0 = n.entry B j
          unfold Dinode.entry
          rw [if_pos (hz _)]
    · unfold refs
      dsimp only
      rw [update_of_ne hji, update_of_ne hji]
  · by_cases hji : j = i
    · subst hji
      rw [update_self] at hj
      exact absurd hn hj
    · rw [update_of_ne hji] at hj ⊢
      have hheld := h.held j (by rw [update_of_ne hji]; exact hj)
      rwa [update_of_ne hji] at hheld

theorem nblk_zero : nblk 0 = 0 := rfl

theorem change_run (k : ℕ) (f : Dinode → Dinode) (s : Kern) :
    change k f s = .ok ((), { s with
      disk := { s.disk with trace := .logWrite :: s.disk.trace },
      dinode := update s.dinode (s.icache k).inum (f (s.icache k).n),
      icache := update s.icache k { s.icache k with n := f (s.icache k).n } }) := by
  have h : change k f s = .ok ((), { s with
      disk := { s.disk with trace := .logWrite :: s.disk.trace },
      dinode := update s.dinode
        (update s.icache k { s.icache k with n := f (s.icache k).n } k).inum
        (update s.icache k { s.icache k with n := f (s.icache k).n } k).n,
      icache := update s.icache k { s.icache k with n := f (s.icache k).n } }) := rfl
  rw [h, update_self]

/-- what follows itrunc in iput, on the state that itrunc leaves -/
theorem freed_run (k : ℕ) (s : Kern) (d : Dev) (n : Dinode) :
    (do iupdate k
        change k fun n => { n with type := .free }
        modify fun s => { s with icache := update s.icache k { s.icache k with valid := false } } : K Unit)
      { s with disk := d, icache := update s.icache k { s.icache k with n := n } } =
    .ok ((), { s with
      disk := { d with trace := .logWrite :: .logWrite :: d.trace },
      dinode := update s.dinode (s.icache k).inum { n with type := .free },
      icache := update s.icache k { s.icache k with n := { n with type := .free }, valid := false } }) := by
  set s1 : Kern := { s with disk := d, icache := update s.icache k { s.icache k with n := n } } with hs1
  have hk : s1.icache k = { s.icache k with n := n } := update_self ..
  have h : ∀ s2 : Kern, (do change k fun n => { n with type := .free }
                            modify fun s =>
                              { s with icache := update s.icache k { s.icache k with valid := false } } : K Unit) s2 =
      .ok ((), { s2 with
        disk := { s2.disk with trace := .logWrite :: s2.disk.trace },
        dinode := update s2.dinode (s2.icache k).inum { (s2.icache k).n with type := .free },
        icache := update s2.icache k
          { s2.icache k with n := { (s2.icache k).n with type := .free }, valid := false } }) := by
    intro s2
    show (change k (fun n => { n with type := .free }) s2 >>= fun r => Except.ok ((), { r.2 with
      icache := update r.2.icache k { r.2.icache k with valid := false } })) = _
    rw [change_run]
    show Except.ok _ = _
    dsimp only
    rw [update_self, update_idem]
  refine (h { s1 with
    disk := { d with trace := .logWrite :: d.trace },
    dinode := update s.dinode (s1.icache k).inum (s1.icache k).n }).trans ?_
  dsimp only
  rw [hk, hs1]
  dsimp only
  rw [update_idem, update_idem]

theorem tr_freeInode (hG : G.Free) (hk : k ∉ L) {s0 : Kern} (h0 : Holds sb W G m L s0) (href : 0 < (s0.icache k).ref)
    (hv : (s0.icache k).valid = true) : Tr W (fun s => s = s0) (freeInode sb k) fun _ => Holds sb W G m L := by
  refine .bind (tr_onInode (fun d n => (writes_itrunc d n).bind fun _ _ => .pure trivial)
    (R := fun d n _ => Good sb d.data (update s0.dinode (s0.icache k).inum n)
      (update (sizes s0.dinode) (s0.icache k).inum 0) ∧ ∀ j, n.addrs j = 0) fun hw => ?_) fun _ => ?_
  · have hsync := h0.1.disk hw
    obtain ⟨hcopy, htype⟩ := hsync.copy k href hv
    rw [hcopy] at htype ⊢
    refine (itrunc_spec hsync.good htype).bind fun r hr => .pure ⟨hr.1, fun j => ?_⟩
    dsimp only
    rw [hr.2]
  · rintro s ⟨d, n, hgood, rfl⟩
    rw [freed_run]
    refine ⟨h0.1.rewrite href (fun h => absurd h hk) (fun hw => ?_) (fun _ h => absurd h (by simp)), hG h0.2⟩
    obtain ⟨h1, h2⟩ := hgood hw
    have hrel := good_release h1 h2 (show ({ n with type := .free } : Dinode).type = .free from rfl)
    rw [sizes_update]
    refine ⟨hrel.books, fun j hj => ?_⟩
    by_cases hji : j = (s0.icache k).inum
    · subst hji
      rw [update_self] at hj
      exact absurd rfl hj
    · have hheld := hrel.held j hj
      rw [update_of_ne hji, update_of_ne hji] at hheld ⊢
      exact hheld

/-- **iput** gives back a reference of the call. -/
theorem tr_iput (hG : G.Free ∨ G.Linked W) (hK : G.Kept m) :
    Tr W (Holds sb W G (k ::ₘ m) L) (iput sb k) fun _ => Holds sb W G m L := by
  refine (tr_record .iput).bind fun _ => tr_entry fun s0 => ?_
  refine .ite (fun _ => tr_throw ⟨⟨nofun, nofun⟩, fun _ => ⟨nofun, nofun⟩⟩) fun hlock => ?_
  refine .extract (φ := Holds sb W G (k ::ₘ m) L s0) (fun s h => h.1 ▸ h.2) fun h0 => ?_
  have hL : k ∉ L := fun h => hlock ((h0.1.locks k).2 h)
  refine .bind (Q := fun _ s => Holds sb W G (k ::ₘ m) L s) ?_ fun _ => .update fun s h => ?_
  · refine .ite (fun hc => ?_) fun _ => .pure ?_
    · rcases hG with hG | ⟨hw, hlink⟩
      · exact (tr_freeInode hG hL h0 (by omega) hc.1).conseq (fun s h => h.1) fun _ _ => id
      · -- a linked inode is not freed
        obtain ⟨hcopy, htype⟩ := (h0.1.disk hw).copy k (by omega) hc.1
        rw [hcopy] at htype hc
        exact absurd hc.2.1 (hlink h0.2 _ htype)
    · rintro s ⟨rfl, h⟩
      exact h
  · have hr := h.1.refs k
    rw [count_cons_self] at hr
    refine ⟨h.1.setEntry (fun hge => ?_) (fun _ k' hk' hk0 heq => hk' (h.1.uniq k' k hk0 (by omega) heq)) ?_
      (fun k' hk' => (count_cons_of_ne hk' m).symm) (h.1.locks k) (fun _ _ => Iff.rfl) (fun hk => absurd hk hL)
      (fun i hi => ⟨hK k i hi, (h.1.named k i hi).2⟩) (fun hw _ hv => (h.1.disk hw).copy k (by omega) hv), h.2⟩
    · have := h.1.bound k hge
      dsimp only
      omega
    · dsimp only
      omega

theorem le_nblk (z : ℕ) : z ≤ nblk z * BSIZE := by
  unfold nblk
  rw [bsize_eq]
  omega

theorem Core.setInode (h : Core sb W I m L s) {d : Dev} :
    Core sb False I m L { s with disk := d, icache := update s.icache k { s.icache k with n := n } } := by
  have hentry : ∀ j, (update s.icache k { s.icache k with n := n } j).ref = (s.icache j).ref ∧
      (update s.icache k { s.icache k with n := n } j).inum = (s.icache j).inum ∧
      (update s.icache k { s.icache k with n := n } j).locked = (s.icache j).locked ∧
      (update s.icache k { s.icache k with n := n } j).valid = (s.icache j).valid := fun j =>
    ⟨apply_update_same Entry.ref (by rfl) j, apply_update_same Entry.inum (by rfl) j, apply_update_same Entry.locked (by rfl) j,
      apply_update_same Entry.valid (by rfl) j⟩
  refine ⟨fun j hj => ?_, fun i j hi hj hij => ?_, fun j => ?_, fun j => ?_, fun j hj => ?_, fun j i hj => ?_,
    False.elim⟩
  · rw [(hentry j).1]
    exact h.bound j hj
  · dsimp only at hi hj hij
    rw [(hentry i).1] at hi
    rw [(hentry j).1] at hj
    rw [(hentry i).2.1, (hentry j).2.1] at hij
    exact h.uniq i j hi hj hij
  · rw [(hentry j).1]
    exact h.refs j
  · rw [(hentry j).2.2.1]
    exact h.locks j
  · rw [(hentry j).1, (hentry j).2.2.2]
    exact h.loaded j hj
  · rw [(hentry j).2.1]
    exact h.named j i hj

theorem Core.withDisk (h : Core sb False I m L s) (hd : W → Synced sb s) : Core sb W I m L s :=
  ⟨h.bound, h.uniq, h.refs, h.locks, h.loaded, h.named, hd⟩

theorem update_n_self (k : ℕ) (s : Kern) :
    ({ s with icache := update s.icache k { s.icache k with n := (s.icache k).n } } : Kern) = s := by
  rw [update_eq_self]

/-- **readi** of a locked inode: on a well-formed image nothing changes. -/
theorem tr_readi (hG : G.Free ∨ W) (hk : k ∈ L) (off : ℕ) {n : ℕ} (hn : n < 2 ^ 32) :
    Tr W (Holds sb W G m L) (readi sb k off n) fun _ => Holds sb W G m L := by
  refine tr_entry fun s => ?_
  refine .extract (φ := Holds sb W G m L s) (fun s' h => h.1 ▸ h.2) fun h0 => ?_
  refine .conseq (P := fun s' => s' = s) ?_ (fun s' h => h.1) fun _ _ => id
  have hstay : ∀ (α : Type) (a : α), Tr W (fun s' => s' = s) (pure a : K α) fun _ => Holds sb W G m L := by
    intro α a
    refine .pure ?_
    rintro s' rfl
    exact h0
  refine .ite (fun _ => .ite (fun _ => ?_) fun _ => hstay _ _) fun _ => .ite (fun _ => hstay _ _) fun hoff => ?_
  · exact (tr_consoleread hk n).conseq (fun s' h => h ▸ h0) fun _ _ => id
  obtain ⟨hv, href⟩ := h0.1.loaded k hk
  refine .bind (tr_onInode (fun d n => (writes_readLoop _ d n _).mono fun _ _ => trivial)
    (R := fun d n' _ => d = s.disk ∧ n' = (s.icache k).n) fun hw => ?_) fun l => ?_
  · have hsync := h0.1.disk hw
    obtain ⟨hcopy, htype⟩ := hsync.copy k href hv
    rw [hcopy] at htype ⊢
    refine (readLoop_spec hsync.good htype _ off ?_).mono fun r hr => ⟨hr.1, hr.2.1⟩
    have hle := le_nblk (s.dinode (s.icache k).inum).size
    rw [hcopy] at hoff
    unfold sizes
    split_ifs with hend
    · omega
    · omega
  · refine .pure ?_
    rintro s' ⟨d, n', hR, rfl⟩
    by_cases hw : W
    · obtain ⟨rfl, rfl⟩ := hR hw
      have hself : ({ s with
          disk := s.disk, icache := update s.icache k { s.icache k with n := (s.icache k).n } } : Kern) = s :=
        update_n_self k s
      rw [hself]
      exact h0
    · exact ⟨h0.1.setInode.withDisk fun h => absurd h hw, hG.resolve_right hw h0.2⟩

theorem tr_change {E : Frame} (hk : k ∈ L) {f : Dinode → Dinode}
    (hf : ∀ n, (f n).type = n.type ∧ (f n).addrs = n.addrs ∧ (f n).size = n.size)
    (hpins : E.pins = G.pins)
    (hG : ∀ s, Holds sb W G m L s → E.cond s.disk.data (update s.dinode (s.icache k).inum (f (s.icache k).n))
      s.file s.pipe s.proc) :
    Tr W (Holds sb W G m L) (change k f) fun _ => Holds sb W E m L := by
  intro s0 h0
  obtain ⟨hv, href⟩ := h0.1.loaded k hk
  have hkey : Holds sb W E m L { s0 with
      disk := { s0.disk with trace := .logWrite :: s0.disk.trace },
      dinode := update s0.dinode (s0.icache k).inum (f (s0.icache k).n),
      icache := update s0.icache k { s0.icache k with n := f (s0.icache k).n, valid := true } } := by
    refine ⟨hpins ▸ h0.1.rewrite href (fun _ => rfl) (fun hw => ?_) fun hw _ => ?_, hG s0 h0⟩
    · have hsync := h0.1.disk hw
      obtain ⟨hcopy, -⟩ := hsync.copy k href hv
      obtain ⟨ht, ha, hs⟩ := hf (s0.icache k).n
      rw [sizes_update, hs, hcopy, show nblk (s0.dinode (s0.icache k).inum).size = sizes s0.dinode (s0.icache k).inum from rfl,
        update_eq_self]
      refine good_setFields (n := s0.dinode (s0.icache k).inum) ?_ (by rw [← hcopy]; exact ht) (by rw [← hcopy]; exact ha)
      rw [update_eq_self]
      exact hsync.good
    · rw [(hf _).1]
      exact ((h0.1.disk hw).copy k href hv).2
  rw [change_run]
  rw [← hv] at hkey
  exact hkey

/-- **writei** to a locked inode. -/
theorem tr_writei (hG : G.Free) (hk : k ∈ L) (off : ℕ) {src : List Byte} (hlen : src.length < 2 ^ 32) :
    Tr W (Holds sb W G m L) (writei sb k off src) fun _ => Holds sb W G m L := by
  refine tr_entry fun s0 => ?_
  refine .extract (φ := Holds sb W G m L s0) (fun s h => h.1 ▸ h.2) fun h0 => ?_
  refine .conseq (P := fun s => s = s0) ?_ (fun s h => h.1) fun _ _ => id
  have hstay : ∀ (α : Type) (a : α), Tr W (fun s => s = s0) (pure a : K α) fun _ => Holds sb W G m L := by
    intro α a
    refine .pure ?_
    rintro s rfl
    exact h0
  refine .ite (fun _ => .ite (fun _ => ?_) fun _ => hstay _ _) fun _ => .ite (fun _ => hstay _ _) fun hoff =>
    .ite (fun _ => hstay _ _) fun hmax => ?_
  · exact (tr_consolewrite hk src).conseq (fun s h => h ▸ h0) fun _ _ => id
  obtain ⟨hv, href⟩ := h0.1.loaded k hk
  generalize hi : (s0.icache k).inum = i
  refine .bind (tr_onInode (fun d n => (writes_writeLoop _ src d n off rfl).bind fun _ _ => .pure trivial)
    (R := fun d n _ => Upto sb s0.dinode (sizes s0.dinode) i d n
      (if src = [] then sizes s0.dinode i else max (sizes s0.dinode i) (nblk (off + src.length))) ∧
      (nblk (off + src.length) ≤ sizes s0.dinode i → n = s0.dinode i)) fun hw => ?_) fun _ => ?_
  · have hsync := h0.1.disk hw
    obtain ⟨hcopy, htype⟩ := hsync.copy k href hv
    rw [hi] at hcopy
    rw [hcopy] at htype hoff ⊢
    have hle := le_nblk (s0.dinode i).size
    have hheld := (hsync.good.held i htype).le
    have hbig : nblk (s0.dinode i).size ≤ MAXFILE := hheld
    have hbig' : (s0.dinode i).size ≤ MAXFILE * BSIZE := hle.trans (Nat.mul_le_mul_right _ hbig)
    have hmf : MAXFILE * BSIZE = 71680 := rfl
    have hend : off + src.length ≤ MAXFILE * BSIZE := by
      rw [hmf] at hmax hbig' ⊢
      omega
    have hstart : off ≤ sizes s0.dinode i * BSIZE := by
      unfold sizes
      omega
    refine (writeLoop_spec src.length src s0.disk s0.dinode (sizes s0.dinode) off rfl hsync.good htype hstart hend).bind
      fun r hr => .pure hr
  -- the size grows, or nothing was allocated
  refine .bind (Q := fun _ => Holds sb W G m L) ?_ fun _ => .pure fun _ h => h
  refine .ite (fun hgrow => ?_) fun hstop => .pure ?_
  · rintro s ⟨d, n, hR, rfl⟩
    have hrw : Holds sb W G m L { s0 with
        disk := { d with trace := .logWrite :: d.trace },
        dinode := update s0.dinode (s0.icache k).inum { n with size := off + src.length },
        icache := update s0.icache k { s0.icache k with n := { n with size := off + src.length }, valid := true } } := by
      refine ⟨h0.1.rewrite href (fun _ => rfl) (fun hw => ?_) fun hw _ => ?_, hG h0.2⟩
      · obtain ⟨⟨hgood, -⟩, -⟩ := hR hw
        obtain ⟨hcopy, htype⟩ := (h0.1.disk hw).copy k href hv
        rw [hi] at hcopy ⊢
        have hne : src ≠ [] := List.ne_nil_of_length_pos hgrow.1
        rw [hcopy] at hgrow
        have hmono : sizes s0.dinode i ≤ nblk (off + src.length) := by
          unfold sizes nblk
          rw [bsize_eq]
          omega
        rw [if_neg hne, max_eq_right hmono] at hgood
        rw [sizes_update]
        exact good_setFields hgood rfl rfl
      · obtain ⟨⟨-, hcopy'⟩, -⟩ := hR hw
        obtain ⟨hcopy, htype⟩ := (h0.1.disk hw).copy k href hv
        show n.type ≠ .free
        rw [hcopy', ← hi, ← hcopy]
        exact htype
    rw [change_run]
    show Holds sb W G m L _
    dsimp only
    rw [update_self, update_idem]
    rw [← hv] at hrw
    exact hrw
  · rintro s ⟨d, n, hR, rfl⟩
    by_cases hw : W
    · obtain ⟨⟨hgood, -⟩, hsame⟩ := hR hw
      have hsync := h0.1.disk hw
      obtain ⟨hcopy, htype⟩ := hsync.copy k href hv
      rw [hi] at hcopy
      rw [hcopy] at hoff hstop
      have hle : nblk (off + src.length) ≤ sizes s0.dinode i := by
        unfold sizes nblk
        rw [bsize_eq]
        omega
      have hn := hsame hle
      have hk' : (if src = [] then sizes s0.dinode i else max (sizes s0.dinode i) (nblk (off + src.length))) =
          sizes s0.dinode i := by
        split_ifs
        · rfl
        · exact max_eq_left hle
      rw [hk', hn, update_eq_self, update_eq_self] at hgood
      refine ⟨h0.1.setInode.withDisk fun _ => ⟨hgood, fun j hj hjv => ?_⟩, hG h0.2⟩
      have hself : (update s0.icache k { s0.icache k with n := n } : ℕ → Entry) = s0.icache := by
        rw [hn, ← hcopy, update_eq_self]
      dsimp only at hj hjv ⊢
      rw [hself] at hj hjv ⊢
      exact hsync.copy j hj hjv
    · exact ⟨h0.1.setInode.withDisk fun h => absurd h hw, hG h0.2⟩

end Xv6.Files
