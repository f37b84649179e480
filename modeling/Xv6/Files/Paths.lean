/-
Directories and paths: what the functions of `fs.c` and `sysfile.c` that walk the tree keep.

Each function is given the references and locks that the invariant of the inode cache counts (`Cache.lean`), and says which of
them it has taken and given back on every way out:

- `tr_dirlookup`: a name that is found comes with a reference to its inode;
- `tr_namex`: a path that is found comes with a reference, and every directory on the way is unlocked and put again;
- `tr_create`: the inode comes locked and with a reference;
- `tr_linkInto`, `tr_unlinkFound`: the rest of link and unlink after the first path.

A function that fails has only read, so it also keeps what is said of the disk, if the image is well formed and every inode
has a link.
-/
import Xv6.Files.Cache

namespace Xv6.Files

open Lib Lib.StateProg Blocks Finset
open Sysfile (IType elems)

variable {sb : Superblock} {W : Prop} {G : Frame} {m : Multiset ℕ} {L : Finset ℕ} {s : Kern}

theorem err_other {p : Panic} (h : Sound p) : Err W p := ⟨h.2.2, fun _ => ⟨h.1, h.2.1⟩⟩

theorem Frame.Linked.of_free_or (h : G.Free ∨ G.Linked W) : G.Free ∨ W := h.imp_right And.left

theorem tr_match {α β : Type} {x : K (Option α)} {f : Option α → K β} {P N : Kern → Prop} {S : α → Kern → Prop}
    {R : β → Kern → Prop} (hx : Tr W P x fun r s => r.elim (N s) fun a => S a s) (hn : Tr W N (f none) R)
    (hs : ∀ a, Tr W (S a) (f (some a)) R) : Tr W P (x >>= f) R :=
  hx.bind fun r => match r with
    | none => hn
    | some a => hs a

/-! ## Unlocking what was locked -/

variable {p k dp ip : ℕ}

theorem tr_unlock (hk : k ∉ L) : Tr W (Holds sb W G m (insert k L)) (iunlock k) fun _ => Holds sb W G m L := by
  have h : Tr W (Holds sb W G m (insert k L)) (iunlock k) fun _ => Holds sb W G m ((insert k L).erase k) := tr_iunlock k
  rwa [erase_insert hk] at h

theorem tr_unlockput (hG : G.Free ∨ G.Linked W) (hK : G.Kept m) (hk : k ∉ L) :
    Tr W (Holds sb W G (k ::ₘ m) (insert k L)) (iunlockput sb k) fun _ => Holds sb W G m L :=
  (tr_unlock hk).bind fun _ => tr_iput hG hK

theorem tr_lock {α : Type} {x : Unit → K α} {Q : α → Kern → Prop}
    (h : k ∉ L → Tr W (Holds sb W G m (insert k L)) (x ()) Q) : Tr W (Holds sb W G m L) (ilock k >>= x) Q :=
  (tr_ilock k).bind fun _ => .extract (fun _ h => h.1) fun hk => (h hk).conseq (fun _ h => h.2) fun _ _ => id

theorem tr_look {α : Type} {x : Entry → K α} {P : Kern → Prop} {Q : α → Kern → Prop} (h : ∀ y, Tr W P (x y) Q) :
    Tr W P (entry k >>= x) Q := tr_entry fun s => (h (s.icache k)).conseq (fun _ h => h.2) fun _ _ => id

theorem tr_failOp : Tr W (Holds sb W G m L) failOp fun _ => Holds sb W G m L := tr_endOp.bind fun _ => .pure fun _ => id

/-! ## ialloc -/

theorem good_alloc {B : Store} {T : ℕ → Dinode} {e : ℕ → ℕ} {i : ℕ} {n : Dinode} (h : Good sb B T e) (hfree : (T i).type = .free)
    (ha : ∀ k, n.addrs k = 0) : Good sb B (update T i n) (update e i 0) := by
  have hentry : ∀ j, n.entry B j = 0 := by
    intro j
    unfold Dinode.entry
    rw [if_pos (ha _)]
  refine ⟨h.books.congr (fun _ _ => rfl) fun ⟨j, sl⟩ => ?_, fun j hj => ?_⟩
  · by_cases hji : j = i
    · subst hji
      unfold refs
      dsimp only
      rw [update_self, if_pos hfree]
      split_ifs
      · rfl
      · cases sl with
        | addr k => exact ha k
        | entry j => exact hentry j
    · unfold refs
      dsimp only
      rw [update_of_ne hji]
  · by_cases hji : j = i
    · subst hji
      rw [update_self, update_self]
      exact ⟨Nat.zero_le _, fun k => by simp [ha], by simp [ha], fun k => by simp [hentry]⟩
    · rw [update_of_ne hji] at hj ⊢
      rw [update_of_ne hji]
      exact h.held j hj

theorem tr_ialloc (hG : G.Free) (type : IType) : Tr W (Holds sb W G m L) (ialloc sb type) fun k => Holds sb W G (k ::ₘ m) L := by
  refine .read fun s => ?_
  cases hf : (List.range' 1 (sb.ninodes - 1)).find? fun i => (s.dinode i).type == .free with
  | none => exact tr_throw (err_other ⟨nofun, nofun, nofun, nofun⟩)
  | some i =>
    have hfree : (s.dinode i).type = .free := by simpa using List.find?_some hf
    dsimp only
    refine .bind (Q := fun _ => Holds sb W G m L) (.update ?_) fun _ => (tr_record _).bind fun _ => tr_iget i
    rintro s' ⟨rfl, h⟩
    refine ⟨⟨h.1.bound, h.1.uniq, h.1.refs, h.1.locks, h.1.loaded, h.1.named, fun hw => ⟨?_, fun k hk hv => ?_⟩⟩, hG h.2⟩
    · dsimp only
      rw [sizes_update]
      dsimp only
      rw [nblk_zero]
      exact good_alloc (n := ⟨type, 0, 0, 0, 0, fun _ => 0⟩) (h.1.disk hw).good hfree fun _ => rfl
    · -- a copy is never of a free inode
      obtain ⟨hcopy, htype⟩ := (h.1.disk hw).copy k hk hv
      have hne : (s'.icache k).inum ≠ i := by
        rintro heq
        rw [hcopy, heq] at htype
        exact htype hfree
      dsimp only
      rw [update_of_ne hne]
      exact ⟨hcopy, htype⟩

/-! ## Directories -/

theorem direntsize_lt : DIRENTSIZE < 2 ^ 32 := by decide

theorem tr_dirScan (hG : G.Free ∨ W) (hk : k ∈ L) {e : Panic} (he : Sound e) (p : List Byte → Bool) (js : List ℕ) :
    Tr W (Holds sb W G m L) (dirScan sb k e p js) fun _ => Holds sb W G m L := by
  induction js with
  | nil => exact .pure fun _ => id
  | cons j js ih =>
    refine (tr_readi hG hk _ direntsize_lt).bind fun r => ?_
    cases r with
    | none => exact tr_throw (err_other he)
    | some de =>
      exact .ite (fun _ => tr_throw (err_other he)) fun _ => .ite (fun _ => .pure fun _ => id) fun _ => ih

/-- **dirlookup**: what is found comes with a reference. -/
theorem tr_dirlookup (hG : G.Free ∨ W) (hk : k ∈ L) (name : List Byte) :
    Tr W (Holds sb W G m L) (dirlookup sb k name) fun r s => r.elim (Holds sb W G m L s) fun x =>
      Holds sb W G (x.1 ::ₘ m) L s := by
  refine tr_look fun x => .ite (fun _ => tr_throw (err_other ⟨nofun, nofun, nofun, nofun⟩)) fun _ => ?_
  refine .bind (tr_dirScan hG hk (by simp [Sound]) _ _) fun r => ?_
  cases r with
  | none => exact .pure fun _ => id
  | some de => exact (tr_iget _).bind fun j => .pure fun _ => id

/-- **dirlink**: the references stay as they are, and a name that was there leaves the disk alone. -/
theorem tr_dirlink (hG : G.Free ∨ G.Linked W) (hK : G.Kept m) (hk : k ∈ L) (name : List Byte) (inum : ℕ) :
    Tr W (Holds sb W G m L) (dirlink sb k name inum) fun ok s =>
      Holds sb W G.Loose m L s ∧ (ok = false → Holds sb W G m L s) := by
  refine tr_match (tr_dirlookup (Frame.Linked.of_free_or hG) hk name) ?_ fun x => ?_
  · refine tr_look fun x => ?_
    refine .bind (tr_dirScan (Frame.Linked.of_free_or hG) hk (by simp [Sound]) _ _) fun r => ?_
    have hlen : (dirent inum name).length < 2 ^ 32 := by
      have : (dirent inum name).length ≤ 16 := by
        unfold dirent
        simp [DIRSIZ]
      omega
    refine .bind ((tr_writei G.loose_free hk _ hlen).conseq (fun _ h => h.loose) fun _ _ => id) fun w => ?_
    exact .ite (fun _ => .pure fun _ h => ⟨h, nofun⟩)
      fun _ => tr_throw (err_other ⟨nofun, nofun, nofun, nofun⟩)
  · exact (tr_iput hG hK).bind fun _ => .pure fun _ h => ⟨h.loose, fun _ => h⟩

/-! ## Paths -/

theorem tr_namexLoop (hG : G.Free ∨ G.Linked W) (hK : G.Kept m) (parent : Bool) (names : List (List Byte)) : ∀ (k : ℕ),
    Tr W (Holds sb W G (k ::ₘ m) L) (namexLoop sb parent k names) fun r s =>
      r.elim (Holds sb W G m L s) fun x => Holds sb W G (x.1 ::ₘ m) L s := by
  induction names with
  | nil =>
    intro k
    exact .ite (fun _ => (tr_iput hG hK).bind fun _ => .pure fun _ => id) fun _ => .pure fun _ => id
  | cons name rest ih =>
    intro k
    refine tr_lock fun hk => tr_look fun x => .ite (fun _ => ?_) fun _ => .ite (fun _ => ?_) fun _ => ?_
    · exact (tr_unlockput hG hK hk).bind fun _ => .pure fun _ => id
    · exact (tr_unlock hk).bind fun _ => .pure fun _ => id
    · refine tr_match (tr_dirlookup (Frame.Linked.of_free_or hG) (mem_insert_self k L) name) ?_ fun next => ?_
      · exact (tr_unlockput hG hK hk).bind fun _ => .pure fun _ => id
      · rw [Multiset.cons_swap]
        exact (tr_unlockput hG (hK.cons _) hk).bind fun _ => ih next.1

/-- the current directory of p is counted -/
def Frame.Home (G : Frame) (p : ℕ) : Prop := ∀ ⦃B T F Q P⦄, G.cond B T F Q P → p < NPROC ∧ ∃ k, (P p).cwd = some k

theorem Core.cwd_pos {I : ℕ → Option ℕ} (h : Core sb W I m L s) (hp : p < NPROC) (hk : (s.proc p).cwd = some k) :
    0 < (s.icache k).ref := by
  have hpos : 0 < cwdRefs k s.proc := census_pos.2 ⟨p, hp, by simp [hk]⟩
  have := h.refs k
  omega

theorem tr_start (hp : G.Home p) (path : List Byte) :
    Tr W (Holds sb W G m L) (start p path) fun k => Holds sb W G (k ::ₘ m) L := by
  refine .ite (fun _ => tr_iget _) fun _ => .read fun s => ?_
  refine .bind ((tr_idup _).conseq ?_ fun _ _ => id) fun _ => .pure fun _ => id
  rintro s' ⟨rfl, h⟩
  obtain ⟨hlt, k, hk⟩ := hp h.2
  rw [hk]
  exact ⟨h, h.1.cwd_pos hlt hk⟩

/-- **namex**: a path that is found comes with a reference, and nothing else is kept. -/
theorem tr_namex (hG : G.Free ∨ G.Linked W) (hK : G.Kept m) (hp : G.Home p) (path : List Byte) (parent : Bool) :
    Tr W (Holds sb W G m L) (namex sb p path parent) fun r s =>
      r.elim (Holds sb W G m L s) fun x => Holds sb W G (x.1 ::ₘ m) L s :=
  (tr_start hp path).bind fun k => tr_namexLoop hG hK parent _ k

theorem tr_namei (hG : G.Free ∨ G.Linked W) (hK : G.Kept m) (hp : G.Home p) (path : List Byte) :
    Tr W (Holds sb W G m L) (namei sb p path) fun r s => r.elim (Holds sb W G m L s) fun k => Holds sb W G (k ::ₘ m) L s :=
  (tr_namex hG hK hp path false).bind fun r => .pure fun s h => by
    cases r with
    | none | some x => exact h

/-! ## create -/

theorem tr_createDots (hG : G.Free) (hK : G.Kept m) (hdp : dp ∈ L) (hip : ip ∈ L) :
    Tr W (Holds sb W G m L) (createDots sb dp ip) fun _ => Holds sb W G m L := by
  refine .bind (tr_change hdp (fun _ => ⟨rfl, rfl, rfl⟩) rfl fun s h => hG h.2) fun _ => tr_look fun x =>
    tr_look fun y => ?_
  refine ((tr_dirlink (.inl hG) hK hip dot x.inum).conseq (fun _ => id) fun _ s h => (hG.loose ▸ h.1 : Holds sb W G m L s)).bind
    fun d1 => .ite (fun _ => tr_throw (err_other ⟨nofun, nofun, nofun, nofun⟩)) fun _ => ?_
  refine ((tr_dirlink (.inl hG) hK hip dotdot y.inum).conseq (fun _ => id) fun _ s h =>
    (hG.loose ▸ h.1 : Holds sb W G m L s)).bind
    fun d2 => .ite (fun _ => tr_throw (err_other ⟨nofun, nofun, nofun, nofun⟩)) fun _ => .pure fun _ => id

theorem tr_createNew (hG : G.Free) (hK : G.Kept m) (hdp : dp ∉ L) (name : List Byte) (type : IType) (major minor : BitVec 16) :
    Tr W (Holds sb W G (dp ::ₘ m) (insert dp L)) (createNew sb dp name type major minor) fun ip s =>
      ip ∉ L ∧ Holds sb W G (ip ::ₘ m) (insert ip L) s := by
  refine (tr_ialloc hG type).bind fun ip => tr_lock fun hip => ?_
  have hipL : ip ∉ L := fun h => hip (mem_insert_of_mem h)
  have hne : ip ≠ dp := fun h => hip (h ▸ mem_insert_self dp L)
  refine .bind (tr_change (mem_insert_self _ _) (fun _ => ⟨rfl, rfl, rfl⟩) rfl fun s h => hG h.2) fun _ => ?_
  refine .bind (Q := fun _ => Holds sb W G (ip ::ₘ dp ::ₘ m) (insert ip (insert dp L))) (.ite (fun _ => ?_)
    fun _ => .pure fun _ => id) fun _ => tr_look fun x => ?_
  · exact tr_createDots hG ((hK.cons _).cons _) (mem_insert_of_mem (mem_insert_self _ _))
      (mem_insert_self _ _)
  refine ((tr_dirlink (.inl hG) ((hK.cons _).cons _) (mem_insert_of_mem (mem_insert_self dp L))
    name x.inum).conseq (fun _ => id)
    fun _ s h => (hG.loose ▸ h.1 : Holds sb W G (ip ::ₘ dp ::ₘ m) (insert ip (insert dp L)) s)).bind fun d =>
      .ite (fun _ => tr_throw (err_other ⟨nofun, nofun, nofun, nofun⟩)) fun _ => ?_
  rw [Multiset.cons_swap, insert_comm]
  refine (tr_unlockput (.inl hG) (hK.cons _) ?_).bind fun _ => .pure fun _ h => ⟨hipL, h⟩
  simp [hne.symm, hdp]

/-- **create**: the inode comes locked and with a reference; a failure has only read. -/
theorem tr_create (hG : G.Free ∨ G.Linked W) (hK : G.Kept m) (hp : G.Home p) (path : List Byte) (type : IType)
    (major minor : BitVec 16) :
    Tr W (Holds sb W G m L) (create sb p path type major minor) fun r s => r.elim (Holds sb W G m L s) fun ip =>
      ip ∉ L ∧ Holds sb W G.Loose (ip ::ₘ m) (insert ip L) s := by
  refine tr_match (tr_namex hG hK hp path true) (.pure fun _ => id) fun x => tr_lock fun hdp => ?_
  refine tr_match (tr_dirlookup (Frame.Linked.of_free_or hG) (mem_insert_self _ _) x.2) ?_ fun y => ?_
  · refine ((tr_createNew G.loose_free hK hdp x.2 type major minor).conseq (fun _ h => h.loose) fun _ _ => id).bind
      fun ip => .pure fun _ => id
  · rw [Multiset.cons_swap]
    refine (tr_unlockput hG (hK.cons _) hdp).bind fun _ => tr_lock fun hip => tr_look fun e => .ite (fun _ => ?_)
      fun _ => ?_
    · exact .pure fun _ h => ⟨hip, h.loose⟩
    · exact (tr_unlockput hG hK hip).bind fun _ => .pure fun _ => id

/-! ## link and unlink -/

/-- after a call that failed, G; otherwise what is left of it -/
def After (sb : Superblock) (W : Prop) (G : Frame) (m : Multiset ℕ) (L : Finset ℕ) (r : ℤ) (s : Kern) : Prop :=
  Holds sb W G.Loose m L s ∧ (r = -1 → Holds sb W G m L s)

theorem Holds.after (h : Holds sb W G m L s) (r : ℤ) : After sb W G m L r s := ⟨h.loose, fun _ => h⟩

theorem After.of_ne (h : Holds sb W G.Loose m L s) {r : ℤ} (hr : r ≠ -1) : After sb W G m L r s :=
  ⟨h, fun h' => absurd h' hr⟩

theorem tr_failOp_after : Tr W (Holds sb W G m L) failOp (After sb W G m L) :=
  tr_failOp.conseq (fun _ => id) fun r _ h => h.after r

theorem tr_unlinkBad (hG : G.Free ∨ G.Linked W) (hK : G.Kept m) (hdp : dp ∉ L) :
    Tr W (Holds sb W G (dp ::ₘ m) (insert dp L)) (unlinkBad sb dp) (After sb W G m L) :=
  (tr_unlockput hG hK hdp).bind fun _ => tr_failOp_after

theorem tr_unlinkEntry (hG : G.Free) (hK : G.Kept m) (hdp : dp ∉ L) (hip : ip ∉ insert dp L) (off : ℕ) (dir : Bool) :
    Tr W (Holds sb W G (ip ::ₘ dp ::ₘ m) (insert ip (insert dp L))) (unlinkEntry sb dp ip off dir) fun r s =>
      r ≠ -1 ∧ Holds sb W G m L s := by
  have hipL : ip ∉ L := fun h => hip (mem_insert_of_mem h)
  have hne : dp ≠ ip := fun h => hip (h ▸ mem_insert_self dp L)
  have hmem : dp ∈ insert ip (insert dp L) := mem_insert_of_mem (mem_insert_self _ _)
  refine (tr_writei hG hmem off (by rw [List.length_replicate]; exact direntsize_lt)).bind fun w =>
    .ite (fun _ => tr_throw (err_other ⟨nofun, nofun, nofun, nofun⟩)) fun _ => ?_
  refine .bind (Q := fun _ => Holds sb W G (ip ::ₘ dp ::ₘ m) (insert ip (insert dp L))) (.ite (fun _ => ?_)
    fun _ => .pure fun _ => id) fun _ => ?_
  · exact tr_change hmem (fun _ => ⟨rfl, rfl, rfl⟩) rfl fun s h => hG h.2
  rw [Multiset.cons_swap, insert_comm]
  refine (tr_unlockput (.inl hG) (hK.cons _) (by simp [hne, hdp])).bind fun _ => ?_
  refine .bind (tr_change (mem_insert_self _ _) (fun _ => ⟨rfl, rfl, rfl⟩) rfl fun s h => hG h.2) fun _ => ?_
  exact (tr_unlockput (.inl hG) hK hipL).bind fun _ => tr_endOp.bind fun _ => .pure fun _ h => ⟨by decide, h⟩

theorem tr_isdirempty (hG : G.Free ∨ W) (hk : k ∈ L) : Tr W (Holds sb W G m L) (isdirempty sb k) fun _ => Holds sb W G m L :=
  tr_look fun _ => .bind (tr_dirScan hG hk (by simp [Sound]) _ _) fun _ => .pure fun _ => id

theorem tr_unlinkFound (hG : G.Free ∨ G.Linked W) (hK : G.Kept m) (hdp : dp ∉ L) (ip off : ℕ) :
    Tr W (Holds sb W G (ip ::ₘ dp ::ₘ m) (insert dp L)) (unlinkFound sb dp ip off) (After sb W G m L) := by
  refine tr_lock fun hip => tr_look fun x => .ite (fun _ => tr_throw (err_other ⟨nofun, nofun, nofun, nofun⟩)) fun _ => ?_
  have hdone : ∀ dir, Tr W (Holds sb W G (ip ::ₘ dp ::ₘ m) (insert ip (insert dp L))) (unlinkEntry sb dp ip off dir)
      (After sb W G m L) := fun dir =>
    (tr_unlinkEntry G.loose_free hK hdp hip off dir).conseq (fun _ h => h.loose) fun _ _ h => .of_ne h.2 h.1
  refine .ite (fun _ => ?_) fun _ => hdone false
  refine (tr_isdirempty (Frame.Linked.of_free_or hG) (mem_insert_self _ _)).bind fun empty =>
    .ite (fun _ => hdone true) fun _ => ?_
  exact (tr_unlockput hG (hK.cons _) hip).bind fun _ => tr_unlinkBad hG hK hdp

/-- **unlink** gives back everything, and a failure has only read. -/
theorem tr_sysUnlink (hG : G.Free ∨ G.Linked W) (hK : G.Kept m) (hp : G.Home p) (path : Option (List Byte)) :
    Tr W (Holds sb W G m L) (sysUnlink sb p path) (After sb W G m L) := by
  cases path with
  | none => exact .pure fun _ h => h.after _
  | some path =>
    refine tr_beginOp.bind fun _ => tr_match (tr_namex hG hK hp path true) tr_failOp_after fun x => tr_lock fun hdp => ?_
    refine .ite (fun _ => tr_unlinkBad hG hK hdp) fun _ => ?_
    exact tr_match (tr_dirlookup (Frame.Linked.of_free_or hG) (mem_insert_self _ _) x.2) (tr_unlinkBad hG hK hdp)
      fun y => tr_unlinkFound hG hK hdp y.1 y.2

/-- G says that every inode of a well-formed image has a link, and that one more is one more -/
def Frame.Counted (W : Prop) (G : Frame) : Prop :=
  W ∧ ∀ ⦃B T F Q P⦄, G.cond B T F Q P → ∀ i, (T i).type ≠ .free → (T i).nlink ≠ 0 ∧ (T i).nlink ≠ -1

theorem Frame.Counted.linked (h : G.Counted W) : G.Linked W := ⟨h.1, fun _ _ _ _ _ hG i hi => (h.2 hG i hi).1⟩

/-- entry k is known to be inode i -/
def Frame.pin (G : Frame) (k i : ℕ) : Frame := ⟨G.cond, update G.pins k (some i)⟩

/-- G holds of the disk without the link that sys_link has counted already -/
def Frame.bump (G : Frame) (k i : ℕ) : Frame :=
  ⟨fun B T F Q P => G.cond B (update T i { T i with nlink := (T i).nlink - 1 }) F Q P,
    update G.pins k (some i)⟩

theorem Holds.pin {i : ℕ} (h : Holds sb W G (k ::ₘ m) L s) (hi : (s.icache k).inum = i) :
    Holds sb W (G.pin k i) (k ::ₘ m) L s := by
  refine ⟨⟨h.1.bound, h.1.uniq, h.1.refs, h.1.locks, h.1.loaded, fun j i' hj => ?_, h.1.disk⟩, h.2⟩
  by_cases hjk : j = k
  · subst hjk
    simp only [Frame.pin, update_self, Option.some.injEq] at hj
    exact ⟨Multiset.mem_cons_self j m, hi.trans hj⟩
  · simp only [Frame.pin, update_of_ne hjk] at hj
    exact h.1.named j i' hj

theorem Holds.unpin {G' : Frame} (h : Holds sb W G' m L s) (hc : ∀ ⦃B T F Q P⦄, G'.cond B T F Q P → G.cond B T F Q P)
    {i : ℕ} (hp : G'.pins = update G.pins k (some i)) (hi : ∀ j, G.pins k = some j → j = i) : Holds sb W G m L s := by
  refine ⟨⟨h.1.bound, h.1.uniq, h.1.refs, h.1.locks, h.1.loaded, fun j i' hj => ?_, h.1.disk⟩, hc h.2⟩
  refine h.1.named j i' ?_
  by_cases hjk : j = k
  · subst hjk
    rw [hp, update_self, hi i' hj]
  · rwa [hp, update_of_ne hjk]

theorem Frame.Kept.pin (h : G.Kept m) (k i : ℕ) {G' : Frame} (hp : G'.pins = update G.pins k (some i)) : G'.Kept (k ::ₘ m) := by
  intro j i' hj
  by_cases hjk : j = k
  · exact hjk ▸ Multiset.mem_cons_self k m
  · rw [hp, update_of_ne hjk] at hj
    exact Multiset.mem_cons_of_mem (h j i' hj)

theorem Frame.bump_cases (hG : G.Free ∨ G.Counted W) (k i : ℕ) : (G.bump k i).Free ∨ (G.bump k i).Linked W := by
  refine hG.imp (fun h _ _ _ _ _ _ _ hc => h hc) fun h => ⟨h.1, fun B T F Q P hc j hj => ?_⟩
  by_cases hji : j = i
  · subst hji
    have hlink := (h.2 hc j (by rw [update_self]; exact hj)).2
    rw [update_self] at hlink
    intro hz
    dsimp only at hlink
    rw [hz] at hlink
    exact hlink rfl
  · have hlink := (h.2 hc j (by rw [update_of_ne hji]; exact hj)).1
    rwa [update_of_ne hji] at hlink

theorem Frame.free_or_linked (hG : G.Free ∨ G.Counted W) : G.Free ∨ G.Linked W := hG.imp_right Frame.Counted.linked

section Link

variable (hG : G.Free ∨ G.Counted W) (hK : G.Kept m)
include hG hK

theorem tr_linkBad {ip i : ℕ} (hi : ∀ j, G.pins ip = some j → j = i) :
    Tr W (Holds sb W (G.bump ip i) (ip ::ₘ m) L) (linkBad sb ip) (After sb W G m L) := by
  refine tr_lock fun hip => ?_
  refine .bind (Q := fun _ => Holds sb W G (ip ::ₘ m) (insert ip L)) ?_ fun _ =>
    (tr_unlockput (Frame.free_or_linked hG) hK hip).bind fun _ => tr_failOp_after
  refine .conseq (tr_change (G := G.bump ip i) (E := G.pin ip i) (mem_insert_self _ _)
    (fun _ => ⟨rfl, rfl, rfl⟩) rfl fun s h => ?_) (fun _ => id) fun _ s h => h.unpin (G := G) (fun _ _ _ _ _ => id)
      (k := ip) (i := i) rfl hi
  rcases hG with hF | hC
  · exact hF h.2
  · obtain ⟨hv, href⟩ := h.1.loaded ip (mem_insert_self _ _)
    have hcopy := ((h.1.disk hC.1).copy ip href hv).1
    have hinum : (s.icache ip).inum = i := (h.1.named ip i (update_self ..)).2
    rw [hcopy, hinum]
    exact h.2

theorem tr_linkInto {p : ℕ} (hp : G.Home p) {ip i : ℕ} (hi : ∀ j, G.pins ip = some j → j = i) (new : List Byte) :
    Tr W (Holds sb W (G.bump ip i) (ip ::ₘ m) L) (linkInto sb p ip new) (After sb W G m L) := by
  have hK' : (G.bump ip i).Kept (ip ::ₘ m) := hK.pin ip i rfl
  have hB := Frame.bump_cases hG ip i
  refine tr_match (tr_namex hB hK' (fun _ _ _ _ _ h => hp h) new true) (tr_linkBad hG hK hi) fun x => tr_lock fun hdp =>
    tr_look fun y => ?_
  refine .bind (tr_dirlink hB (hK'.cons _) (mem_insert_self _ _) x.2 y.inum) fun ok => ?_
  cases ok with
  | false =>
    refine .bind (Q := fun _ => Holds sb W (G.bump ip i) (ip ::ₘ m) L) ?_ fun _ => tr_linkBad hG hK hi
    exact (tr_unlockput hB hK' hdp).conseq (fun _ h => h.2 rfl) fun _ _ => id
  | true =>
    refine .bind (Q := fun _ => Holds sb W G.Loose (ip ::ₘ m) L) ?_ fun _ => ?_
    · refine (tr_unlockput (.inl (G.bump ip i).loose_free) hK' hdp).conseq (fun _ h => h.1) fun _ s h =>
        h.unpin (G := G.Loose) ?_ (k := ip) (i := i) rfl hi
      rintro _ _ _ _ _ ⟨B, T, h⟩
      exact ⟨_, _, h⟩
    · exact (tr_iput (.inl G.loose_free) hK).bind fun _ => tr_endOp.bind fun _ => .pure fun _ h =>
        .of_ne h (by decide)

/-- **link** gives back everything; a failure leaves the links as they were. -/
theorem tr_sysLink {p : ℕ} (hp : G.Home p) (hpins : ∀ k, G.pins k = none) (old new : Option (List Byte)) :
    Tr W (Holds sb W G m L) (sysLink sb p old new) (After sb W G m L) := by
  have hstay : Tr W (Holds sb W G m L) (pure (-1) : K ℤ) (After sb W G m L) := .pure fun _ h => h.after _
  cases old with
  | none => exact hstay
  | some old =>
    cases new with
    | none => exact hstay
    | some new =>
      refine tr_beginOp.bind fun _ => tr_match (tr_namei (Frame.free_or_linked hG) hK hp old) tr_failOp_after fun ip =>
        tr_lock fun hip => tr_entry fun s0 => Triple.ite (fun _ => ?_) fun _ => ?_
      · exact (Triple.conseq (tr_unlockput (Frame.free_or_linked hG) hK hip) (fun _ h => h.2) fun _ _ => id).bind
          fun _ => tr_failOp_after
      · have hi : ∀ j, G.pins ip = some j → j = (s0.icache ip).inum := fun j hj => absurd hj (by simp [hpins])
        refine .bind (Q := fun _ => Holds sb W (G.bump ip (s0.icache ip).inum) (ip ::ₘ m) (insert ip L)) ?_
          fun _ => (tr_unlock hip).bind fun _ => tr_linkInto hG hK hp hi new
        refine .conseq (tr_change (G := G.pin ip (s0.icache ip).inum) (E := G.bump ip (s0.icache ip).inum)
          (mem_insert_self _ _)
          (fun _ => ⟨rfl, rfl, rfl⟩) rfl fun s h => ?_) ?_ fun _ _ => id
        · rcases hG with hF | hC
          · exact hF h.2
          · obtain ⟨hv, href⟩ := h.1.loaded ip (mem_insert_self _ _)
            have hcopy := ((h.1.disk hC.1).copy ip href hv).1
            have hinum : (s.icache ip).inum = (s0.icache ip).inum := (h.1.named ip _ (update_self ..)).2
            have hback : (s.dinode (s.icache ip).inum).nlink + 1 - 1 = (s.dinode (s.icache ip).inum).nlink :=
              BitVec.add_sub_cancel _ _
            show G.cond _ (update _ _ _) _ _ _
            rw [hcopy, ← hinum, update_idem, update_self]
            dsimp only
            rw [hback, update_eq_self]
            exact h.2
        · rintro s ⟨rfl, h⟩
          exact h.pin rfl

end Link

/-- **mkdir** and **mknod** give back everything, and a failure has only read. -/
theorem tr_createAndPut (hG : G.Free ∨ G.Linked W) (hK : G.Kept m) (hp : G.Home p) (path : Option (List Byte)) (type : IType)
    (major minor : BitVec 16) : Tr W (Holds sb W G m L) (createAndPut sb p path type major minor) (After sb W G m L) := by
  refine tr_beginOp.bind fun _ => ?_
  cases path with
  | none => exact tr_failOp_after
  | some path =>
    refine tr_match (tr_create hG hK hp path type major minor) tr_failOp_after fun ip => .extract (fun _ h => h.1)
      fun hip => ?_
    refine .bind (.conseq (tr_unlockput (.inl G.loose_free) hK hip) (fun _ h => h.2) fun _ _ => id) fun _ =>
      tr_endOp.bind fun _ => .pure fun _ h => .of_ne h (by decide)

/-! ## exec -/

theorem tr_loadPages (hG : G.Free ∨ W) (hip : ip ∈ L) (off size : ℕ) (js : List ℕ) :
    Tr W (Holds sb W G m L) (loadPages sb ip off size js) fun _ => Holds sb W G m L := by
  induction js with
  | nil => exact .pure fun _ => id
  | cons j js ih =>
    refine .bind (tr_readi hG hip _ (lt_of_le_of_lt (min_le_right _ _) (by norm_num))) fun r => ?_
    cases r with
    | none => exact .pure fun _ => id
    | some l => exact .ite (fun _ => .pure fun _ => id) fun _ => ih

theorem tr_loadHeaders (hG : G.Free ∨ W) (hip : ip ∈ L) (off : ℕ) (mem : ℕ → Bool) (js : List ℕ) :
    Tr W (Holds sb W G m L) (loadHeaders sb ip off mem js) fun _ => Holds sb W G m L := by
  have hstop : ∀ b : Bool, Tr W (Holds sb W G m L) (pure b : K Bool) fun _ => Holds sb W G m L :=
    fun _ => .pure fun _ => id
  induction js with
  | nil => exact hstop true
  | cons j js ih =>
    refine .bind (tr_readi hG hip _ (by norm_num)) fun r => ?_
    cases r with
    | none => exact hstop false
    | some ph =>
      refine .ite (fun _ => hstop false) fun _ => .ite (fun _ => ih) fun _ => .ite (fun _ => hstop false)
        fun _ => .ite (fun _ => hstop false) fun _ => .ite (fun _ => hstop false) fun _ =>
        .ite (fun _ => hstop false) fun _ => ?_
      exact (tr_loadPages hG hip _ _ _).bind fun ok => .ite (fun _ => ih) fun _ => hstop false

/-- **exec** gives back the inode and its lock on every way out. -/
theorem tr_exec (hG : G.Free ∨ G.Linked W) (hK : G.Kept m) (hp : G.Home p) (path : List Byte) (kvm : Bool) (mem : ℕ → Bool)
    (image : Bool) : Tr W (Holds sb W G m L) (exec sb p path kvm mem image) fun _ => Holds sb W G m L := by
  have hW := Frame.Linked.of_free_or hG
  refine tr_beginOp.bind fun _ => tr_match (tr_namei hG hK hp path) tr_failOp fun ip => tr_lock fun hip => ?_
  have hbad : Tr W (Holds sb W G (ip ::ₘ m) (insert ip L)) (execBad sb ip) fun _ => Holds sb W G m L :=
    (tr_unlockput hG hK hip).bind fun _ => tr_failOp
  refine .bind (tr_readi hW (mem_insert_self _ _) _ (by norm_num)) fun r => ?_
  cases r with
  | none => exact hbad
  | some elf =>
    refine .ite (fun _ => hbad) fun _ => .ite (fun _ => hbad) fun _ => .ite (fun _ => hbad) fun _ => ?_
    refine (tr_loadHeaders hW (mem_insert_self _ _) _ mem _).bind fun ok => .ite (fun _ => ?_) fun _ => hbad
    exact (tr_unlockput hG hK hip).bind fun _ => tr_endOp.bind fun _ => .pure fun _ => id

end Xv6.Files
