/-
Processes that write to one open file: filewrite on a struct file that fork or dup has shared, as the test sharedfd does.

filewrite cuts its buffer into pieces, and writes each piece in a transaction of its own with the inode locked: the offset is
read, the piece written there and the offset advanced under the lock. Between two pieces any other process may write one of
its own. A state is the kernel, the pieces that each process has still to write, and a record of the calls made and of the
pieces written.

Results:
- `round_spec`: what one piece does to the file;
- `shared_writers`: in every interleaving the file holds the pieces one behind the other, in the order they were written.
-/
import Xv6.Files.ByteArray
import Mathlib.Data.List.GetD

namespace Xv6.Files

open Lib Blocks StateProg List

variable {sb : Superblock} {s s' : Kern} {f k : ℕ} {src : List Byte}

/-! ## One piece -/

/-- filewrite goes on with the next piece if the last one was written -/
theorem writeRounds_cons (sb : Superblock) (f ip : ℕ) (src : List Byte) (rest : List (List Byte)) :
    writeRounds sb f ip (src :: rest) = do
      if ← writeRounds sb f ip [src] then writeRounds sb f ip rest else return false := by
  simp only [writeRounds, bind_assoc]
  refine bind_congr fun _ => bind_congr fun _ => bind_congr fun _ => bind_congr fun r => bind_congr fun _ =>
    bind_congr fun _ => bind_congr fun _ => ?_
  cases r with
  | none => rfl
  | some m =>
    by_cases hm : m = src.length
    · simp only [ne_eq, hm, not_true_eq_false, if_false]
      rfl
    · simp only [ne_eq, hm, not_false_eq_true, if_true]
      rfl

/-- the inode of a file -/
def fileInum (f : ℕ) (s : Kern) : ℕ := (s.icache (s.file f).ip).inum

/-- byte o of what is in the file, on disk -/
def fileByte (f : ℕ) (s : Kern) (o : ℕ) : Byte := byteAt s.disk.data (s.dinode (fileInum f s)) o

/-- f is open for writing, on a file that is not a directory or device, and no call is running. The offset is in the file:
open starts at 0, and fileread and filewrite move it over bytes of the file only. -/
structure Opened (sb : Superblock) (f : ℕ) (s : Kern) : Prop where
  settled : Settled sb True s
  ref : 0 < (s.file f).ref
  type : (s.file f).type = .inode
  writable : (s.file f).writable = true
  file : (s.dinode (fileInum f s)).type = .file
  off_le : (s.file f).off ≤ (s.dinode (fileInum f s)).size

theorem Opened.lt (h : Opened sb f s) : f < NFILE := h.settled.2.1.lt h.ref

theorem Opened.entry_ref (h : Opened sb f s) : 0 < (s.icache (s.file f).ip).ref := by
  have hpos : 0 < fileRefs (s.file f).ip s.file :=
    census_pos.2 ⟨f, h.lt, by rw [if_pos ⟨h.ref, h.type, rfl⟩]; exact Nat.one_pos⟩
  rw [h.settled.1.refs]
  omega

theorem ilock_run (href : 0 < (s.icache k).ref) (hfree : (s.icache k).locked = false)
    (hcopy : (s.icache k).valid = true → (s.icache k).n = s.dinode (s.icache k).inum)
    (htype : (s.dinode (s.icache k).inum).type ≠ .free) :
    ilock k s = .ok ((), { s with
      icache := update s.icache k
        { s.icache k with locked := true, valid := true, n := s.dinode (s.icache k).inum } }) := by
  unfold ilock
  rw [run_bind (show (get : K Kern) s = .ok (s, s) from rfl)]
  dsimp only
  rw [if_neg (by omega), if_neg (by rw [hfree]; decide)]
  cases hv : (s.icache k).valid with
  | true =>
    rw [if_pos rfl, ← hcopy hv, ← hv]
    rfl
  | false =>
    rw [if_neg (by decide), if_neg htype]
    rfl

theorem iunlock_run (href : 0 < (s.icache k).ref) (hlock : (s.icache k).locked = true) :
    iunlock k s = .ok ((), { s with icache := update s.icache k { s.icache k with locked := false } }) := by
  unfold iunlock
  rw [run_bind (show entry k s = .ok (s.icache k, s) from rfl), if_neg]
  · rfl
  · rw [hlock]
    simp only [Bool.true_eq_false, false_or]
    omega

/-- the state when a piece is about to be written: the transaction has begun and the inode is locked -/
def lockedFor (f : ℕ) (s : Kern) : Kern := { s with
  disk := { s.disk with trace := .beginOp :: s.disk.trace },
  icache := update s.icache (s.file f).ip { s.icache (s.file f).ip with
    locked := true, valid := true, n := s.dinode (fileInum f s) } }

/-- what follows writei in the round of the last piece -/
def endPiece (f ip len : ℕ) (r : Option ℕ) : K Bool := do
  modify fun s => { s with file := update s.file f { s.file f with off := (s.file f).off + r.getD 0 } }
  iunlock ip
  endOp
  match r with
  | none => return false
  | some m => if m ≠ len then throw .shortFilewrite else return true

theorem Opened.loaded (h : Opened sb f s) : Loaded sb (s.file f).ip (fileInum f s) (lockedFor f s) := by
  refine ⟨(h.settled.1.disk trivial).good, ?_, ?_, ?_, ?_⟩
  · show (update s.icache _ _ (s.file f).ip).inum = _
    rw [update_self]
    rfl
  · show (update s.icache _ _ (s.file f).ip).n = _
    rw [update_self]
    rfl
  · show (s.dinode (fileInum f s)).type ≠ .free
    rw [h.file]
    decide
  · show (s.dinode (fileInum f s)).type ≠ .dev
    rw [h.file]
    decide

theorem round_eq (h : Opened sb f s) (src : List Byte) : writeRounds sb f (s.file f).ip [src] s =
    (writei sb (s.file f).ip (s.file f).off src >>= endPiece f (s.file f).ip src.length) (lockedFor f s) := by
  have hsync := h.settled.1.disk trivial
  have href := h.entry_ref
  have hlock : (s.icache (s.file f).ip).locked = false := by
    rw [← Bool.not_eq_true, h.settled.1.locks]
    exact Finset.notMem_empty _
  have htype : (s.dinode (s.icache (s.file f).ip).inum).type ≠ .free := fun heq => by
    have := h.file.symm.trans heq
    cases this
  have hbegin : beginOp s = .ok ((), { s with disk := { s.disk with trace := .beginOp :: s.disk.trace } }) := rfl
  have hilock := ilock_run (s := { s with disk := { s.disk with trace := .beginOp :: s.disk.trace } }) href hlock
    (fun hv => (hsync.copy _ href hv).1) htype
  unfold writeRounds
  rw [run_bind hbegin, run_bind hilock]
  rfl

theorem endPiece_run {ip len : ℕ} {r : Option ℕ} (href : 0 < (s.icache ip).ref) (hlock : (s.icache ip).locked = true)
    (hr : r = none ∨ r = some len) : endPiece f ip len r s = .ok (r.isSome, { s with
      disk := { s.disk with trace := .endOp :: s.disk.trace },
      icache := update s.icache ip { s.icache ip with locked := false },
      file := update s.file f { s.file f with off := (s.file f).off + r.getD 0 } }) := by
  have hmodify : ∀ g : Kern → Kern, (modify g : K Unit) s = .ok ((), g s) := fun _ => rfl
  have hunlock := iunlock_run
    (s := { s with file := update s.file f { s.file f with off := (s.file f).off + r.getD 0 } }) (k := ip) href hlock
  have hend : ∀ s : Kern, endOp s = .ok ((), { s with disk := { s.disk with trace := .endOp :: s.disk.trace } }) := fun _ => rfl
  unfold endPiece
  rw [run_bind (hmodify _), run_bind hunlock, run_bind (hend _)]
  rcases hr with rfl | rfl
  · rfl
  · dsimp only
    rw [if_neg (not_not.2 rfl)]
    rfl

theorem endPiece_disk {ip len : ℕ} {r : Option ℕ} {ok : Bool} (h : endPiece f ip len r s = .ok (ok, s')) :
    s'.disk = { s.disk with trace := .endOp :: s.disk.trace } := by
  unfold endPiece at h
  obtain ⟨_, s1, h1, h⟩ := of_bind_ok h
  obtain ⟨_, s2, h2, h⟩ := of_bind_ok h
  obtain ⟨_, s3, h3, h⟩ := of_bind_ok h
  cases h1
  have hdisk : s2.disk = s.disk := by
    unfold iunlock at h2
    rw [run_bind (show entry ip _ = .ok (_, _) from rfl)] at h2
    split_ifs at h2
    · cases h2
    · cases h2
      rfl
  cases h3
  have hlast : s' = { s2 with disk := { s2.disk with trace := .endOp :: s2.disk.trace } } := by
    cases r with
    | none =>
      cases h
      rfl
    | some m =>
      dsimp only at h
      split_ifs at h
      · cases h
      · cases h
        rfl
  rw [hlast, hdisk]

theorem lockedFor_entry (f : ℕ) (s : Kern) : (lockedFor f s).icache (s.file f).ip = { s.icache (s.file f).ip with
    locked := true, valid := true, n := s.dinode (fileInum f s) } := update_self ..

/-- what a piece does: it is in the file at the offset, the offset is behind it, and the other inodes are as they were -/
structure Stored (f : ℕ) (src : List Byte) (s s' : Kern) : Prop where
  file : s'.file = update s.file f { s.file f with off := (s.file f).off + src.length }
  inum : (s'.icache (s.file f).ip).inum = fileInum f s
  type : (s'.dinode (fileInum f s)).type = .file
  size : (s'.dinode (fileInum f s)).size = max (s.dinode (fileInum f s)).size ((s.file f).off + src.length)
  content : content s' (fileInum f s) = overwrite (content s (fileInum f s)) (s.file f).off src

theorem round_run (h : Opened sb f s) (hmax : (s.file f).off + src.length ≤ MAXFILE * BSIZE) :
    Ends (fun p => p = .ballocOutOfBlocks) (fun r => r.1 = true ∧ Stored f src s r.2)
      (writeRounds sb f (s.file f).ip [src] s) := by
  have hmf : MAXFILE * BSIZE = 71680 := rfl
  have hoff := h.off_le
  have hok : ¬ Refused ((lockedFor f s).dinode (fileInum f s)).size (s.file f).off src.length := by
    show ¬ (_ ∨ _ ∨ _)
    have : ((lockedFor f s).dinode (fileInum f s)).size = (s.dinode (fileInum f s)).size := rfl
    omega
  rw [round_eq h]
  refine Ends.bind (writei_writes h.loaded hok) ?_
  rintro ⟨r, s3⟩ ⟨rfl, hover⟩
  obtain ⟨-, hcontent, hsize, hinode, hcache, ⟨hfile, -⟩, -⟩ := hover
  dsimp only at hcontent hsize hinode hcache hfile ⊢
  have hentry : s3.icache (s.file f).ip = { s.icache (s.file f).ip with
      locked := true, valid := true, n := s3.dinode (fileInum f s) } := by
    rw [hcache, update_self, lockedFor_entry]
  rw [endPiece_run (by rw [hentry]; exact h.entry_ref) (by rw [hentry]) (.inr rfl)]
  refine ⟨rfl, ?_, ?_, ?_, hsize, hcontent⟩
  · dsimp only [Option.getD_some]
    rw [hfile]
    rfl
  · dsimp only
    rw [update_self, hentry]
    rfl
  · dsimp only
    rw [hinode]
    exact h.file

theorem byteAt_of_content {i o : ℕ} (ho : o < (s.dinode i).size) :
    byteAt s.disk.data (s.dinode i) o = (content s i).getD o 0 := by
  unfold content
  rw [getD_eq_getElem?_getD, getElem?_map, getElem?_range ho]
  rfl

theorem getD_overwrite {c : List Byte} {off o : ℕ} (hoff : off ≤ c.length) (ho : o < off + src.length) :
    (overwrite c off src).getD o 0 = if off ≤ o then src.getD (o - off) 0 else c.getD o 0 := by
  unfold overwrite
  rw [append_assoc]
  by_cases h : off ≤ o
  · rw [if_pos h, getD_append_right _ _ _ _ (by rw [length_take]; omega), length_take, min_eq_left hoff,
      getD_append _ _ _ _ (by omega)]
  · rw [if_neg h, getD_append _ _ _ _ (by rw [length_take]; omega), getD_eq_getElem?_getD,
      getElem?_take_of_lt (by omega), getD_eq_getElem?_getD]

/-- **One piece of filewrite** is written where the offset is, and the offset moves behind it; or the disk is full. -/
theorem round_spec (h : Opened sb f s) (hmax : (s.file f).off + src.length ≤ MAXFILE * BSIZE) :
    Ends (fun p => p = .ballocOutOfBlocks) (fun r => r.1 = true ∧ Opened sb f r.2 ∧
      ((r.2.file f).ip = (s.file f).ip ∧ fileInum f r.2 = fileInum f s) ∧ (r.2.file f).off = (s.file f).off + src.length ∧
      ∀ o < (s.file f).off + src.length, fileByte f r.2 o =
        if (s.file f).off ≤ o then src.getD (o - (s.file f).off) 0 else fileByte f s o)
      (writeRounds sb f (s.file f).ip [src] s) := by
  have hmf : MAXFILE * BSIZE = 71680 := rfl
  have hlen : ∀ l ∈ [src], l.length < 2 ^ 32 := by
    intro l hl
    rw [mem_singleton.1 hl]
    omega
  have hset := tr_writeRounds h.lt (s.file f).ip [src] hlen s h.settled
  have hrun := round_run h hmax
  cases hx : writeRounds sb f (s.file f).ip [src] s with
  | error p =>
    rw [hx] at hrun
    exact hrun
  | ok r =>
    rw [hx] at hrun hset
    obtain ⟨hr, hfile, hinum, htype, hsize, hcontent⟩ := hrun
    have hf : r.2.file f = { s.file f with off := (s.file f).off + src.length } := by
      rw [hfile, update_self]
    have hi : fileInum f r.2 = fileInum f s := by
      unfold fileInum
      rw [hf]
      exact hinum
    refine ⟨hr, ⟨Holds.settled hset, ?_, ?_, ?_, ?_, ?_⟩, ⟨by rw [hf], hi⟩, ?_, fun o ho => ?_⟩
    · rw [hf]
      exact h.ref
    · rw [hf]
      exact h.type
    · rw [hf]
      exact h.writable
    · rw [hi]
      exact htype
    · rw [hf, hi, hsize]
      exact le_max_right _ _
    · rw [hf]
    · have hoff := h.off_le
      unfold fileByte
      rw [hi, byteAt_of_content (by omega), hcontent, getD_overwrite (by rw [length_content]; exact hoff) ho]
      split_ifs
      · rfl
      · rw [byteAt_of_content (by omega)]

/-! ## Processes that share the file -/

/-- the kernel between two pieces; pieces and calls are recorded with the process that writes -/
structure Shared where
  kern : Kern
  /-- what is left of the call that the process is in -/
  todo : ℕ → List (List Byte)
  /-- the calls made, with their buffers -/
  calls : List (ℕ × List Byte)
  /-- the pieces written -/
  done : List (ℕ × List Byte)

/-- nobody has called filewrite yet -/
def Shared.start (s : Kern) : Shared := ⟨s, fun _ => [], [], []⟩

inductive Shared.Step (sb : Superblock) (f : ℕ) : Shared → Shared → Prop where
  /-- a process that is in no call calls filewrite -/
  | call {w : Shared} (p : ℕ) (src : List Byte) : w.todo p = [] → (w.kern.file f).writable = true →
      (w.kern.file f).type = .inode →
      Step sb f w { w with todo := update w.todo p (pieces src.length src), calls := w.calls ++ [(p, src)] }
  /-- one round of the loop of a process; if writei fails the call is over -/
  | round {w : Shared} {p : ℕ} {src : List Byte} {rest : List (List Byte)} {ok : Bool} {s : Kern} : w.todo p = src :: rest →
      writeRounds sb f (w.kern.file f).ip [src] w.kern = .ok (ok, s) →
      Step sb f w ⟨s, update w.todo p (if ok then rest else []), w.calls,
        if ok then w.done ++ [(p, src)] else w.done⟩

abbrev Shared.Run (sb : Superblock) (f : ℕ) : Shared → Shared → Prop := Relation.ReflTransGen (Shared.Step sb f)

/-- the pieces of calls, call by call -/
def chunks (l : List (ℕ × List Byte)) : List (ℕ × List Byte) := l.flatMap fun y => (pieces y.2.length y.2).map (Prod.mk y.1)

/-- one behind the other -/
def bytes (l : List (ℕ × List Byte)) : List Byte := l.flatMap Prod.snd

/-- what process p has in l -/
def ofProc (p : ℕ) (l : List (ℕ × List Byte)) : List (ℕ × List Byte) := l.filter fun y => y.1 = p

/-! ## Pieces -/

theorem pieces_flatten (fuel : ℕ) : ∀ src : List Byte, src.length ≤ fuel → (pieces fuel src).flatten = src := by
  induction fuel with
  | zero =>
    intro src h
    rw [length_eq_zero_iff.1 (Nat.le_zero.1 h)]
    rfl
  | succ fuel ih =>
    intro src h
    unfold pieces
    have hpos : 0 < maxWrite := by decide
    split_ifs with h0
    · rw [h0]
      rfl
    · rw [flatten_cons, ih _ (by rw [length_drop]; omega), take_append_drop]

theorem bytes_append (l l' : List (ℕ × List Byte)) : bytes (l ++ l') = bytes l ++ bytes l' := flatMap_append ..

theorem bytes_snoc (l : List (ℕ × List Byte)) (p : ℕ) (src : List Byte) : bytes (l ++ [(p, src)]) = bytes l ++ src := by
  rw [bytes_append]
  exact congrArg _ (flatMap_singleton ..)

theorem bytes_pieces (p : ℕ) (l : List (List Byte)) : bytes (l.map (Prod.mk p)) = l.flatten := by
  unfold bytes
  rw [flatMap_map, flatMap_id']

/-- the pieces of a call, one behind the other, are its buffer -/
theorem bytes_chunks (l : List (ℕ × List Byte)) : bytes (chunks l) = bytes l := by
  induction l with
  | nil => rfl
  | cons y l ih =>
    have hc : chunks (y :: l) = (pieces y.2.length y.2).map (Prod.mk y.1) ++ chunks l := flatMap_cons ..
    rw [hc, bytes_append, ih, bytes_pieces, pieces_flatten _ _ le_rfl]
    exact (flatMap_cons ..).symm

theorem chunks_append (l : List (ℕ × List Byte)) (p : ℕ) (src : List Byte) :
    chunks (l ++ [(p, src)]) = chunks l ++ (pieces src.length src).map (Prod.mk p) := by
  unfold chunks
  rw [flatMap_append, flatMap_singleton]

theorem ofProc_append (p : ℕ) (l l' : List (ℕ × List Byte)) : ofProc p (l ++ l') = ofProc p l ++ ofProc p l' :=
  filter_append ..

theorem ofProc_own (p : ℕ) (l : List (List Byte)) : ofProc p (l.map (Prod.mk p)) = l.map (Prod.mk p) :=
  filter_eq_self.2 fun y hy => by
    obtain ⟨c, -, rfl⟩ := mem_map.1 hy
    exact decide_eq_true rfl

theorem ofProc_other {p q : ℕ} (h : q ≠ p) (l : List (List Byte)) : ofProc q (l.map (Prod.mk p)) = [] :=
  filter_eq_nil_iff.2 fun y hy => by
    obtain ⟨c, -, rfl⟩ := mem_map.1 hy
    simpa using h.symm

theorem count_ofProc (y : ℕ × List Byte) (l : List (ℕ × List Byte)) : (ofProc y.1 l).count y = l.count y :=
  count_filter (by simp)

theorem bytes_length_le {l l' : List (ℕ × List Byte)} (h : ∀ p, ofProc p l <+: ofProc p l') :
    (bytes l).length ≤ (bytes l').length := by
  have hsub : l.Subperm l' := subperm_ext_iff.2 fun y _ => by
    rw [← count_ofProc, ← count_ofProc y l']
    exact (h y.1).sublist.count_le y
  obtain ⟨l2, hperm, hl⟩ := hsub
  have hlen := (hperm.flatMap_right Prod.snd).length_eq
  have hle := (hl.flatMap Prod.snd).length_le
  unfold bytes
  omega

theorem perm_of_ofProc {l l' : List (ℕ × List Byte)} (h : ∀ p, ofProc p l = ofProc p l') : l.Perm l' :=
  perm_iff_count.2 fun y => by rw [← count_ofProc, ← count_ofProc y l', h]

/-! ## Every interleaving -/

/-- how the file stands, since s -/
structure Shares (sb : Superblock) (f : ℕ) (s : Kern) (w : Shared) : Prop where
  opened : Opened sb f w.kern
  inum : fileInum f w.kern = fileInum f s
  off : (w.kern.file f).off = (s.file f).off + (bytes w.done).length
  before : ∀ o < (s.file f).off, fileByte f w.kern o = fileByte f s o
  written : ∀ j < (bytes w.done).length, fileByte f w.kern ((s.file f).off + j) = (bytes w.done).getD j 0
  order : ∀ p, ofProc p w.done ++ (w.todo p).map (Prod.mk p) = ofProc p (chunks w.calls)

variable {w w' : Shared} {p : ℕ} {rest : List (List Byte)}

theorem Opened.shares (h : Opened sb f s) : Shares sb f s (.start s) :=
  ⟨h, rfl, rfl, fun _ _ => rfl, fun _ hj => absurd hj (Nat.not_lt_zero _), fun _ => rfl⟩

/-- what was written and the next piece of p fit in what was called for -/
theorem Shares.room (h : Shares sb f s w) (hp : w.todo p = src :: rest) :
    (bytes w.done).length + src.length ≤ (bytes w.calls).length := by
  have hpre : ∀ q, ofProc q (w.done ++ [(p, src)]) <+: ofProc q (chunks w.calls) := by
    intro q
    rw [← h.order q, ofProc_append, prefix_append_right_inj]
    by_cases hq : q = p
    · rw [hq, hp, ← map_singleton (f := Prod.mk p), ofProc_own]
      exact ⟨rest.map (Prod.mk p), rfl⟩
    · rw [← map_singleton (f := Prod.mk p), ofProc_other hq]
      exact nil_prefix
  have hle := bytes_length_le hpre
  rw [bytes_chunks, bytes_snoc, length_append] at hle
  exact hle

theorem Shares.round (h : Shares sb f s w) (hp : w.todo p = src :: rest) {s' : Kern} (hopen : Opened sb f s')
    (hinum : fileInum f s' = fileInum f w.kern) (hoff : (s'.file f).off = (w.kern.file f).off + src.length)
    (hbytes : ∀ o < (w.kern.file f).off + src.length, fileByte f s' o =
      if (w.kern.file f).off ≤ o then src.getD (o - (w.kern.file f).off) 0 else fileByte f w.kern o) :
    Shares sb f s ⟨s', update w.todo p rest, w.calls, w.done ++ [(p, src)]⟩ := by
  rw [h.off] at hoff hbytes
  refine ⟨hopen, hinum.trans h.inum, ?_, fun o ho => ?_, fun j hj => ?_, fun q => ?_⟩
  · rw [hoff, bytes_snoc, length_append, Nat.add_assoc]
  · rw [hbytes o (by omega), if_neg (by omega), h.before o ho]
  · dsimp only at hj ⊢
    rw [bytes_snoc] at hj ⊢
    rw [length_append] at hj
    rw [hbytes _ (by omega)]
    by_cases hlt : j < (bytes w.done).length
    · rw [if_neg (by omega), h.written j hlt, getD_append _ _ _ _ hlt]
    · rw [if_pos (by omega), getD_append_right _ _ _ _ (by omega)]
      congr 1
      omega
  · have horder := h.order q
    dsimp only
    rw [ofProc_append, ← map_singleton (f := Prod.mk p)]
    by_cases hq : q = p
    · subst hq
      rw [update_self, ofProc_own, ← horder, hp]
      simp only [map_cons, map_nil, append_assoc, singleton_append]
    · rw [update_of_ne hq, ofProc_other hq, append_nil]
      exact horder

theorem Shares.step (h : Shares sb f s w) (hstep : Shared.Step sb f w w')
    (hmax : (s.file f).off + (bytes w'.calls).length ≤ MAXFILE * BSIZE) : Shares sb f s w' := by
  cases hstep with
  | call p src hp _ _ =>
    refine ⟨h.opened, h.inum, h.off, h.before, h.written, fun q => ?_⟩
    have horder := h.order q
    dsimp only
    rw [chunks_append, ofProc_append, ← horder]
    by_cases hq : q = p
    · subst hq
      rw [update_self, ofProc_own, hp, map_nil, append_nil]
    · rw [update_of_ne hq, ofProc_other hq, append_nil]
  | @round p src rest ok s1 hp hrun =>
    have hroom := h.room hp
    have hlim : (w.kern.file f).off + src.length ≤ MAXFILE * BSIZE := by
      rw [h.off]
      dsimp only at hmax
      omega
    have hspec := round_spec h.opened hlim
    rw [hrun] at hspec
    obtain ⟨rfl, hopen, ⟨-, hinum⟩, hoff, hbytes⟩ := hspec
    exact h.round hp hopen hinum hoff hbytes

theorem Shared.Step.calls_le (h : Shared.Step sb f w w') : (bytes w.calls).length ≤ (bytes w'.calls).length := by
  cases h with
  | call p src _ _ _ =>
    dsimp only
    rw [bytes_append, length_append]
    omega
  | round _ _ => exact le_rfl

theorem Opened.run (h : Opened sb f s) (hrun : Shared.Run sb f (.start s) w)
    (hmax : (s.file f).off + (bytes w.calls).length ≤ MAXFILE * BSIZE) : Shares sb f s w := by
  induction hrun with
  | refl => exact h.shares
  | tail _ hstep ih =>
    have := hstep.calls_le
    exact (ih (by omega)).step hstep hmax

/-! ## One process alone -/

theorem rounds_run (l : List (List Byte)) : ∀ {w : Shared} {ok : Bool} {s' : Kern}, Opened sb f w.kern →
    (w.kern.file f).off + l.flatten.length ≤ MAXFILE * BSIZE → w.todo p = l →
    writeRounds sb f (w.kern.file f).ip l w.kern = .ok (ok, s') →
    ok = true ∧ Shared.Run sb f w ⟨s', update w.todo p [], w.calls, w.done ++ l.map (Prod.mk p)⟩ := by
  induction l with
  | nil =>
    intro w ok s' _ _ hp hrun
    cases hrun
    have hsame : update w.todo p [] = w.todo := by rw [← hp, update_eq_self]
    rw [hsame, map_nil, append_nil]
    exact ⟨rfl, .refl⟩
  | cons src rest ih =>
    intro w ok s' hopen hmax hp hrun
    rw [flatten_cons, length_append] at hmax
    have hlim : (w.kern.file f).off + src.length ≤ MAXFILE * BSIZE := by omega
    have hspec := round_spec hopen hlim
    rw [writeRounds_cons] at hrun
    obtain ⟨r, s1, hx, hrun⟩ := of_bind_ok hrun
    rw [hx] at hspec
    obtain ⟨rfl, hopen1, ⟨hip, -⟩, hoff, -⟩ := hspec
    dsimp only at hip hoff hopen1
    rw [if_pos rfl, ← hip] at hrun
    have hstep := Shared.Step.round hp hx
    rw [if_pos rfl, if_pos rfl] at hstep
    obtain ⟨hok, hrest⟩ := ih (w := ⟨s1, update w.todo p rest, w.calls, w.done ++ [(p, src)]⟩) hopen1
      (by dsimp only; omega) (update_self ..) hrun
    refine ⟨hok, .head hstep ?_⟩
    dsimp only at hrest
    rw [update_idem, append_assoc] at hrest
    exact hrest

/-- **filewrite** is the run in which its process is alone: it returns the length of the buffer, and every piece is written. -/
theorem filewrite_run (h : Opened sb f s) (hmax : (s.file f).off + src.length ≤ MAXFILE * BSIZE) (p : ℕ) {n : ℤ} {s' : Kern}
    (hrun : filewrite sb f src s = .ok (n, s')) :
    n = src.length ∧ Shared.Run sb f (.start s) ⟨s', fun _ => [], [(p, src)], chunks [(p, src)]⟩ := by
  unfold filewrite at hrun
  rw [run_bind (show (get : K Kern) s = .ok (s, s) from rfl)] at hrun
  rw [if_neg (by rw [h.writable]; decide), h.type] at hrun
  obtain ⟨ok, s1, hx, hrun⟩ := of_bind_ok hrun
  obtain ⟨rfl, hrest⟩ := rounds_run (p := p) (pieces src.length src)
    (w := ⟨s, update (fun _ => []) p (pieces src.length src), [(p, src)], []⟩) h
    (by rw [pieces_flatten _ _ le_rfl]; exact hmax) (by dsimp only; rw [update_self]) hx
  cases hrun
  refine ⟨rfl, .head (.call p src rfl h.writable h.type) ?_⟩
  dsimp only at hrest
  rw [update_idem, update_eq_self] at hrest
  have hchunks : chunks [(p, src)] = (pieces src.length src).map (Prod.mk p) := flatMap_singleton ..
  rw [hchunks]
  exact hrest

/-! ## Every run -/

/-- **Writers that share an open file.** From any state between calls, with f open for writing on a file: however the pieces
of any calls of filewrite on f follow each other, the file holds the pieces that were written one behind the other in that
order, from where the offset was, and the offset is behind them; the pieces of each process are written in the order of its
calls and within a call from first to last, each once; when the calls are over, every piece of every call is there, and the
offset has moved by the lengths of all buffers. A piece that is due is written unless the disk is full. -/
theorem shared_writers (sb : Superblock) (data : Store) (dinode : ℕ → Dinode) (hgood : Good sb data dinode (sizes dinode))
    (s : Kern) (hreach : Reach sb (fun s => s = boot data dinode) s) (f : ℕ) (href : 0 < (s.file f).ref)
    (htype : (s.file f).type = .inode) (hwritable : (s.file f).writable = true) (hfile : (s.dinode (fileInum f s)).type = .file)
    (hoff : (s.file f).off ≤ (s.dinode (fileInum f s)).size) (w : Shared) (hrun : Shared.Run sb f (.start s) w)
    (hmax : (s.file f).off + (bytes w.calls).length ≤ MAXFILE * BSIZE) :
    (fileInum f w.kern = fileInum f s ∧ (∀ o < (s.file f).off, fileByte f w.kern o = fileByte f s o) ∧
      (List.range (bytes w.done).length).map (fun j => fileByte f w.kern ((s.file f).off + j)) = bytes w.done ∧
      (w.kern.file f).off = (s.file f).off + (bytes w.done).length) ∧
    (∀ p, ofProc p w.done ++ (w.todo p).map (Prod.mk p) = ofProc p (chunks w.calls)) ∧
    ((∀ p, w.todo p = []) → w.done.Perm (chunks w.calls) ∧ (bytes w.done).length = (bytes w.calls).length ∧
      (w.kern.file f).off = (s.file f).off + (bytes w.calls).length) ∧ ∀ p src rest, w.todo p = src :: rest →
      (∃ s', writeRounds sb f (w.kern.file f).ip [src] w.kern = .ok (true, s')) ∨
      writeRounds sb f (w.kern.file f).ip [src] w.kern = .error .ballocOutOfBlocks := by
  have hopen : Opened sb f s := ⟨reach_settled (fun _ => hgood) hreach, href, htype, hwritable, hfile, hoff⟩
  have h := hopen.run hrun hmax
  refine ⟨⟨h.inum, h.before, ?_, h.off⟩, h.order, fun hidle => ?_, fun p src rest hp => ?_⟩
  · refine ext_getElem (by simp) fun j hj hj' => ?_
    rw [getElem_map, getElem_range, h.written j hj', getD_eq_getElem _ _ hj']
  · have hperm : w.done.Perm (chunks w.calls) := perm_of_ofProc fun p => by
      rw [← h.order p, hidle p, map_nil, append_nil]
    have hlen := (hperm.flatMap_right Prod.snd).length_eq
    have hbytes : (bytes w.done).length = (bytes w.calls).length := by
      rw [← bytes_chunks w.calls]
      exact hlen
    exact ⟨hperm, hbytes, by rw [h.off, hbytes]⟩
  · have hroom := h.room hp
    have hlim : (w.kern.file f).off + src.length ≤ MAXFILE * BSIZE := by
      rw [h.off]
      omega
    have hspec := round_spec h.opened hlim
    cases hx : writeRounds sb f (w.kern.file f).ip [src] w.kern with
    | ok r =>
      rw [hx] at hspec
      obtain ⟨r, s'⟩ := r
      obtain ⟨rfl, -⟩ := hspec
      exact .inl ⟨s', rfl⟩
    | error e =>
      rw [hx] at hspec
      exact .inr (congrArg _ hspec)

/-- two processes write to the file that init has created: the second is first -/
theorem shared_writers_example : ∃ s w, Reach mkfsSuper (fun s => s = boot freshData freshInodes) s ∧
    Shared.Run mkfsSuper 0 (.start s) w ∧ w.calls = [(1, [7, 8]), (2, [9])] ∧ w.done = [(2, [9]), (1, [7, 8])] ∧
    (List.range 3).map (fun j => fileByte 0 w.kern ((s.file 0).off + j)) = [9, 7, 8] ∧
    (w.kern.file 0).off = (s.file 0).off + 3 := by
  obtain ⟨r, s, hopen, hseen⟩ := of_seen (f := fun _ s => (((s.file 0).ref, (s.file 0).type, (s.file 0).writable),
      ((s.dinode (fileInum 0 s)).type, (s.file 0).off), seen (fun r s => (r, (s.file 0).off))
        ((do
          let ok ← writeRounds mkfsSuper 0 (s.file 0).ip [[9]]
          let s1 ← get
          let ok' ← writeRounds mkfsSuper 0 (s1.file 0).ip [[7, 8]]
          return if ok && ok' then 1 else 0) s)))
    (show seen _ ((Call.open (some [0x61]) 0x202).code mkfsSuper 0 (boot freshData freshInodes)) =
      some ((1, .inode, true), (.file, 0), some (1, 3)) by decide +kernel)
  simp only [Prod.mk.injEq] at hseen
  obtain ⟨⟨href, htype, hwritable⟩, ⟨hfile, hoff⟩, htwo⟩ := hseen
  obtain ⟨r', s', hrounds, hr'⟩ := of_seen htwo
  obtain ⟨ok, s1, h1, hrounds⟩ := of_bind_ok hrounds
  rw [run_bind (show (get : K Kern) s1 = .ok (s1, s1) from rfl)] at hrounds
  obtain ⟨ok', s2, h2, hrounds⟩ := of_bind_ok hrounds
  cases hrounds
  have hok : ok = true ∧ ok' = true := by
    have hfst := congrArg Prod.fst hr'
    dsimp only at hfst
    revert hfst
    cases ok <;> cases ok' <;> decide
  obtain ⟨rfl, rfl⟩ := hok
  have hreach : Reach mkfsSuper (fun s => s = boot freshData freshInodes) s := .call _ (.start rfl) rfl hopen
  have hrun : Shared.Run mkfsSuper 0 (.start s) _ := .tail (.tail (.tail (.tail .refl (.call 1 [7, 8] rfl hwritable htype))
    (.call 2 [9] (by exact rfl) hwritable htype)) (.round (p := 2) (by exact rfl) h1)) (.round (p := 1) (by exact rfl) h2)
  obtain ⟨⟨-, -, hbytes, hoff'⟩, -⟩ := shared_writers mkfsSuper freshData freshInodes fresh_good s hreach 0 (by omega) htype
    hwritable hfile (by rw [hoff]; exact Nat.zero_le _) _ hrun (by rw [hoff]; show 0 + 3 ≤ MAXFILE * BSIZE; decide)
  exact ⟨s, _, hreach, hrun, rfl, rfl, hbytes, hoff'⟩

end Xv6.Files
