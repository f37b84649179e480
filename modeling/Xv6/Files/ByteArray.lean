/-
Files as byte arrays: what readi and writei do, seen from outside.

The content of an inode is the list of its bytes, found through its block slots. readi reads a range of it and changes nothing;
writei overwrites a range of it, which may go beyond its end, and leaves all other files alone. Both check their range in
unsigned arithmetic.

Results:
- `readi_run`, `writei_fails`, `writei_writes`: the two functions on a loaded inode;
- `readi_writei_byte_array`: the two together, over all offsets and lengths.
-/
import Xv6.Files.Calls
import Xv6.Fs.Written

namespace Xv6.Files

open Lib Blocks StateProg List

variable {sb : Superblock} {s s' : Kern} {k i off : ℕ} {src : List Byte}

/-- what is in inode i -/
def content (s : Kern) (i : ℕ) : List Byte := (List.range (s.dinode i).size).map (byteAt s.disk.data (s.dinode i))

theorem length_content (s : Kern) (i : ℕ) : (content s i).length = (s.dinode i).size := by
  unfold content
  rw [length_map, length_range]

/-- the array c with src put at off -/
def overwrite (c : List Byte) (off : ℕ) (src : List Byte) : List Byte := c.take off ++ src ++ c.drop (off + src.length)

/-- entry k holds inode i, as it is on disk, and i is a file or a directory with its blocks -/
structure Loaded (sb : Superblock) (k i : ℕ) (s : Kern) : Prop where
  good : Good sb s.disk.data s.dinode (sizes s.dinode)
  inum : (s.icache k).inum = i
  copy : (s.icache k).n = s.dinode i
  alloc : (s.dinode i).type ≠ .free
  file : (s.dinode i).type ≠ .dev

theorem Loaded.size_le (h : Loaded sb k i s) : (s.dinode i).size ≤ MAXFILE * BSIZE :=
  (le_nblk _).trans (Nat.mul_le_mul_right _ (h.good.held i h.alloc).le)

/-- **readi** delivers a range of the content. -/
theorem readi_run (h : Loaded sb k i s) {n : ℕ} (hoff : off < 2 ^ 32) (hn : n < 2 ^ 32) :
    readi sb k off n s = .ok (if (s.dinode i).size < off ∨ 2 ^ 32 ≤ off + n then none
      else some (((content s i).drop off).take n), s) := by
  have hsize := h.size_le
  have hmf : MAXFILE * BSIZE = 71680 := rfl
  unfold readi
  rw [run_bind (show entry k s = .ok (s.icache k, s) from rfl), h.copy, if_neg h.file]
  by_cases hbad : (s.dinode i).size < off ∨ 2 ^ 32 ≤ off + n
  · rw [if_pos (by omega), if_pos hbad]
    rfl
  · rw [if_neg (by omega), if_neg hbad, Nat.mod_eq_of_lt (by omega)]
    generalize hcnt : (if off + n > (s.dinode i).size then (s.dinode i).size - off else n) = cnt
    have hcnt' : cnt = min n ((s.dinode i).size - off) := by
      rw [← hcnt]
      split_ifs <;> omega
    have hread : onInode k (fun d m => readLoop sb d m off cnt) s =
        .ok ((List.range cnt).map fun j => byteAt s.disk.data (s.dinode i) (off + j), s) := by
      unfold onInode
      dsimp only
      rw [h.copy, readLoop_content h.good h.alloc cnt off ((show _ ≤ (s.dinode i).size by omega).trans (le_nblk _))]
      dsimp only
      rw [← h.copy, update_eq_self]
    rw [run_bind hread]
    show Except.ok _ = Except.ok _
    congr 3
    refine ext_getElem ?_ fun j h1 h2 => ?_
    · rw [length_map, length_range, length_take, length_drop, length_content]
      exact hcnt'
    · rw [getElem_map, getElem_range, getElem_take, getElem_drop]
      unfold content
      rw [getElem_map, getElem_range]

/-- a range that writei refuses -/
def Refused (size off len : ℕ) : Prop := size < off ∨ 2 ^ 32 ≤ off + len ∨ MAXFILE * BSIZE < off + len

theorem writei_fails (h : Loaded sb k i s) (hoff : off < 2 ^ 32) (hlen : src.length < 2 ^ 32)
    (hbad : Refused (s.dinode i).size off src.length) : writei sb k off src s = .ok (none, s) := by
  have hmf : MAXFILE * BSIZE = 71680 := rfl
  unfold Refused at hbad
  unfold writei
  rw [run_bind (show entry k s = .ok (s.icache k, s) from rfl), h.copy, if_neg h.file]
  by_cases h1 : off > (s.dinode i).size ∨ (off + src.length) % 2 ^ 32 < off
  · rw [if_pos h1]
    rfl
  · rw [if_neg h1, if_pos (by omega)]
    rfl

theorem content_congr {s s' : Kern} {i : ℕ} (hsize : (s'.dinode i).size = (s.dinode i).size)
    (hbytes : ∀ o < (s.dinode i).size, byteAt s'.disk.data (s'.dinode i) o = byteAt s.disk.data (s.dinode i) o) :
    content s' i = content s i := by
  unfold content
  rw [hsize]
  exact map_congr_left fun o ho => hbytes o (mem_range.1 ho)

theorem content_overwrite (hoff : off ≤ (s.dinode i).size) (hsize : (s'.dinode i).size = max (s.dinode i).size (off + src.length))
    (hbytes : ∀ o < (s'.dinode i).size, byteAt s'.disk.data (s'.dinode i) o =
      if off ≤ o ∧ o < off + src.length then src.getD (o - off) 0 else byteAt s.disk.data (s.dinode i) o) :
    content s' i = overwrite (content s i) off src := by
  refine ext_getElem? fun o => ?_
  unfold overwrite content
  by_cases ho : o < (s'.dinode i).size
  · rw [getElem?_map, getElem?_range ho, Option.map_some, hbytes o ho]
    by_cases h1 : o < off
    · rw [if_neg (by omega), append_assoc, getElem?_append_left (by simp; omega), getElem?_take_of_lt h1,
        getElem?_map, getElem?_range (by omega), Option.map_some]
    · by_cases h2 : o < off + src.length
      · rw [if_pos ⟨by omega, h2⟩, append_assoc, getElem?_append_right (by simp; omega),
          getElem?_append_left (by simp; omega)]
        simp only [length_take, length_map, length_range, min_eq_left hoff]
        rw [getD_eq_getElem?_getD, getElem?_eq_getElem (by omega), Option.getD_some]
      · rw [if_neg (by omega), getElem?_append_right (by simp; omega)]
        simp only [length_append, length_take, length_map, length_range, min_eq_left hoff,
          getElem?_drop, show off + src.length + (o - (off + src.length)) = o by omega]
        rw [getElem?_map, getElem?_range (by omega), Option.map_some]
  · rw [getElem?_eq_none (by simp; omega), getElem?_eq_none (by simp; omega)]

/-- src was written at off to inode i, which entry k holds; the other inodes are as they were -/
structure Overwritten (sb : Superblock) (k i off : ℕ) (src : List Byte) (s s' : Kern) : Prop where
  loaded : Loaded sb k i s'
  content : content s' i = overwrite (content s i) off src
  size : (s'.dinode i).size = max (s.dinode i).size (off + src.length)
  inode : s'.dinode i = { s.dinode i with size := (s'.dinode i).size, addrs := (s'.dinode i).addrs }
  cache : s'.icache = update s.icache k { s.icache k with n := s'.dinode i }
  rest : s'.file = s.file ∧ s'.pipe = s.pipe ∧ s'.proc = s.proc
  others : ∀ j, j ≠ i → s'.dinode j = s.dinode j ∧ ((s.dinode j).type ≠ .free → Files.content s' j = Files.content s j)

theorem onInode_writeLoop (sb : Superblock) (s : Kern) (k off : ℕ) (src : List Byte) :
    onInode k (fun d m => do
      let (d, m) ← writeLoop sb d m off src
      return (d, m, ())) s = do
    let (d, n) ← writeLoop sb s.disk (s.icache k).n off src
    return ((), { s with disk := d, icache := update s.icache k { s.icache k with n := n } }) := by
  unfold onInode
  dsimp only
  cases writeLoop sb s.disk (s.icache k).n off src <;> rfl

section

variable (h : Loaded sb k i s) (hoff : off ≤ (s.dinode i).size) (hmax : off + src.length ≤ MAXFILE * BSIZE)
include h hoff hmax

theorem writei_error
    {p : Panic} (hloop : writeLoop sb s.disk (s.dinode i) off src = .error p) : writei sb k off src s = .error p := by
  have hmf : MAXFILE * BSIZE = 71680 := rfl
  have hrun := onInode_writeLoop sb s k off src
  rw [h.copy, hloop] at hrun
  unfold writei
  rw [run_bind (show entry k s = .ok (s.icache k, s) from rfl), h.copy, if_neg h.file, if_neg (by omega), if_neg (by omega)]
  show (onInode k _ s >>= _) = _
  rw [hrun]
  rfl

/-- writei when it has done its checks: the state after the loop, and the new size -/
theorem writei_eq
    {d : Dev} {n : Dinode} (hloop : writeLoop sb s.disk (s.dinode i) off src = .ok (d, n)) :
    ∃ t, writei sb k off src s = .ok (some src.length, { s with
      disk := { d with trace := t },
      dinode := update s.dinode i { n with size := max (s.dinode i).size (off + src.length) },
      icache := update s.icache k
        { s.icache k with n := { n with size := max (s.dinode i).size (off + src.length) } } }) ∧
      t = (if (s.dinode i).size < off + src.length then [.logWrite] else []) ++ d.trace := by
  have hmf : MAXFILE * BSIZE = 71680 := rfl
  have hrun := onInode_writeLoop sb s k off src
  rw [h.copy, hloop] at hrun
  unfold writei
  rw [run_bind (show entry k s = .ok (s.icache k, s) from rfl), h.copy, if_neg h.file, if_neg (by omega), if_neg (by omega),
    run_bind hrun]
  unfold onlyIf
  by_cases hgrow : (s.dinode i).size < off + src.length
  · rw [if_pos ⟨by omega, hgrow⟩, run_bind (change_run ..), if_pos hgrow, max_eq_right hgrow.le]
    refine ⟨_, ?_, rfl⟩
    dsimp only
    rw [update_self, update_idem, h.inum]
    rfl
  · have hsame := writeLoop_spec src.length src s.disk s.dinode (sizes s.dinode) off rfl h.good h.alloc
      (hoff.trans (le_nblk _)) hmax
    rw [hloop] at hsame
    have hn : n = s.dinode i := hsame.2 (by unfold sizes nblk; rw [bsize_eq]; omega)
    rw [if_neg (by omega), run_bind (show (pure () : K Unit) _ = .ok ((), _) from rfl), if_neg hgrow, max_eq_left (by omega), hn]
    refine ⟨_, ?_, rfl⟩
    rw [update_eq_self]
    rfl

end

/-- **writei** overwrites a range of the content, unless the disk is full. -/
theorem writei_writes (h : Loaded sb k i s) (hok : ¬ Refused (s.dinode i).size off src.length) :
    Ends (fun p => p = .ballocOutOfBlocks) (fun r => r.1 = some src.length ∧ Overwritten sb k i off src s r.2)
      (writei sb k off src s) := by
  unfold Refused at hok
  have hoff : off ≤ (s.dinode i).size := by omega
  have hmax : off + src.length ≤ MAXFILE * BSIZE := by omega
  have hblk : off ≤ sizes s.dinode i * BSIZE := hoff.trans (le_nblk _)
  have hruns := writeLoop_runs h.good h.alloc hblk hmax
  have hspec := writeLoop_spec src.length src s.disk s.dinode (sizes s.dinode) off rfl h.good h.alloc hblk hmax
  cases hloop : writeLoop sb s.disk (s.dinode i) off src with
  | error p =>
    rw [hloop] at hruns
    rw [writei_error h hoff hmax hloop]
    exact hruns
  | ok r =>
    obtain ⟨d, n⟩ := r
    rw [hloop] at hruns hspec
    obtain ⟨⟨htype, hsize⟩, -, hbytes⟩ := hruns
    obtain ⟨⟨hgood, hcopy⟩, -⟩ := hspec
    obtain ⟨t, hrun, -⟩ := writei_eq h hoff hmax hloop
    have hapart := writeLoop_apart h.good h.alloc hblk hmax hloop
    rw [hrun]
    dsimp only at htype hsize hbytes hgood hcopy hapart
    refine ⟨rfl, ⟨?_, ?_, ?_, ?_, ?_⟩, content_overwrite hoff ?_ fun o ho => ?_, ?_, ?_, ?_, ⟨rfl, rfl, rfl⟩,
      fun j hj => ⟨?_, fun ht => ?_⟩⟩
    · dsimp only
      rw [sizes_update]
      have he : (if src = [] then sizes s.dinode i else max (sizes s.dinode i) (nblk (off + src.length))) =
          nblk (max (s.dinode i).size (off + src.length)) := by
        by_cases h0 : src = []
        · rw [if_pos h0, h0, length_nil, add_zero, max_eq_left hoff]
          rfl
        · rw [if_neg h0]
          unfold sizes nblk
          rw [bsize_eq]
          omega
      rw [he] at hgood
      exact good_setFields hgood rfl rfl
    · dsimp only
      rw [update_self]
      exact h.inum
    · dsimp only
      rw [update_self, update_self]
    · dsimp only
      rw [update_self]
      exact htype ▸ h.alloc
    · dsimp only
      rw [update_self]
      exact htype ▸ h.file
    · dsimp only
      rw [update_self]
    · dsimp only at ho ⊢
      rw [update_self] at ho ⊢
      dsimp only at ho
      refine hbytes o (lt_of_lt_of_le ho (max_le_max (le_nblk _) le_rfl))
    · dsimp only
      rw [update_self]
    · dsimp only
      rw [update_self, hcopy]
    · dsimp only
      rw [update_self]
    · exact update_of_ne hj _ _
    · have hj' : update s.dinode i { n with size := max (s.dinode i).size (off + src.length) } j = s.dinode j :=
        update_of_ne hj _ _
      refine content_congr (by dsimp only; rw [hj']) fun o ho => ?_
      dsimp only
      rw [hj']
      unfold byteAt
      have hne : (s.dinode j).slot s.disk.data (place (o / BSIZE)) ≠ 0 :=
        (h.good.held j ht).slot_ne (by unfold sizes nblk; rw [bsize_eq]; omega)
      rw [hapart.slot hj ht, hapart j hj ht _ hne]

/-- **A file is a byte array.** On a file system whose books are right, for a loaded inode that is not a device, and for all
offsets and lengths: readi fails iff the range starts behind the end or wraps, and otherwise delivers the bytes of the range
that there are, and changes nothing. writei fails and changes nothing if the range starts behind the end, wraps, or goes beyond
the largest file; otherwise, unless the disk is full, it replaces the bytes of the range and extends the file as far as
necessary, and all other inodes keep their size and content. -/
theorem readi_writei_byte_array (h : Loaded sb k i s) :
    (∀ off n, off < 2 ^ 32 → n < 2 ^ 32 →
      readi sb k off n s = .ok (if (s.dinode i).size < off ∨ 2 ^ 32 ≤ off + n then none
        else some (((content s i).drop off).take n), s)) ∧
    ∀ off src, off < 2 ^ 32 → src.length < 2 ^ 32 →
      (Refused (s.dinode i).size off src.length → writei sb k off src s = .ok (none, s)) ∧
      (¬ Refused (s.dinode i).size off src.length →
        Ends (fun p => p = .ballocOutOfBlocks) (fun r => r.1 = some src.length ∧ Overwritten sb k i off src s r.2)
          (writei sb k off src s)) :=
  ⟨fun _ _ hoff hn => readi_run h hoff hn, fun _ _ hoff hlen => ⟨writei_fails h hoff hlen, writei_writes h⟩⟩

/-- after boot, with the root directory locked -/
def lockedRoot : Kern := { boot freshData freshInodes with
  icache := update (boot freshData freshInodes).icache 0 ⟨ROOTINO, 1, true, true, freshInodes ROOTINO⟩ }

/-- the first byte of the root directory is 1, and a 2 can be written over it -/
theorem byte_array_root : readi mkfsSuper 0 0 1 lockedRoot = .ok (some [1], lockedRoot) ∧
    Ends (fun p => p = .ballocOutOfBlocks) (fun r => r.1 = some 1 ∧ content r.2 ROOTINO =
      overwrite (content lockedRoot ROOTINO) 0 [2]) (writei mkfsSuper 0 0 [2] lockedRoot) := by
  have h : Loaded mkfsSuper 0 ROOTINO lockedRoot := ⟨fresh_good, rfl, rfl, by decide, by decide⟩
  obtain ⟨hread, hwrite⟩ := readi_writei_byte_array h
  refine ⟨?_, ((hwrite 0 [2] (by decide) (by decide)).2 ?_).mono fun r hr => ⟨hr.1, hr.2.content⟩⟩
  · have hbyte : ((content lockedRoot ROOTINO).drop 0).take 1 = [1] := by decide +kernel
    rw [hread 0 1 (by decide) (by decide), if_neg (by decide), hbyte]
  · unfold Refused
    decide

end Xv6.Files
