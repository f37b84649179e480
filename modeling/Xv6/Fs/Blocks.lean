/-
The block layer of the file system: the bitmap, the block slots of inodes, and the functions that allocate and free blocks.

Blocks are arrays of bytes. The bitmap and the indirect blocks are such blocks, read and written through masks and words as
in the source, so that a block used twice would be overwritten here too. The inode blocks and the copies of inodes in the
inode cache are tables of inodes. Transactions are taken one after the other.

Results:
- `balloc_spec`: balloc finds a free block, marks only it and clears it;
- `bmap_spec`: bmap of the first missing block of a file, or of one it has, keeps the books;
- `itrunc_spec`: itrunc frees every block of the inode, each one once.
-/
import Xv6.Fs.Sysfile
import Xv6.Lib.Exact
import Xv6.Lib.StateProg

namespace Xv6.Blocks

open Lib Sysfile List BitVec
open Function (update_eq_self_iff)

/-! ## Model -/

/-- bitmap bits per block -/
def BPB : ℕ := BSIZE * 8

/-- struct superblock as far as the block layer reads it, with the end of the metadata as mkfs lays it out -/
structure Superblock where
  size : ℕ
  ninodes : ℕ
  bmapstart : ℕ
  /-- the blocks before this one are boot block, super block, log, inode blocks and bitmap -/
  nmeta : ℕ
  nmeta_pos : 0 < nmeta
  size_lt : size < 2 ^ 32
  bitmap_lt : ∀ b < size, b / BPB + bmapstart < nmeta

inductive Panic where
  | ballocOutOfBlocks
  | freeingFreeBlock
  | bmapOutOfRange
  | ilockNoType
  | iallocNoInodes
  | dirlookupNotDir
  | dirlookupRead
  | dirlinkRead
  | dirlink
  | isdiremptyReadi
  | unlinkNlink
  | unlinkWritei
  | createDots
  | createDirlink
  | igetNoInodes
  | ilock
  | iunlock
  | filedup
  | fileclose
  | fileread
  | filewrite
  | shortFilewrite
  | initExiting
  /-- not a panic: the caller sleeps for ever on a lock it holds -/
  | hang
  deriving DecidableEq

/-- what a call does to the log -/
inductive LogEv where
  | beginOp
  | endOp
  | iput
  | logWrite
  deriving DecidableEq

abbrev Store := ℕ → Block

/-- the blocks as the buffer cache shows them, and what has been done to the log so far, the latest first -/
structure Dev where
  data : Store
  trace : List LogEv

/-- a modified buffer is handed to log_write -/
def Dev.write (d : Dev) (b : ℕ) (v : Block) : Dev := ⟨update d.data b v, .logWrite :: d.trace⟩

/-- struct dinode; `addrs` ends with the address of the indirect block -/
structure Dinode where
  type : IType
  major : BitVec 16
  minor : BitVec 16
  nlink : BitVec 16
  size : ℕ
  addrs : Fin (NDIRECT + 1) → ℕ

def Dinode.setAddr (n : Dinode) (k : Fin (NDIRECT + 1)) (b : ℕ) : Dinode := { n with addrs := update n.addrs k b }

/-- the slot of the indirect block -/
abbrev indirect : Fin (NDIRECT + 1) := Fin.last NDIRECT

/-- `1 << (bi % 8)` -/
def mask (bi : ℕ) : Byte := 1#8 <<< (bi % 8)

variable (sb : Superblock)

/-- block of the free map with the bit of block b -/
def BBLOCK (b : ℕ) : ℕ := b / BPB + sb.bmapstart

/-- the bit of block b is set -/
def inUse (B : Store) (b : ℕ) : Bool := decide ((B (BBLOCK sb b)).get (b % BPB / 8) &&& mask (b % BPB) ≠ 0)

/-- sets the bit of block b -/
def mark (d : Dev) (b : ℕ) : Dev :=
  let data := d.data (BBLOCK sb b)
  d.write (BBLOCK sb b) (data.set (b % BPB / 8) (data.get (b % BPB / 8) ||| mask (b % BPB)))

def bzero (d : Dev) (b : ℕ) : Dev := d.write b (Bytes.zero BSIZE)

/-- the inner loop of balloc, over the bits of one block of the bitmap -/
def ballocScan (data : Block) (b : ℕ) : Option ℕ :=
  (List.range BPB).find? fun bi => decide (b + bi < sb.size) && decide (data.get (bi / 8) &&& mask bi = 0)

/-- the block that balloc takes -/
def ballocFind (B : Store) : Option ℕ :=
  (List.range ((sb.size + BPB - 1) / BPB)).findSome? fun k =>
    (ballocScan sb (B (BBLOCK sb (k * BPB))) (k * BPB)).map (k * BPB + ·)

def balloc (d : Dev) : Except Panic (Dev × ℕ) :=
  match ballocFind sb d.data with
  | none => .error .ballocOutOfBlocks
  | some b => .ok (bzero (mark sb d b) b, b)

def bfree (d : Dev) (b : ℕ) : Except Panic Dev :=
  let data := d.data (BBLOCK sb b)
  if data.get (b % BPB / 8) &&& mask (b % BPB) = 0 then .error .freeingFreeBlock
  else .ok (d.write (BBLOCK sb b) (data.set (b % BPB / 8) (data.get (b % BPB / 8) &&& ~~~mask (b % BPB))))

/-- the first half of bmap past NDIRECT: the indirect block, allocated if necessary -/
def bmapIndirect (d : Dev) (n : Dinode) : Except Panic (Dev × Dinode) :=
  if n.addrs indirect = 0 then do
    let (d, b) ← balloc sb d
    return (d, n.setAddr indirect b)
  else return (d, n)

/-- the second half: the entry of the indirect block -/
def bmapEntry (d : Dev) (n : Dinode) (j : ℕ) : Except Panic (Dev × Dinode × ℕ) :=
  let x := n.addrs indirect
  if (d.data x).getWord (4 * j) = 0 then do
    let (d, b) ← balloc sb d
    return (d.write x ((d.data x).setWord (4 * j) (BitVec.ofNat 32 b)), n, b)
  else return (d, n, ((d.data x).getWord (4 * j)).toNat)

/-- the disk block of block bn of the inode; what is missing is allocated -/
def bmap (d : Dev) (n : Dinode) (bn : ℕ) : Except Panic (Dev × Dinode × ℕ) :=
  if h : bn < NDIRECT then
    let k : Fin (NDIRECT + 1) := ⟨bn, by omega⟩
    if n.addrs k = 0 then do
      let (d, b) ← balloc sb d
      return (d, n.setAddr k b, b)
    else return (d, n, n.addrs k)
  else if bn - NDIRECT < NINDIRECT then do
    let (d, n) ← bmapIndirect sb d n
    bmapEntry sb d n (bn - NDIRECT)
  else .error .bmapOutOfRange

/-- the first loop of itrunc -/
def freeDirect : List (Fin (NDIRECT + 1)) → Dev → Dinode → Except Panic (Dev × Dinode)
  | [], d, n => return (d, n)
  | k :: ks, d, n =>
    if n.addrs k = 0 then freeDirect ks d n
    else do
      let d ← bfree sb d (n.addrs k)
      freeDirect ks d (n.setAddr k 0)

/-- the second loop of itrunc, over the entries of the indirect block x -/
def freeEntries (x : ℕ) : List (Fin NINDIRECT) → Dev → Except Panic Dev
  | [], d => return d
  | j :: js, d =>
    if (d.data x).getWord (4 * j) = 0 then freeEntries x js d
    else do
      let d ← bfree sb d ((d.data x).getWord (4 * j)).toNat
      freeEntries x js d

/-- the indirect block and what it names is freed -/
def freeIndirect (d : Dev) (n : Dinode) : Except Panic (Dev × Dinode) :=
  if n.addrs indirect = 0 then return (d, n)
  else do
    let d ← freeEntries sb (n.addrs indirect) (List.finRange NINDIRECT) d
    let d ← bfree sb d (n.addrs indirect)
    return (d, n.setAddr indirect 0)

/-- itrunc up to its iupdate -/
def itrunc (d : Dev) (n : Dinode) : Except Panic (Dev × Dinode) := do
  let (d, n) ← freeDirect sb ((List.finRange NDIRECT).map Fin.castSucc) d n
  let (d, n) ← freeIndirect sb d n
  return (d, { n with size := 0 })

/-- the bytes of v with m bytes of src, from the tot-th on, put at o -/
def blit (v : Block) (o m : ℕ) (src : List Byte) : Block := fun j =>
  if o ≤ j.val ∧ j.val < o + m then src.getD (j.val - o) 0 else v j

/-- the loop of writei: the rest src is to be written at off -/
def writeLoop (d : Dev) (n : Dinode) (off : ℕ) (src : List Byte) : Except Panic (Dev × Dinode) :=
  if _h : src = [] then return (d, n)
  else do
    let (d, n, b) ← bmap sb d n (off / BSIZE)
    let m := min src.length (BSIZE - off % BSIZE)
    writeLoop (d.write b (blit (d.data b) (off % BSIZE) m src)) n (off + m) (src.drop m)
termination_by src.length
decreasing_by
  have hpos := length_pos_of_ne_nil _h
  have hmod : off % BSIZE < BSIZE := Nat.mod_lt _ (by decide)
  rw [length_drop]
  omega

/-- the loop of readi: cnt bytes from off on -/
def readLoop (d : Dev) (n : Dinode) (off cnt : ℕ) : Except Panic (Dev × Dinode × List Byte) :=
  if _h : cnt = 0 then return (d, n, [])
  else do
    let (d, n, b) ← bmap sb d n (off / BSIZE)
    let m := min cnt (BSIZE - off % BSIZE)
    let (d', n', l) ← readLoop d n (off + m) (cnt - m)
    return (d', n', (List.range m).map (fun k => (d.data b).get (off % BSIZE + k)) ++ l)
termination_by cnt
decreasing_by
  have hmod : off % BSIZE < BSIZE := Nat.mod_lt _ (by decide)
  omega

/-! ## Slots and books -/

/-- a place for a block number in an inode: in the inode itself, or in its indirect block -/
inductive Slot where
  | addr (k : Fin (NDIRECT + 1))
  | entry (j : Fin NINDIRECT)
  deriving DecidableEq

/-- entry j of the indirect block -/
def Dinode.entry (B : Store) (n : Dinode) (j : Fin NINDIRECT) : ℕ :=
  if n.addrs indirect = 0 then 0 else ((B (n.addrs indirect)).getWord (4 * j)).toNat

def Dinode.slot (B : Store) (n : Dinode) : Slot → ℕ
  | .addr k => n.addrs k
  | .entry j => n.entry B j

/-- the block that a slot of an allocated inode names, 0 for none -/
def refs (B : Store) (T : ℕ → Dinode) (x : ℕ × Slot) : ℕ := if (T x.1).type = .free then 0 else (T x.1).slot B x.2

/-- the inode has its blocks 0, …, e - 1, and the indirect block iff e exceeds NDIRECT -/
structure Held (B : Store) (n : Dinode) (e : ℕ) : Prop where
  le : e ≤ MAXFILE
  direct : ∀ k : Fin NDIRECT, n.addrs k.castSucc ≠ 0 ↔ k.val < e
  last : n.addrs indirect ≠ 0 ↔ NDIRECT < e
  entries : ∀ j, n.entry B j ≠ 0 ↔ NDIRECT + j.val < e

/-- the bitmap marks the metadata and what the inodes in T name, each block named once -/
abbrev Books (B : Store) (T : ℕ → Dinode) : Prop := Exact sb.nmeta sb.size (inUse sb B) (refs B T)

/-- the books are right, and inode i has its first e i blocks -/
structure Good (B : Store) (T : ℕ → Dinode) (e : ℕ → ℕ) : Prop where
  books : Books sb B T
  held : ∀ i, (T i).type ≠ .free → Held B (T i) (e i)

/-- the panics that the books exclude, and two of the file table, do not happen -/
def Sound (p : Panic) : Prop := p ≠ .freeingFreeBlock ∧ p ≠ .bmapOutOfRange ∧ p ≠ .filedup ∧ p ≠ .fileclose

abbrev Safe {α : Type} (P : α → Prop) : Except Panic α → Prop := Ends Sound P

/-! ## The bitmap -/

section Bitmap

variable {sb}

theorem bpb_eq : BPB = 4096 := rfl

theorem mask_eq (bi : ℕ) : mask bi = BitVec.twoPow 8 (bi % 8) := rfl

theorem and_mask (x : Byte) (bi : ℕ) : x &&& mask bi = 0 ↔ x.getLsbD (bi % 8) = false := by
  rw [mask_eq, and_twoPow]
  have hlt : bi % 8 < 8 := Nat.mod_lt _ (by decide)
  cases x.getLsbD (bi % 8) with
  | false => simp
  | true =>
    simp only [if_true, Bool.true_eq_false, iff_false]
    intro h
    have := congrArg (fun y => y.getLsbD (bi % 8)) h
    simp [hlt] at this

theorem mod_bpb (b : ℕ) : b % BPB % 8 = b % 8 := by
  rw [bpb_eq]
  omega

theorem inUse_eq (B : Store) (b : ℕ) : inUse sb B b = ((B (BBLOCK sb b)).get (b % BPB / 8)).getLsbD (b % 8) := by
  unfold inUse
  rw [Bool.eq_iff_iff, decide_eq_true_eq, ne_eq, and_mask, mod_bpb, Bool.not_eq_false]

/-- a store to the byte with the bit of b changes that byte only -/
theorem inUse_setByte (B : Store) (b c : ℕ) (v : Byte) :
    inUse sb (update B (BBLOCK sb b) ((B (BBLOCK sb b)).set (b % BPB / 8) v)) c =
      if c / 8 = b / 8 then v.getLsbD (c % 8) else inUse sb B c := by
  rw [inUse_eq, inUse_eq]
  unfold BBLOCK
  rw [bpb_eq]
  by_cases hblock : c / 4096 = b / 4096
  · rw [hblock, update_self]
    by_cases hbyte : c % 4096 / 8 = b % 4096 / 8
    · rw [hbyte, Bytes.get_set_self _ (by unfold BSIZE; omega), if_pos (by omega)]
    · rw [Bytes.get_set_of_ne _ hbyte, if_neg (by omega)]
  · rw [update_of_ne (by omega), if_neg (by omega)]

theorem byte_of_eq {b c : ℕ} (h : c / 8 = b / 8) : BBLOCK sb c = BBLOCK sb b ∧ c % BPB / 8 = b % BPB / 8 := by
  unfold BBLOCK
  rw [bpb_eq]
  omega

theorem inUse_mark (d : Dev) (b c : ℕ) : inUse sb (mark sb d b).data c = (inUse sb d.data c || decide (c = b)) := by
  unfold mark Dev.write
  dsimp only
  rw [inUse_setByte]
  by_cases hbyte : c / 8 = b / 8
  · have hb : BBLOCK sb c = _ ∧ _ := byte_of_eq hbyte
    rw [if_pos hbyte, inUse_eq, hb.1, hb.2, getLsbD_or, mask_eq, getLsbD_twoPow, mod_bpb]
    congr 1
    rw [Bool.eq_iff_iff]
    simp only [Bool.and_eq_true, decide_eq_true_eq]
    omega
  · rw [if_neg hbyte]
    have hne : c ≠ b := fun h => hbyte (by rw [h])
    simp [hne]

theorem inUse_unmark (B : Store) (b c : ℕ) : inUse sb (update B (BBLOCK sb b) ((B (BBLOCK sb b)).set (b % BPB / 8)
      ((B (BBLOCK sb b)).get (b % BPB / 8) &&& ~~~mask (b % BPB)))) c = (inUse sb B c && !decide (c = b)) := by
  rw [inUse_setByte]
  by_cases hbyte : c / 8 = b / 8
  · have hb : BBLOCK sb c = _ ∧ _ := byte_of_eq hbyte
    have hc : c % 8 < 8 := Nat.mod_lt _ (by decide)
    rw [if_pos hbyte, inUse_eq, hb.1, hb.2, getLsbD_and, getLsbD_not, mask_eq, getLsbD_twoPow, mod_bpb]
    congr 1
    rw [Bool.eq_iff_iff]
    simp only [hc, decide_true, Bool.true_and, Bool.not_eq_true', Bool.and_eq_false_iff, decide_eq_false_iff_not]
    have hb8 : b % 8 < 8 := Nat.mod_lt _ (by decide)
    omega
  · rw [if_neg hbyte]
    have hne : c ≠ b := fun h => hbyte (by rw [h])
    simp [hne]

theorem inUse_frame {B B' : Store} (h : ∀ x < sb.nmeta, B' x = B x) {c : ℕ} (hc : c < sb.size) :
    inUse sb B' c = inUse sb B c := by
  unfold inUse
  rw [h (BBLOCK sb c) (sb.bitmap_lt c hc)]

theorem ballocScan_iff (B : Store) (k bi : ℕ) (hbi : bi < BPB) :
    (decide (k * BPB + bi < sb.size) && decide ((B (BBLOCK sb (k * BPB))).get (bi / 8) &&& mask bi = 0)) =
      (decide (k * BPB + bi < sb.size) && !inUse sb B (k * BPB + bi)) := by
  have hb : BBLOCK sb (k * BPB + bi) = BBLOCK sb (k * BPB) ∧ (k * BPB + bi) % BPB = bi := by
    unfold BBLOCK
    rw [bpb_eq] at hbi ⊢
    omega
  unfold inUse
  rw [hb.1, hb.2]
  simp

theorem ballocFind_free {B : Store} {b : ℕ} (h : ballocFind sb B = some b) : b < sb.size ∧ inUse sb B b = false := by
  unfold ballocFind at h
  obtain ⟨k, -, hk⟩ := exists_of_findSome?_eq_some h
  obtain ⟨bi, hbi, rfl⟩ := Option.map_eq_some_iff.1 hk
  unfold ballocScan at hbi
  have hmem := mem_range.1 (mem_of_find?_eq_some hbi)
  have hp := find?_some hbi
  rw [ballocScan_iff B k bi hmem, Bool.and_eq_true, decide_eq_true_eq, Bool.not_eq_true'] at hp
  exact hp

end Bitmap

/-! ## Allocation -/

section Allocation

variable {sb} {B B' : Store} {T : ℕ → Dinode} {e : ℕ → ℕ} {i : ℕ}

variable {n : Dinode} {d : Dev} {b bn : ℕ}

theorem slot_congr (h : n.addrs indirect ≠ 0 → B' (n.addrs indirect) = B (n.addrs indirect)) (sl : Slot) :
    n.slot B' sl = n.slot B sl := by
  cases sl with
  | addr k => rfl
  | entry j =>
    show n.entry B' j = n.entry B j
    unfold Dinode.entry
    split_ifs with h0
    · rfl
    · rw [h h0]

theorem Held.congr {k : ℕ} (h : Held B n k) (hs : ∀ sl, n.slot B' sl = n.slot B sl) : Held B' n k :=
  ⟨h.le, h.direct, h.last, fun j => by rw [show n.entry B' j = n.entry B j from hs (.entry j)]; exact h.entries j⟩

theorem refs_of_alloc (hi : (T i).type ≠ .free) (sl : Slot) : refs B T (i, sl) = (T i).slot B sl := if_neg hi

theorem Good.indirect_range (h : Good sb B T e) (hi : (T i).type ≠ .free) (hx : (T i).addrs indirect ≠ 0) :
    sb.nmeta ≤ (T i).addrs indirect ∧ (T i).addrs indirect < sb.size := by
  have := h.books.range (i, .addr indirect)
  rw [refs_of_alloc hi] at this
  exact this hx

/-- balloc has taken b, which was free, marked it and cleared it -/
structure Fresh (sb : Superblock) (B B' : Store) (b : ℕ) : Prop where
  lt : b < sb.size
  free : inUse sb B b = false
  marks : ∀ c < sb.size, inUse sb B' c = (inUse sb B c || decide (c = b))
  zero : B' b = Bytes.zero BSIZE
  same : ∀ x, sb.nmeta ≤ x → x ≠ b → B' x = B x

theorem balloc_spec (h : Books sb d.data T) : Safe (fun r => Fresh sb d.data r.1.data r.2) (balloc sb d) := by
  unfold balloc
  cases hf : ballocFind sb d.data with
  | none => exact ⟨nofun, nofun, nofun, nofun⟩
  | some b =>
    obtain ⟨hlt, hfree⟩ := ballocFind_free hf
    have hlo := h.lo_le hlt hfree
    refine ⟨hlt, hfree, fun c hc => ?_, update_self _ _ _, fun x hx hxb => ?_⟩
    · rw [← inUse_mark]
      refine inUse_frame (fun x hx => ?_) hc
      show update _ b _ x = _
      rw [update_of_ne (by omega)]
    · show update (update d.data (BBLOCK sb b) _) b _ x = _
      have hmap := sb.bitmap_lt b hlt
      rw [update_of_ne hxb, update_of_ne (by unfold BBLOCK; omega)]

theorem Good.slot_fresh (h : Good sb B T e) (hf : Fresh sb B B' b) {j : ℕ} (hj : (T j).type ≠ .free) (sl : Slot) :
    (T j).slot B' sl = (T j).slot B sl := by
  refine slot_congr (fun hx => hf.same _ (h.indirect_range hj hx).1 ?_) sl
  have := h.books.val_ne hf.lt hf.free (j, .addr indirect)
  rw [refs_of_alloc hj] at this
  exact this

/-- **Filling a slot.** A free block goes into an empty slot of inode i, and nothing else changes. -/
theorem Books.fill (h : Books sb B T) (hi : (T i).type ≠ .free) (hn : n.type ≠ .free) {sl : Slot} (hsl : (T i).slot B sl = 0)
    (hb : b < sb.size) (hfree : inUse sb B b = false) (hmarks : ∀ c < sb.size, inUse sb B' c = (inUse sb B c || decide (c = b)))
    (hown : ∀ sl', n.slot B' sl' = update ((T i).slot B) sl b sl')
    (hothers : ∀ j, j ≠ i → (T j).type ≠ .free → ∀ sl', (T j).slot B' sl' = (T j).slot B sl') : Books sb B' (update T i n) := by
  have hk : refs B T (i, sl) = 0 := (refs_of_alloc hi sl).trans hsl
  refine (Exact.fill h hk hb hfree hmarks).congr (fun _ _ => rfl) fun ⟨j, sl'⟩ => ?_
  by_cases hj : j = i
  · subst hj
    rw [refs_of_alloc (by rw [update_self]; exact hn), update_self, hown]
    by_cases hs : sl' = sl
    · subst hs
      rw [update_self, update_self]
    · rw [update_of_ne hs, update_of_ne (by simp [hs]), refs_of_alloc hi]
  · rw [update_of_ne (by simp [hj])]
    unfold refs
    dsimp only
    rw [update_of_ne hj]
    split_ifs with hfree'
    · rfl
    · exact hothers j hj hfree' sl'

theorem slot_setAddr {k : Fin (NDIRECT + 1)} (hk : k ≠ indirect) (b : ℕ) (sl : Slot) :
    (n.setAddr k b).slot B sl = update (n.slot B) (.addr k) b sl := by
  have hind : (n.setAddr k b).addrs indirect = n.addrs indirect := update_of_ne (Ne.symm hk) _ _
  cases sl with
  | addr k' =>
    show update n.addrs k b k' = _
    by_cases h : k' = k
    · subst h
      rw [update_self, update_self]
    · rw [update_of_ne h, update_of_ne (by simpa using h)]
      rfl
  | entry j =>
    rw [update_of_ne (by simp)]
    show (n.setAddr k b).entry B j = n.entry B j
    unfold Dinode.entry
    rw [hind]

theorem getWord_zero (o : ℕ) : (Bytes.zero BSIZE).getWord o = 0 := by
  unfold Bytes.getWord Bytes.get Bytes.zero
  split_ifs <;> rfl

theorem slot_setIndirect (hn : n.addrs indirect = 0) (hz : B' b = Bytes.zero BSIZE) (sl : Slot) :
    (n.setAddr indirect b).slot B' sl = update (n.slot B) (.addr indirect) b sl := by
  have hind : (n.setAddr indirect b).addrs indirect = b := by
    show update n.addrs indirect b indirect = b
    rw [update_self]
  cases sl with
  | addr k' =>
    show update n.addrs indirect b k' = _
    by_cases h : k' = indirect
    · subst h
      rw [update_self, update_self]
    · rw [update_of_ne h, update_of_ne (by simpa using h)]
      rfl
  | entry j =>
    rw [update_of_ne (by simp)]
    show (n.setAddr indirect b).entry B' j = n.entry B j
    unfold Dinode.entry
    rw [hind, hz, hn, getWord_zero, if_pos rfl]
    split_ifs <;> rfl

theorem slot_setEntry (hn : n.addrs indirect ≠ 0) (j : Fin NINDIRECT) (hb : b < 2 ^ 32) (sl : Slot) :
    n.slot (update B (n.addrs indirect) ((B (n.addrs indirect)).setWord (4 * j) (BitVec.ofNat 32 b))) sl =
      update (n.slot B) (.entry j) b sl := by
  cases sl with
  | addr k' =>
    rw [update_of_ne (by simp)]
    rfl
  | entry j' =>
    have hj : j.val < 128 := j.isLt
    have hj' : j'.val < 128 := j'.isLt
    show n.entry _ j' = _
    unfold Dinode.entry
    rw [if_neg hn, update_self]
    by_cases h : j' = j
    · subst h
      rw [update_self, Bytes.getWord_setWord_self _ (by unfold BSIZE; omega), toNat_ofNat,
        Nat.mod_eq_of_lt hb]
    · have hne : j'.val ≠ j.val := fun hv => h (Fin.ext hv)
      rw [update_of_ne (by simpa using h), Bytes.getWord_setWord_of_disjoint _ (by omega)]
      show _ = n.entry B j'
      unfold Dinode.entry
      rw [if_neg hn]

/-- inode i is now n, with its first k blocks; the other inodes are as they were -/
def Upto (sb : Superblock) (T : ℕ → Dinode) (e : ℕ → ℕ) (i : ℕ) (d : Dev) (n : Dinode) (k : ℕ) : Prop :=
  Good sb d.data (update T i n) (update e i k) ∧ n = { T i with addrs := n.addrs }

theorem Upto.mk' {k : ℕ} (hg : Good sb B T e) (hbooks : Books sb d.data (update T i n))
    (hothers : ∀ j, j ≠ i → (T j).type ≠ .free → ∀ sl, (T j).slot d.data sl = (T j).slot B sl)
    (hheld : Held d.data n k) (hn : n = { T i with addrs := n.addrs }) : Upto sb T e i d n k := by
  refine ⟨⟨hbooks, fun j hj => ?_⟩, hn⟩
  by_cases h : j = i
  · subst h
    rw [update_self, update_self]
    exact hheld
  · rw [update_of_ne h] at hj ⊢
    rw [update_of_ne h]
    exact (hg.held j hj).congr (hothers j h hj)

theorem Upto.refl (hg : Good sb d.data T e) : Upto sb T e i d (T i) (e i) := by
  refine ⟨?_, rfl⟩
  rw [update_eq_self, update_eq_self]
  exact hg

/-- the place of block bn of a file -/
def place (bn : ℕ) : Slot :=
  if h : bn < NDIRECT then .addr ⟨bn, by omega⟩
  else .entry ⟨(bn - NDIRECT) % NINDIRECT, Nat.mod_lt _ (by decide)⟩

theorem place_direct (h : bn < NDIRECT) : place bn = .addr ⟨bn, by omega⟩ := dif_pos h

theorem place_entry (h : ¬ bn < NDIRECT) (h' : bn - NDIRECT < NINDIRECT) : place bn = .entry ⟨bn - NDIRECT, h'⟩ := by
  unfold place
  rw [dif_neg h]
  simp only [Nat.mod_eq_of_lt h']

theorem place_ne (bn : ℕ) : place bn ≠ .addr indirect := by
  unfold place
  split_ifs with h
  · intro heq
    rw [Slot.addr.injEq] at heq
    have := congrArg Fin.val heq
    simp only [Fin.val_last] at this
    omega
  · nofun

theorem place_inj {a : ℕ} (ha : a < MAXFILE) (hb : b < MAXFILE) (h : place a = place b) : a = b := by
  unfold MAXFILE at ha hb
  by_cases hda : a < NDIRECT <;> by_cases hdb : b < NDIRECT
  · rw [place_direct hda, place_direct hdb] at h
    simpa using h
  · rw [place_direct hda, place_entry hdb (by omega)] at h
    cases h
  · rw [place_entry hda (by omega), place_direct hdb] at h
    cases h
  · rw [place_entry hda (by omega), place_entry hdb (by omega)] at h
    simp only [Slot.entry.injEq, Fin.mk.injEq] at h
    omega

theorem bmapDirect_spec (hg : Good sb d.data T e) (hi : (T i).type ≠ .free) (hlt : bn < NDIRECT)
    (hle : bn ≤ e i) : Safe (fun r => Upto sb T e i r.1 r.2.1 (max (e i) (bn + 1)) ∧ r.2.1.slot r.1.data (place bn) = r.2.2 ∧
      r.2.2 ≠ 0 ∧ (bn < e i → r.2.1 = T i ∧ r.1 = d)) (bmap sb d (T i) bn) := by
  have hheld := hg.held i hi
  have hdir := hheld.direct ⟨bn, hlt⟩
  have hk : (Fin.castSucc ⟨bn, hlt⟩ : Fin (NDIRECT + 1)) = ⟨bn, by omega⟩ := rfl
  rw [hk] at hdir
  unfold bmap
  rw [dif_pos hlt, place_direct hlt]
  dsimp only
  split_ifs with h0
  · have he : e i = bn := by
      have : ¬ bn < e i := fun h => hdir.2 h h0
      omega
    refine (balloc_spec hg.books).bind ?_
    rintro ⟨d', b⟩ hf
    have hne : (⟨bn, by omega⟩ : Fin (NDIRECT + 1)) ≠ indirect := fun h => by
      have := congrArg Fin.val h
      simp only [Fin.val_last] at this
      omega
    have hothers := fun j (_ : j ≠ i) (hj : (T j).type ≠ .free) => hg.slot_fresh hf hj
    have hown : ∀ sl, ((T i).setAddr ⟨bn, by omega⟩ b).slot d'.data sl =
        update ((T i).slot d.data) (.addr ⟨bn, by omega⟩) b sl := fun sl => by
      rw [slot_setAddr hne, funext (hg.slot_fresh hf hi)]
    have hsl : (T i).slot d.data (.addr ⟨bn, by omega⟩) = 0 := h0
    have hb0 : b ≠ 0 := by
      have := hg.books.lo_le hf.lt hf.free
      have := sb.nmeta_pos
      omega
    refine Ends.pure ⟨Upto.mk' hg (Books.fill hg.books hi hi hsl hf.lt hf.free hf.marks hown hothers) hothers ?_ rfl,
      by rw [hown, update_self], hb0, fun h => absurd h (by omega)⟩
    have hmax : max (e i) (bn + 1) = bn + 1 := by omega
    rw [hmax]
    refine ⟨by unfold MAXFILE; omega, fun k => ?_, ?_, fun j => ?_⟩
    · show update (T i).addrs _ b k.castSucc ≠ 0 ↔ _
      by_cases hkb : k.val = bn
      · rw [show k.castSucc = ⟨bn, by omega⟩ from Fin.ext hkb, update_self]
        exact ⟨fun _ => by omega, fun _ => hb0⟩
      · rw [update_of_ne (fun h => hkb (congrArg Fin.val h)), hheld.direct k, he]
        omega
    · show update (T i).addrs _ b indirect ≠ 0 ↔ _
      rw [update_of_ne (Ne.symm hne), hheld.last, he]
      omega
    · have : ((T i).setAddr ⟨bn, by omega⟩ b).entry d'.data j = (T i).entry d.data j := by
        have := hown (.entry j)
        rw [update_of_ne (by simp)] at this
        exact this
      rw [this, hheld.entries j, he]
      omega
  · have hlt' : bn < e i := hdir.1 h0
    refine Ends.pure ⟨?_, rfl, h0, fun _ => ⟨rfl, rfl⟩⟩
    rw [max_eq_left (by omega)]
    exact Upto.refl hg

/-- after the first half of bmap past NDIRECT there is an indirect block, with the entries it had -/
structure Mid (sb : Superblock) (T : ℕ → Dinode) (e : ℕ → ℕ) (i : ℕ) (d d' : Dev) (n : Dinode) : Prop where
  books : Books sb d'.data (update T i n)
  others : ∀ j, j ≠ i → (T j).type ≠ .free → ∀ sl, (T j).slot d'.data sl = (T j).slot d.data sl
  copy : n = { T i with addrs := n.addrs }
  last : n.addrs indirect ≠ 0
  direct : ∀ k : Fin NDIRECT, n.addrs k.castSucc ≠ 0
  entries : ∀ j, n.entry d'.data j ≠ 0 ↔ NDIRECT + j.val < e i
  old : NDIRECT < e i → n = T i ∧ d' = d

theorem bmapIndirect_spec (hg : Good sb d.data T e) (hi : (T i).type ≠ .free) (hle : NDIRECT ≤ e i) :
    Safe (fun r => Mid sb T e i d r.1 r.2) (bmapIndirect sb d (T i)) := by
  have hheld := hg.held i hi
  unfold bmapIndirect
  split_ifs with h0
  · have he : ¬ NDIRECT < e i := fun h => hheld.last.2 h h0
    refine (balloc_spec hg.books).bind ?_
    rintro ⟨d', b⟩ hf
    have hothers := fun j (_ : j ≠ i) (hj : (T j).type ≠ .free) => hg.slot_fresh hf hj
    have hown := slot_setIndirect (B := d.data) h0 hf.zero
    have hsl : (T i).slot d.data (.addr indirect) = 0 := h0
    have hb0 : b ≠ 0 := by
      have := hg.books.lo_le hf.lt hf.free
      have := sb.nmeta_pos
      omega
    refine Ends.pure ⟨Books.fill hg.books hi hi hsl hf.lt hf.free hf.marks hown hothers, hothers, rfl, ?_, fun k => ?_,
      fun j => ?_, fun h => absurd h he⟩
    · show update (T i).addrs indirect b indirect ≠ 0
      rw [update_self]
      exact hb0
    · show update (T i).addrs indirect b k.castSucc ≠ 0
      rw [update_of_ne (Fin.castSucc_ne_last k)]
      have hk := k.isLt
      exact (hheld.direct k).2 (by omega)
    · have hentry := hown (.entry j)
      rw [update_of_ne (by simp)] at hentry
      have hz : ((T i).setAddr indirect b).entry d'.data j = (T i).entry d.data j := hentry
      rw [hz]
      exact hheld.entries j
  · refine Ends.pure ⟨?_, fun j _ _ sl => rfl, rfl, h0, fun k => ?_, hheld.entries, fun _ => ⟨rfl, rfl⟩⟩
    · rw [update_eq_self]
      exact hg.books
    · have hk := k.isLt
      have := hheld.last.1 h0
      exact (hheld.direct k).2 (by omega)

/-- with the books right for n as inode i, a fresh block is in no slot -/
theorem Books.slot_fresh (h : Books sb B T) (hf : Fresh sb B B' b) {j : ℕ} (hj : (T j).type ≠ .free) (sl : Slot) :
    (T j).slot B' sl = (T j).slot B sl := by
  have hrange := h.range (j, .addr indirect)
  have hne := h.val_ne hf.lt hf.free (j, .addr indirect)
  rw [refs_of_alloc hj] at hrange hne
  exact slot_congr (fun hx => hf.same _ (hrange hx).1 hne) sl

theorem Books.indirect_ne (h : Books sb B T) (hi : (T i).type ≠ .free) (hx : (T i).addrs indirect ≠ 0) {j : ℕ}
    (hj : (T j).type ≠ .free) (hij : j ≠ i) : (T j).addrs indirect ≠ (T i).addrs indirect := by
  intro heq
  have := h.once (i, .addr indirect) (j, .addr indirect)
  rw [refs_of_alloc hi, refs_of_alloc hj] at this
  exact hij (congrArg Prod.fst (this hx heq.symm)).symm

theorem bmapEntry_spec {d' : Dev} (hg : Good sb d.data T e) (hi : (T i).type ≠ .free)
    (hm : Mid sb T e i d d' n) (hge : ¬ bn < NDIRECT) (hlt : bn - NDIRECT < NINDIRECT) (hle : bn ≤ e i) :
    Safe (fun r => Upto sb T e i r.1 r.2.1 (max (e i) (bn + 1)) ∧ r.2.1.slot r.1.data (place bn) = r.2.2 ∧
      r.2.2 ≠ 0 ∧ (bn < e i → r.2.1 = T i ∧ r.1 = d)) (bmapEntry sb d' n (bn - NDIRECT)) := by
  have hn : n.type ≠ .free := by
    rw [hm.copy]
    exact hi
  have hTi : (update T i n i).type ≠ .free := by
    rw [update_self]
    exact hn
  have hentry : n.entry d'.data ⟨bn - NDIRECT, hlt⟩ =
      ((d'.data (n.addrs indirect)).getWord (4 * (bn - NDIRECT))).toNat := by
    unfold Dinode.entry
    rw [if_neg hm.last]
  have hiff := hm.entries ⟨bn - NDIRECT, hlt⟩
  have hsum : NDIRECT + (bn - NDIRECT) = bn := by omega
  rw [hentry] at hiff
  dsimp only at hiff
  rw [hsum] at hiff
  unfold bmapEntry
  rw [place_entry hge hlt]
  dsimp only
  split_ifs with h0
  · have he : e i = bn := by
      have : ¬ bn < e i := fun h => hiff.2 h (by rw [h0]; rfl)
      omega
    have hsl : n.slot d'.data (.entry ⟨bn - NDIRECT, hlt⟩) = 0 := by
      show n.entry d'.data _ = 0
      rw [hentry, h0]
      rfl
    refine (balloc_spec hm.books).bind ?_
    rintro ⟨d2, b⟩ hf
    have hb0 : b ≠ 0 := by
      have := hm.books.lo_le hf.lt hf.free
      have := sb.nmeta_pos
      omega
    have hxrange := hm.books.range (i, .addr indirect)
    rw [refs_of_alloc hTi, update_self] at hxrange
    have hx : sb.nmeta ≤ n.addrs indirect ∧ n.addrs indirect < sb.size := hxrange hm.last
    have hfresh : ∀ sl, n.slot d2.data sl = n.slot d'.data sl := fun sl => by
      have := Books.slot_fresh hm.books hf hTi sl
      rwa [update_self] at this
    have hown : ∀ sl, n.slot (d2.write (n.addrs indirect) ((d2.data (n.addrs indirect)).setWord (4 * (bn - NDIRECT))
        (BitVec.ofNat 32 b))).data sl = update (n.slot d'.data) (.entry ⟨bn - NDIRECT, hlt⟩) b sl := fun sl => by
      have := slot_setEntry (B := d2.data) hm.last ⟨bn - NDIRECT, hlt⟩ (hf.lt.trans sb.size_lt) sl
      rw [funext hfresh] at this
      exact this
    have hothers : ∀ j, j ≠ i → (update T i n j).type ≠ .free → ∀ sl,
        (update T i n j).slot (d2.write (n.addrs indirect) ((d2.data (n.addrs indirect)).setWord
          (4 * (bn - NDIRECT)) (BitVec.ofNat 32 b))).data sl = (update T i n j).slot d'.data sl := by
      intro j hj hjt sl
      rw [← Books.slot_fresh hm.books hf hjt sl]
      refine slot_congr (fun _ => update_of_ne ?_ _ _) sl
      have := Books.indirect_ne hm.books hTi (by rw [update_self]; exact hm.last) hjt hj
      rwa [update_self] at this
    have hmarks : ∀ c < sb.size, inUse sb (d2.write (n.addrs indirect) ((d2.data (n.addrs indirect)).setWord
        (4 * (bn - NDIRECT)) (BitVec.ofNat 32 b))).data c = (inUse sb d'.data c || decide (c = b)) := fun c hc => by
      rw [← hf.marks c hc]
      refine inUse_frame (fun x hlt => ?_) hc
      show update d2.data _ _ x = d2.data x
      rw [update_of_ne (by omega)]
    have hbooks := Books.fill hm.books hTi (n := n) hn (by rw [update_self]; exact hsl) hf.lt hf.free hmarks
      (by rw [update_self]; exact hown) hothers
    rw [update_idem] at hbooks
    refine Ends.pure ⟨Upto.mk' hg hbooks (fun j hj hjt sl => ?_) ?_ hm.copy, by rw [hown, update_self], hb0,
      fun h => absurd h (by omega)⟩
    · have := hothers j hj (by rw [update_of_ne hj]; exact hjt) sl
      rw [update_of_ne hj] at this
      rw [this]
      exact hm.others j hj hjt sl
    · rw [he, max_eq_right (Nat.le_succ bn)]
      refine ⟨by unfold MAXFILE; omega, fun k => ⟨fun _ => ?_, fun _ => hm.direct k⟩, ⟨fun _ => by omega, fun _ => hm.last⟩,
        fun j => ?_⟩
      · have := k.isLt
        omega
      · have hj : n.entry (d2.write (n.addrs indirect) ((d2.data (n.addrs indirect)).setWord (4 * (bn - NDIRECT))
            (BitVec.ofNat 32 b))).data j = update (n.slot d'.data) (.entry ⟨bn - NDIRECT, hlt⟩) b (.entry j) :=
          hown (.entry j)
        rw [hj]
        by_cases hjb : j = ⟨bn - NDIRECT, hlt⟩
        · rw [hjb, update_self]
          dsimp only
          exact ⟨fun _ => by omega, fun _ => hb0⟩
        · have hne : j.val ≠ bn - NDIRECT := fun h => hjb (Fin.ext h)
          rw [update_of_ne (by simpa using hjb)]
          show n.entry d'.data j ≠ 0 ↔ _
          rw [hm.entries j, he]
          omega
  · have hne : ((d'.data (n.addrs indirect)).getWord (4 * (bn - NDIRECT))).toNat ≠ 0 := fun h =>
      h0 (eq_of_toNat_eq h)
    have hlt' : bn < e i := hiff.1 hne
    obtain ⟨h1, h2⟩ := hm.old (by omega)
    refine Ends.pure ⟨?_, hentry, hne, fun _ => ⟨h1, h2⟩⟩
    rw [max_eq_left (by omega), h1, h2]
    exact Upto.refl hg

/-- **bmap.** For a block the file has, or the one after the last, bmap returns its address and keeps the books; a block that
is there costs nothing. -/
theorem bmap_spec (hg : Good sb d.data T e) (hi : (T i).type ≠ .free) (hlt : bn < MAXFILE)
    (hle : bn ≤ e i) : Safe (fun r => Upto sb T e i r.1 r.2.1 (max (e i) (bn + 1)) ∧ r.2.1.slot r.1.data (place bn) = r.2.2 ∧
      r.2.2 ≠ 0 ∧ (bn < e i → r.2.1 = T i ∧ r.1 = d)) (bmap sb d (T i) bn) := by
  by_cases h : bn < NDIRECT
  · exact bmapDirect_spec hg hi h hle
  · have hlt' : bn - NDIRECT < NINDIRECT := by
      unfold MAXFILE at hlt
      omega
    unfold bmap
    rw [dif_neg h, if_pos hlt']
    refine (bmapIndirect_spec hg hi (by omega)).bind ?_
    rintro ⟨d', n⟩ hm
    exact bmapEntry_spec hg hi hm h hlt' hle

end Allocation

/-! ## Truncation -/

section Truncation

variable {sb} {B B' : Store} {T : ℕ → Dinode} {e : ℕ → ℕ} {i : ℕ}

theorem Books.slot_frame (h : Books sb B T) (hsame : ∀ x, sb.nmeta ≤ x → B' x = B x) {j : ℕ} (hj : (T j).type ≠ .free)
    (sl : Slot) : (T j).slot B' sl = (T j).slot B sl := by
  have hrange := h.range (j, .addr indirect)
  rw [refs_of_alloc hj] at hrange
  exact slot_congr (fun hx => hsame _ (hrange hx).1) sl

theorem bfree_spec {κ : Type} [DecidableEq κ] {d : Dev} {val : κ → ℕ} (h : Exact sb.nmeta sb.size (inUse sb d.data) val) {k : κ}
    {b : ℕ} (hk : val k = b) (hb : b ≠ 0) : Safe (fun d' => Exact sb.nmeta sb.size (inUse sb d'.data) (update val k 0) ∧
      ∀ x, sb.nmeta ≤ x → d'.data x = d.data x) (bfree sb d b) := by
  subst hk
  have hmark := h.marked_val hb
  have hlt := (h.range k hb).2
  have hne : (d.data (BBLOCK sb (val k))).get (val k % BPB / 8) &&& mask (val k % BPB) ≠ 0 := of_decide_eq_true hmark
  unfold bfree
  dsimp only
  rw [if_neg hne]
  refine ⟨h.clear hb fun c _ => inUse_unmark d.data (val k) c, fun x hx => update_of_ne ?_ _ _⟩
  have hmap := sb.bitmap_lt (val k) hlt
  unfold BBLOCK
  omega

theorem freeDirect_spec (ks : List (Fin (NDIRECT + 1))) (hks : ∀ k ∈ ks, k ≠ indirect) : ∀ (d : Dev) (n : Dinode),
    n.type ≠ .free → Books sb d.data (update T i n) →
    Safe (fun r => Books sb r.1.data (update T i r.2) ∧ (∀ x, sb.nmeta ≤ x → r.1.data x = d.data x) ∧ r.2 =
      { n with addrs := fun k => if k ∈ ks then 0 else n.addrs k }) (freeDirect sb ks d n) := by
  induction ks with
  | nil =>
    intro d n _ h
    exact Ends.pure ⟨h, fun _ _ => rfl, by simp⟩
  | cons k ks ih =>
    intro d n hn h
    have hk := hks k mem_cons_self
    have ih := ih fun k' hk' => hks k' (mem_cons_of_mem _ hk')
    unfold freeDirect
    split_ifs with h0
    · refine (ih d n hn h).mono ?_
      rintro ⟨d', n'⟩ ⟨h1, h2, h3⟩
      refine ⟨h1, h2, h3.trans ?_⟩
      congr 1
      funext k'
      by_cases hkk : k' = k
      · subst hkk
        simp [h0]
      · simp [hkk]
    · have hTi : (update T i n i).type ≠ .free := by
        rw [update_self]
        exact hn
      have hval : refs d.data (update T i n) (i, .addr k) = n.addrs k := by
        rw [refs_of_alloc hTi, update_self]
        rfl
      refine (bfree_spec h hval h0).bind ?_
      rintro d1 ⟨hexact, hsame⟩
      have hbooks : Books sb d1.data (update T i (n.setAddr k 0)) := by
        refine hexact.congr (fun _ _ => rfl) fun ⟨j, sl⟩ => ?_
        by_cases hj : j = i
        · subst hj
          have hslot := Books.slot_frame h hsame hTi sl
          rw [update_self] at hslot
          rw [refs_of_alloc (by rw [update_self]; exact hn), update_self, slot_setAddr hk]
          by_cases hs : sl = .addr k
          · subst hs
            rw [update_self, update_self]
          · rw [update_of_ne hs, update_of_ne (by simp [hs]), refs_of_alloc hTi, update_self, hslot]
        · rw [update_of_ne (by simp [hj])]
          have hT : update T i (n.setAddr k 0) j = update T i n j := by
            rw [update_of_ne hj, update_of_ne hj]
          unfold refs
          dsimp only
          rw [hT]
          split_ifs with hfree
          · rfl
          · exact Books.slot_frame h hsame hfree sl
      refine (ih d1 (n.setAddr k 0) hn hbooks).mono ?_
      rintro ⟨d', n'⟩ ⟨h1, h2, h3⟩
      refine ⟨h1, fun x hx => (h2 x hx).trans (hsame x hx), h3.trans ?_⟩
      unfold Dinode.setAddr
      congr 1
      funext k'
      by_cases hkk : k' = k
      · subst hkk
        simp
      · simp [hkk]

theorem freeEntries_spec {x : ℕ} (hx : sb.nmeta ≤ x) (js : List (Fin NINDIRECT)) : ∀ (d : Dev) (val : ℕ × Slot → ℕ),
    js.Nodup → Exact sb.nmeta sb.size (inUse sb d.data) val →
    (∀ j ∈ js, val (i, .entry j) = ((d.data x).getWord (4 * j)).toNat) →
    Safe (fun d' => Exact sb.nmeta sb.size (inUse sb d'.data) (fun key => if ∃ j ∈ js, key = (i, .entry j) then 0 else val key) ∧
      ∀ y, sb.nmeta ≤ y → d'.data y = d.data y) (freeEntries sb x js d) := by
  induction js with
  | nil =>
    intro d val _ h _
    exact Ends.pure ⟨h.congr (fun _ _ => rfl) fun key => by simp, fun _ _ => rfl⟩
  | cons j js ih =>
    intro d val hnodup h hval
    obtain ⟨hj, hnodup⟩ := nodup_cons.1 hnodup
    have hvj := hval j mem_cons_self
    have hrest : ∀ key, (if ∃ j' ∈ j :: js, key = (i, Slot.entry j') then 0 else val key) =
        if ∃ j' ∈ js, key = (i, Slot.entry j') then 0 else update val (i, .entry j) 0 key := by
      intro key
      by_cases hkey : key = (i, .entry j)
      · subst hkey
        simp
      · simp [hkey]
    unfold freeEntries
    split_ifs with h0
    · rw [h0] at hvj
      have hsame : update val (i, .entry j) 0 = val := by
        rw [update_eq_self_iff, hvj]
        rfl
      refine (ih d val hnodup h fun j' hj' => hval j' (mem_cons_of_mem _ hj')).mono ?_
      rintro d' ⟨h1, h2⟩
      exact ⟨h1.congr (fun _ _ => rfl) fun key => by rw [hrest, hsame], h2⟩
    · refine (bfree_spec h hvj (fun hz => h0 (eq_of_toNat_eq hz))).bind ?_
      rintro d1 ⟨hexact, hsame⟩
      refine (ih d1 _ hnodup hexact fun j' hj' => ?_).mono ?_
      · have hne : j' ≠ j := fun h => hj (h ▸ hj')
        rw [update_of_ne (by simp [hne]), hval j' (mem_cons_of_mem _ hj'), hsame x hx]
      · rintro d' ⟨h1, h2⟩
        exact ⟨h1.congr (fun _ _ => rfl) hrest, fun y hy => (h2 y hy).trans (hsame y hy)⟩

theorem freeIndirect_spec {d : Dev} {n : Dinode} (hn : n.type ≠ .free) (h : Books sb d.data (update T i n)) :
    Safe (fun r => Books sb r.1.data (update T i r.2) ∧ (∀ x, sb.nmeta ≤ x → r.1.data x = d.data x) ∧
      r.2 = n.setAddr indirect 0) (freeIndirect sb d n) := by
  have hTi : (update T i n i).type ≠ .free := by
    rw [update_self]
    exact hn
  unfold freeIndirect
  split_ifs with h0
  · have hsame : n.setAddr indirect 0 = n := by
      unfold Dinode.setAddr
      rw [← h0, update_eq_self]
    exact Ends.pure ⟨h, fun _ _ => rfl, hsame.symm⟩
  · have hx := h.range (i, .addr indirect)
    rw [refs_of_alloc hTi, update_self] at hx
    have hval : ∀ j ∈ List.finRange NINDIRECT, refs d.data (update T i n) (i, .entry j) =
        ((d.data (n.addrs indirect)).getWord (4 * j)).toNat := fun j _ => by
      rw [refs_of_alloc hTi, update_self]
      show n.entry d.data j = _
      unfold Dinode.entry
      rw [if_neg h0]
    refine (freeEntries_spec (hx h0).1 _ d _ (nodup_finRange _) h hval).bind ?_
    rintro d1 ⟨hexact, hsame⟩
    have hlast : (if ∃ j ∈ List.finRange NINDIRECT, (i, Slot.addr indirect) = (i, Slot.entry j) then 0
        else refs d.data (update T i n) (i, .addr indirect)) = n.addrs indirect := by
      rw [if_neg (by simp), refs_of_alloc hTi, update_self]
      rfl
    refine (bfree_spec hexact hlast h0).bind ?_
    rintro d2 ⟨hexact2, hsame2⟩
    refine Ends.pure ⟨hexact2.congr (fun _ _ => rfl) fun ⟨j, sl⟩ => ?_, fun x hx => (hsame2 x hx).trans (hsame x hx), rfl⟩
    have hframe : ∀ x, sb.nmeta ≤ x → d2.data x = d.data x := fun x hx => (hsame2 x hx).trans (hsame x hx)
    by_cases hj : j = i
    · subst hj
      rw [refs_of_alloc (by rw [update_self]; exact hn), update_self]
      have hz : (n.setAddr indirect 0).addrs indirect = 0 := by
        show update n.addrs indirect 0 indirect = 0
        rw [update_self]
      cases sl with
      | entry j' =>
        rw [update_of_ne (by simp), if_pos ⟨j', mem_finRange j', rfl⟩]
        show (n.setAddr indirect 0).entry d2.data j' = 0
        unfold Dinode.entry
        rw [if_pos hz]
      | addr k =>
        by_cases hk : k = indirect
        · subst hk
          rw [update_self]
          exact hz
        · rw [update_of_ne (by simpa using hk), if_neg (by simp), refs_of_alloc hTi, update_self]
          show update n.addrs indirect 0 k = n.addrs k
          rw [update_of_ne hk]
    · rw [update_of_ne (by simp [hj]), if_neg (by simp [hj])]
      have hT : update T i (n.setAddr indirect 0) j = update T i n j := by
        rw [update_of_ne hj, update_of_ne hj]
      unfold refs
      dsimp only
      rw [hT]
      split_ifs with hfree
      · rfl
      · exact Books.slot_frame h hframe hfree sl

/-- **itrunc.** Every block of the inode is freed, each one once. -/
theorem itrunc_spec {d : Dev} (hg : Good sb d.data T e) (hi : (T i).type ≠ .free) :
    Safe (fun r => Good sb r.1.data (update T i r.2) (update e i 0) ∧ r.2 =
      { T i with size := 0, addrs := fun _ => 0 }) (itrunc sb d (T i)) := by
  have hstart : Books sb d.data (update T i (T i)) := by
    rw [update_eq_self]
    exact hg.books
  unfold itrunc
  refine (freeDirect_spec _ (fun k hk => ?_) d (T i) hi hstart).bind ?_
  · obtain ⟨k', -, rfl⟩ := mem_map.1 hk
    exact Fin.castSucc_ne_last k'
  rintro ⟨d1, n1⟩ ⟨hb1, hs1, hn1⟩
  dsimp only at hb1 hs1 hn1 ⊢
  have ht1 : n1.type ≠ .free := by
    rw [hn1]
    exact hi
  refine (freeIndirect_spec ht1 hb1).bind ?_
  rintro ⟨d2, n2⟩ ⟨hb2, hs2, hn2⟩
  dsimp only at hb2 hs2 hn2 ⊢
  have hframe : ∀ x, sb.nmeta ≤ x → d2.data x = d.data x := fun x hx => (hs2 x hx).trans (hs1 x hx)
  have hzero : ∀ k, n2.addrs k = 0 := by
    intro k
    rw [hn2]
    show update n1.addrs indirect 0 k = 0
    by_cases hk : k = indirect
    · subst hk
      rw [update_self]
    · obtain ⟨k', rfl⟩ := Fin.exists_castSucc_eq.2 hk
      rw [update_of_ne hk, hn1]
      exact if_pos (mem_map.2 ⟨k', mem_finRange k', rfl⟩)
  have hn : ({ n2 with size := 0 } : Dinode) = { T i with size := 0, addrs := fun _ => 0 } := by
    rw [show n2 = { n1 with addrs := n2.addrs } by rw [hn2]; rfl, hn1]
    dsimp only
    congr 1
    exact funext hzero
  refine Ends.pure ⟨⟨?_, fun j hj => ?_⟩, hn⟩
  · refine Exact.congr hb2 (fun _ _ => rfl) fun ⟨j, sl⟩ => ?_
    by_cases hj : j = i
    · subst hj
      unfold refs
      dsimp only
      rw [update_self, update_self]
      rfl
    · unfold refs
      dsimp only
      rw [update_of_ne hj, update_of_ne hj]
  · dsimp only at hj ⊢
    rw [hn] at hj ⊢
    by_cases hji : j = i
    · subst hji
      rw [update_self, update_self]
      refine ⟨Nat.zero_le _, fun k => by simp, by simp, fun k => ?_⟩
      unfold Dinode.entry
      simp
    · rw [update_of_ne hji] at hj ⊢
      rw [update_of_ne hji]
      exact (hg.held j hj).congr (Books.slot_frame hg.books hframe hj)

end Truncation

/-! ## Contents -/

section Contents

variable {sb} {B : Store} {T : ℕ → Dinode} {e : ℕ → ℕ} {i : ℕ}

/-- the number of blocks of a file of z bytes -/
def nblk (z : ℕ) : ℕ := (z + BSIZE - 1) / BSIZE

theorem bsize_eq : BSIZE = 512 := rfl

/-- writing a data block of a file moves no block of any file -/
theorem Good.slot_write (h : Good sb B T e) (hi : (T i).type ≠ .free) {bn b : ℕ} (hb : (T i).slot B (place bn) = b) (hb0 : b ≠ 0)
    (v : Block) {j : ℕ} (hj : (T j).type ≠ .free) (sl : Slot) : (T j).slot (update B b v) sl = (T j).slot B sl := by
  refine slot_congr (fun hx => update_of_ne (fun heq => ?_) _ _) sl
  have hone := h.books.once (i, place bn) (j, .addr indirect)
  rw [refs_of_alloc hi, refs_of_alloc hj, hb] at hone
  exact place_ne bn (congrArg Prod.snd (hone hb0 heq.symm))

/-- the data of a file may be overwritten: its blocks are nobody's indirect block, and not the bitmap -/
theorem Good.write_data (h : Good sb B T e) (hi : (T i).type ≠ .free) {bn b : ℕ} (hb : (T i).slot B (place bn) = b)
    (hb0 : b ≠ 0) (v : Block) : Good sb (update B b v) T e := by
  have hval : refs B T (i, place bn) = b := (refs_of_alloc hi _).trans hb
  have hrange := h.books.range (i, place bn)
  rw [hval] at hrange
  have hslot : ∀ j, (T j).type ≠ .free → ∀ sl, (T j).slot (update B b v) sl = (T j).slot B sl :=
    fun j hj sl => h.slot_write hi hb hb0 v hj sl
  refine ⟨h.books.congr (fun c hc => inUse_frame (fun x hx => ?_) hc) fun ⟨j, sl⟩ => ?_,
    fun j hj => (h.held j hj).congr (hslot j hj)⟩
  · have := (hrange hb0).1
    rw [update_of_ne (by omega)]
  · unfold refs
    dsimp only
    split_ifs with hfree
    · rfl
    · exact hslot j hfree sl

/-- **The loop of writei.** It keeps the books, and extends the file to the end of what it writes. -/
theorem writeLoop_spec (len : ℕ) : ∀ (src : List Byte) (d : Dev) (T : ℕ → Dinode) (e : ℕ → ℕ) (off : ℕ),
    src.length = len → Good sb d.data T e → (T i).type ≠ .free → off ≤ e i * BSIZE → off + len ≤ MAXFILE * BSIZE →
    Safe (fun r => Upto sb T e i r.1 r.2 (if src = [] then e i else max (e i) (nblk (off + len))) ∧
      (nblk (off + len) ≤ e i → r.2 = T i)) (writeLoop sb d (T i) off src) := by
  induction len using Nat.strong_induction_on with
  | _ len ih =>
    intro src d T e off hlen hg hi hoff hmax
    unfold writeLoop
    split_ifs with h0
    · exact Ends.pure ⟨Upto.refl hg, fun _ => rfl⟩
    · have hpos := length_pos_of_ne_nil h0
      have hbn : off / BSIZE < MAXFILE := by
        rw [bsize_eq] at hmax ⊢
        omega
      have hle : off / BSIZE ≤ e i := by
        rw [bsize_eq] at hoff ⊢
        omega
      refine (bmap_spec hg hi hbn hle).bind ?_
      rintro ⟨d1, n1, b⟩ ⟨⟨hg1, hcopy⟩, hslot, hb0, hold⟩
      dsimp only at hcopy hslot hb0 hold hg1 ⊢
      generalize hm : min src.length (BSIZE - off % BSIZE) = m
      have hn1 : (update T i n1 i).type ≠ .free := by
        rw [update_self, hcopy]
        exact hi
      have hg2 := hg1.write_data hn1 (by rw [update_self]; exact hslot) hb0
        (blit (d1.data b) (off % BSIZE) m src)
      have hrec := ih (len - m) (by rw [bsize_eq] at hm; omega) (src.drop m) (d1.write b (blit (d1.data b) (off % BSIZE) m src))
        (update T i n1) (update e i (max (e i) (off / BSIZE + 1))) (off + m)
        (by rw [length_drop]; omega) hg2 hn1 (by rw [update_self]; rw [bsize_eq] at hm ⊢; omega) (by omega)
      rw [update_self, update_self] at hrec
      refine hrec.mono ?_
      rintro ⟨d2, n2⟩ ⟨⟨hg3, hcopy2⟩, hold2⟩
      dsimp only at hg3 hcopy2 hold2 ⊢
      rw [update_idem, update_idem] at hg3
      rw [update_self] at hcopy2
      have hdrop : src.drop m = [] ↔ src.length ≤ m := drop_eq_nil_iff
      have hk : (if src.drop m = [] then max (e i) (off / BSIZE + 1)
          else max (max (e i) (off / BSIZE + 1)) (nblk (off + m + (len - m)))) = max (e i) (nblk (off + len)) := by
        unfold nblk
        rw [bsize_eq] at hm ⊢
        split_ifs with hd
        · rw [hdrop] at hd
          omega
        · rw [hdrop] at hd
          omega
      rw [hk] at hg3
      refine ⟨⟨hg3, hcopy2.trans ?_⟩, fun hle' => ?_⟩
      · rw [hcopy]
      · have hlt : off / BSIZE < e i := by
          unfold nblk at hle'
          rw [bsize_eq] at hle' ⊢
          omega
        rw [hold2 (by
          rw [show off + m + (len - m) = off + len by rw [bsize_eq] at hm; omega]
          exact hle'.trans (le_max_left _ _)), (hold hlt).1]

theorem readLoop_spec {d : Dev} (hg : Good sb d.data T e) (hi : (T i).type ≠ .free) (cnt : ℕ) : ∀ off, off + cnt ≤ e i * BSIZE →
    Safe (fun r => r.1 = d ∧ r.2.1 = T i ∧ r.2.2.length = cnt) (readLoop sb d (T i) off cnt) := by
  induction cnt using Nat.strong_induction_on with
  | _ cnt ih =>
    intro off hend
    unfold readLoop
    split_ifs with h0
    · exact Ends.pure ⟨rfl, rfl, by rw [h0]; rfl⟩
    · have hlt : off / BSIZE < e i := by
        rw [bsize_eq] at hend ⊢
        omega
      refine (bmap_spec hg hi (lt_of_lt_of_le hlt (hg.held i hi).le) hlt.le).bind ?_
      rintro ⟨d1, n1, b⟩ ⟨-, -, -, hold⟩
      obtain ⟨rfl, rfl⟩ := hold hlt
      dsimp only
      generalize hm : min cnt (BSIZE - off % BSIZE) = m
      rw [bsize_eq] at hm
      refine (ih (cnt - m) (by omega) (off + m) (by omega)).bind ?_
      rintro ⟨d2, n2, l⟩ ⟨h1, h2, h3⟩
      refine Ends.pure ⟨h1, h2, ?_⟩
      dsimp only at h3 ⊢
      rw [length_append, length_map, length_range, h3]
      omega

end Contents

end Xv6.Blocks
