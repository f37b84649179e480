/-
mkfs.c: the image of a fresh file system.

The sectors of the image are arrays of bytes; the inode blocks are a table of inodes beside them, as in the block layer of
the kernel. freeinode and freeblock only grow. A failed assertion, and a read past the end of the image, end mkfs without
an image. The input files are a list of names and contents.

- `image_no_holes`: every block below the size of an inode has an address if and only if the entries of the root directory do
  not end exactly at the end of a block, and then the kernel reads any part of the image without allocating a block.
- `image_hole`: if they do, the last block of the root directory has no address, and bmap allocates one when it is read.
-/
import Xv6.Files.Kernel

namespace Xv6.Mkfs

open Lib Blocks List
open Sysfile (IType)
open Files (dirent)

/-! ## Model -/

/-- inodes per block: sizeof(struct dinode) is 64 -/
def IPB : ℕ := BSIZE / 64

def nbitmap : ℕ := FSSIZE / (BSIZE * 8) + 1
def ninodeblocks : ℕ := NINODES / IPB + 1
def nlog : ℕ := LOGSIZE

/-- number of meta blocks: boot, sb, log, inode, bitmap -/
def nmeta : ℕ := 2 + nlog + ninodeblocks + nbitmap

def logstart : ℕ := 2
def inodestart : ℕ := 2 + nlog
def bmapstart : ℕ := 2 + nlog + ninodeblocks

/-- the image and the globals of mkfs.c -/
structure Img where
  data : Store
  inode : ℕ → Dinode
  freeinode : ℕ
  freeblock : ℕ

/-- a file to be put into the image -/
structure Input where
  name : List Byte
  content : List Byte

def rsect (s : Img) (sec : ℕ) : Option Block := if sec < FSSIZE then some (s.data sec) else none

def wsect (s : Img) (sec : ℕ) (buf : Block) : Img := { s with data := update s.data sec buf }

def winode (s : Img) (inum : ℕ) (din : Dinode) : Img := { s with inode := update s.inode inum din }

/-- a new inode, with its number -/
def ialloc (s : Img) (type : IType) : Img × ℕ :=
  (winode { s with freeinode := s.freeinode + 1 } s.freeinode ⟨type, 0, 0, 1, 0, fun _ => 0⟩, s.freeinode)

/-- the indirect block, allocated if necessary -/
def indirectSector (s : Img) (din : Dinode) : Img × Dinode :=
  if din.addrs indirect = 0 then ({ s with freeblock := s.freeblock + 1 }, din.setAddr indirect s.freeblock) else (s, din)

/-- the entry of the indirect block, allocated if necessary -/
def entrySector (s : Img) (din : Dinode) (j : ℕ) : Option (Img × Dinode × ℕ) :=
  match rsect s (din.addrs indirect) with
  | none => none
  | some ind =>
    if ind.getWord (4 * j) = 0 then
      let s' := wsect s (din.addrs indirect) (ind.setWord (4 * j) (BitVec.ofNat 32 s.freeblock))
      some ({ s' with freeblock := s.freeblock + 1 }, din, s.freeblock)
    else some (s, din, (ind.getWord (4 * j)).toNat)

/-- the sector x of block fbn in the loop of iappend -/
def sector (s : Img) (din : Dinode) (fbn : ℕ) : Option (Img × Dinode × ℕ) :=
  if h : fbn < NDIRECT then
    let k : Fin (NDIRECT + 1) := ⟨fbn, Nat.lt_add_one_of_lt h⟩
    if din.addrs k = 0 then some ({ s with freeblock := s.freeblock + 1 }, din.setAddr k s.freeblock, s.freeblock)
    else some (s, din, din.addrs k)
  else
    let (s, din) := indirectSector s din
    entrySector s din (fbn - NDIRECT)

/-- the loop of iappend: src is what is left to append at off; the rounds are at most its bytes -/
def iappendLoop : ℕ → Img → Dinode → ℕ → List Byte → Option (Img × Dinode × ℕ)
  | 0, s, din, off, _ => some (s, din, off)
  | rounds + 1, s, din, off, src =>
    if src = [] then some (s, din, off)
    else if off / BSIZE < MAXFILE then
      match sector s din (off / BSIZE) with
      | none => none
      | some (s, din, x) =>
        match rsect s x with
        | none => none
        | some buf =>
          let n1 := min src.length ((off / BSIZE + 1) * BSIZE - off)
          iappendLoop rounds (wsect s x (blit buf (off - off / BSIZE * BSIZE) n1 src)) din (off + n1) (src.drop n1)
    else none

def iappend (s : Img) (inum : ℕ) (src : List Byte) : Option Img :=
  match iappendLoop src.length s (s.inode inum) (s.inode inum).size src with
  | none => none
  | some (s, din, off) => some (winode s inum { din with size := off })

/-- the loop that reads an input file in blocks -/
def copyFile (inum : ℕ) : ℕ → Img → List Byte → Option Img
  | 0, s, _ => some s
  | rounds + 1, s, content =>
    if content = [] then some s
    else match iappend s inum (content.take BSIZE) with
      | none => none
      | some s => copyFile inum rounds s (content.drop BSIZE)

/-- the name without a leading '_' -/
def entryName : List Byte → List Byte
  | c :: name => if c = 0x5f#8 then name else c :: name
  | [] => []

/-- one round of the loop of main over the input files; '/' is not allowed in names -/
def addFile (s : Img) (f : Input) : Option Img :=
  if 0x2f#8 ∈ f.name then none
  else
    let (s, inum) := ialloc s .file
    match iappend s ROOTINO (dirent inum (entryName f.name)) with
    | none => none
    | some s => copyFile inum f.content.length s f.content

def addFiles (s : Img) : List Input → Option Img
  | [] => some s
  | f :: files =>
    match addFile s f with
    | none => none
    | some s => addFiles s files

/-- fix size of root inode dir -/
def fixRoot (s : Img) : Img :=
  winode s ROOTINO { s.inode ROOTINO with size := ((s.inode ROOTINO).size / BSIZE + 1) * BSIZE }

/-- the bitmap with the first blocks marked -/
def balloc (s : Img) (used : ℕ) : Option Img :=
  if used < BSIZE * 8 then
    some (wsect s bmapstart ((List.range used).foldl (fun buf i => buf.set (i / 8) (buf.get (i / 8) ||| mask i))
      (Bytes.zero BSIZE)))
  else none

/-- struct superblock as bytes -/
def superblock : Block :=
  ((((((Bytes.zero BSIZE).setWord 0 (BitVec.ofNat 32 FSSIZE)).setWord 4 (BitVec.ofNat 32 (FSSIZE - nmeta))).setWord 8
    (BitVec.ofNat 32 NINODES)).setWord 12 (BitVec.ofNat 32 nlog)).setWord 16 (BitVec.ofNat 32 logstart)).setWord 20
    (BitVec.ofNat 32 inodestart) |>.setWord 24 (BitVec.ofNat 32 bmapstart)

/-- zeroes everywhere but in the super block -/
def start : Img where
  data := update (fun _ => Bytes.zero BSIZE) 1 superblock
  inode _ := ⟨.free, 0, 0, 0, 0, fun _ => 0⟩
  freeinode := 1
  freeblock := nmeta

/-- the root directory with "." and ".." -/
def makeRoot : Option Img :=
  let (s, rootino) := ialloc start .dir
  match iappend s rootino (dirent rootino [0x2e#8]) with
  | none => none
  | some s => iappend s rootino (dirent rootino [0x2e#8, 0x2e#8])

def mkfs (files : List Input) : Option Img :=
  match makeRoot with
  | none => none
  | some s =>
    match addFiles s files with
    | none => none
    | some s =>
      let s := fixRoot s
      balloc s s.freeblock

/-! ## The books of mkfs -/

/-- the blocks from nmeta up to fb are in use, each in one slot, those from fb on are zero, and inode i has its first e i
blocks -/
structure Tidy (B : Store) (T : ℕ → Dinode) (e : ℕ → ℕ) (fb : ℕ) : Prop where
  books : Exact nmeta FSSIZE (fun b => decide (b < fb)) (refs B T)
  zero : ∀ x, fb ≤ x → B x = Bytes.zero BSIZE
  le : ∀ i, (T i).type ≠ .free → e i ≤ MAXFILE
  filled : ∀ i, (T i).type ≠ .free → ∀ bn < MAXFILE, (T i).slot B (place bn) ≠ 0 ↔ bn < e i

variable {B B' : Store} {T T' : ℕ → Dinode} {e : ℕ → ℕ} {fb i : ℕ}

theorem Tidy.slot_lt (h : Tidy B T e fb) (hi : (T i).type ≠ .free) (sl : Slot) (hsl : (T i).slot B sl ≠ 0) :
    (T i).slot B sl < fb ∧ (T i).slot B sl < FSSIZE := by
  have hne : refs B T (i, sl) ≠ 0 := by
    rw [refs_of_alloc hi]
    exact hsl
  have hm := h.books.marked_val hne
  have hr := (h.books.range _ hne).2
  rw [refs_of_alloc hi] at hm hr
  exact ⟨of_decide_eq_true hm, hr⟩

theorem Tidy.same (h : Tidy B T e fb) (htype : ∀ j, (T' j).type = (T j).type)
    (hslot : ∀ j, (T j).type ≠ .free → ∀ sl, (T' j).slot B' sl = (T j).slot B sl)
    (hzero : ∀ x, fb ≤ x → B' x = Bytes.zero BSIZE) : Tidy B' T' e fb := by
  refine ⟨h.books.congr (fun _ _ => rfl) fun ⟨j, sl⟩ => ?_, hzero, fun j hj => ?_, fun j hj bn hbn => ?_⟩
  · unfold refs
    dsimp only
    rw [htype j]
    split_ifs with hf
    · rfl
    · exact hslot j hf sl
  · rw [htype j] at hj
    exact h.le j hj
  · rw [htype j] at hj
    rw [hslot j hj]
    exact h.filled j hj bn hbn

variable {n : Dinode} {s s' : Img} {bn : ℕ}

/-- **Filling a slot.** The next free block goes into an empty slot of inode i, and nothing else changes. -/
theorem Tidy.fill (h : Tidy B T e fb) (hi : (T i).type ≠ .free) (hn : n.type ≠ .free) (hfb : fb < FSSIZE) (sl : Slot)
    (hsl : (T i).slot B sl = 0) (hown : ∀ sl', n.slot B' sl' = update ((T i).slot B) sl fb sl')
    (hothers : ∀ j, j ≠ i → (T j).type ≠ .free → ∀ sl', (T j).slot B' sl' = (T j).slot B sl')
    (hzero : ∀ x, fb + 1 ≤ x → B' x = Bytes.zero BSIZE) {e' : ℕ} (hle : e' ≤ MAXFILE)
    (he' : ∀ bn < MAXFILE, bn < e' ↔ bn < e i ∨ place bn = sl) : Tidy B' (update T i n) (update e i e') (fb + 1) := by
  have hk : refs B T (i, sl) = 0 := (refs_of_alloc hi sl).trans hsl
  have hfree : decide (fb < fb) = false := by simp
  have hfb0 : fb ≠ 0 := by
    have := h.books.lo_le hfb hfree
    have := h.books.pos
    omega
  have hfill : Exact nmeta FSSIZE (fun b => decide (b < fb + 1)) (update (refs B T) (i, sl) fb) :=
    h.books.fill hk hfb hfree fun c _ => by
      rw [← Bool.decide_or]
      exact decide_eq_decide.2 Nat.lt_succ_iff_lt_or_eq
  refine ⟨hfill.congr (fun _ _ => rfl) fun ⟨j, sl'⟩ => ?_, hzero, fun j hj => ?_, fun j hj bn hbn => ?_⟩
  · by_cases hj : j = i
    · subst hj
      rw [refs_of_alloc (by rw [update_self]; exact hn), update_self, hown]
      by_cases hs : sl' = sl
      · subst hs
        rw [update_self, update_self]
      · rw [update_of_ne hs, update_of_ne (by simp [hs]), refs_of_alloc hi]
    · rw [update_of_ne (by simp [hj])]
      unfold refs
      dsimp only
      rw [update_of_ne hj]
      split_ifs with hf
      · rfl
      · exact hothers j hj hf sl'
  · by_cases hji : j = i
    · subst hji
      rw [update_self]
      exact hle
    · rw [update_of_ne hji] at hj ⊢
      exact h.le j hj
  · by_cases hji : j = i
    · subst hji
      rw [update_self, update_self, hown, he' bn hbn]
      by_cases hs : place bn = sl
      · rw [hs, update_self]
        exact ⟨fun _ => .inr rfl, fun _ => hfb0⟩
      · rw [update_of_ne hs, h.filled j hi bn hbn]
        exact ⟨.inl, fun h' => h'.resolve_right hs⟩
    · rw [update_of_ne hji] at hj ⊢
      rw [update_of_ne hji, hothers j hji hj]
      exact h.filled j hj bn hbn

/-- the data of a file may be overwritten: its blocks are nobody's indirect block -/
theorem Tidy.write_data (h : Tidy B T e fb) (hi : (T i).type ≠ .free) (bn : ℕ) {x : ℕ} (hx : (T i).slot B (place bn) = x)
    (hx0 : x ≠ 0) (v : Block) : Tidy (update B x v) T e fb := by
  have hlt := (h.slot_lt hi (place bn) (by rw [hx]; exact hx0)).1
  refine h.same (fun _ => rfl) (fun j hj sl => slot_congr (fun hy => update_of_ne (fun heq => ?_) _ _) sl)
    fun y hy => ?_
  · have := h.books.once (i, place bn) (j, .addr indirect)
    rw [refs_of_alloc hi, refs_of_alloc hj, hx] at this
    exact place_ne bn (congrArg Prod.snd (this hx0 heq.symm))
  · rw [hx] at hlt
    rw [update_of_ne (by omega)]
    exact h.zero y hy

/-! ## iappend -/

/-- what getting the sector of a block does: inode i is n now and has its first k blocks, x among them -/
structure Got (s s' : Img) (T : ℕ → Dinode) (e : ℕ → ℕ) (i : ℕ) (n : Dinode) (k bn x : ℕ) : Prop where
  tidy : Tidy s'.data (update T i n) (update e i k) s'.freeblock
  slot : n.slot s'.data (place bn) = x
  ne : x ≠ 0
  copy : n = { T i with addrs := n.addrs }
  inode : s'.inode = s.inode
  freeinode : s'.freeinode = s.freeinode

theorem Got.refl (h : Tidy s.data T e s.freeblock) (hi : (T i).type ≠ .free) (hbn : bn < MAXFILE)
    (hne : (T i).slot s.data (place bn) ≠ 0) : Got s s T e i (T i) (max (e i) (bn + 1)) bn ((T i).slot s.data (place bn)) := by
  have hlt := (h.filled i hi bn hbn).1 hne
  refine ⟨?_, rfl, hne, rfl, rfl, rfl⟩
  rw [max_eq_left (by omega), update_eq_self, update_eq_self]
  exact h

theorem append_place {k : ℕ} (hbn : bn < MAXFILE) (hk : bn = k) :
    ∀ a < MAXFILE, a < max k (bn + 1) ↔ a < k ∨ place a = place bn := by
  intro a ha
  rw [max_eq_right (by omega)]
  constructor
  · intro hlt
    by_cases hab : a = bn
    · exact .inr (by rw [hab])
    · exact .inl (by omega)
  · rintro (hlt | heq)
    · omega
    · rw [place_inj ha hbn heq]
      omega

section

variable (h : Tidy s.data T e s.freeblock) (hi : (T i).type ≠ .free)
include h hi

theorem direct_spec {x : ℕ} (hlt : bn < NDIRECT) (hle : bn ≤ e i) (hs : sector s (T i) bn = some (s', n, x)) (hx : x < FSSIZE) :
    Got s s' T e i n (max (e i) (bn + 1)) bn x := by
  have hmax : bn < MAXFILE := by
    unfold MAXFILE
    omega
  have hplace := place_direct hlt
  have hslot : (T i).slot s.data (place bn) = (T i).addrs ⟨bn, by omega⟩ := by
    rw [hplace]
    rfl
  have hiff := h.filled i hi bn hmax
  unfold sector at hs
  rw [dif_pos hlt] at hs
  dsimp only at hs
  split_ifs at hs with h0
  · cases hs
    have he : bn = e i := by
      have : ¬ bn < e i := fun hb => hiff.2 hb (by rw [hslot]; exact h0)
      omega
    have hne : (⟨bn, by omega⟩ : Fin (NDIRECT + 1)) ≠ indirect := fun hk => by
      have := congrArg Fin.val hk
      simp only [Fin.val_last] at this
      omega
    have hown : ∀ sl, ((T i).setAddr ⟨bn, by omega⟩ s.freeblock).slot s.data sl =
        update ((T i).slot s.data) (place bn) s.freeblock sl := fun sl => by
      rw [hplace]
      exact slot_setAddr hne _ sl
    refine ⟨h.fill hi (n := (T i).setAddr ⟨bn, by omega⟩ s.freeblock) hi hx (place bn) (by rw [hslot]; exact h0) hown
      (fun _ _ _ _ => rfl) (fun y hy => h.zero y (by omega)) ?_ (append_place hmax he), ?_, ?_, rfl, rfl, rfl⟩
    · exact max_le (h.le i hi) hmax
    · exact (hown (place bn)).trans (update_self ..)
    · have := h.books.lo_le hx (by simp)
      have := h.books.pos
      omega
  · cases hs
    rw [← hslot]
    exact Got.refl h hi hmax (by rw [hslot]; exact h0)

theorem indirectSector_spec (hx : (indirectSector s (T i)).2.addrs indirect < FSSIZE) :
    Tidy (indirectSector s (T i)).1.data (update T i (indirectSector s (T i)).2) e (indirectSector s (T i)).1.freeblock ∧
      (indirectSector s (T i)).2.addrs indirect ≠ 0 ∧ (indirectSector s (T i)).2 =
        { T i with addrs := (indirectSector s (T i)).2.addrs } ∧
      (indirectSector s (T i)).1.inode = s.inode ∧ (indirectSector s (T i)).1.freeinode = s.freeinode := by
  unfold indirectSector at hx ⊢
  split_ifs at hx ⊢ with h0
  · have hind : ((T i).setAddr indirect s.freeblock).addrs indirect = s.freeblock := by
      show update (T i).addrs indirect s.freeblock indirect = s.freeblock
      rw [update_self]
    dsimp only at hx ⊢
    rw [hind] at hx ⊢
    have hown := fun sl => slot_setIndirect (B := s.data) h0 (h.zero s.freeblock le_rfl) sl
    have ht := h.fill hi (n := (T i).setAddr indirect s.freeblock) hi hx (.addr indirect) h0 hown
      (fun _ _ _ _ => rfl) (fun y hy => h.zero y (by omega)) (h.le i hi) fun bn _ =>
        ⟨.inl, fun h' => h'.resolve_right (place_ne bn)⟩
    rw [update_eq_self] at ht
    refine ⟨ht, ?_, rfl, rfl, rfl⟩
    have := h.books.lo_le hx (by simp)
    have := h.books.pos
    omega
  · dsimp only
    rw [update_eq_self]
    exact ⟨h, h0, rfl, rfl, rfl⟩

theorem entrySector_spec {x : ℕ}
    (h0 : (T i).addrs indirect ≠ 0) (hge : ¬ bn < NDIRECT) (hmax : bn < MAXFILE) (hle : bn ≤ e i)
    (hs : entrySector s (T i) (bn - NDIRECT) = some (s', n, x)) (hx : x < FSSIZE) :
    Got s s' T e i n (max (e i) (bn + 1)) bn x := by
  have hlt : bn - NDIRECT < NINDIRECT := by
    unfold MAXFILE at hmax
    omega
  have hplace := place_entry hge hlt
  have hslot : (T i).slot s.data (place bn) = ((s.data ((T i).addrs indirect)).getWord (4 * (bn - NDIRECT))).toNat := by
    rw [hplace]
    show (T i).entry s.data _ = _
    unfold Dinode.entry
    rw [if_neg h0]
  have hiff := h.filled i hi bn hmax
  have hxr : (T i).addrs indirect < s.freeblock := (h.slot_lt hi (.addr indirect) h0).1
  unfold entrySector rsect at hs
  split_ifs at hs with hr
  · dsimp only at hs
    split_ifs at hs with hw
    · cases hs
      have hsl0 : (T i).slot s.data (place bn) = 0 := by
        rw [hslot, hw]
        rfl
      have he : bn = e i := by
        have : ¬ bn < e i := fun hb => hiff.2 hb hsl0
        omega
      have hown := fun sl => slot_setEntry (B := s.data) h0 ⟨bn - NDIRECT, hlt⟩ (b := s.freeblock)
        (hx.trans (by decide)) sl
      rw [← hplace] at hown
      refine ⟨h.fill hi hi hx (place bn) hsl0 hown (fun j hj hjt sl => ?_) (fun y hy => ?_) (max_le (h.le i hi) hmax)
        (append_place hmax he), (hown (place bn)).trans (update_self ..), ?_, rfl, rfl, rfl⟩
      · refine slot_congr (fun hy => update_of_ne (fun heq => hj ?_) _ _) sl
        have := h.books.once (i, .addr indirect) (j, .addr indirect)
        rw [refs_of_alloc hi, refs_of_alloc hjt] at this
        exact (congrArg Prod.fst (this h0 heq.symm)).symm
      · show update s.data _ _ y = _
        rw [update_of_ne (by omega)]
        exact h.zero y (by omega)
      · have := h.books.lo_le hx (by simp)
        have := h.books.pos
        omega
    · cases hs
      have hne : (T i).slot s.data (place bn) ≠ 0 := by
        rw [hslot]
        exact fun h' => hw (BitVec.eq_of_toNat_eq h')
      rw [← hslot]
      exact Got.refl h hi hmax hne

theorem sector_spec {x : ℕ} (hmax : bn < MAXFILE) (hle : bn ≤ e i) (hs : sector s (T i) bn = some (s', n, x)) (hx : x < FSSIZE) :
    Got s s' T e i n (max (e i) (bn + 1)) bn x := by
  by_cases hlt : bn < NDIRECT
  · exact direct_spec h hi hlt hle hs hx
  · unfold sector at hs
    rw [dif_neg hlt] at hs
    dsimp only at hs
    have hr : (indirectSector s (T i)).2.addrs indirect < FSSIZE := by
      by_contra hr
      unfold entrySector rsect at hs
      rw [if_neg hr] at hs
      cases hs
    obtain ⟨h1, h0, hcopy, hino, hfi⟩ := indirectSector_spec h hi hr
    have hTi : update T i (indirectSector s (T i)).2 i = (indirectSector s (T i)).2 := update_self ..
    have hi' : (update T i (indirectSector s (T i)).2 i).type ≠ .free := by
      rw [hTi, hcopy]
      exact hi
    have hg := entrySector_spec h1 hi' (by rw [hTi]; exact h0) hlt hmax hle (by rw [hTi]; exact hs) hx
    have htidy := hg.tidy
    have hcopy' := hg.copy
    rw [update_idem] at htidy
    rw [hTi, hcopy] at hcopy'
    exact ⟨htidy, hg.slot, hg.ne, hcopy', hg.inode.trans hino, hg.freeinode.trans hfi⟩

end

/-- **The loop of iappend.** All of src is appended, and the inode has the blocks of its new length. -/
theorem iappendLoop_spec (rounds : ℕ) : ∀ (s s' : Img) (T : ℕ → Dinode) (e : ℕ → ℕ) (n : Dinode) (off off' : ℕ)
    (src : List Byte), src.length ≤ rounds → Tidy s.data T e s.freeblock → (T i).type ≠ .free → e i = nblk off →
    iappendLoop rounds s (T i) off src = some (s', n, off') →
    Tidy s'.data (update T i n) (update e i (nblk off')) s'.freeblock ∧ off' = off + src.length ∧ n =
      { T i with addrs := n.addrs } ∧ s'.inode = s.inode ∧ s'.freeinode = s.freeinode := by
  induction rounds with
  | zero =>
    intro s s' T e n off off' src hlen h hi he hs
    cases hs
    rw [← he, update_eq_self, update_eq_self]
    exact ⟨h, by omega, rfl, rfl, rfl⟩
  | succ rounds ih =>
    intro s s' T e n off off' src hlen h hi he hs
    unfold iappendLoop at hs
    split_ifs at hs with h0 hmax
    · cases hs
      rw [← he, update_eq_self, update_eq_self, h0]
      exact ⟨h, rfl, rfl, rfl, rfl⟩
    · have hpos := length_pos_of_ne_nil h0
      have hle : off / BSIZE ≤ e i := by
        rw [he]
        unfold nblk
        rw [bsize_eq]
        omega
      cases hsec : sector s (T i) (off / BSIZE) with
      | none => simp [hsec] at hs
      | some r =>
        obtain ⟨s1, n1, x⟩ := r
        rw [hsec] at hs
        dsimp only at hs
        unfold rsect at hs
        split_ifs at hs with hx
        · dsimp only at hs
          have hg := sector_spec h hi hmax hle hsec hx
          generalize hm : min src.length ((off / BSIZE + 1) * BSIZE - off) = m at hs
          rw [bsize_eq] at hm
          have hTi : update T i n1 i = n1 := update_self ..
          have hi1 : (update T i n1 i).type ≠ .free := by
            rw [hTi, hg.copy]
            exact hi
          have hw := hg.tidy.write_data hi1 (off / BSIZE) (by rw [hTi]; exact hg.slot) hg.ne
            (blit (s1.data x) (off - off / BSIZE * BSIZE) m src)
          have hk : max (e i) (off / BSIZE + 1) = nblk (off + m) := by
            rw [he]
            unfold nblk
            rw [bsize_eq]
            omega
          obtain ⟨ht, hoff, hcopy, hino, hfi⟩ := ih (wsect s1 x (blit (s1.data x) (off - off / BSIZE * BSIZE) m src)) s'
            (update T i n1) _ n (off + m) off' (src.drop m) (by rw [length_drop]; omega) hw hi1
            (by rw [update_self]; exact hk) (by rw [hTi]; exact hs)
          rw [update_idem, update_idem] at ht
          rw [hTi, hg.copy] at hcopy
          refine ⟨ht, ?_, hcopy, hino.trans hg.inode, hfi.trans hg.freeinode⟩
          rw [hoff, length_drop]
          omega

/-! ## The image -/

/-- every inode has exactly the blocks of its size, and the inodes from freeinode on are free -/
structure Whole (s : Img) : Prop where
  tidy : Tidy s.data s.inode (fun i => nblk (s.inode i).size) s.freeblock
  blank : ∀ i, (s.inode i).type = .free → (s.inode i).size = 0 ∧ (s.inode i).addrs indirect = 0
  unused : ∀ i, s.freeinode ≤ i → (s.inode i).type = .free

/-- **iappend** keeps an image whole; only the size of inode i grows -/
theorem Whole.iappend (h : Whole s) {src : List Byte} (hi : (s.inode i).type ≠ .free)
    (hs : iappend s i src = some s') : Whole s' ∧ (s'.inode i).size = (s.inode i).size + src.length ∧
      (s'.inode i).type = (s.inode i).type ∧ (∀ j, j ≠ i → s'.inode j = s.inode j) ∧ s'.freeinode = s.freeinode := by
  unfold Mkfs.iappend at hs
  cases hl : iappendLoop src.length s (s.inode i) (s.inode i).size src with
  | none => simp [hl] at hs
  | some r =>
    obtain ⟨s1, n, off⟩ := r
    rw [hl] at hs
    cases hs
    obtain ⟨ht, hoff, hcopy, hino, hfi⟩ := iappendLoop_spec src.length s s1 s.inode _ n _ off src le_rfl h.tidy hi rfl hl
    have hself : (winode s1 i { n with size := off }).inode i = { n with size := off } := update_self ..
    have hother : ∀ j, j ≠ i → (winode s1 i { n with size := off }).inode j = s.inode j := fun j hj => by
      rw [← hino]
      exact update_of_ne hj ..
    have htype : n.type = (s.inode i).type := by rw [hcopy]
    have hsize : (fun j => nblk ((winode s1 i { n with size := off }).inode j).size) =
        update (fun j => nblk (s.inode j).size) i (nblk off) := by
      funext j
      by_cases hj : j = i
      · rw [hj, hself, update_self]
      · rw [hother j hj, update_of_ne hj]
    refine ⟨⟨?_, fun j hj => ?_, fun j hj => ?_⟩, by rw [hself]; exact hoff, by rw [hself]; exact htype, hother, hfi⟩
    · rw [hsize]
      refine ht.same (fun j => ?_) (fun j hj sl => ?_) ht.zero
      · by_cases hj : j = i
        · rw [hj, hself, update_self]
        · rw [hother j hj, update_of_ne hj]
      · by_cases hji : j = i
        · rw [hji, hself, update_self]
          cases sl <;> rfl
        · rw [hother j hji, update_of_ne hji]
          rfl
    · by_cases hji : j = i
      · rw [hji, hself] at hj
        exact absurd (htype.symm.trans hj) hi
      · rw [hother j hji] at hj ⊢
        exact h.blank j hj
    · have hji : j ≠ i := fun e => hi (h.unused i (by rw [← e]; exact hfi ▸ hj))
      rw [hother j hji]
      exact h.unused j (hfi ▸ hj)

theorem Whole.ialloc (h : Whole s) (type : IType) (ht : type ≠ .free) :
    Whole (ialloc s type).1 ∧ (∀ j, j ≠ s.freeinode → (ialloc s type).1.inode j = s.inode j) ∧
      (ialloc s type).1.inode s.freeinode = ⟨type, 0, 0, 1, 0, fun _ => 0⟩ := by
  have hself : (Mkfs.ialloc s type).1.inode s.freeinode = ⟨type, 0, 0, 1, 0, fun _ => 0⟩ := update_self ..
  have hother : ∀ j, j ≠ s.freeinode → (Mkfs.ialloc s type).1.inode j = s.inode j := fun j hj =>
    update_of_ne hj ..
  have hslot : ∀ sl, ((Mkfs.ialloc s type).1.inode s.freeinode).slot s.data sl = 0 := fun sl => by
    rw [hself]
    cases sl <;> rfl
  refine ⟨⟨⟨h.tidy.books.congr (fun _ _ => rfl) fun ⟨j, sl⟩ => ?_, h.tidy.zero, fun j hj => ?_, fun j hj bn hbn => ?_⟩,
    fun j hj => ?_, fun j hj => ?_⟩, hother, hself⟩
  · by_cases hji : j = s.freeinode
    · subst hji
      unfold refs
      dsimp only
      rw [if_pos (h.unused _ le_rfl), if_neg (by rw [hself]; exact ht)]
      exact hslot sl
    · unfold refs
      dsimp only
      rw [hother j hji]
      rfl
  · by_cases hji : j = s.freeinode
    · rw [hji, hself]
      exact (by decide : nblk 0 ≤ MAXFILE)
    · rw [hother j hji] at hj ⊢
      exact h.tidy.le j hj
  · by_cases hji : j = s.freeinode
    · subst hji
      have hnb : nblk ((Mkfs.ialloc s type).1.inode s.freeinode).size = 0 := by
        rw [hself]
        exact (by decide : nblk 0 = 0)
      rw [hnb]
      exact ⟨fun h' => absurd (hslot _) h', nofun⟩
    · rw [hother j hji] at hj ⊢
      exact h.tidy.filled j hj bn hbn
  · by_cases hji : j = s.freeinode
    · rw [hji, hself] at hj
      exact absurd hj ht
    · rw [hother j hji] at hj ⊢
      exact h.blank j hj
  · have hlt : s.freeinode + 1 ≤ j := hj
    rw [hother j (by omega)]
    exact h.unused j (by omega)

/-- **copyFile** keeps an image whole and leaves the other inodes alone -/
theorem Whole.copyFile (rounds : ℕ) : ∀ {s s' : Img} (_ : Whole s) {content : List Byte} (_ : (s.inode i).type ≠ .free)
    (_ : copyFile i rounds s content = some s'),
    Whole s' ∧ (∀ j, j ≠ i → s'.inode j = s.inode j) ∧ s'.freeinode = s.freeinode := by
  induction rounds with
  | zero =>
    intro s s' h content hi hs
    cases hs
    exact ⟨h, fun _ _ => rfl, rfl⟩
  | succ rounds ih =>
    intro s s' h content hi hs
    unfold Mkfs.copyFile at hs
    split_ifs at hs with h0
    · cases hs
      exact ⟨h, fun _ _ => rfl, rfl⟩
    · cases hl : Mkfs.iappend s i (content.take BSIZE) with
      | none => simp [hl] at hs
      | some s1 =>
        rw [hl] at hs
        obtain ⟨h1, -, htype, hother, hfi⟩ := h.iappend hi hl
        obtain ⟨h2, hother2, hfi2⟩ := ih h1 (by rw [htype]; exact hi) hs
        exact ⟨h2, fun j hj => (hother2 j hj).trans (hother j hj), hfi2.trans hfi⟩

/-- the image is whole, and its root directory has cnt entries -/
structure Rooted (s : Img) (cnt : ℕ) : Prop where
  whole : Whole s
  lt : ROOTINO < s.freeinode
  type : (s.inode ROOTINO).type = .dir
  size : (s.inode ROOTINO).size = cnt * DIRENTSIZE

theorem length_dirent (inum : ℕ) (name : List Byte) : (dirent inum name).length = DIRENTSIZE := by
  unfold dirent DIRENTSIZE
  rw [length_append, length_take, length_append, length_replicate]
  simp

theorem Rooted.link {cnt inum : ℕ} {name : List Byte} (h : Rooted s cnt) (hs : iappend s ROOTINO (dirent inum name) = some s') :
    Rooted s' (cnt + 1) ∧ (∀ j, j ≠ ROOTINO → s'.inode j = s.inode j) ∧ s'.freeinode = s.freeinode := by
  obtain ⟨h1, hsize, htype, hother, hfi⟩ := h.whole.iappend (by rw [h.type]; decide) hs
  refine ⟨⟨h1, by rw [hfi]; exact h.lt, htype.trans h.type, ?_⟩, hother, hfi⟩
  rw [hsize, h.size, length_dirent]
  ring

theorem Rooted.addFile {cnt : ℕ} {f : Input} (h : Rooted s cnt) (hs : addFile s f = some s') : Rooted s' (cnt + 1) := by
  unfold Mkfs.addFile at hs
  split_ifs at hs
  obtain ⟨h1, hother, hself⟩ := h.whole.ialloc .file (by decide)
  have hlt := h.lt
  have hroot : (ialloc s .file).1.inode ROOTINO = s.inode ROOTINO := hother ROOTINO (by omega)
  have hr1 : Rooted (ialloc s .file).1 cnt :=
    ⟨h1, Nat.lt_succ_of_lt hlt, by rw [hroot]; exact h.type, by rw [hroot]; exact h.size⟩
  dsimp only at hs
  cases hl : iappend (ialloc s .file).1 ROOTINO (dirent (ialloc s .file).2 (entryName f.name)) with
  | none => simp [hl] at hs
  | some s2 =>
    rw [hl] at hs
    obtain ⟨hr2, hother2, hfi2⟩ := hr1.link hl
    have hnew : (s2.inode (ialloc s .file).2).type ≠ .free := by
      show (s2.inode s.freeinode).type ≠ .free
      rw [hother2 _ (by omega), hself]
      decide
    obtain ⟨h3, hother3, hfi3⟩ := hr2.whole.copyFile _ hnew hs
    have hroot3 := hother3 ROOTINO (show ROOTINO ≠ s.freeinode by omega)
    exact ⟨h3, by rw [hfi3]; exact hr2.lt, by rw [hroot3]; exact hr2.type, by rw [hroot3]; exact hr2.size⟩

theorem Rooted.addFiles (files : List Input) : ∀ {s s' : Img} {cnt : ℕ}, Rooted s cnt → addFiles s files = some s' →
    Rooted s' (cnt + files.length) := by
  induction files with
  | nil =>
    intro s s' cnt h hs
    cases hs
    exact h
  | cons f files ih =>
    intro s s' cnt h hs
    unfold Mkfs.addFiles at hs
    cases hf : Mkfs.addFile s f with
    | none => simp [hf] at hs
    | some s1 =>
      rw [hf] at hs
      have := ih (h.addFile hf) hs
      rw [length_cons, show cnt + (files.length + 1) = cnt + 1 + files.length by omega]
      exact this

theorem whole_start : Whole start := by
  refine ⟨⟨⟨by decide, fun b _ => ?_, fun k k' hk => absurd rfl hk, fun k hk => absurd rfl hk⟩, fun x hx => ?_,
    fun i hi => absurd rfl hi, fun i hi => absurd rfl hi⟩, fun _ _ => ⟨rfl, rfl⟩, fun _ _ => rfl⟩
  · rw [decide_eq_true_eq]
    constructor
    · exact .inl
    · rintro (h | ⟨k, rfl⟩)
      · exact h
      · exact (by decide : 0 < nmeta)
  · have hx1 : x ≠ 1 := by
      rintro rfl
      exact absurd hx (by decide)
    show update (fun _ => Bytes.zero BSIZE) 1 superblock x = _
    rw [update_of_ne hx1]

theorem makeRoot_spec (hs : makeRoot = some s) : Rooted s 2 := by
  unfold makeRoot at hs
  obtain ⟨h1, -, hself⟩ := whole_start.ialloc .dir (by decide)
  have hr : Rooted (ialloc start .dir).1 0 := by
    have hroot : (ialloc start .dir).1.inode ROOTINO = ⟨.dir, 0, 0, 1, 0, fun _ => 0⟩ := hself
    exact ⟨h1, by decide, by rw [hroot], by rw [hroot]; rfl⟩
  dsimp only at hs
  cases hl : iappend (ialloc start .dir).1 (ialloc start .dir).2 (dirent (ialloc start .dir).2 [0x2e#8]) with
  | none => simp [hl] at hs
  | some s1 =>
    rw [hl] at hs
    exact ((hr.link hl).1.link hs).1

/-- **What mkfs returns.** The blocks of every inode are there, up to its size or, for the root directory, up to the end
of its entries; the root directory has two entries and one for each file, its size rounded up past them. -/
theorem mkfs_spec {files : List Input} {img : Img} (h : mkfs files = some img) : ∃ s : Img, Rooted s (2 + files.length) ∧
    (∀ i sl, (img.inode i).slot img.data sl = (s.inode i).slot s.data sl) ∧
    (∀ i, i ≠ ROOTINO → img.inode i = s.inode i) ∧ (img.inode ROOTINO).type = .dir ∧
    (img.inode ROOTINO).size = ((s.inode ROOTINO).size / BSIZE + 1) * BSIZE := by
  unfold mkfs at h
  cases hr : makeRoot with
  | none => simp [hr] at h
  | some s0 =>
    rw [hr] at h
    dsimp only at h
    cases hf : addFiles s0 files with
    | none => simp [hf] at h
    | some s =>
      rw [hf] at h
      dsimp only at h
      have hs := (makeRoot_spec hr).addFiles files hf
      unfold balloc at h
      split_ifs at h
      cases h
      have hself : (fixRoot s).inode ROOTINO =
          { s.inode ROOTINO with size := ((s.inode ROOTINO).size / BSIZE + 1) * BSIZE } := by
        unfold fixRoot winode
        dsimp only
        rw [update_self]
      have hother : ∀ i, i ≠ ROOTINO → (fixRoot s).inode i = s.inode i := fun i hi => update_of_ne hi ..
      refine ⟨s, hs, fun i sl => ?_, hother, ?_, ?_⟩
      · have hfix : ∀ B, ((fixRoot s).inode i).slot B sl = (s.inode i).slot B sl := fun B => by
          by_cases hi : i = ROOTINO
          · rw [hi, hself]
            cases sl <;> rfl
          · rw [hother i hi]
        show ((fixRoot s).inode i).slot _ sl = _
        rw [hfix]
        -- the bitmap block is nobody's indirect block
        refine slot_congr (fun hx => update_of_ne (fun heq => ?_) _ _) sl
        by_cases hi : (s.inode i).type = .free
        · exact hx (hs.whole.blank i hi).2
        · have := hs.whole.tidy.books.range (i, .addr indirect)
          rw [refs_of_alloc hi] at this
          have hlo : nmeta ≤ (s.inode i).addrs indirect := (this hx).1
          rw [heq] at hlo
          exact absurd hlo (by decide)
      · show ((fixRoot s).inode ROOTINO).type = .dir
        rw [hself]
        exact hs.type
      · show ((fixRoot s).inode ROOTINO).size = _
        rw [hself]

/-! ## Reading the image -/

theorem bmap_filled (sb : Superblock) (d : Dev) (hlt : bn < MAXFILE)
    (h : n.slot d.data (place bn) ≠ 0) : bmap sb d n bn = .ok (d, n, n.slot d.data (place bn)) := by
  unfold bmap
  by_cases hd : bn < NDIRECT
  · rw [place_direct hd] at h ⊢
    have hne : n.addrs ⟨bn, by omega⟩ ≠ 0 := h
    rw [dif_pos hd, if_neg hne]
    rfl
  · have hi : bn - NDIRECT < NINDIRECT := by
      unfold MAXFILE at hlt
      omega
    rw [place_entry hd hi] at h ⊢
    have h0 : n.addrs indirect ≠ 0 := fun h0 => h (if_pos h0)
    have hslot : n.slot d.data (.entry ⟨bn - NDIRECT, hi⟩) =
        ((d.data (n.addrs indirect)).getWord (4 * (bn - NDIRECT))).toNat := if_neg h0
    rw [hslot] at h ⊢
    have hw : (d.data (n.addrs indirect)).getWord (4 * (bn - NDIRECT)) ≠ 0 := fun e => h (by rw [e]; rfl)
    rw [dif_neg hd, if_pos hi]
    unfold bmapIndirect
    rw [if_neg h0]
    show bmapEntry sb d n (bn - NDIRECT) = _
    unfold bmapEntry
    rw [if_neg hw]
    rfl

theorem readLoop_filled (sb : Superblock) (d : Dev) {k : ℕ}
    (h : ∀ bn < k, bn < MAXFILE ∧ n.slot d.data (place bn) ≠ 0) (cnt : ℕ) : ∀ off, off + cnt ≤ k * BSIZE →
    ∃ l, readLoop sb d n off cnt = .ok (d, n, l) := by
  induction cnt using Nat.strong_induction_on with
  | _ cnt ih =>
    intro off hend
    unfold readLoop
    split_ifs with h0
    · exact ⟨[], rfl⟩
    · have hlt : off / BSIZE < k := by
        rw [bsize_eq] at hend ⊢
        omega
      rw [bmap_filled sb d (h _ hlt).1 (h _ hlt).2]
      show ∃ l, (readLoop sb d n (off + min cnt (BSIZE - off % BSIZE)) (cnt - min cnt (BSIZE - off % BSIZE)) >>= _) = _
      have hm : 0 < min cnt (BSIZE - off % BSIZE) ∧ min cnt (BSIZE - off % BSIZE) ≤ cnt := by
        rw [bsize_eq]
        omega
      obtain ⟨l, hl⟩ := ih (cnt - min cnt (BSIZE - off % BSIZE)) (by omega) (off + min cnt (BSIZE - off % BSIZE)) (by omega)
      rw [hl]
      exact ⟨_, rfl⟩

/-- every inode has an address for each block below its size -/
def Img.NoHoles (img : Img) : Prop :=
  ∀ i, ∀ bn < nblk (img.inode i).size, bn < MAXFILE ∧ (img.inode i).slot img.data (place bn) ≠ 0

/-- **Holes of a fresh image.** The image that mkfs makes has no holes if and only if the entries do not fill the blocks of the
root directory exactly; and then the kernel, on a device with this image, reads any part of any file or directory without
allocating or writing a block. -/
theorem image_no_holes (files : List Input) (img : Img) (h : mkfs files = some img) :
    (img.NoHoles ↔ (2 + files.length) * DIRENTSIZE % BSIZE ≠ 0) ∧
    (img.NoHoles → ∀ (i : ℕ) (sb : Superblock) (log : List LogEv) (off cnt : ℕ), off + cnt ≤ (img.inode i).size →
      ∃ l, readLoop sb ⟨img.data, log⟩ (img.inode i) off cnt = .ok (⟨img.data, log⟩, img.inode i, l)) := by
  obtain ⟨s, hr, hslot, hother, -, hsize⟩ := mkfs_spec h
  rw [← hr.size]
  refine ⟨⟨fun hall hpart => ?_, fun hpart i bn hbn => ?_⟩, fun hfull i sb log off cnt hend =>
    readLoop_filled sb ⟨img.data, log⟩ (hfull i) cnt off (hend.trans ?_)⟩
  · -- the block that the rounding has added
    have hroot : (s.inode ROOTINO).type ≠ .free := by
      rw [hr.type]
      decide
    obtain ⟨hmax, hne⟩ := hall ROOTINO (nblk (s.inode ROOTINO).size) (by
      rw [hsize]
      unfold nblk
      rw [bsize_eq] at hpart ⊢
      omega)
    rw [hslot] at hne
    exact Nat.lt_irrefl _ ((hr.whole.tidy.filled ROOTINO hroot _ hmax).1 hne)
  · -- rounding the size of the root directory up has added no block
    have hbn' : bn < nblk (s.inode i).size := by
      by_cases hi : i = ROOTINO
      · rw [hi, hsize] at hbn
        rw [hi]
        unfold nblk at hbn ⊢
        rw [bsize_eq] at hpart hbn ⊢
        omega
      · rw [hother i hi] at hbn
        exact hbn
    have hi : (s.inode i).type ≠ .free := fun e => by
      rw [(hr.whole.blank i e).1] at hbn'
      exact absurd hbn' (Nat.not_lt_zero bn)
    have hmax := lt_of_lt_of_le hbn' (hr.whole.tidy.le i hi)
    refine ⟨hmax, ?_⟩
    rw [hslot]
    exact (hr.whole.tidy.filled i hi bn hmax).2 hbn'
  · unfold nblk
    rw [bsize_eq]
    omega

/-- one empty file -/
def oneFile : List Input := [⟨[0x61#8], []⟩]

/-- an image with one file -/
theorem image_no_holes_example : ∃ img, mkfs oneFile = some img ∧ (img.inode ROOTINO).slot img.data (place 0) ≠ 0 := by
  obtain ⟨img, h⟩ := Option.isSome_iff_exists.1 (by decide +kernel : (mkfs oneFile).isSome = true)
  obtain ⟨s, hr, -, -, -, hsize⟩ := mkfs_spec h
  refine ⟨img, h, ((image_no_holes oneFile img h).1.2 (by decide) ROOTINO 0 ?_).2⟩
  rw [hsize, hr.size]
  decide

/-- thirty empty files: with "." and ".." their entries fill one block -/
def thirtyFiles : List Input := List.replicate 30 ⟨[0x61#8], []⟩

/-- **A hole.** With thirty files the entries of the root directory fill one block; its size is rounded up to two blocks,
the second of which has no address. When the kernel reads it, bmap either panics or allocates a block, which it writes to
the log. -/
theorem image_hole : ∃ img, mkfs thirtyFiles = some img ∧ 1 + thirtyFiles.length < NINODES ∧
    1 < nblk (img.inode ROOTINO).size ∧ (img.inode ROOTINO).slot img.data (place 1) = 0 ∧
    ∀ (sb : Superblock) (log : List LogEv) (r : Dev × Dinode × ℕ),
      bmap sb ⟨img.data, log⟩ (img.inode ROOTINO) 1 = .ok r → r.1.trace ≠ log := by
  obtain ⟨img, h⟩ := Option.isSome_iff_exists.1 (by decide +kernel : (mkfs thirtyFiles).isSome = true)
  obtain ⟨s, hr, hslot, -, -, hsize⟩ := mkfs_spec h
  have h0 : (img.inode ROOTINO).slot img.data (place 1) = 0 := by
    rw [hslot]
    by_contra hne
    have hlt := (hr.whole.tidy.filled ROOTINO (by rw [hr.type]; decide) 1 (by decide)).1 hne
    rw [hr.size] at hlt
    exact absurd hlt (by decide)
  refine ⟨img, h, by decide, ?_, h0, fun sb log r hb => ?_⟩
  · rw [hsize, hr.size]
    decide
  · have haddr : (img.inode ROOTINO).addrs ⟨1, by decide⟩ = 0 := h0
    unfold bmap at hb
    rw [dif_pos (by decide), if_pos haddr] at hb
    unfold Blocks.balloc at hb
    split at hb
    · cases hb
    · cases hb
      exact fun e => absurd (congrArg List.length e) (by simp [Blocks.bzero, mark, Dev.write]; omega)

end Xv6.Mkfs
