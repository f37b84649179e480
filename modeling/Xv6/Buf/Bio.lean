/-
The buffer cache (`bio.c`), with the part of log_write that concerns it (`log.c`) and iderw as a faithful transfer (`ide.c`).

Any number of processes use the cache. What each of them does is cut where another can come in between: `get` is the critical
section of bget, after which the process waits for the buffer's sleep lock; `enter` is the rest of bread, from acquiresleep
on; then the holder may change the data and call bwrite or log_write, and brelse. A commit is made of the same steps: write_log
and install_trans bread the blocks, copy into them, bwrite and brelse. The pointers of the LRU list are those of the code.

Main results, for every interleaving on a device other than 0 (the buffers say (0, 0) before their first use):

- `Inv.step`: one step keeps the list a ring of all buffers, one buffer for a block, and the contents right;
- `bcache_coherent`: in every run bread returns what was written last, and no buffer in use is given away.
-/
import Xv6.Param
import Xv6.Lib.Linked
import Xv6.Lib.Tally

namespace Xv6.Bio

open Lib List

/-! ## The cache -/

def NBUF : ℕ := MAXOPBLOCKS * 3

/-- struct buf without its links -/
structure Buf where
  dev : ℕ
  blockno : ℕ
  refcnt : ℕ
  valid : Bool
  dirty : Bool
  locked : Bool
  data : Block

/-- the blocks by device and number -/
abbrev Blocks := ℕ × ℕ → Block

/-- the buffers are the nodes 0, …, NBUF - 1 and the head is the node NBUF; waiting: the processes between the critical
section of bget and acquiresleep -/
structure Bcache where
  buf : ℕ → Buf
  links : Links ℕ
  disk : Blocks
  waiting : ℕ → ℕ

inductive Stop where
  | noBuffers
  | bwrite
  | brelse
  /-- the process cannot go on now -/
  | blocked
  deriving DecidableEq

/-- the block that a buffer carries -/
def Buf.ident (x : Buf) : ℕ × ℕ := (x.dev, x.blockno)

def binit (disk : Blocks) : Bcache where
  buf _ := ⟨0, 0, 0, false, false, false, Bytes.zero BSIZE⟩
  links := (List.range NBUF).foldl (fun k b => k.pushFront NBUF b) ⟨fun _ => NBUF, fun _ => NBUF⟩
  disk := disk
  waiting _ := 0

def Bcache.set (s : Bcache) (i : ℕ) (x : Buf) : Bcache := { s with buf := update s.buf i x }

/-- Is the block already cached? -/
def Bcache.cached (s : Bcache) (dev blockno : ℕ) : Option ℕ :=
  walk s.links.next NBUF (fun i => (s.buf i).dev == dev && (s.buf i).blockno == blockno) (NBUF + 1) (s.links.next NBUF)

/-- a buffer to recycle, from the least recently used on -/
def Bcache.unused (s : Bcache) : Option ℕ :=
  walk s.links.prev NBUF (fun i => (s.buf i).refcnt == 0 && (s.buf i).dirty == false) (NBUF + 1) (s.links.prev NBUF)

/-- the critical section of bget, for a process that waits for buffer i then -/
def Bcache.take (s : Bcache) (i : ℕ) (x : Buf) : Bcache :=
  { s.set i x with waiting := update s.waiting i (s.waiting i + 1) }

def bget (s : Bcache) (dev blockno : ℕ) : Except Stop (Bcache × ℕ) :=
  match s.cached dev blockno with
  | some i => .ok (s.take i { s.buf i with refcnt := (s.buf i).refcnt + 1 }, i)
  | none =>
    match s.unused with
    | some i =>
      .ok (s.take i { s.buf i with dev := dev, blockno := blockno, valid := false, dirty := false, refcnt := 1 }, i)
    | none => .error .noBuffers

/-- write a dirty buffer, or read one -/
def iderw (s : Bcache) (i : ℕ) : Bcache :=
  if (s.buf i).dirty then
    { s.set i { s.buf i with dirty := false, valid := true } with disk := update s.disk (s.buf i).ident (s.buf i).data }
  else s.set i { s.buf i with valid := true, data := s.disk (s.buf i).ident }

/-- acquiresleep and the rest of bread -/
def enter (s : Bcache) (i : ℕ) : Except Stop Bcache :=
  if s.waiting i = 0 ∨ (s.buf i).locked then .error .blocked
  else
    let s := { s.set i { s.buf i with locked := true } with waiting := update s.waiting i (s.waiting i - 1) }
    .ok (if (s.buf i).valid then s else iderw s i)

/-- the holder sets the data and calls bwrite -/
def bwrite (s : Bcache) (i : ℕ) (d : Block) : Except Stop Bcache :=
  if (s.buf i).locked then .ok (iderw (s.set i { s.buf i with data := d, dirty := true }) i) else .error .bwrite

/-- the holder sets the data and calls log_write -/
def logWrite (s : Bcache) (i : ℕ) (d : Block) : Except Stop Bcache :=
  if (s.buf i).locked then .ok (s.set i { s.buf i with data := d, dirty := true }) else .error .blocked

def brelse (s : Bcache) (i : ℕ) : Except Stop Bcache :=
  if (s.buf i).locked then
    let s := s.set i { s.buf i with locked := false, refcnt := (s.buf i).refcnt - 1 }
    .ok (if (s.buf i).refcnt = 0 then { s with links := (s.links.remove i).pushFront NBUF i } else s)
  else .error .brelse

/-! ## Runs -/

inductive Op where
  | get (dev blockno : ℕ)
  | enter (i : ℕ)
  | bwrite (i : ℕ) (d : Block)
  | logWrite (i : ℕ) (d : Block)
  | brelse (i : ℕ)

def step (s : Bcache) : Op → Except Stop Bcache
  | .get dev blockno => (bget s dev blockno).map Prod.fst
  | .enter i => enter s i
  | .bwrite i d => bwrite s i d
  | .logWrite i d => logWrite s i d
  | .brelse i => brelse s i

/-- the block is on a device other than 0 -/
def Op.Proper : Op → Prop
  | .get dev _ => dev ≠ 0
  | _ => True

/-- what was written last, as an abstract store -/
def Op.wrote (s : Bcache) (v : Blocks) : Op → Blocks
  | .bwrite i d => update v (s.buf i).ident d
  | .logWrite i d => update v (s.buf i).ident d
  | _ => v

/-- the states with what was written last, from a disk -/
inductive Reach (disk : Blocks) : Bcache → Blocks → Prop where
  | init : Reach disk (binit disk) disk
  | step {s s' : Bcache} {v : Blocks} (op : Op) : Reach disk s v → op.Proper → step s op = .ok s' → Reach disk s' (op.wrote s v)

/-! ## The invariant -/

/-- the list is a ring of all buffers with the head -/
def Ordered (k : Links ℕ) : Prop := ∃ l, l.Perm (List.range NBUF) ∧ Seg k NBUF l NBUF

/-- what holds of one buffer: x with w processes waiting for it -/
structure Fair (v : Blocks) (x : Buf) (w : ℕ) : Prop where
  count : x.refcnt = w + if x.locked then 1 else 0
  fresh : x.dev = 0 → x.refcnt = 0 ∧ x.dirty = false
  held : x.locked = true → x.valid = true
  pinned : x.dirty = true → x.valid = true
  right : x.dev ≠ 0 → x.valid = true → x.data = v x.ident

structure Inv (s : Bcache) (v : Blocks) : Prop where
  order : Ordered s.links
  outside : ∀ i, NBUF ≤ i → (s.buf i).dev = 0
  uniq : ∀ i j, (s.buf i).dev ≠ 0 → (s.buf i).ident = (s.buf j).ident → i = j
  fair : ∀ i, Fair v (s.buf i) (s.waiting i)
  clean : ∀ b : ℕ × ℕ, b.1 ≠ 0 → (∀ i, (s.buf i).ident = b → (s.buf i).dirty = false) → s.disk b = v b

variable {s s' : Bcache} {v : Blocks} {i dev blockno : ℕ}

theorem Ordered.nodup {l : List ℕ} (hl : l.Perm (List.range NBUF)) : (NBUF :: l).Nodup := by
  refine nodup_cons.2 ⟨fun h => ?_, hl.nodup_iff.2 nodup_range⟩
  exact absurd (mem_range.1 (hl.mem_iff.1 h)) (by omega)

theorem Ordered.next_walk {k : Links ℕ} (h : Ordered k) {p : ℕ → Bool} :
    (∀ i, walk k.next NBUF p (NBUF + 1) (k.next NBUF) = some i → i < NBUF ∧ p i = true) ∧
    (walk k.next NBUF p (NBUF + 1) (k.next NBUF) = none → ∀ i < NBUF, p i = false) := by
  obtain ⟨l, hl, hseg⟩ := h
  have hlen : l.length < NBUF + 1 := by
    rw [hl.length_eq, length_range]
    omega
  rw [hseg.walk p (nodup_cons.1 (Ordered.nodup hl)).1 hlen]
  refine ⟨fun i hi => ⟨mem_range.1 (hl.mem_iff.1 (mem_of_find?_eq_some hi)), find?_some hi⟩, fun hn i hi => ?_⟩
  have := find?_eq_none.1 hn i (hl.mem_iff.2 (mem_range.2 hi))
  simpa using this

theorem Ordered.flip {k : Links ℕ} (h : Ordered k) : Ordered k.flip := by
  obtain ⟨l, hl, hseg⟩ := h
  exact ⟨l.reverse, l.reverse_perm.trans hl, hseg.reverse⟩

theorem Ordered.prev_walk {k : Links ℕ} (h : Ordered k) {p : ℕ → Bool} :
    (∀ i, walk k.prev NBUF p (NBUF + 1) (k.prev NBUF) = some i → i < NBUF ∧ p i = true) ∧
    (walk k.prev NBUF p (NBUF + 1) (k.prev NBUF) = none → ∀ i < NBUF, p i = false) := h.flip.next_walk

theorem Ordered.moveFront {k : Links ℕ} (h : Ordered k) (hi : i < NBUF) : Ordered ((k.remove i).pushFront NBUF i) := by
  obtain ⟨l, hl, hseg⟩ := h
  obtain ⟨l1, l2, rfl⟩ := append_of_mem (hl.mem_iff.2 (mem_range.2 hi))
  have hnd := Ordered.nodup hl
  have hperm : (NBUF :: (l1 ++ i :: l2)).Perm (i :: (NBUF :: (l1 ++ l2))) :=
    (perm_middle.cons NBUF).trans (List.Perm.swap i NBUF _)
  have hnd' := nodup_cons.1 (hperm.nodup_iff.1 hnd)
  exact ⟨i :: (l1 ++ l2), perm_middle.symm.trans hl, (hseg.remove hnd).pushFront hnd'.1 hnd'.2⟩

theorem binit_ordered (disk : Blocks) : Ordered (binit disk).links := by
  -- after n rounds the list has the buffers below n
  have hrounds : ∀ n ≤ NBUF, ∃ l, l.Perm (List.range n) ∧
      Seg ((List.range n).foldl (fun k b => k.pushFront NBUF b) ⟨fun _ => NBUF, fun _ => NBUF⟩) NBUF l NBUF := by
    intro n
    induction n with
    | zero => exact fun _ => ⟨[], List.Perm.refl _, rfl, rfl⟩
    | succ n ih =>
      intro hn
      obtain ⟨l, hl, hseg⟩ := ih (by omega)
      have hmem : ∀ y ∈ l, y < n := fun y hy => mem_range.1 (hl.mem_iff.1 hy)
      have hnd : (NBUF :: l).Nodup := nodup_cons.2 ⟨fun h => absurd (hmem _ h) (by omega), hl.nodup_iff.2 nodup_range⟩
      rw [range_succ, foldl_append]
      refine ⟨n :: l, (hl.cons n).trans (perm_append_singleton n _).symm, hseg.pushFront (fun h => ?_) hnd⟩
      rcases mem_cons.1 h with heq | hm
      · omega
      · exact absurd (hmem n hm) (by omega)
  exact hrounds NBUF le_rfl

theorem binit_inv (disk : Blocks) : Inv (binit disk) disk :=
  ⟨binit_ordered disk, fun _ _ => rfl, fun _ _ h => absurd rfl h, fun _ => ⟨rfl, fun _ => ⟨rfl, rfl⟩, nofun, nofun,
    fun h => absurd rfl h⟩,
    fun _ _ _ => rfl⟩

/-- one buffer changes but stays with its block, and the others, the list and the store stay as they are -/
theorem Inv.setBuf (h : Inv s v) {x : Buf} {w : ℕ} (hid : x.ident = (s.buf i).ident) (hx : Fair v x w)
    (hd : (s.buf i).dirty = true → x.dirty = false → s.disk x.ident = v x.ident) :
    Inv { s.set i x with waiting := update s.waiting i w } v := by
  have hident := apply_update_same Buf.ident hid
  have hdev : ∀ j, (update s.buf i x j).dev = (s.buf j).dev := fun j => congrArg Prod.fst (hident j)
  refine ⟨h.order, fun j hj => (hdev j).trans (h.outside j hj), fun j k hj hjk => ?_, fun j => ?_, fun b hb hclean => ?_⟩
  · dsimp only [Bcache.set] at hj hjk
    rw [hdev] at hj
    rw [hident, hident] at hjk
    exact h.uniq j k hj hjk
  · dsimp only [Bcache.set]
    by_cases hj : j = i
    · subst hj
      rw [update_self, update_self]
      exact hx
    · rw [update_of_ne hj, update_of_ne hj]
      exact h.fair j
  · dsimp only [Bcache.set] at hclean ⊢
    -- the block of buffer i, or another
    by_cases hbi : b = (s.buf i).ident
    · have hxd : x.dirty = false := by
        have := hclean i (by rw [update_self, hid, hbi])
        rwa [update_self] at this
      cases hdi : (s.buf i).dirty with
      | true =>
        rw [hbi, ← hid]
        exact hd hdi hxd
      | false =>
        refine h.clean b hb fun j hj => ?_
        by_cases hji : j = i
        · rw [hji, hdi]
        · have := hclean j (by rw [update_of_ne hji, hj])
          rwa [update_of_ne hji] at this
    · refine h.clean b hb fun j hj => ?_
      have hji : j ≠ i := by
        rintro rfl
        exact hbi hj.symm
      have := hclean j (by rw [update_of_ne hji, hj])
      rwa [update_of_ne hji] at this

theorem set_waiting_self (s : Bcache) (i : ℕ) (x : Buf) :
    ({ s.set i x with waiting := update s.waiting i (s.waiting i) } : Bcache) = s.set i x := by
  rw [update_eq_self]
  rfl

theorem Inv.hit (h : Inv s v) (hc : s.cached dev blockno = some i) (hdev : dev ≠ 0) :
    Inv (s.take i { s.buf i with refcnt := (s.buf i).refcnt + 1 }) v := by
  have hp := (h.order.next_walk.1 i hc).2
  simp only [Bool.and_eq_true, beq_iff_eq] at hp
  have hf := h.fair i
  refine h.setBuf rfl ⟨?_, fun h0 => absurd (hp.1.symm.trans h0) hdev, hf.held, hf.pinned, hf.right⟩ fun h1 h2 => ?_
  · have := hf.count
    dsimp only
    omega
  · rw [h1] at h2
    exact absurd h2 (by simp)

/-- bget: an unused buffer is recycled for a block that is not cached -/
theorem Inv.miss (h : Inv s v) (hc : s.cached dev blockno = none) (hu : s.unused = some i) (hdev : dev ≠ 0) :
    Inv (s.take i { s.buf i with dev := dev, blockno := blockno, valid := false, dirty := false, refcnt := 1 }) v := by
  have hnone : ∀ j, (s.buf j).ident ≠ (dev, blockno) := by
    intro j heq
    obtain ⟨h1, h2⟩ := Prod.mk.inj heq
    by_cases hj : j < NBUF
    · have := h.order.next_walk.2 hc j hj
      simp only [Bool.and_eq_false_iff, beq_eq_false_iff_ne] at this
      exact this.elim (fun hne => hne h1) fun hne => hne h2
    · exact hdev (h1.symm.trans (h.outside j (by omega)))
  obtain ⟨hi, hp⟩ := h.order.prev_walk.1 i hu
  simp only [Bool.and_eq_true, beq_iff_eq] at hp
  have hcount := (h.fair i).count
  refine ⟨h.order, fun j hj => ?_, fun j k hj hjk => ?_, fun j => ?_, fun b hb hclean => ?_⟩
  · show (update s.buf i _ j).dev = 0
    rw [update_of_ne (by omega)]
    exact h.outside j hj
  · dsimp only [Bcache.take, Bcache.set] at hj hjk
    by_cases hji : j = i <;> by_cases hki : k = i
    · rw [hji, hki]
    · subst hji
      rw [update_self, update_of_ne hki] at hjk
      exact absurd hjk.symm (hnone k)
    · subst hki
      rw [update_self, update_of_ne hji] at hjk
      exact absurd hjk (hnone j)
    · rw [update_of_ne hji] at hj hjk
      rw [update_of_ne hki] at hjk
      exact h.uniq j k hj hjk
  · dsimp only [Bcache.take, Bcache.set]
    by_cases hji : j = i
    · subst hji
      rw [update_self, update_self]
      cases hl : (s.buf j).locked with
      | true =>
        rw [hl] at hcount
        exact absurd hcount (by simp only [if_true]; omega)
      | false =>
        rw [hl] at hcount
        refine ⟨?_, fun h0 => absurd h0 hdev, nofun, nofun, nofun⟩
        simp only [Bool.false_eq_true, if_false] at hcount ⊢
        omega
    · rw [update_of_ne hji, update_of_ne hji]
      exact h.fair j
  · -- the old block of the buffer was clean
    dsimp only [Bcache.take, Bcache.set] at hclean ⊢
    refine h.clean b hb fun j hj => ?_
    by_cases hji : j = i
    · rw [hji]
      exact hp.2
    · have := hclean j (by rw [update_of_ne hji, hj])
      rwa [update_of_ne hji] at this

/-- a buffer in use is on a proper device, and so one of the cache -/
theorem Inv.used (h : Inv s v) (hr : 0 < (s.buf i).refcnt) : (s.buf i).dev ≠ 0 ∧ i < NBUF := by
  have hdev : (s.buf i).dev ≠ 0 := fun h0 => by
    have := ((h.fair i).fresh h0).1
    omega
  exact ⟨hdev, by
    by_contra hge
    exact hdev (h.outside i (by omega))⟩

theorem Inv.locked_pos (h : Inv s v) (hl : (s.buf i).locked = true) : 0 < (s.buf i).refcnt := by
  have := (h.fair i).count
  rw [hl] at this
  simp only [if_true] at this
  omega

/-- the holder writes: through to the disk, or into the log's keeping -/
theorem Inv.write (h : Inv s v) (hl : (s.buf i).locked = true) {x : Buf} {disk : Blocks} (hid : x.ident = (s.buf i).ident)
    (href : x.refcnt = (s.buf i).refcnt) (hlock : x.locked = true) (hvalid : x.valid = true)
    (hdisk : x.dirty = true ∧ disk = s.disk ∨ x.dirty = false ∧ disk = update s.disk (s.buf i).ident x.data) :
    Inv { s.set i x with disk := disk } (update v (s.buf i).ident x.data) := by
  obtain ⟨hdev, -⟩ := h.used (h.locked_pos hl)
  have hident := apply_update_same Buf.ident hid
  have hdevs : ∀ j, (update s.buf i x j).dev = (s.buf j).dev := fun j => congrArg Prod.fst (hident j)
  refine ⟨h.order, fun j hj => (hdevs j).trans (h.outside j hj), fun j k hj hjk => ?_, fun j => ?_, fun b hb hclean => ?_⟩
  · dsimp only [Bcache.set] at hj hjk
    rw [hdevs] at hj
    rw [hident, hident] at hjk
    exact h.uniq j k hj hjk
  · dsimp only [Bcache.set]
    have hf := h.fair j
    by_cases hj : j = i
    · subst hj
      have hxdev : x.dev = (s.buf j).dev := congrArg Prod.fst hid
      rw [update_self]
      refine ⟨?_, fun h0 => absurd (hxdev.symm.trans h0) hdev, fun _ => hvalid, fun _ => hvalid, fun _ _ => ?_⟩
      · rw [href, hlock, hf.count, hl]
      · rw [hid, update_self]
    · rw [update_of_ne hj]
      refine ⟨hf.count, hf.fresh, hf.held, hf.pinned, fun hdj hvj => ?_⟩
      rw [update_of_ne fun heq => hj (h.uniq j i hdj heq)]
      exact hf.right hdj hvj
  · dsimp only [Bcache.set] at hclean ⊢
    by_cases hbi : b = (s.buf i).ident
    · have hxd := hclean i (by rw [hident, hbi])
      rw [update_self] at hxd
      rcases hdisk with ⟨hd, -⟩ | ⟨-, rfl⟩
      · rw [hd] at hxd
        exact absurd hxd (by simp)
      · rw [hbi, update_self, update_self]
    · have hsame : disk b = s.disk b := by
        rcases hdisk with ⟨-, rfl⟩ | ⟨-, rfl⟩
        · rfl
        · rw [update_of_ne hbi]
      rw [hsame, update_of_ne hbi]
      refine h.clean b hb fun j hj => ?_
      have hji : j ≠ i := by
        rintro rfl
        exact hbi hj.symm
      have := hclean j (by rw [hident, hj])
      rwa [update_of_ne hji] at this

theorem bwrite_eq (hl : (s.buf i).locked = true) (d : Block) :
    bwrite s i d = .ok { s.set i { s.buf i with data := d, dirty := false, valid := true } with
      disk := update s.disk (s.buf i).ident d } := by
  unfold bwrite iderw Bcache.set
  simp only [hl, if_true, update_self, update_idem]
  rfl

/-- what the rest of bread finds: the data, or the block on the disk if the buffer is not valid -/
def Bcache.contents (s : Bcache) (i : ℕ) : Block := if (s.buf i).valid then (s.buf i).data else s.disk (s.buf i).ident

theorem enter_eq (h : Inv s v) (he : enter s i = .ok s') : 0 < s.waiting i ∧ (s.buf i).locked = false ∧
    s' = { s.set i { s.buf i with locked := true, valid := true, data := s.contents i } with
      waiting := update s.waiting i (s.waiting i - 1) } := by
  unfold enter at he
  split_ifs at he with hno
  simp only [not_or, Bool.not_eq_true] at hno
  refine ⟨by omega, hno.2, ?_⟩
  have hs := Except.ok.inj he
  cases hv : (s.buf i).valid with
  | true =>
    simp only [Bcache.set, update_self, hv, if_true] at hs
    rw [← hs, Bcache.contents, if_pos hv, ← hv]
    rfl
  | false =>
    have hd : (s.buf i).dirty = false := by
      cases hd : (s.buf i).dirty with
      | false => rfl
      | true => exact absurd ((h.fair i).pinned hd) (by simp [hv])
    simp only [Bcache.set, update_self, hv, iderw, hd, Bool.false_eq_true, if_false, update_idem] at hs
    rw [← hs, Bcache.contents, if_neg (by simp [hv])]
    simp only [Bcache.set, hd]
    rfl

theorem Inv.enter (h : Inv s v) (he : enter s i = .ok s') :
    Inv s' v ∧ (s'.buf i).data = v (s.buf i).ident ∧ ∀ j, (s'.buf j).ident = (s.buf j).ident := by
  obtain ⟨hw, hl, rfl⟩ := enter_eq h he
  have hf := h.fair i
  have hcount := hf.count
  rw [hl] at hcount
  simp only [Bool.false_eq_true, if_false] at hcount
  obtain ⟨hdev, -⟩ := h.used (i := i) (by omega)
  have hdata : s.contents i = v (s.buf i).ident := by
    unfold Bcache.contents
    split_ifs with hv
    · exact hf.right hdev hv
    · refine h.clean _ hdev fun j hj => ?_
      obtain rfl := h.uniq i j hdev hj.symm
      cases hd : (s.buf i).dirty with
      | false => rfl
      | true => exact absurd (hf.pinned hd) hv
  refine ⟨h.setBuf rfl ⟨?_, fun h0 => absurd h0 hdev, fun _ => rfl, fun _ => rfl, fun _ _ => hdata⟩ fun h1 h2 => ?_, ?_,
    fun j => ?_⟩
  · simp only [if_true]
    omega
  · rw [h1] at h2
    exact absurd h2 (by simp)
  · simp only [Bcache.set, update_self]
    exact hdata
  · exact apply_update_same Buf.ident (by rfl) j

theorem Inv.brelse (h : Inv s v) (he : brelse s i = .ok s') : Inv s' v ∧ ∀ j, (s'.buf j).ident = (s.buf j).ident := by
  unfold Bio.brelse at he
  split_ifs at he with hl
  have hf := h.fair i
  have hcount := hf.count
  rw [hl] at hcount
  simp only [if_true] at hcount
  obtain ⟨hdev, hlt⟩ := h.used (h.locked_pos hl)
  have hput : Inv (s.set i { s.buf i with locked := false, refcnt := (s.buf i).refcnt - 1 }) v := by
    rw [← set_waiting_self]
    refine h.setBuf rfl ⟨?_, fun h0 => absurd h0 hdev, nofun, hf.pinned, hf.right⟩ fun h1 h2 => ?_
    · simp only [Bool.false_eq_true, if_false]
      omega
    · rw [h1] at h2
      exact absurd h2 (by simp)
  have hid : ∀ j, ((s.set i { s.buf i with locked := false, refcnt := (s.buf i).refcnt - 1 }).buf j).ident = (s.buf j).ident :=
    apply_update_same Buf.ident rfl
  have hs := Except.ok.inj he
  dsimp only at hs
  split_ifs at hs
  · subst hs
    exact ⟨⟨hput.order.moveFront hlt, hput.outside, hput.uniq, hput.fair, hput.clean⟩, hid⟩
  · subst hs
    exact ⟨hput, hid⟩

/-! ## Steps and runs -/

/-- bget gives a buffer of the block, which is in use from now on -/
theorem Inv.get (h : Inv s v) (hdev : dev ≠ 0) (hg : bget s dev blockno = .ok (s', i)) :
    Inv s' v ∧ (s'.buf i).ident = (dev, blockno) ∧ 0 < (s'.buf i).refcnt ∧
      ∀ j, 0 < (s.buf j).refcnt ∨ (s.buf j).dirty = true → (s'.buf j).ident = (s.buf j).ident := by
  unfold bget at hg
  cases hc : s.cached dev blockno with
  | some k =>
    rw [hc] at hg
    obtain ⟨rfl, rfl⟩ := Prod.mk.inj (Except.ok.inj hg)
    have hp := (h.order.next_walk.1 k hc).2
    simp only [Bool.and_eq_true, beq_iff_eq] at hp
    refine ⟨h.hit hc hdev, ?_, ?_, fun j _ => ?_⟩
    · simp only [Bcache.take, Bcache.set, update_self]
      exact Prod.ext hp.1 hp.2
    · simp only [Bcache.take, Bcache.set, update_self]
      omega
    · exact apply_update_same Buf.ident (by rfl) j
  | none =>
    rw [hc] at hg
    cases hu : s.unused with
    | none =>
      rw [hu] at hg
      exact absurd hg nofun
    | some k =>
      rw [hu] at hg
      obtain ⟨rfl, rfl⟩ := Prod.mk.inj (Except.ok.inj hg)
      have hp := (h.order.prev_walk.1 k hu).2
      simp only [Bool.and_eq_true, beq_iff_eq] at hp
      refine ⟨h.miss hc hu hdev, ?_, ?_, fun j hj => ?_⟩
      · simp only [Bcache.take, Bcache.set, update_self]
        rfl
      · simp only [Bcache.take, Bcache.set, update_self]
        omega
      · simp only [Bcache.take, Bcache.set]
        have hne : j ≠ k := by
          rintro rfl
          rcases hj with h1 | h1
          · omega
          · rw [hp.2] at h1
            exact absurd h1 (by simp)
        rw [update_of_ne hne]

/-- **One step** keeps the invariant, and gives no buffer in use to another block. -/
theorem Inv.step (h : Inv s v) (op : Op) (hop : op.Proper) (hs : step s op = .ok s') : Inv s' (op.wrote s v) ∧
    ∀ j, 0 < (s.buf j).refcnt ∨ (s.buf j).dirty = true → (s'.buf j).ident = (s.buf j).ident := by
  cases op with
  | get dev blockno =>
    cases hg : bget s dev blockno with
    | error e =>
      rw [Bio.step, hg] at hs
      exact absurd hs nofun
    | ok z =>
      obtain ⟨s1, i⟩ := z
      rw [Bio.step, hg] at hs
      obtain rfl : s1 = s' := Except.ok.inj hs
      obtain ⟨hinv, -, -, hstay⟩ := h.get hop hg
      exact ⟨hinv, hstay⟩
  | enter i =>
    obtain ⟨hinv, -, hid⟩ := h.enter hs
    exact ⟨hinv, fun j _ => hid j⟩
  | bwrite i d =>
    cases hl : (s.buf i).locked with
    | false =>
      simp only [Bio.step, Bio.bwrite, hl] at hs
      exact absurd hs nofun
    | true =>
      rw [Bio.step, bwrite_eq hl] at hs
      obtain rfl := Except.ok.inj hs
      exact ⟨h.write hl rfl rfl hl rfl (.inr ⟨rfl, rfl⟩), fun j _ =>
        apply_update_same Buf.ident (x := { s.buf i with data := d, dirty := false, valid := true }) rfl j⟩
  | logWrite i d =>
    cases hl : (s.buf i).locked with
    | false =>
      simp only [Bio.step, Bio.logWrite, hl] at hs
      exact absurd hs nofun
    | true =>
      rw [Bio.step, show logWrite s i d = .ok (s.set i { s.buf i with data := d, dirty := true }) from if_pos hl] at hs
      obtain rfl := Except.ok.inj hs
      exact ⟨h.write hl rfl rfl hl ((h.fair i).held hl) (.inl ⟨rfl, rfl⟩), fun j _ =>
        apply_update_same Buf.ident (x := { s.buf i with data := d, dirty := true }) rfl j⟩
  | brelse i =>
    obtain ⟨hinv, hid⟩ := h.brelse hs
    exact ⟨hinv, fun j _ => hid j⟩

theorem Reach.inv {disk : Blocks} (h : Reach disk s v) : Inv s v := by
  induction h with
  | init => exact binit_inv disk
  | step op _ hop hs ih => exact (ih.step op hop hs).1

/-- **Buffer cache coherence.** In every interleaving of bread, bwrite, log_write and brelse: the list is a ring of all
buffers; a block has at most one buffer; a buffer in use or dirty is not given to another block; bget gives a buffer of the
block; and when bread returns, its data is what was written last, or what the disk had. -/
theorem bcache_coherent (disk : Blocks) (s : Bcache) (v : Blocks) (h : Reach disk s v) : Ordered s.links ∧
    (∀ i j, (s.buf i).dev ≠ 0 → (s.buf i).ident = (s.buf j).ident → i = j) ∧
    (∀ op s', op.Proper → step s op = .ok s' → ∀ i, 0 < (s.buf i).refcnt ∨ (s.buf i).dirty = true →
      (s'.buf i).ident = (s.buf i).ident) ∧
    (∀ dev b s' i, dev ≠ 0 → bget s dev b = .ok (s', i) → (s'.buf i).ident = (dev, b) ∧ 0 < (s'.buf i).refcnt) ∧
    ∀ i s', enter s i = .ok s' → (s'.buf i).ident = (s.buf i).ident ∧ (s'.buf i).data = v (s.buf i).ident := by
  have hinv := h.inv
  refine ⟨hinv.order, hinv.uniq, fun op s' hop hs => (hinv.step op hop hs).2, fun dev b s' i hdev hg => ?_, fun i s' he => ?_⟩
  · obtain ⟨-, hid, hpos, -⟩ := hinv.get hdev hg
    exact ⟨hid, hpos⟩
  · obtain ⟨-, hdata, hid⟩ := hinv.enter he
    exact ⟨hid i, hdata⟩

/-- a disk with something on block 5 -/
def someDisk : Blocks := fun b => if b = (1, 5) then (Bytes.zero BSIZE).set 0 7 else Bytes.zero BSIZE

instance : DecidablePred Op.Proper := fun op => by cases op <;> unfold Op.Proper <;> infer_instance

/-- operations one after the other -/
def run (x : Bcache × Blocks) (ops : List Op) : Except Stop (Bcache × Blocks) :=
  ops.foldlM (fun x op => (step x.1 op).map fun s => (s, op.wrote x.1 x.2)) x

theorem Reach.run {ops : List Op} {x y : Bcache × Blocks} (h : Reach disk x.1 x.2) (hops : ∀ op ∈ ops, op.Proper)
    (hrun : run x ops = .ok y) : Reach disk y.1 y.2 := by
  induction ops generalizing x with
  | nil =>
    cases hrun
    exact h
  | cons op ops ih =>
    cases hs : Bio.step x.1 op with
    | error e =>
      rw [Bio.run, List.foldlM_cons, hs] at hrun
      cases hrun
    | ok s =>
      rw [Bio.run, List.foldlM_cons, hs] at hrun
      exact ih (.step op h (hops op (List.mem_cons_self ..)) hs) (fun o ho => hops o (List.mem_cons_of_mem _ ho)) hrun

/-- block 5 is written, and its buffer is the last one left when the block is wanted no more -/
def rewritten : List Op :=
  [.get 1 5, .enter 0, .bwrite 0 ((Bytes.zero BSIZE).set 0 9)] ++
    (List.range 29).flatMap (fun k => [.get 2 k, .enter (k + 1)]) ++ [.brelse 0, .get 2 29]

/-- a block that was written, and has lost its buffer to another one, is read again -/
theorem bcache_coherent_reread : ∃ x y : Bcache × Blocks, ∃ s, Reach someDisk x.1 x.2 ∧
    (∀ i < NBUF, (x.1.buf i).ident ≠ (1, 5)) ∧ Reach someDisk y.1 y.2 ∧ enter y.1 0 = .ok s ∧ (y.1.buf 0).ident = (1, 5) ∧
    (s.buf 0).data.get 0 = 9 := by
  have hseen : (Bio.run (binit someDisk, someDisk) rewritten).toOption.map (fun x =>
      ((List.range NBUF).all (fun i => (x.1.buf i).ident ≠ (1, 5)), (Bio.run x [.enter 0, .brelse 0, .get 1 5]).toOption.map
        fun y => ((y.1.buf 0).ident, (y.2 (1, 5)).get 0, (enter y.1 0).toOption.isSome))) =
      some (true, some ((1, 5), 9, true)) := by decide +kernel
  obtain ⟨x, hx, hval⟩ := Option.map_eq_some_iff.1 hseen
  obtain ⟨hall, hmap⟩ := Prod.mk.inj hval
  obtain ⟨y, hy, hval⟩ := Option.map_eq_some_iff.1 hmap
  simp only [Prod.mk.injEq] at hval
  obtain ⟨hid, hbyte, hsome⟩ := hval
  obtain ⟨s, hs⟩ := Option.isSome_iff_exists.1 hsome
  have hok : ∀ {α : Type} {z : Except Stop α} {t : α}, z.toOption = some t → z = .ok t := by
    intro α z t hz
    cases z with
    | ok t' => exact congrArg _ (Option.some.inj hz)
    | error e => exact absurd hz nofun
  have hreach := Reach.run (x := (binit someDisk, someDisk)) .init (by decide +kernel) (hok hx)
  have hreach' := hreach.run (by decide) (hok hy)
  refine ⟨x, y, s, hreach, fun i hi => ?_, hreach', hok hs, hid, ?_⟩
  · exact of_decide_eq_true (List.all_eq_true.1 hall i (List.mem_range.2 hi))
  · rw [((bcache_coherent someDisk y.1 y.2 hreach').2.2.2.2 0 s (hok hs)).2, hid]
    exact hbyte

end Xv6.Bio
