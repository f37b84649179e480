/-
filewrite (file.c) piece by piece: how much of the log a piece needs, and what a write that fails has written.

filewrite cuts a buffer into pieces of at most `maxWrite` bytes and writes each in a transaction of its own. The size limit of a
file is tested by writei, so that a long write can fail after some of its pieces. pipewrite tests inside its loop as well.

Results:
- `piece_fits_reservation`: the blocks that a piece hands to log_write are at most MAXOPBLOCKS different ones;
- `rounds_spec`: filewrite writes its first pieces, up to one that goes beyond the largest file;
- `failed_write_stores_nothing`: a write to a file is all or nothing exactly if all of it fits in the largest file, or not even
  its first piece; a write to a pipe is if the pipe has room for it;
- `failed_write_fills_pipe` (in `Ipc.Pipe`): otherwise it can have stored a full pipe.
-/
import Xv6.Files.Writers
import Xv6.Fs.Mkfs
import Xv6.Ipc.Pipe

namespace Xv6.Files

open Lib Blocks StateProg List

variable {sb : Superblock} {s s' : Kern} {f k i off : ℕ} {src : List Byte}

/-! ## The log -/

/-- the block of inode i -/
def IBLOCK (inodestart i : ℕ) : ℕ := i / Mkfs.IPB + inodestart

/-- the blocks that writei hands to log_write -/
def writeiWrites (sb : Superblock) (inodestart k off : ℕ) (src : List Byte) (s : Kern) : List ℕ :=
  let x := s.icache k
  if x.n.type = .dev then []
  else if off > x.n.size ∨ (off + src.length) % 2 ^ 32 < off then []
  else if (off + src.length) % 2 ^ 32 > MAXFILE * BSIZE then []
  else writeLoopWrites sb s.disk x.n off src ++
    if 0 < src.length ∧ off + src.length > x.n.size then [IBLOCK inodestart x.inum] else []

/-- the blocks that a piece hands to log_write, between its begin_op and its end_op -/
def pieceWrites (sb : Superblock) (inodestart f : ℕ) (src : List Byte) (s : Kern) : List ℕ :=
  writeiWrites sb inodestart (s.file f).ip (s.file f).off src (lockedFor f s)

/-- **writei** logs its list and changes no other block. -/
theorem writei_logged (inodestart : ℕ) (h : Loaded sb k i s) (hoff : off < 2 ^ 32) (hlen : src.length < 2 ^ 32) {r : Option ℕ}
    (hrun : writei sb k off src s = .ok (r, s')) : Logged s.disk (writeiWrites sb inodestart k off src s) s'.disk := by
  have hmf : MAXFILE * BSIZE = 71680 := rfl
  have hsize := h.size_le
  by_cases hbad : Refused (s.dinode i).size off src.length
  · rw [writei_fails h hoff hlen hbad] at hrun
    cases hrun
    have hnil : writeiWrites sb inodestart k off src s = [] := by
      unfold writeiWrites
      dsimp only
      rw [h.copy, if_neg h.file]
      unfold Refused at hbad
      by_cases h1 : off > (s.dinode i).size ∨ (off + src.length) % 2 ^ 32 < off
      · rw [if_pos h1]
      · rw [if_neg h1, if_pos (by omega)]
    rw [hnil]
    exact .nil
  · unfold Refused at hbad
    have hok : writeiWrites sb inodestart k off src s = writeLoopWrites sb s.disk (s.dinode i) off src ++
        if (s.dinode i).size < off + src.length then [IBLOCK inodestart i] else [] := by
      unfold writeiWrites
      dsimp only
      rw [h.copy, if_neg h.file, if_neg (by omega), if_neg (by omega), h.inum]
      congr 1
      exact if_congr ⟨fun h => h.2, fun h => ⟨by omega, h⟩⟩ rfl rfl
    cases hloop : writeLoop sb s.disk (s.dinode i) off src with
    | error p =>
      rw [writei_error h (by omega) (by omega) hloop] at hrun
      cases hrun
    | ok x =>
      obtain ⟨d, n⟩ := x
      obtain ⟨t, heq, ht⟩ := writei_eq h (by omega) (by omega) hloop
      rw [heq] at hrun
      cases hrun
      have hw := writeLoop_logged hloop
      rw [hok]
      refine ⟨?_, fun x hx => hw.2 x fun hmem => hx (mem_append_left _ hmem)⟩
      dsimp only
      rw [ht, hw.1, ← append_assoc, length_append, Nat.add_comm (writeLoopWrites _ _ _ _ _).length,
        replicate_add]
      congr 2
      split_ifs <;> rfl

/-- a list all of whose members are in a short list has few different members -/
theorem card_toFinset_le {l m : List ℕ} (h : ∀ x ∈ l, x ∈ m) : l.toFinset.card ≤ m.length :=
  (Finset.card_le_card fun x hx => mem_toFinset.2 (h x (mem_toFinset.1 hx))).trans (toFinset_card_le m)

theorem writei_few (inodestart : ℕ) (h : Loaded sb k i s) (hoff : off ≤ (s.dinode i).size) (hlen : src.length ≤ maxWrite)
    {r : Option ℕ} (hrun : writei sb k off src s = .ok (r, s')) :
    (writeiWrites sb inodestart k off src s).toFinset.card ≤ MAXOPBLOCKS := by
  have hmf : MAXFILE * BSIZE = 71680 := rfl
  have hmw : maxWrite = 1536 := rfl
  have hmo : MAXOPBLOCKS = 10 := rfl
  have hsize := h.size_le
  unfold writeiWrites
  dsimp only
  rw [h.copy, if_neg h.file, if_neg (by omega)]
  by_cases hmax : (off + src.length) % 2 ^ 32 > MAXFILE * BSIZE
  · rw [if_pos hmax]
    exact Nat.zero_le _
  rw [if_neg hmax, h.inum]
  cases hloop : writeLoop sb s.disk (s.dinode i) off src with
  | error p =>
    rw [writei_error h hoff (by omega) hloop] at hrun
    cases hrun
  | ok x =>
    obtain ⟨D, M, y, hD, hM, -, hmem⟩ := writeLoop_few h.good h.alloc (hoff.trans (le_nblk _)) (by omega) hloop
    have hDlen : D.length ≤ 4 := by
      refine hD.trans ?_
      split_ifs
      · omega
      · unfold nblk
        rw [bsize_eq]
        omega
    have hMlen : M.length ≤ 4 := by
      refine hM.trans ?_
      have hone : (if sizes s.dinode i ≤ NDIRECT then 1 else 0) ≤ 1 := by split_ifs <;> omega
      have hnew : nblk (off + src.length) - sizes s.dinode i ≤ 3 := by
        unfold sizes nblk
        rw [bsize_eq]
        omega
      omega
    calc _ ≤ (D ++ M ++ [y, IBLOCK inodestart i]).length := by
          refine card_toFinset_le fun x hx => ?_
          rw [mem_append] at hx
          rcases hx with hx | hx
          · rcases hmem x hx with hx | hx | rfl
            · simp [hx]
            · simp [hx]
            · simp
          · split_ifs at hx
            · simp_all
            · cases hx
      _ ≤ MAXOPBLOCKS := by
          simp only [length_append, length_cons, length_nil]
          omega

/-- **A piece fits its reservation.** For every file that is open for writing, every offset in it and every piece that filewrite
chooses, if the disk does not run full: between begin_op and end_op there are as many log_writes as `pieceWrites` lists, no other
block is changed, and the list has at most MAXOPBLOCKS different blocks: data, cleared blocks, bitmap, indirect block, inode. -/
theorem piece_fits_reservation (inodestart : ℕ) (h : Opened sb f s) (hlen : src.length ≤ maxWrite) {ok : Bool}
    (hrun : writeRounds sb f (s.file f).ip [src] s = .ok (ok, s')) :
    s'.disk.trace = .endOp :: (List.replicate (pieceWrites sb inodestart f src s).length .logWrite ++ .beginOp :: s.disk.trace) ∧
    (∀ x ∉ pieceWrites sb inodestart f src s, s'.disk.data x = s.disk.data x) ∧
    (pieceWrites sb inodestart f src s).toFinset.card ≤ MAXOPBLOCKS := by
  have hmw : maxWrite = 1536 := rfl
  have hmf : MAXFILE * BSIZE = 71680 := rfl
  have hsize := h.loaded.size_le
  have hoff : (s.file f).off ≤ ((lockedFor f s).dinode (fileInum f s)).size := h.off_le
  rw [round_eq h] at hrun
  obtain ⟨r, s3, hw, hend⟩ := of_bind_ok hrun
  obtain ⟨htrace, hdata⟩ := writei_logged inodestart h.loaded (by omega) (by omega) hw
  have hdisk := endPiece_disk hend
  rw [hdisk]
  refine ⟨?_, hdata, writei_few inodestart h.loaded hoff hlen hw⟩
  dsimp only
  rw [htrace]
  rfl

theorem opened_example : ∃ s, Opened mkfsSuper 0 s ∧ (s.file 0).off = 0 ∧
    seen (fun r s => (r, (s.file 0).off)) ((do
      let ok ← writeRounds mkfsSuper 0 (s.file 0).ip [[7, 8]]
      return if ok then 1 else 0) s) = some (1, 2) := by
  obtain ⟨r, s, hopen, hseen⟩ := of_seen (f := fun _ s => (((s.file 0).ref, (s.file 0).type, (s.file 0).writable),
      ((s.dinode (fileInum 0 s)).type, (s.file 0).off), seen (fun r s => (r, (s.file 0).off)) ((do
        let ok ← writeRounds mkfsSuper 0 (s.file 0).ip [[7, 8]]
        return if ok then 1 else 0) s)))
    (show seen _ ((Call.open (some [0x61]) 0x202).code mkfsSuper 0 (boot freshData freshInodes)) =
      some ((1, .inode, true), (.file, 0), some (1, 2)) by decide +kernel)
  simp only [Prod.mk.injEq] at hseen
  obtain ⟨⟨href, htype, hwritable⟩, ⟨hfile, hoff⟩, hwrite⟩ := hseen
  have hreach : Reach mkfsSuper (fun s => s = boot freshData freshInodes) s := .call _ (.start rfl) rfl hopen
  exact ⟨s, ⟨reach_settled (fun _ => fresh_good) hreach, by omega, htype, hwritable, hfile, by omega⟩, hoff, hwrite⟩

theorem piece_fits_reservation_example : ∃ s s', writeRounds mkfsSuper 0 (s.file 0).ip [[7, 8]] s = .ok (true, s') ∧
    (pieceWrites mkfsSuper 32 0 [7, 8] s).toFinset.card ≤ MAXOPBLOCKS := by
  obtain ⟨s, hopen, -, hseen⟩ := opened_example
  obtain ⟨r, s1, hrun, hr⟩ := of_seen hseen
  obtain ⟨ok, s', hx, hrun⟩ := of_bind_ok hrun
  cases hrun
  cases ok with
  | false => exact absurd (Prod.mk.inj hr).1 (by decide)
  | true => exact ⟨s, s1, hx, (piece_fits_reservation 32 hopen (by decide) hx).2.2⟩

/-! ## Writes that fail -/

theorem overwrite_nil (c : List Byte) (off : ℕ) : overwrite c off [] = c := by
  unfold overwrite
  rw [append_nil, length_nil, add_zero, take_append_drop]

theorem overwrite_append {c : List Byte} (hoff : off ≤ c.length) (a b : List Byte) :
    overwrite (overwrite c off a) (off + a.length) b = overwrite c off (a ++ b) := by
  have hlen : (c.take off ++ a).length = off + a.length := by
    rw [length_append, length_take, min_eq_left hoff]
  have htake : (c.take off ++ a ++ c.drop (off + a.length)).take (off + a.length) = c.take off ++ a := take_left' hlen
  have hdrop : (c.take off ++ a ++ c.drop (off + a.length)).drop (off + a.length + b.length) =
      c.drop (off + (a ++ b).length) := by
    rw [← drop_drop, drop_left' hlen, drop_drop, length_append, add_assoc]
  unfold overwrite
  rw [htake, hdrop, append_assoc (c.take off) a b]

/-- a piece that goes beyond the largest file is refused, and nothing changes -/
theorem round_fails (h : Opened sb f s) (hlen : src.length < 2 ^ 32) (hbig : MAXFILE * BSIZE < (s.file f).off + src.length) :
    ∃ s', writeRounds sb f (s.file f).ip [src] s = .ok (false, s') ∧ s'.file = s.file ∧ fileInum f s' = fileInum f s ∧
      s'.dinode = s.dinode ∧ s'.disk.data = s.disk.data := by
  have hmf : MAXFILE * BSIZE = 71680 := rfl
  have hsize := h.loaded.size_le
  have hoff : (s.file f).off ≤ ((lockedFor f s).dinode (fileInum f s)).size := h.off_le
  have hoff' : (s.file f).off < 2 ^ 32 := by omega
  have hw := writei_fails h.loaded hoff' hlen (.inr (.inr hbig))
  have hentry := lockedFor_entry f s
  rw [round_eq h, run_bind hw, endPiece_run (by rw [hentry]; exact h.entry_ref) (by rw [hentry]) (.inl rfl)]
  have hfile : update s.file f { s.file f with off := (s.file f).off + 0 } = s.file := by
    rw [add_zero, update_eq_self]
  refine ⟨_, rfl, hfile, ?_, rfl, rfl⟩
  have hip : (update (lockedFor f s).file f
      { (lockedFor f s).file f with off := ((lockedFor f s).file f).off + (none : Option ℕ).getD 0 } f).ip = (s.file f).ip := by
    rw [update_self]
    rfl
  unfold fileInum
  dsimp only
  rw [hip, update_self, hentry]

theorem content_of_eq {j : ℕ} (hd : s'.dinode = s.dinode) (hb : s'.disk.data = s.disk.data) : content s' j = content s j := by
  unfold content
  rw [hd, hb]

/-- what filewrite has done when it has written the pieces in l -/
structure Put (sb : Superblock) (f : ℕ) (l : List (List Byte)) (s s' : Kern) : Prop where
  opened : Opened sb f s'
  ip : (s'.file f).ip = (s.file f).ip
  inum : fileInum f s' = fileInum f s
  off : (s'.file f).off = (s.file f).off + l.flatten.length
  bytes : content s' (fileInum f s) = overwrite (content s (fileInum f s)) (s.file f).off l.flatten

theorem Put.nil (h : Opened sb f s) : Put sb f [] s s := ⟨h, rfl, rfl, rfl, (overwrite_nil _ _).symm⟩

theorem Put.cons {s1 : Kern} {rest : List (List Byte)} (hoff : (s.file f).off ≤ (content s (fileInum f s)).length)
    (h : Put sb f [src] s s1) (h' : Put sb f rest s1 s') : Put sb f (src :: rest) s s' := by
  obtain ⟨-, hip, hinum, hoff1, hcontent⟩ := h
  obtain ⟨hopen, hip', hinum', hoff', hcontent'⟩ := h'
  rw [flatten_singleton] at hoff1 hcontent
  refine ⟨hopen, hip'.trans hip, hinum'.trans hinum, ?_, ?_⟩
  · rw [hoff', hoff1, flatten_cons, length_append, add_assoc]
  · rw [hinum, hcontent, hoff1] at hcontent'
    rw [hcontent', overwrite_append hoff, flatten_cons]

/-- **The rounds of filewrite** write the first pieces: all of them, or those before one that goes beyond the largest file. -/
theorem rounds_spec (l : List (List Byte)) : ∀ {s : Kern}, Opened sb f s → (∀ x ∈ l, x.length < 2 ^ 32) →
    Ends (fun p => p = .ballocOutOfBlocks) (fun r => ∃ l₁ l₂, l = l₁ ++ l₂ ∧ Put sb f l₁ s r.2 ∧ (r.1 = true → l₂ = []) ∧
      (r.1 = false → ∃ x ∈ l₂.head?, MAXFILE * BSIZE < (r.2.file f).off + x.length)) (writeRounds sb f (s.file f).ip l s) := by
  induction l with
  | nil => exact fun h _ => ⟨[], [], rfl, .nil h, fun _ => rfl, nofun⟩
  | cons src rest ih =>
    intro s h hl
    have hlen := hl src mem_cons_self
    rw [writeRounds_cons]
    by_cases hmax : (s.file f).off + src.length ≤ MAXFILE * BSIZE
    · refine Ends.bind ((round_spec h hmax).and (round_run h hmax)) ?_
      rintro ⟨ok, s1⟩ ⟨⟨rfl, hopen, ⟨hip, hinum⟩, hoff, -⟩, -, hstored⟩
      dsimp only at hopen hip hinum hoff hstored ⊢
      have hput : Put sb f [src] s s1 := ⟨hopen, hip, hinum, by rw [hoff, flatten_singleton],
        by rw [flatten_singleton]; exact hstored.content⟩
      rw [if_pos rfl, ← hip]
      refine (ih hopen fun x hx => hl x (mem_cons_of_mem _ hx)).mono ?_
      rintro ⟨ok, s2⟩ ⟨l₁, l₂, rfl, hput', htrue, hfalse⟩
      exact ⟨src :: l₁, l₂, rfl, hput.cons (by rw [length_content]; exact h.off_le) hput', htrue, hfalse⟩
    · obtain ⟨s1, hrun, hfile, hinum, hd, hb⟩ := round_fails h hlen (by omega)
      rw [run_bind hrun, if_neg (by decide)]
      have hset := tr_writeRounds h.lt (s.file f).ip [src] (by simpa using hlen) s h.settled
      rw [hrun] at hset
      refine ⟨[], src :: rest, rfl, ⟨?_, by rw [hfile], hinum, by rw [hfile]; rfl, ?_⟩, nofun, fun _ => ⟨src, rfl, ?_⟩⟩
      · refine ⟨Holds.settled hset, ?_, ?_, ?_, ?_, ?_⟩
        · rw [hfile]
          exact h.ref
        · rw [hfile]
          exact h.type
        · rw [hfile]
          exact h.writable
        · rw [hinum, hd]
          exact h.file
        · rw [hfile, hinum, hd]
          exact h.off_le
      · rw [content_of_eq hd hb]
        exact (overwrite_nil _ _).symm
      · dsimp only
        rw [hfile]
        omega

theorem filewrite_eq (h : Opened sb f s) : filewrite sb f src s = (do
    let ok ← writeRounds sb f (s.file f).ip (pieces src.length src)
    return if ok then (src.length : ℤ) else -1 : K ℤ) s := by
  unfold filewrite
  rw [run_bind (show (get : K Kern) s = .ok (s, s) from rfl), if_neg (by rw [h.writable]; decide), h.type]

theorem pieces_short (fuel : ℕ) : ∀ src : List Byte, ∀ x ∈ pieces fuel src, x.length ≤ maxWrite := by
  induction fuel with
  | zero => exact fun _ _ hx => by cases hx
  | succ fuel ih =>
    intro src x hx
    unfold pieces at hx
    split_ifs at hx
    · cases hx
    · rcases mem_cons.1 hx with rfl | hx
      · exact length_take_le _ _
      · exact ih _ x hx

theorem pieces_head {y : List Byte} {l : List (List Byte)} (h : pieces src.length src = y :: l) : y = src.take maxWrite := by
  cases src with
  | nil => cases h
  | cons b src =>
    rw [length_cons, pieces, if_neg (cons_ne_nil _ _)] at h
    exact (List.cons.inj h).1.symm

/-- the write fits in the file, or not even its first piece does -/
def AllOrFirst (off len : ℕ) : Prop := off + len ≤ MAXFILE * BSIZE ∨ MAXFILE * BSIZE < off + min len maxWrite

/-- nothing of the file has changed -/
def Unchanged (f : ℕ) (s s' : Kern) : Prop :=
  content s' (fileInum f s) = content s (fileInum f s) ∧ (s'.dinode (fileInum f s)).size = (s.dinode (fileInum f s)).size ∧
    (s'.file f).off = (s.file f).off

theorem Put.unchanged (h : Put sb f [] s s') : Unchanged f s s' := by
  have hc : content s' (fileInum f s) = content s (fileInum f s) := h.bytes.trans (overwrite_nil _ _)
  refine ⟨hc, ?_, h.off⟩
  rw [← length_content, ← length_content, hc]

/-- filewrite has failed and changed nothing, or it has written all bytes at the offset -/
def AllOrNothing (f : ℕ) (src : List Byte) (s : Kern) (r : ℤ × Kern) : Prop :=
  (r.1 = -1 ∧ Unchanged f s r.2) ∨ (r.1 = (src.length : ℤ) ∧
    content r.2 (fileInum f s) = overwrite (content s (fileInum f s)) (s.file f).off src ∧
    (r.2.file f).off = (s.file f).off + src.length)

theorem not_allOrNothing (h : (s'.file f).off ≠ (s.file f).off) : ¬ AllOrNothing f src s (-1, s') := by
  rintro (⟨-, -, -, hoff⟩ | ⟨hr, -⟩)
  · exact h hoff
  · dsimp only at hr
    omega

theorem filewrite_all_or_nothing (h : Opened sb f s) : Ends (fun p => p = .ballocOutOfBlocks)
    (fun r => AllOrNothing f src s r ↔ AllOrFirst (s.file f).off src.length) (filewrite sb f src s) := by
  have hmw : maxWrite = 1536 := rfl
  have hshort : ∀ x ∈ pieces src.length src, x.length < 2 ^ 32 := fun x hx =>
    lt_of_le_of_lt (pieces_short _ _ x hx) (by omega)
  rw [filewrite_eq h]
  refine Ends.bind (rounds_spec (pieces src.length src) h hshort) ?_
  rintro ⟨ok, s'⟩ ⟨l₁, l₂, hl, hput, htrue, hfalse⟩
  have hflat := congrArg List.flatten hl
  rw [pieces_flatten _ _ le_rfl, flatten_append] at hflat
  have hend := hput.opened.off_le.trans hput.opened.loaded.size_le
  have hoff := hput.off
  dsimp only at hend hoff
  cases ok with
  | true =>
    rw [htrue rfl, flatten_nil, append_nil] at hflat
    refine iff_of_true (.inr ⟨rfl, ?_, ?_⟩) (.inl ?_)
    · rw [hflat]
      exact hput.bytes
    · rw [hflat]
      exact hput.off
    · rw [hflat, ← hoff]
      exact hend
  | false =>
    obtain ⟨x, hx, hbig⟩ := hfalse rfl
    obtain ⟨rest, rfl⟩ : ∃ rest, l₂ = x :: rest := by
      cases l₂ with
      | nil => cases hx
      | cons y rest =>
        cases hx
        exact ⟨rest, rfl⟩
    have hlen := congrArg List.length hflat
    rw [length_append, flatten_cons, length_append] at hlen
    dsimp only at hbig
    cases l₁ with
    | nil =>
      -- the first piece goes beyond the largest file
      have hx : x = src.take maxWrite := pieces_head hl
      rw [flatten_nil, length_nil, add_zero] at hoff
      rw [hoff, hx, length_take, min_comm] at hbig
      exact iff_of_true (.inl ⟨rfl, hput.unchanged⟩) (.inr hbig)
    | cons y l =>
      -- the first piece was written, so it lies in the file and has moved the offset
      have hy : y.length = min src.length maxWrite := by
        rw [pieces_head hl, length_take, min_comm]
      have hsrc : 0 < src.length := by
        rw [length_pos_iff]
        rintro rfl
        cases hl
      rw [flatten_cons, length_append] at hoff hlen
      refine iff_of_false (not_allOrNothing (by omega)) ?_
      unfold AllOrFirst
      omega

/-- **When a write is all or nothing.** For a file that is open for writing, a filewrite that returns has failed and left
content, size and offset of the file as they were, or has written exactly its bytes at the offset and moved it behind them, if
and only if the bytes fit in the largest file or not even the first piece does; otherwise the disk is full. For a pipe: in every
run in which each pipewrite finds room for its bytes when it gets p->lock, or has one byte only, or fails at once, a call that is
about to return -1 has stored no byte, and one that is about to return n has stored n. From every state with the locks free and
the pipe not full, a pipewrite of more bytes than there is room for can fail with some of them stored. A file that is not open
for writing is left alone. -/
theorem failed_write_stores_nothing (sb : Superblock) (s : Kern) (f : ℕ) (src : List Byte)
    (q : Monitor.Cfg Ipc.Pipe Ipc.Point Ipc.Chan) : (Opened sb f s → Ends (fun p => p = .ballocOutOfBlocks)
      (fun r => AllOrNothing f src s r ↔ AllOrFirst (s.file f).off src.length) (filewrite sb f src s)) ∧
    (Ipc.Reachable Ipc.Fits q → (∃ sent, Ipc.Writing Ipc.Fits q sent) ∧ ∀ sent, Ipc.Writing Ipc.Fits q sent → ∀ t,
      (q.pos t = .run .writeFail → sent t = []) ∧ ∀ n, q.pos t = .run (.writeDone n) → (sent t).length = n.toNat) ∧
    (Ipc.Reachable (fun _ _ _ => True) q → q.lk = none → q.pt = none → ¬ q.d.Full → ∀ t n addr,
      q.pos t = .run (.write n addr) → Ipc.PIPESIZE - q.d.count < addr.length → ∃ q' sent, Monitor.Recording Ipc.code
        (fun _ _ _ => True) (Eq q) Ipc.Pipe.stored Ipc.writeBegins q' sent ∧ q'.pos t = .run .writeFail ∧ sent t ≠ []) ∧
    ((s.file f).writable = false → filewrite sb f src s = .ok (-1, s)) := by
  refine ⟨filewrite_all_or_nothing, fun h => ⟨Monitor.reach_recording Ipc.stored_grows h, fun sent hsent t => ?_⟩,
    fun h hlk hpt hfull t n addr hp hroom => ?_, fun hw => ?_⟩
  · have ht := Ipc.writes_fit hsent t
    refine ⟨fun hp => ?_, fun n hp => ?_⟩
    · rw [hp] at ht
      exact ht
    · rw [hp] at ht
      exact ht
  · have hst := Ipc.reach_stream h
    obtain ⟨q', sent, hq', hfail, -, -, -, hsent⟩ := Ipc.killed_write_fills (.init rfl) hp hlk hpt hst hroom
    refine ⟨q', sent, hq', hfail, fun hnil => ?_⟩
    rw [hnil, suffix_nil] at hsent
    have hlen := congrArg length hsent
    have hle : q.d.count ≤ Ipc.PIPESIZE := hst.le
    have hne : q.d.count ≠ Ipc.PIPESIZE := fun e => hfull ((Ipc.full_iff hle).2 e)
    rw [length_take, length_nil] at hlen
    omega
  · unfold filewrite
    rw [run_bind (show (get : K Kern) s = .ok (s, s) from rfl), if_pos hw]
    rfl

/-- two bytes, to a file and, by process 0, to an empty pipe -/
theorem failed_write_stores_nothing_example : ∃ s, Ends (fun p => p = .ballocOutOfBlocks) (AllOrNothing 0 [7, 8] s)
    (filewrite mkfsSuper 0 [7, 8] s) ∧ ∃ q sent, Ipc.Writing Ipc.Fits q sent ∧ (sent 0).length = 2 := by
  obtain ⟨s, hopen, hoff, -⟩ := opened_example
  have h1 : Ipc.Reachable Ipc.Fits Ipc.boot := .init Ipc.boot_init
  have h2 := h1.step (.choose (t := 0) (k := .user 0) rfl rfl (.inl ⟨2, [7, 8], rfl, rfl⟩))
  have h3 := h2.step (.acquire (t := 0) (k := .write 2 [7, 8]) rfl rfl rfl)
  have hfits : Ipc.Fits (.store 2 [7, 8] false) false Ipc.boot.d := Or.inl (by decide)
  have hgoes : ∀ rest p, Ipc.Fits (.store 2 rest true) false p := fun _ _ => trivial
  have h4 := h3.step (.act (t := 0) (k := .store 2 [7, 8] false) rfl rfl hfits)
  have h5 := h4.step (.act (t := 0) (k := .store 2 [8] true) rfl rfl (hgoes [8] _))
  have h6 := h5.step (.act (t := 0) (k := .store 2 [] true) rfl rfl (hgoes [] _))
  have h7 := h6.step (.wakeup (t := 0) (k := .wakeLast 2) rfl rfl rfl)
  have h8 := h7.step (.scan (t := 0) rfl)
  have h9 := h8.step (.scanned (t := 0) rfl)
  obtain ⟨hfile, hpipe, -⟩ := failed_write_stores_nothing mkfsSuper s 0 [7, 8] _
  obtain ⟨⟨sent, hsent⟩, hall⟩ := hpipe h9
  refine ⟨s, (hfile hopen).mono fun r hr => hr.2 (.inl ?_), _, sent, hsent, (hall sent hsent 0).2 2 rfl⟩
  rw [hoff]
  decide

end Xv6.Files
