/-
The contents of files: what bmap, readi and writei do to the bytes of a file.

A byte of a file is found through the block slots of its inode. bmap only adds blocks: those that the file has stay where
they are and keep their data. The loop of writei puts the bytes it is given at their offset and leaves the rest of the file.

Results:
- `bmap_keeps`: bmap adds at most its block to the file;
- `writeLoop_content`: the bytes of the file after the loop of writei;
- `readLoop_content`: the bytes that the loop of readi delivers;
- `writeLoop_runs`: within the largest file, the loop ends unless the disk is full.
-/
import Xv6.Fs.Blocks

namespace Xv6.Blocks

open Lib List

variable {sb : Superblock} {B B' B'' : Store} {n n' n'' : Dinode} {T : ℕ → Dinode} {e : ℕ → ℕ} {i k : ℕ}

/-- byte o of the file -/
def byteAt (B : Store) (n : Dinode) (o : ℕ) : Byte := (B (n.slot B (place (o / BSIZE)))).get (o % BSIZE)

/-- the first k blocks of the file stay where they are, with their data -/
def KeepsBlocks (B : Store) (n : Dinode) (B' : Store) (n' : Dinode) (k : ℕ) : Prop :=
  ∀ bn < k, n'.slot B' (place bn) = n.slot B (place bn) ∧ B' (n.slot B (place bn)) = B (n.slot B (place bn))

theorem KeepsBlocks.refl : KeepsBlocks B n B n k := fun _ _ => ⟨rfl, rfl⟩

theorem KeepsBlocks.trans (h : KeepsBlocks B n B' n' k) (h' : KeepsBlocks B' n' B'' n'' k) : KeepsBlocks B n B'' n'' k := by
  intro bn hbn
  obtain ⟨h1, h2⟩ := h bn hbn
  obtain ⟨h3, h4⟩ := h' bn hbn
  rw [h1] at h3 h4
  exact ⟨h3, h4.trans h2⟩

theorem Held.slot_ne (h : Held B n k) {bn : ℕ} (hbn : bn < k) : n.slot B (place bn) ≠ 0 := by
  have hle := h.le
  by_cases hd : bn < NDIRECT
  · rw [place_direct hd]
    exact (h.direct ⟨bn, hd⟩).2 hbn
  · have hi : bn - NDIRECT < NINDIRECT := by
      unfold MAXFILE at hle
      omega
    rw [place_entry hd hi]
    exact (h.entries ⟨bn - NDIRECT, hi⟩).2 (by dsimp only; omega)

theorem Books.keeps_fresh (h : Books sb B T) (hi : (T i).type ≠ .free) {b : ℕ} (hf : Fresh sb B B' b)
    (hne : ∀ bn < k, (T i).slot B (place bn) ≠ 0) : KeepsBlocks B (T i) B' (T i) k := by
  intro bn hbn
  have hrange := h.range (i, place bn)
  have hval := h.val_ne hf.lt hf.free (i, place bn)
  rw [refs_of_alloc hi] at hrange hval
  exact ⟨Books.slot_fresh h hf hi _, hf.same _ (hrange (hne bn hbn)).1 hval⟩

theorem bmapIndirect_keeps {d : Dev} (hg : Good sb d.data T e) (hi : (T i).type ≠ .free) :
    Safe (fun r => KeepsBlocks d.data (T i) r.1.data r.2 (e i)) (bmapIndirect sb d (T i)) := by
  have hne := fun bn (hbn : bn < e i) => (hg.held i hi).slot_ne hbn
  unfold bmapIndirect
  split_ifs with h0
  · refine (balloc_spec hg.books).bind ?_
    rintro ⟨d', b⟩ hf
    refine Ends.pure fun bn hbn => ⟨?_, (Books.keeps_fresh hg.books hi hf hne bn hbn).2⟩
    dsimp only
    rw [slot_setIndirect (B := d.data) h0 hf.zero, update_of_ne (place_ne bn)]
  · exact Ends.pure .refl

theorem bmapEntry_keeps {d d' : Dev} {n : Dinode} (hi : (T i).type ≠ .free) (hm : Mid sb T e i d d' n)
    (hne : ∀ bn < e i, n.slot d'.data (place bn) ≠ 0) {j : ℕ} (hj : j < NINDIRECT) :
    Safe (fun r => KeepsBlocks d'.data n r.1.data r.2.1 (e i)) (bmapEntry sb d' n j) := by
  have hn : n.type ≠ .free := by
    rw [hm.copy]
    exact hi
  have hTi : update T i n i = n := update_self ..
  have hTi' : (update T i n i).type ≠ .free := by
    rw [hTi]
    exact hn
  unfold bmapEntry
  dsimp only
  split_ifs with h0
  · refine (balloc_spec hm.books).bind ?_
    rintro ⟨d2, b⟩ hf
    have hfresh := Books.keeps_fresh hm.books hTi' hf (k := e i) (by rw [hTi]; exact hne)
    rw [hTi] at hfresh
    refine Ends.pure (hfresh.trans fun bn hbn => ?_)
    have hslot := (hfresh bn hbn).1
    have hentry : n.slot d2.data (.entry ⟨j, hj⟩) = 0 := by
      have := Books.slot_fresh hm.books hf hTi' (.entry ⟨j, hj⟩)
      rw [hTi] at this
      rw [this]
      show n.entry d'.data ⟨j, hj⟩ = 0
      unfold Dinode.entry
      rw [if_neg hm.last, h0]
      rfl
    constructor
    · have := slot_setEntry (B := d2.data) hm.last ⟨j, hj⟩ (hf.lt.trans sb.size_lt) (place bn)
      refine this.trans (update_of_ne (fun heq => ?_) _ _)
      rw [heq, hentry] at hslot
      exact hne bn hbn (heq ▸ hslot.symm)
    · refine update_of_ne (fun heq => ?_) _ _
      have hone := hm.books.once (i, place bn) (i, .addr indirect)
      rw [refs_of_alloc hTi', refs_of_alloc hTi', hTi] at hone
      exact place_ne bn (congrArg Prod.snd (hone (hne bn hbn) (hslot.symm.trans heq)))
  · exact Ends.pure .refl

/-- **bmap** leaves the blocks that the file has. -/
theorem bmap_keeps {d : Dev} (hg : Good sb d.data T e) (hi : (T i).type ≠ .free) {bn : ℕ} (hlt : bn < MAXFILE)
    (hle : bn ≤ e i) : Safe (fun r => KeepsBlocks d.data (T i) r.1.data r.2.1 (e i)) (bmap sb d (T i) bn) := by
  have hne := fun b (hb : b < e i) => (hg.held i hi).slot_ne hb
  unfold bmap
  by_cases h : bn < NDIRECT
  · rw [dif_pos h]
    dsimp only
    split_ifs with h0
    · refine (balloc_spec hg.books).bind ?_
      rintro ⟨d', b⟩ hf
      have hk : (⟨bn, by omega⟩ : Fin (NDIRECT + 1)) ≠ indirect := fun heq => by
        have := congrArg Fin.val heq
        simp only [Fin.val_last] at this
        omega
      have hfresh := Books.keeps_fresh hg.books hi hf hne
      refine Ends.pure (hfresh.trans fun b' hb' => ⟨?_, rfl⟩)
      dsimp only
      rw [slot_setAddr hk, update_of_ne]
      intro heq
      have hslot := (hfresh b' hb').1
      rw [heq] at hslot
      exact hne b' hb' (heq ▸ hslot.symm.trans h0)
    · exact Ends.pure .refl
  · have hj : bn - NDIRECT < NINDIRECT := by
      unfold MAXFILE at hlt
      omega
    rw [dif_neg h, if_pos hj]
    refine (Ends.and (bmapIndirect_spec hg hi (by omega)) (bmapIndirect_keeps hg hi)).bind ?_
    rintro ⟨d', m⟩ ⟨hm, hkeep⟩
    refine (bmapEntry_keeps hi hm (fun b hb => ?_) hj).mono fun r hr => hkeep.trans hr
    rw [(hkeep b hb).1]
    exact hne b hb

/-! ## Bytes written -/

theorem get_blit (v : Block) (o m : ℕ) (src : List Byte) {j : ℕ} (hj : j < BSIZE) :
    (blit v o m src).get j = if o ≤ j ∧ j < o + m then src.getD (j - o) 0 else v.get j := by
  unfold Bytes.get
  rw [dif_pos hj, dif_pos hj]
  rfl

theorem Good.byteAt_blit (h : Good sb B T e) (hi : (T i).type ≠ .free) {off m b : ℕ} (src : List Byte)
    (hb : (T i).slot B (place (off / BSIZE)) = b) (hoff : off / BSIZE < e i) (hm : off % BSIZE + m ≤ BSIZE) {o : ℕ}
    (ho : o / BSIZE < e i) :
    byteAt (update B b (blit (B b) (off % BSIZE) m src)) (T i) o =
      if off ≤ o ∧ o < off + m then src.getD (o - off) 0 else byteAt B (T i) o := by
  have hheld := h.held i hi
  have hb0 : b ≠ 0 := hb ▸ hheld.slot_ne hoff
  have hle := hheld.le
  unfold byteAt
  rw [h.slot_write hi hb hb0 _ hi]
  by_cases heq : o / BSIZE = off / BSIZE
  · rw [heq, hb, update_self, get_blit _ _ _ _ (Nat.mod_lt _ (by decide))]
    have hiff : off % BSIZE ≤ o % BSIZE ∧ o % BSIZE < off % BSIZE + m ↔ off ≤ o ∧ o < off + m := by
      rw [bsize_eq] at heq ⊢
      omega
    simp only [hiff]
    rw [show o % BSIZE - off % BSIZE = o - off by rw [bsize_eq] at heq ⊢; omega]
  · rw [update_of_ne, if_neg]
    · rintro ⟨h1, h2⟩
      rw [bsize_eq] at heq hm
      omega
    · intro hval
      have hone := h.books.once (i, place (o / BSIZE)) (i, place (off / BSIZE))
      rw [refs_of_alloc hi, refs_of_alloc hi, hb] at hone
      have hpl := congrArg Prod.snd (hone (hheld.slot_ne ho) hval)
      exact heq (place_inj (by omega) (by omega) hpl)

theorem KeepsBlocks.byteAt_eq (h : KeepsBlocks B n B' n' k) {o : ℕ} (ho : o / BSIZE < k) : byteAt B' n' o = byteAt B n o := by
  unfold byteAt
  rw [(h _ ho).1, (h _ ho).2]

/-- **The loop of writei** puts src at off, and leaves the other bytes of the file. -/
theorem writeLoop_content (len : ℕ) : ∀ (src : List Byte) (d : Dev) (T : ℕ → Dinode) (e : ℕ → ℕ) (off : ℕ),
    src.length = len → Good sb d.data T e → (T i).type ≠ .free → off ≤ e i * BSIZE → off + len ≤ MAXFILE * BSIZE →
    Safe (fun r => ∀ o < max (e i * BSIZE) (off + len), byteAt r.1.data r.2 o =
      if off ≤ o ∧ o < off + len then src.getD (o - off) 0 else byteAt d.data (T i) o) (writeLoop sb d (T i) off src) := by
  induction len using Nat.strong_induction_on with
  | _ len ih =>
    intro src d T e off hlen hg hi hoff hmax
    unfold writeLoop
    split_ifs with h0
    · refine Ends.pure fun o _ => (if_neg fun ⟨h1, h2⟩ => ?_).symm
      rw [h0, length_nil] at hlen
      omega
    · have hpos := length_pos_of_ne_nil h0
      have hbn : off / BSIZE < MAXFILE := by
        rw [bsize_eq] at hmax ⊢
        omega
      have hle : off / BSIZE ≤ e i := by
        rw [bsize_eq] at hoff ⊢
        omega
      refine (Ends.and (bmap_spec hg hi hbn hle) (bmap_keeps hg hi hbn hle)).bind ?_
      rintro ⟨d1, n1, b⟩ ⟨⟨⟨hg1, hcopy⟩, hslot, hb0, -⟩, hkeep⟩
      dsimp only at hcopy hslot hb0 hg1 hkeep ⊢
      generalize hm : min src.length (BSIZE - off % BSIZE) = m
      have hself : update T i n1 i = n1 := update_self ..
      have hn1 : (update T i n1 i).type ≠ .free := by
        rw [hself, hcopy]
        exact hi
      have hslot1 : (update T i n1 i).slot d1.data (place (off / BSIZE)) = b := by
        rw [hself]
        exact hslot
      have hblit := fun {o} => hg1.byteAt_blit hn1 (m := m) (o := o) src hslot1 (by rw [update_self]; omega)
        (by rw [bsize_eq] at hm ⊢; omega)
      have hrec := ih (len - m) (by rw [bsize_eq] at hm; omega) (src.drop m) (d1.write b (blit (d1.data b) (off % BSIZE) m src))
        (update T i n1) (update e i (max (e i) (off / BSIZE + 1))) (off + m)
        (by rw [length_drop]; omega) (hg1.write_data hn1 hslot1 hb0 _) hn1
        (by rw [update_self]; rw [bsize_eq] at hm ⊢; omega) (by omega)
      rw [update_self] at hrec hblit
      rw [hself] at hrec hblit
      refine hrec.mono fun r hr o ho => ?_
      have hmlen : m ≤ len := by omega
      have hend : off + m + (len - m) = off + len := by omega
      rw [hend] at hr
      have hlt : o < max (max (e i) (off / BSIZE + 1) * BSIZE) (off + len) := by
        have := Nat.mul_le_mul_right BSIZE (le_max_left (e i) (off / BSIZE + 1))
        omega
      rw [hr o hlt]
      by_cases hlast : off + m ≤ o ∧ o < off + len
      · rw [if_pos hlast, if_pos ⟨by omega, hlast.2⟩, getD_eq_getElem?_getD, getElem?_drop,
          getD_eq_getElem?_getD, show m + (o - (off + m)) = o - off by omega]
      · rw [if_neg hlast]
        refine (hblit (by rw [bsize_eq] at hm ho ⊢; omega)).trans ?_
        by_cases hin : off ≤ o ∧ o < off + m
        · rw [if_pos hin, if_pos ⟨hin.1, by omega⟩]
        · rw [if_neg hin, if_neg (by omega)]
          exact hkeep.byteAt_eq (by rw [bsize_eq] at hoff ho ⊢; omega)

/-! ## Bytes read -/

theorem bmap_old {d : Dev} (hg : Good sb d.data T e) (hi : (T i).type ≠ .free) {bn : ℕ} (hlt : bn < e i) :
    bmap sb d (T i) bn = .ok (d, T i, (T i).slot d.data (place bn)) := by
  have hne := (hg.held i hi).slot_ne hlt
  unfold bmap
  by_cases hd : bn < NDIRECT
  · rw [place_direct hd] at hne ⊢
    rw [dif_pos hd]
    exact if_neg hne
  · have hj : bn - NDIRECT < NINDIRECT := by
      have hle := (hg.held i hi).le
      unfold MAXFILE at hle
      omega
    rw [place_entry hd hj] at hne ⊢
    have hentry : (T i).slot d.data (.entry ⟨bn - NDIRECT, hj⟩) = (T i).entry d.data ⟨bn - NDIRECT, hj⟩ := rfl
    have hind : (T i).addrs indirect ≠ 0 := (hg.held i hi).last.2 (by omega)
    have hfirst : bmapIndirect sb d (T i) = .ok (d, T i) := if_neg hind
    rw [hentry] at hne ⊢
    unfold Dinode.entry at hne ⊢
    rw [if_neg hind] at hne ⊢
    rw [dif_neg hd, if_pos hj, hfirst]
    refine if_neg fun h0 => hne ?_
    rw [h0]
    rfl

/-- **The loop of readi** delivers the bytes of the file and leaves everything alone. -/
theorem readLoop_content {d : Dev} (hg : Good sb d.data T e) (hi : (T i).type ≠ .free) (cnt : ℕ) : ∀ off,
    off + cnt ≤ e i * BSIZE →
    readLoop sb d (T i) off cnt = .ok (d, T i, (List.range cnt).map fun k => byteAt d.data (T i) (off + k)) := by
  induction cnt using Nat.strong_induction_on with
  | _ cnt ih =>
    intro off hend
    rw [readLoop]
    split_ifs with h0
    · rw [h0]
      rfl
    · have hlt : off / BSIZE < e i := by
        rw [bsize_eq] at hend ⊢
        omega
      rw [bmap_old hg hi hlt]
      generalize hm : min cnt (BSIZE - off % BSIZE) = m
      rw [bsize_eq] at hm
      have hrec := ih (cnt - m) (by omega) (off + m) (by omega)
      show (readLoop sb d (T i) (off + m) (cnt - m) >>= _) = _
      rw [hrec]
      show Except.ok _ = Except.ok _
      have hcut : cnt = m + (cnt - m) := by omega
      rw [hcut, range_add, map_append, map_map, Nat.add_sub_cancel_left]
      congr 4
      · -- the bytes of this round lie in one block
        refine map_congr_left fun k hk => ?_
        have hk := mem_range.1 hk
        unfold byteAt
        rw [show (off + k) / BSIZE = off / BSIZE by rw [bsize_eq]; omega,
          show (off + k) % BSIZE = off % BSIZE + k by rw [bsize_eq]; omega]
      · refine map_congr_left fun k _ => ?_
        simp only [Function.comp_apply]
        rw [add_assoc]

/-! ## What can stop a write -/

/-- the panics of balloc and bmap -/
def FullOrRange (p : Panic) : Prop := p = .ballocOutOfBlocks ∨ p = .bmapOutOfRange

theorem balloc_stops (d : Dev) : Ends FullOrRange (fun _ => True) (balloc sb d) := by
  unfold balloc
  cases ballocFind sb d.data with
  | none => exact .inl rfl
  | some b => trivial

theorem bmap_stops (d : Dev) (n : Dinode) (bn : ℕ) : Ends FullOrRange (fun _ => True) (bmap sb d n bn) := by
  unfold bmap
  by_cases hd : bn < NDIRECT
  · rw [dif_pos hd]
    dsimp only
    split_ifs
    · exact (balloc_stops d).bind fun _ _ => trivial
    · trivial
  rw [dif_neg hd]
  split_ifs
  · have hfirst : Ends FullOrRange (fun _ => True) (bmapIndirect sb d n) := by
      unfold bmapIndirect
      split_ifs
      · exact (balloc_stops d).bind fun _ _ => trivial
      · trivial
    refine hfirst.bind fun r _ => ?_
    dsimp only
    unfold bmapEntry
    dsimp only
    split_ifs
    · exact (balloc_stops r.1).bind fun _ _ => trivial
    · trivial
  · exact .inr rfl

theorem writeLoop_stops (len : ℕ) : ∀ (src : List Byte) (d : Dev) (n : Dinode) (off : ℕ), src.length = len →
    Ends FullOrRange (fun _ => True) (writeLoop sb d n off src) := by
  induction len using Nat.strong_induction_on with
  | _ len ih =>
    intro src d n off hlen
    unfold writeLoop
    split_ifs with h0
    · trivial
    · have hpos := length_pos_of_ne_nil h0
      refine (bmap_stops d n _).bind fun r _ => ?_
      refine ih _ ?_ _ _ _ _ rfl
      rw [length_drop, bsize_eq]
      omega

/-- **Writing a file.** Within the largest file, the loop of writei keeps the books and puts src at off, or the disk is full. -/
theorem writeLoop_runs {src : List Byte} {d : Dev} {off : ℕ} (hg : Good sb d.data T e) (hi : (T i).type ≠ .free)
    (hoff : off ≤ e i * BSIZE) (hmax : off + src.length ≤ MAXFILE * BSIZE) :
    Ends (fun p => p = .ballocOutOfBlocks) (fun r => (r.2.type = (T i).type ∧ r.2.size = (T i).size) ∧
      (nblk (off + src.length) ≤ e i → r.2 = T i) ∧
      ∀ o < max (e i * BSIZE) (off + src.length), byteAt r.1.data r.2 o =
        if off ≤ o ∧ o < off + src.length then src.getD (o - off) 0 else byteAt d.data (T i) o) (writeLoop sb d (T i) off src) := by
  have hspec := writeLoop_spec src.length src d T e off rfl hg hi hoff hmax
  have hcontent := writeLoop_content src.length src d T e off rfl hg hi hoff hmax
  have hstops : Ends FullOrRange (fun _ => True) (writeLoop sb d (T i) off src) :=
    writeLoop_stops src.length src d (T i) off rfl
  cases hx : writeLoop sb d (T i) off src with
  | ok r =>
    rw [hx] at hspec hcontent
    obtain ⟨⟨-, hcopy⟩, hsame⟩ := hspec
    refine ⟨⟨?_, ?_⟩, hsame, hcontent⟩ <;> rw [hcopy]
  | error p =>
    rw [hx] at hspec hstops
    rcases hstops with hp | rfl
    · exact hp
    · exact absurd rfl hspec.2.1

end Xv6.Blocks
