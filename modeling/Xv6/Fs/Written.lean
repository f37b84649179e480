/-
The blocks that writei hands to log_write.

For balloc, bmap and the loop of writei, the list of the blocks that they pass to log_write, in this order. Each function has
logged as many writes as its list is long and has changed no other block. From the lists follow what a write leaves alone, and
how much of the log it needs.

Results:
- `writeLoop_logged`: the loop of writei writes the blocks of its list and no others;
- `writeLoop_apart`: it leaves the blocks of all other inodes as they are;
- `writeLoop_few`: a write that touches t blocks of a file, a of them new, needs at most t data blocks, a + 1 blocks of the
  bitmap and the indirect block.
-/
import Xv6.Fs.Content

namespace Xv6.Blocks

open Lib List

/-! ## Lists of writes -/

section Lists

variable (sb : Superblock)

/-- the mark in the bitmap, and the block that is cleared -/
def ballocWrites (d : Dev) : List ℕ :=
  match ballocFind sb d.data with
  | none => []
  | some b => [BBLOCK sb b, b]

def bmapIndirectWrites (d : Dev) (n : Dinode) : List ℕ := if n.addrs indirect = 0 then ballocWrites sb d else []

def bmapEntryWrites (d : Dev) (n : Dinode) (j : ℕ) : List ℕ :=
  if (d.data (n.addrs indirect)).getWord (4 * j) = 0 then ballocWrites sb d ++ [n.addrs indirect] else []

def bmapWrites (d : Dev) (n : Dinode) (bn : ℕ) : List ℕ :=
  if h : bn < NDIRECT then
    if n.addrs ⟨bn, Nat.lt_add_one_of_lt h⟩ = 0 then ballocWrites sb d else []
  else bmapIndirectWrites sb d n ++
    match bmapIndirect sb d n with
    | .ok (d, n) => bmapEntryWrites sb d n (bn - NDIRECT)
    | .error _ => []

def writeLoopWrites (d : Dev) (n : Dinode) (off : ℕ) (src : List Byte) : List ℕ :=
  if _h : src = [] then []
  else bmapWrites sb d n (off / BSIZE) ++
    match bmap sb d n (off / BSIZE) with
    | .ok (d, n, b) =>
      let m := min src.length (BSIZE - off % BSIZE)
      b :: writeLoopWrites (d.write b (blit (d.data b) (off % BSIZE) m src)) n (off + m) (src.drop m)
    | .error _ => []
termination_by src.length
decreasing_by
  have hpos := length_pos_of_ne_nil _h
  have hmod : off % BSIZE < BSIZE := Nat.mod_lt _ (by decide)
  rw [length_drop]
  omega

end Lists

variable {sb : Superblock} {d d' d'' : Dev} {n n' : Dinode} {l l' : List ℕ} {T : ℕ → Dinode} {e : ℕ → ℕ} {i bn b : ℕ}

/-- from d to d' the blocks in l were handed to log_write, and no other block was changed -/
def Logged (d : Dev) (l : List ℕ) (d' : Dev) : Prop :=
  d'.trace = List.replicate l.length .logWrite ++ d.trace ∧ ∀ x ∉ l, d'.data x = d.data x

theorem Logged.nil : Logged d [] d := ⟨rfl, fun _ _ => rfl⟩

theorem Logged.append (h : Logged d l d') (h' : Logged d' l' d'') : Logged d (l ++ l') d'' := by
  refine ⟨?_, fun x hx => ?_⟩
  · rw [h'.1, h.1, ← append_assoc, ← replicate_add, length_append, add_comm]
  · rw [mem_append, not_or] at hx
    rw [h'.2 x hx.2, h.2 x hx.1]

theorem Logged.write (b : ℕ) (v : Block) : Logged d [b] (d.write b v) :=
  ⟨rfl, fun _ hx => update_of_ne (fun h => hx (mem_singleton.2 h)) _ _⟩

/-! ## Each function writes its list -/

theorem ballocWrites_eq (h : balloc sb d = .ok (d', b)) :
    ballocFind sb d.data = some b ∧ ballocWrites sb d = [BBLOCK sb b, b] := by
  unfold balloc at h
  unfold ballocWrites
  cases hf : ballocFind sb d.data with
  | none =>
    rw [hf] at h
    cases h
  | some c =>
    rw [hf] at h
    cases h
    exact ⟨rfl, rfl⟩

theorem balloc_logged (h : balloc sb d = .ok (d', b)) : Logged d (ballocWrites sb d) d' := by
  obtain ⟨hf, hl⟩ := ballocWrites_eq h
  unfold balloc at h
  rw [hf] at h
  cases h
  rw [hl]
  exact Logged.append (l := [BBLOCK sb b]) (Logged.write _ _) (Logged.write _ _)

/-- the first half of bmap past NDIRECT has found an indirect block or taken one -/
theorem bmapIndirect_cases (h : bmapIndirect sb d n = .ok (d', n')) :
    (n.addrs indirect ≠ 0 ∧ d' = d ∧ n' = n ∧ bmapIndirectWrites sb d n = []) ∨
    ∃ x, n.addrs indirect = 0 ∧ balloc sb d = .ok (d', x) ∧ n' = n.setAddr indirect x ∧
      bmapIndirectWrites sb d n = ballocWrites sb d := by
  unfold bmapIndirect at h
  unfold bmapIndirectWrites
  split_ifs at h with h0
  · cases hb : balloc sb d with
    | error p =>
      rw [hb] at h
      cases h
    | ok r =>
      rw [hb] at h
      cases h
      exact .inr ⟨r.2, h0, rfl, rfl, if_pos h0⟩
  · cases h
    exact .inl ⟨h0, rfl, rfl, if_neg h0⟩

theorem bmapEntry_cases {j : ℕ} (h : bmapEntry sb d n j = .ok (d'', n', b)) : n' = n ∧
    ((d'' = d ∧ bmapEntryWrites sb d n j = []) ∨
      ∃ d', balloc sb d = .ok (d', b) ∧ bmapEntryWrites sb d n j = ballocWrites sb d ++ [n.addrs indirect] ∧
        d'' = d'.write (n.addrs indirect) ((d'.data (n.addrs indirect)).setWord (4 * j) (BitVec.ofNat 32 b))) := by
  unfold bmapEntry at h
  unfold bmapEntryWrites
  dsimp only at h
  split_ifs at h with h0
  · cases hb : balloc sb d with
    | error p =>
      rw [hb] at h
      cases h
    | ok r =>
      rw [hb] at h
      cases h
      exact ⟨rfl, .inr ⟨r.1, rfl, if_pos h0, rfl⟩⟩
  · cases h
    exact ⟨rfl, .inl ⟨rfl, if_neg h0⟩⟩

/-- bmap finds or takes a direct block, or goes through the indirect block -/
theorem bmap_cases (h : bmap sb d n bn = .ok (d'', n', b)) :
    (∃ hd : bn < NDIRECT, (d'' = d ∧ n' = n ∧ bmapWrites sb d n bn = []) ∨
      (balloc sb d = .ok (d'', b) ∧ n' = n.setAddr ⟨bn, Nat.lt_add_one_of_lt hd⟩ b ∧
        bmapWrites sb d n bn = ballocWrites sb d)) ∨
    ∃ d' m, ¬ bn < NDIRECT ∧ bmapIndirect sb d n = .ok (d', m) ∧ bmapEntry sb d' m (bn - NDIRECT) = .ok (d'', n', b) ∧
      bmapWrites sb d n bn = bmapIndirectWrites sb d n ++ bmapEntryWrites sb d' m (bn - NDIRECT) := by
  unfold bmap at h
  unfold bmapWrites
  by_cases hd : bn < NDIRECT
  · rw [dif_pos hd] at h ⊢
    dsimp only at h
    refine .inl ⟨hd, ?_⟩
    split_ifs at h with h0
    · cases hb : balloc sb d with
      | error p =>
        rw [hb] at h
        cases h
      | ok r =>
        rw [hb] at h
        cases h
        exact .inr ⟨rfl, rfl, if_pos h0⟩
    · cases h
      exact .inl ⟨rfl, rfl, if_neg h0⟩
  · rw [dif_neg hd] at h ⊢
    split_ifs at h with hj
    cases hx : bmapIndirect sb d n with
    | error p =>
      rw [hx] at h
      cases h
    | ok r =>
      rw [hx] at h
      exact .inr ⟨r.1, r.2, hd, rfl, h, rfl⟩

theorem bmap_logged (h : bmap sb d n bn = .ok (d'', n', b)) : Logged d (bmapWrites sb d n bn) d'' := by
  rcases bmap_cases h with ⟨-, ⟨rfl, -, hl⟩ | ⟨hb, -, hl⟩⟩ | ⟨d', m, -, h1, h2, hl⟩
  · rw [hl]
    exact .nil
  · rw [hl]
    exact balloc_logged hb
  · rw [hl]
    have hfirst : Logged d (bmapIndirectWrites sb d n) d' := by
      rcases bmapIndirect_cases h1 with ⟨-, rfl, -, hl⟩ | ⟨x, -, hb, -, hl⟩
      · rw [hl]
        exact .nil
      · rw [hl]
        exact balloc_logged hb
    refine hfirst.append ?_
    obtain ⟨-, ⟨rfl, hl⟩ | ⟨d1, hb, hl, rfl⟩⟩ := bmapEntry_cases h2
    · rw [hl]
      exact .nil
    · rw [hl]
      exact (balloc_logged hb).append (Logged.write _ _)

variable {off : ℕ} {src : List Byte} {r : Dev × Dinode}

theorem writeLoop_round (hsrc : src ≠ [])
    (h : writeLoop sb d n off src = .ok r) : ∃ d' n' b, bmap sb d n (off / BSIZE) = .ok (d', n', b) ∧
      writeLoop sb (d'.write b (blit (d'.data b) (off % BSIZE) (min src.length (BSIZE - off % BSIZE)) src)) n'
        (off + min src.length (BSIZE - off % BSIZE)) (src.drop (min src.length (BSIZE - off % BSIZE))) = .ok r ∧
      writeLoopWrites sb d n off src = bmapWrites sb d n (off / BSIZE) ++ b ::
        writeLoopWrites sb (d'.write b (blit (d'.data b) (off % BSIZE) (min src.length (BSIZE - off % BSIZE)) src)) n'
          (off + min src.length (BSIZE - off % BSIZE)) (src.drop (min src.length (BSIZE - off % BSIZE))) := by
  rw [writeLoop, dif_neg hsrc] at h
  rw [writeLoopWrites, dif_neg hsrc]
  cases hb : bmap sb d n (off / BSIZE) with
  | error p =>
    rw [hb] at h
    cases h
  | ok x =>
    rw [hb] at h
    exact ⟨x.1, x.2.1, x.2.2, rfl, h, rfl⟩

theorem length_drop_round (hsrc : src ≠ []) : (src.drop (min src.length (BSIZE - off % BSIZE))).length < src.length := by
  have hpos := length_pos_of_ne_nil hsrc
  rw [length_drop, bsize_eq]
  omega

theorem writeLoop_nil (h : writeLoop sb d n off [] = .ok r) : r = (d, n) ∧ writeLoopWrites sb d n off [] = [] := by
  rw [writeLoop, dif_pos rfl] at h
  rw [writeLoopWrites, dif_pos rfl]
  cases h
  exact ⟨rfl, rfl⟩

/-- **The loop of writei** writes its list and nothing else. -/
theorem writeLoop_logged (h : writeLoop sb d n off src = .ok r) : Logged d (writeLoopWrites sb d n off src) r.1 := by
  induction hlen : src.length using Nat.strong_induction_on generalizing src off d n with
  | _ len ih =>
    by_cases hsrc : src = []
    · subst hsrc
      obtain ⟨rfl, hl⟩ := writeLoop_nil h
      rw [hl]
      exact .nil
    · obtain ⟨d', n', b, hb, hrest, hl⟩ := writeLoop_round hsrc h
      rw [hl]
      have hrec := ih _ (hlen ▸ length_drop_round hsrc) hrest rfl
      exact (bmap_logged hb).append (Logged.append (l := [b]) (Logged.write _ _) hrec)

/-! ## What a write leaves alone -/

/-- the blocks of all inodes but i are as they were -/
def Apart (B : Store) (T : ℕ → Dinode) (i : ℕ) (B' : Store) : Prop :=
  ∀ j, j ≠ i → (T j).type ≠ .free → ∀ sl, (T j).slot B sl ≠ 0 → B' ((T j).slot B sl) = B ((T j).slot B sl)

theorem Apart.slot {B B' : Store} (h : Apart B T i B') {j : ℕ} (hj : j ≠ i) (ht : (T j).type ≠ .free) (sl : Slot) :
    (T j).slot B' sl = (T j).slot B sl := slot_congr (fun hx => h j hj ht (.addr indirect) hx) sl

theorem Apart.trans {B B' B'' : Store} {m : Dinode} (h : Apart B T i B') (h' : Apart B' (update T i m) i B'') :
    Apart B T i B'' := by
  intro j hj ht sl hne
  have hT : update T i m j = T j := update_of_ne hj _ _
  have hs := h.slot hj ht sl
  have hsame := h' j hj (by rw [hT]; exact ht) sl
  rw [hT, hs] at hsame
  exact (hsame hne).trans (h j hj ht sl hne)

/-- what is written to is metadata, was free, or is a block of inode i -/
theorem Apart.of_logged (hg : Good sb d.data T e) (hi : (T i).type ≠ .free) (hw : Logged d l d')
    (hl : ∀ x ∈ l, x < sb.nmeta ∨ (x < sb.size ∧ inUse sb d.data x = false) ∨ (x ≠ 0 ∧ ∃ sl, (T i).slot d.data sl = x)) :
    Apart d.data T i d'.data := by
  intro j hj ht sl hne
  refine hw.2 _ fun hmem => ?_
  have hrange := hg.books.range (j, sl)
  rw [refs_of_alloc ht] at hrange
  rcases hl _ hmem with hmeta | ⟨hlt, hfree⟩ | ⟨-, sl', hsl⟩
  · exact absurd (hrange hne).1 (by omega)
  · refine hg.books.val_ne hlt hfree (j, sl) ?_
    rw [refs_of_alloc ht]
  · have hone := hg.books.once (j, sl) (i, sl')
    rw [refs_of_alloc ht, refs_of_alloc hi, hsl] at hone
    exact hj (congrArg Prod.fst (hone hne rfl))

theorem balloc_unused (h : balloc sb d = .ok (d', b)) : ∀ x ∈ ballocWrites sb d,
    x < sb.nmeta ∨ (x < sb.size ∧ inUse sb d.data x = false) := by
  obtain ⟨hf, hl⟩ := ballocWrites_eq h
  obtain ⟨hlt, hfree⟩ := ballocFind_free hf
  intro x hx
  rw [hl, mem_cons, mem_singleton] at hx
  rcases hx with rfl | rfl
  · exact .inl (sb.bitmap_lt b hlt)
  · exact .inr ⟨hlt, hfree⟩

theorem setAddr_indirect (n : Dinode) (a : ℕ) : (n.setAddr indirect a).addrs indirect = a := by
  show update n.addrs indirect a indirect = a
  rw [update_self]

section

variable (hg : Good sb d.data T e)
include hg

theorem bmap_touches (h : bmap sb d (T i) bn = .ok (d'', n', b)) : ∀ x ∈ bmapWrites sb d (T i) bn,
      x < sb.nmeta ∨ (x < sb.size ∧ inUse sb d.data x = false) ∨ (x ≠ 0 ∧ ∃ sl, (T i).slot d.data sl = x) := by
  intro x hx
  have hweak : (x < sb.nmeta ∨ (x < sb.size ∧ inUse sb d.data x = false)) →
      x < sb.nmeta ∨ (x < sb.size ∧ inUse sb d.data x = false) ∨ (x ≠ 0 ∧ ∃ sl, (T i).slot d.data sl = x) :=
    fun h => h.imp_right .inl
  rcases bmap_cases h with ⟨-, ⟨-, -, hl⟩ | ⟨hb, -, hl⟩⟩ | ⟨d', m, -, h1, h2, hl⟩
  · rw [hl] at hx
    cases hx
  · rw [hl] at hx
    exact hweak (balloc_unused hb x hx)
  · rw [hl, mem_append] at hx
    rcases bmapIndirect_cases h1 with ⟨h0, rfl, rfl, hl1⟩ | ⟨a, h0, ha, rfl, hl1⟩
    · rw [hl1] at hx
      have hx := hx.resolve_left not_mem_nil
      obtain ⟨-, ⟨-, hl2⟩ | ⟨d1, hb, hl2, -⟩⟩ := bmapEntry_cases h2
      · rw [hl2] at hx
        cases hx
      · rw [hl2, mem_append, mem_singleton] at hx
        rcases hx with hx | rfl
        · exact hweak (balloc_unused hb x hx)
        · exact .inr (.inr ⟨h0, .addr indirect, rfl⟩)
    · have hfresh := balloc_spec hg.books
      rw [ha] at hfresh
      rcases hx with hx | hx
      · rw [hl1] at hx
        exact hweak (balloc_unused ha x hx)
      · obtain ⟨-, ⟨-, hl2⟩ | ⟨d1, hb, hl2, -⟩⟩ := bmapEntry_cases h2
        · rw [hl2] at hx
          cases hx
        · rw [hl2, mem_append, mem_singleton] at hx
          rcases hx with hx | hx
          · -- what is free after the first allocation was free before
            refine hweak ((balloc_unused hb x hx).imp_right fun ⟨hlt, hfree⟩ => ⟨hlt, ?_⟩)
            have hmark := hfresh.marks x hlt
            rw [hfree] at hmark
            exact (Bool.or_eq_false_iff.1 hmark.symm).1
          · refine hweak (.inr ?_)
            rw [hx, setAddr_indirect]
            exact ⟨hfresh.lt, hfresh.free⟩

theorem bmap_apart (hi : (T i).type ≠ .free) (h : bmap sb d (T i) bn = .ok (d'', n', b)) :
    Apart d.data T i d''.data := Apart.of_logged hg hi (bmap_logged h) (bmap_touches hg h)

theorem round_good (hi : (T i).type ≠ .free) (hoff : off ≤ e i * BSIZE)
    (hmax : off < MAXFILE * BSIZE) (h : bmap sb d (T i) (off / BSIZE) = .ok (d', n', b)) :
    Good sb d'.data (update T i n') (update e i (max (e i) (off / BSIZE + 1))) ∧
      (update T i n' i).type ≠ .free ∧ (update T i n' i).slot d'.data (place (off / BSIZE)) = b ∧ b ≠ 0 ∧
      (off / BSIZE < e i → n' = T i ∧ d' = d) := by
  have hlt : off / BSIZE < MAXFILE := by
    rw [bsize_eq] at hmax ⊢
    omega
  have hspec := bmap_spec hg hi hlt (by rw [bsize_eq] at hoff ⊢; omega)
  rw [h] at hspec
  obtain ⟨⟨hg', hcopy⟩, hslot, hb0, hold⟩ := hspec
  dsimp only at hcopy hslot hb0 hg' hold
  refine ⟨hg', ?_, ?_, hb0, hold⟩
  · rw [update_self, hcopy]
    exact hi
  · rw [update_self]
    exact hslot

/-- **The loop of writei** leaves the blocks of the other inodes alone. -/
theorem writeLoop_apart (hi : (T i).type ≠ .free) (hoff : off ≤ e i * BSIZE) (hmax : off + src.length ≤ MAXFILE * BSIZE)
    (h : writeLoop sb d (T i) off src = .ok r) : Apart d.data T i r.1.data := by
  induction hlen : src.length using Nat.strong_induction_on generalizing src off d T e with
  | _ len ih =>
    by_cases hsrc : src = []
    · subst hsrc
      obtain ⟨rfl, -⟩ := writeLoop_nil h
      exact fun _ _ _ _ _ => rfl
    · obtain ⟨d', n', b, hb, hrest, -⟩ := writeLoop_round hsrc h
      have hpos := length_pos_of_ne_nil hsrc
      obtain ⟨hg', hi', hslot, hb0, -⟩ := round_good hg hi hoff (by omega) hb
      have hwrite : Apart d'.data (update T i n') i
          (d'.write b (blit (d'.data b) (off % BSIZE) (min src.length (BSIZE - off % BSIZE)) src)).data :=
        Apart.of_logged hg' hi' (Logged.write _ _) fun x hx => .inr (.inr (by
          rw [mem_singleton.1 hx]
          exact ⟨hb0, _, hslot⟩))
      have hself : update T i n' i = n' := update_self ..
      rw [← hself] at hrest
      have hrec := ih _ (hlen ▸ length_drop_round hsrc) (hg'.write_data hi' hslot hb0 _) hi'
        (by rw [update_self]; rw [bsize_eq] at hoff ⊢; omega)
        (by rw [length_drop, bsize_eq]; rw [bsize_eq] at hmax; omega) hrest rfl
      have hlast := hwrite.trans (m := n') (by rw [update_idem]; exact hrec)
      exact (bmap_apart hg hi hb).trans hlast

end

/-! ## How many blocks a write needs -/

theorem Logged.eq_nil (h : Logged d l d) : l = [] := by
  have hlen := congrArg List.length h.1
  rw [length_append, length_replicate] at hlen
  exact length_eq_zero_iff.1 (by omega)

/-- bmap of a block that the file has writes nothing; otherwise it writes the block, the indirect block, and one block of the
bitmap, or two when the indirect block is new -/
theorem bmap_few (hg : Good sb d.data T e) (hi : (T i).type ≠ .free) (hle : bn ≤ e i)
    (hold : bn < e i → n' = T i ∧ d'' = d) (h : bmap sb d (T i) bn = .ok (d'', n', b)) :
    ((T i).addrs indirect ≠ 0 → n'.addrs indirect = (T i).addrs indirect) ∧
    ∃ M : List ℕ, M.length ≤ (if bn < e i then 0 else if bn = NDIRECT then 2 else 1) ∧
      ∀ x ∈ bmapWrites sb d (T i) bn, x ∈ M ∨ x = b ∨ (x ≠ 0 ∧ x = n'.addrs indirect) := by
  by_cases hlt : bn < e i
  · obtain ⟨rfl, rfl⟩ := hold hlt
    refine ⟨fun _ => rfl, [], Nat.zero_le _, ?_⟩
    rw [(bmap_logged h).eq_nil]
    nofun
  rw [if_neg hlt]
  have hbn : e i = bn := by omega
  rcases bmap_cases h with ⟨hd, ⟨rfl, rfl, hl⟩ | ⟨hb, rfl, hl⟩⟩ | ⟨d', m, hd, h1, h2, hl⟩
  · refine ⟨fun _ => rfl, [], Nat.zero_le _, ?_⟩
    rw [hl]
    nofun
  · refine ⟨fun _ => update_of_ne ?_ _ _, [BBLOCK sb b], by split_ifs <;> simp, fun x hx => ?_⟩
    · intro heq
      have := congrArg Fin.val heq
      simp only [Fin.val_last] at this
      omega
    · rw [hl, (ballocWrites_eq hb).2, mem_cons, mem_singleton] at hx
      rcases hx with rfl | rfl
      · exact .inl (mem_singleton_self _)
      · exact .inr (.inl rfl)
  · rw [hl]
    obtain ⟨rfl, hentry⟩ := bmapEntry_cases h2
    -- the writes of the second half, and then of the first
    have hsecond : ∃ M : List ℕ, M.length ≤ 1 ∧ ∀ x ∈ bmapEntryWrites sb d' n' (bn - NDIRECT),
        x ∈ M ∨ x = b ∨ x = n'.addrs indirect := by
      rcases hentry with ⟨-, hl2⟩ | ⟨d1, hb, hl2, -⟩
      · refine ⟨[], Nat.zero_le _, ?_⟩
        rw [hl2]
        nofun
      · refine ⟨[BBLOCK sb b], le_rfl, fun x hx => ?_⟩
        rw [hl2, (ballocWrites_eq hb).2] at hx
        simpa [or_assoc] using hx
    obtain ⟨M, hM, hmem⟩ := hsecond
    rcases bmapIndirect_cases h1 with ⟨h0, rfl, rfl, hl1⟩ | ⟨a, h0, ha, rfl, hl1⟩
    · refine ⟨fun _ => rfl, M, hM.trans (by split_ifs <;> omega), fun x hx => ?_⟩
      rw [hl1, nil_append] at hx
      rcases hmem x hx with hx | hx | rfl
      · exact .inl hx
      · exact .inr (.inl hx)
      · exact .inr (.inr ⟨h0, rfl⟩)
    · have hnd : bn = NDIRECT := by
        by_contra hne
        exact (hg.held i hi).last.2 (by omega) h0
      have ha0 : a ≠ 0 := by
        have hfresh := balloc_spec hg.books
        rw [ha] at hfresh
        have := hg.books.lo_le hfresh.lt hfresh.free
        have := sb.nmeta_pos
        dsimp only at *
        omega
      refine ⟨fun hne => absurd h0 hne, BBLOCK sb a :: M, ?_, fun x hx => ?_⟩
      · rw [if_pos hnd, length_cons]
        omega
      · rw [hl1, (ballocWrites_eq ha).2, mem_append, mem_cons, mem_singleton] at hx
        rw [setAddr_indirect] at hmem ⊢
        rcases hx with (rfl | rfl) | hx
        · exact .inl mem_cons_self
        · exact .inr (.inr ⟨ha0, rfl⟩)
        · rcases hmem x hx with hx | hx | rfl
          · exact .inl (mem_cons_of_mem _ hx)
          · exact .inr (.inl hx)
          · exact .inr (.inr ⟨ha0, rfl⟩)

/-- **The loop of writei** needs the data blocks it touches, a block of the bitmap for each new one and one more, and the
indirect block. -/
theorem writeLoop_few (hg : Good sb d.data T e) (hi : (T i).type ≠ .free)
    (hoff : off ≤ e i * BSIZE) (hmax : off + src.length ≤ MAXFILE * BSIZE) (h : writeLoop sb d (T i) off src = .ok r) :
    ∃ (D M : List ℕ) (x : ℕ), D.length ≤ (if src = [] then 0 else nblk (off + src.length) - off / BSIZE) ∧
      M.length ≤ nblk (off + src.length) - e i + (if e i ≤ NDIRECT then 1 else 0) ∧
      ((T i).addrs indirect ≠ 0 → x = (T i).addrs indirect) ∧
      ∀ y ∈ writeLoopWrites sb d (T i) off src, y ∈ D ∨ y ∈ M ∨ y = x := by
  induction hlen : src.length using Nat.strong_induction_on generalizing src off d T e with
  | _ len ih =>
    by_cases hsrc : src = []
    · subst hsrc
      obtain ⟨-, hl⟩ := writeLoop_nil h
      rw [hl]
      exact ⟨[], [], _, Nat.zero_le _, Nat.zero_le _, fun _ => rfl, nofun⟩
    · obtain ⟨d', n', b, hb, hrest, hl⟩ := writeLoop_round hsrc h
      have hpos := length_pos_of_ne_nil hsrc
      obtain ⟨hg', hi', hslot, hb0, hold⟩ := round_good hg hi hoff (by omega) hb
      obtain ⟨hkeep, M, hM, hmem⟩ := bmap_few hg hi (by rw [bsize_eq] at hoff ⊢; omega) hold hb
      have hself : update T i n' i = n' := update_self ..
      rw [← hself] at hrest
      obtain ⟨D', M', x, hD', hM', hx, hmem'⟩ := ih _ (hlen ▸ length_drop_round hsrc) (hg'.write_data hi' hslot hb0 _) hi'
        (by rw [update_self]; rw [bsize_eq] at hoff ⊢; omega)
        (by rw [length_drop, bsize_eq]; rw [bsize_eq] at hmax; omega) hrest rfl
      rw [hself] at hmem' hx
      rw [update_self] at hM'
      rw [hl]
      have hend : off + min src.length (BSIZE - off % BSIZE) + (src.drop (min src.length (BSIZE - off % BSIZE))).length =
          off + len := by
        rw [length_drop]
        omega
      rw [hend] at hD' hM'
      refine ⟨b :: D', M ++ M', x, ?_, ?_, fun hne => ?_, fun y hy => ?_⟩
      · rw [length_cons, if_neg hsrc]
        have hnil : src.drop (min src.length (BSIZE - off % BSIZE)) = [] ↔ src.length ≤ BSIZE - off % BSIZE := by
          rw [drop_eq_nil_iff]
          omega
        by_cases hlast : src.length ≤ BSIZE - off % BSIZE
        · rw [if_pos (hnil.2 hlast)] at hD'
          simp only [nblk, bsize_eq] at hlast ⊢
          omega
        · rw [if_neg (mt hnil.1 hlast)] at hD'
          simp only [nblk, bsize_eq] at hD' hlast ⊢
          omega
      · rw [length_append]
        clear hD' hrest hl hmem hmem' hb ih
        simp only [nblk, bsize_eq, show NDIRECT = 12 from rfl] at hM hM' hoff ⊢
        split_ifs at hM hM' ⊢ <;> omega
      · rw [hx (by rw [hkeep hne]; exact hne), hkeep hne]
      · rw [mem_append, mem_cons] at hy
        rcases hy with hy | rfl | hy
        · rcases hmem y hy with hy | rfl | ⟨hne, rfl⟩
          · exact .inr (.inl (mem_append_left _ hy))
          · exact .inl mem_cons_self
          · exact .inr (.inr (hx hne).symm)
        · exact .inl mem_cons_self
        · rcases hmem' y hy with hy | hy | rfl
          · exact .inl (mem_cons_of_mem _ hy)
          · exact .inr (.inl (mem_append_right _ hy))
          · exact .inr (.inr rfl)

end Xv6.Blocks
