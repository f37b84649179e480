/-
The redo log of log.c, over the disk writes it issues: `write_log`, `write_head`, `install_trans`, `commit`,
`read_head` and `recover_from_log`.

The kernel sees blocks through the buffer cache: `bread` returns the cached data, `bwrite` sends it to the disk. A
`Machine` is the cached data together with the block writes issued so far, in program order; each of them is atomic.
A crash keeps the disk after some prefix of the writes and loses the cache (`boot` reads everything from the disk).
The header is the struct logheader laid over the first block of the log: word 0 is `n`, word i + 1 is `block[i]`.

Results:
- `commit_issues` / `recover_out`: the block writes a commit and a recovery issue, in the shape of `Lib.RedoLog`;
- `commits_prefix`: a crash anywhere in a sequence of commits leaves a disk that stands for exactly the transactions
  whose first write_head is on it;
- `crash_atomicity`: after such a crash and any number of interrupted recoveries, a recovery that completes puts every
  home block at the content these transactions give it, and the header count at 0.
-/
import Xv6.Param
import Xv6.Lib.RedoLog

namespace Xv6.Commit

open Lib List

/-! ## Model -/

/-- struct log: where the log lies on the disk (`size` is an int) -/
structure Log where
  start : Word
  size : ℕ
  size_int : size < 2 ^ 31

/-- block number of log block `tail`: log.start+tail+1 -/
def logBlock (start : Word) (tail : ℕ) : Word := start + BitVec.ofNat 32 tail + 1

/-- what the kernel sees and what it has sent to the disk -/
structure Machine where
  /-- the data `bread` returns -/
  cache : Disk
  /-- block writes issued, oldest first -/
  out : List (Word × Block)

/-- change the data of a buffer -/
def store (m : Machine) (b : Word) (v : Block) : Machine := { m with cache := update m.cache b v }

/-- write a buffer's data to disk -/
def bwrite (m : Machine) (b : Word) : Machine := { m with out := m.out ++ [(b, m.cache b)] }

/-- copy modified blocks from cache to log; `lh` is log.lh.block[tail..n) -/
def writeLog (start : Word) : (lh : List Word) → (tail : ℕ) → Machine → Machine
  | [], _, m => m
  | b :: lh, tail, m =>
    let dst := logBlock start tail
    writeLog start lh (tail + 1) (bwrite (store m dst (m.cache b)) dst)

/-- copy committed blocks from log to their home location -/
def installTrans (start : Word) : (lh : List Word) → (tail : ℕ) → Machine → Machine
  | [], _, m => m
  | b :: lh, tail, m => installTrans start lh (tail + 1) (bwrite (store m b (m.cache (logBlock start tail))) b)

/-- hb->block[i] = log.lh.block[i], from index i on -/
def setEntries : List Word → ℕ → Block → Block
  | [], _, hb => hb
  | b :: lh, i, hb => setEntries lh (i + 1) (hb.setWord (4 * (i + 1)) b)

/-- the header block that write_head makes of the buffer's old data -/
def headerBlock (lh : List Word) (hb : Block) : Block :=
  setEntries lh 0 (hb.setWord 0 (BitVec.ofNat 32 lh.length))

/-- write in-memory log header to disk -/
def writeHead (start : Word) (lh : List Word) (m : Machine) : Machine :=
  bwrite (store m start (headerBlock lh (m.cache start))) start

/-- the in-memory header that read_head makes of a header block (the loop runs while i < n as ints) -/
def headBlocks (hb : Block) : List Word :=
  (List.range (hb.getWord 0).toInt.toNat).map fun i => hb.getWord (4 * (i + 1))

def commit (start : Word) (lh : List Word) (m : Machine) : Machine :=
  if 0 < lh.length then
    let m := writeLog start lh 0 m
    let m := writeHead start lh m
    let m := installTrans start lh 0 m
    writeHead start [] m
  else m

def recoverFromLog (start : Word) (m : Machine) : Machine :=
  let lh := headBlocks (m.cache start)
  let m := installTrans start lh 0 m
  writeHead start [] m

/-- a machine that has just started on disk d: nothing cached, nothing written -/
def boot (d : Disk) : Machine := ⟨d, []⟩

/-- block numbers outside the log area [start, start+size) -/
def OutsideLog (lg : Log) (b : Word) : Prop := b ≠ lg.start ∧ ∀ i < lg.size - 1, b ≠ logBlock lg.start i

/-- a transaction as it reaches commit: home blocks with their cached new contents. The two length bounds are the ones
log_write panics on. -/
structure Trans (lg : Log) where
  writes : List (Word × Block)
  nodup : (writes.map Prod.fst).Nodup
  fits : writes.length ≤ lg.size - 1
  lhFits : writes.length ≤ LOGSIZE
  home : ∀ w ∈ writes, OutsideLog lg w.1

variable {lg : Log}

/-- one transaction: its new contents are in the cache, and commit runs with its blocks in the header -/
def runTrans (m : Machine) (t : Trans lg) : Machine :=
  commit lg.start (t.writes.map Prod.fst) { m with cache := applyWrites t.writes m.cache }

/-- the block writes of a sequence of transactions from disk d -/
def transWrites (ts : List (Trans lg)) (d : Disk) : List (Word × Block) := (ts.foldl runTrans (boot d)).out

/-- the block writes of a recovery from disk d -/
def recoverWrites (lg : Log) (d : Disk) : List (Word × Block) := (recoverFromLog lg.start (boot d)).out

/-- a crash during recovery from d, after c of its block writes -/
def crashRecover (lg : Log) (d : Disk) (c : ℕ) : Disk := applyWrites ((recoverWrites lg d).take c) d

/-- a recovery that completes -/
def recover (lg : Log) (d : Disk) : Disk := applyWrites (recoverWrites lg d) d

/-- the first write_head of a commit: a header with a positive count -/
def isCommitHead (lg : Log) (w : Word × Block) : Bool := w.1 = lg.start ∧ 0 < (w.2.getWord 0).toInt

/-- the contents after applying transactions in order -/
def applyTrans (ts : List (Trans lg)) (d : Disk) : Disk := ts.foldl (fun d t => applyWrites t.writes d) d

/-! ## The header block -/

theorem setEntries_getWord_of_lt (lh : List Word) (i o : ℕ) (hb : Block) (h : o + 4 ≤ 4 * (i + 1)) :
    (setEntries lh i hb).getWord o = hb.getWord o := by
  induction lh generalizing i hb with
  | nil => rfl
  | cons b lh ih =>
    rw [setEntries, ih _ _ (by omega), Bytes.getWord_setWord_of_disjoint _ (by omega)]

theorem setEntries_getWord (lh : List Word) (i : ℕ) (hb : Block) (hfit : 4 * (i + lh.length + 1) ≤ BSIZE) (j : ℕ)
    (hj : j < lh.length) : (setEntries lh i hb).getWord (4 * (i + j + 1)) = lh[j] := by
  induction lh generalizing i hb j with
  | nil => simp at hj
  | cons b lh ih =>
    simp only [length_cons] at hfit hj
    rw [setEntries]
    cases j with
    | zero =>
      rw [setEntries_getWord_of_lt _ _ _ _ (by omega)]
      exact Bytes.getWord_setWord_self _ (by omega) _
    | succ j =>
      rw [show i + (j + 1) + 1 = i + 1 + j + 1 by omega, ih _ _ (by omega) j (by omega)]
      rfl

theorem headerBlock_count (lh : List Word) (hb : Block) : (headerBlock lh hb).getWord 0 = BitVec.ofNat 32 lh.length := by
  unfold headerBlock
  rw [setEntries_getWord_of_lt _ _ _ _ (by omega)]
  exact Bytes.getWord_setWord_self _ (by decide) _

theorem count_toInt {n : ℕ} (h : n ≤ LOGSIZE) : (BitVec.ofNat 32 n).toInt = n := by
  simp only [LOGSIZE, MAXOPBLOCKS] at h
  have hn : (BitVec.ofNat 32 n).toNat = n := by rw [BitVec.toNat_ofNat]; exact Nat.mod_eq_of_lt (by omega)
  rw [BitVec.toInt_eq_toNat_of_lt (by omega), hn]

/-- reading back the header block gives the header that was written -/
theorem headBlocks_headerBlock (lh : List Word) (hb : Block) (hfit : lh.length ≤ LOGSIZE) :
    headBlocks (headerBlock lh hb) = lh := by
  have hcount : ((headerBlock lh hb).getWord 0).toInt.toNat = lh.length := by
    rw [headerBlock_count, count_toInt hfit]; simp
  have hsize : 4 * (0 + lh.length + 1) ≤ BSIZE := by
    simp only [LOGSIZE, MAXOPBLOCKS] at hfit
    simp only [BSIZE]; omega
  unfold headBlocks
  rw [hcount]
  apply ext_getElem
  · simp
  · intro i h1 h2
    have := setEntries_getWord lh 0 (hb.setWord 0 (BitVec.ofNat 32 lh.length)) hsize i h2
    simpa [headerBlock] using this

theorem headBlocks_of_count_zero {hb : Block} (h : hb.getWord 0 = 0) : headBlocks hb = [] := by
  simp [headBlocks, h]

/-! ## The log as a redo log -/

theorem logBlock_inj (lg : Log) {i j : ℕ} (hi : i < lg.size - 1) (hj : j < lg.size - 1)
    (h : logBlock lg.start i = logBlock lg.start j) : i = j := by
  have hsz := lg.size_int
  unfold logBlock at h
  have h' : BitVec.ofNat 32 i = BitVec.ofNat 32 j := by simpa using h
  have hn := congrArg BitVec.toNat h'
  rw [BitVec.toNat_ofNat, BitVec.toNat_ofNat] at hn
  omega

theorem logBlock_ne_start (lg : Log) {i : ℕ} (hi : i < lg.size - 1) : logBlock lg.start i ≠ lg.start := by
  have hsz := lg.size_int
  intro h
  unfold logBlock at h
  rw [BitVec.add_assoc] at h
  have h' : BitVec.ofNat 32 i + 1 = 0 := by simpa using h
  have hn := congrArg BitVec.toNat h'
  rw [BitVec.toNat_add, BitVec.toNat_ofNat, show (1 : BitVec 32).toNat = 1 from rfl,
    show (0 : BitVec 32).toNat = 0 from rfl] at hn
  omega

/-- the log of log.c as a redo log area -/
def area (lg : Log) : LogArea Word Block where
  head := lg.start
  slot := logBlock lg.start
  cap := lg.size - 1
  blocks := headBlocks
  slot_ne_head := fun _ hi => logBlock_ne_start lg hi
  slot_inj := fun _ hi _ hj h => logBlock_inj lg hi hj h

/-- m' is m after issuing the block writes ws, each through the cache -/
def Issues (m m' : Machine) (ws : List (Word × Block)) : Prop :=
  m'.out = m.out ++ ws ∧ m'.cache = applyWrites ws m.cache

theorem Issues.refl (m : Machine) : Issues m m [] := ⟨by simp, rfl⟩

theorem Issues.trans {m1 m2 m3 : Machine} {ws vs : List (Word × Block)} (h1 : Issues m1 m2 ws)
    (h2 : Issues m2 m3 vs) : Issues m1 m3 (ws ++ vs) :=
  ⟨by rw [h2.1, h1.1, append_assoc], by rw [h2.2, h1.2, applyWrites_append]⟩

theorem issues_store_bwrite (m : Machine) (b : Word) (v : Block) : Issues m (bwrite (store m b v) b) [(b, v)] := by
  simp [Issues, bwrite, store]

theorem writeHead_issues (start : Word) (lh : List Word) (m : Machine) :
    Issues m (writeHead start lh m) [(start, headerBlock lh (m.cache start))] := issues_store_bwrite _ _ _

/-- write_log copies the cached contents of the header's blocks into the log blocks, in order -/
theorem writeLog_issues (lg : Log) (lh : List Word) (tail : ℕ) (m : Machine) (hfit : tail + lh.length ≤ lg.size - 1)
    (hhome : ∀ b ∈ lh, OutsideLog lg b) : Issues m (writeLog lg.start lh tail m)
      ((lh.zipIdx tail).map fun p => (logBlock lg.start p.2, m.cache p.1)) := by
  induction lh generalizing tail m with
  | nil => exact Issues.refl m
  | cons b lh ih =>
    simp only [length_cons] at hfit
    set m1 := bwrite (store m (logBlock lg.start tail) (m.cache b)) (logBlock lg.start tail)
    have h1 : Issues m m1 [(logBlock lg.start tail, m.cache b)] := issues_store_bwrite _ _ _
    have h2 := ih (tail + 1) m1 (by omega) fun c hc => hhome c (mem_cons_of_mem _ hc)
    -- the log block just written is not one of the blocks still to be read
    have hcache : ∀ c ∈ lh, m1.cache c = m.cache c := by
      intro c hc
      rw [h1.2]
      exact update_of_ne ((hhome c (mem_cons_of_mem _ hc)).2 tail (by omega)) _ _
    have hmap : (lh.zipIdx (tail + 1)).map (fun p => (logBlock lg.start p.2, m1.cache p.1)) =
        (lh.zipIdx (tail + 1)).map fun p => (logBlock lg.start p.2, m.cache p.1) := by
      apply map_congr_left
      rintro ⟨c, i⟩ hp
      rw [hcache c (fst_mem_of_mem_zipIdx hp)]
    rw [hmap] at h2
    rw [zipIdx_cons, map_cons]
    exact h1.trans h2

/-- install_trans writes the contents of the log blocks over the header's blocks, in order -/
theorem installTrans_issues (lg : Log) (lh : List Word) (tail : ℕ) (m : Machine) (hfit : tail + lh.length ≤ lg.size - 1)
    (hhome : ∀ b ∈ lh, OutsideLog lg b) : Issues m (installTrans lg.start lh tail m)
      ((lh.zipIdx tail).map fun p => (p.1, m.cache (logBlock lg.start p.2))) := by
  induction lh generalizing tail m with
  | nil => exact Issues.refl m
  | cons b lh ih =>
    simp only [length_cons] at hfit
    set m1 := bwrite (store m b (m.cache (logBlock lg.start tail))) b
    have h1 : Issues m m1 [(b, m.cache (logBlock lg.start tail))] := issues_store_bwrite _ _ _
    have h2 := ih (tail + 1) m1 (by omega) fun c hc => hhome c (mem_cons_of_mem _ hc)
    have hcache : ∀ i < lg.size - 1, m1.cache (logBlock lg.start i) = m.cache (logBlock lg.start i) := by
      intro i hi
      rw [h1.2]
      exact update_of_ne (Ne.symm ((hhome b mem_cons_self).2 i hi)) _ _
    have hmap : (lh.zipIdx (tail + 1)).map (fun p => (p.1, m1.cache (logBlock lg.start p.2))) =
        (lh.zipIdx (tail + 1)).map fun p => (p.1, m.cache (logBlock lg.start p.2)) := by
      apply map_congr_left
      rintro ⟨c, i⟩ hp
      have hi := mem_zipIdx hp
      simp only [hcache i (by omega)]
    rw [hmap] at h2
    rw [zipIdx_cons, map_cons]
    exact h1.trans h2

/-- an empty header, as the second write_head and the end of a recovery write it -/
theorem headBlocks_erased (hb : Block) : headBlocks (headerBlock [] hb) = [] :=
  headBlocks_headerBlock [] hb (by simp)

/-! ## The block writes of a commit and of a recovery -/

/-- after its contents are loaded, a transaction's blocks are cached with them -/
theorem cache_of_mem {ws : List (Word × Block)} (hnd : (ws.map Prod.fst).Nodup) (d : Disk) {w : Word × Block}
    (hw : w ∈ ws) : applyWrites ws d w.1 = w.2 := by
  induction ws generalizing d with
  | nil => simp at hw
  | cons v ws ih =>
    simp only [map_cons, nodup_cons] at hnd
    rcases mem_cons.1 hw with rfl | hw
    · rw [applyWrites_cons, applyWrites_of_not_mem]
      · exact update_self _ _ _
      · intro u hu heq
        exact hnd.1 (heq ▸ mem_map_of_mem hu)
    · exact ih hnd.2 _ hw

/-- **What a commit writes**: the log blocks, a header naming the transaction's blocks, the home blocks, an empty
header; in this order, and everything it writes is also what the cache holds afterwards. -/
theorem commit_issues (m : Machine) (t : Trans lg) (hne : t.writes ≠ []) :
    ∃ v v', headBlocks v = t.writes.map Prod.fst ∧ headBlocks v' = [] ∧
      Issues { m with cache := applyWrites t.writes m.cache } (runTrans m t)
        ((area lg).commitWrites t.writes v v') := by
  set m0 : Machine := { m with cache := applyWrites t.writes m.cache }
  set lh := t.writes.map Prod.fst
  have hlen : lh.length = t.writes.length := by simp [lh]
  have hhome : ∀ b ∈ lh, OutsideLog lg b := by
    intro b hb
    obtain ⟨w, hw, rfl⟩ := mem_map.1 hb
    exact t.home w hw
  have hfit : 0 + lh.length ≤ lg.size - 1 := by rw [hlen]; have := t.fits; omega
  -- write_log
  set m1 := writeLog lg.start lh 0 m0
  have h1 : Issues m0 m1 ((area lg).slotWrites t.writes) := by
    have h := writeLog_issues lg lh 0 m0 hfit hhome
    convert h using 1
    simp only [LogArea.slotWrites, lh, zipIdx_map, map_map]
    apply map_congr_left
    rintro ⟨w, i⟩ hp
    have hw : w ∈ t.writes := fst_mem_of_mem_zipIdx hp
    simp [area, m0, cache_of_mem t.nodup m.cache hw]
  -- the commit point
  set m2 := writeHead lg.start lh m1
  have h2 := writeHead_issues lg.start lh m1
  set v := headerBlock lh (m1.cache lg.start)
  have hv : headBlocks v = lh := headBlocks_headerBlock lh _ (by rw [hlen]; exact t.lhFits)
  -- install_trans reads the log blocks that write_log wrote
  set m3 := installTrans lg.start lh 0 m2
  have h3 : Issues m2 m3 t.writes := by
    have h := installTrans_issues lg lh 0 m2 hfit hhome
    convert h using 1
    apply ext_getElem
    · simp [lh]
    · intro i hi _
      have hslot : m2.cache (logBlock lg.start i) = t.writes[i].2 := by
        have hcap : i < (area lg).cap := by show i < lg.size - 1; have := t.fits; omega
        rw [h2.2, h1.2]
        simp only [applyWrites_cons, applyWrites_nil]
        rw [update_of_ne (logBlock_ne_start lg hcap)]
        exact LogArea.slots_hold t.writes t.fits i hi
      simp [lh, hslot]
  have h4 := writeHead_issues lg.start [] m3
  refine ⟨v, headerBlock [] (m3.cache lg.start), hv, headBlocks_erased _, ?_⟩
  have hpos : 0 < lh.length := by
    rw [hlen]; exact length_pos_iff.2 hne
  have hrun : runTrans m t = writeHead lg.start [] m3 := by
    unfold runTrans commit
    rw [if_pos hpos]
  rw [hrun]
  exact h1.trans (h2.trans (h3.trans h4))

theorem runTrans_empty (m : Machine) (t : Trans lg) (h : t.writes = []) : runTrans m t = m := by
  simp [runTrans, commit, h]

/-- **What a recovery writes**: everything pending, then an empty header. -/
theorem recover_out (d : Disk) (hd : (area lg).Wf d) :
    ∃ v, v.getWord 0 = 0 ∧ headBlocks v = [] ∧ recoverWrites lg d = (area lg).pending d ++ [((area lg).head, v)] := by
  have h1 := installTrans_issues lg (headBlocks (d lg.start)) 0 (boot d)
    (by have := hd.fits; simpa [area] using this) hd.home
  set m1 := installTrans lg.start (headBlocks (d lg.start)) 0 (boot d)
  have h2 := writeHead_issues lg.start [] m1
  exact ⟨headerBlock [] (m1.cache lg.start), headerBlock_count _ _, headBlocks_erased _, (h1.trans h2).1⟩

/-! ## A crash in a sequence of commits -/

theorem isCommitHead_iff (w : Word × Block) : isCommitHead lg w = true ↔ w.1 = lg.start ∧ headBlocks w.2 ≠ [] := by
  have hnil : headBlocks w.2 ≠ [] ↔ 0 < (w.2.getWord 0).toInt := by
    simp only [headBlocks, ne_eq, map_eq_nil_iff, range_eq_nil]
    omega
  simp [isCommitHead, hnil]

/-- a commit has one commit point, right after its log blocks -/
theorem countP_commitWrites (t : Trans lg) (v v' : Block) (hv : headBlocks v = t.writes.map Prod.fst)
    (hv' : headBlocks v' = []) (hne : t.writes ≠ []) (c : ℕ) :
    (((area lg).commitWrites t.writes v v').take c).countP (isCommitHead lg) =
      if c ≤ t.writes.length then 0 else 1 := by
  have hslot : ∀ w ∈ (area lg).slotWrites t.writes, ¬ isCommitHead lg w = true := by
    intro w hw h
    obtain ⟨i, hi, hwi⟩ := LogArea.mem_slotWrites hw
    have hfits := t.fits
    exact logBlock_ne_start lg (show i < lg.size - 1 by omega) (hwi.symm.trans ((isCommitHead_iff w).1 h).1)
  have htail : ∀ w ∈ t.writes ++ [((area lg).head, v')], ¬ isCommitHead lg w = true := by
    intro w hw h
    rcases mem_append.1 hw with hw | hw
    · exact (t.home w hw).1 ((isCommitHead_iff w).1 h).1
    · simp only [mem_singleton] at hw
      subst hw
      exact ((isCommitHead_iff _).1 h).2 hv'
  have hhead : isCommitHead lg ((area lg).head, v) = true := by
    rw [isCommitHead_iff]
    refine ⟨rfl, ?_⟩
    simpa [hv] using hne
  unfold LogArea.commitWrites
  split_ifs with hc
  · rw [take_append_of_le_length (by rw [LogArea.slotWrites_length]; exact hc)]
    exact countP_eq_zero.2 fun w hw => hslot w (mem_of_mem_take hw)
  · have hc' : c = ((area lg).slotWrites t.writes).length + ((c - (t.writes.length + 1)) + 1) := by
      rw [LogArea.slotWrites_length]; omega
    rw [hc', take_length_add_append, take_succ_cons, countP_append, countP_cons_of_pos hhead,
      countP_eq_zero.2 hslot, countP_eq_zero.2 fun w hw => htail w (mem_of_mem_take hw)]

theorem applyTrans_congr (ts : List (Trans lg)) (d e : Disk) (b : Word) (h : d b = e b) :
    applyTrans ts d b = applyTrans ts e b := by
  induction ts generalizing d e with
  | nil => exact h
  | cons t ts ih => exact ih _ _ (applyWrites_congr _ _ _ _ (Or.inr h))

/-- the transactions that write anything -/
def nonEmpty (ts : List (Trans lg)) : List (Trans lg) := ts.filter fun t => !t.writes.isEmpty

/-- **A crash anywhere in a sequence of commits.** From a machine whose cache agrees with the disk and whose header is
empty, after any prefix of the block writes the disk stands for the transactions whose commit point is in the prefix:
all of each of them and nothing of any other. -/
theorem commits_prefix (ts : List (Trans lg)) (m : Machine) (h : headBlocks (m.cache lg.start) = []) :
    ∃ ws, (ts.foldl runTrans m).out = m.out ++ ws ∧ ∀ k, (area lg).Wf (applyWrites (ws.take k) m.cache) ∧
      ∀ b, OutsideLog lg b → (area lg).logical (applyWrites (ws.take k) m.cache) b =
        applyTrans ((nonEmpty ts).take ((ws.take k).countP (isCommitHead lg))) m.cache b := by
  induction ts generalizing m with
  | nil =>
    refine ⟨[], by simp, fun k => ?_⟩
    have hlog := LogArea.logical_of_empty (L := area lg) (d := m.cache) h
    simp [hlog, nonEmpty, applyTrans, LogArea.wf_of_empty (L := area lg) (d := m.cache) h]
  | cons t ts ih =>
    by_cases hne : t.writes = []
    · obtain ⟨ws, hout, hws⟩ := ih m h
      refine ⟨ws, by simpa [runTrans_empty m t hne] using hout, ?_⟩
      simpa [nonEmpty, hne] using hws
    · obtain ⟨v, v', hv, hv', ho, hc⟩ := commit_issues m t hne
      set cw := (area lg).commitWrites t.writes v v'
      set m1 := runTrans m t
      -- what the commit leaves in the cache is what it leaves on the disk
      have hcache : m1.cache = applyWrites cw m.cache := by
        rw [hc]
        funext x
        apply applyWrites_congr
        by_cases hx : ∃ w ∈ t.writes, w.1 = x
        · obtain ⟨w, hw, hwx⟩ := hx
          exact Or.inl ⟨w, by simp [cw, LogArea.commitWrites, hw], hwx⟩
        · exact Or.inr (applyWrites_of_not_mem _ _ _ fun w hw hwx => hx ⟨w, hw, hwx⟩)
      have hpre := fun c => LogArea.commit_prefix (L := area lg) (d := m.cache) t.writes h t.fits t.home v v' hv hv' c
      have hdone := (hpre cw.length).2.2 le_rfl
      have hlogm := LogArea.logical_of_empty (L := area lg) (d := m.cache) h
      rw [take_of_length_le le_rfl, ← hcache] at hdone
      obtain ⟨ws, hout, hws⟩ := ih m1 hdone
      have hcons : nonEmpty (t :: ts) = t :: nonEmpty ts := by simp [nonEmpty, hne]
      refine ⟨cw ++ ws, by rw [foldl_cons, hout, ho, append_assoc], fun k => ?_⟩
      by_cases hk : k ≤ cw.length
      · -- the crash is inside this commit
        obtain ⟨h1, h2, -⟩ := hpre k
        rw [take_append_of_le_length hk, countP_commitWrites t v v' hv hv' hne, hcons]
        refine ⟨h1, fun b hb => ?_⟩
        rw [h2 b hb, hlogm]
        split_ifs <;> simp [applyTrans]
      · -- the commit is complete: the rest runs from its disk
        obtain ⟨g1, g2⟩ := hws (k - cw.length)
        have hk' : (cw ++ ws).take k = cw ++ ws.take (k - cw.length) := by
          rw [take_append, take_of_length_le (by omega)]
        have hcount : cw.countP (isCommitHead lg) = 1 := by
          have := countP_commitWrites t v v' hv hv' hne cw.length
          rw [take_of_length_le le_rfl, if_neg (by simp [cw, LogArea.commitWrites, LogArea.slotWrites_length])]
            at this
          exact this
        rw [hk', applyWrites_append, ← hcache, countP_append, hcount, hcons]
        refine ⟨g1, fun b hb => ?_⟩
        rw [g2 b hb, Nat.add_comm, take_succ_cons]
        apply applyTrans_congr
        -- on a home block the completed commit is the transaction
        have hl := (hpre cw.length).2.1 b hb
        rw [take_of_length_le le_rfl, ← hcache, LogArea.logical_of_empty (L := area lg) hdone,
          if_neg (by simp [cw, LogArea.commitWrites, LogArea.slotWrites_length]), hlogm] at hl
        exact hl

/-! ## Main result -/

theorem crashRecover_foldl (d : Disk) (hd : (area lg).Wf d) (cuts : List ℕ) : (area lg).Wf (cuts.foldl (crashRecover lg) d) ∧
      ∀ b, OutsideLog lg b → (area lg).logical (cuts.foldl (crashRecover lg) d) b = (area lg).logical d b := by
  induction cuts generalizing d with
  | nil => exact ⟨hd, fun _ _ => rfl⟩
  | cons c cuts ih =>
    obtain ⟨v, -, hv, hw⟩ := recover_out d hd
    obtain ⟨h1, h2⟩ := LogArea.recover_prefix hd v hv c
    rw [← hw] at h1 h2
    obtain ⟨i1, i2⟩ := ih (crashRecover lg d c) h1
    exact ⟨i1, fun b hb => (i2 b hb).trans (h2 b hb)⟩

/-- **Crash atomicity of the redo log.** From a disk whose header count is 0, run any sequence of transactions through
commit and crash after any prefix of the block writes; then let any number of recoveries crash, each after any prefix
of its own block writes. A recovery that completes leaves every block outside the log with its content after applying,
in order, exactly the transactions whose first write_head is in the prefix, and the header count at 0. -/
theorem crash_atomicity (ts : List (Trans lg)) (d : Disk) (h0 : (d lg.start).getWord 0 = 0) (k : ℕ) (cuts : List ℕ) :
    let ws := (transWrites ts d).take k
    let d' := recover lg (cuts.foldl (crashRecover lg) (applyWrites ws d))
    (∀ b, OutsideLog lg b → d' b = applyTrans ((nonEmpty ts).take (ws.countP (isCommitHead lg))) d b) ∧
      (d' lg.start).getWord 0 = 0 := by
  intro ws d'
  obtain ⟨W, hout, hW⟩ := commits_prefix ts (boot d) (headBlocks_of_count_zero h0)
  have hWs : W.take k = ws := by
    have : transWrites ts d = W := by simpa [transWrites, boot] using hout
    simp only [ws, this]
  obtain ⟨h1, h2⟩ := hW k
  rw [hWs] at h1 h2
  set e := cuts.foldl (crashRecover lg) (applyWrites ws d)
  obtain ⟨g1, g2⟩ := crashRecover_foldl _ h1 cuts
  obtain ⟨v, hcount, hv, hw⟩ := recover_out e g1
  have hd' : d' = applyWrites ((area lg).pending e ++ [((area lg).head, v)]) e := by
    rw [← hw]
    rfl
  constructor
  · intro b hb
    have hall := (LogArea.recover_all (L := area lg) (d := e) v hv).2 b hb
    rw [hd', hall]
    exact (g2 b hb).trans (h2 b hb)
  · have hhead : d' lg.start = v := by
      rw [hd', applyWrites_append, applyWrites_cons, applyWrites_nil]
      exact update_self _ _ _
    rw [hhead, hcount]

/-- the log as mkfs lays it out: sb.logstart = 2, sb.nlog = LOGSIZE -/
def mkfsLog : Log := ⟨2, LOGSIZE, by decide⟩

/-- a transaction that writes blocks 100 and 200 -/
def exampleTrans : Trans mkfsLog where
  writes := [(100, (Bytes.zero BSIZE).set 0 1), (200, (Bytes.zero BSIZE).set 5 7)]
  nodup := by decide
  fits := by decide
  lhFits := by decide
  home := by unfold OutsideLog; decide

/-- the transaction twice, cut after the second log block of its second run; then two interrupted recoveries -/
theorem crash_atomicity_example :
    let ws := (transWrites [exampleTrans, exampleTrans] fun _ => Bytes.zero BSIZE).take 8
    let d' := recover mkfsLog ([0, 1].foldl (crashRecover mkfsLog) (applyWrites ws fun _ => Bytes.zero BSIZE))
    d' 100 = applyTrans ((nonEmpty [exampleTrans, exampleTrans]).take (ws.countP (isCommitHead mkfsLog)))
        (fun _ => Bytes.zero BSIZE) 100 ∧
      (d' mkfsLog.start).getWord 0 = 0 := by
  have h := crash_atomicity [exampleTrans, exampleTrans] (fun _ => Bytes.zero BSIZE) (by decide) 8 [0, 1]
  exact ⟨h.1 100 (by unfold OutsideLog; decide), h.2⟩

end Xv6.Commit
