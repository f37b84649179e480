/-
A redo log on a block device with atomic, ordered block writes.

The device is a function from addresses to contents. The log has a header block, whose content names the home blocks of
the transaction being installed, and one slot for each of them. `pending` is what a device's own header and slots say is
still to be installed, and `logical` is the device with that installed: what a reader sees after recovery.

The argument for crash atomicity is one line for each kind of block write:
- a slot write, while nothing is pending, leaves `logical` alone (`logical_write_slot`);
- the header write of a transaction whose slots are in place applies it (`logical_write_head`);
- the install of a pending block leaves `logical` alone (`logical_install`);
- the header erase, once all is installed, leaves `logical` alone (`logical_erase`).
`commit_prefix` and `recover_prefix` collect these over every prefix of a commit and of a recovery.
-/
import Mathlib.Tactic

namespace Xv6.Lib

open List
open Function (update update_self update_of_ne)

variable {α β : Type}

/-! ## Ordered block writes -/

section Writes

variable [DecidableEq α]

/-- the device after the writes `ws`, issued in order -/
def applyWrites (ws : List (α × β)) (d : α → β) : α → β :=
  ws.foldl (fun d w => update d w.1 w.2) d

@[simp] theorem applyWrites_nil (d : α → β) : applyWrites [] d = d := rfl

@[simp] theorem applyWrites_cons (w : α × β) (ws : List (α × β)) (d : α → β) :
    applyWrites (w :: ws) d = applyWrites ws (update d w.1 w.2) := rfl

theorem applyWrites_append (ws vs : List (α × β)) (d : α → β) :
    applyWrites (ws ++ vs) d = applyWrites vs (applyWrites ws d) := foldl_append

theorem applyWrites_of_not_mem (ws : List (α × β)) (d : α → β) (x : α) (h : ∀ w ∈ ws, w.1 ≠ x) : applyWrites ws d x = d x := by
  induction ws generalizing d with
  | nil => rfl
  | cons w ws ih =>
    rw [applyWrites_cons, ih _ fun v hv => h v (mem_cons_of_mem _ hv)]
    exact update_of_ne (Ne.symm (h w mem_cons_self)) _ _

/-- what `ws` writes over an address does not depend on what was there before -/
theorem applyWrites_congr (ws : List (α × β)) (d e : α → β) (x : α) (h : (∃ w ∈ ws, w.1 = x) ∨ d x = e x) :
    applyWrites ws d x = applyWrites ws e x := by
  induction ws generalizing d e with
  | nil => simpa using h
  | cons w ws ih =>
    rw [applyWrites_cons, applyWrites_cons]
    apply ih
    by_cases hx : w.1 = x
    · right; subst hx; simp
    · rcases h with ⟨v, hv, hvx⟩ | h
      · rcases mem_cons.1 hv with rfl | hv
        · exact absurd hvx hx
        · exact Or.inl ⟨v, hv, hvx⟩
      · right
        rw [update_of_ne (Ne.symm hx), update_of_ne (Ne.symm hx), h]

theorem applyWrites_update_of_mem (ws : List (α × β)) (d : α → β) (w : α × β) (hw : w ∈ ws) (v : β) :
    applyWrites ws (update d w.1 v) = applyWrites ws d := by
  funext x
  apply applyWrites_congr
  by_cases hx : w.1 = x
  · exact Or.inl ⟨w, hw, hx⟩
  · exact Or.inr (update_of_ne (Ne.symm hx) _ _)

end Writes

/-! ## The log area -/

/-- a log area: header address, slot addresses, and how a header block names the home blocks it commits -/
structure LogArea (α β : Type) where
  head : α
  slot : ℕ → α
  cap : ℕ
  blocks : β → List α
  slot_ne_head : ∀ i < cap, slot i ≠ head
  slot_inj : ∀ i < cap, ∀ j < cap, slot i = slot j → i = j

namespace LogArea

variable (L : LogArea α β)

/-- an address outside the log area -/
def Home (b : α) : Prop := b ≠ L.head ∧ ∀ i < L.cap, b ≠ L.slot i

/-- the home writes that header and slots ask for -/
def pending (d : α → β) : List (α × β) :=
  (L.blocks (d L.head)).zipIdx.map fun p => (p.1, d (L.slot p.2))

/-- the header names home blocks only, and no more of them than there are slots -/
structure Wf (d : α → β) : Prop where
  fits : (L.blocks (d L.head)).length ≤ L.cap
  home : ∀ b ∈ L.blocks (d L.head), L.Home b

variable {L} {d : α → β}

theorem map_fst_pending : (L.pending d).map Prod.fst = L.blocks (d L.head) := by
  unfold pending
  rw [map_map]
  exact zipIdx_map_fst _ _

theorem pending_home (hd : L.Wf d) : ∀ w ∈ L.pending d, L.Home w.1 := by
  intro w hw
  exact hd.home _ (map_fst_pending ▸ mem_map_of_mem hw)

theorem pending_eq_nil (h : L.blocks (d L.head) = []) : L.pending d = [] := by simp [pending, h]

theorem wf_of_empty (h : L.blocks (d L.head) = []) : L.Wf d := ⟨by simp [h], by simp [h]⟩

/-- devices that agree on the log area have the same pending writes -/
theorem pending_congr {e : α → β} (hd : L.Wf d) (hh : e L.head = d L.head)
    (hs : ∀ i < L.cap, e (L.slot i) = d (L.slot i)) : L.pending e = L.pending d := by
  unfold pending
  rw [hh]
  apply map_congr_left
  rintro ⟨b, i⟩ hp
  obtain ⟨hi, -⟩ := mem_zipIdx' hp
  have hfits := hd.fits
  simp only [hs i (by omega)]

theorem Wf.of_head_eq {e : α → β} (hd : L.Wf d) (hh : e L.head = d L.head) : L.Wf e :=
  ⟨by rw [hh]; exact hd.fits, by rw [hh]; exact hd.home⟩

/-- the slot writes of a transaction -/
def slotWrites (L : LogArea α β) (t : List (α × β)) : List (α × β) :=
  t.zipIdx.map fun p => (L.slot p.2, p.1.2)

/-- the block writes of one commit: slots, header `v`, home blocks, header `v'` -/
def commitWrites (L : LogArea α β) (t : List (α × β)) (v v' : β) : List (α × β) :=
  L.slotWrites t ++ (L.head, v) :: (t ++ [(L.head, v')])

theorem slotWrites_length (t : List (α × β)) : (L.slotWrites t).length = t.length := by simp [slotWrites]

theorem mem_slotWrites {t : List (α × β)} {w : α × β} (hw : w ∈ L.slotWrites t) : ∃ i < t.length, w.1 = L.slot i := by
  unfold slotWrites at hw
  obtain ⟨⟨p, i⟩, hp, rfl⟩ := mem_map.1 hw
  exact ⟨i, (mem_zipIdx' hp).1, rfl⟩

/-! ## What a device stands for -/

variable [DecidableEq α]

/-- the device once everything pending is installed -/
def logical (L : LogArea α β) (d : α → β) : α → β := applyWrites (L.pending d) d

theorem logical_of_empty (h : L.blocks (d L.head) = []) : L.logical d = d := by simp [logical, pending_eq_nil h]

theorem pending_home_writes (hd : L.Wf d) (ws : List (α × β)) (hws : ∀ w ∈ ws, L.Home w.1) :
    (applyWrites ws d) L.head = d L.head ∧ L.pending (applyWrites ws d) = L.pending d := by
  have hh : (applyWrites ws d) L.head = d L.head :=
    applyWrites_of_not_mem ws d _ fun w hw => (hws w hw).1
  exact ⟨hh, pending_congr hd hh fun i hi => applyWrites_of_not_mem ws d _ fun w hw => (hws w hw).2 i hi⟩

/-! ## The four kinds of block write -/

theorem logical_write_slot (h : L.blocks (d L.head) = []) (i : ℕ) (hi : i < L.cap) (v : β) :
    L.blocks (update d (L.slot i) v L.head) = [] ∧ ∀ b, L.Home b → L.logical (update d (L.slot i) v) b = L.logical d b := by
  have hh : update d (L.slot i) v L.head = d L.head :=
    update_of_ne (Ne.symm (L.slot_ne_head i hi)) _ _
  refine ⟨by rw [hh, h], fun b hb => ?_⟩
  rw [logical_of_empty h, logical_of_empty (by rw [hh, h])]
  exact update_of_ne (hb.2 i hi) _ _

/-- **The commit point.** Once the slots hold a transaction, writing a header that names its blocks applies it. -/
theorem logical_write_head (t : List (α × β)) (h : L.blocks (d L.head) = []) (hfit : t.length ≤ L.cap)
    (hhome : ∀ w ∈ t, L.Home w.1) (hslots : ∀ i, ∀ hi : i < t.length, d (L.slot i) = t[i].2) (v : β)
    (hv : L.blocks v = t.map Prod.fst) : L.Wf (update d L.head v) ∧ L.pending (update d L.head v) = t ∧
      ∀ b, L.Home b → L.logical (update d L.head v) b = applyWrites t (L.logical d) b := by
  have hself : update d L.head v L.head = v := update_self _ _ _
  have hpend : L.pending (update d L.head v) = t := by
    unfold pending
    rw [hself, hv]
    apply ext_getElem
    · simp
    · intro i h1 h2
      have hne : L.slot i ≠ L.head := L.slot_ne_head i (by omega)
      simp [update_of_ne hne, hslots i h2]
  refine ⟨⟨?_, ?_⟩, hpend, fun b hb => ?_⟩
  · rw [hself, hv]; simpa using hfit
  · intro b hb
    rw [hself, hv] at hb
    obtain ⟨w, hw, rfl⟩ := mem_map.1 hb
    exact hhome w hw
  · unfold logical
    rw [hpend, pending_eq_nil h]
    exact applyWrites_congr _ _ _ _ (Or.inr (update_of_ne hb.1 _ _))

theorem logical_install (hd : L.Wf d) (w : α × β) (hw : w ∈ L.pending d) :
    L.Wf (update d w.1 w.2) ∧ L.pending (update d w.1 w.2) = L.pending d ∧ L.logical (update d w.1 w.2) = L.logical d := by
  obtain ⟨hh, hp⟩ := pending_home_writes hd [w] (by simpa using pending_home hd w hw)
  refine ⟨hd.of_head_eq hh, hp, ?_⟩
  unfold logical
  rw [show L.pending (update d w.1 w.2) = L.pending d from hp]
  exact applyWrites_update_of_mem _ _ w hw _

theorem logical_erase (v : β) (hv : L.blocks v = []) : L.blocks (update d L.head v L.head) = [] ∧
      ∀ b, L.Home b → L.logical (update d L.head v) b = d b := by
  have hself : update d L.head v L.head = v := update_self _ _ _
  refine ⟨by rw [hself, hv], fun b hb => ?_⟩
  rw [logical_of_empty (by rw [hself, hv])]
  exact update_of_ne hb.1 _ _

/-! ## Recovery -/

/-- every prefix of the installs keeps what is pending and what the device stands for -/
theorem install_prefix (hd : L.Wf d) (ws : List (α × β)) (hws : ∀ w ∈ ws, w ∈ L.pending d) :
    L.Wf (applyWrites ws d) ∧ L.pending (applyWrites ws d) = L.pending d ∧ L.logical (applyWrites ws d) = L.logical d := by
  induction ws generalizing d with
  | nil => exact ⟨hd, rfl, rfl⟩
  | cons w ws ih =>
    obtain ⟨h1, h2, h3⟩ := logical_install hd w (hws w mem_cons_self)
    obtain ⟨i1, i2, i3⟩ := ih h1 fun v hv => h2 ▸ hws v (mem_cons_of_mem _ hv)
    exact ⟨i1, i2.trans h2, i3.trans h3⟩

/-- **A recovery cut anywhere.** After any prefix of "install everything pending, then erase the header", the device
stands for what it stood for. -/
theorem recover_prefix (hd : L.Wf d) (v : β) (hv : L.blocks v = []) (c : ℕ) :
    L.Wf (applyWrites ((L.pending d ++ [(L.head, v)]).take c) d) ∧
      ∀ b, L.Home b → L.logical (applyWrites ((L.pending d ++ [(L.head, v)]).take c) d) b = L.logical d b := by
  by_cases hc : c ≤ (L.pending d).length
  · rw [take_append_of_le_length hc]
    obtain ⟨h1, -, h3⟩ := install_prefix hd _ fun w hw => mem_of_mem_take (i := c) hw
    exact ⟨h1, fun b _ => by rw [h3]⟩
  · rw [take_of_length_le (by simp; omega), applyWrites_append]
    obtain ⟨e1, e2⟩ := logical_erase (L := L) (d := applyWrites (L.pending d) d) v hv
    exact ⟨wf_of_empty e1, e2⟩

/-- **A recovery that completes** leaves the header empty and every home block at its logical content. -/
theorem recover_all (v : β) (hv : L.blocks v = []) : L.blocks (applyWrites (L.pending d ++ [(L.head, v)]) d L.head) = [] ∧
      ∀ b, L.Home b → applyWrites (L.pending d ++ [(L.head, v)]) d b = L.logical d b := by
  rw [applyWrites_append, applyWrites_cons, applyWrites_nil]
  refine ⟨(logical_erase v hv).1, fun b hb => ?_⟩
  exact update_of_ne hb.1 _ _

/-! ## Commit -/

theorem slot_prefix (h : L.blocks (d L.head) = []) (ws : List (α × β)) (hws : ∀ w ∈ ws, ∃ i < L.cap, w.1 = L.slot i) :
    L.blocks (applyWrites ws d L.head) = [] ∧ ∀ b, L.Home b → L.logical (applyWrites ws d) b = L.logical d b := by
  induction ws generalizing d with
  | nil => exact ⟨h, fun _ _ => rfl⟩
  | cons w ws ih =>
    obtain ⟨i, hi, hwi⟩ := hws w mem_cons_self
    obtain ⟨h1, h2⟩ := logical_write_slot h i hi w.2
    rw [← hwi] at h1 h2
    obtain ⟨i1, i2⟩ := ih h1 fun v hv => hws v (mem_cons_of_mem _ hv)
    exact ⟨i1, fun b hb => (i2 b hb).trans (h2 b hb)⟩

/-- after all slot writes, slot i holds the content of the i-th block of the transaction -/
theorem slots_hold (t : List (α × β)) (hfit : t.length ≤ L.cap) (i : ℕ) (hi : i < t.length) :
    applyWrites (L.slotWrites t) d (L.slot i) = t[i].2 := by
  -- split at the i-th write: the writes after it go to other slots
  have hlen : i < (L.slotWrites t).length := by rw [slotWrites_length]; exact hi
  have hsplit : L.slotWrites t =
      (L.slotWrites t).take i ++ (L.slot i, t[i].2) :: (L.slotWrites t).drop (i + 1) := by
    conv_lhs => rw [← take_append_drop i (L.slotWrites t), drop_eq_getElem_cons hlen]
    simp [slotWrites]
  rw [hsplit, applyWrites_append, applyWrites_cons, applyWrites_of_not_mem]
  · exact update_self _ _ _
  · intro w hw
    obtain ⟨k, hk, rfl⟩ := mem_iff_getElem.1 hw
    simp only [length_drop, slotWrites_length] at hk
    simp only [slotWrites, getElem_drop, getElem_map, getElem_zipIdx]
    intro heq
    have := L.slot_inj _ (by omega) _ (by omega) heq
    omega

/-- **A commit cut anywhere.** On a device with an empty header, after any prefix of a commit the device stands for
what it stood for if the first header write is not in the prefix, and for that with the transaction applied if it is.
After the whole commit the header is empty again. -/
theorem commit_prefix (t : List (α × β)) (h : L.blocks (d L.head) = []) (hfit : t.length ≤ L.cap)
    (hhome : ∀ w ∈ t, L.Home w.1) (v v' : β) (hv : L.blocks v = t.map Prod.fst) (hv' : L.blocks v' = []) (c : ℕ) :
    L.Wf (applyWrites ((L.commitWrites t v v').take c) d) ∧
      (∀ b, L.Home b → L.logical (applyWrites ((L.commitWrites t v v').take c) d) b =
        if c ≤ t.length then L.logical d b else applyWrites t (L.logical d) b) ∧
      ((L.commitWrites t v v').length ≤ c →
        L.blocks (applyWrites ((L.commitWrites t v v').take c) d L.head) = []) := by
  have hslots : ∀ w ∈ L.slotWrites t, ∃ i < L.cap, w.1 = L.slot i := by
    intro w hw
    obtain ⟨i, hi, hwi⟩ := mem_slotWrites hw
    exact ⟨i, by omega, hwi⟩
  have hlen : (L.commitWrites t v v').length = t.length + (1 + (t.length + 1)) := by
    simp [commitWrites, slotWrites_length]; omega
  by_cases hc : c ≤ t.length
  · -- only slot writes so far
    have htake : (L.commitWrites t v v').take c = (L.slotWrites t).take c := by
      unfold commitWrites
      exact take_append_of_le_length (by rw [slotWrites_length]; exact hc)
    obtain ⟨h1, h2⟩ := slot_prefix h ((L.slotWrites t).take c) fun w hw => hslots w (mem_of_mem_take hw)
    rw [htake]
    refine ⟨wf_of_empty h1, fun b hb => by rw [if_pos hc, h2 b hb], fun hle => by omega⟩
  · -- all slots and the header are written: what follows is a recovery of the new device
    obtain ⟨h1, h2⟩ := slot_prefix h (L.slotWrites t) hslots
    obtain ⟨g1, g2, g3⟩ := logical_write_head t h1 hfit hhome (fun i hi => slots_hold t hfit i hi) v hv
    set e := update (applyWrites (L.slotWrites t) d) L.head v
    have htake : applyWrites ((L.commitWrites t v v').take c) d =
        applyWrites ((L.pending e ++ [(L.head, v')]).take (c - (t.length + 1))) e := by
      have hc' : c = (L.slotWrites t).length + ((c - (t.length + 1)) + 1) := by rw [slotWrites_length]; omega
      unfold commitWrites
      rw [g2]
      conv_lhs => rw [hc', take_length_add_append, take_succ_cons, applyWrites_append, applyWrites_cons]
    rw [htake]
    obtain ⟨r1, r2⟩ := recover_prefix g1 v' hv' (c - (t.length + 1))
    refine ⟨r1, fun b hb => ?_, fun hle => ?_⟩
    · rw [r2 b hb, if_neg hc, g3 b hb]
      exact applyWrites_congr _ _ _ _ (Or.inr (h2 b hb))
    · have hall : (L.pending e ++ [(L.head, v')]).length ≤ c - (t.length + 1) := by
        rw [g2]; simp; omega
      rw [take_of_length_le hall]
      exact (recover_all v' hv').1

end LogArea

end Xv6.Lib
