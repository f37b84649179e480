/-
Transactions: what the calls do to the log.

A call of the file system opens a transaction with begin_op, closes it with end_op, and opens no second one in between; every
iput and every log_write is inside. This does not depend on what is on the disk, so the runs here start from any image. What it
depends on is that a file without references has no type: sys_open gives such a file back with fileclose while its own
transaction is open, and fileclose of an inode would open another one.

Results:
- `transaction_discipline`: in every run, every such call that returns leaves matching pairs, with everything inside.
-/
import Xv6.Files.Kernel

namespace Xv6.Files

open Lib Lib.StateProg Blocks List
open Sysfile (IType elems O_RDONLY O_WRONLY O_RDWR O_CREATE)

/-! ## Traces -/

/-- whether a transaction is open after a trace, the latest event first; `none` if the rules were broken -/
def openAfter : List LogEv → Option Bool
  | [] => some false
  | e :: t =>
    match openAfter t, e with
    | some false, .beginOp => some true
    | some true, .endOp => some false
    | some true, .iput => some true
    | some true, .logWrite => some true
    | _, _ => none

variable {t : List LogEv} {s : Kern}

theorem openAfter_writes (h : openAfter t = some true) (k : ℕ) : openAfter (List.replicate k .logWrite ++ t) = some true := by
  induction k with
  | zero => exact h
  | succ k ih =>
    rw [replicate_succ, cons_append]
    simp only [openAfter, ih]

theorem count_of_openAfter {b : Bool} (h : openAfter t = some b) :
    t.count .beginOp = t.count .endOp + if b then 1 else 0 := by
  induction t generalizing b with
  | nil =>
    cases h
    rfl
  | cons e t ih =>
    simp only [openAfter] at h
    split at h
    · next h' =>
      cases h
      have := ih h'
      simp at this ⊢
      omega
    · next h' =>
      cases h
      have := ih h'
      simp at this ⊢
      omega
    · next h' =>
      cases h
      have := ih h'
      simp at this ⊢
      omega
    · next h' =>
      cases h
      have := ih h'
      simp at this ⊢
      omega
    · cases h

/-! ## The block layer only writes -/

section Writes

variable {sb : Superblock}

/-- the block layer has done nothing but log_write -/
def Wrote (d d' : Dev) : Prop := ∃ k, d'.trace = List.replicate k .logWrite ++ d.trace

theorem Wrote.refl (d : Dev) : Wrote d d := ⟨0, rfl⟩

theorem Wrote.trans {d d' d'' : Dev} (h : Wrote d d') (h' : Wrote d' d'') : Wrote d d'' := by
  obtain ⟨k, hk⟩ := h
  obtain ⟨k', hk'⟩ := h'
  refine ⟨k' + k, ?_⟩
  rw [hk', hk, ← append_assoc, replicate_append_replicate]

theorem wrote_write (d : Dev) (b : ℕ) (v : Block) : Wrote d (d.write b v) := ⟨1, rfl⟩

/-- no panic of the file table -/
def NotFile (p : Panic) : Prop := p ≠ .filedup ∧ p ≠ .fileclose

/-- a result of which we only ask what happened to the log -/
abbrev Writes {α : Type} (d : Dev) (f : α → Dev) : Except Panic α → Prop := Ends NotFile fun r => Wrote d (f r)

theorem writes_balloc (d : Dev) : Writes d Prod.fst (balloc sb d) := by
  unfold balloc
  cases ballocFind sb d.data with
  | none => exact ⟨nofun, nofun⟩
  | some b => exact (wrote_write d _ _).trans (wrote_write _ _ _)

theorem writes_bfree (d : Dev) (b : ℕ) : Writes d id (bfree sb d b) := by
  unfold bfree
  dsimp only
  split_ifs
  · exact ⟨nofun, nofun⟩
  · exact wrote_write d _ _

theorem writes_bmap (d : Dev) (n : Dinode) (bn : ℕ) : Writes d Prod.fst (bmap sb d n bn) := by
  have hentry : ∀ (d' : Dev) (m : Dinode) j, Wrote d d' → Writes d Prod.fst (bmapEntry sb d' m j) := by
    intro d' m j hd
    unfold bmapEntry
    dsimp only
    split_ifs
    · refine (writes_balloc d').bind fun r hr => .pure ?_
      exact (hd.trans hr).trans (wrote_write _ _ _)
    · exact .pure hd
  unfold bmap
  split_ifs
  · dsimp only
    split_ifs
    · exact (writes_balloc d).bind fun r hr => .pure hr
    · exact .pure (Wrote.refl d)
  · unfold bmapIndirect
    split_ifs
    · refine .bind (P := fun r => Wrote d r.1) ?_ fun r hr => hentry r.1 r.2 _ hr
      exact (writes_balloc d).bind fun r hr => .pure hr
    · exact .bind (P := fun r => Wrote d r.1) (.pure (Wrote.refl d)) fun r hr => hentry r.1 r.2 _ hr
  · exact ⟨nofun, nofun⟩

theorem writes_freeDirect (ks : List (Fin (NDIRECT + 1))) : ∀ (d : Dev) (n : Dinode),
    Writes d Prod.fst (freeDirect sb ks d n) := by
  induction ks with
  | nil => exact fun d n => .pure (Wrote.refl d)
  | cons k ks ih =>
    intro d n
    unfold freeDirect
    split_ifs
    · exact ih d n
    · exact (writes_bfree d _).bind fun d' hd => (ih d' _).mono fun r hr => Wrote.trans hd hr

theorem writes_freeEntries (x : ℕ) (js : List (Fin NINDIRECT)) : ∀ d : Dev, Writes d id (freeEntries sb x js d) := by
  induction js with
  | nil => exact fun d => .pure (Wrote.refl d)
  | cons j js ih =>
    intro d
    unfold freeEntries
    split_ifs
    · exact ih d
    · exact (writes_bfree d _).bind fun d' hd => (ih d').mono fun r hr => Wrote.trans hd hr

theorem writes_itrunc (d : Dev) (n : Dinode) : Writes d Prod.fst (itrunc sb d n) := by
  unfold itrunc
  refine (writes_freeDirect _ d n).bind fun r hr => ?_
  have hind : Writes d Prod.fst (freeIndirect sb r.1 r.2) := by
    unfold freeIndirect
    split_ifs
    · exact .pure hr
    · refine (writes_freeEntries _ _ r.1).bind fun d1 h1 => ?_
      exact (writes_bfree d1 _).bind fun d2 h2 => .pure ((hr.trans h1).trans h2)
  exact hind.bind fun r' hr' => .pure hr'

theorem writes_writeLoop (len : ℕ) : ∀ (src : List Byte) (d : Dev) (n : Dinode) (off : ℕ), src.length = len →
    Writes d Prod.fst (writeLoop sb d n off src) := by
  induction len using Nat.strong_induction_on with
  | _ len ih =>
    intro src d n off hlen
    unfold writeLoop
    split_ifs with h0
    · exact .pure (Wrote.refl d)
    · have hpos := length_pos_of_ne_nil h0
      refine (writes_bmap d n _).bind fun r hr => ?_
      dsimp only
      refine (ih _ ?_ _ _ _ _ rfl).mono fun r' hr' => (hr.trans (wrote_write _ _ _)).trans hr'
      rw [length_drop, bsize_eq]
      omega

theorem writes_readLoop (cnt : ℕ) : ∀ (d : Dev) (n : Dinode) (off : ℕ), Writes d Prod.fst (readLoop sb d n off cnt) := by
  induction cnt using Nat.strong_induction_on with
  | _ cnt ih =>
    intro d n off
    unfold readLoop
    split_ifs with h0
    · exact .pure (Wrote.refl d)
    · refine (writes_bmap d n _).bind fun r hr => ?_
      dsimp only
      refine (ih _ ?_ _ _ _).bind fun r' hr' => .pure (hr.trans hr')
      rw [bsize_eq]
      omega

end Writes

/-! ## Inside a transaction -/

variable {sb : Superblock}

/-- a file without references has no type -/
def Clean (s : Kern) : Prop := ∀ f, (s.file f).ref = 0 → (s.file f).type = .none

/-- since t the rules were kept, and b says whether a transaction is open -/
def At (t : List LogEv) (b : Bool) (s : Kern) : Prop :=
  (∃ ev, s.disk.trace = ev ++ t ∧ openAfter ev = some b) ∧ Clean s

theorem At.congr {b : Bool} {s' : Kern} (h : At t b s) (htrace : s'.disk.trace = s.disk.trace) (hclean : Clean s') :
    At t b s' := ⟨by rw [htrace]; exact h.1, hclean⟩

abbrev Tri {α : Type} (P : Kern → Prop) (x : K α) (Q : α → Kern → Prop) : Prop := Triple (fun _ => True) P x Q

/-- may run inside a transaction -/
def InOp {α : Type} (x : K α) : Prop := ∀ t, Tri (At t true) x fun _ => At t true

/-- has no part in transactions -/
def Quiet {α : Type} (x : K α) : Prop := ∀ t b, Tri (At t b) x fun _ => At t b

theorem Quiet.inOp {α : Type} {x : K α} (h : Quiet x) : InOp x := fun t => h t true

section Rules

variable {α β : Type}

variable {x : K α}

theorem InOp.bind {f : α → K β} (hx : InOp x) (hf : ∀ a, InOp (f a)) : InOp (x >>= f) :=
  fun t => (hx t).bind fun a => hf a t

theorem Quiet.bind {f : α → K β} (hx : Quiet x) (hf : ∀ a, Quiet (f a)) : Quiet (x >>= f) :=
  fun t b => (hx t b).bind fun a => hf a t b

theorem Quiet.pure (a : α) : Quiet (pure a : K α) := fun _ _ => .pure fun _ h => h

theorem InOp.pure (a : α) : InOp (pure a : K α) := (Quiet.pure a).inOp

theorem Quiet.throw (e : Panic) : Quiet (throw e : K α) := fun _ _ => Triple.throw fun _ _ => trivial

theorem InOp.throw (e : Panic) : InOp (throw e : K α) := (Quiet.throw e).inOp

theorem Quiet.get : Quiet (get : K Kern) := fun _ _ => Triple.get fun _ h => h

theorem InOp.ite {b : Prop} [Decidable b] {y : K α} (hx : InOp x) (hy : InOp y) : InOp (if b then x else y) :=
  fun t => .ite (fun _ => hx t) fun _ => hy t

theorem Quiet.ite {b : Prop} [Decidable b] {y : K α} (hx : Quiet x) (hy : Quiet y) : Quiet (if b then x else y) :=
  fun t c => .ite (fun _ => hx t c) fun _ => hy t c

theorem Quiet.modify {f : Kern → Kern} (hd : ∀ s, (f s).disk.trace = s.disk.trace) (hf : ∀ s, (f s).file = s.file) :
    Quiet (modify f : K Unit) := by
  refine fun t b => .update fun s h => h.congr (hd s) fun f' hf' => ?_
  rw [hf s] at hf' ⊢
  exact h.2 f' hf'

end Rules

theorem inOp_record {e : LogEv} (h : e = .iput ∨ e = .logWrite) : InOp (record e) := by
  refine fun t => .update fun s hs => ⟨?_, hs.2⟩
  obtain ⟨⟨ev, htr, hop⟩, -⟩ := hs
  refine ⟨e :: ev, by rw [htr, cons_append], ?_⟩
  rcases h with rfl | rfl <;> simp only [openAfter, hop]

theorem tri_beginOp (t : List LogEv) : Tri (At t false) beginOp fun _ => At t true := by
  refine .update fun s hs => ⟨?_, hs.2⟩
  obtain ⟨⟨ev, htr, hop⟩, -⟩ := hs
  exact ⟨.beginOp :: ev, by rw [htr, cons_append], by simp only [openAfter, hop]⟩

theorem tri_endOp (t : List LogEv) : Tri (At t true) endOp fun _ => At t false := by
  refine .update fun s hs => ⟨?_, hs.2⟩
  obtain ⟨⟨ev, htr, hop⟩, -⟩ := hs
  exact ⟨.endOp :: ev, by rw [htr, cons_append], by simp only [openAfter, hop]⟩

theorem quiet_setEntry (k : ℕ) (x : Entry) : Quiet (setEntry k x) := .modify (fun _ => rfl) fun _ => rfl

theorem quiet_entry (k : ℕ) : Quiet (entry k) := Quiet.get.bind fun _ => Quiet.pure _

theorem quiet_setFd (p fd : ℕ) (f : Option ℕ) : Quiet (setFd p fd f) := Quiet.modify (fun _ => rfl) fun _ => rfl

theorem inOp_onInode {α : Type} {k : ℕ} {f : Dev → Dinode → Except Panic (Dev × Dinode × α)}
    (hf : ∀ d n, Writes d Prod.fst (f d n)) : InOp (onInode k f) := by
  intro t s hs
  have hw := hf s.disk (s.icache k).n
  unfold onInode
  cases hr : f s.disk (s.icache k).n with
  | error e => trivial
  | ok r =>
    obtain ⟨d, n, a⟩ := r
    rw [hr] at hw
    obtain ⟨j, hj⟩ := hw
    obtain ⟨⟨ev, htr, hop⟩, hclean⟩ := hs
    refine ⟨⟨List.replicate j .logWrite ++ ev, ?_, openAfter_writes hop j⟩, hclean⟩
    show d.trace = _
    rw [show d.trace = _ from hj, htr, append_assoc]

theorem inOp_onlyIf {c : Prop} [Decidable c] {x : K Unit} (hx : InOp x) : InOp (onlyIf c x) := .ite hx (.pure _)

theorem inOp_iupdate (k : ℕ) : InOp (iupdate k) :=
  InOp.bind (Quiet.inOp (Quiet.modify (fun _ => rfl) fun _ => rfl)) fun _ => inOp_record (.inr rfl)

theorem inOp_change (k : ℕ) (f : Dinode → Dinode) : InOp (change k f) :=
  InOp.bind (Quiet.inOp (Quiet.modify (fun _ => rfl) fun _ => rfl)) fun _ => inOp_iupdate k

theorem quiet_iget (inum : ℕ) : Quiet (iget inum) := by
  refine Quiet.get.bind fun s => ?_
  split
  · exact (quiet_setEntry _ _).bind fun _ => Quiet.pure _
  · split
    · exact .throw _
    · exact (quiet_setEntry _ _).bind fun _ => .pure _

theorem quiet_idup (k : ℕ) : Quiet (idup k) := (quiet_entry k).bind fun _ => quiet_setEntry _ _

theorem inOp_ialloc (type : IType) : InOp (ialloc sb type) := by
  refine Quiet.get.inOp.bind fun s => ?_
  split
  · exact InOp.throw _
  · refine InOp.bind (Quiet.inOp (Quiet.modify (fun _ => rfl) fun _ => rfl)) fun _ => ?_
    exact (inOp_record (.inr rfl)).bind fun _ => (quiet_iget _).inOp

theorem quiet_ilock (k : ℕ) : Quiet (ilock k) := by
  refine Quiet.get.bind fun s => ?_
  exact Quiet.ite (Quiet.throw _) (Quiet.ite (Quiet.throw _) (Quiet.ite (quiet_setEntry _ _)
    (Quiet.ite (Quiet.throw _) (quiet_setEntry _ _))))

theorem quiet_iunlock (k : ℕ) : Quiet (iunlock k) :=
  (quiet_entry k).bind fun _ => .ite (.throw _) (quiet_setEntry _ _)

theorem inOp_freeInode (k : ℕ) : InOp (freeInode sb k) := by
  refine (inOp_onInode fun d n => ?_).bind fun _ => ?_
  · exact (writes_itrunc d n).bind fun r hr => .pure hr
  · refine (inOp_iupdate k).bind fun _ => (inOp_change k _).bind fun _ => ?_
    exact Quiet.inOp (Quiet.modify (fun _ => rfl) fun _ => rfl)

theorem inOp_iput (k : ℕ) : InOp (iput sb k) := by
  refine (inOp_record (.inl rfl)).bind fun _ => (quiet_entry k).inOp.bind fun x => ?_
  refine InOp.ite (InOp.throw _) (InOp.bind ?_ fun _ => Quiet.inOp (Quiet.modify (fun _ => rfl) fun _ => rfl))
  exact inOp_onlyIf (inOp_freeInode k)

theorem inOp_iunlockput (k : ℕ) : InOp (iunlockput sb k) := (quiet_iunlock k).inOp.bind fun _ => inOp_iput k

theorem quiet_consoleread (k n : ℕ) : Quiet (consoleread k n) := by
  refine (quiet_iunlock k).bind fun _ => Quiet.get.bind fun s => Quiet.bind ?_ fun _ => (quiet_ilock k).bind fun _ => .pure _
  exact Quiet.modify (fun _ => rfl) fun _ => rfl

theorem quiet_consolewrite (k : ℕ) (src : List Byte) : Quiet (consolewrite k src) :=
  (quiet_iunlock k).bind fun _ => (quiet_ilock k).bind fun _ => .pure _

theorem inOp_readi (k off n : ℕ) : InOp (readi sb k off n) := by
  refine (quiet_entry k).inOp.bind fun x => .ite (.ite (quiet_consoleread k n).inOp (.pure _)) (.ite (.pure _) ?_)
  exact (inOp_onInode fun d m => writes_readLoop _ d m off).bind fun _ => .pure _

theorem inOp_writei (k off : ℕ) (src : List Byte) : InOp (writei sb k off src) := by
  refine (quiet_entry k).inOp.bind fun x =>
    .ite (.ite (quiet_consolewrite k src).inOp (.pure _)) (.ite (.pure _) (.ite (.pure _) ?_))
  refine (inOp_onInode fun d m => ?_).bind fun _ => ?_
  · exact (writes_writeLoop _ src d m off rfl).bind fun r hr => .pure hr
  · exact (inOp_onlyIf (inOp_change k _)).bind fun _ => .pure _

theorem inOp_dirScan (k : ℕ) (e : Panic) (p : List Byte → Bool) (js : List ℕ) : InOp (dirScan sb k e p js) := by
  induction js with
  | nil => exact .pure _
  | cons j js ih =>
    refine (inOp_readi k _ _).bind fun r => ?_
    cases r with
    | none => exact .throw _
    | some de => exact .ite (.throw _) (.ite (.pure _) ih)

theorem inOp_dirlookup (k : ℕ) (name : List Byte) : InOp (dirlookup sb k name) := by
  refine (quiet_entry k).inOp.bind fun x => .ite (.throw _) ((inOp_dirScan k _ _ _).bind fun r => ?_)
  cases r with
  | none => exact .pure _
  | some x => exact (quiet_iget _).inOp.bind fun _ => .pure _

theorem inOp_dirlink (k : ℕ) (name : List Byte) (inum : ℕ) : InOp (dirlink sb k name inum) := by
  refine (inOp_dirlookup k name).bind fun r => ?_
  cases r with
  | some x => exact (inOp_iput x.1).bind fun _ => .pure _
  | none =>
    refine (quiet_entry k).inOp.bind fun x => (inOp_dirScan k _ _ _).bind fun r => ?_
    exact (inOp_writei k _ _).bind fun w => .ite (.pure _) (.throw _)

theorem inOp_namexLoop (nameiparent : Bool) (names : List (List Byte)) : ∀ k, InOp (namexLoop sb nameiparent k names) := by
  induction names with
  | nil => exact fun k => .ite ((inOp_iput k).bind fun _ => .pure _) (.pure _)
  | cons name rest ih =>
    intro k
    refine (quiet_ilock k).inOp.bind fun _ => (quiet_entry k).inOp.bind fun x => ?_
    refine .ite ((inOp_iunlockput k).bind fun _ => .pure _)
      (.ite ((quiet_iunlock k).inOp.bind fun _ => .pure _) ((inOp_dirlookup k name).bind fun r => ?_))
    cases r with
    | none => exact (inOp_iunlockput k).bind fun _ => .pure _
    | some x => exact (inOp_iunlockput k).bind fun _ => ih x.1

theorem inOp_namex (p : ℕ) (path : List Byte) (nameiparent : Bool) : InOp (namex sb p path nameiparent) := by
  refine InOp.bind ?_ fun k => inOp_namexLoop nameiparent _ k
  exact InOp.ite (quiet_iget _).inOp (Quiet.get.bind fun s => (quiet_idup _).bind fun _ => Quiet.pure _).inOp

theorem inOp_namei (p : ℕ) (path : List Byte) : InOp (namei sb p path) :=
  (inOp_namex p path false).bind fun _ => .pure _

/-! ## Files -/

/-- a change of one file that leaves it with a reference or without a type -/
theorem At.setFile {b : Bool} (h : At t b s) (f : ℕ) (x : File) (hx : x.ref = 0 → x.type = .none) :
    At t b { s with file := update s.file f x } := by
  refine h.congr rfl fun f' hf' => ?_
  dsimp only at hf' ⊢
  by_cases hff : f' = f
  · subst hff
    rw [update_self] at hf' ⊢
    exact hx hf'
  · rw [update_of_ne hff] at hf' ⊢
    exact h.2 f' hf'

theorem filealloc_eq (s : Kern) : filealloc s = match (List.range NFILE).find? fun f => (s.file f).ref == 0 with
    | none => .ok (none, s)
    | some f => .ok (some f, { s with file := update s.file f { s.file f with ref := 1 } }) := by
  unfold filealloc
  show (match (List.range NFILE).find? fun f => (s.file f).ref == 0 with
    | none => Pure.pure none
    | some f => (do setFile f { s.file f with ref := 1 }; return some f : K (Option ℕ))) s = _
  cases (List.range NFILE).find? fun f => (s.file f).ref == 0 <;> rfl

theorem tri_filealloc (t : List LogEv) (b : Bool) : Tri (At t b) filealloc fun r s => At t b s ∧
    ∀ f, r = some f → (s.file f).ref = 1 ∧ (s.file f).type = .none := by
  intro s hs
  rw [filealloc_eq]
  cases hf : (List.range NFILE).find? fun f => (s.file f).ref == 0 with
  | none => exact ⟨hs, nofun⟩
  | some f =>
    have hzero : (s.file f).ref = 0 := by simpa using find?_some hf
    refine ⟨hs.setFile f _ nofun, ?_⟩
    rintro g ⟨⟩
    show (update s.file f _ f).ref = 1 ∧ (update s.file f _ f).type = .none
    rw [update_self]
    exact ⟨rfl, hs.2 f hzero⟩

theorem quiet_filedup (f : ℕ) : Quiet (filedup f) := by
  intro t b s hs
  show Ends _ _ ((if (s.file f).ref < 1 then throw .filedup
    else setFile f { s.file f with ref := (s.file f).ref + 1 } : K Unit) s)
  split_ifs
  · trivial
  · exact hs.setFile f _ nofun

theorem quiet_pipeclose (q : ℕ) (writable : Bool) : Quiet (pipeclose q writable) := by
  refine .modify (fun s => ?_) fun s => ?_
  · cases s.pipe q <;> rfl
  · cases s.pipe q <;> rfl

theorem fileclose_eq (f : ℕ) (s : Kern) : fileclose sb f s = (if (s.file f).ref < 1 then throw .fileclose
    else if 0 < (s.file f).ref - 1 then setFile f { s.file f with ref := (s.file f).ref - 1 }
    else do
      setFile f { s.file f with ref := 0, type := .none }
      match (s.file f).type with
      | .none => return ()
      | .pipe => pipeclose (s.file f).pipe (s.file f).writable
      | .inode => do
        beginOp
        iput sb (s.file f).ip
        endOp : K Unit) s := rfl

theorem tri_fileclose_none (t : List LogEv) (b : Bool) (f : ℕ) :
    Tri (fun s => At t b s ∧ (s.file f).type = .none) (fileclose sb f) fun _ => At t b := by
  rintro s ⟨hs, htype⟩
  rw [fileclose_eq]
  rw [htype]
  split_ifs with h1 h2
  · trivial
  · exact hs.setFile f _ fun h => absurd h (by dsimp only; omega)
  · exact hs.setFile f _ fun _ => rfl

theorem tri_fileclose (t : List LogEv) (f : ℕ) : Tri (At t false) (fileclose sb f) fun _ => At t false := by
  intro s hs
  rw [fileclose_eq]
  split_ifs with h1 h2
  · trivial
  · exact hs.setFile f _ fun h => absurd h (by dsimp only; omega)
  · have hset : Tri (fun s' => s' = s) (setFile f { s.file f with ref := 0, type := .none }) fun _ => At t false := by
      refine .update ?_
      rintro s' rfl
      exact hs.setFile f _ fun _ => rfl
    refine Triple.bind (R := fun _ => At t false) hset (fun _ => ?_) s rfl
    cases (s.file f).type with
    | none => exact Triple.pure fun _ h => h
    | pipe => exact quiet_pipeclose _ _ t false
    | inode => exact (tri_beginOp t).bind fun _ => (inOp_iput _ t).bind fun _ => tri_endOp t

/-! ## The calls -/

/-- a call: a transaction, if any, is closed when it returns -/
def Disciplined {α : Type} (x : K α) : Prop := ∀ t, Tri (At t false) x fun _ => At t false

/-- the rest of a call whose transaction is open -/
def Closes {α : Type} (x : K α) : Prop := ∀ t, Tri (At t true) x fun _ => At t false

section Rules

variable {α β : Type}

variable {x : K α} {f : α → K β}

theorem Quiet.disciplined (h : Quiet x) : Disciplined x := fun t => h t false

theorem Closes.of_inOp (hx : InOp x) (hf : ∀ a, Closes (f a)) : Closes (x >>= f) :=
  fun t => (hx t).bind fun a => hf a t

theorem Closes.bind (hx : Closes x) (hf : ∀ a, Disciplined (f a)) : Closes (x >>= f) :=
  fun t => (hx t).bind fun a => hf a t

theorem Closes.ite {b : Prop} [Decidable b] {y : K α} (hx : Closes x) (hy : Closes y) : Closes (if b then x else y) :=
  fun t => .ite (fun _ => hx t) fun _ => hy t

theorem Closes.throw (e : Panic) : Closes (throw e : K α) := fun _ => .throw fun _ _ => trivial

theorem Disciplined.bind (hx : Disciplined x) (hf : ∀ a, Disciplined (f a)) :
    Disciplined (x >>= f) := fun t => (hx t).bind fun a => hf a t

theorem Disciplined.pure (a : α) : Disciplined (pure a : K α) := (Quiet.pure a).disciplined

theorem Disciplined.begin {f : Unit → K α} (hf : ∀ a, Closes (f a)) : Disciplined (beginOp >>= f) :=
  fun t => (tri_beginOp t).bind fun a => hf a t

theorem Disciplined.ite {b : Prop} [Decidable b] {y : K α} (hx : Disciplined x) (hy : Disciplined y) :
    Disciplined (if b then x else y) := fun t => .ite (fun _ => hx t) fun _ => hy t

end Rules

theorem closes_endOp : Closes endOp := tri_endOp

theorem closes_failOp : Closes failOp := closes_endOp.bind fun _ => .pure _

theorem closes_linkBad (ip : ℕ) : Closes (linkBad sb ip) := by
  refine .of_inOp (quiet_ilock ip).inOp fun _ => .of_inOp (inOp_change ip _) fun _ => ?_
  exact .of_inOp (inOp_iunlockput ip) fun _ => closes_failOp

theorem disciplined_sysLink (p : ℕ) (old new : Option (List Byte)) : Disciplined (sysLink sb p old new) := by
  unfold sysLink
  split
  · next old new =>
    refine .begin fun _ => .of_inOp (inOp_namei p old) fun r => ?_
    cases r with
    | none => exact closes_failOp
    | some ip =>
      refine .of_inOp (quiet_ilock ip).inOp fun _ => .of_inOp (quiet_entry ip).inOp fun x => ?_
      refine .ite (.of_inOp (inOp_iunlockput ip) fun _ => closes_failOp) ?_
      refine .of_inOp (inOp_change ip _) fun _ => .of_inOp (quiet_iunlock ip).inOp fun _ => ?_
      refine .of_inOp (inOp_namex p new true) fun r => ?_
      cases r with
      | none => exact closes_linkBad ip
      | some d =>
        refine .of_inOp (quiet_ilock d.1).inOp fun _ => .of_inOp (quiet_entry ip).inOp fun x => ?_
        refine .of_inOp (inOp_dirlink d.1 d.2 _) fun ok => .of_inOp (inOp_iunlockput d.1) fun _ => ?_
        refine .ite (.of_inOp (inOp_iput ip) fun _ => ?_) (closes_linkBad ip)
        exact closes_endOp.bind fun _ => .pure _
  · exact .pure _

theorem closes_unlinkBad (dp : ℕ) : Closes (unlinkBad sb dp) := .of_inOp (inOp_iunlockput dp) fun _ => closes_failOp

theorem closes_unlinkEntry (dp ip off : ℕ) (dir : Bool) : Closes (unlinkEntry sb dp ip off dir) := by
  refine .of_inOp (inOp_writei dp off _) fun w => .ite (.throw _) ?_
  refine .of_inOp (inOp_onlyIf (inOp_change dp _)) fun _ => ?_
  refine .of_inOp (inOp_iunlockput dp) fun _ => .of_inOp (inOp_change ip _) fun _ => ?_
  exact .of_inOp (inOp_iunlockput ip) fun _ => closes_endOp.bind fun _ => .pure _

theorem closes_unlinkFound (dp ip off : ℕ) : Closes (unlinkFound sb dp ip off) := by
  refine .of_inOp (quiet_ilock ip).inOp fun _ => .of_inOp (quiet_entry ip).inOp fun x => ?_
  refine .ite (.throw _) (.ite ?_ (closes_unlinkEntry dp ip off false))
  have hempty : InOp (isdirempty sb ip) :=
    (quiet_entry ip).inOp.bind fun _ => (inOp_dirScan ip _ _ _).bind fun _ => .pure _
  refine .of_inOp hempty fun empty => .ite (closes_unlinkEntry dp ip off true) ?_
  exact .of_inOp (inOp_iunlockput ip) fun _ => closes_unlinkBad dp

theorem disciplined_sysUnlink (p : ℕ) (path : Option (List Byte)) : Disciplined (sysUnlink sb p path) := by
  cases path with
  | none => exact .pure _
  | some path =>
    refine .begin fun _ => .of_inOp (inOp_namex p path true) fun r => ?_
    cases r with
    | none => exact closes_failOp
    | some d =>
      refine .of_inOp (quiet_ilock d.1).inOp fun _ => .ite (closes_unlinkBad d.1) ?_
      refine .of_inOp (inOp_dirlookup d.1 d.2) fun r => ?_
      cases r with
      | none => exact closes_unlinkBad d.1
      | some x => exact closes_unlinkFound d.1 x.1 x.2

theorem inOp_createNew (dp : ℕ) (name : List Byte) (type : IType) (major minor : BitVec 16) :
    InOp (createNew sb dp name type major minor) := by
  have hdots : ∀ ip, InOp (createDots sb dp ip) := by
    intro ip
    refine (inOp_change dp _).bind fun _ => (quiet_entry ip).inOp.bind fun x => (quiet_entry dp).inOp.bind fun y => ?_
    refine (inOp_dirlink ip _ _).bind fun d1 => .ite (.throw _) ?_
    exact (inOp_dirlink ip _ _).bind fun d2 => .ite (.throw _) (.pure _)
  refine (inOp_ialloc type).bind fun ip => (quiet_ilock ip).inOp.bind fun _ => (inOp_change ip _).bind fun _ => ?_
  refine (inOp_onlyIf (hdots ip)).bind fun _ => (quiet_entry ip).inOp.bind fun x => ?_
  refine (inOp_dirlink dp name _).bind fun d => .ite (.throw _) ?_
  exact (inOp_iunlockput dp).bind fun _ => .pure _

theorem inOp_create (p : ℕ) (path : List Byte) (type : IType) (major minor : BitVec 16) :
    InOp (create sb p path type major minor) := by
  refine (inOp_namex p path true).bind fun r => ?_
  cases r with
  | none => exact .pure _
  | some d =>
    refine (quiet_ilock d.1).inOp.bind fun _ => (inOp_dirlookup d.1 d.2).bind fun r => ?_
    cases r with
    | some x =>
      refine (inOp_iunlockput d.1).bind fun _ => (quiet_ilock x.1).inOp.bind fun _ => ?_
      refine (quiet_entry x.1).inOp.bind fun y => .ite (.pure _) ?_
      exact (inOp_iunlockput x.1).bind fun _ => .pure _
    | none => exact (inOp_createNew d.1 d.2 type major minor).bind fun _ => .pure _

theorem quiet_fdalloc (p f : ℕ) : Quiet (fdalloc p f) := by
  refine Quiet.get.bind fun s => ?_
  split
  · exact Quiet.pure _
  · exact (quiet_setFd _ _ _).bind fun _ => Quiet.pure _

/-- the file that sys_open claimed has one reference and no type until it is set up -/
theorem closes_openFile (p ip : ℕ) (omode : Word) : Closes (openFile sb p ip omode) := by
  intro t
  have hbad : ∀ f, Tri (fun s => At t true s ∧ ∀ g, f = some g → (s.file g).type = .none) (openBad sb f ip)
      fun _ => At t false := by
    intro f
    refine .bind (Q := fun _ => At t true) ?_ fun _ => (inOp_iunlockput ip t).bind fun _ => closes_failOp t
    cases f with
    | none => exact .pure fun s h => h.1
    | some f => exact (tri_fileclose_none t true f).conseq (fun s h => ⟨h.1, h.2 f rfl⟩) fun _ _ => id
  refine (tri_filealloc t true).bind fun r => ?_
  cases r with
  | none => exact (hbad none).conseq (fun s h => ⟨h.1, nofun⟩) fun _ _ => id
  | some f =>
    -- the file stays as it is while a descriptor is found and the inode is unlocked
    have hkeep : ∀ {α : Type} {x : K α} (b b' : Bool), Tri (At t b) x (fun _ => At t b') →
        (∀ s a s', x s = .ok (a, s') → s'.file = s.file) →
        Tri (fun s => At t b s ∧ (s.file f).ref = 1 ∧ (s.file f).type = .none) x
          fun _ s => At t b' s ∧ (s.file f).ref = 1 ∧ (s.file f).type = .none := by
      intro α x b b' hx hfile s hs
      have h := hx s hs.1
      cases hr : x s with
      | error e => trivial
      | ok r =>
        rw [hr] at h
        refine ⟨h, ?_⟩
        rw [hfile s r.1 r.2 hr]
        exact hs.2
    refine .conseq (P := fun s => At t true s ∧ (s.file f).ref = 1 ∧ (s.file f).type = .none) ?_
      (fun s h => ⟨h.1, h.2 f rfl⟩) fun _ _ => id
    refine (hkeep true true (quiet_fdalloc p f t true) ?_).bind fun r => ?_
    · intro s a s' h
      unfold fdalloc at h
      change (match (List.range NOFILE).find? fun fd => ((s.proc p).ofile fd).isNone with
        | none => Pure.pure none
        | some fd => (do setFd p fd (some f); return some fd : K (Option ℕ))) s = _ at h
      cases hfind : (List.range NOFILE).find? fun fd => ((s.proc p).ofile fd).isNone with
      | none | some fd =>
        rw [hfind] at h
        cases h
        rfl
    cases r with
    | none => exact (hbad (some f)).conseq (fun s h => ⟨h.1, by rintro g ⟨⟩; exact h.2.2⟩) fun _ _ => id
    | some fd =>
      refine (hkeep true true (quiet_iunlock ip t true) ?_).bind fun _ => ?_
      · intro s a s' h
        unfold iunlock at h
        change (if (s.icache ip).locked = false ∨ (s.icache ip).ref < 1 then throw .iunlock
          else setEntry ip { s.icache ip with locked := false } : K Unit) s = _ at h
        split_ifs at h
        · cases h
        · cases h
          rfl
      refine (hkeep true false (tri_endOp t) ?_).bind fun _ => ?_
      · intro s a s' h
        cases h
        rfl
      refine Triple.bind (Q := fun _ => At t false) (Triple.update fun s h => ?_) fun _ => Disciplined.pure _ t
      refine h.1.setFile f _ fun h0 => ?_
      dsimp only at h0
      omega

theorem disciplined_sysOpen (p : ℕ) (path : Option (List Byte)) (omode : Word) : Disciplined (sysOpen sb p path omode) := by
  cases path with
  | none => exact .pure _
  | some path =>
    refine .begin fun _ => .ite ?_ ?_
    · refine .of_inOp (inOp_create p path _ _ _) fun r => ?_
      cases r with
      | none => exact closes_failOp
      | some ip => exact closes_openFile p ip omode
    · refine .of_inOp (inOp_namei p path) fun r => ?_
      cases r with
      | none => exact closes_failOp
      | some ip =>
        refine .of_inOp (quiet_ilock ip).inOp fun _ => .of_inOp (quiet_entry ip).inOp fun x => ?_
        exact .ite (.of_inOp (inOp_iunlockput ip) fun _ => closes_failOp) (closes_openFile p ip omode)

theorem disciplined_createAndPut (p : ℕ) (path : Option (List Byte)) (type : IType) (major minor : BitVec 16) :
    Disciplined (createAndPut sb p path type major minor) := by
  refine .begin fun _ => ?_
  cases path with
  | none => exact closes_failOp
  | some path =>
    refine .of_inOp (inOp_create p path _ _ _) fun r => ?_
    cases r with
    | none => exact closes_failOp
    | some ip => exact .of_inOp (inOp_iunlockput ip) fun _ => closes_endOp.bind fun _ => .pure _

theorem disciplined_sysChdir (p : ℕ) (path : Option (List Byte)) : Disciplined (sysChdir sb p path) := by
  refine .begin fun _ => ?_
  cases path with
  | none => exact closes_failOp
  | some path =>
    refine .of_inOp (inOp_namei p path) fun r => ?_
    cases r with
    | none => exact closes_failOp
    | some ip =>
      refine .of_inOp (quiet_ilock ip).inOp fun _ => .of_inOp (quiet_entry ip).inOp fun x => ?_
      refine Closes.ite (Closes.of_inOp (inOp_iunlockput ip) fun _ => closes_failOp) ?_
      refine Closes.of_inOp (quiet_iunlock ip).inOp fun _ => Closes.of_inOp Quiet.get.inOp fun s => ?_
      refine Closes.of_inOp (inOp_iput _) fun _ => closes_endOp.bind fun _ => ?_
      exact Disciplined.bind (Quiet.disciplined (Quiet.modify (fun _ => rfl) fun _ => rfl)) fun _ => Disciplined.pure _

theorem quiet_argfd (p : ℕ) (fd : ℤ) : Quiet (argfd p fd) := Quiet.get.bind fun _ => Quiet.pure _

theorem disciplined_sysClose (p : ℕ) (fd : ℤ) : Disciplined (sysClose sb p fd) := by
  refine (quiet_argfd p fd).disciplined.bind fun r => ?_
  cases r with
  | none => exact .pure _
  | some f =>
    refine (quiet_setFd p _ none).disciplined.bind fun _ => ?_
    exact .bind (fun t => tri_fileclose t f) fun _ => .pure _

theorem quiet_setOff (f : ℕ) (g : File → ℕ) :
    Quiet (modify fun s => { s with file := update s.file f { s.file f with off := g (s.file f) } } : K Unit) :=
  fun _ _ => .update fun _ h => h.setFile f _ fun h0 => h.2 f h0

theorem disciplined_writeRounds (f ip : ℕ) (l : List (List Byte)) : Disciplined (writeRounds sb f ip l) := by
  induction l with
  | nil => exact .pure _
  | cons src rest ih =>
    refine Disciplined.begin fun _ => Closes.of_inOp (quiet_ilock ip).inOp fun _ => Closes.of_inOp Quiet.get.inOp fun s => ?_
    refine Closes.of_inOp (inOp_writei ip _ src) fun r =>
      Closes.of_inOp (quiet_setOff f fun x => x.off + r.getD 0).inOp fun _ => ?_
    refine .of_inOp (quiet_iunlock ip).inOp fun _ => closes_endOp.bind fun _ => ?_
    cases r with
    | none => exact Disciplined.pure _
    | some m => exact Disciplined.ite (Quiet.throw _).disciplined ih

theorem disciplined_sysWrite (p : ℕ) (fd : ℤ) (src : List Byte) : Disciplined (sysWrite sb p fd src) := by
  refine (quiet_argfd p fd).disciplined.bind fun r => ?_
  cases r with
  | none => exact .pure _
  | some f =>
    refine Quiet.get.disciplined.bind fun s => Disciplined.ite (Disciplined.pure _) ?_
    split
    · exact (Quiet.throw _).disciplined
    · exact Disciplined.pure _
    · exact (disciplined_writeRounds f _ _).bind fun _ => .pure _

theorem disciplined_exec (p : ℕ) (path : List Byte) (kvm : Bool) (mem : ℕ → Bool) (image : Bool) :
    Disciplined (exec sb p path kvm mem image) := by
  have hbad : ∀ ip, Closes (execBad sb ip) := fun ip => .of_inOp (inOp_iunlockput ip) fun _ => closes_failOp
  have hpages : ∀ ip off size js, InOp (loadPages sb ip off size js) := by
    intro ip off size js
    induction js with
    | nil => exact .pure _
    | cons j js ih =>
      refine (inOp_readi ip _ _).bind fun r => ?_
      cases r with
      | none => exact .pure _
      | some l => exact .ite (.pure _) ih
  have hheaders : ∀ ip off js, InOp (loadHeaders sb ip off mem js) := by
    intro ip off js
    induction js with
    | nil => exact .pure _
    | cons j js ih =>
      refine (inOp_readi ip _ _).bind fun r => ?_
      cases r with
      | none => exact .pure _
      | some ph =>
        refine .ite (.pure _) (.ite ih (.ite (.pure _) (.ite (.pure _)
          (.ite (.pure _) (.ite (.pure _) ?_)))))
        exact (hpages ip _ _ _).bind fun ok => .ite ih (.pure _)
  refine .begin fun _ => .of_inOp (inOp_namei p path) fun r => ?_
  cases r with
  | none => exact closes_failOp
  | some ip =>
    refine .of_inOp (quiet_ilock ip).inOp fun _ => .of_inOp (inOp_readi ip 0 52) fun r => ?_
    cases r with
    | none => exact hbad ip
    | some elf =>
      refine .ite (hbad ip) (.ite (hbad ip) (.ite (hbad ip) ?_))
      refine .of_inOp (hheaders ip _ _) fun ok => .ite ?_ (hbad ip)
      exact .of_inOp (inOp_iunlockput ip) fun _ => closes_endOp.bind fun _ => .pure _

theorem disciplined_exit (p : ℕ) : Disciplined (exit sb p) := by
  have hfiles : ∀ fds, Disciplined (exitFiles sb p fds) := by
    intro fds
    induction fds with
    | nil => exact .pure _
    | cons fd fds ih =>
      refine Quiet.get.disciplined.bind fun s => ?_
      split
      · exact ih
      · next f _ =>
        exact Disciplined.bind (fun t => tri_fileclose t f) fun _ => (quiet_setFd p fd none).disciplined.bind fun _ => ih
  refine Disciplined.ite (Quiet.throw _).disciplined ((hfiles _).bind fun _ => Disciplined.begin fun _ => ?_)
  refine Closes.of_inOp Quiet.get.inOp fun s => Closes.of_inOp (inOp_iput _) fun _ => closes_endOp.bind fun _ => ?_
  exact Disciplined.bind (Quiet.disciplined (Quiet.modify (fun _ => rfl) fun _ => rfl)) fun _ => Disciplined.pure _

/-! ## Runs -/

section Keeps

variable {α β : Type}

/-- files without references have no type afterwards, if so before -/
abbrev Keeps (x : K α) : Prop := Tri Clean x fun _ => Clean

variable {x : K α}

theorem Disciplined.keeps (h : Disciplined x) : Keeps x :=
  fun s hs => (h s.disk.trace s ⟨⟨[], rfl, rfl⟩, hs⟩).mono fun _ hr => hr.2

theorem Quiet.keeps (h : Quiet x) : Keeps x := h.disciplined.keeps

theorem Keeps.bind {f : α → K β} (hx : Keeps x) (hf : ∀ a, Keeps (f a)) : Keeps (x >>= f) :=
  Triple.bind hx hf

theorem Keeps.ite {b : Prop} [Decidable b] {y : K α} (hx : Keeps x) (hy : Keeps y) : Keeps (if b then x else y) :=
  Triple.ite (fun _ => hx) fun _ => hy

theorem Keeps.pure (a : α) : Keeps (pure a : K α) := (Quiet.pure a).keeps

end Keeps

/-- readi outside a transaction: it does not touch the file table -/
theorem keeps_readi (k off n : ℕ) : Keeps (readi sb k off n) := by
  refine (quiet_entry k).keeps.bind fun x => Keeps.ite (Keeps.ite (quiet_consoleread k n).keeps (Keeps.pure _))
    (Keeps.ite (Keeps.pure _) (Keeps.bind ?_ fun _ => Keeps.pure _))
  intro s hs
  unfold onInode
  split
  · exact hs
  · trivial

theorem Clean.setFile (h : Clean s) (f : ℕ) (x : File) (hx : x.ref = 0 → x.type = .none) :
    Clean { s with file := update s.file f x } :=
  (At.setFile (t := s.disk.trace) (b := false) ⟨⟨[], rfl, rfl⟩, h⟩ f x hx).2

theorem keeps_sysRead (p : ℕ) (fd : ℤ) (n : ℕ) : Keeps (sysRead sb p fd n) := by
  refine (quiet_argfd p fd).keeps.bind fun r => ?_
  cases r with
  | none => exact Keeps.pure _
  | some f =>
    -- f keeps its reference while it is read
    intro s hs
    unfold fileread
    dsimp only
    rw [run_bind (show (get : K Kern) s = .ok (s, s) from rfl)]
    split_ifs
    · exact hs
    · cases htype : (s.file f).type with
      | none => trivial
      | pipe => exact hs
      | inode =>
        refine ((quiet_ilock _).keeps.bind fun _ => (keeps_readi _ _ n).bind fun r => ?_) s hs
        cases r with
        | none => exact (quiet_iunlock _).keeps.bind fun _ => Keeps.pure _
        | some l =>
          refine Keeps.bind (.update fun s' hs' => hs'.setFile f _ fun h0 => ?_) fun _ =>
            (quiet_iunlock _).keeps.bind fun _ => Keeps.pure _
          exact htype.symm.trans (hs f h0)

theorem tri_filealloc_keep (g : ℕ) : Tri (fun s => Clean s ∧ (s.file g).ref ≠ 0) filealloc fun r s =>
    Clean s ∧ (s.file g).ref ≠ 0 ∧ ∀ f, r = some f → (s.file f).ref ≠ 0 := by
  rintro s ⟨hs, hg⟩
  have h := tri_filealloc s.disk.trace false s ⟨⟨[], rfl, rfl⟩, hs⟩
  rw [filealloc_eq] at h ⊢
  cases hf : (List.range NFILE).find? fun f => (s.file f).ref == 0 with
  | none => exact ⟨hs, hg, nofun⟩
  | some f =>
    rw [hf] at h
    refine ⟨h.1.2, ?_, fun f' hf' => ?_⟩
    · have hne : g ≠ f := by
        rintro rfl
        exact hg (by simpa using find?_some hf)
      show (update s.file f _ g).ref ≠ 0
      rw [update_of_ne hne]
      exact hg
    · rw [(h.2 f' hf').1]
      exact Nat.one_ne_zero

theorem keeps_closeIf (f : Option ℕ) : Keeps (closeIf sb f) := by
  cases f with
  | none => exact Keeps.pure _
  | some f => exact Disciplined.keeps fun t => tri_fileclose t f

theorem keeps_pipealloc (page : Option ℕ) : Keeps (pipealloc sb page) := by
  have hbad : ∀ f0 f1, Keeps (pipeBad sb f0 f1) := fun f0 f1 =>
    (keeps_closeIf f0).bind fun _ => (keeps_closeIf f1).bind fun _ => Keeps.pure _
  have halloc : Tri Clean filealloc fun r s => Clean s ∧ ∀ f, r = some f → (s.file f).ref ≠ 0 := by
    intro s hs
    refine (tri_filealloc s.disk.trace false s ⟨⟨[], rfl, rfl⟩, hs⟩).mono fun r hr => ⟨hr.1.2, fun f hf => ?_⟩
    rw [(hr.2 f hf).1]
    exact Nat.one_ne_zero
  refine halloc.bind fun r0 => ?_
  cases r0 with
  | none => exact (hbad none none).conseq (fun _ h => h.1) fun _ _ => id
  | some f0 =>
    refine .bind ((tri_filealloc_keep f0).conseq (fun s h => ⟨h.1, h.2 f0 rfl⟩) fun _ _ => id) fun r1 => ?_
    refine .bind (.get (R := fun _ s => Clean s ∧ (s.file f0).ref ≠ 0 ∧ ∀ f, r1 = some f → (s.file f).ref ≠ 0)
      fun s h => h) fun s => ?_
    cases r1 with
    | none => exact (hbad (some f0) none).conseq (fun _ h => h.1) fun _ _ => id
    | some f1 =>
      cases page.filter fun q => (s.pipe q).isNone with
      | none => exact (hbad (some f0) (some f1)).conseq (fun _ h => h.1) fun _ _ => id
      | some q =>
        refine .bind (Q := fun _ s => Clean s ∧ (s.file f0).ref ≠ 0 ∧ (s.file f1).ref ≠ 0)
          (.update fun s h => ⟨h.1, h.2.1, h.2.2 f1 rfl⟩) fun _ => ?_
        refine .bind (Q := fun _ s => Clean s ∧ (s.file f1).ref ≠ 0) (.update fun s h => ?_) fun _ => ?_
        · refine ⟨h.1.setFile f0 _ fun h0 => absurd h0 h.2.1, ?_⟩
          show (update s.file f0 _ f1).ref ≠ 0
          by_cases hff : f1 = f0
          · subst hff
            rw [update_self]
            exact h.2.1
          · rw [update_of_ne hff]
            exact h.2.2
        · refine .bind (Q := fun _ => Clean) (.update fun s h => ?_) fun _ => Keeps.pure _
          exact h.1.setFile f1 _ fun h0 => absurd h0 h.2

theorem keeps_sysPipe (p : ℕ) (page : Option ℕ) : Keeps (sysPipe sb p page) := by
  have hfail : ∀ fd0 rf wf, Keeps (pipeFail sb p fd0 rf wf) := by
    intro fd0 rf wf
    have hclear : Quiet (clearIf p fd0) := by
      cases fd0 with
      | none => exact .pure _
      | some fd => exact quiet_setFd p fd none
    refine hclear.keeps.bind fun _ => ?_
    exact (keeps_closeIf (some rf)).bind fun _ => (keeps_closeIf (some wf)).bind fun _ => Keeps.pure _
  refine (keeps_pipealloc page).bind fun r => ?_
  cases r with
  | none => exact Keeps.pure _
  | some x =>
    refine (quiet_fdalloc p x.1).keeps.bind fun r0 => ?_
    cases r0 with
    | none => exact hfail none x.1 x.2
    | some fd0 =>
      refine (quiet_fdalloc p x.2).keeps.bind fun r1 => ?_
      cases r1 with
      | none => exact hfail (some fd0) x.1 x.2
      | some fd1 => exact Keeps.pure _

theorem quiet_fork (p : ℕ) (mem : Bool) : Quiet (fork p mem) := by
  have hfiles : ∀ np fds, Quiet (forkFiles p np fds) := by
    intro np fds
    induction fds with
    | nil => exact .pure _
    | cons fd fds ih =>
      refine Quiet.get.bind fun s => ?_
      split
      · exact ih
      · exact (quiet_filedup _).bind fun _ => (quiet_setFd _ _ _).bind fun _ => ih
  refine Quiet.get.bind fun s => ?_
  split
  · exact Quiet.pure _
  · refine Quiet.ite (Quiet.pure _) ((hfiles _ _).bind fun _ => Quiet.get.bind fun s => (quiet_idup _).bind fun _ => ?_)
    exact .bind (.modify (fun _ => rfl) fun _ => rfl) fun _ => .pure _

theorem quiet_sysDup (p : ℕ) (fd : ℤ) : Quiet (sysDup p fd) := by
  refine (quiet_argfd p fd).bind fun r => ?_
  cases r with
  | none => exact .pure _
  | some f =>
    refine (quiet_fdalloc p f).bind fun r => ?_
    cases r with
    | none => exact .pure _
    | some fd => exact (quiet_filedup f).bind fun _ => .pure _

theorem quiet_wait (q : ℕ) : Quiet (wait q) := by
  refine Quiet.get.bind fun s => Quiet.ite (Quiet.bind (Quiet.modify (fun _ => rfl) fun _ => rfl) fun _ => Quiet.pure _)
    (Quiet.pure _)

/-- the calls that use transactions -/
def Call.Logged : Call → Prop
  | .open _ _ | .close _ | .link _ _ | .unlink _ | .mkdir _ | .mknod _ _ _ | .chdir _ | .exec _ _ _ _ | .write _ _ | .exit =>
    True
  | .dup _ | .read _ _ | .pipe _ | .fork _ | .wait _ => False

theorem Call.disciplined (sb : Superblock) (p : ℕ) (c : Call) (hc : c.Logged) : Disciplined (c.code sb p) := by
  cases c with
  | «open» path omode => exact disciplined_sysOpen p path omode
  | close fd => exact disciplined_sysClose p fd
  | link old new => exact disciplined_sysLink p old new
  | unlink path => exact disciplined_sysUnlink p path
  | mkdir path | mknod path major minor => exact disciplined_createAndPut p path _ _ _
  | chdir path => exact disciplined_sysChdir p path
  | exec path kvm mem image => exact disciplined_exec p path kvm mem image
  | write fd src => exact disciplined_sysWrite p fd src
  | exit => exact disciplined_exit p
  | dup | read | pipe | fork | wait => cases hc

theorem Call.keeps (sb : Superblock) (p : ℕ) (c : Call) : Keeps (c.code sb p) := by
  by_cases hc : c.Logged
  · exact (Call.disciplined sb p c hc).keeps
  · cases c with
    | dup fd => exact (quiet_sysDup p fd).keeps
    | read fd n => exact keeps_sysRead p fd n.toNat
    | pipe page => exact keeps_sysPipe p page
    | fork mem => exact (quiet_fork p mem).keeps
    | wait q => exact (quiet_wait q).keeps
    | _ => exact absurd trivial hc

theorem reach_clean {data : Store} {dinode : ℕ → Dinode} (h : Reach sb (fun s => s = boot data dinode) s) : Clean s := by
  induction h with
  | start h =>
    subst h
    exact fun _ _ => rfl
  | @call s s' p r c _ _ hrun ih =>
    have := Call.keeps sb p c s ih
    rw [hrun] at this
    exact this
  | input l _ ih => exact ih

/-- **Transaction discipline.** In every run, from any image, every call of the file system that returns has put begin_op and
end_op in pairs, one transaction at a time, with every iput and every log_write inside. -/
theorem transaction_discipline (sb : Superblock) (data : Store) (dinode : ℕ → Dinode) (s s' : Kern)
    (h : Reach sb (fun s => s = boot data dinode) s) (p : ℕ) (c : Call) (hc : c.Logged) (r : ℤ)
    (hrun : c.code sb p s = .ok (r, s')) :
    ∃ ev, s'.disk.trace = ev ++ s.disk.trace ∧ openAfter ev = some false ∧ ev.count .beginOp = ev.count .endOp := by
  have hstep := Call.disciplined sb p c hc s.disk.trace s ⟨⟨[], rfl, rfl⟩, reach_clean h⟩
  rw [hrun] at hstep
  obtain ⟨⟨ev, htrace, hopen⟩, -⟩ := hstep
  exact ⟨ev, htrace, hopen, count_of_openAfter hopen⟩

/-- the disk that mkfs lays out: 20000 blocks, the bitmap in the blocks 58 to 62 -/
def mkfsSuper : Superblock where
  size := 20000
  ninodes := NINODES
  bmapstart := 58
  nmeta := 63
  nmeta_pos := by decide
  size_lt := by decide
  bitmap_lt := by
    intro b hb
    rw [bpb_eq]
    omega

/-- inodes with an empty directory as the root -/
def emptyRoot (i : ℕ) : Dinode := ⟨if i = ROOTINO then .dir else .free, 0, 0, 1, 0, fun _ => 0⟩

/-- init calls chdir("/") -/
theorem transaction_discipline_example : ∃ s' ev,
    (Call.chdir (some [0x2f])).code mkfsSuper 0 (boot (fun _ => Bytes.zero BSIZE) emptyRoot) = .ok (0, s') ∧
    s'.disk.trace = ev ∧ openAfter ev = some false ∧ ev = [.endOp, .iput, .beginOp] := by
  have hrun : ∃ s', (Call.chdir (some [0x2f])).code mkfsSuper 0 (boot (fun _ => Bytes.zero BSIZE) emptyRoot) = .ok (0, s') ∧
      s'.disk.trace = [.endOp, .iput, .beginOp] := ⟨_, rfl, rfl⟩
  obtain ⟨s', hok, htrace⟩ := hrun
  obtain ⟨ev, hev, hopen, -⟩ := transaction_discipline mkfsSuper _ emptyRoot _ s' (.start rfl) 0 (.chdir (some [0x2f]))
    trivial 0 hok
  refine ⟨s', ev, hok, ?_, hopen, ?_⟩
  · rw [hev]
    exact append_nil ev
  · rw [htrace] at hev
    exact (hev.trans (append_nil ev)).symm

end Xv6.Files
