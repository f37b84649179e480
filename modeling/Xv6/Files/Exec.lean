/-
exec.c on the file system and on memory at once.

`Files.exec` is exec with its allocations left open, `Mem.exec` is exec with what it reads from the file left open. Here is the
whole function: the headers are bytes that readi delivers, the pages come from the free list, and what exec changes of the
calling process is its image, eip and esp of its trap frame, and its name. Every failure goes to bad, which frees what there is
of the new address space and, before the end of the transaction, gives back the inode.

Results:
- `exec_kern`: to the file system exec does what `Files.exec` does, for some answers of the allocator;
- `exec_all_or_nothing`: exec that returns -1 has changed nothing of the process, has put all pages back, has released inode
  and lock and closed its transaction; exec that returns 0 has freed the old address space once; and vm.c and kalloc.c stop
  the kernel at most in uva2ka.
-/
import Xv6.Files.Calls
import Xv6.Mem.Ownership

namespace Xv6.Exec

open Lib Lib.StateProg Blocks List
open Files (Kern K Err Tr Tri Holds Frame At Settled readi namei ilock iunlockput beginOp endOp failOp field openAfter
  mkfsSuper)
open Mem (Layout Kmem Space Image Fine Full numPages allocuvm freevm setupkvm)

/-! ## Model -/

/-- what exec reads and changes of the calling process -/
structure Proc where
  image : Image
  /-- tf->eip -/
  eip : ℕ
  /-- tf->esp -/
  esp : ℕ
  name : List Byte

structure Memory where
  kmem : Kmem
  proc : Proc
  /-- the pages that loaduvm and copyout have written to -/
  wrote : List ℕ

structure Sys where
  kern : Kern
  mem : Memory

inductive Panic where
  | fs (p : Blocks.Panic)
  | vm (p : Mem.Panic)

abbrev X (α : Type) := StateProg Sys Panic α

/-- a function of the file system -/
def fs {α : Type} (x : K α) : X α := fun s =>
  match x s.kern with
  | .ok (a, k) => .ok (a, { s with kern := k })
  | .error e => .error (.fs e)

/-- a function of vm.c -/
def vm {α : Type} (f : Kmem → Except Mem.Panic (α × Kmem)) : X α := fun s =>
  match f s.mem.kmem with
  | .ok (a, k) => .ok (a, { s with mem := { s.mem with kmem := k } })
  | .error e => .error (.vm e)

def writeTo (p : ℕ) : X Unit := modify fun s => { s with mem := { s.mem with wrote := p :: s.mem.wrote } }

variable (L : Layout) (sb : Superblock)

/-- the pages js of a segment -/
def loaduvm (ip : ℕ) (pgdir : Space) (addr off sz : ℕ) : List ℕ → X Bool
  | [] => return true
  | j :: js =>
    match pgdir.tab ((addr / 4096 + j) / 1024) with
    | none => throw (.vm .addressShouldExist)
    | some _ => do
      writeTo ((pgdir.pte (addr / 4096 + j)).elim 0 Mem.Pte.frame)
      let r ← fs (readi sb ip ((off + 4096 * j) % 2 ^ 32) (min (sz - 4096 * j) 4096))
      match r with
      | none => return false
      | some l => if l.length ≠ min (sz - 4096 * j) 4096 then return false else loaduvm ip pgdir addr off sz js

/-- the loop of exec over the program headers: sz, or none for the jump to bad, and pgdir -/
def loadSegments (ip off : ℕ) (pgdir : Space) (sz : ℕ) : List ℕ → X (Option ℕ × Space)
  | [] => return (some sz, pgdir)
  | j :: js => do
    let r ← fs (readi sb ip ((off + 32 * j) % 2 ^ 32) 32)
    match r with
    | none => return (none, pgdir)
    | some ph =>
      if ph.length ≠ 32 then return (none, pgdir)
      else if field ph 0 4 ≠ 1 then loadSegments ip off pgdir sz js
      else if field ph 20 4 < field ph 16 4 then return (none, pgdir)
      else if (field ph 8 4 + field ph 20 4) % 2 ^ 32 < field ph 8 4 then return (none, pgdir)
      else do
        let a ← vm fun k =>
          (allocuvm L k pgdir sz ((field ph 8 4 + field ph 20 4) % 2 ^ 32)).map fun x => ((x.1, x.2.2), x.2.1)
        if a.1 = 0 then return (none, a.2)
        else if field ph 8 4 % 4096 ≠ 0 then return (none, a.2)
        else do
          let ok ← loaduvm sb ip a.2 (field ph 8 4) (field ph 4 4) (field ph 16 4)
            (List.range ((field ph 16 4 + 4095) / 4096))
          if ok then loadSegments ip off a.2 a.1 js else return (none, a.2)

/-- begin_op, namei, ilock and the read of the header -/
def readHeader (p : ℕ) (path : List Byte) : K (Option (ℕ × Option (List Byte))) := do
  beginOp
  let r ← namei sb p path
  match r with
  | none => return none
  | some ip => do
    ilock ip
    let elf ← readi sb ip 0 52
    return some (ip, elf)

/-- `if(pgdir) freevm(pgdir)` -/
def freePgdir : Option Space → X Unit
  | none => return ()
  | some s => vm fun k => (freevm L k s).map fun k => ((), k)

/-- `bad`, while exec has the inode -/
def bad (ip : ℕ) (pgdir : Option Space) : X ℤ := do
  freePgdir L pgdir
  fs (Files.execBad sb ip)

/-- where the stack pointer is in the end -/
def stackTop (sz : ℕ) (args : List ℕ) : ℕ := Mem.pushStack (args.foldl Mem.push sz) args.length

/-- what follows the last slash -/
def lastName (path : List Byte) : List Byte := (path.reverse.takeWhile (· ≠ 0x2f)).reverse

/-- exec after end_op; safestrcpy leaves 15 bytes of the name -/
def commit (path : List Byte) (entry : ℕ) (pgdir : Space) (sz : ℕ) (args : List ℕ) :
    X ℤ := fun s =>
  match Mem.finish L s.mem.kmem pgdir sz s.mem.proc.image args with
  | .error e => .error (.vm e)
  | .ok (false, k, m, l) => .ok (-1, { s with mem := ⟨k, { s.mem.proc with image := m }, l ++ s.mem.wrote⟩ })
  | .ok (true, k, m, l) =>
    .ok (0, { s with mem := ⟨k, ⟨m, entry, stackTop m.sz args, (lastName path).take 15⟩, l ++ s.mem.wrote⟩ })

/-- exec; args: the lengths of the strings -/
def exec (p : ℕ) (path : List Byte) (args : List ℕ) : X ℤ := do
  let r ← fs (readHeader sb p path)
  match r with
  | none => fs failOp
  | some (ip, none) => bad L sb ip none
  | some (ip, some elf) =>
    if elf.length ≠ 52 then bad L sb ip none
    else if field elf 0 4 ≠ 0x464C457F then bad L sb ip none
    else do
      let r ← vm (setupkvm L)
      match r with
      | none => bad L sb ip none
      | some pgdir => do
        let r ← loadSegments L sb ip (field elf 28 4) pgdir 0 (List.range (field elf 44 2))
        match r.1 with
        | none => bad L sb ip (some r.2)
        | some sz => do
          fs (iunlockput sb ip)
          fs endOp
          commit L path (field elf 24 4) r.2 sz args

/-- what sys_exec lets through: argv has MAXARG places and ends with a 0, and the strings end below sz -/
def Accepted (sz : ℕ) (args : List ℕ) : Prop := args.length < Mem.MAXARG ∧ ∀ len ∈ args, len < sz

/-! ## Two states at once -/

section Rules

variable {L} {sb} {W : Prop} {α : Type} {H : Kern → Prop} {R : Memory → Prop}

def On (H : Kern → Prop) (R : Memory → Prop) (s : Sys) : Prop := H s.kern ∧ R s.mem

/-- vm.c stops the kernel only in uva2ka -/
def Stops (W : Prop) : Panic → Prop
  | .fs e => Err W e
  | .vm e => e = .trap

abbrev TrX {α : Type} (W : Prop) (P : Sys → Prop) (x : X α) (Q : α → Sys → Prop) : Prop := Triple (Stops W) P x Q

theorem on_fs {x : K α} {H' : α → Kern → Prop} (h : Tr W H x H') : TrX W (On H R) (fs x) fun a => On (H' a) R := by
  rintro s ⟨hk, hm⟩
  have hx := h s.kern hk
  unfold fs
  cases hr : x s.kern with
  | ok r =>
    rw [hr] at hx
    exact ⟨hx, hm⟩
  | error e =>
    rw [hr] at hx
    exact hx

theorem fs_run {x : K α} {s : Sys} {a : α} {k : Kern} (h : x s.kern = .ok (a, k)) : fs x s = .ok (a, { s with kern := k }) := by
  unfold fs
  rw [h]

theorem on_vm {f : Kmem → Except Mem.Panic (α × Kmem)} {S : α → Memory → Prop}
    (h : ∀ M, R M → ∃ a k, f M.kmem = .ok (a, k) ∧ S a { M with kmem := k }) : TrX W (On H R) (vm f) fun a => On H (S a) := by
  rintro s ⟨hk, hm⟩
  obtain ⟨a, k, hrun, hR⟩ := h s.mem hm
  unfold vm
  rw [hrun]
  exact ⟨hk, hR⟩

end Rules

/-! ## Memory -/

theorem number_lt (l : List Byte) : Files.number l < 256 ^ l.length := by
  induction l with
  | nil => exact Nat.one_pos
  | cons b l ih =>
    have hb := b.isLt
    have hcons : Files.number (b :: l) = b.toNat + 256 * Files.number l := rfl
    rw [hcons, length_cons, pow_succ]
    omega

theorem field_lt (l : List Byte) (o : ℕ) : field l o 4 < 2 ^ 32 :=
  calc field l o 4 < 256 ^ ((l.drop o).take 4).length := number_lt _
    _ ≤ 256 ^ 4 := Nat.pow_le_pow_right (by norm_num) (length_take_le _ _)

/-- since M0 the pages in X were taken from the free list, the process is as it was, and only such pages were written to -/
structure Owns (M0 : Memory) (X : Multiset ℕ) (M : Memory) : Prop where
  pages : (M.kmem.freelist : Multiset ℕ) + X = M0.kmem.freelist
  proc : M.proc = M0.proc
  wrote : ∀ p ∈ M.wrote, p ∈ M0.wrote ∨ p ∈ M0.kmem.freelist

theorem Owns.refl (M : Memory) : Owns M 0 M := ⟨add_zero _, rfl, fun _ => .inl⟩

section Segments

variable {L} {sb} {W : Prop} {H : Kern → Prop} {M0 : Memory}

theorem Owns.free {M : Memory} {s : Space} (h : Owns M0 s.pages M) (hfine : Fine L M0.kmem.freelist) (hs : s.Ok) :
    ∃ k, freevm L M.kmem s = .ok k ∧ Owns M0 0 { M with kmem := k } := by
  obtain ⟨k, hrun, hfree, -⟩ := Mem.freevm_spec M.kmem s hs (by rw [h.pages]; exact hfine)
  exact ⟨k, hrun, by rw [add_zero]; exact hfree.trans h.pages, h.proc, h.wrote⟩

theorem tr_freePgdir (hfine : Fine L M0.kmem.freelist) {s : Space} (hs : s.Ok) :
    TrX W (On H (Owns M0 s.pages)) (freePgdir L (some s)) fun _ => On H (Owns M0 0) := by
  unfold freePgdir
  refine on_vm (S := fun _ => Owns M0 0) fun M hM => ?_
  obtain ⟨k, hrun, hk⟩ := hM.free hfine hs
  exact ⟨(), k, by rw [hrun]; rfl, hk⟩

theorem tr_loaduvm {ip : ℕ} (hread : ∀ off n, n < 2 ^ 32 → Tr W H (readi sb ip off n) fun _ => H) {pgdir : Space} (hs : pgdir.Ok)
    {n : ℕ} (hn : n ≤ Mem.KERNBASE) (hfull : Full pgdir n) (addr off sz : ℕ) {js : List ℕ} (hjs : ∀ j ∈ js, addr / 4096 + j < n) :
    TrX W (On H (Owns M0 pgdir.pages)) (loaduvm sb ip pgdir addr off sz js) fun _ => On H (Owns M0 pgdir.pages) := by
  induction js with
  | nil => exact .pure fun _ => id
  | cons j js ih =>
    have hj := hjs j mem_cons_self
    obtain ⟨e, he⟩ := Option.ne_none_iff_exists'.1 (hfull _ hj)
    obtain ⟨t, ht⟩ := Option.ne_none_iff_exists'.1 (hs.backed _ e he)
    unfold loaduvm
    rw [ht, he]
    refine .bind (Q := fun _ => On H (Owns M0 pgdir.pages))
      (.update fun s h => ⟨h.1, h.2.pages, h.2.proc, ?_⟩) fun _ => ?_
    · intro p hp
      rcases mem_cons.1 hp with rfl | hp
      · right
        have hmem : e.frame ∈ (M0.kmem.freelist : Multiset ℕ) := by
          rw [← h.2.pages]
          exact Multiset.mem_add.2 (.inr (Mem.frame_mem_pages (lt_of_lt_of_le hj hn) he))
        exact Multiset.mem_coe.1 hmem
      · exact h.2.wrote p hp
    · refine .bind (on_fs (hread _ _ (lt_of_le_of_lt (min_le_right _ _) (by norm_num)))) fun r => ?_
      cases r with
      | none => exact .pure fun _ => id
      | some l =>
        exact .ite (fun _ => .pure fun _ => id) fun _ => ih fun j hj => hjs j (mem_cons_of_mem _ hj)

/-- what the loop over the segments leaves -/
def Loaded (L : Layout) (H : Kern → Prop) (M0 : Memory) (r : Option ℕ × Space) (s : Sys) : Prop :=
  (r.2.Ok ∧ ∀ sz, r.1 = some sz → Image.Ok L ⟨r.2, sz⟩ ∧ Full r.2 (numPages sz)) ∧ On H (Owns M0 r.2.pages) s

theorem tr_loadSegments (hfine : Fine L M0.kmem.freelist) {ip : ℕ}
    (hread : ∀ off n, n < 2 ^ 32 → Tr W H (readi sb ip off n) fun _ => H) (off : ℕ) (js : List ℕ) :
    ∀ {pgdir : Space} {sz : ℕ}, Image.Ok L ⟨pgdir, sz⟩ → Full pgdir (numPages sz) →
      TrX W (On H (Owns M0 pgdir.pages)) (loadSegments L sb ip off pgdir sz js) (Loaded L H M0) := by
  have hstop : ∀ {pgdir : Space}, pgdir.Ok → TrX W (On H (Owns M0 pgdir.pages))
      (pure (none, pgdir) : X (Option ℕ × Space)) (Loaded L H M0) :=
    fun hs => .pure fun _ h => ⟨⟨hs, nofun⟩, h⟩
  induction js with
  | nil =>
    intro pgdir sz h hfull
    refine .pure fun _ hP => ⟨⟨h.space, ?_⟩, hP⟩
    rintro sz' ⟨⟩
    exact ⟨h, hfull⟩
  | cons j js ih =>
    intro pgdir sz h hfull
    refine .bind (on_fs (hread _ _ (by norm_num))) fun r => ?_
    cases r with
    | none => exact hstop h.space
    | some ph =>
      refine .ite (fun _ => hstop h.space) fun _ => .ite (fun _ => ih h hfull) fun _ =>
        .ite (fun _ => hstop h.space) fun hmem => .ite (fun _ => hstop h.space) fun hwrap => ?_
      -- the address space has grown, unless allocuvm returns 0
      refine .bind (Q := fun a s => (a.2.Ok ∧ (a.1 ≠ 0 → a.1 = max sz ((field ph 8 4 + field ph 20 4) % 2 ^ 32) ∧
        Image.Ok L ⟨a.2, a.1⟩ ∧ Full a.2 (numPages a.1))) ∧ On H (Owns M0 a.2.pages) s) ?_ fun a => ?_
      · refine .conseq (on_vm (S := fun a M => (a.2.Ok ∧ (a.1 ≠ 0 → _ ∧ Image.Ok L ⟨a.2, a.1⟩ ∧
          Full a.2 (numPages a.1))) ∧ Owns M0 a.2.pages M) fun M hM => ?_) (fun _ => id) fun _ _ h => ⟨h.2.1, h.1, h.2.2⟩
        obtain ⟨r, k, s, hrun, hs, hacc, hres⟩ := Mem.allocuvm_grow (k := M.kmem) h hfull (by rw [hM.pages]; exact hfine)
          ((field ph 8 4 + field ph 20 4) % 2 ^ 32)
        exact ⟨(r, s), k, by rw [hrun]; rfl, ⟨hs, hres⟩, hacc.trans hM.pages, hM.proc, hM.wrote⟩
      · refine .extract (fun _ h => h.1) fun ha => .conseq ?_ (fun _ h => h.2) fun _ _ => id
        refine .ite (fun _ => hstop ha.1) fun ha0 => ?_
        obtain ⟨hr, hok, hfull'⟩ := ha.2 ha0
        refine .ite (fun _ => hstop ha.1) fun halign => ?_
        have hend : ∀ j ∈ List.range ((field ph 16 4 + 4095) / 4096), field ph 8 4 / 4096 + j < numPages a.1 := by
          intro j hj
          have hj := mem_range.1 hj
          have hv := field_lt ph 8
          have hm := field_lt ph 20
          unfold numPages
          omega
        have hlt : numPages a.1 ≤ Mem.KERNBASE := by
          have := hok.lt
          dsimp only at this
          unfold numPages Mem.KERNBASE
          rw [Mem.kernbase_bytes] at this
          omega
        refine .bind (tr_loaduvm hread ha.1 hlt hfull' _ _ _ hend) fun ok => ?_
        exact .ite (fun _ => ih hok hfull') fun _ => hstop ha.1

end Segments

/-! ## The file system -/

section Kern

variable {sb} {W : Prop} {G : Frame} {t : List LogEv} {m : Multiset ℕ} {D : Finset ℕ}

/-- with the references m and the locks D; b says whether the transaction is open -/
def During (sb : Superblock) (W : Prop) (G : Frame) (t : List LogEv) (b : Bool) (m : Multiset ℕ) (D : Finset ℕ)
    (s : Kern) : Prop :=
  Holds sb W G m D s ∧ At t b s

theorem tr_readHeader (hG : G.Free) (hK : G.Kept m) {p : ℕ} (hp : G.Home p) (path : List Byte) :
    Tr W (During sb W G t false m D) (readHeader sb p path) fun r s => r.elim (During sb W G t true m D s) fun x =>
      x.1 ∉ D ∧ During sb W G t true (x.1 ::ₘ m) (insert x.1 D) s := by
  have hfs : Tr W (Holds sb W G m D) (readHeader sb p path) fun r s => r.elim (Holds sb W G m D s) fun x =>
      x.1 ∉ D ∧ Holds sb W G (x.1 ::ₘ m) (insert x.1 D) s := by
    refine Files.tr_beginOp.bind fun _ => Files.tr_match (Files.tr_namei (.inl hG) hK hp path) (.pure fun _ => id)
      fun ip => Files.tr_lock fun hip => ?_
    exact .bind (Files.tr_readi (.inl hG) (Finset.mem_insert_self _ _) _ (by norm_num)) fun elf =>
      .pure fun _ h => ⟨hip, h⟩
  have hlog : Tri (At t false) (readHeader sb p path) fun _ => At t true := by
    refine (Files.tri_beginOp t).bind fun _ => (Files.inOp_namei p path t).bind fun r => ?_
    cases r with
    | none => exact .pure fun _ => id
    | some ip =>
      exact ((Files.quiet_ilock ip).inOp t).bind fun _ => (Files.inOp_readi ip 0 52 t).bind fun _ => .pure fun _ => id
  refine (hfs.and hlog).conseq (fun _ => id) fun r s h => ?_
  cases r with
  | none => exact h
  | some x => exact ⟨h.1.1, h.1.2, h.2⟩

theorem tr_failOp : Tr W (During sb W G t true m D) failOp fun r s => r = -1 ∧ During sb W G t false m D s := by
  have hres : Tri (fun _ => True) failOp fun r _ => r = -1 := (Triple.any endOp).bind fun _ => Triple.pure fun _ _ => rfl
  exact ((Files.tr_failOp.and (Files.closes_failOp t)).and hres).conseq (fun _ h => ⟨h, trivial⟩) fun _ _ h => ⟨h.2, h.1⟩

theorem tr_close (hG : G.Free) (hK : G.Kept m) {ip : ℕ} (hip : ip ∉ D) :
    Tr W (During sb W G t true (ip ::ₘ m) (insert ip D)) (iunlockput sb ip) fun _ => During sb W G t true m D :=
  (Files.tr_unlockput (.inl hG) hK hip).and (Files.inOp_iunlockput ip t)

theorem tr_endOp : Tr W (During sb W G t true m D) endOp fun _ => During sb W G t false m D :=
  Files.tr_endOp.and (Files.tri_endOp t)

end Kern

/-! ## The file system's view -/

section View

variable {L} {sb} {α β : Type}

variable {s s' : Sys} {ip : ℕ} {path : List Byte} {args : List ℕ} {c : ℕ → ℕ → Raw}

theorem run_bind_inv {x : X α} {f : α → X β} {b : β} (h : (x >>= f) s = .ok (b, s')) :
    ∃ a s1, x s = .ok (a, s1) ∧ f a s1 = .ok (b, s') := by
  cases hx : x s with
  | ok r =>
    rw [run_bind hx] at h
    exact ⟨r.1, r.2, rfl, h⟩
  | error e =>
    have : (x >>= f) s = (x s >>= fun r => f r.1 r.2) := rfl
    rw [this, hx] at h
    exact absurd h nofun

theorem fs_inv {x : K α} {a : α} (h : fs x s = .ok (a, s')) : x s.kern = .ok (a, s'.kern) := by
  unfold fs at h
  cases hx : x s.kern with
  | ok r =>
    rw [hx] at h
    cases h
    rfl
  | error e =>
    rw [hx] at h
    cases h

theorem vm_inv {f : Kmem → Except Mem.Panic (α × Kmem)} {a : α} (h : vm f s = .ok (a, s')) : s'.kern = s.kern := by
  unfold vm at h
  cases hx : f s.mem.kmem with
  | ok r =>
    rw [hx] at h
    cases h
    rfl
  | error e =>
    rw [hx] at h
    cases h

theorem loaduvm_kern {pgdir : Space} {addr off sz : ℕ} {b : Bool} (js : List ℕ) : ∀ {s : Sys},
    loaduvm sb ip pgdir addr off sz js s = .ok (b, s') → Files.loadPages sb ip off sz js s.kern = .ok (b, s'.kern) := by
  induction js with
  | nil =>
    intro s h
    cases h
    rfl
  | cons j js ih =>
    intro s h
    unfold loaduvm at h
    cases ht : pgdir.tab ((addr / 4096 + j) / 1024) with
    | none =>
      rw [ht] at h
      cases h
    | some t =>
      rw [ht] at h
      obtain ⟨u, s1, h1, h⟩ := run_bind_inv h
      obtain ⟨r, s2, h2, h⟩ := run_bind_inv h
      cases h1
      unfold Files.loadPages
      rw [run_bind (fs_inv h2)]
      cases r with
      | none =>
        cases h
        rfl
      | some l =>
        dsimp only at h ⊢
        split_ifs at h ⊢
        · cases h
          rfl
        · exact ih h

theorem loadHeaders_congr {off : ℕ} {mem mem' : ℕ → Bool} {js : List ℕ} (h : ∀ j ∈ js, mem j = mem' j) :
    Files.loadHeaders sb ip off mem js = Files.loadHeaders sb ip off mem' js := by
  induction js with
  | nil => rfl
  | cons j js ih =>
    unfold Files.loadHeaders
    rw [ih fun j hj => h j (mem_cons_of_mem _ hj), h j mem_cons_self]

theorem loadSegments_kern {off : ℕ} {r : Option ℕ × Space} (js : List ℕ) (hjs : js.Nodup) :
    ∀ {pgdir : Space} {sz : ℕ} {s : Sys}, loadSegments L sb ip off pgdir sz js s = .ok (r, s') →
      ∃ mem, Files.loadHeaders sb ip off mem js s.kern = .ok (r.1.isSome, s'.kern) := by
  induction js with
  | nil =>
    intro pgdir sz s h
    cases h
    exact ⟨fun _ => true, rfl⟩
  | cons j js ih =>
    intro pgdir sz s h
    obtain ⟨hj, hnd⟩ := nodup_cons.1 hjs
    unfold loadSegments at h
    obtain ⟨x, s1, h1, h⟩ := run_bind_inv h
    -- the answer of allocuvm for j does not matter to the headers after it
    have hset : ∀ {b : Bool} (mem : ℕ → Bool),
        Files.loadHeaders sb ip off mem js = Files.loadHeaders sb ip off (update mem j b) js := fun mem =>
      loadHeaders_congr fun i hi => (update_of_ne (show i ≠ j from fun h => hj (h ▸ hi)) _ _).symm
    unfold Files.loadHeaders
    cases x with
    | none =>
      cases h
      exact ⟨fun _ => true, by rw [run_bind (fs_inv h1)]; rfl⟩
    | some ph =>
      suffices hgo : ∃ mem : ℕ → Bool, (if ph.length ≠ 32 then return false
          else if field ph 0 4 ≠ 1 then Files.loadHeaders sb ip off mem js
          else if field ph 20 4 < field ph 16 4 then return false
          else if (field ph 8 4 + field ph 20 4) % 2 ^ 32 < field ph 8 4 then return false
          else if mem j = false then return false
          else if field ph 8 4 % 4096 ≠ 0 then return false
          else do
            let ok ← Files.loadPages sb ip (field ph 4 4) (field ph 16 4) (List.range ((field ph 16 4 + 4095) / 4096))
            if ok then Files.loadHeaders sb ip off mem js else return false : K Bool) s1.kern = .ok (r.1.isSome, s'.kern) by
        obtain ⟨mem, hmem⟩ := hgo
        exact ⟨mem, by rw [run_bind (fs_inv h1)]; exact hmem⟩
      dsimp only at h
      by_cases h2 : ph.length ≠ 32
      · rw [if_pos h2] at h
        cases h
        exact ⟨fun _ => true, by rw [if_pos h2]; rfl⟩
      rw [if_neg h2] at h
      by_cases h3 : field ph 0 4 ≠ 1
      · rw [if_pos h3] at h
        obtain ⟨mem, hmem⟩ := ih hnd h
        exact ⟨mem, by rw [if_neg h2, if_pos h3]; exact hmem⟩
      rw [if_neg h3] at h
      by_cases h4 : field ph 20 4 < field ph 16 4
      · rw [if_pos h4] at h
        cases h
        exact ⟨fun _ => true, by rw [if_neg h2, if_neg h3, if_pos h4]; rfl⟩
      rw [if_neg h4] at h
      by_cases h5 : (field ph 8 4 + field ph 20 4) % 2 ^ 32 < field ph 8 4
      · rw [if_pos h5] at h
        cases h
        exact ⟨fun _ => true, by rw [if_neg h2, if_neg h3, if_neg h4, if_pos h5]; rfl⟩
      rw [if_neg h5] at h
      obtain ⟨a, s2, h6, h⟩ := run_bind_inv h
      have hk := vm_inv h6
      by_cases h7 : a.1 = 0
      · rw [if_pos h7] at h
        cases h
        exact ⟨fun _ => false, by rw [if_neg h2, if_neg h3, if_neg h4, if_neg h5, if_pos rfl, ← hk]; rfl⟩
      rw [if_neg h7] at h
      by_cases h8 : field ph 8 4 % 4096 ≠ 0
      · rw [if_pos h8] at h
        cases h
        refine ⟨fun _ => true, ?_⟩
        rw [if_neg h2, if_neg h3, if_neg h4, if_neg h5, if_neg (by simp), if_pos h8, ← hk]
        rfl
      rw [if_neg h8] at h
      obtain ⟨ok, s3, h9, h⟩ := run_bind_inv h
      have hload := loaduvm_kern _ h9
      rw [hk] at hload
      cases ok with
      | false =>
        cases h
        refine ⟨fun _ => true, ?_⟩
        rw [if_neg h2, if_neg h3, if_neg h4, if_neg h5, if_neg (by simp), if_neg h8, run_bind hload]
        rfl
      | true =>
        obtain ⟨mem, hmem⟩ := ih hnd h
        refine ⟨update mem j true, ?_⟩
        rw [if_neg h2, if_neg h3, if_neg h4, if_neg h5, if_neg (by simp), if_neg h8, run_bind hload, if_pos rfl, ← hset]
        exact hmem

theorem bad_kern {pgdir : Option Space} {r : ℤ} (h : bad L sb ip pgdir s = .ok (r, s')) :
    Files.execBad sb ip s.kern = .ok (r, s'.kern) := by
  obtain ⟨u, s1, h1, h⟩ := run_bind_inv h
  have hk : s1.kern = s.kern := by
    cases pgdir with
    | none =>
      cases h1
      rfl
    | some sp =>
      unfold freePgdir at h1
      exact vm_inv h1
  rw [← hk]
  exact fs_inv h

theorem commit_kern {entry sz : ℕ} {pgdir : Space}
    {r : ℤ} (h : commit L path entry pgdir sz args s = .ok (r, s')) :
    s'.kern = s.kern ∧ ∃ image : Bool, r = if image then 0 else -1 := by
  unfold commit at h
  split at h
  · cases h
  · cases h
    exact ⟨rfl, false, rfl⟩
  · cases h
    exact ⟨rfl, true, rfl⟩

theorem files_exec_eq (p : ℕ) (path : List Byte) (kvm : Bool) (mem : ℕ → Bool) (image : Bool) :
    Files.exec sb p path kvm mem image = (readHeader sb p path >>= fun x => match x with
      | none => failOp
      | some (ip, none) => Files.execBad sb ip
      | some (ip, some elf) =>
        if elf.length ≠ 52 then Files.execBad sb ip
        else if field elf 0 4 ≠ 0x464C457F then Files.execBad sb ip
        else if kvm = false then Files.execBad sb ip
        else do
          let ok ← Files.loadHeaders sb ip (field elf 28 4) mem (List.range (field elf 44 2))
          if ok then do
            iunlockput sb ip
            endOp
            return if image then 0 else -1
          else Files.execBad sb ip) := by
  unfold Files.exec readHeader
  simp only [bind_assoc]
  congr 1
  funext _
  congr 1
  funext y
  cases y with
  | none => rfl
  | some ip =>
    simp only [bind_assoc, pure_bind]
    congr 1
    funext _
    congr 1
    funext z
    cases z <;> rfl

/-- **exec does to the file system what `Files.exec` does**, for some answers of the allocator. -/
theorem exec_kern {p : ℕ} {r : ℤ} (h : exec L sb p path args s = .ok (r, s')) :
    ∃ kvm mem image, Files.exec sb p path kvm mem image s.kern = .ok (r, s'.kern) := by
  unfold exec at h
  obtain ⟨x, s1, h1, h⟩ := run_bind_inv h
  simp only [files_exec_eq, run_bind (fs_inv h1)]
  rcases x with _ | ⟨ip, _ | elf⟩
  · exact ⟨true, fun _ => true, true, fs_inv h⟩
  · exact ⟨true, fun _ => true, true, bad_kern h⟩
  · dsimp only at h ⊢
    by_cases h2 : elf.length ≠ 52
    · rw [if_pos h2] at h
      exact ⟨true, fun _ => true, true, by rw [if_pos h2]; exact bad_kern h⟩
    rw [if_neg h2] at h
    by_cases h3 : field elf 0 4 ≠ 0x464C457F
    · rw [if_pos h3] at h
      exact ⟨true, fun _ => true, true, by rw [if_neg h2, if_pos h3]; exact bad_kern h⟩
    rw [if_neg h3] at h
    obtain ⟨y, s2, h4, h⟩ := run_bind_inv h
    have hk := vm_inv h4
    cases y with
    | none =>
      refine ⟨false, fun _ => true, true, ?_⟩
      rw [if_neg h2, if_neg h3, if_pos rfl, ← hk]
      exact bad_kern h
    | some pgdir =>
      obtain ⟨⟨o, pgdir'⟩, s3, h5, h⟩ := run_bind_inv h
      obtain ⟨mem, hmem⟩ := loadSegments_kern _ nodup_range h5
      rw [hk] at hmem
      cases o with
      | none =>
        refine ⟨true, mem, true, ?_⟩
        rw [if_neg h2, if_neg h3, if_neg (by simp), run_bind hmem]
        exact bad_kern h
      | some sz =>
        obtain ⟨u, s4, h6, h⟩ := run_bind_inv h
        obtain ⟨u', s5, h7, h⟩ := run_bind_inv h
        obtain ⟨hk5, image, rfl⟩ := commit_kern h
        refine ⟨true, mem, image, ?_⟩
        rw [if_neg h2, if_neg h3, if_neg (by simp), run_bind hmem]
        show (iunlockput sb ip >>= fun _ => endOp >>= fun _ => pure (if image then 0 else -1)) s3.kern = _
        rw [run_bind (fs_inv h6), run_bind (fs_inv h7), hk5]
        rfl

/-- and so leaves the file system in a state that calls lead to -/
theorem exec_reach {start : Kern → Prop} {p : ℕ}
    {r : ℤ} (hreach : Files.Reach sb start s.kern) (hused : (s.kern.proc p).state = .used)
    (h : exec L sb p path args s = .ok (r, s')) : Files.Reach sb start s'.kern := by
  obtain ⟨kvm, mem, image, hrun⟩ := exec_kern h
  exact .call (.exec path kvm mem image) hreach hused hrun

end View

/-! ## exec -/

/-- what exec leaves of memory and process when it returns r -/
structure Outcome (L : Layout) (M0 : Memory) (r : ℤ) (M : Memory) : Prop where
  wrote : ∀ p ∈ M.wrote, p ∈ M0.wrote ∨ p ∈ M0.kmem.freelist
  cases : r = -1 ∧ M.proc = M0.proc ∧ (M.kmem.freelist : Multiset ℕ) = M0.kmem.freelist ∨
    r = 0 ∧ M.proc.image.Ok L ∧ Full M.proc.image.space (numPages M.proc.image.sz) ∧
      M.proc.image.space.pages ≤ M0.kmem.freelist ∧
      (M.kmem.freelist : Multiset ℕ) + M.proc.image.space.pages = M0.kmem.freelist + M0.proc.image.space.pages

theorem Owns.outcome {L : Layout} {M0 M : Memory} (h : Owns M0 0 M) : Outcome L M0 (-1) M :=
  ⟨h.wrote, .inl ⟨rfl, h.proc, by rw [← h.pages, add_zero]⟩⟩

section Run

variable {L} {sb} {W : Prop} {H : Kern → Prop} {G : Frame} {t : List LogEv} {m : Multiset ℕ} {D : Finset ℕ} {M0 : Memory}
variable (hok : M0.proc.image.Ok L) (hfine : Fine L (M0.kmem.freelist + M0.proc.image.space.pages))

include hok hfine in
theorem tr_commit (path : List Byte) (entry : ℕ) {pgdir : Space} {sz : ℕ} (hnew : Image.Ok L ⟨pgdir, sz⟩)
    (hfull : Full pgdir (numPages sz)) {args : List ℕ} (hargs : ∀ len ∈ args, len < M0.proc.image.sz) :
    TrX W (On H (Owns M0 pgdir.pages)) (commit L path entry pgdir sz args) fun r => On H (Outcome L M0 r) := by
  rintro s ⟨hH, hM⟩
  unfold commit
  rw [hM.proc]
  rcases Mem.finish_spec hok hfine hnew hfull hM.pages fun len hlen => (hargs len hlen).trans hok.lt with
    ⟨b, k, im, l, hrun, hl, hfail, hdone⟩ | ⟨hrun, -⟩
  · have hwrote : ∀ p ∈ l ++ s.mem.wrote, p ∈ M0.wrote ∨ p ∈ M0.kmem.freelist := by
      intro p hp
      rcases mem_append.1 hp with hp | hp
      · exact .inr (Multiset.mem_coe.1 (hl p hp))
      · exact hM.wrote p hp
    rw [hrun]
    cases b with
    | false =>
      obtain ⟨him, hk⟩ := hfail rfl
      refine ⟨hH, hwrote, .inl ⟨rfl, ?_, hk⟩⟩
      dsimp only
      rw [him]
    | true =>
      obtain ⟨him, hfull', -, hle, hacc⟩ := hdone rfl
      exact ⟨hH, hwrote, .inr ⟨rfl, him, hfull', hle, hacc⟩⟩
  · rw [hrun]
    rfl

include hok hfine in
/-- **exec**, from any state of the file system and any free pages. -/
theorem tr_exec (hG : G.Free) (hK : G.Kept m) {p : ℕ} (hp : G.Home p) (path : List Byte) {args : List ℕ}
    (hargs : ∀ len ∈ args, len < M0.proc.image.sz) :
    TrX W (On (During sb W G t false m D) (Owns M0 0)) (exec L sb p path args) fun r =>
      On (During sb W G t false m D) (Outcome L M0 r) := by
  have hfree : Fine L (M0.kmem.freelist : Multiset ℕ) := hfine.of_le (Multiset.le_add_right _ _)
  refine .bind (on_fs (tr_readHeader hG hK hp path)) fun r => ?_
  rcases r with _ | ⟨ip, elf⟩
  · exact .conseq (on_fs tr_failOp) (fun _ => id) fun r s h => ⟨h.1.2, h.1.1 ▸ h.2.outcome⟩
  · refine .extract (fun _ h => h.1.1) fun hip => .conseq
      (P := On (During sb W G t true (ip ::ₘ m) (insert ip D)) (Owns M0 0)) ?_ (fun _ h => ⟨h.1.2, h.2⟩) fun _ _ => id
    -- the label bad, with and without a new address space
    have hclose : TrX W (On (During sb W G t true (ip ::ₘ m) (insert ip D)) (Owns M0 0)) (fs (Files.execBad sb ip)) fun r =>
        On (During sb W G t false m D) (Outcome L M0 r) :=
      .conseq (on_fs ((tr_close hG hK hip).bind fun _ => tr_failOp)) (fun _ => id) fun r s h =>
        ⟨h.1.2, h.1.1 ▸ h.2.outcome⟩
    have hnone : TrX W (On (During sb W G t true (ip ::ₘ m) (insert ip D)) (Owns M0 0)) (bad L sb ip none) fun r =>
        On (During sb W G t false m D) (Outcome L M0 r) :=
      .bind (Q := fun _ => On (During sb W G t true (ip ::ₘ m) (insert ip D)) (Owns M0 0)) (.pure fun _ => id)
        fun _ => hclose
    have hread : ∀ off n, n < 2 ^ 32 → Tr W (During sb W G t true (ip ::ₘ m) (insert ip D)) (readi sb ip off n) fun _ =>
        During sb W G t true (ip ::ₘ m) (insert ip D) := fun off n hn =>
      (Files.tr_readi (.inl hG) (Finset.mem_insert_self _ _) off hn).and (Files.inOp_readi ip off n t)
    cases elf with
    | none => exact hnone
    | some elf =>
      refine .ite (fun _ => hnone) fun _ => .ite (fun _ => hnone) fun _ => ?_
      refine .bind (on_vm (S := fun r M => r.elim (Owns M0 0 M) fun s =>
        (Image.Ok L ⟨s, 0⟩ ∧ Full s (numPages 0)) ∧ Owns M0 s.pages M) fun M hM => ?_) fun r => ?_
      · have hM0 : (M.kmem.freelist : Multiset ℕ) = M0.kmem.freelist := by rw [← hM.pages, add_zero]
        obtain ⟨r, k, hrun, hr, hs, -⟩ := Mem.setupkvm_spec L M.kmem (by rw [hM0]; exact hfree)
        refine ⟨r, k, hrun, ?_⟩
        cases r with
        | none => exact ⟨by rw [add_zero, ← hM0]; exact hr rfl, hM.proc, hM.wrote⟩
        | some s =>
          obtain ⟨hacc, hs, hkvm, hempty⟩ := hs s rfl
          exact ⟨⟨.empty hs hkvm hempty, Mem.full_zero s⟩, hacc.trans hM0, hM.proc, hM.wrote⟩
      · cases r with
        | none => exact hnone
        | some pgdir =>
          refine .extract (fun _ h => h.2.1) fun hpg => .conseq
            (P := On (During sb W G t true (ip ::ₘ m) (insert ip D)) (Owns M0 pgdir.pages)) ?_ (fun _ h => ⟨h.1, h.2.2⟩)
            fun _ _ => id
          refine .bind (tr_loadSegments hfree hread _ _ hpg.1 hpg.2) fun r => ?_
          obtain ⟨r, pgdir⟩ := r
          refine .extract (fun _ h => h.1) fun hr => .conseq ?_ (fun _ h => h.2) fun _ _ => id
          cases r with
          | none => exact (tr_freePgdir hfree hr.1).bind fun _ => hclose
          | some sz =>
            obtain ⟨hnew, hfull⟩ := hr.2 sz rfl
            refine .bind (on_fs (tr_close hG hK hip)) fun _ => .bind (on_fs tr_endOp) fun _ => ?_
            exact tr_commit hok hfine path _ hnew hfull hargs

end Run

/-- nothing happens to the file table and to the directories and descriptors of processes -/
def Same (F : ℕ → Files.File) (P : ℕ → Files.Proc) : Frame := ⟨fun _ _ F' _ P' => F' = F ∧ P' = P, fun _ => none⟩

/-- **exec is all or nothing.** In every state of the file system that calls lead to, from any disk, and with memory as any run
leaves it; for every path, every file, every failure of kalloc and every argv that sys_exec accepts: vm.c stops the kernel at
most in uva2ka. When exec returns, the file system is again in such a state, no inode has more references than before or is
locked, the transaction is closed, and only pages that were free have been written to. If it returns -1 the process is as it
was and the same pages are free. If it returns 0 the new image consists of pages that were free, and the pages of the old one
have come to the free list, each once. -/
theorem exec_all_or_nothing (L : Layout) (sb : Superblock) (data : Store) (dinode : ℕ → Dinode) (others : ℕ) (t : Mem.State)
    (s : Sys) (p i : ℕ) (q : Mem.Proc) (hkern : Files.Reach sb (fun k => k = Files.boot data dinode) s.kern)
    (hused : (s.kern.proc p).state = .used) (hmem : Mem.Reach L others (fun _ _ => True) t) (hq : t.procs i = some q)
    (hfree : s.mem.kmem.freelist = t.freelist) (himage : s.mem.proc.image = q.image) (path : List Byte) (args : List ℕ)
    (hargs : Accepted q.image.sz args) : (∀ e, exec L sb p path args s = .error (.vm e) → e = .trap) ∧
    ∀ r s', exec L sb p path args s = .ok (r, s') →
      (r = -1 ∨ r = 0) ∧ Files.Reach sb (fun k => k = Files.boot data dinode) s'.kern ∧
      (∀ k, (s'.kern.icache k).ref = (s.kern.icache k).ref ∧ (s'.kern.icache k).locked = false) ∧
      s'.kern.file = s.kern.file ∧ s'.kern.proc = s.kern.proc ∧
      (∃ ev, s'.kern.disk.trace = ev ++ s.kern.disk.trace ∧ openAfter ev = some false) ∧
      (∀ x ∈ s'.mem.wrote, x ∈ s.mem.wrote ∨ x ∈ s.mem.kmem.freelist) ∧
      (r = -1 → s'.mem.proc = s.mem.proc ∧ (s'.mem.kmem.freelist : Multiset ℕ) = s.mem.kmem.freelist) ∧
      (r = 0 → s'.mem.proc.image.Ok L ∧ s'.mem.proc.image.space.pages ≤ s.mem.kmem.freelist ∧ s'.mem.kmem.freelist.Nodup ∧
        (s'.mem.kmem.freelist : Multiset ℕ) =
          s.mem.kmem.freelist - s'.mem.proc.image.space.pages + s.mem.proc.image.space.pages) := by
  have hset : Settled sb False s.kern := Files.reach_settled nofun hkern
  have hruns := hset.runs hused
  have hinv := Mem.reach_inv hmem
  obtain ⟨hi, hok⟩ := hinv.procs i q hq
  have hle := Mem.image_le_roles hi hq
  have hfine := hinv.fine.of_le hle
  have hnodup := Multiset.nodup_of_le hle hinv.nodup
  rw [← himage] at hok
  rw [← hfree, ← himage] at hfine hnodup
  have hrun := tr_exec (W := False) (G := Same s.kern.file s.kern.proc) (m := 0) (D := ∅) (t := s.kern.disk.trace)
    hok hfine (fun _ _ _ _ _ _ _ => id) (fun _ _ h => absurd h (by simp [Same])) (p := p)
    (fun _ _ _ _ _ h => h.2 ▸ ⟨hruns.lt, hruns.cwd⟩) path (fun len hlen => by rw [himage]; exact hargs.2 len hlen) s
    ⟨⟨⟨hset.1, rfl, rfl⟩, ⟨[], rfl, rfl⟩, Files.reach_clean hkern⟩, Owns.refl _⟩
  refine ⟨fun e he => ?_, fun r s' hs' => ?_⟩
  · rw [he] at hrun
    exact hrun
  · rw [hs'] at hrun
    obtain ⟨⟨⟨hcore, hfile, hproc⟩, htrace, -⟩, hout⟩ := hrun
    refine ⟨hout.cases.imp And.left And.left, exec_reach hkern hused hs', fun k => ⟨?_, ?_⟩, hfile, hproc, htrace, hout.wrote,
      fun hr => ?_, fun hr => ?_⟩
    · rw [hcore.refs, hset.1.refs, hfile, hproc]
    · exact Bool.eq_false_iff.2 fun hl => absurd ((hcore.locks k).1 hl) (Finset.notMem_empty k)
    · rcases hout.cases with h | h
      · exact h.2
      · exact absurd (hr.symm.trans h.1) (by decide)
    · rcases hout.cases with h | ⟨-, hnew, -, hsub, hacc⟩
      · exact absurd (hr.symm.trans h.1) (by decide)
      · refine ⟨hnew, hsub, ?_, ?_⟩
        · rw [← hacc] at hnodup
          exact Multiset.coe_nodup.1 (Multiset.nodup_add.1 hnodup).1
        · rw [tsub_add_eq_add_tsub hsub, ← hacc, add_tsub_cancel_right]

/-! ## A run without memory -/

/-- an ELF header without program headers -/
def plainHeader : List Byte := [0x7f, 0x45, 0x4c, 0x46] ++ List.replicate 48 0

/-- a disk with one file, a, that consists of this header -/
def elfData : Store := fun b =>
  if b = 63 then
    (((Bytes.zero BSIZE).set 0 1).set 2 0x2e |>.set 16 1 |>.set 18 0x2e |>.set 19 0x2e |>.set 32 2 |>.set 34 0x61)
  else if b = 64 then (((Bytes.zero BSIZE).set 0 0x7f).set 1 0x45 |>.set 2 0x4c |>.set 3 0x46)
  else Files.freshData b

def elfInodes (i : ℕ) : Dinode :=
  if i = 2 then ⟨.file, 0, 0, 1, 52, fun k => if k.val = 0 then 64 else 0⟩ else Files.freshInodes i

/-- exec("a") on this disk reads the header, and can give the inode back -/
theorem header_runs : ∃ k1 k2 k3,
    readHeader mkfsSuper 0 [0x61] (Files.boot elfData elfInodes) = .ok (some (1, some plainHeader), k1) ∧
    iunlockput mkfsSuper 1 k1 = .ok ((), k2) ∧ endOp k2 = .ok ((), k3) := by
  have hread : (readHeader mkfsSuper 0 [0x61] (Files.boot elfData elfInodes)).toOption.map Prod.fst =
      some (some (1, some plainHeader)) := by
    decide +kernel
  have hput : ((readHeader mkfsSuper 0 [0x61] >>= fun _ => iunlockput mkfsSuper 1)
      (Files.boot elfData elfInodes)).isOk = true := by
    decide +kernel
  cases hr : readHeader mkfsSuper 0 [0x61] (Files.boot elfData elfInodes) with
  | error e =>
    rw [hr] at hread
    cases hread
  | ok x =>
    rw [hr] at hread
    have hx := Option.some.inj hread
    have hput : (iunlockput mkfsSuper 1 x.2).isOk = true := by
      rw [← run_bind (f := fun _ => iunlockput mkfsSuper 1) hr]
      exact hput
    cases hk : iunlockput mkfsSuper 1 x.2 with
    | error e =>
      rw [hk] at hput
      cases hput
    | ok y => exact ⟨x.2, y.2, _, by rw [← hx], hk, rfl⟩

theorem exec_header {L : Layout} {M : Memory} (args : List ℕ) {k1 : Kern}
    (h : readHeader mkfsSuper 0 [0x61] (Files.boot elfData elfInodes) = .ok (some (1, some plainHeader), k1)) :
    exec L mkfsSuper 0 [0x61] args ⟨Files.boot elfData elfInodes, M⟩ =
      (vm (setupkvm L) >>= fun r => match r with
        | none => bad L mkfsSuper 1 none
        | some pgdir => do
          fs (iunlockput mkfsSuper 1)
          fs endOp
          commit L [0x61] 0 pgdir 0 args) ⟨k1, M⟩ := by
  have h1 : plainHeader.length = 52 := by decide
  have h2 : field plainHeader 0 4 = 0x464C457F := by decide
  have h3 : List.range (field plainHeader 44 2) = [] := by decide
  have h4 : field plainHeader 24 4 = 0 := by decide
  unfold exec
  rw [run_bind (fs_run h)]
  dsimp only
  rw [if_neg (not_not.2 h1), if_neg (not_not.2 h2), h3, h4]
  rfl

/-- Without memory, exec("a") of init returns -1 and has changed nothing. -/
theorem exec_without_memory : ∃ (s s' : Sys) (ev : List LogEv),
    exec Mem.exampleLayout mkfsSuper 0 [0x61] [5] s =
      .ok (-1, s') ∧ s'.mem.proc = s.mem.proc ∧ (s'.mem.kmem.freelist : Multiset ℕ) = s.mem.kmem.freelist ∧
    s'.kern.disk.trace = ev ++ s.kern.disk.trace ∧ openAfter ev = some false := by
  obtain ⟨t, q, hb⟩ := Mem.booted
  obtain ⟨k1, k2, k3, hread, hput, hend⟩ := header_runs
  have hrun : exec Mem.exampleLayout mkfsSuper 0 [0x61] [5]
      ⟨Files.boot elfData elfInodes, ⟨t.freelist, fun _ => false⟩, ⟨q.image, 0, 0, []⟩, []⟩ =
      .ok (-1, ⟨k3, ⟨t.freelist, fun _ => false⟩, ⟨q.image, 0, 0, []⟩, []⟩) := by
    rw [exec_header _ hread]
    have hbad : Files.execBad mkfsSuper 1 k1 = .ok (-1, k3) := by
      unfold Files.execBad failOp
      rw [run_bind hput, run_bind hend]
      rfl
    have hvm : vm (setupkvm Mem.exampleLayout) ⟨k1, ⟨t.freelist, fun _ => false⟩, ⟨q.image, 0, 0, []⟩, []⟩ =
        .ok (none, ⟨k1, ⟨t.freelist, fun _ => false⟩, ⟨q.image, 0, 0, []⟩, []⟩) := by
      unfold vm setupkvm
      rfl
    rw [run_bind hvm]
    exact fs_run hbad
  obtain ⟨-, hthm⟩ := exec_all_or_nothing Mem.exampleLayout mkfsSuper elfData elfInodes 0 t
    ⟨Files.boot elfData elfInodes, ⟨t.freelist, fun _ => false⟩, ⟨q.image, 0, 0, []⟩, []⟩ 0 0 q
    (.start rfl) rfl (.boot hb.boot) hb.proc rfl rfl
    [0x61] [5] ⟨by decide, by simp [hb.size]⟩
  obtain ⟨-, -, -, -, -, ⟨ev, htrace, hopen⟩, -, hfail, -⟩ := hthm _ _ hrun
  exact ⟨_, _, ev, hrun, (hfail rfl).1, (hfail rfl).2, htrace, hopen⟩

end Xv6.Exec
