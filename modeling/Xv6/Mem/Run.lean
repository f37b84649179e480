/-
Runs of fork, exec, sbrk, exit, wait, pipe and close over the physical pages.

A state says where every page is: on the free list, with a process (kernel stack and address space), in a pipe, in kpgdir, or
the stack another CPU started on. A call is one step, with the calls of kalloc that fail chosen by an oracle. Which ZOMBIE
wait finds and which pipe end is closed for the last time are given.

Results:
- `call_spec`: a call keeps every page in one role; only fork and exec can stop the kernel, fork if a page below sz is missing
  and exec at an argument pushed to an address without a page table;
- `boot_inv`, `boot_exists`: userinit sets up such a state, if there is enough memory;
- `reach_inv`, `reach_complete`: what holds in every run.
-/
import Xv6.Mem.Exec

namespace Xv6.Mem

open Lib Multiset List
open Multiset (le_cons_self nodup_of_le cons_coe mem_cons_self add_cons cons_add singleton_add card_add coe_card)

/-! ## Model -/

/-- a process as far as memory is concerned -/
structure Proc where
  kstack : ℕ
  image : Image
  zombie : Bool

structure PipeBuf where
  page : ℕ
  readopen : Bool
  writeopen : Bool

structure State where
  freelist : List ℕ
  /-- the slots that are not UNUSED -/
  procs : ℕ → Option Proc
  pipes : List PipeBuf
  kpgdir : Space
  /-- the stacks of the CPUs that startothers started -/
  cpuStacks : List ℕ

inductive Act where
  | fork (i : ℕ) (grant : ℕ → Bool)
  | sbrk (i : ℕ) (n : Word) (grant : ℕ → Bool)
  | exec (i : ℕ) (file : ElfFile) (args : List ℕ) (grant : ℕ → Bool)
  | exit (i : ℕ)
  | wait (child : ℕ)
  /-- files and fds: whether filealloc and fdalloc succeed -/
  | pipe (files fds : Bool) (grant : ℕ → Bool)
  | close (j : ℕ) (writable : Bool)

/-- the process in slot i, unless it has exited -/
def State.live (s : State) (i : ℕ) : Option Proc := (s.procs i).filter fun p => !p.zombie

def State.unused (s : State) : Option ℕ := (List.range NPROC).find? fun j => (s.procs j).isNone

/-- fork of process p into slot np -/
def forkInto (L : Layout) (s : State) (p : Proc) (np : ℕ) (grant : ℕ → Bool) : Except Panic State :=
  match kalloc ⟨s.freelist, grant⟩ with
  | (none, k) => .ok { s with freelist := k.freelist }
  | (some kstack, k) =>
    match copyuvm L k p.image.space p.image.sz with
    | .error e => .error e
    | .ok (none, k) =>
      match kfree L k kstack with
      | .error e => .error e
      | .ok k => .ok { s with freelist := k.freelist }
    | .ok (some d, k) =>
      .ok { s with
        freelist := k.freelist
        procs := update s.procs np (some ⟨kstack, ⟨d, p.image.sz⟩, false⟩) }

/-- wait gives back the memory of the ZOMBIE p in slot j -/
def reapChild (L : Layout) (s : State) (j : ℕ) (p : Proc) : Except Panic State :=
  match kfree L ⟨s.freelist, fun _ => true⟩ p.kstack with
  | .error e => .error e
  | .ok k =>
    match freevm L k p.image.space with
    | .error e => .error e
    | .ok k => .ok { s with freelist := k.freelist, procs := update s.procs j none }

/-- pipealloc and the rest of sys_pipe -/
def makePipe (L : Layout) (s : State) (fds : Bool) (grant : ℕ → Bool) : Except Panic State :=
  match kalloc ⟨s.freelist, grant⟩ with
  | (none, k) => .ok { s with freelist := k.freelist }
  | (some page, k) =>
    if fds then .ok { s with freelist := k.freelist, pipes := ⟨page, true, true⟩ :: s.pipes }
    else
      match kfree L k page with
      | .error e => .error e
      | .ok k => .ok { s with freelist := k.freelist }

/-- pipeclose of the pipe q at position j -/
def pipeclose (L : Layout) (s : State) (j : ℕ) (q : PipeBuf) (writable : Bool) : Except Panic State :=
  let q := if writable then { q with writeopen := false } else { q with readopen := false }
  if q.readopen = false ∧ q.writeopen = false then
    match kfree L ⟨s.freelist, fun _ => true⟩ q.page with
    | .error e => .error e
    | .ok k => .ok { s with freelist := k.freelist, pipes := s.pipes.eraseIdx j }
  else .ok { s with pipes := s.pipes.set j q }

def sysFork (L : Layout) (s : State) (i : ℕ) (grant : ℕ → Bool) : Except Panic State :=
  match s.live i with
  | none => .ok s
  | some p =>
    match s.unused with
    | none => .ok s
    | some np => forkInto L s p np grant

def sysSbrk (L : Layout) (s : State) (i : ℕ) (n : Word) (grant : ℕ → Bool) : Except Panic State :=
  match s.live i with
  | none => .ok s
  | some p =>
    match growproc L ⟨s.freelist, grant⟩ p.image n.toInt with
    | .error e => .error e
    | .ok (k, m, _) =>
      .ok { s with freelist := k.freelist, procs := update s.procs i (some { p with image := m }) }

def sysExec (L : Layout) (s : State) (i : ℕ) (file : ElfFile) (args : List ℕ) (grant : ℕ → Bool) : Except Panic State :=
  match s.live i with
  | none => .ok s
  | some p =>
    -- fetchstr: the strings lie in the caller's memory
    if args.all fun len => len < p.image.sz then
      match exec L ⟨s.freelist, grant⟩ p.image file args with
      | .error e => .error e
      | .ok (k, m, _) =>
        .ok { s with freelist := k.freelist, procs := update s.procs i (some { p with image := m }) }
    else .ok s

def sysExit (s : State) (i : ℕ) : Except Panic State :=
  match s.live i with
  | none => .ok s
  | some p => .ok { s with procs := update s.procs i (some { p with zombie := true }) }

def sysWait (L : Layout) (s : State) (j : ℕ) : Except Panic State :=
  match s.procs j with
  | none => .ok s
  | some p => if p.zombie then reapChild L s j p else .ok s

def sysPipe (L : Layout) (s : State) (files fds : Bool) (grant : ℕ → Bool) : Except Panic State :=
  if files then makePipe L s fds grant else .ok s

def sysClose (L : Layout) (s : State) (j : ℕ) (writable : Bool) : Except Panic State :=
  match s.pipes[j]? with
  | none => .ok s
  | some q => if (if writable then q.writeopen else q.readopen) then pipeclose L s j q writable else .ok s

def call (L : Layout) (s : State) : Act → Except Panic State
  | .fork i grant => sysFork L s i grant
  | .sbrk i n grant => sysSbrk L s i n grant
  | .exec i file args grant => sysExec L s i file args grant
  | .exit i => sysExit s i
  | .wait j => sysWait L s j
  | .pipe files fds grant => sysPipe L s files fds grant
  | .close j writable => sysClose L s j writable

/-- the machine after userinit; kinit1 and kinit2 are one -/
def boot (L : Layout) (others : ℕ) : Option State :=
  match setupkvm L ⟨(List.range' L.first (PHYSTOP - L.first)).reverse, fun _ => true⟩ with
  | .ok (some kpgdir, k0) =>
    match kalloc ⟨k0.freelist.drop others, k0.grant⟩ with
    | (some kstack, k) =>
      match setupkvm L k with
      | .ok (some s, k) =>
        match kalloc k with
        | (some mem, k) =>
          match mappages k s 0 mem true true 1 with
          | .ok (true, k, s) =>
            some {
              freelist := k.freelist
              procs := update (fun _ => none) 0 (some ⟨kstack, ⟨s, PGSIZE⟩, false⟩)
              pipes := []
              kpgdir := kpgdir
              cpuStacks := k0.freelist.take others }
          | _ => none
        | _ => none
      | _ => none
    | _ => none
  | _ => none

inductive Reach (L : Layout) (others : ℕ) (guard : State → Act → Prop) : State → Prop where
  | boot {s} (h : boot L others = some s) : Reach L others guard s
  | step {s s' a} (h : Reach L others guard s) (hg : guard s a) (hs : call L s a = .ok s') : Reach L others guard s'

/-! ## Roles of pages -/

def Proc.pages (p : Proc) : Multiset ℕ := p.kstack ::ₘ p.image.space.pages

/-- all pages, each as often as it has a role -/
def State.roles (s : State) : Multiset ℕ :=
  (s.freelist : Multiset ℕ) + (stock NPROC Proc.pages s.procs +
    ((s.pipes.map PipeBuf.page : List ℕ) + (s.kpgdir.pages + (s.cpuStacks : Multiset ℕ))))

structure MInv (L : Layout) (s : State) : Prop where
  roles : s.roles = (Finset.Ico L.first PHYSTOP).val
  kernel : s.kpgdir.Ok
  procs : ∀ i p, s.procs i = some p → i < NPROC ∧ p.image.Ok L

/-- all pages below sz are there -/
def Complete (s : State) : Prop :=
  ∀ i p, s.procs i = some p → Full p.image.space (numPages p.image.sz) ∧ 0 < p.image.sz

variable {L : Layout} {s : State}

theorem MInv.nodup (h : MInv L s) : s.roles.Nodup := by
  rw [h.roles]
  exact (Finset.Ico L.first PHYSTOP).nodup

theorem MInv.fine (h : MInv L s) : Fine L s.roles := fun p hp => by
  rw [h.roles] at hp
  exact Finset.mem_Ico.1 hp

variable {i others : ℕ} {p : Proc} {free : List ℕ} {x : Option Proc}

theorem stock_split {procs : ℕ → Option Proc} (hi : i < NPROC) (hp : procs i = some p) :
    stock NPROC Proc.pages procs = p.pages + stock NPROC Proc.pages (update procs i none) := by
  have h := stock_update (g := Proc.pages) (f := procs) hi none
  rw [hp] at h
  simp only [Option.elim_some, Option.elim_none, add_zero] at h
  rw [← h, add_comm]

/-- replacing the process in a slot and the free list, with the same pages together -/
theorem roles_update (hi : i < NPROC)
    (h : (free : Multiset ℕ) + x.elim 0 Proc.pages = s.freelist + (s.procs i).elim 0 Proc.pages) :
    ({ s with freelist := free, procs := update s.procs i x } : State).roles = s.roles := by
  have hstock := stock_update (g := Proc.pages) (f := s.procs) hi x
  unfold State.roles
  dsimp only
  rw [← add_assoc, ← add_assoc (s.freelist : Multiset ℕ)]
  refine congrArg (· + _) (add_right_cancel (b := (s.procs i).elim 0 Proc.pages) ?_)
  rw [add_assoc, hstock, add_comm (stock NPROC Proc.pages s.procs), ← add_assoc, h, add_right_comm]

theorem freelist_le_roles (s : State) : (s.freelist : Multiset ℕ) ≤ s.roles := Multiset.le_add_right _ _

theorem process_le_roles (hi : i < NPROC) (hp : s.procs i = some p) : (s.freelist : Multiset ℕ) + p.pages ≤ s.roles := by
  unfold State.roles
  rw [stock_split hi hp, add_assoc, ← add_assoc]
  exact Multiset.le_add_right _ _

theorem space_le_process (p : Proc) : p.image.space.pages ≤ p.pages := le_cons_self _ _

theorem image_le_roles (hi : i < NPROC) (hp : s.procs i = some p) : (s.freelist : Multiset ℕ) + p.image.space.pages ≤ s.roles :=
  (Multiset.add_le_add_left (space_le_process p)).trans (process_le_roles hi hp)

theorem live_some (h : s.live i = some p) : s.procs i = some p ∧ p.zombie = false := by
  unfold State.live at h
  obtain ⟨h1, h2⟩ := Option.filter_eq_some_iff.1 h
  exact ⟨h1, by simpa using h2⟩

theorem unused_some {np : ℕ} (h : s.unused = some np) : np < NPROC ∧ s.procs np = none := by
  unfold State.unused at h
  exact ⟨List.mem_range.1 (List.mem_of_find?_eq_some h), by simpa using List.find?_some h⟩

/-! ## One call -/

theorem MInv.put (h : MInv L s) (hi : i < NPROC)
    (hacc : (free : Multiset ℕ) + x.elim 0 Proc.pages = s.freelist + (s.procs i).elim 0 Proc.pages)
    (hx : ∀ p, x = some p → p.image.Ok L) : MInv L { s with freelist := free, procs := update s.procs i x } where
  roles := (roles_update hi hacc).trans h.roles
  kernel := h.kernel
  procs j p hj := by
    dsimp only at hj
    by_cases hji : j = i
    · subst hji
      rw [update_self] at hj
      exact ⟨hi, hx p hj⟩
    · rw [update_of_ne hji] at hj
      exact h.procs j p hj

theorem Complete.put (h : Complete s) (hx : ∀ p, x = some p → Full p.image.space (numPages p.image.sz) ∧ 0 < p.image.sz) :
    Complete { s with freelist := free, procs := update s.procs i x } := fun j p hj => by
  dsimp only at hj
  by_cases hji : j = i
  · subst hji
    rw [update_self] at hj
    exact hx p hj
  · rw [update_of_ne hji] at hj
    exact h j p hj

theorem MInv.stow (h : MInv L s) {pipes : List PipeBuf}
    (hacc : (free : Multiset ℕ) + (pipes.map PipeBuf.page : List ℕ) = s.freelist + (s.pipes.map PipeBuf.page : List ℕ)) :
    MInv L { s with freelist := free, pipes := pipes } where
  roles := by
    rw [← h.roles]
    unfold State.roles
    dsimp only
    have hswap : ∀ a b c d : Multiset ℕ, a + (b + (c + d)) = a + c + (b + d) := fun a b c d => by
      rw [add_left_comm b, add_assoc]
    rw [hswap, hacc, ← hswap]
  kernel := h.kernel
  procs := h.procs

theorem MInv.free_eq (h : MInv L s) (hfree : (free : Multiset ℕ) = s.freelist) :
    MInv L { s with freelist := free } := h.stow (by rw [hfree])

/-- the arguments of exec do not reach the addresses without page tables -/
def ExecOk : Act → Prop
  | .exec _ file args _ => ArgsFit ((imagePages file - 1) * 4096) (imagePages file * 4096) args
  | _ => True

/-- sbrk is not asked to take away exactly sz bytes -/
def SbrkOk (s : State) : Act → Prop
  | .sbrk i n _ => ∀ p, s.procs i = some p → (p.image.sz : ℤ) + n.toInt ≠ 0
  | _ => True

/-- what a call keeps: the invariant, and completeness if sbrk behaves; a panic needs an incomplete image or a long argument -/
def Safe (L : Layout) (s : State) (a : Act) : Except Panic State → Prop
  | .error e => ¬ Complete s ∨ e = .trap ∧ ¬ ExecOk a
  | .ok s' => MInv L s' ∧ (Complete s → SbrkOk s a → Complete s')

theorem MInv.stay (h : MInv L s) (a : Act) : Safe L s a (.ok s) := ⟨h, fun hc _ => hc⟩

theorem safe_forkInto (h : MInv L s) {np : ℕ} (hp : s.procs i = some p) (hnp : np < NPROC)
    (hfree : s.procs np = none) (a : Act) (grant : ℕ → Bool) : Safe L s a (forkInto L s p np grant) := by
  have hok := (h.procs i p hp).2
  unfold forkInto
  rcases kalloc_cases ⟨s.freelist, grant⟩ with ⟨kstack, k, hk, hlist, -⟩ | ⟨k, hk, hlist, -⟩
  · dsimp only at hlist
    have hacc : (s.freelist : Multiset ℕ) = kstack ::ₘ k.freelist := by rw [hlist, ← cons_coe]
    have hfine : Fine L (s.freelist : Multiset ℕ) := h.fine.of_le (freelist_le_roles s)
    rw [hk]
    dsimp only
    rcases copyuvm_spec (L := L) k hok.space (Nat.le_of_lt hok.lt)
      (hfine.of_le (by rw [hacc]; exact le_cons_self _ _)) with
      ⟨e, x, hrun, hx, hnone⟩ | ⟨k2, hrun, hfree2⟩ | ⟨d, k2, hrun, hd, hkvm, hacc2, hfull, habove⟩
    · rw [hrun]
      exact .inl fun hc => (hc i p hp).1 x hx hnone
    · rw [hrun]
      dsimp only
      rw [kfree_fine (hfine kstack (by rw [hacc]; exact mem_cons_self _ _))]
      refine ⟨h.free_eq ?_, fun hc _ => hc⟩
      rw [hacc, ← cons_coe, hfree2]
    · rw [hrun]
      refine ⟨h.put hnp ?_ ?_, fun hc _ => hc.put ?_⟩
      · rw [hfree]
        show (k2.freelist : Multiset ℕ) + (kstack ::ₘ d.pages) = s.freelist + 0
        rw [add_cons, hacc2, add_zero, hacc]
      · rintro q ⟨⟩
        exact ⟨hd, hkvm, hok.lt, habove⟩
      · rintro q ⟨⟩
        exact ⟨fun x hx => Option.ne_none_iff_isSome.2 (hfull x hx), (hc i p hp).2⟩
  · rw [hk]
    exact ⟨h.free_eq (by rw [hlist]), fun hc _ => hc⟩

theorem safe_sysFork (h : MInv L s) (i : ℕ) (grant : ℕ → Bool) (a : Act) : Safe L s a (sysFork L s i grant) := by
  unfold sysFork
  cases hl : s.live i with
  | none => exact h.stay a
  | some p =>
    cases hu : s.unused with
    | none => exact h.stay a
    | some np => exact safe_forkInto h (live_some hl).1 (unused_some hu).1 (unused_some hu).2 a grant

/-- the process in slot i gets the image m for its own, with pages from the free list -/
theorem MInv.setImage (h : MInv L s) (hp : s.procs i = some p) {m : Image} (hm : m.Ok L)
    (hacc : (free : Multiset ℕ) + m.space.pages = s.freelist + p.image.space.pages) :
    MInv L { s with freelist := free, procs := update s.procs i (some { p with image := m }) } := by
  refine h.put (h.procs i p hp).1 ?_ ?_
  · rw [hp]
    show (free : Multiset ℕ) + (p.kstack ::ₘ m.space.pages) = s.freelist + (p.kstack ::ₘ p.image.space.pages)
    rw [add_cons, add_cons, hacc]
  · rintro q ⟨⟩
    exact hm

theorem toInt_bounds (n : Word) : -2 ^ 31 ≤ n.toInt ∧ n.toInt < 2 ^ 31 := by
  have h1 := BitVec.le_toInt n
  have h2 := BitVec.toInt_lt (x := n)
  simpa using And.intro h1 h2

section

variable (h : MInv L s)
include h

theorem safe_sysSbrk (i : ℕ) (n : Word) (grant : ℕ → Bool) : Safe L s (.sbrk i n grant) (sysSbrk L s i n grant) := by
  unfold sysSbrk
  cases hl : s.live i with
  | none => exact h.stay _
  | some p =>
    obtain ⟨hp, -⟩ := live_some hl
    obtain ⟨hi, hok⟩ := h.procs i p hp
    obtain ⟨k, m, b, hrun, hm, hacc, hfull⟩ := growproc_spec ⟨s.freelist, grant⟩ hok
      (h.fine.of_le (image_le_roles hi hp)) (toInt_bounds n).1 (toInt_bounds n).2
    dsimp only
    rw [hrun]
    refine ⟨h.setImage hp hm hacc, fun hc hsb => hc.put ?_⟩
    rintro q ⟨⟩
    exact hfull (hc i p hp).1 (hc i p hp).2 (hsb p hp)

theorem safe_sysExec (i : ℕ) (file : ElfFile) (args : List ℕ) (grant : ℕ → Bool) :
    Safe L s (.exec i file args grant) (sysExec L s i file args grant) := by
  unfold sysExec
  cases hl : s.live i with
  | none => exact h.stay _
  | some p =>
    obtain ⟨hp, -⟩ := live_some hl
    obtain ⟨hi, hok⟩ := h.procs i p hp
    dsimp only
    by_cases hargs : (args.all fun len => len < p.image.sz) = true
    · rw [if_pos hargs]
      have hlens : ∀ len ∈ args, len < KERNBASE * PGSIZE := fun len hlen =>
        lt_trans (of_decide_eq_true (all_eq_true.1 hargs len hlen)) hok.lt
      rcases exec_spec ⟨s.freelist, grant⟩ hok (h.fine.of_le (image_le_roles hi hp)) file hlens with
        ⟨k, m, l, hrun, hm, hacc, -, hres⟩ | ⟨hrun, -, hfit⟩
      · rw [hrun]
        refine ⟨h.setImage hp hm hacc, fun hc _ => hc.put ?_⟩
        rintro q ⟨⟩
        rcases hres with rfl | hres
        · exact hc i p hp
        · exact hres
      · rw [hrun]
        exact .inr ⟨rfl, hfit⟩
    · rw [if_neg hargs]
      exact h.stay _

theorem safe_sysExit (i : ℕ) (a : Act) : Safe L s a (sysExit s i) := by
  unfold sysExit
  cases hl : s.live i with
  | none => exact h.stay _
  | some p =>
    obtain ⟨hp, -⟩ := live_some hl
    obtain ⟨hi, hok⟩ := h.procs i p hp
    refine ⟨h.put hi ?_ ?_, fun hc _ => hc.put ?_⟩
    · rw [hp]
      rfl
    · rintro q ⟨⟩
      exact hok
    · rintro q ⟨⟩
      exact hc i p hp

theorem safe_sysWait (j : ℕ) (a : Act) : Safe L s a (sysWait L s j) := by
  unfold sysWait
  cases hp : s.procs j with
  | none => exact h.stay _
  | some p =>
    obtain ⟨hj, hok⟩ := h.procs j p hp
    dsimp only
    by_cases hz : p.zombie = true
    · rw [if_pos hz]
      have hle := process_le_roles hj hp
      have hks := h.fine.of_le hle p.kstack (mem_add.2 (.inr (mem_cons_self _ _)))
      have hacc : ((p.kstack :: s.freelist : List ℕ) : Multiset ℕ) + p.image.space.pages = s.freelist + p.pages := by
        unfold Proc.pages
        rw [← cons_coe, cons_add, add_cons]
      obtain ⟨k, hrun, hfree, -⟩ := freevm_spec ⟨p.kstack :: s.freelist, fun _ => true⟩ p.image.space hok.space
        (by dsimp only; rw [hacc]; exact h.fine.of_le hle)
      unfold reapChild
      rw [kfree_fine hks]
      dsimp only
      rw [hrun]
      refine ⟨h.put hj ?_ nofun, fun hc _ => hc.put nofun⟩
      rw [hp]
      show (k.freelist : Multiset ℕ) + 0 = s.freelist + p.pages
      rw [add_zero, hfree, hacc]
    · rw [if_neg hz]
      exact h.stay _

theorem safe_sysPipe (files fds : Bool) (grant : ℕ → Bool) (a : Act) : Safe L s a (sysPipe L s files fds grant) := by
  have hfine : Fine L (s.freelist : Multiset ℕ) := h.fine.of_le (freelist_le_roles s)
  unfold sysPipe
  by_cases hf : files = true
  · rw [if_pos hf]
    unfold makePipe
    rcases kalloc_cases ⟨s.freelist, grant⟩ with ⟨page, k, hk, hlist, -⟩ | ⟨k, hk, hlist, -⟩
    · dsimp only at hlist
      have hacc : (s.freelist : Multiset ℕ) = page ::ₘ k.freelist := by rw [hlist, ← cons_coe]
      rw [hk]
      dsimp only
      by_cases hfd : fds = true
      · rw [if_pos hfd]
        refine ⟨h.stow ?_, fun hc _ => hc⟩
        rw [hacc, List.map_cons, ← cons_coe, add_cons, cons_add]
      · rw [if_neg hfd, kfree_fine (hfine page (by rw [hacc]; exact mem_cons_self _ _))]
        exact ⟨h.free_eq (by rw [hacc, ← cons_coe]), fun hc _ => hc⟩
    · rw [hk]
      exact ⟨h.free_eq (by rw [hlist]), fun hc _ => hc⟩
  · rw [if_neg hf]
    exact h.stay _

theorem safe_pipeclose {j : ℕ} {q q' : PipeBuf} (hq : s.pipes[j]? = some q) (hpage : q'.page = q.page)
    (a : Act) : Safe L s a (if q'.readopen = false ∧ q'.writeopen = false then
      match kfree L ⟨s.freelist, fun _ => true⟩ q'.page with
      | .error e => .error e
      | .ok k => .ok { s with freelist := k.freelist, pipes := s.pipes.eraseIdx j }
    else .ok { s with pipes := s.pipes.set j q' }) := by
  obtain ⟨hj, hqj⟩ := List.getElem?_eq_some_iff.1 hq
  have hmap : ((s.pipes.map PipeBuf.page : List ℕ) : Multiset ℕ) =
      q.page ::ₘ ((s.pipes.eraseIdx j).map PipeBuf.page : List ℕ) := by
    rw [cons_coe, coe_eq_coe, ← hqj, ← List.map_cons]
    exact (getElem_cons_eraseIdx_perm hj).symm.map _
  split_ifs
  · have hks : L.first ≤ q'.page ∧ q'.page < PHYSTOP := by
      rw [hpage]
      refine h.fine q.page ?_
      unfold State.roles
      refine mem_add.2 (.inr (mem_add.2 (.inr (mem_add.2 (.inl ?_)))))
      rw [hmap]
      exact mem_cons_self _ _
    rw [kfree_fine hks]
    refine ⟨h.stow ?_, fun hc _ => hc⟩
    rw [hmap, hpage, ← cons_coe, cons_add, add_cons]
  · have hlen : j < (s.pipes.map PipeBuf.page).length := by simpa using hj
    have hval : (s.pipes.map PipeBuf.page)[j] = q.page := by rw [getElem_map, hqj]
    have hset : (s.pipes.set j q').map PipeBuf.page = s.pipes.map PipeBuf.page := by
      rw [map_set, hpage, ← hval, set_getElem_self]
    exact ⟨h.stow (by rw [hset]), fun hc _ => hc⟩

theorem safe_sysClose (j : ℕ) (writable : Bool) (a : Act) : Safe L s a (sysClose L s j writable) := by
  unfold sysClose
  cases hq : s.pipes[j]? with
  | none => exact h.stay _
  | some q =>
    dsimp only
    by_cases hopen : (if writable then q.writeopen else q.readopen) = true
    · rw [if_pos hopen]
      exact safe_pipeclose h hq (by split_ifs <;> rfl) a
    · rw [if_neg hopen]
      exact h.stay _

/-- **One call.** It keeps every page in one role, and stops the kernel only if a page below sz is missing or an argument of
exec lies where there is no page table. -/
theorem call_spec (a : Act) : Safe L s a (call L s a) := by
  cases a with
  | fork i grant => exact safe_sysFork h i grant _
  | sbrk i n grant => exact safe_sysSbrk h i n grant
  | exec i file args grant => exact safe_sysExec h i file args grant
  | exit i => exact safe_sysExit h i _
  | wait j => exact safe_sysWait h j _
  | pipe files fds grant => exact safe_sysPipe h files fds grant _
  | close j writable => exact safe_sysClose h j writable _

end

/-! ## Boot -/

theorem freerange_eq (L : Layout) :
    ((List.range' L.first (PHYSTOP - L.first)).reverse : Multiset ℕ) = (Finset.Ico L.first PHYSTOP).val := by
  rw [coe_reverse]
  rfl

theorem boot_inv (h : boot L others = some s) : MInv L s ∧ Complete s ∧
    ∃ p, s.procs 0 = some p ∧ p.zombie = false ∧ p.image.sz = PGSIZE := by
  have hall := freerange_eq L
  have hfine0 : Fine L (Finset.Ico L.first PHYSTOP).val := fun p hp => Finset.mem_Ico.1 hp
  unfold boot at h
  generalize (List.range' L.first (PHYSTOP - L.first)).reverse = all at hall h
  obtain ⟨r, k0, hrun0, -, hsome0, -⟩ := setupkvm_spec L ⟨all, fun _ => true⟩ (by dsimp only; rw [hall]; exact hfine0)
  rw [hrun0] at h
  cases r with
  | none => cases h
  | some kp =>
    obtain ⟨hacc0, hkp, hkpvm, -⟩ := hsome0 kp rfl
    dsimp only at h hacc0
    have htake : (k0.freelist : Multiset ℕ) = (k0.freelist.take others : List ℕ) + (k0.freelist.drop others : List ℕ) := by
      rw [coe_add, take_append_drop]
    rcases kalloc_cases ⟨k0.freelist.drop others, k0.grant⟩ with ⟨kstack, k1, hk1, hlist1, -⟩ | ⟨k1, hk1, -, -⟩
    · rw [hk1] at h
      dsimp only at h hlist1
      have hle1 : (k1.freelist : Multiset ℕ) ≤ (Finset.Ico L.first PHYSTOP).val := by
        rw [← hall, ← hacc0, htake, hlist1, ← cons_coe]
        exact (le_cons_self _ _).trans ((le_add_left _ _).trans (Multiset.le_add_right _ _))
      obtain ⟨r, k2, hrun2, -, hsome2, -⟩ := setupkvm_spec L k1 (hfine0.of_le hle1)
      rw [hrun2] at h
      cases r with
      | none => cases h
      | some sp =>
        obtain ⟨hacc2, hsp, hspvm, hempty⟩ := hsome2 sp rfl
        rcases kalloc_cases k2 with ⟨mem, k3, hk3, hlist3, -⟩ | ⟨k3, hk3, -, -⟩
        · dsimp only at h
          rw [hk3] at h
          dsimp only at h
          have hpos : 0 < KERNBASE := by
            unfold KERNBASE
            omega
          obtain ⟨b, k4, s4, hmap, hs4, htrue, -, -⟩ := mappages_user k3 hsp hpos (hempty 0 hpos) mem true true
          rw [hmap] at h
          cases b with
          | false => cases h
          | true =>
            obtain ⟨hacc4, hpte4⟩ := htrue rfl
            cases h
            have hone : numPages PGSIZE = 1 := by
              unfold numPages PGSIZE
              rfl
            have hok : Image.Ok L ⟨s4, PGSIZE⟩ := by
              refine ⟨hs4, hspvm.congr fun x hx => ?_, ?_, fun x h1 h2 => ?_⟩
              · rw [hpte4, update_of_ne (by omega)]
              · show PGSIZE < KERNBASE * PGSIZE
                unfold KERNBASE PGSIZE
                omega
              · dsimp only at h1 ⊢
                rw [hone] at h1
                rw [hpte4, update_of_ne (by omega)]
                exact hempty x h2
            have hprocs : ∀ j p, update (fun _ => none) 0 (some (⟨kstack, ⟨s4, PGSIZE⟩, false⟩ : Proc)) j = some p →
                j = 0 ∧ p = ⟨kstack, ⟨s4, PGSIZE⟩, false⟩ := fun j p hj => by
              by_cases hj0 : j = 0
              · subst hj0
                rw [update_self] at hj
                cases hj
                exact ⟨rfl, rfl⟩
              · rw [update_of_ne hj0] at hj
                cases hj
            refine ⟨⟨?_, hkp, fun j p hj => ?_⟩, fun j p hj => ?_, ⟨⟨kstack, ⟨s4, PGSIZE⟩, false⟩, ?_, rfl, rfl⟩⟩
            · have hstock : stock NPROC Proc.pages (update (fun _ => none) 0 (some ⟨kstack, ⟨s4, PGSIZE⟩, false⟩)) =
                  kstack ::ₘ s4.pages := by
                have h := stock_update (g := Proc.pages) (f := fun _ => none) (show 0 < NPROC by decide)
                  (some ⟨kstack, ⟨s4, PGSIZE⟩, false⟩)
                rw [stock_eq_zero fun _ _ => rfl] at h
                simpa [Proc.pages] using h
              have h1 : (k1.freelist : Multiset ℕ) = k4.freelist + s4.pages := by
                rw [hacc4, ← hacc2, hlist3, ← cons_coe, cons_add]
              have h0 : (k0.freelist : Multiset ℕ) = (k0.freelist.take others : List ℕ) + (kstack ::ₘ k1.freelist) := by
                rw [htake, hlist1, cons_coe]
              calc (k4.freelist : Multiset ℕ) + (stock NPROC Proc.pages
                      (update (fun _ => none) 0 (some ⟨kstack, ⟨s4, PGSIZE⟩, false⟩)) +
                      (0 + (kp.pages + (k0.freelist.take others : List ℕ))))
                  = (k0.freelist.take others : List ℕ) + (kstack ::ₘ (k4.freelist + s4.pages)) + kp.pages := by
                    rw [hstock, ← singleton_add, ← singleton_add]
                    abel
                _ = (Finset.Ico L.first PHYSTOP).val := by rw [← h1, ← h0, hacc0, hall]
            · obtain ⟨rfl, rfl⟩ := hprocs j p hj
              exact ⟨by decide, hok⟩
            · obtain ⟨rfl, rfl⟩ := hprocs j p hj
              refine ⟨fun x hx => ?_, by show 0 < PGSIZE; decide⟩
              dsimp only at hx ⊢
              rw [hone] at hx
              rw [show x = 0 by omega, hpte4, update_self]
              nofun
            · dsimp only
              rw [update_self]
        · dsimp only at h
          rw [hk3] at h
          cases h
    · rw [hk1] at h
      cases h

theorem kalloc_some {k : Kmem} (hg : Generous k) (hne : 0 < k.freelist.length) :
    ∃ p k', kalloc k = (some p, k') ∧ k.freelist = p :: k'.freelist ∧ Generous k' := by
  rcases kalloc_cases k with ⟨p, k', hk, hlist, hgen⟩ | ⟨k', hk, hlist, hgen⟩
  · exact ⟨p, k', hk, hlist, hgen hg⟩
  · rw [← hlist, (hgen hg).2] at hne
    exact absurd hne (Nat.lt_irrefl 0)

theorem setupkvm_some {k : Kmem} (hfine : Fine L k.freelist) (hg : Generous k) (hlen : 1025 < k.freelist.length) :
    ∃ s k', setupkvm L k = .ok (some s, k') ∧ (k'.freelist : Multiset ℕ) + s.pages = k.freelist ∧ s.Ok ∧ s.Kvm L ∧
      (∀ x < KERNBASE, s.pte x = none) ∧ Generous k' ∧ k.freelist.length ≤ k'.freelist.length + 1025 := by
  obtain ⟨r, k', hrun, -, hsome, hgen⟩ := setupkvm_spec L k hfine
  obtain ⟨s, rfl⟩ := Option.ne_none_iff_exists'.1 ((hgen hg).2 hlen)
  obtain ⟨hacc, hs, hkvm, hempty⟩ := hsome s rfl
  have hcard := congrArg Multiset.card hacc
  have hle := card_pages_le 0 fun x _ hx => hempty x hx
  rw [card_add, coe_card, coe_card] at hcard
  exact ⟨s, k', hrun, hacc, hs, hkvm, hempty, (hgen hg).1, by omega⟩

theorem boot_exists (L : Layout) (others : ℕ) (hroom : L.first + others + 4000 ≤ PHYSTOP) :
    ∃ s, boot L others = some s ∧ PHYSTOP ≤ L.first + others + 2052 + s.freelist.length := by
  have hfine0 : Fine L (Finset.Ico L.first PHYSTOP).val := fun p hp => Finset.mem_Ico.1 hp
  have hall := freerange_eq L
  have hlen : (List.range' L.first (PHYSTOP - L.first)).reverse.length = PHYSTOP - L.first := by
    rw [length_reverse, length_range']
  unfold boot
  generalize (List.range' L.first (PHYSTOP - L.first)).reverse = all at hall hlen ⊢
  obtain ⟨kp, k0, hrun0, hacc0, -, -, -, hgen0, hlen0⟩ := setupkvm_some (L := L) (k := ⟨all, fun _ => true⟩)
    (by dsimp only; rw [hall]; exact hfine0) (fun _ => rfl) (by dsimp only; omega)
  dsimp only at hlen0 hacc0
  rw [hrun0]
  have hdrop := length_drop (i := others) (l := k0.freelist)
  obtain ⟨kstack, k1, hk1, hlist1, hgen1⟩ := kalloc_some (k := ⟨k0.freelist.drop others, k0.grant⟩) hgen0
    (by dsimp only; omega)
  have hlen1 := congrArg List.length hlist1
  dsimp only at hlen1
  rw [length_cons] at hlen1
  have hle1 : (k1.freelist : Multiset ℕ) ≤ (Finset.Ico L.first PHYSTOP).val := by
    rw [← hall, ← hacc0]
    refine le_trans ?_ (Multiset.le_add_right _ _)
    have hsub : k1.freelist.Sublist k0.freelist :=
      ((sublist_cons_self kstack k1.freelist).trans (by rw [← hlist1])).trans (drop_sublist others k0.freelist)
    exact coe_le.2 hsub.subperm
  obtain ⟨sp, k2, hrun2, hacc2, hsp, -, hempty, hgen2, hlen2⟩ := setupkvm_some (hfine0.of_le hle1) hgen1 (by omega)
  obtain ⟨mem, k3, hk3, hlist3, hgen3⟩ := kalloc_some hgen2 (by omega)
  have hlen3 := congrArg List.length hlist3
  rw [length_cons] at hlen3
  have hpos : 0 < KERNBASE := by
    unfold KERNBASE
    omega
  obtain ⟨b, k4, s4, hmap, hs4, htrue, hfalse, hgen4⟩ := mappages_user k3 hsp hpos (hempty 0 hpos) mem true true
  dsimp only
  rw [hk1]
  dsimp only
  rw [hrun2]
  dsimp only
  rw [hk3]
  dsimp only
  rw [hmap]
  cases b with
  | true =>
    obtain ⟨hacc4, hpte4⟩ := htrue rfl
    have hcard := congrArg Multiset.card hacc4
    have hcard2 := congrArg Multiset.card hacc2
    have hle := card_pages_le 1 (s := s4) fun x h1 h2 => by
      rw [hpte4, update_of_ne (by omega)]
      exact hempty x h2
    simp only [card_add, card_cons, coe_card] at hcard hcard2
    refine ⟨_, rfl, ?_⟩
    dsimp only
    omega
  | false =>
    obtain ⟨hacc4, hpte4⟩ := hfalse rfl
    have hcard := congrArg Multiset.card hacc4
    have hle := card_pages_le 0 (s := s4) fun x _ hx => by rw [hpte4]; exact hempty x hx
    rw [(hgen4 hgen3).2 rfl] at hcard
    simp only [card_add, coe_card, length_nil] at hcard
    omega

/-! ## Runs -/

theorem reach_inv {guard : State → Act → Prop} (h : Reach L others guard s) : MInv L s := by
  induction h with
  | boot h => exact (boot_inv h).1
  | @step s s' a h hg hs ih =>
    have hsafe := call_spec ih a
    rw [hs] at hsafe
    exact hsafe.1

theorem reach_complete (h : Reach L others SbrkOk s) : Complete s := by
  induction h with
  | boot h => exact (boot_inv h).2.1
  | @step s s' a h hg hs ih =>
    have hsafe := call_spec (reach_inv h) a
    rw [hs] at hsafe
    exact hsafe.2 ih hg

end Xv6.Mem
