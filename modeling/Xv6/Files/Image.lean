/-
exec.c with the contents of memory.

`Exec.exec` says what exec does to the file system, the free list and the address spaces. Here are the bytes: loaduvm copies what
readi delivers into the frames of the new address space, copyout copies the argument strings and ustack, allocuvm clears and
kfree fills the pages. The file is its content, a list of bytes, and readi is what `Files.readi_run` proves of the readi of the
file system. Page tables are not in these pages but in `Space`.

Results, for a run of exec that returns 0:
- `exec_passes_arguments`: the strings, the pointers to them and ustack lie in the stack page, disjoint, above the guard page;
- `exec_builds_image`: below the load size there are the bytes of the last segment that covers the address, or zeros.
-/
import Mathlib.Data.List.GetD
import Xv6.Files.ByteArray
import Xv6.Files.Exec
import Xv6.Mem.Copy

namespace Xv6.Ram

open Lib Mem List
open Files (field number)

/-! ## Model -/

/-- readi of a file with the bytes f -/
def readi (f : List Byte) (off n : ℕ) : Option (List Byte) :=
  if f.length < off ∨ 2 ^ 32 ≤ off + n then none else some ((f.drop off).take n)

/-- a page with the bytes l put at o -/
def patch (b : Bytes PGSIZE) (o : ℕ) (l : List Byte) : Bytes PGSIZE := fun j =>
  if o ≤ j.val ∧ j.val < o + l.length then l.getD (j.val - o) 0 else b.get j.val

/-- memmove to offset o of page v -/
def memmove (r : Pages) (v o : ℕ) (l : List Byte) : Pages := update r v (patch (r v) o l)

/-- the frame of a virtual page -/
def frameAt (s : Space) (v : ℕ) : ℕ := (s.pte v).elim 0 Pte.frame

/-- the pages js of a segment -/
def loaduvm (f : List Byte) (s : Space) (addr off sz : ℕ) (r : Pages) : List ℕ → Except Panic (Bool × Pages)
  | [] => .ok (true, r)
  | j :: js =>
    match s.tab ((addr / 4096 + j) / 1024) with
    | none => .error .addressShouldExist
    | some _ =>
      match readi f ((off + 4096 * j) % 2 ^ 32) (min (sz - 4096 * j) 4096) with
      | none => .ok (false, r)
      | some l =>
        if l.length ≠ min (sz - 4096 * j) 4096 then .ok (false, memmove r (frameAt s (addr / 4096 + j)) 0 l)
        else loaduvm f s addr off sz (memmove r (frameAt s (addr / 4096 + j)) 0 l) js

/-- the loop of exec over the program headers: sz, or none for the jump to bad -/
def loadSegments (L : Layout) (f : List Byte) (off : ℕ) (m : Phys) (s : Space) (sz : ℕ) :
    List ℕ → Except Panic (Option ℕ × Phys × Space)
  | [] => return (some sz, m, s)
  | j :: js =>
    match readi f ((off + 32 * j) % 2 ^ 32) 32 with
    | none => return (none, m, s)
    | some ph =>
      if ph.length ≠ 32 then return (none, m, s)
      else if field ph 0 4 ≠ 1 then loadSegments L f off m s sz js
      else if field ph 20 4 < field ph 16 4 then return (none, m, s)
      else if (field ph 8 4 + field ph 20 4) % 2 ^ 32 < field ph 8 4 then return (none, m, s)
      else do
        let a ← allocuvm L m s sz ((field ph 8 4 + field ph 20 4) % 2 ^ 32)
        if a.1 = 0 then return (none, a.2)
        else if field ph 8 4 % 4096 ≠ 0 then return (none, a.2)
        else do
          let x ← loaduvm f a.2.2 (field ph 8 4) (field ph 4 4) (field ph 16 4) a.2.1.ram
            (List.range ((field ph 16 4 + 4095) / 4096))
          if x.1 then loadSegments L f off ⟨a.2.1.kmem, x.2⟩ a.2.2 a.1 js else return (none, ⟨a.2.1.kmem, x.2⟩, a.2.2)

/-- the loop of copyout over n pages, from offset o of page v on -/
def copyLoop (s : Space) (r : Pages) (v o : ℕ) (l : List Byte) : ℕ → Except Panic (Bool × Pages)
  | 0 => .ok (true, r)
  | n + 1 =>
    match uva2ka s v with
    | .error e => .error e
    | .ok none => .ok (false, r)
    | .ok (some pa) => copyLoop s (memmove r pa o (l.take (4096 - o))) ((v + 1) % TOP) 0 (l.drop (4096 - o)) n

@[irreducible] def copyout (s : Space) (r : Pages) (va : ℕ) (l : List Byte) : Except Panic (Bool × Pages) :=
  copyLoop s r (va / 4096) (va % 4096) l (if l.length = 0 then 0 else numPages (va % 4096 + l.length))

/-- the loop of exec over the arguments: sp and the pointers to the strings, or none for the jump to bad -/
def pushArgs (s : Space) (r : Pages) (argc sp : ℕ) : List (List Byte) → Except Panic (Option (ℕ × List ℕ) × Pages)
  | [] => .ok (some (sp, []), r)
  | a :: rest =>
    if argc ≥ MAXARG then .ok (none, r)
    else
      match copyout s r (push sp a.length) (a ++ [0]) with
      | .error e => .error e
      | .ok (false, r) => .ok (none, r)
      | .ok (true, r) =>
        match pushArgs s r (argc + 1) (push sp a.length) rest with
        | .error e => .error e
        | .ok (none, r) => .ok (none, r)
        | .ok (some (sp', ptrs), r) => .ok (some (sp', push sp a.length :: ptrs), r)

/-- fake return PC, argc, argv pointer, the pointers and a 0 -/
def ustack (argc sp : ℕ) (ptrs : List ℕ) : List ℕ :=
  [0xffffffff, argc, (sp + 2 ^ 32 - (argc + 1) * 4) % 2 ^ 32] ++ ptrs ++ [0]

/-- a word as it lies in memory -/
def wordBytes (w : ℕ) : List Byte := [.ofNat 8 w, .ofNat 8 (w / 256), .ofNat 8 (w / 65536), .ofNat 8 (w / 16777216)]

/-- the arguments, then ustack: the stack pointer, or none for the jump to bad -/
def pushAll (s : Space) (r : Pages) (sz : ℕ) (argv : List (List Byte)) : Except Panic (Option ℕ × Pages) := do
  let x ← pushArgs s r 0 sz argv
  match x.1 with
  | none => return (none, x.2)
  | some a => do
    let y ← copyout s x.2 (pushStack a.1 argv.length) ((ustack argv.length a.1 a.2).flatMap wordBytes)
    return (if y.1 then some (pushStack a.1 argv.length) else none, y.2)

/-- the label bad -/
def execBad (L : Layout) (m : Phys) (s : Space) (p : Exec.Proc) : Except Panic (ℤ × Phys × Exec.Proc) := do
  let m ← freevm L m s
  return (-1, m, p)

/-- exec after end_op -/
def commit (L : Layout) (path : List Byte) (entry : ℕ) (argv : List (List Byte)) (m : Phys) (s : Space) (sz : ℕ) (p : Exec.Proc) :
    Except Panic (ℤ × Phys × Exec.Proc) := do
  let a ← allocuvm L m s (numPages sz * PGSIZE) (numPages sz * PGSIZE + 2 * PGSIZE)
  if a.1 = 0 then execBad L a.2.1 a.2.2 p
  else do
    let s ← clearpteu a.2.2 (a.1 / 4096 - 2)
    let x ← pushAll s a.2.1.ram a.1 argv
    match x.1 with
    | none => execBad L ⟨a.2.1.kmem, x.2⟩ s p
    | some sp => do
      let m ← freevm L ⟨a.2.1.kmem, x.2⟩ p.image.space
      return (0, m, ⟨⟨s, a.1⟩, entry, sp, (Exec.lastName path).take 15⟩)

/-- exec of a file with the bytes f -/
def exec (L : Layout) (f path : List Byte) (argv : List (List Byte)) (m : Phys) (p : Exec.Proc) :
    Except Panic (ℤ × Phys × Exec.Proc) :=
  match readi f 0 52 with
  | none => return (-1, m, p)
  | some elf =>
    if elf.length ≠ 52 then return (-1, m, p)
    else if field elf 0 4 ≠ 0x464C457F then return (-1, m, p)
    else do
      let a ← setupkvm L m
      match a.1 with
      | none => return (-1, a.2, p)
      | some s => do
        let x ← loadSegments L f (field elf 28 4) a.2 s 0 (List.range (field elf 44 2))
        match x.1 with
        | none => execBad L x.2.1 x.2.2 p
        | some sz => commit L path (field elf 24 4) argv x.2.1 x.2.2 sz p

variable {off : ℕ}

/-- on a file of the file system readi is this function of the content -/
theorem readi_content {sb : Blocks.Superblock} {k i : ℕ} {s : Files.Kern} (h : Files.Loaded sb k i s) {n : ℕ}
    (hoff : off < 2 ^ 32) (hn : n < 2 ^ 32) : Files.readi sb k off n s = .ok (readi (Files.content s i) off n, s) := by
  rw [Files.readi_run h hoff hn]
  unfold readi
  rw [Files.length_content]

/-- the byte of an address space at va -/
def userByte (s : Space) (r : Pages) (va : ℕ) : Byte := (r (frameAt s (va / 4096))).get (va % 4096)

/-- the word of an address space at va -/
def userWord (s : Space) (r : Pages) (va : ℕ) : ℕ :=
  number [userByte s r va, userByte s r (va + 1), userByte s r (va + 2), userByte s r (va + 3)]

/-! ## Copies -/

section Copy

variable {L : Layout} {s : Space} {r r' : Pages}

theorem memmove_same (r : Pages) (v o : ℕ) (l : List Byte) {x : ℕ} (hx : x < 4096) :
    (memmove r v o l v).get x = if o ≤ x ∧ x < o + l.length then l.getD (x - o) 0 else (r v).get x := by
  have hself : memmove r v o l v = patch (r v) o l := update_self ..
  have hget : (patch (r v) o l).get x = patch (r v) o l ⟨x, hx⟩ := dif_pos (show x < PGSIZE from hx)
  rw [hself, hget]
  rfl

theorem memmove_other (r : Pages) {v w : ℕ} (o : ℕ) (l : List Byte) (h : w ≠ v) : memmove r v o l w = r w :=
  update_of_ne h _ _

variable {b : List Byte}

theorem copyLoop_true (n : ℕ) : ∀ {r : Pages} {v o : ℕ} {l : List Byte}, copyLoop s r v o l n = .ok (true, r') → v < TOP →
    ∀ i < n, ∃ pa, uva2ka s ((v + i) % TOP) = .ok (some pa) := by
  induction n with
  | zero => exact fun _ _ i hi => absurd hi (Nat.not_lt_zero i)
  | succ n ih =>
    intro r v o l h hv i hi
    unfold copyLoop at h
    cases hu : uva2ka s v with
    | error e =>
      rw [hu] at h
      cases h
    | ok x =>
      rw [hu] at h
      cases x with
      | none => cases h
      | some pa =>
        cases i with
        | zero => exact ⟨pa, by rw [Nat.add_zero, Nat.mod_eq_of_lt hv]; exact hu⟩
        | succ i =>
          obtain ⟨pa', hpa⟩ := ih h (Nat.mod_lt _ (by unfold TOP; norm_num)) i (by omega)
          refine ⟨pa', ?_⟩
          rw [Nat.mod_add_mod, show v + 1 + i = v + (i + 1) by omega] at hpa
          exact hpa

theorem copyLoop_one {v o : ℕ} (h : copyLoop s r v o b 1 = .ok (true, r')) {e : Pte}
    (hs : s.Ok) (he : s.pte v = some e) : r' = memmove r e.frame o (b.take (4096 - o)) := by
  unfold copyLoop at h
  rw [uva2ka_of_pte hs he] at h
  cases hu : e.u with
  | false =>
    rw [hu] at h
    cases h
  | true =>
    rw [hu] at h
    cases h
    rfl

/-- a page that has an entry and is not for users stops every copy -/
theorem uva2ka_stops (hs : s.Ok) {v : ℕ} {e : Pte} (he : s.pte v = some e) (hu : e.u = false) (pa : ℕ) :
    uva2ka s v ≠ .ok (some pa) := by
  rw [uva2ka_of_pte hs he, hu]
  nofun

/-- **copyout to the stack.** A copy that ends in the guard page or in the stack page and succeeds lies in the stack page. -/
theorem copyout_stack {m : ℕ} (h : Fresh L s m) {va : ℕ} (hb : 0 < b.length) (hend : va + b.length ≤ m * 4096)
    (hlow : (m - 2) * 4096 < va + b.length) (hrun : copyout s r va b = .ok (true, r')) :
    (m - 1) * 4096 ≤ va ∧ r' = memmove r (frameAt s (m - 1)) (va - (m - 1) * 4096) b := by
  have htwo := h.two
  have hlt := h.bytes_lt
  unfold copyout at hrun
  rw [if_neg (by omega)] at hrun
  have hn : numPages (va % 4096 + b.length) = (va + b.length - 1) / 4096 + 1 - va / 4096 := by
    unfold numPages
    omega
  rw [hn] at hrun
  have hall := copyLoop_true _ hrun (by unfold TOP; omega)
  have hstay : (m - 1) * 4096 ≤ va := by
    by_contra hgt
    obtain ⟨e, he⟩ := Option.ne_none_iff_exists'.1 (h.full (m - 2) (by omega))
    obtain ⟨pa, hpa⟩ := hall (m - 2 - va / 4096) (by omega)
    rw [show va / 4096 + (m - 2 - va / 4096) = m - 2 by omega, Nat.mod_eq_of_lt (by unfold TOP; omega)] at hpa
    exact uva2ka_stops h.ok he (h.guard e he) pa hpa
  have hpage : va / 4096 = m - 1 := by omega
  obtain ⟨e, he⟩ := Option.ne_none_iff_exists'.1 (h.full (m - 1) (by omega))
  have hframe : frameAt s (m - 1) = e.frame := by
    unfold frameAt
    rw [he]
    rfl
  rw [show (va + b.length - 1) / 4096 + 1 - va / 4096 = 1 by omega, hpage] at hrun
  obtain rfl := copyLoop_one hrun h.ok he
  refine ⟨hstay, ?_⟩
  rw [hframe, take_of_length_le (by omega), show va % 4096 = va - (m - 1) * 4096 by omega]

theorem copyout_wraps {m : ℕ} (h : Fresh L s m) {sp : ℕ} (hsp : 4096 ≤ sp) {len : ℕ} (hb : b.length = len + 1)
    (hwrap : sp < len + 1) (hlen : len < 2 ^ 31) (hrun : copyout s r (push sp len) b = .ok (true, r')) : False := by
  have hpush : push sp len = (sp + 2 ^ 32 - (len + 1)) / 4 * 4 := by
    unfold push
    omega
  unfold copyout at hrun
  rw [if_neg (by omega), hb] at hrun
  generalize push sp len = va at hpush hrun
  have hn : numPages (va % 4096 + (len + 1)) = (va + len) / 4096 + 1 - va / 4096 := by
    unfold numPages
    omega
  have htop : va / 4096 < TOP ∧ TOP ≤ (va + len) / 4096 := by
    unfold TOP
    omega
  rw [hn] at hrun
  obtain ⟨pa, hpa⟩ := copyLoop_true _ hrun htop.1 (TOP - 1 - va / 4096) (by omega)
  rw [show va / 4096 + (TOP - 1 - va / 4096) = TOP - 1 by omega, Nat.mod_eq_of_lt (by omega)] at hpa
  have hk : KERNBASE ≤ TOP - 1 := by
    unfold KERNBASE TOP
    norm_num
  obtain ⟨k, hk', hlo, hhi⟩ := kmap_covers L hk (by omega) (by unfold DEVSPACE TOP; omega)
  obtain ⟨e, he⟩ := Option.isSome_iff_exists.1 (h.kvm k hk' _ hlo hhi)
  exact uva2ka_stops h.ok he (h.ok.kernel _ e hk he) pa hpa

end Copy

/-! ## The arguments -/

/-- from sp down to sp', the strings argv lie at ptrs in the page b, whose addresses start at base -/
inductive Placed (b : Bytes PGSIZE) (base : ℕ) : ℕ → List (List Byte) → List ℕ → ℕ → Prop
  | nil (sp : ℕ) : Placed b base sp [] [] sp
  | cons {sp q sp' : ℕ} {a : List Byte} {argv : List (List Byte)} {ptrs : List ℕ} (low : base ≤ q)
      (high : q + a.length + 1 ≤ sp) (string : ∀ i ≤ a.length, b.get (q - base + i) = (a ++ [0]).getD i 0)
      (rest : Placed b base q argv ptrs sp') : Placed b base sp (a :: argv) (q :: ptrs) sp'

section Arguments

variable {L : Layout} {s : Space}

variable {b : Bytes PGSIZE} {base sp sp' : ℕ} {argv : List (List Byte)} {ptrs : List ℕ}

theorem Placed.length_eq (h : Placed b base sp argv ptrs sp') : ptrs.length = argv.length ∧ sp' ≤ sp := by
  induction h with
  | nil => exact ⟨rfl, le_rfl⟩
  | cons _ high _ _ ih => exact ⟨congrArg (· + 1) ih.1, by omega⟩

theorem Placed.congr {b' : Bytes PGSIZE} (h : Placed b base sp argv ptrs sp')
    (hsame : ∀ x, sp' - base ≤ x → x < 4096 → b'.get x = b.get x) (hsp : sp ≤ base + 4096) : Placed b' base sp argv ptrs sp' := by
  induction h with
  | nil sp => exact .nil sp
  | @cons sp q sp' a argv ptrs low high string rest ih =>
    have hle := rest.length_eq.2
    refine .cons low high (fun i hi => ?_) (ih hsame (by omega))
    rw [hsame _ (by omega) (by omega)]
    exact string i hi

/-- **The pushes.** If all of them succeed, then the strings lie in the stack page, and the rest of it is as before. -/
theorem pushArgs_stack {m : ℕ} (h : Fresh L s m) (argv : List (List Byte)) : ∀ {r r' : Pages} {argc sp sp' : ℕ}
    {ptrs : List ℕ}, pushArgs s r argc sp argv = .ok (some (sp', ptrs), r') → (∀ a ∈ argv, a.length < 2 ^ 31) →
    (m - 1) * 4096 ≤ sp → sp ≤ m * 4096 → sp % 4 = 0 →
    Placed (r' (frameAt s (m - 1))) ((m - 1) * 4096) sp argv ptrs sp' ∧ (m - 1) * 4096 ≤ sp' ∧ sp' % 4 = 0 ∧
      (∀ q ≠ frameAt s (m - 1), r' q = r q) ∧
      (∀ x, sp - (m - 1) * 4096 ≤ x → x < 4096 → (r' (frameAt s (m - 1))).get x = (r (frameAt s (m - 1))).get x) ∧
      ∀ q ∈ ptrs, q < 2 ^ 32 := by
  have htwo := h.two
  have hlt := h.bytes_lt
  induction argv with
  | nil =>
    intro r r' argc sp sp' ptrs hrun _ h1 _ h3
    cases hrun
    exact ⟨.nil _, h1, h3, fun _ _ => rfl, fun _ _ _ => rfl, fun q hq => absurd hq not_mem_nil⟩
  | cons a rest ih =>
    intro r r' argc sp sp' ptrs hrun hlens h1 h2 h3
    have hlen := hlens a mem_cons_self
    have hblen : (a ++ [(0 : Byte)]).length = a.length + 1 := by simp
    unfold pushArgs at hrun
    by_cases hmax : argc ≥ MAXARG
    · rw [if_pos hmax] at hrun
      cases hrun
    rw [if_neg hmax] at hrun
    cases hcopy : copyout s r (push sp a.length) (a ++ [0]) with
    | error e =>
      rw [hcopy] at hrun
      cases hrun
    | ok x =>
      rw [hcopy] at hrun
      obtain ⟨b, r1⟩ := x
      cases b with
      | false => cases hrun
      | true =>
        have hfit : a.length + 1 ≤ sp := by
          by_contra hwrap
          exact copyout_wraps h (show 4096 ≤ sp by omega) hblen (by omega) hlen hcopy
        have hq : push sp a.length + (a.length + 1) ≤ sp ∧ sp < push sp a.length + (a.length + 1) + 4 ∧
            push sp a.length % 4 = 0 := by
          rw [push_eq hfit (by omega)]
          omega
        have hrange : 0 < (a ++ [(0 : Byte)]).length ∧ push sp a.length + (a ++ [(0 : Byte)]).length ≤ m * 4096 ∧
            (m - 2) * 4096 < push sp a.length + (a ++ [(0 : Byte)]).length := by
          rw [hblen]
          generalize push sp a.length = va at hq
          clear hrun hcopy ih
          omega
        obtain ⟨hlow, rfl⟩ := copyout_stack h hrange.1 hrange.2.1 hrange.2.2 hcopy
        dsimp only at hrun
        cases hrest : pushArgs s (memmove r (frameAt s (m - 1)) (push sp a.length - (m - 1) * 4096) (a ++ [0])) (argc + 1)
            (push sp a.length) rest with
        | error e =>
          rw [hrest] at hrun
          cases hrun
        | ok y =>
          rw [hrest] at hrun
          obtain ⟨_ | ⟨sp1, ptrs1⟩, r2⟩ := y
          · cases hrun
          cases hrun
          obtain ⟨hplaced, hbase, halign, hother, habove, hptrs⟩ := ih hrest
            (fun x hx => hlens x (mem_cons_of_mem _ hx)) hlow (by omega) (by omega)
          -- the string is not touched by the pushes below it
          have hstring : ∀ x, push sp a.length - (m - 1) * 4096 ≤ x → x < 4096 → (r' (frameAt s (m - 1))).get x =
              if x < push sp a.length - (m - 1) * 4096 + (a.length + 1) then
                (a ++ [0]).getD (x - (push sp a.length - (m - 1) * 4096)) 0 else (r (frameAt s (m - 1))).get x := by
            intro x hx1 hx2
            rw [habove x hx1 hx2, memmove_same r _ _ _ hx2, hblen]
            simp only [hx1, true_and]
          refine ⟨.cons hlow (by omega) (fun i hi => ?_) hplaced, hbase, halign, fun q hq => ?_, fun x hx1 hx2 => ?_, fun q hq => ?_⟩
          · rw [hstring _ (by omega) (by omega), if_pos (by omega), Nat.add_sub_cancel_left]
          · rw [hother q hq, memmove_other r _ _ hq]
          · rw [hstring x (by omega) hx2, if_neg (by omega)]
          · rcases mem_cons.1 hq with rfl | hq
            · omega
            · exact hptrs q hq

theorem Placed.within (h : Placed b base sp argv ptrs sp') :
    ∀ x ∈ argv.zip ptrs, base ≤ x.2 ∧ sp' ≤ x.2 ∧ x.2 + x.1.length + 1 ≤ sp := by
  induction h with
  | nil => exact fun x hx => absurd hx not_mem_nil
  | cons low high _ rest ih =>
    have hle := rest.length_eq.2
    intro x hx
    rcases mem_cons.1 hx with rfl | hx
    · exact ⟨low, hle, high⟩
    · obtain ⟨h1, h2, h3⟩ := ih x hx
      exact ⟨h1, h2, by omega⟩

theorem Placed.apart (h : Placed b base sp argv ptrs sp') : (argv.zip ptrs).Pairwise fun x y => y.2 + y.1.length + 1 ≤ x.2 := by
  induction h with
  | nil => exact .nil
  | cons _ _ _ rest ih => exact List.Pairwise.cons (fun y hy => (rest.within y hy).2.2) ih

/-- n bytes of an address space -/
def userBytes (s : Space) (r : Pages) (va n : ℕ) : List Byte := (List.range n).map fun i => userByte s r (va + i)

/-- n words of an address space -/
def userWords (s : Space) (r : Pages) (va n : ℕ) : List ℕ := (List.range n).map fun i => userWord s r (va + 4 * i)

theorem Placed.strings {r : Pages}
    (h : Placed b base sp argv ptrs sp') (hpage : ∀ x, base ≤ x → x < base + 4096 → userByte s r x = b.get (x - base))
    (hsp : sp ≤ base + 4096) : List.Forall₂ (fun a q => userBytes s r q (a.length + 1) = a ++ [0]) argv ptrs := by
  induction h with
  | nil => exact .nil
  | @cons sp q sp' a argv ptrs low high string rest ih =>
    refine .cons ?_ (ih (by omega))
    refine ext_getElem (by simp [userBytes]) fun i h1 h2 => ?_
    have hi : i < a.length + 1 := by simpa using h2
    have hget : (userBytes s r q (a.length + 1)).get ⟨i, h1⟩ = userByte s r (q + i) := by
      simp [userBytes]
    refine hget.trans (Eq.trans ?_ (getD_eq_getElem _ 0 h2))
    rw [← string i (by omega), ← Nat.sub_add_comm low, ← hpage _ (by omega) (by omega)]

theorem length_wordBytes (ws : List ℕ) : (ws.flatMap wordBytes).length = 4 * ws.length := by
  induction ws with
  | nil => rfl
  | cons w ws ih =>
    rw [flatMap_cons, length_append, ih, length_cons]
    show 4 + 4 * ws.length = _
    omega

theorem getD_wordBytes (ws : List ℕ) : ∀ {i j : ℕ}, i < ws.length → j < 4 →
    (ws.flatMap wordBytes).getD (4 * i + j) 0 = (wordBytes (ws.getD i 0)).getD j 0 := by
  induction ws with
  | nil => exact fun hi => absurd hi (Nat.not_lt_zero _)
  | cons w ws ih =>
    intro i j hi hj
    have hlen : (wordBytes w).length = 4 := rfl
    rw [flatMap_cons]
    cases i with
    | zero => rw [getD_append _ _ _ _ (by omega), Nat.mul_zero, Nat.zero_add, getD_cons_zero]
    | succ i =>
      rw [getD_append_right _ _ _ _ (by omega), getD_cons_succ, hlen,
        show 4 * (i + 1) + j - 4 = 4 * i + j by omega]
      exact ih (by simpa using hi) hj

/-- the word that lies at the place of the i-th of the words ws -/
theorem number_wordBytes {w : ℕ} (hw : w < 2 ^ 32) :
    number [(wordBytes w).getD 0 0, (wordBytes w).getD 1 0, (wordBytes w).getD 2 0, (wordBytes w).getD 3 0] = w := by
  have hlist : [(wordBytes w).getD 0 0, (wordBytes w).getD 1 0, (wordBytes w).getD 2 0, (wordBytes w).getD 3 0] =
      wordBytes w := by
    simp [wordBytes]
  rw [hlist]
  unfold wordBytes number
  simp only [foldr_cons, foldr_nil, BitVec.toNat_ofNat]
  omega

/-- what exec leaves on the stack -/
structure Passed (s : Space) (r : Pages) (sz esp : ℕ) (argv : List (List Byte)) (ptrs : List ℕ) : Prop where
  aligned : esp % 4 = 0
  words : userWords s r esp (argv.length + 4) = [0xffffffff, argv.length, esp + 12] ++ ptrs ++ [0]
  strings : List.Forall₂ (fun a q => userBytes s r q (a.length + 1) = a ++ [0]) argv ptrs
  apart : (argv.zip ptrs).Pairwise fun x y => y.2 + y.1.length + 1 ≤ x.2
  above : ∀ x ∈ argv.zip ptrs, esp + 4 * (argv.length + 4) ≤ x.2 ∧ x.2 + x.1.length + 1 ≤ sz
  page : sz - PGSIZE ≤ esp ∧ esp + 4 * (argv.length + 4) ≤ sz

theorem userByte_stack {m : ℕ} (r : Pages) {x : ℕ} (h1 : (m - 1) * 4096 ≤ x) (h2 : x < (m - 1) * 4096 + 4096) :
    userByte s r x = (r (frameAt s (m - 1))).get (x - (m - 1) * 4096) := by
  unfold userByte
  rw [show x / 4096 = m - 1 by omega, show x % 4096 = x - (m - 1) * 4096 by omega]

theorem copyout_words {m : ℕ} (h : Fresh L s m) {ws : List ℕ} (hws : ∀ q ∈ ws, q < 2 ^ 32) {r r' : Pages} {va : ℕ}
    (hpos : 0 < ws.length) (hend : va + 4 * ws.length ≤ m * 4096) (hlow : (m - 2) * 4096 < va + 4 * ws.length)
    (hrun : copyout s r va (ws.flatMap wordBytes) = .ok (true, r')) :
    (m - 1) * 4096 ≤ va ∧ userWords s r' va ws.length = ws ∧ (∀ q ≠ frameAt s (m - 1), r' q = r q) ∧
      ∀ x, va + 4 * ws.length - (m - 1) * 4096 ≤ x → x < 4096 →
        (r' (frameAt s (m - 1))).get x = (r (frameAt s (m - 1))).get x := by
  have htwo := h.two
  have hlen := length_wordBytes ws
  obtain ⟨hbase, rfl⟩ := copyout_stack h (by rw [hlen]; omega) (by rw [hlen]; omega) (by rw [hlen]; omega) hrun
  have hbyte : ∀ i < ws.length, ∀ j < 4, userByte s (memmove r (frameAt s (m - 1)) (va - (m - 1) * 4096)
      (ws.flatMap wordBytes)) (va + 4 * i + j) = (wordBytes (ws.getD i 0)).getD j 0 := by
    intro i hi j hj
    rw [userByte_stack (m := m) _ (by omega) (by omega), memmove_same _ _ _ _ (by omega), if_pos (by rw [hlen]; omega),
      show va + 4 * i + j - (m - 1) * 4096 - (va - (m - 1) * 4096) = 4 * i + j by omega]
    exact getD_wordBytes ws hi hj
  refine ⟨hbase, ext_getElem (by simp [userWords]) fun i h1 h2 => ?_, fun q hq => memmove_other r _ _ hq,
    fun x hx1 hx2 => ?_⟩
  · have hget : (userWords s (memmove r (frameAt s (m - 1)) (va - (m - 1) * 4096) (ws.flatMap wordBytes)) va ws.length).get
        ⟨i, h1⟩ = userWord s (memmove r (frameAt s (m - 1)) (va - (m - 1) * 4096) (ws.flatMap wordBytes)) (va + 4 * i) := by
      simp [userWords]
    refine hget.trans ?_
    unfold userWord
    rw [hbyte i h2 1 (by omega), hbyte i h2 2 (by omega), hbyte i h2 3 (by omega), ← Nat.add_zero (va + 4 * i),
      hbyte i h2 0 (by omega), number_wordBytes, getD_eq_getElem _ _ h2]
    rw [getD_eq_getElem _ _ h2]
    exact hws _ (getElem_mem h2)
  · rw [memmove_same _ _ _ _ hx2, hlen, if_neg (by omega)]

theorem pushAll_cases {r r' : Pages} {sz esp : ℕ} (h : pushAll s r sz argv = .ok (some esp, r')) :
    ∃ sp ptrs r1, pushArgs s r 0 sz argv = .ok (some (sp, ptrs), r1) ∧
      copyout s r1 (pushStack sp argv.length) ((ustack argv.length sp ptrs).flatMap wordBytes) = .ok (true, r') ∧
      esp = pushStack sp argv.length := by
  obtain ⟨⟨_ | ⟨sp, ptrs⟩, r1⟩, hargs, h⟩ := of_bind_ok h
  · cases h
  obtain ⟨⟨b, r2⟩, hcopy, h⟩ := of_bind_ok h
  cases b with
  | false => cases h
  | true =>
    cases h
    exact ⟨sp, ptrs, r1, hargs, hcopy, rfl⟩

theorem ustack_range {m esp n : ℕ} (htwo : 2 ≤ m) (hlt : m * 4096 < 2 ^ 31) (h1 : (m - 1) * 4096 ≤ sp) (h2 : sp ≤ m * 4096)
    (h3 : sp % 4 = 0) (hn : n < 32) (hesp : esp = sp - 4 * (n + 4)) :
    esp % 4 = 0 ∧ esp + 4 * (n + 4) = sp ∧ esp + 4 * (n + 4) ≤ m * 4096 ∧ (m - 2) * 4096 < esp + 4 * (n + 4) ∧
      (sp + 2 ^ 32 - (n + 1) * 4) % 2 ^ 32 = esp + 12 ∧ m * 4096 ≤ (m - 1) * 4096 + 4096 ∧ esp + 12 < 2 ^ 32 := by
  omega

/-- **The stack.** If all copies succeed, then the arguments are passed in the stack page, and no other page was written to. -/
theorem pushAll_stack {m : ℕ} (h : Fresh L s m) {r r' : Pages} {esp : ℕ}
    (hrun : pushAll s r (m * 4096) argv = .ok (some esp, r')) (hlens : ∀ a ∈ argv, a.length < 2 ^ 31)
    (hcount : argv.length < MAXARG) : (∃ ptrs, Passed s r' (m * 4096) esp argv ptrs) ∧
      ∀ q ≠ frameAt s (m - 1), r' q = r q := by
  have htwo := h.two
  have hlt := h.bytes_lt
  obtain ⟨sp, ptrs, r1, hargs, hcopy, hpush⟩ := pushAll_cases hrun
  obtain ⟨hplaced, hbase, halign, hother, -, hptrs⟩ := pushArgs_stack h argv hargs hlens (by omega) le_rfl (by omega)
  obtain ⟨hlen, hle⟩ := hplaced.length_eq
  have hesp : esp = sp - 4 * (argv.length + 4) := by
    rw [hpush]
    unfold MAXARG at hcount
    unfold pushStack ustackBytes
    omega
  rw [← hpush] at hcopy
  obtain ⟨haligned, hsp, hend, hlow, hthird, htop, hword⟩ := ustack_range htwo hlt hbase hle halign hcount hesp
  have hlist : ustack argv.length sp ptrs = [0xffffffff, argv.length, esp + 12] ++ ptrs ++ [0] := by
    unfold ustack
    rw [hthird]
  have hwords : (ustack argv.length sp ptrs).length = argv.length + 4 := by
    simp [ustack, hlen]
  have hsmall : ∀ q ∈ ustack argv.length sp ptrs, q < 2 ^ 32 := by
    intro q hq
    simp only [hlist, mem_append, mem_cons, not_mem_nil, or_false] at hq
    rcases hq with ((rfl | rfl | rfl) | hq) | rfl
    · norm_num
    · exact hcount.trans (by unfold MAXARG; norm_num)
    · exact hword
    · exact hptrs q hq
    · norm_num
  generalize ustack argv.length sp ptrs = ws at hcopy hlist hwords hsmall
  obtain ⟨hstart, hstack, hother2, hsame⟩ :=
    copyout_words h hsmall (by rw [hwords]; exact Nat.succ_pos _) (by rw [hwords]; exact hend) (by rw [hwords]; exact hlow) hcopy
  rw [hwords, hsp] at hsame
  rw [hwords] at hstack
  have hplaced' := hplaced.congr hsame htop
  refine ⟨⟨ptrs, haligned, by rw [hstack, hlist], hplaced'.strings (fun x => userByte_stack r') htop, hplaced'.apart,
    fun x hx => ?_, ?_, hend⟩, fun q hq => (hother2 q hq).trans (hother q hq)⟩
  · obtain ⟨-, h2, h3⟩ := hplaced.within x hx
    exact ⟨by rw [hsp]; exact h2, h3⟩
  · exact le_trans (by unfold PGSIZE; omega) hstart

end Arguments

/-! ## The segments -/

/-- the j-th program header -/
def header (f : List Byte) (off j : ℕ) : List Byte := (f.drop ((off + 32 * j) % 2 ^ 32)).take 32

/-- the header is of a segment to load, and the bytes of the segment in the file cover va -/
def Covers (va : ℕ) (ph : List Byte) : Prop := field ph 0 4 = 1 ∧ field ph 8 4 ≤ va ∧ va < field ph 8 4 + field ph 16 4

instance (va : ℕ) (ph : List Byte) : Decidable (Covers va ph) := inferInstanceAs (Decidable (_ ∧ _))

/-- the byte that the headers phs of the file f put at va -/
def imageByte (f : List Byte) (phs : List (List Byte)) (va : ℕ) : Byte :=
  match (phs.filter fun ph => decide (Covers va ph)).getLast? with
  | none => 0
  | some ph => f.getD ((field ph 4 4 + (va - field ph 8 4)) % 2 ^ 32) 0

/-- where the last of the segments ends -/
def loadSize (phs : List (List Byte)) : ℕ :=
  ((phs.filter fun ph => field ph 0 4 = 1).map fun ph => field ph 8 4 + field ph 20 4).foldl max 0

theorem imageByte_concat (f : List Byte) (phs : List (List Byte)) (ph : List Byte) (va : ℕ) :
    imageByte f (phs ++ [ph]) va =
      if Covers va ph then f.getD ((field ph 4 4 + (va - field ph 8 4)) % 2 ^ 32) 0 else imageByte f phs va := by
  unfold imageByte
  by_cases h : Covers va ph
  · rw [if_pos h, filter_append, filter_cons_of_pos (by simpa using h), filter_nil, getLast?_concat]
  · rw [if_neg h, filter_append, filter_cons_of_neg (by simpa using h), filter_nil, append_nil]

theorem imageByte_none {f : List Byte} {phs : List (List Byte)} {va : ℕ} (h : ∀ ph ∈ phs, ¬ Covers va ph) :
    imageByte f phs va = 0 := by
  unfold imageByte
  rw [filter_eq_nil_iff.2 fun ph hph => by simpa using h ph hph]
  rfl

theorem loadSize_concat_load {phs : List (List Byte)} {ph : List Byte} (h : field ph 0 4 = 1) :
    loadSize (phs ++ [ph]) = max (loadSize phs) (field ph 8 4 + field ph 20 4) := by
  unfold loadSize
  rw [filter_append, filter_cons_of_pos (by simpa using h), filter_nil, map_append, foldl_append]
  rfl

theorem loadSize_concat_skip {phs : List (List Byte)} {ph : List Byte} (h : field ph 0 4 ≠ 1) :
    loadSize (phs ++ [ph]) = loadSize phs := by
  unfold loadSize
  rw [filter_append, filter_cons_of_neg (by simpa using h), filter_nil, append_nil]

theorem readi_some {f l : List Byte} {n : ℕ} (h : readi f off n = some l) : l = (f.drop off).take n ∧ off + n < 2 ^ 32 := by
  unfold readi at h
  split_ifs at h with hbad
  cases h
  exact ⟨rfl, by omega⟩

theorem readi_getD {f l : List Byte} {n i : ℕ} (h : readi f off n = some l) (hi : i < l.length) :
    l.getD i 0 = f.getD (off + i) 0 := by
  obtain ⟨rfl, -⟩ := readi_some h
  have hn : i < n := by
    rw [length_take] at hi
    omega
  rw [getD_eq_getElem?_getD, getD_eq_getElem?_getD, getElem?_take_of_lt hn, getElem?_drop]

theorem loaduvm_cons {f : List Byte} {s : Space} {addr sz j : ℕ} {r r' : Pages} {js : List ℕ}
    (h : loaduvm f s addr off sz r (j :: js) = .ok (true, r')) :
    ∃ l, readi f ((off + 4096 * j) % 2 ^ 32) (min (sz - 4096 * j) 4096) = some l ∧ l.length = min (sz - 4096 * j) 4096 ∧
      loaduvm f s addr off sz (memmove r (frameAt s (addr / 4096 + j)) 0 l) js = .ok (true, r') := by
  unfold loaduvm at h
  cases ht : s.tab ((addr / 4096 + j) / 1024) with
  | none =>
    rw [ht] at h
    cases h
  | some t =>
    rw [ht] at h
    dsimp only at h
    cases hread : readi f ((off + 4096 * j) % 2 ^ 32) (min (sz - 4096 * j) 4096) with
    | none =>
      rw [hread] at h
      cases h
    | some l =>
      rw [hread] at h
      dsimp only at h
      by_cases hlen : l.length ≠ min (sz - 4096 * j) 4096
      · rw [if_pos hlen] at h
        cases h
      · rw [if_neg hlen] at h
        exact ⟨l, rfl, not_not.1 hlen, h⟩

/-- the address of a byte of page j of a segment, in the file -/
theorem segment_offset {j i va addr : ℕ} (hlt : (off + 4096 * j) % 2 ^ 32 + i < 2 ^ 32) (hva : va - addr = 4096 * j + i) :
    (off + 4096 * j) % 2 ^ 32 + i = (off + (va - addr)) % 2 ^ 32 := by
  omega

/-- **loaduvm.** It puts the bytes of the file where the segment is and leaves the others. -/
theorem loaduvm_bytes {f : List Byte} {s : Space} {addr sz n : ℕ} {r' : Pages} (halign : addr % 4096 = 0)
    (hinj : ∀ x < n, ∀ y < n, frameAt s x = frameAt s y → x = y) (js : List ℕ) : ∀ {r : Pages},
    loaduvm f s addr off sz r js = .ok (true, r') → js.Nodup → (∀ j ∈ js, addr / 4096 + j < n) →
    ∀ va, va / 4096 < n → userByte s r' va =
      if addr ≤ va ∧ (va - addr) / 4096 ∈ js ∧ va - addr < sz then f.getD ((off + (va - addr)) % 2 ^ 32) 0
      else userByte s r va := by
  induction js with
  | nil =>
    intro r h _ _ va _
    cases h
    rw [if_neg fun hc => absurd hc.2.1 not_mem_nil]
  | cons j js ih =>
    intro r h hnd hjs va hva
    obtain ⟨hj, hnd⟩ := nodup_cons.1 hnd
    obtain ⟨l, hread, hlen, h⟩ := loaduvm_cons h
    have hrest := ih h hnd (fun i hi => hjs i (mem_cons_of_mem _ hi)) va hva
    rw [hrest]
    by_cases hold : addr ≤ va ∧ (va - addr) / 4096 ∈ js ∧ va - addr < sz
    · rw [if_pos hold, if_pos ⟨hold.1, mem_cons_of_mem _ hold.2.1, hold.2.2⟩]
    rw [if_neg hold]
    by_cases hpage : va / 4096 = addr / 4096 + j
    · have hgeom : addr ≤ va ∧ (va - addr) / 4096 = j ∧ va - addr = 4096 * j + va % 4096 := by omega
      have hlow : va % 4096 < 4096 := Nat.mod_lt _ (by norm_num)
      unfold userByte
      rw [hpage, memmove_same _ _ _ _ hlow, Nat.sub_zero, Nat.zero_add]
      by_cases hin : va - addr < sz
      · have hi : va % 4096 < l.length := by
          rw [hlen]
          omega
        have hwrap := (readi_some hread).2
        rw [if_pos ⟨Nat.zero_le _, hi⟩, if_pos ⟨hgeom.1, by rw [hgeom.2.1]; exact mem_cons_self, hin⟩, readi_getD hread hi,
          segment_offset (by omega) hgeom.2.2]
      · rw [if_neg (by rw [hlen]; omega), if_neg fun hc => hin hc.2.2]
    · have hne : frameAt s (va / 4096) ≠ frameAt s (addr / 4096 + j) := fun heq =>
        hpage (hinj _ hva _ (hjs j mem_cons_self) heq)
      have hsame : userByte s (memmove r (frameAt s (addr / 4096 + j)) 0 l) va = userByte s r va := by
        unfold userByte
        rw [memmove_other _ _ _ hne]
      rw [hsame, if_neg]
      rintro ⟨h1, h2, h3⟩
      rcases mem_cons.1 h2 with h2 | h2
      · omega
      · exact hold ⟨h1, h2, h3⟩

/-! ## The image -/

section Image

variable {L : Layout} {f : List Byte} {F : Multiset ℕ} {phs : List (List Byte)} {m : Phys} {s : Space} {sz : ℕ}

/-- an image in the making, of pages from F: it holds what the headers phs say -/
structure Built (L : Layout) (f : List Byte) (F : Multiset ℕ) (phs : List (List Byte)) (m : Phys) (s : Space) (sz : ℕ) :
    Prop where
  ok : Image.Ok L ⟨s, sz⟩
  pages : (m.kmem.freelist : Multiset ℕ) + s.pages = F
  pte : ∀ x < numPages sz, ∃ q, s.pte x = some ⟨q, true, true⟩
  ends : ∀ ph ∈ phs, field ph 0 4 = 1 → field ph 8 4 + field ph 16 4 ≤ sz
  bytes : ∀ va, va / 4096 < numPages sz → userByte s m.ram va = imageByte f phs va

theorem frameAt_of_pte {x : ℕ} {e : Pte} (h : s.pte x = some e) : frameAt s x = e.frame := by
  unfold frameAt
  rw [h]
  rfl

section

variable (h : Built L f F phs m s sz)
include h

theorem Built.full : Full s (numPages sz) := fun x hx => by
  obtain ⟨q, hq⟩ := h.pte x hx
  rw [hq]
  nofun

theorem Built.le : numPages sz ≤ KERNBASE := numPages_le (Nat.le_of_lt h.ok.lt)

theorem Built.nodup (hnodup : F.Nodup) : s.pages.Nodup := by
  rw [← h.pages] at hnodup
  exact (Multiset.nodup_add.1 hnodup).2.1

theorem Built.inj (hnodup : F.Nodup) : ∀ x < numPages sz, ∀ y < numPages sz, frameAt s x = frameAt s y → x = y := by
  intro x hx y hy heq
  obtain ⟨q, hq⟩ := h.pte x hx
  obtain ⟨q', hq'⟩ := h.pte y hy
  rw [frameAt_of_pte hq, frameAt_of_pte hq'] at heq
  exact pte_inj (h.nodup hnodup) (hx.trans_le h.le) (hy.trans_le h.le) hq hq' heq

end

theorem Built.empty (hs : s.Ok) (hkvm : s.Kvm L) (hempty : ∀ x < KERNBASE, s.pte x = none)
    (hacc : (m.kmem.freelist : Multiset ℕ) + s.pages = F) : Built L f F [] m s 0 := by
  have hnone : ∀ x, ¬ x < numPages 0 := fun x hx => by
    rw [numPages_zero] at hx
    omega
  exact ⟨.empty hs hkvm hempty, hacc, fun x hx => absurd hx (hnone x), fun ph hph => absurd hph not_mem_nil,
    fun va hva => absurd hva (hnone _)⟩

variable {m' : Phys} {argv : List (List Byte)} {p p' : Exec.Proc}

section

variable (h : Built L f F phs m s sz)
include h

/-- the pages that allocuvm adds are empty, and no header has said anything about them -/
theorem Built.of_grown {s' : Space} {newsz : ℕ} (hle : sz ≤ newsz)
    (hlt : newsz < KERNBASE * PGSIZE) (hg : Grown m s (numPages sz) (numPages newsz) 0 m' s') : Built L f F phs m' s' newsz := by
  have hkb := numPages_le (Nat.le_of_lt hlt)
  refine ⟨⟨hg.ok, h.ok.kvm.congr fun x hx => hg.same x (.inr hx), hlt, hg.above⟩, ?_, fun x hx => ?_,
    fun ph hph hload => (h.ends ph hph hload).trans hle, fun va hva => ?_⟩
  · have := hg.pages
    rw [zero_add, h.pages] at this
    exact this
  · by_cases hlow : x < numPages sz
    · rw [hg.same x (.inl hlow)]
      exact h.pte x hlow
    · obtain ⟨q, hq, -⟩ := hg.new x (by omega) hx
      exact ⟨q, hq⟩
  · by_cases hlow : va / 4096 < numPages sz
    · obtain ⟨q, hq⟩ := h.pte _ hlow
      have hq' : s'.pte (va / 4096) = some ⟨q, true, true⟩ := by
        rw [hg.same _ (.inl hlow)]
        exact hq
      rw [← h.bytes va hlow]
      unfold userByte
      rw [frameAt_of_pte hq, frameAt_of_pte hq', hg.kept q (frame_mem_pages (by omega) hq)]
    · obtain ⟨q, hq, hzero⟩ := hg.new (va / 4096) (by omega) hva
      have hnone : ∀ ph ∈ phs, ¬ Covers va ph := by
        rintro ph hph ⟨hload, -, hcover⟩
        have := h.ends ph hph hload
        unfold numPages at hlow
        omega
      rw [imageByte_none hnone]
      unfold userByte
      rw [frameAt_of_pte hq, hzero]
      unfold Bytes.get Bytes.zero
      split_ifs <;> rfl

theorem Built.grow (hfine : Fine L F) (hnodup : F.Nodup) {newsz : ℕ} {a : ℕ × Phys × Space}
    (hrun : allocuvm L m s sz newsz = .ok a) (h0 : a.1 ≠ 0) : a.1 = max sz newsz ∧ Built L f F phs a.2.1 a.2.2 a.1 := by
  obtain ⟨r, m', s', hrun', hres⟩ := allocuvm_grown m sz newsz h.ok.space (by rw [h.pages]; exact hfine)
    (by rw [h.pages]; exact hnodup) h.ok.above
  rw [hrun'] at hrun
  obtain rfl := Except.ok.inj hrun
  rcases hres with ⟨hr, hle, hlt, hg⟩ | ⟨hr, -⟩ | ⟨hlt, hr, hm, hs⟩
  · dsimp only
    rw [hr]
    exact ⟨(max_eq_right hle).symm, h.of_grown hle hlt hg⟩
  · exact absurd hr h0
  · dsimp only
    rw [hr, hm, hs]
    exact ⟨(max_eq_left (Nat.le_of_lt hlt)).symm, h⟩

theorem Built.load (hnodup : F.Nodup) {ph : List Byte} (hload : field ph 0 4 = 1)
    (halign : field ph 8 4 % 4096 = 0) (hend : field ph 8 4 + field ph 16 4 ≤ sz) {r : Pages}
    (hrun : loaduvm f s (field ph 8 4) (field ph 4 4) (field ph 16 4) m.ram
      (List.range ((field ph 16 4 + 4095) / 4096)) = .ok (true, r)) :
    Built L f F (phs ++ [ph]) ⟨m.kmem, r⟩ s sz := by
  refine ⟨h.ok, h.pages, h.pte, fun ph' hph' hl => ?_, fun va hva => ?_⟩
  · rcases mem_append.1 hph' with hph' | hph'
    · exact h.ends ph' hph' hl
    · rw [mem_singleton.1 hph']
      exact hend
  · have hpages : ∀ j ∈ List.range ((field ph 16 4 + 4095) / 4096), field ph 8 4 / 4096 + j < numPages sz := by
      intro j hj
      have := mem_range.1 hj
      unfold numPages
      omega
    rw [loaduvm_bytes halign (h.inj hnodup) _ hrun nodup_range hpages va hva, imageByte_concat, h.bytes va hva]
    refine if_congr ?_ rfl rfl
    unfold Covers
    rw [mem_range]
    constructor
    · rintro ⟨h1, -, h3⟩
      exact ⟨hload, h1, by omega⟩
    · rintro ⟨-, h1, h2⟩
      exact ⟨h1, by omega, by omega⟩

theorem Built.skip {ph : List Byte} (hload : field ph 0 4 ≠ 1) : Built L f F (phs ++ [ph]) m s sz := by
  refine ⟨h.ok, h.pages, h.pte, fun ph' hph' hl => ?_, fun va hva => ?_⟩
  · rcases mem_append.1 hph' with hph' | hph'
    · exact h.ends ph' hph' hl
    · rw [mem_singleton.1 hph'] at hl
      exact absurd hl hload
  · rw [imageByte_concat, if_neg fun hc => hload hc.1]
    exact h.bytes va hva

end

/-- what a round of the loop over the headers has done, if exec goes on -/
theorem loadSegments_cons {off j : ℕ} {js : List ℕ} {sz' : ℕ} {s' : Space}
    (h : loadSegments L f off m s sz (j :: js) = .ok (some sz', m', s')) :
    (field (header f off j) 0 4 ≠ 1 ∧ loadSegments L f off m s sz js = .ok (some sz', m', s')) ∨
    (field (header f off j) 0 4 = 1 ∧ field (header f off j) 16 4 ≤ field (header f off j) 20 4 ∧
      field (header f off j) 8 4 % 4096 = 0 ∧ ∃ a r,
        allocuvm L m s sz (field (header f off j) 8 4 + field (header f off j) 20 4) = .ok a ∧ a.1 ≠ 0 ∧
        loaduvm f a.2.2 (field (header f off j) 8 4) (field (header f off j) 4 4) (field (header f off j) 16 4) a.2.1.ram
          (List.range ((field (header f off j) 16 4 + 4095) / 4096)) = .ok (true, r) ∧
        loadSegments L f off ⟨a.2.1.kmem, r⟩ a.2.2 a.1 js = .ok (some sz', m', s')) := by
  unfold loadSegments at h
  cases hread : readi f ((off + 32 * j) % 2 ^ 32) 32 with
  | none =>
    rw [hread] at h
    cases h
  | some ph =>
    obtain ⟨hph, -⟩ := readi_some hread
    have hph : header f off j = ph := hph.symm
    rw [hph]
    rw [hread] at h
    dsimp only at h
    by_cases h1 : ph.length ≠ 32
    · rw [if_pos h1] at h
      cases h
    rw [if_neg h1] at h
    by_cases h2 : field ph 0 4 ≠ 1
    · rw [if_pos h2] at h
      exact .inl ⟨h2, h⟩
    rw [if_neg h2] at h
    by_cases h3 : field ph 20 4 < field ph 16 4
    · rw [if_pos h3] at h
      cases h
    rw [if_neg h3] at h
    by_cases h4 : (field ph 8 4 + field ph 20 4) % 2 ^ 32 < field ph 8 4
    · rw [if_pos h4] at h
      cases h
    rw [if_neg h4] at h
    obtain ⟨a, ha, h⟩ := of_bind_ok h
    by_cases h5 : a.1 = 0
    · rw [if_pos h5] at h
      cases h
    rw [if_neg h5] at h
    by_cases h6 : field ph 8 4 % 4096 ≠ 0
    · rw [if_pos h6] at h
      cases h
    rw [if_neg h6] at h
    obtain ⟨⟨b, r⟩, hx, h⟩ := of_bind_ok h
    -- the sum does not wrap around
    have hsum : (field ph 8 4 + field ph 20 4) % 2 ^ 32 = field ph 8 4 + field ph 20 4 := by
      have hv := Exec.field_lt ph 8
      have hm := Exec.field_lt ph 20
      omega
    rw [hsum] at ha
    cases b with
    | false => cases h
    | true => exact .inr ⟨not_not.1 h2, Nat.le_of_not_lt h3, not_not.1 h6, a, r, ha, h5, hx, h⟩

/-- **The segments.** The loop over the headers builds the image that they describe, of the size that they describe. -/
theorem loadSegments_built (hfine : Fine L F) (hnodup : F.Nodup) {off sz' : ℕ} {s' : Space} (js : List ℕ) :
    ∀ {phs : List (List Byte)} {m : Phys} {s : Space} {sz : ℕ}, loadSegments L f off m s sz js = .ok (some sz', m', s') →
      Built L f F phs m s sz → sz = loadSize phs →
      Built L f F (phs ++ js.map (header f off)) m' s' sz' ∧ sz' = loadSize (phs ++ js.map (header f off)) := by
  induction js with
  | nil =>
    intro phs m s sz h hb hsz
    cases h
    rw [map_nil, append_nil]
    exact ⟨hb, hsz⟩
  | cons j js ih =>
    intro phs m s sz h hb hsz
    have hlist : phs ++ (j :: js).map (header f off) = (phs ++ [header f off j]) ++ js.map (header f off) := by simp
    rw [hlist]
    rcases loadSegments_cons h with ⟨hskip, h⟩ | ⟨hload, hfit, halign, a, r, ha, h0, hx, h⟩
    · exact ih h (hb.skip hskip) (by rw [loadSize_concat_skip hskip, hsz])
    · obtain ⟨hmax, hb'⟩ := hb.grow hfine hnodup ha h0
      refine ih h (hb'.load hnodup hload halign ?_ hx) (by rw [loadSize_concat_load hload, hmax, hsz])
      rw [hmax]
      exact le_trans (Nat.add_le_add_left hfit _) (le_max_right _ _)

/-- the arguments are still passed if no byte of the image changes -/
theorem Passed.congr {r r' : Pages} {esp : ℕ} {ptrs : List ℕ} (h : Passed s r sz esp argv ptrs)
    (hsame : ∀ x < sz, userByte s r' x = userByte s r x) : Passed s r' sz esp argv ptrs := by
  refine ⟨h.aligned, ?_, ?_, h.apart, h.above, h.page⟩
  · rw [← h.words]
    refine map_congr_left fun i hi => ?_
    have hi := mem_range.1 hi
    have hend := h.page.2
    unfold userWord
    rw [hsame _ (by omega), hsame _ (by omega), hsame _ (by omega), hsame _ (by omega)]
  · rw [List.forall₂_iff_zip]
    obtain ⟨hlen, hstr⟩ := List.forall₂_iff_zip.1 h.strings
    refine ⟨hlen, fun {a q} hmem => ?_⟩
    rw [← hstr hmem]
    refine map_congr_left fun i hi => hsame _ ?_
    have hi := mem_range.1 hi
    have hend := (h.above _ hmem).2
    dsimp only at hend
    omega

theorem execBad_ne : execBad L m s p ≠ .ok (0, m', p') := by
  intro h
  obtain ⟨m1, -, h⟩ := of_bind_ok h
  exact absurd (congrArg Prod.fst (Except.ok.inj h)) (show ¬ (-1 : ℤ) = 0 by decide)

/-- what exec leaves when it returns 0, sz being the size of the segments -/
structure Replaced (L : Layout) (f : List Byte) (phs argv : List (List Byte)) (sz : ℕ) (m : Phys) (p : Exec.Proc) : Prop where
  size : p.image.sz = (numPages sz + 2) * 4096
  fresh : Fresh L p.image.space (numPages sz + 2)
  pte : ∀ x < numPages sz, ∃ q, p.image.space.pte x = some ⟨q, true, true⟩
  stack : ∃ q, p.image.space.pte (numPages sz + 1) = some ⟨q, true, true⟩
  bytes : ∀ va, va / 4096 < numPages sz → userByte p.image.space m.ram va = imageByte f phs va
  args : ∃ ptrs, Passed p.image.space m.ram p.image.sz p.esp argv ptrs

theorem Built.stack (hb : Built L f F phs m s sz) (hfine : Fine L F) (hnodup : F.Nodup) {a : ℕ × Phys × Space}
    (ha : allocuvm L m s (numPages sz * PGSIZE) (numPages sz * PGSIZE + 2 * PGSIZE) = .ok a) (h0 : a.1 ≠ 0) :
    a.1 = (numPages sz + 2) * 4096 ∧ Grown m s (numPages sz) (numPages sz + 2) 0 a.2.1 a.2.2 ∧
      ∃ s', clearpteu a.2.2 (a.1 / 4096 - 2) = .ok s' ∧ s'.pages = a.2.2.pages ∧ Fresh L s' (numPages sz + 2) ∧
        ∀ x ≠ numPages sz, s'.pte x = a.2.2.pte x := by
  have hround : numPages (numPages sz * PGSIZE) = numPages sz := by
    unfold numPages PGSIZE
    omega
  have hnum : numPages (numPages sz * PGSIZE + 2 * PGSIZE) = numPages sz + 2 := by
    unfold numPages PGSIZE
    omega
  have hsize : numPages sz * PGSIZE + 2 * PGSIZE = (numPages sz + 2) * 4096 := by
    unfold PGSIZE
    omega
  obtain ⟨r, m1, s1, hrun, hres⟩ := allocuvm_grown m (numPages sz * PGSIZE) (numPages sz * PGSIZE + 2 * PGSIZE) hb.ok.space
    (by rw [hb.pages]; exact hfine) (by rw [hb.pages]; exact hnodup) (by rw [hround]; exact hb.ok.above)
  rw [hrun] at ha
  obtain rfl := Except.ok.inj ha
  dsimp only at h0 ⊢
  rcases hres with ⟨hr, -, hlt, hg⟩ | ⟨hr, -⟩ | ⟨hless, -⟩
  · rw [hround, hnum] at hg
    rw [hsize] at hr hlt
    have hlt' : numPages sz + 2 < KERNBASE := by
      simp only [PGSIZE] at hlt
      omega
    obtain ⟨s', hclear, hpages, hfresh, hother⟩ := fresh_of_cleared hb.ok.kvm hb.full hg.ok hg.same
      (fun x h1 h2 => by obtain ⟨q, hq, -⟩ := hg.new x h1 h2; exact ⟨_, hq, rfl⟩) hg.above hlt'
    refine ⟨hr, hg, s', ?_, hpages, hfresh, hother⟩
    rw [hr, show (numPages sz + 2) * 4096 / 4096 - 2 = numPages sz by omega]
    exact hclear
  · exact absurd hr h0
  · exact absurd hless (Nat.not_lt_of_le (Nat.le_add_right _ _))

/-- **The end of exec.** The stack is written without touching the segments, and freeing the old image leaves both. -/
theorem commit_replaces {path : List Byte} {entry : ℕ}
    (hb : Built L f F phs m s sz) (hcur : p.image.Ok L) (hfine : Fine L (F + p.image.space.pages))
    (hnodup : (F + p.image.space.pages).Nodup) (hlens : ∀ a ∈ argv, a.length < 2 ^ 31) (hcount : argv.length < MAXARG)
    (h : commit L path entry argv m s sz p = .ok (0, m', p')) : p'.eip = entry ∧ Replaced L f phs argv sz m' p' := by
  obtain ⟨hndF, -, hdisj⟩ := Multiset.nodup_add.1 hnodup
  have hfineF : Fine L F := hfine.of_le (Multiset.le_add_right _ _)
  unfold commit at h
  obtain ⟨a, ha, h⟩ := of_bind_ok h
  by_cases h0 : a.1 = 0
  · rw [if_pos h0] at h
    exact absurd h execBad_ne
  rw [if_neg h0] at h
  obtain ⟨s4, h4, h⟩ := of_bind_ok h
  obtain ⟨⟨o, r⟩, hpush, h⟩ := of_bind_ok h
  cases o with
  | none => exact absurd h execBad_ne
  | some sp =>
    obtain ⟨m5, hfree, h⟩ := of_bind_ok h
    obtain ⟨hr, hg, s'', hclear, hpages, hfresh, hother⟩ := hb.stack hfineF hndF ha h0
    have hlt' := hfresh.lt
    rw [hclear] at h4
    obtain rfl := Except.ok.inj h4
    rw [hr] at hpush h
    dsimp only at hfree h
    obtain ⟨hpassed, hsame⟩ := pushAll_stack hfresh hpush hlens hcount
    rw [show numPages sz + 2 - 1 = numPages sz + 1 by omega] at hsame
    obtain ⟨q, hq, -⟩ := hg.new (numPages sz + 1) (by omega) (by omega)
    rw [← hother _ (by omega)] at hq
    have hframe := frameAt_of_pte hq
    have hle : s''.pages ≤ F := by
      rw [hpages, ← hb.pages, ← hg.pages, zero_add]
      exact Multiset.le_add_left _ _
    have hin : ∀ {x : ℕ} {e : Pte}, x < KERNBASE → s''.pte x = some e → e.frame ∉ p.image.space.pages := fun hx he =>
      Multiset.disjoint_left.1 hdisj (Multiset.mem_of_le hle (frame_mem_pages hx he))
    obtain ⟨rfl, rfl⟩ := Prod.mk.inj (Prod.mk.inj (Except.ok.inj h)).2
    have hkept : ∀ x, x / 4096 < numPages sz + 2 → userByte s'' m5.ram x = userByte s'' r x := by
      intro x hx
      obtain ⟨e, he⟩ := Option.ne_none_iff_exists'.1 (hfresh.full _ hx)
      unfold userByte
      rw [frameAt_of_pte he]
      have hle' : (a.2.1.kmem.freelist : Multiset ℕ) + p.image.space.pages ≤ F + p.image.space.pages := by
        rw [← hb.pages, ← hg.pages, zero_add]
        exact Multiset.add_le_add_right (Multiset.le_add_right _ _)
      rw [freevm_kept (m := ⟨a.2.1.kmem, r⟩) hcur.space (hfine.of_le hle') hfree (hin (by omega) he)]
    obtain ⟨ptrs, hpassed⟩ := hpassed
    refine ⟨rfl, rfl, hfresh, fun x hx => ?_, ⟨q, hq⟩, fun va hva => ?_, ptrs, hpassed.congr fun x hx => hkept x (by omega)⟩
    · dsimp only
      rw [hother x (by omega), hg.same x (.inl hx)]
      exact hb.pte x hx
    · dsimp only
      obtain ⟨e, he⟩ := hb.pte _ hva
      have he'' : s''.pte (va / 4096) = some ⟨e, true, true⟩ := by
        rw [hother _ (by omega), hg.same _ (.inl hva)]
        exact he
      have hne : e ≠ q := fun heq => by
        have := pte_inj (Multiset.nodup_of_le hle hndF) (by omega) (by omega) he'' hq heq
        omega
      rw [hkept va (by omega), ← hb.bytes va hva]
      unfold userByte
      rw [frameAt_of_pte he, frameAt_of_pte he'', hsame e (by rw [hframe]; exact hne),
        hg.kept e (frame_mem_pages (by omega) he)]

/-- the program headers of a file -/
def headers (f : List Byte) : List (List Byte) :=
  (List.range (field (f.take 52) 44 2)).map (header f (field (f.take 52) 28 4))

/-- **exec that returns 0.** -/
theorem exec_replaces {path : List Byte}
    (hcur : p.image.Ok L) (hfine : Fine L (m.kmem.freelist + p.image.space.pages))
    (hnodup : ((m.kmem.freelist : Multiset ℕ) + p.image.space.pages).Nodup) (hlens : ∀ a ∈ argv, a.length < 2 ^ 31)
    (hcount : argv.length < MAXARG) (h : exec L f path argv m p = .ok (0, m', p')) :
    p'.eip = field (f.take 52) 24 4 ∧ Replaced L f (headers f) argv (loadSize (headers f)) m' p' ∧
      ∃ k s0 x, Mem.setupkvm L m.kmem = .ok (some s0, k) ∧ loadSegments L f (field (f.take 52) 28 4) ⟨k, m.ram⟩ s0 0
        (List.range (field (f.take 52) 44 2)) = .ok (some (loadSize (headers f)), x) := by
  have hbad : ∀ {x : Phys × Exec.Proc}, (Except.ok (-1, x) : Except Panic (ℤ × Phys × Exec.Proc)) ≠ .ok (0, m', p') :=
    fun hx => absurd (congrArg Prod.fst (Except.ok.inj hx)) (show ¬ (-1 : ℤ) = 0 by decide)
  unfold exec at h
  cases hread : readi f 0 52 with
  | none =>
    rw [hread] at h
    exact absurd h hbad
  | some elf =>
    obtain ⟨helf, -⟩ := readi_some hread
    rw [drop_zero] at helf
    rw [hread] at h
    dsimp only at h
    by_cases h1 : elf.length ≠ 52
    · rw [if_pos h1] at h
      exact absurd h hbad
    rw [if_neg h1] at h
    by_cases h2 : field elf 0 4 ≠ 0x464C457F
    · rw [if_pos h2] at h
      exact absurd h hbad
    rw [if_neg h2] at h
    obtain ⟨⟨o, m1⟩, hkvm, h⟩ := of_bind_ok h
    cases o with
    | none => exact absurd h hbad
    | some s0 =>
      obtain ⟨⟨o, m2, s2⟩, hload, hlast⟩ := of_bind_ok h
      cases o with
      | none => exact absurd hlast execBad_ne
      | some sz =>
        have hfree : Fine L (m.kmem.freelist : Multiset ℕ) := hfine.of_le (Multiset.le_add_right _ _)
        obtain ⟨hkvm, hram⟩ := setupkvm_some_iff.1 hkvm
        obtain ⟨r, k', hrun, -, hsome, -⟩ := setupkvm_spec L m.kmem hfree
        rw [hrun] at hkvm
        obtain ⟨rfl, rfl⟩ := Prod.mk.inj (Except.ok.inj hkvm)
        obtain ⟨hacc, hs, hk, hempty⟩ := hsome s0 rfl
        have hstart : Built L f (m.kmem.freelist : Multiset ℕ) [] m1 s0 0 := .empty hs hk hempty hacc
        obtain ⟨hb, hsz⟩ := loadSegments_built hfree (Multiset.nodup_add.1 hnodup).1 _ hload hstart rfl
        rw [nil_append, helf] at hb hsz
        obtain ⟨hentry, hrep⟩ := commit_replaces hb hcur hfine hnodup hlens hcount hlast
        rw [hsz] at hrep hload
        rw [helf] at hload hentry
        exact ⟨hentry, hrep, m1.kmem, s0, _, hrun, by rw [← hram]; exact hload⟩

end Image

/-! ## A run that returns 0 -/

section Run

variable {L : Layout} {s : Space}

theorem copyLoop_page {r : Pages} {v o : ℕ} {b : List Byte} (hs : s.Ok) {e : Pte} (he : s.pte v = some e) (hu : e.u = true) :
    copyLoop s r v o b 1 = .ok (true, memmove r e.frame o (b.take (4096 - o))) := by
  unfold copyLoop
  rw [uva2ka_of_pte hs he, hu]
  rfl

theorem copyout_ok {m : ℕ} (h : Fresh L s m) {e : Pte} (he : s.pte (m - 1) = some e) (hu : e.u = true) {va : ℕ} {b : List Byte}
    (hb : 0 < b.length) (hlow : (m - 1) * 4096 ≤ va) (hend : va + b.length ≤ m * 4096) (r : Pages) :
    ∃ r', copyout s r va b = .ok (true, r') := by
  have htwo := h.two
  have hn : numPages (va % 4096 + b.length) = 1 := by
    unfold numPages
    omega
  refine ⟨memmove r e.frame (va % 4096) (b.take (4096 - va % 4096)), ?_⟩
  unfold copyout
  rw [if_neg (by omega), hn, show va / 4096 = m - 1 by omega]
  exact copyLoop_page h.ok he hu

theorem pushArgs_one {r r' : Pages} {argc sp : ℕ} {a : List Byte} (hargc : argc < MAXARG)
    (h : copyout s r (push sp a.length) (a ++ [0]) = .ok (true, r')) :
    pushArgs s r argc sp [a] = .ok (some (push sp a.length, [push sp a.length]), r') := by
  unfold pushArgs
  rw [if_neg (Nat.not_le_of_lt hargc), h]
  rfl

variable {argv : List (List Byte)}

theorem pushAll_run {r r1 r2 : Pages} {sz sp : ℕ} {ptrs : List ℕ}
    (hargs : pushArgs s r 0 sz argv = .ok (some (sp, ptrs), r1))
    (hcopy : copyout s r1 (pushStack sp argv.length) ((ustack argv.length sp ptrs).flatMap wordBytes) = .ok (true, r2)) :
    pushAll s r sz argv = .ok (some (pushStack sp argv.length), r2) := by
  unfold pushAll
  rw [ok_bind hargs]
  dsimp only
  rw [ok_bind hcopy]
  rfl

theorem pushAll_ok {m : ℕ} (h : Fresh L s m) {e : Pte} (he : s.pte (m - 1) = some e) (hu : e.u = true) (r : Pages)
    {a : List Byte} (ha : a.length = 2) : ∃ esp r', pushAll s r (m * 4096) [a] = .ok (some esp, r') := by
  have htwo := h.two
  have hlt := h.bytes_lt
  have hblen : (a ++ [(0 : Byte)]).length = 3 := by simp [ha]
  have hpush : push (m * 4096) a.length = m * 4096 - 4 := by
    rw [ha, push_eq (by omega) (by omega)]
    omega
  have hfirst : ∃ r', copyout s r (push (m * 4096) a.length) (a ++ [0]) = .ok (true, r') :=
    copyout_ok h he hu (by omega) (by rw [hpush]; omega) (by rw [hpush]; omega) r
  obtain ⟨r1, h1⟩ := hfirst
  have hargs := pushArgs_one (show 0 < MAXARG by decide) h1
  generalize hsp : push (m * 4096) a.length = sp at hargs
  rw [hpush] at hsp
  have hstack : pushStack sp [a].length = m * 4096 - 24 := by
    rw [← hsp, length_singleton]
    unfold pushStack ustackBytes
    omega
  have hbytes : ((ustack [a].length sp [sp]).flatMap wordBytes).length = 20 := length_wordBytes _
  generalize hws : (ustack [a].length sp [sp]).flatMap wordBytes = ws at hbytes
  have hsecond : ∃ r', copyout s r1 (pushStack sp [a].length) ws = .ok (true, r') :=
    copyout_ok h he hu (by omega) (by rw [hstack]; omega) (by rw [hstack]; omega) r1
  obtain ⟨r2, h2⟩ := hsecond
  rw [← hws] at h2
  exact ⟨_, _, pushAll_run hargs h2⟩

theorem loadSegments_one {f ph l : List Byte} {off j : ℕ} {m : Phys} {sz : ℕ} {a : ℕ × Phys × Space} {t : ℕ}
    (hread : readi f ((off + 32 * j) % 2 ^ 32) 32 = some ph) (hlen : ph.length = 32) (hload : field ph 0 4 = 1)
    (hmem : ¬ field ph 20 4 < field ph 16 4) (hwrap : ¬ (field ph 8 4 + field ph 20 4) % 2 ^ 32 < field ph 8 4)
    (ha : allocuvm L m s sz ((field ph 8 4 + field ph 20 4) % 2 ^ 32) = .ok a) (h0 : a.1 ≠ 0) (halign : field ph 8 4 % 4096 = 0)
    (hone : (field ph 16 4 + 4095) / 4096 = 1) (ht : a.2.2.tab ((field ph 8 4 / 4096 + 0) / 1024) = some t)
    (hl : readi f ((field ph 4 4 + 4096 * 0) % 2 ^ 32) (min (field ph 16 4 - 4096 * 0) 4096) = some l)
    (hlength : l.length = min (field ph 16 4 - 4096 * 0) 4096) :
    ∃ r, loadSegments L f off m s sz [j] = .ok (some a.1, ⟨a.2.1.kmem, r⟩, a.2.2) := by
  refine ⟨memmove a.2.1.ram (frameAt a.2.2 (field ph 8 4 / 4096 + 0)) 0 l, ?_⟩
  have hpage : loaduvm f a.2.2 (field ph 8 4) (field ph 4 4) (field ph 16 4) a.2.1.ram
      (List.range ((field ph 16 4 + 4095) / 4096)) =
      .ok (true, memmove a.2.1.ram (frameAt a.2.2 (field ph 8 4 / 4096 + 0)) 0 l) := by
    rw [hone, range_one]
    unfold loaduvm
    rw [ht]
    dsimp only
    rw [hl]
    dsimp only
    rw [if_neg (not_not.2 hlength)]
    rfl
  unfold loadSegments
  rw [hread]
  dsimp only
  rw [if_neg (not_not.2 hlen), if_neg (not_not.2 hload), if_neg hmem, if_neg hwrap, ok_bind ha, if_neg h0,
    if_neg (not_not.2 halign), ok_bind hpage]
  rfl

theorem commit_run {path : List Byte} {entry sz sp : ℕ} {m m' : Phys} {p : Exec.Proc} {a : ℕ × Phys × Space}
    {s4 : Space} {r : Pages} (ha : allocuvm L m s (numPages sz * PGSIZE) (numPages sz * PGSIZE + 2 * PGSIZE) = .ok a)
    (h0 : a.1 ≠ 0) (h4 : clearpteu a.2.2 (a.1 / 4096 - 2) = .ok s4)
    (hpush : pushAll s4 a.2.1.ram a.1 argv = .ok (some sp, r))
    (hfree : freevm L ⟨a.2.1.kmem, r⟩ p.image.space = .ok m') :
    ∃ p', commit L path entry argv m s sz p = .ok (0, m', p') := by
  unfold commit
  rw [ok_bind ha, if_neg h0, ok_bind h4, ok_bind hpush]
  dsimp only
  rw [ok_bind hfree]
  exact ⟨_, rfl⟩

theorem exec_run {f elf path : List Byte} {m m2 : Phys} {p : Exec.Proc} {k : Kmem}
    {s2 : Space} {sz : ℕ} (hread : readi f 0 52 = some elf) (hlen : elf.length = 52) (hmagic : field elf 0 4 = 0x464C457F)
    (hkvm : Mem.setupkvm L m.kmem = .ok (some s, k))
    (hload : loadSegments L f (field elf 28 4) ⟨k, m.ram⟩ s 0 (List.range (field elf 44 2)) = .ok (some sz, m2, s2)) :
    exec L f path argv m p = commit L path (field elf 24 4) argv m2 s2 sz p := by
  have hboot : setupkvm L m = .ok (some s, ⟨k, m.ram⟩) := setupkvm_some_iff.2 ⟨hkvm, rfl⟩
  unfold exec
  rw [hread]
  dsimp only
  rw [if_neg (not_not.2 hlen), if_neg (not_not.2 hmagic), ok_bind hboot]
  dsimp only
  rw [ok_bind hload]

end Run

/-- a file with one segment, its own first four bytes, for address 0 -/
def tinyFile : List Byte :=
  [0x7f, 0x45, 0x4c, 0x46] ++ List.replicate 24 0 ++ [52, 0, 0, 0] ++ List.replicate 12 0 ++ [1, 0] ++ List.replicate 6 0 ++
    [1, 0, 0, 0] ++ List.replicate 12 0 ++ [4, 0, 0, 0, 4, 0, 0, 0] ++ List.replicate 8 0

theorem exec_tiny {L : Layout} {m : Phys} {p : Exec.Proc} (hg : Generous m.kmem) (hroom : 4000 < m.kmem.freelist.length)
    (hcur : p.image.Ok L) (hfine : Fine L (m.kmem.freelist + p.image.space.pages))
    (hnodup : ((m.kmem.freelist : Multiset ℕ) + p.image.space.pages).Nodup) (path : List Byte) :
    ∃ m' p', exec L tinyFile path [[0x68, 0x69]] m p = .ok (0, m', p') := by
  have hfree : Fine L (m.kmem.freelist : Multiset ℕ) := hfine.of_le (Multiset.le_add_right _ _)
  have hndF := (Multiset.nodup_add.1 hnodup).1
  have hone : numPages 4 = 1 := by
    unfold numPages
    norm_num
  obtain ⟨s1, k1, hrun1, hacc1, hs1, hkvm1, hempty1, hgen1, -⟩ := setupkvm_some hfree hg (by omega)
  have hstart : Built L tinyFile (m.kmem.freelist : Multiset ℕ) [] ⟨k1, m.ram⟩ s1 0 := .empty hs1 hkvm1 hempty1 hacc1
  -- the segment
  obtain ⟨n, k2, s2, hrun2, hs2, -, -, hres2, hgen2⟩ := allocuvm_spec k1 s1 0 4 hs1 (by rw [hacc1]; exact hfree)
    fun x _ hx => hempty1 x hx
  have hn : n = 4 := (hgen2 hgen1).2 (by rw [kernbase_bytes]; norm_num) (by rw [hacc1, hone, Multiset.coe_card]; omega)
  subst hn
  obtain ⟨ram2, hram2⟩ := allocuvm_eq (m := ⟨k1, m.ram⟩) hrun2
  obtain ⟨-, hb2⟩ := hstart.grow hfree hndF hram2 (show 4 ≠ 0 by decide)
  obtain ⟨q, hq⟩ := hb2.pte 0 (by rw [hone]; exact Nat.one_pos)
  obtain ⟨t, ht⟩ := Option.ne_none_iff_exists'.1 (hs2.backed 0 _ hq)
  have hph : readi tinyFile ((52 + 32 * 0) % 2 ^ 32) 32 = some (tinyFile.drop 52) := by decide +kernel
  have hsum : (field (tinyFile.drop 52) 8 4 + field (tinyFile.drop 52) 20 4) % 2 ^ 32 = 4 := by decide +kernel
  have hload := loadSegments_one (m := ⟨k1, m.ram⟩) hph (by decide +kernel) (by decide +kernel) (by decide +kernel)
    (by decide +kernel) (by rw [hsum]; exact hram2) (show 4 ≠ 0 by decide) (by decide +kernel) (by decide +kernel) ht
    (show readi tinyFile _ _ = some (tinyFile.take 4) by decide +kernel) (by decide +kernel)
  obtain ⟨ram3, hload⟩ := hload
  dsimp only at hload
  obtain ⟨hb3, -⟩ := loadSegments_built hfree hndF _ hload hstart rfl
  -- the stack
  obtain ⟨n, k3, s3, hrun3, -, -, -, hroom3⟩ := stack_fresh (k := k2) hb3.ok hb3.full (by rw [hb3.pages]; exact hfree)
  have hn : n ≠ 0 := hroom3 (hgen2 hgen1).1 (by rw [hone, kernbase_bytes]; norm_num)
    (by rw [hb3.pages, hone, Multiset.coe_card]; omega)
  obtain ⟨ram4, ha⟩ := allocuvm_eq (m := ⟨k2, ram3⟩) hrun3
  obtain ⟨hr, hgrown, s4, hclear, hpages, hfresh, hother⟩ := hb3.stack hfree hndF ha hn
  obtain ⟨q', hq', -⟩ := hgrown.new (numPages 4 + 1) (by omega) (by omega)
  rw [← hother _ (by omega)] at hq'
  have hpush : ∃ esp r', pushAll s4 ram4 ((numPages 4 + 2) * 4096) [[0x68, 0x69]] = .ok (some esp, r') :=
    pushAll_ok hfresh hq' rfl ram4 rfl
  obtain ⟨esp, ram5, hpush⟩ := hpush
  have hle' : (k3.freelist : Multiset ℕ) + p.image.space.pages ≤ m.kmem.freelist + p.image.space.pages := by
    rw [← hb3.pages, ← hgrown.pages, zero_add]
    exact Multiset.add_le_add_right (Multiset.le_add_right _ _)
  obtain ⟨m', hfreed, -⟩ := freevm_run (m := ⟨k3, ram5⟩) hcur.space (hfine.of_le hle')
  -- all of it
  have h28 : field (tinyFile.take 52) 28 4 = 52 := by decide +kernel
  have h44 : field (tinyFile.take 52) 44 2 = 1 := by decide +kernel
  obtain ⟨p', hcommit⟩ := commit_run ha hn hclear (by rw [hr]; exact hpush) hfreed
  have helf : readi tinyFile 0 52 = some (tinyFile.take 52) := by decide +kernel
  refine ⟨m', p', Eq.trans (exec_run helf (by decide +kernel) (by decide +kernel) hrun1 ?_) hcommit⟩
  rw [h28, h44, range_one]
  exact hload

/-! ## Results -/

section Results

variable {L : Layout} {f : List Byte} {m : Phys}

theorem exec_booted {s : State} {p : Mem.Proc} (hb : Booted s p) : ∃ m' p', exec exampleLayout tinyFile [0x61] [[0x68, 0x69]]
    ⟨⟨s.freelist, fun _ => true⟩, fun _ => Bytes.zero PGSIZE⟩ ⟨p.image, 0, 0, []⟩ = .ok (0, m', p') :=
  exec_tiny (fun _ => rfl) (lt_trans (by norm_num) hb.room) hb.ok hb.fine hb.nodup _

/-- **Arguments.** After exec has returned 0, with sp = esp of the trap frame: sp is aligned, the words there are the fake return
PC, argc and the address of the pointers, then come the pointers and a 0; each pointer is to a copy of its string with a 0 after
it; strings and words are disjoint, and all of it is in the page below sz, which is for users, above a page that is not. -/
theorem exec_passes_arguments {path : List Byte} {argv : List (List Byte)} {p p' : Exec.Proc} {m' : Phys}
    (hcur : p.image.Ok L) (hfine : Fine L (m.kmem.freelist + p.image.space.pages))
    (hnodup : ((m.kmem.freelist : Multiset ℕ) + p.image.space.pages).Nodup) (hlens : ∀ a ∈ argv, a.length < 2 ^ 31)
    (hcount : argv.length < MAXARG) (h : exec L f path argv m p = .ok (0, m', p')) :
    (∃ ptrs, Passed p'.image.space m'.ram p'.image.sz p'.esp argv ptrs) ∧
      (∃ q, p'.image.space.pte (p'.image.sz / PGSIZE - 1) = some ⟨q, true, true⟩) ∧
      ∃ e, p'.image.space.pte (p'.image.sz / PGSIZE - 2) = some e ∧ e.u = false := by
  obtain ⟨-, hrep, -⟩ := exec_replaces hcur hfine hnodup hlens hcount h
  have hpage : p'.image.sz / PGSIZE - 1 = numPages (loadSize (headers f)) + 1 ∧
      p'.image.sz / PGSIZE - 2 = numPages (loadSize (headers f)) := by
    rw [hrep.size]
    unfold PGSIZE
    omega
  rw [hpage.1, hpage.2]
  obtain ⟨e, he⟩ := Option.ne_none_iff_exists'.1 (hrep.fresh.full (numPages (loadSize (headers f))) (by omega))
  exact ⟨hrep.args, hrep.stack, e, he, hrep.fresh.guard e he⟩

/-- after boot, init calls exec of this file with the argument hi -/
theorem exec_passes_arguments_example : ∃ (m : Phys) (p p' : Exec.Proc) (m' : Phys),
    exec exampleLayout tinyFile [0x61] [[0x68, 0x69]] m p = .ok (0, m', p') ∧
      ∃ ptrs, Passed p'.image.space m'.ram p'.image.sz p'.esp [[0x68, 0x69]] ptrs := by
  obtain ⟨s, p, hb⟩ := booted
  obtain ⟨m', p', hrun⟩ := exec_booted hb
  exact ⟨_, _, p', m', hrun, (exec_passes_arguments hb.ok hb.fine hb.nodup (by decide) (by decide) hrun).1⟩

/-- **The image.** After exec has returned 0: the size up to which the segments reach is the maximum over the headers to load;
below it every byte is that of the last such header that covers it, or 0, and every page is for users and writable; sz is two
pages more; and eip is the entry point. -/
theorem exec_builds_image {path : List Byte} {argv : List (List Byte)} {p p' : Exec.Proc} {m' : Phys}
    (hcur : p.image.Ok L) (hfine : Fine L (m.kmem.freelist + p.image.space.pages))
    (hnodup : ((m.kmem.freelist : Multiset ℕ) + p.image.space.pages).Nodup) (hlens : ∀ a ∈ argv, a.length < 2 ^ 31)
    (hcount : argv.length < MAXARG) (h : exec L f path argv m p = .ok (0, m', p')) :
    (∃ k s0 x, Mem.setupkvm L m.kmem = .ok (some s0, k) ∧ loadSegments L f (field (f.take 52) 28 4) ⟨k, m.ram⟩ s0 0
      (List.range (field (f.take 52) 44 2)) = .ok (some (loadSize (headers f)), x)) ∧
      (∀ va < loadSize (headers f), userByte p'.image.space m'.ram va = imageByte f (headers f) va) ∧
      (∀ x, x * PGSIZE < loadSize (headers f) → ∃ q, p'.image.space.pte x = some ⟨q, true, true⟩) ∧
      p'.image.sz = (numPages (loadSize (headers f)) + 2) * PGSIZE ∧ p'.eip = field (f.take 52) 24 4 := by
  obtain ⟨hentry, hrep, hload⟩ := exec_replaces hcur hfine hnodup hlens hcount h
  refine ⟨hload, fun va hva => hrep.bytes va ?_, fun x hx => hrep.pte x ?_, hrep.size, hentry⟩
  · unfold numPages
    omega
  · unfold PGSIZE at hx
    unfold numPages
    omega

/-- and has the first four bytes of the file at address 0 -/
theorem exec_builds_image_example : ∃ (m : Phys) (p p' : Exec.Proc) (m' : Phys),
    exec exampleLayout tinyFile [0x61] [[0x68, 0x69]] m p = .ok (0, m', p') ∧
      userByte p'.image.space m'.ram 0 = 0x7f ∧ p'.image.sz = 3 * PGSIZE ∧ p'.eip = 0 := by
  obtain ⟨s, p, hb⟩ := booted
  obtain ⟨m', p', hrun⟩ := exec_booted hb
  obtain ⟨-, hbytes, -, hsz, heip⟩ := exec_builds_image hb.ok hb.fine hb.nodup (by decide) (by decide) hrun
  have hsize : loadSize (headers tinyFile) = 4 := by decide +kernel
  have hbyte : imageByte tinyFile (headers tinyFile) 0 = 0x7f := by decide +kernel
  have hentry : field (tinyFile.take 52) 24 4 = 0 := by decide +kernel
  have hone : numPages 4 + 2 = 3 := by
    unfold numPages
    norm_num
  rw [hsize] at hbytes
  rw [hsize, hone] at hsz
  exact ⟨_, _, p', m', hrun, (hbytes 0 (by decide)).trans hbyte, hsz, heip.trans hentry⟩

end Results

end Xv6.Ram
