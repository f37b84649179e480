/-
syscall.c: the arguments of system calls, which the kernel fetches from the memory of the process, and the loop of sys_exec
over argv.

Addresses and sizes are 32-bit words, and sums of them wrap. Every function also lists the addresses of user memory it
reads, in order.

- `arguments_stay_inside`: all reads are below sz, and so is whatever the functions hand out.
-/
import Xv6.Param

namespace Xv6.Args

open Lib List

/-! ## Model -/

/-- the memory of the process, its size, and the saved stack pointer -/
structure User where
  mem : Word → Byte
  sz : Word
  esp : Word

/-- what a function returns (`none` is -1), and the addresses it has read -/
abbrev Fetch (α : Type) := Option α × List Word

/-- a fetch that goes on after the first one succeeded -/
def Fetch.andThen {α β : Type} (x : Fetch α) (f : α → Fetch β) : Fetch β :=
  match x with
  | (none, l) => (none, l)
  | (some a, l) => ((f a).1, l ++ (f a).2)

section

variable (u : User)

/-- the int at addr -/
def User.int (addr : Word) : Word := u.mem (addr + 3) ++ u.mem (addr + 2) ++ u.mem (addr + 1) ++ u.mem addr

/-- Fetch the int at addr from the current process. -/
def fetchint (addr : Word) : Fetch Word :=
  if u.sz ≤ addr ∨ u.sz < addr + 4 then (none, [])
  else (some (u.int addr), [addr, addr + 1, addr + 2, addr + 3])

/-- the loop of fetchstr: where the NUL is -/
def strLoop : ℕ → Word → Fetch Word
  | 0, _ => (none, [])
  | fuel + 1, s =>
    if s < u.sz then
      if u.mem s = 0 then (some s, [s]) else ((strLoop fuel (s + 1)).1, s :: (strLoop fuel (s + 1)).2)
    else (none, [])

/-- Fetch the nul-terminated string at addr from the current process: the pointer and the length. -/
def fetchstr (addr : Word) : Fetch (Word × Word) :=
  if u.sz ≤ addr then (none, [])
  else (strLoop u u.sz.toNat addr).andThen fun s => (some (addr, s - addr), [])

/-- Fetch the nth 32-bit system call argument. -/
def argint (n : Word) : Fetch Word := fetchint u (u.esp + 4 + 4 * n)

/-- Fetch the nth word-sized system call argument as a pointer to a block of memory of size bytes. -/
def argptr (n size : Word) : Fetch Word :=
  (argint u n).andThen fun i => if size.toInt < 0 ∨ u.sz ≤ i ∨ u.sz < i + size then (none, []) else (some i, [])

/-- Fetch the nth word-sized system call argument as a string pointer. -/
def argstr (n : Word) : Fetch (Word × Word) := (argint u n).andThen (fetchstr u)

/-- max exec arguments -/
def MAXARG : ℕ := 32

/-- the loop of sys_exec from i on, with argv so far; `none` for the fuel. It also returns in which round it ended. -/
def argvLoop (uargv : Word) : ℕ → ℕ → List (Word × Word) → Option (Fetch (List (Word × Word)) × ℕ)
  | 0, _, _ => none
  | fuel + 1, i, argv =>
    if MAXARG ≤ i then some ((none, []), i)
    else
      match fetchint u (uargv + BitVec.ofNat 32 (4 * i)) with
      | (none, l) => some ((none, l), i)
      | (some uarg, l) =>
        if uarg = 0 then some ((some argv, l), i)
        else
          match fetchstr u uarg with
          | (none, l') => some ((none, l ++ l'), i)
          | (some p, l') =>
            (argvLoop uargv fuel (i + 1) (argv ++ [p])).map fun r => ((r.1.1, (l ++ l') ++ r.1.2), r.2)

/-- sys_exec up to the call of exec: path and argv -/
def sysExec (fuel : ℕ) : Option (Fetch ((Word × Word) × List (Word × Word)) × ℕ) :=
  match argstr u 0 with
  | (none, l) => some ((none, l), 0)
  | (some path, l) =>
    match argint u 1 with
    | (none, l') => some ((none, l ++ l'), 0)
    | (some uargv, l') =>
      (argvLoop u uargv fuel 0 []).map fun r => ((r.1.1.map fun argv => (path, argv), (l ++ l') ++ r.1.2), r.2)

/-! ## Bounds -/

/-- all addresses are in the memory of the process -/
def User.Inside (l : List Word) : Prop := ∀ a ∈ l, a.toNat < u.sz.toNat

/-- a NUL-terminated string of this length, all of it in the memory of the process -/
structure User.IsString (p : Word × Word) : Prop where
  inside : p.1.toNat + p.2.toNat < u.sz.toNat
  nul : u.mem (p.1 + p.2) = 0
  text : ∀ i < p.2.toNat, u.mem (p.1 + BitVec.ofNat 32 i) ≠ 0

/-- a fetch reads inside, and what it returns has P -/
def User.Safe {α : Type} (P : α → Prop) (x : Fetch α) : Prop := u.Inside x.2 ∧ ∀ a, x.1 = some a → P a

end

variable {u : User}

theorem User.Inside.append {l l' : List Word} (h : u.Inside l) (h' : u.Inside l') : u.Inside (l ++ l') :=
  fun a ha => (mem_append.1 ha).elim (h a) (h' a)

theorem User.Safe.andThen {α β : Type} {P : α → Prop} {Q : β → Prop} {x : Fetch α} {f : α → Fetch β} (hx : u.Safe P x)
    (hf : ∀ a, P a → u.Safe Q (f a)) : u.Safe Q (x.andThen f) := by
  obtain ⟨r, l⟩ := x
  cases r with
  | none => exact ⟨hx.1, nofun⟩
  | some a =>
    have ha := hf a (hx.2 a rfl)
    exact ⟨hx.1.append ha.1, ha.2⟩

section

variable (hsz : u.sz.toNat < 2 ^ 31)
include hsz

/-- the bytes of an int below sz: the sum addr + 4 does not wrap, as sz is below KERNBASE -/
theorem fetchint_safe (addr : Word) : u.Safe (fun _ => True) (fetchint u addr) := by
  unfold fetchint
  split_ifs with h
  · exact ⟨nofun, nofun⟩
  · rw [not_or, BitVec.not_le, BitVec.not_lt, BitVec.lt_def, BitVec.le_def] at h
    have h4 : ∀ k : ℕ, k ≤ 4 → (addr + BitVec.ofNat 32 k).toNat = addr.toNat + k := fun k hk => toNat_offset (by omega)
    have h1 : (addr + 1).toNat = _ := h4 1 (by omega)
    have h2 : (addr + 2).toNat = _ := h4 2 (by omega)
    have h3 : (addr + 3).toNat = _ := h4 3 (by omega)
    have h4 : (addr + 4).toNat = _ := h4 4 (by omega)
    refine ⟨fun a ha => ?_, fun _ _ => trivial⟩
    simp only [mem_cons, not_mem_nil, or_false] at ha
    rcases ha with rfl | rfl | rfl | rfl <;> omega

theorem strLoop_safe (fuel : ℕ) : ∀ s : Word, u.Safe (fun e => s.toNat ≤ e.toNat ∧ e.toNat < u.sz.toNat ∧ u.mem e = 0 ∧
      ∀ a : Word, s.toNat ≤ a.toNat → a.toNat < e.toNat → u.mem a ≠ 0) (strLoop u fuel s) := by
  induction fuel with
  | zero => exact fun s => ⟨nofun, nofun⟩
  | succ fuel ih =>
    intro s
    rw [strLoop]
    by_cases hs : s < u.sz
    · have hlt := BitVec.lt_def.1 hs
      rw [if_pos hs]
      by_cases h0 : u.mem s = 0
      · rw [if_pos h0]
        refine ⟨fun a ha => by rwa [mem_singleton.1 ha], ?_⟩
        rintro e he
        obtain rfl := Option.some.inj he
        exact ⟨le_rfl, hlt, h0, fun a h1 h2 => by omega⟩
      · rw [if_neg h0]
        have hs1 : (s + 1).toNat = s.toNat + 1 := toNat_offset (i := 1) (by omega)
        obtain ⟨hin, hres⟩ := ih (s + 1)
        refine ⟨forall_mem_cons.2 ⟨hlt, hin⟩, fun e he => ?_⟩
        obtain ⟨h1, h2, h3, h4⟩ := hres e he
        refine ⟨by omega, h2, h3, fun a ha hae => ?_⟩
        by_cases hsa : a = s
        · rw [hsa]
          exact h0
        · have hne : a.toNat ≠ s.toNat := fun heq => hsa (BitVec.eq_of_toNat_eq heq)
          exact h4 a (by omega) hae
    · rw [if_neg hs]
      exact ⟨nofun, nofun⟩

theorem fetchstr_safe (addr : Word) : u.Safe u.IsString (fetchstr u addr) := by
  unfold fetchstr
  split_ifs with h
  · exact ⟨nofun, nofun⟩
  · refine (strLoop_safe hsz _ addr).andThen fun e ⟨h1, h2, h3, h4⟩ => ⟨nofun, fun p hp => ?_⟩
    obtain rfl := Option.some.inj hp
    have hlen := BitVec.toNat_sub_of_le (BitVec.le_def.2 h1)
    refine ⟨?_, ?_, fun i hi => ?_⟩
    · show addr.toNat + (e - addr).toNat < u.sz.toNat
      omega
    · show u.mem (addr + (e - addr)) = 0
      rw [BitVec.add_comm, BitVec.sub_add_cancel]
      exact h3
    · have hi' : i < (e - addr).toNat := hi
      have hai := toNat_offset (p := addr) (i := i) (by omega)
      exact h4 (addr + BitVec.ofNat 32 i) (by omega) (by omega)

theorem argptr_safe (n size : Word) : u.Safe (fun p => p.toNat + size.toNat ≤ u.sz.toNat) (argptr u n size) := by
  refine (fetchint_safe hsz _).andThen fun i _ => ?_
  split_ifs with h
  · exact ⟨nofun, nofun⟩
  · -- neither summand reaches 2^31, so the sum of the test does not wrap
    rw [not_or, not_or, BitVec.not_le, BitVec.not_lt, BitVec.lt_def, BitVec.le_def, BitVec.toNat_add,
      BitVec.toInt_eq_toNat_cond] at h
    obtain ⟨hsize, hlt, hle⟩ := h
    have hs := size.isLt
    split_ifs at hsize with hpos
    · rw [Nat.mod_eq_of_lt (by omega)] at hle
      refine ⟨nofun, fun p hp => ?_⟩
      obtain rfl := Option.some.inj hp
      exact hle
    · omega

theorem argstr_safe (n : Word) : u.Safe u.IsString (argstr u n) :=
  (fetchint_safe hsz _).andThen fun addr _ => fetchstr_safe hsz addr

/-- the loop of sys_exec ends in round MAXARG at the latest, and reads and hands out user memory only -/
theorem argvLoop_safe (uargv : Word) (k : ℕ) : ∀ (fuel i : ℕ) (argv : List (Word × Word)),
    i + k = MAXARG → k < fuel → (∀ p ∈ argv, u.IsString p) →
      ∃ x n, argvLoop u uargv fuel i argv = some (x, n) ∧ n ≤ MAXARG ∧ u.Safe (fun l => ∀ p ∈ l, u.IsString p) x := by
  induction k with
  | zero =>
    intro fuel i argv hi hf hargv
    obtain ⟨fuel, rfl⟩ := Nat.exists_eq_succ_of_ne_zero (show fuel ≠ 0 by omega)
    rw [argvLoop, if_pos (by omega)]
    exact ⟨_, _, rfl, by omega, nofun, nofun⟩
  | succ k ih =>
    intro fuel i argv hi hf hargv
    obtain ⟨fuel, rfl⟩ := Nat.exists_eq_succ_of_ne_zero (show fuel ≠ 0 by omega)
    rw [argvLoop, if_neg (by omega)]
    have hint := fetchint_safe hsz (uargv + BitVec.ofNat 32 (4 * i))
    cases hf1 : fetchint u (uargv + BitVec.ofNat 32 (4 * i)) with
    | mk r l =>
      rw [hf1] at hint
      cases r with
      | none => exact ⟨_, _, rfl, by omega, hint.1, nofun⟩
      | some uarg =>
        dsimp only
        by_cases h0 : uarg = 0
        · rw [if_pos h0]
          refine ⟨_, _, rfl, by omega, hint.1, fun a ha => ?_⟩
          obtain rfl := Option.some.inj ha
          exact hargv
        · rw [if_neg h0]
          have hstr := fetchstr_safe hsz uarg
          cases hf2 : fetchstr u uarg with
          | mk r' l' =>
            rw [hf2] at hstr
            cases r' with
            | none => exact ⟨_, _, rfl, by omega, hint.1.append hstr.1, nofun⟩
            | some p =>
              have hargv' : ∀ q ∈ argv ++ [p], u.IsString q := by
                intro q hq
                rcases mem_append.1 hq with hq | hq
                · exact hargv q hq
                · rw [mem_singleton.1 hq]
                  exact hstr.2 p rfl
              obtain ⟨x, n, hrun, hn, hsafe⟩ := ih fuel (i + 1) (argv ++ [p]) (by omega) (by omega) hargv'
              dsimp only
              rw [hrun]
              exact ⟨_, _, rfl, hn, (hint.1.append hstr.1).append hsafe.1, hsafe.2⟩

/-- sys_exec ends, with path and argv of strings in user memory -/
theorem sysExec_safe : ∃ x n, sysExec u (MAXARG + 1) = some (x, n) ∧ n ≤ MAXARG ∧
    u.Safe (fun r => u.IsString r.1 ∧ ∀ p ∈ r.2, u.IsString p) x := by
  unfold sysExec
  have hpath := argstr_safe hsz 0
  cases h1 : argstr u 0 with
  | mk r l =>
    rw [h1] at hpath
    cases r with
    | none => exact ⟨_, _, rfl, Nat.zero_le _, hpath.1, nofun⟩
    | some path =>
      dsimp only
      have huargv : u.Safe (fun _ => True) (argint u 1) := fetchint_safe hsz _
      cases h2 : argint u 1 with
      | mk r' l' =>
        rw [h2] at huargv
        cases r' with
        | none => exact ⟨_, _, rfl, Nat.zero_le _, hpath.1.append huargv.1, nofun⟩
        | some uargv =>
          obtain ⟨x, n, hrun, hn, hsafe⟩ := argvLoop_safe hsz uargv MAXARG (MAXARG + 1) 0 [] (zero_add _)
            (Nat.lt_succ_self _) nofun
          dsimp only
          rw [hrun]
          refine ⟨_, _, rfl, hn, (hpath.1.append huargv.1).append hsafe.1, fun a ha => ?_⟩
          obtain ⟨argv, hargv, rfl⟩ := Option.map_eq_some_iff.1 ha
          exact ⟨hpath.2 path rfl, hsafe.2 argv hargv⟩

end

/-- **System-call arguments stay inside user memory.** -/
theorem arguments_stay_inside (u : User) (hsz : u.sz.toNat < 2 ^ 31) :
    (∀ addr, u.Inside (fetchint u addr).2) ∧ (∀ n, u.Inside (argint u n).2) ∧
      (∀ n size, u.Safe (fun p => p.toNat + size.toNat ≤ u.sz.toNat) (argptr u n size)) ∧
        (∀ addr, u.Safe u.IsString (fetchstr u addr)) ∧ (∀ n, u.Safe u.IsString (argstr u n)) ∧
          ∃ x n, sysExec u (MAXARG + 1) = some (x, n) ∧ n ≤ MAXARG ∧
            u.Safe (fun r => u.IsString r.1 ∧ ∀ p ∈ r.2, u.IsString p) x :=
  ⟨fun addr => (fetchint_safe hsz addr).1, fun _ => (fetchint_safe hsz _).1, argptr_safe hsz, fetchstr_safe hsz,
    argstr_safe hsz, sysExec_safe hsz⟩

/-- a process of one page with its stack at the end of it, and all its memory 0 -/
theorem arguments_stay_inside_example : (argint ⟨fun _ => 0, 4096, 4088⟩ 0).1 = some 0 ∧
      User.Inside ⟨fun _ => 0, 4096, 4088⟩ (argint ⟨fun _ => 0, 4096, 4088⟩ 0).2 :=
  ⟨by decide, (arguments_stay_inside ⟨fun _ => 0, 4096, 4088⟩ (by decide)).2.1 0⟩

end Xv6.Args
