/-
mp.c: the search for the MP configuration table and the scan of its entries.

Memory is a function of kernel virtual addresses, which wrap; P2V adds KERNBASE. The scan keeps a list of the entries it has
visited, which no code reads. Its loop takes fuel, and runs out of it where the C loop does not end.

- `mp_scan_ends`: the scan ends, with each entry visited once, if and only if entries of known types lead from the first one
  to the end of the table.
- `unknown_entry_hangs`: at an unknown entry `break` leaves the switch but not the loop, so the pointer stays where it is
  and the panic after the loop is never reached.
-/
import Xv6.Param
import Mathlib.Data.BitVec

namespace Xv6.Mp

open Lib List

/-! ## Model -/

abbrev Memory := Word → Byte

def KERNBASE : Word := 0x80000000

def P2V (a : Word) : Word := a + KERNBASE

section

variable (mem : Memory)

/-- byte i of what is at a -/
def byte (a : Word) (i : ℕ) : Byte := mem (a + BitVec.ofNat 32 i)

def ushort (a : Word) (i : ℕ) : ℕ := (byte mem a i).toNat + 256 * (byte mem a (i + 1)).toNat

def uint (a : Word) (i : ℕ) : Word := byte mem a (i + 3) ++ byte mem a (i + 2) ++ byte mem a (i + 1) ++ byte mem a i

def sum (addr : Word) (len : ℕ) : Byte := ((List.range len).map (byte mem addr)).sum

/-- memcmp with four characters is 0 -/
def hasSignature (a : Word) (s : List Byte) : Bool := (List.range 4).map (byte mem a) = s

/-- the loop of mpsearch1; `sizeof(struct mp)` is 16 -/
def mpsearchLoop (e : Word) : ℕ → Word → Option Word
  | 0, _ => none
  | fuel + 1, p =>
    if p < e then
      if hasSignature mem p [0x5f, 0x4d, 0x50, 0x5f] ∧ sum mem p 16 = 0 then some p else mpsearchLoop e fuel (p + 16)
    else none

/-- Look for an MP structure in the len bytes at addr. -/
def mpsearch1 (a : Word) (len : ℕ) : Option Word :=
  mpsearchLoop mem (P2V a + BitVec.ofNat 32 len) (len / 16 + 1) (P2V a)

/-- the EBDA, or else the last KB of base memory, and then the BIOS ROM -/
def mpsearch : Option Word :=
  let bda := P2V 0x400
  let p := BitVec.ofNat 32 (ushort mem bda 0x0e * 16)
  let first := if p ≠ 0 then mpsearch1 mem p 1024
    else mpsearch1 mem (BitVec.ofNat 32 (ushort mem bda 0x13 * 1024) - 1024) 1024
  match first with
  | some mp => some mp
  | none => mpsearch1 mem 0xf0000 0x10000

/-- Search for an MP configuration table. -/
def mpconfig : Option Word :=
  match mpsearch mem with
  | none => none
  | some mp =>
    if uint mem mp 4 = 0 then none
    else
      let conf := P2V (uint mem mp 4)
      if hasSignature mem conf [0x50, 0x43, 0x4d, 0x50] = false then none
      else if byte mem conf 6 ≠ 1 ∧ byte mem conf 6 ≠ 4 then none
      else if sum mem conf (ushort mem conf 4) ≠ 0 then none
      else some conf

/-- what the scan has found: the local APIC ids in cpus[0..ncpu), and ioapicid -/
structure Scan where
  apicid : List Byte := []
  ioapicid : Byte := 0
  ismp : Bool := true
  visited : List Word := []
  deriving DecidableEq

def Scan.ncpu (st : Scan) : ℕ := st.apicid.length

/-- case MPPROC -/
def Scan.addProc (st : Scan) (id : Byte) : Scan := if st.ncpu < NCPU then { st with apicid := st.apicid ++ [id] } else st

def MPPROC : Byte := 0
def MPBUS : Byte := 1
def MPIOAPIC : Byte := 2
def MPIOINTR : Byte := 3
def MPLINTR : Byte := 4

/-- one round: the scan and the pointer after the switch -/
def entry (p : Word) (st : Scan) : Scan × Word :=
  let st := { st with visited := st.visited ++ [p] }
  let type := mem p
  if type = MPPROC then (st.addProc (byte mem p 1), p + 20)
  else if type = MPIOAPIC then ({ st with ioapicid := byte mem p 1 }, p + 8)
  else if type = MPBUS ∨ type = MPIOINTR ∨ type = MPLINTR then (st, p + 8)
  else ({ st with ismp := false }, p)

/-- the loop of mpinit -/
def mpLoop (e : Word) : ℕ → Word → Scan → Option Scan
  | 0, _, _ => none
  | fuel + 1, p, st => if p < e then mpLoop e fuel (entry mem p st).2 (entry mem p st).1 else some st

inductive Panic where
  | expectSmp
  | noSuitableMachine
  deriving DecidableEq

/-- `sizeof(struct mpconf)` -/
def CONFSIZE : Word := 44

/-- the end of the table -/
def tableEnd (conf : Word) : Word := conf + BitVec.ofNat 32 (ushort mem conf 4)

/-- `none`: it does not end with this fuel -/
def mpinit (fuel : ℕ) : Option (Except Panic Scan) :=
  match mpconfig mem with
  | none => some (.error .expectSmp)
  | some conf =>
    (mpLoop mem (tableEnd mem conf) fuel (conf + CONFSIZE) {}).map fun st =>
      if st.ismp then .ok st else .error .noSuitableMachine

/-! ## Termination -/

/-- the entry types of the switch -/
def Known (type : Byte) : Prop := type = MPPROC ∨ type = MPBUS ∨ type = MPIOAPIC ∨ type = MPIOINTR ∨ type = MPLINTR

instance (type : Byte) : Decidable (Known type) := inferInstanceAs (Decidable (_ ∨ _))

/-- where the entry after the one at p starts -/
def next (p : Word) : Word := if mem p = MPPROC then p + 20 else p + 8

/-- every entry from p to e is of a known type -/
def AllKnown (e p : Word) : Prop := ∀ k, (∀ j ≤ k, (next mem)^[j] p < e) → Known (mem ((next mem)^[k] p))

/-- n entries, all of known types, lead from p to the end e of the table -/
inductive Leads (e : Word) : ℕ → Word → Prop where
  | done {p : Word} (hp : ¬ p < e) : Leads e 0 p
  | entry {n : ℕ} {p : Word} (hp : p < e) (hknown : Known (mem p)) (hrest : Leads e n (next mem p)) : Leads e (n + 1) p

end

variable {mem : Memory} {p e : Word} {st : Scan}

/-- a known entry moves the pointer on, and adds at most one CPU -/
theorem entry_known (h : Known (mem p)) (hcpu : st.ncpu ≤ NCPU) (hsmp : st.ismp = true) :
    (entry mem p st).2 = next mem p ∧ (entry mem p st).1.ncpu ≤ NCPU ∧ (entry mem p st).1.ismp = true ∧
      (entry mem p st).1.visited = st.visited ++ [p] := by
  unfold entry next
  dsimp only
  by_cases hproc : mem p = MPPROC
  · rw [if_pos hproc, if_pos hproc]
    unfold Scan.addProc
    split_ifs with hlt
    · refine ⟨rfl, ?_, hsmp, rfl⟩
      unfold Scan.ncpu at hlt ⊢
      rw [length_append, length_singleton]
      exact hlt
    · exact ⟨rfl, hcpu, hsmp, rfl⟩
  · rw [if_neg hproc, if_neg hproc]
    by_cases hio : mem p = MPIOAPIC
    · rw [if_pos hio]
      exact ⟨rfl, hcpu, hsmp, rfl⟩
    · have hother : mem p = MPBUS ∨ mem p = MPIOINTR ∨ mem p = MPLINTR := by
        unfold Known at h
        tauto
      rw [if_neg hio, if_pos hother]
      exact ⟨rfl, hcpu, hsmp, rfl⟩

theorem AllKnown.head (h : AllKnown mem e p) (hp : p < e) : Known (mem p) :=
  h 0 fun j hj => by rwa [Nat.le_zero.1 hj]

theorem AllKnown.tail (h : AllKnown mem e p) (hp : p < e) : AllKnown mem e (next mem p) :=
  fun k hk => h (k + 1) fun j hj => match j with
    | 0 => hp
    | j + 1 => hk j (Nat.succ_le_succ_iff.1 hj)

theorem next_toNat (mem : Memory) (h : p.toNat + 20 < 2 ^ 32) :
    p.toNat + 8 ≤ (next mem p).toNat ∧ (next mem p).toNat ≤ p.toNat + 20 := by
  unfold next
  have h20 : (p + 20).toNat = p.toNat + 20 := toNat_offset (i := 20) h
  have h8 : (p + 8).toNat = p.toNat + 8 := toNat_offset (i := 8) (by omega)
  split_ifs <;> omega

/-- in a table that does not end at the top of the address space the pointer always moves on, so it is enough that all
entries are known -/
theorem AllKnown.leads (he : e.toNat + 20 ≤ 2 ^ 32) (fuel : ℕ) : ∀ p : Word, e.toNat ≤ p.toNat + fuel → AllKnown mem e p →
    ∃ n, Leads mem e n p := by
  induction fuel with
  | zero =>
    intro p hfuel _
    refine ⟨0, .done fun hp => ?_⟩
    rw [BitVec.lt_def] at hp
    omega
  | succ fuel ih =>
    intro p hfuel h
    by_cases hp : p < e
    · have hlt := BitVec.lt_def.1 hp
      obtain ⟨h8, -⟩ := next_toNat mem (show p.toNat + 20 < 2 ^ 32 by omega)
      obtain ⟨n, hn⟩ := ih (next mem p) (by omega) (h.tail hp)
      exact ⟨n + 1, .entry hp (h.head hp) hn⟩
    · exact ⟨0, .done hp⟩

theorem Leads.allKnown {n : ℕ} (h : Leads mem e n p) : AllKnown mem e p := by
  induction h with
  | done hp => exact fun k hk => absurd (hk 0 (Nat.zero_le k)) hp
  | entry hp hknown _ ih =>
    intro k hk
    cases k with
    | zero => exact hknown
    | succ k => exact ih k fun j hj => hk (j + 1) (Nat.succ_le_succ hj)

theorem Leads.unique {n m : ℕ} (h : Leads mem e n p) : Leads mem e m p → n = m := by
  induction h generalizing m with
  | done hp =>
    intro h
    cases h with
    | done _ => rfl
    | entry hp' _ _ => exact absurd hp' hp
  | entry hp _ _ ih =>
    intro h
    cases h with
    | done hp' => exact absurd hp hp'
    | entry _ _ hrest => rw [ih hrest]

/-- the scan from p on, if known entries lead from there to the end; no entry it has visited is as near to the end as p -/
theorem mpLoop_ends (n : ℕ) : ∀ (p : Word) (st : Scan), Leads mem e n p → st.ncpu ≤ NCPU → st.ismp = true →
    st.visited.Nodup → (∀ a ∈ st.visited, ∃ k, n < k ∧ Leads mem e k a) →
      ∃ st', mpLoop mem e (n + 1) p st = some st' ∧ st'.ncpu ≤ NCPU ∧ st'.ismp = true ∧ st'.visited.Nodup := by
  induction n with
  | zero =>
    intro p st h hcpu hsmp hvis _
    cases h with
    | done hp =>
      rw [mpLoop, if_neg hp]
      exact ⟨st, rfl, hcpu, hsmp, hvis⟩
  | succ n ih =>
    intro p st h hcpu hsmp hvis hfar
    obtain ⟨hp, hknown, hrest⟩ : p < e ∧ Known (mem p) ∧ Leads mem e n (next mem p) := by
      cases h with
      | entry hp hknown hrest => exact ⟨hp, hknown, hrest⟩
    obtain ⟨hnext, hcpu', hsmp', hvis'⟩ := entry_known hknown hcpu hsmp
    rw [mpLoop, if_pos hp, hnext]
    refine ih _ _ hrest hcpu' hsmp' ?_ fun a ha => ?_
    · rw [hvis', nodup_append]
      refine ⟨hvis, nodup_singleton p, fun a ha b hb => ?_⟩
      rintro rfl
      rw [mem_singleton.1 hb] at ha
      obtain ⟨k, hk, hlead⟩ := hfar p ha
      exact absurd (h.unique hlead) (by omega)
    · rw [hvis', mem_append, mem_singleton] at ha
      rcases ha with ha | rfl
      · obtain ⟨k, hk, hlead⟩ := hfar a ha
        exact ⟨k, by omega, hlead⟩
      · exact ⟨n + 1, Nat.lt_succ_self n, h⟩

theorem mpLoop_mono {n : ℕ} : ∀ {p : Word} {st st' : Scan} {fuel : ℕ}, mpLoop mem e n p st = some st' → n ≤ fuel →
    mpLoop mem e fuel p st = some st' := by
  induction n with
  | zero =>
    intro p st st' fuel h
    cases h
  | succ n ih =>
    intro p st st' fuel h hle
    cases fuel with
    | zero => omega
    | succ fuel =>
      rw [mpLoop] at h ⊢
      split_ifs at h ⊢
      · exact ih h (by omega)
      · exact h

theorem mpLoop_hangs (hp : p < e) (h : ¬ Known (mem p)) (fuel : ℕ) : ∀ st, mpLoop mem e fuel p st = none := by
  induction fuel with
  | zero => exact fun st => rfl
  | succ fuel ih =>
    intro st
    have hstay : (entry mem p st).2 = p := by
      unfold Known at h
      unfold entry
      dsimp only
      rw [if_neg (by tauto), if_neg (by tauto), if_neg (by tauto)]
    rw [mpLoop, if_pos hp, hstay]
    exact ih _

theorem leads_of_mpLoop (fuel : ℕ) : ∀ {p : Word} {st st' : Scan}, mpLoop mem e fuel p st = some st' → st.ncpu ≤ NCPU →
    st.ismp = true → ∃ n, Leads mem e n p := by
  induction fuel with
  | zero => exact nofun
  | succ fuel ih =>
    intro p st st' h hcpu hsmp
    by_cases hp : p < e
    · by_cases hknown : Known (mem p)
      · obtain ⟨hnext, hcpu', hsmp', -⟩ := entry_known hknown hcpu hsmp
        rw [mpLoop, if_pos hp, hnext] at h
        obtain ⟨n, hn⟩ := ih h hcpu' hsmp'
        exact ⟨n + 1, .entry hp hknown hn⟩
      · rw [mpLoop_hangs hp hknown] at h
        cases h
    · exact ⟨0, .done hp⟩

theorem ushort_lt (mem : Memory) (a : Word) (i : ℕ) : ushort mem a i < 2 ^ 16 := by
  have h0 := (byte mem a i).isLt
  have h1 := (byte mem a (i + 1)).isLt
  unfold ushort
  omega

/-- **The scan of the MP table** ends, without a panic, with each entry visited once and at most NCPU CPUs, if and only if
entries of known types lead from the first one to the end of the table; otherwise mpinit never returns. If the table does not
end at the top of the address space this means that every entry that is reached is of a known type. -/
theorem mp_scan_ends (mem : Memory) (conf : Word) (hconf : mpconfig mem = some conf) :
    ((∃ st n, (∀ fuel, n < fuel → mpinit mem fuel = some (.ok st)) ∧ st.ncpu ≤ NCPU ∧ st.visited.Nodup) ↔
      ∃ n, Leads mem (tableEnd mem conf) n (conf + CONFSIZE)) ∧
    ((¬ ∃ n, Leads mem (tableEnd mem conf) n (conf + CONFSIZE)) → ∀ fuel, mpinit mem fuel = none) ∧
    (conf.toNat + ushort mem conf 4 + 64 ≤ 2 ^ 32 →
      ((∃ n, Leads mem (tableEnd mem conf) n (conf + CONFSIZE)) ↔ AllKnown mem (tableEnd mem conf) (conf + CONFSIZE))) := by
  have hmp : ∀ fuel, mpinit mem fuel = (mpLoop mem (tableEnd mem conf) fuel (conf + CONFSIZE) {}).map fun st =>
      if st.ismp then .ok st else .error .noSuitableMachine := fun fuel => by
    unfold mpinit
    rw [hconf]
  have hleads : ∀ fuel, mpinit mem fuel ≠ none → ∃ n, Leads mem (tableEnd mem conf) n (conf + CONFSIZE) := fun fuel h => by
    rw [hmp, ne_eq, Option.map_eq_none_iff] at h
    obtain ⟨st, hst⟩ := Option.ne_none_iff_exists'.1 h
    exact leads_of_mpLoop fuel hst (Nat.zero_le _) rfl
  refine ⟨⟨?_, ?_⟩, fun hno fuel => by_contra fun h => hno (hleads fuel h), fun htop => ⟨?_, fun hknown => ?_⟩⟩
  · rintro ⟨st, n, hrun, -⟩
    refine hleads (n + 1) ?_
    rw [hrun (n + 1) (Nat.lt_succ_self n)]
    nofun
  · rintro ⟨n, hn⟩
    obtain ⟨st, hrun, hcpu, hsmp, hvis⟩ := mpLoop_ends n _ {} hn (Nat.zero_le _) rfl .nil nofun
    refine ⟨st, n, fun fuel hfuel => ?_, hcpu, hvis⟩
    rw [hmp, mpLoop_mono hrun hfuel, Option.map_some, if_pos hsmp]
  · rintro ⟨n, hn⟩
    exact hn.allKnown
  · have hlen := ushort_lt mem conf 4
    have hend : (tableEnd mem conf).toNat = conf.toNat + ushort mem conf 4 := toNat_offset (by omega)
    have hstart : (conf + CONFSIZE).toNat = conf.toNat + 44 := toNat_offset (i := 44) (by omega)
    exact hknown.leads (by omega) (2 ^ 16) _ (by omega)

/-- the bytes from physical address 0xf0000 on, and 0 elsewhere -/
def rom (l : List Byte) : Memory := fun a => l.getD (a - P2V 0xf0000).toNat 0

/-- a floating pointer structure, whose table follows it -/
def floatingPointer : List Byte := [0x5f, 0x4d, 0x50, 0x5f, 0x10, 0x00, 0x0f, 0x00, 0x01, 0x04, 0x81, 0, 0, 0, 0, 0]

/-- a table of version 4 with one entry of 8 bytes -/
def oneEntry (type checksum : Byte) : List Byte :=
  [0x50, 0x43, 0x4d, 0x50, 52, 0, 4, checksum] ++ List.replicate 36 0 ++ [type, 7, 0, 0, 0, 0, 0, 0]

/-- a table with one I/O APIC -/
theorem mp_scan_ends_example : ∃ st n, (∀ fuel, n < fuel →
    mpinit (rom (floatingPointer ++ oneEntry MPIOAPIC 0x8f)) fuel = some (.ok st)) ∧ st.ncpu ≤ NCPU ∧ st.visited.Nodup := by
  have hconf : mpconfig (rom (floatingPointer ++ oneEntry MPIOAPIC 0x8f)) = some (P2V 0xf0010) := by decide +kernel
  exact (mp_scan_ends _ (P2V 0xf0010) hconf).1.2
    ⟨1, .entry (by decide +kernel) (by decide +kernel) (.done (by decide +kernel))⟩

/-- **A table with an entry of type 5** passes all checks of mpconfig, but mpinit never returns. -/
theorem unknown_entry_hangs : (∃ conf, mpconfig (rom (floatingPointer ++ oneEntry 5 0x8c)) = some conf) ∧
    ∀ fuel, mpinit (rom (floatingPointer ++ oneEntry 5 0x8c)) fuel = none := by
  have hconf : mpconfig (rom (floatingPointer ++ oneEntry 5 0x8c)) = some (P2V 0xf0010) := by decide +kernel
  refine ⟨⟨_, hconf⟩, fun fuel => ?_⟩
  unfold mpinit
  rw [hconf]
  dsimp only
  rw [mpLoop_hangs (by decide +kernel) (by decide +kernel), Option.map_none]

end Xv6.Mp
