/-
Group commit in the abstract: operations of any number of participants share one header of logged blocks, the last
one out commits it.

A participant is outside, in a numbered operation, or the committer in one of three phases: `last` (it has closed the
group), `clearing` (its commit has read the header), `cleared` (it has emptied the header). An operation enters while
no commit is pending and `Admit` allows it; it adds blocks to the header, a block already there only once. The state
keeps who is covered by which commit.

- `reach_inv`: along every run a pending commit excludes every operation, each commit covers whole operations and
  nothing else, and the operations are numbered through the commits without gap or repetition.
- `reach_budget`: if admission reserves `m + 1` blocks an operation and none logs more than `m`, the header stays
  two blocks short of the capacity.
-/
import Mathlib.Tactic

namespace Xv6.Lib.GroupCommit

open List
open Function (update update_self update_of_ne)

/-- what a participant is doing -/
inductive Role where
  | outside
  | op (i : ℕ)
  | last
  | clearing
  | cleared
  deriving DecidableEq

/-- closed the group and not yet reopened the log -/
def Role.Commits (r : Role) : Prop := r = .last ∨ r = .clearing ∨ r = .cleared

/-- what a commit found: the operations it covers and the header -/
structure Commit (β : Type) where
  covers : List ℕ
  header : List β

/-- the log and its participants: `group` are the operations since the last commit, `active` those not yet ended -/
structure State (ι β : Type) where
  outstanding : ℤ
  committing : Bool
  header : List β
  nextOp : ℕ
  group : List ℕ
  active : List ℕ
  logged : List (ℕ × β)
  commits : List (Commit β)
  role : ι → Role

variable {ι β : Type}

/-- nothing logged, nobody inside -/
def State.init : State ι β := ⟨0, false, [], 0, [], [], [], [], fun _ => .outside⟩

/-- who is inside and who commits -/
structure RoleInv (s : State ι β) : Prop where
  count : s.outstanding = s.active.length
  nodup : s.active.Nodup
  sub : ∀ i ∈ s.active, i ∈ s.group
  mem : ∀ q i, s.role q = .op i → i ∈ s.active
  inj : ∀ q r i, s.role q = .op i → s.role r = .op i → q = r
  committing_iff : s.committing = true ↔ ∃ q, (s.role q).Commits
  committer_uniq : ∀ q r, (s.role q).Commits → (s.role r).Commits → q = r
  drained : s.committing = true → s.active = []

/-- what the header and the commits hold -/
structure HeaderInv (s : State ι β) : Prop where
  nodup : s.header.Nodup
  quiet : s.committing = false → s.active = [] → s.group = [] ∧ s.header = []
  header : (∀ q, s.role q ≠ .clearing) → ∀ b, b ∈ s.header ↔ ∃ i ∈ s.group, (i, b) ∈ s.logged
  clearing : ∀ q, s.role q = .clearing → s.group = [] ∧ ∃ c ∈ s.commits.getLast?, c.header = s.header
  cleared : ∀ q, s.role q = .cleared → s.group = [] ∧ s.header = []
  covered : ∀ c ∈ s.commits, ∀ b, b ∈ c.header ↔ ∃ i ∈ c.covers, (i, b) ∈ s.logged
  numbers : s.commits.flatMap Commit.covers ++ s.group = List.range s.nextOp
  logged_lt : ∀ i b, (i, b) ∈ s.logged → i < s.nextOp

structure Inv (s : State ι β) : Prop where
  roles : RoleInv s
  blocks : HeaderInv s

variable {s s' : State ι β} {p : ι}

theorem Inv.group_lt (h : Inv s) {i : ℕ} (hi : i ∈ s.group) : i < s.nextOp := by
  have : i ∈ s.commits.flatMap Commit.covers ++ s.group := mem_append_right _ hi
  rw [h.blocks.numbers] at this
  exact mem_range.mp this

theorem Inv.not_covered (h : Inv s) {i : ℕ} (hi : i ∈ s.group) {c : Commit β} (hc : c ∈ s.commits) : i ∉ c.covers := by
  intro hic
  have hn : (s.commits.flatMap Commit.covers ++ s.group).Nodup := by
    rw [h.blocks.numbers]
    exact nodup_range
  exact (nodup_append.mp hn).2.2 i (mem_flatMap.mpr ⟨c, hc, hic⟩) i hi rfl

theorem Inv.not_committing (h : Inv s) {i : ℕ} (hp : s.role p = .op i) : s.committing = false := by
  by_contra hc
  have := h.roles.drained (by simpa using hc)
  have := h.roles.mem p i hp
  simp_all

theorem RoleInv.no_committer (h : RoleInv s) (hc : s.committing = false) (q : ι) : ¬ (s.role q).Commits := by
  intro hq
  simp [h.committing_iff.mpr ⟨q, hq⟩] at hc

theorem init_inv : Inv (State.init : State ι β) := by
  refine ⟨⟨?_, ?_, ?_, ?_, ?_, ?_, ?_, ?_⟩, ⟨?_, ?_, ?_, ?_, ?_, ?_, ?_, ?_⟩⟩ <;> simp [State.init, Role.Commits]

/-! ## How long the header gets -/

section Blocks

variable [DecidableEq β]

/-- add a block to the header unless it is there -/
def store (h : List β) (b : β) : List β := if b ∈ h then h else h ++ [b]

theorem mem_store {h : List β} {b c : β} : c ∈ store h b ↔ c ∈ h ∨ c = b := by
  unfold store
  split_ifs with hb <;> grind

theorem nodup_store {h : List β} (hn : h.Nodup) (b : β) : (store h b).Nodup := by
  unfold store
  split_ifs with hb
  · exact hn
  · exact nodup_append.mpr ⟨hn, by simp, by grind⟩

/-- the distinct blocks logged by operation `i` -/
def State.blocksOf (s : State ι β) (i : ℕ) : Finset β := ((s.logged.filter (·.1 = i)).map Prod.snd).toFinset

theorem mem_blocksOf {i : ℕ} {b : β} : b ∈ s.blocksOf i ↔ (i, b) ∈ s.logged := by
  simp [State.blocksOf]

/-- blocks an operation may still log if it keeps to `m` -/
def State.spare (s : State ι β) (m : ℕ) (i : ℕ) : ℤ := m - (s.blocksOf i).card

/-- header and unused reservations together stay two short of the capacity, as long as no operation logs over `m` -/
def Budget (cap m : ℕ) (s : State ι β) : Prop :=
  (∀ i, (s.blocksOf i).card ≤ m) → s.header.length + (s.active.map (s.spare m)).sum + 2 ≤ cap

/-- an operation that leaves gives its unused reservation back -/
theorem budget_leave {cap m i : ℕ} (hle : ∀ i, (s.blocksOf i).card ≤ m) (hi : i ∈ s.active)
    (hb : Budget cap m s) : s.header.length + ((s.active.erase i).map (s.spare m)).sum + 2 ≤ cap := by
  have hbud := hb hle
  have hsp : 0 ≤ s.spare m i := by simpa [State.spare] using hle i
  rw [← sum_map_erase _ hi] at hbud
  omega

/-- a `write` either lengthens the header or is absorbed, and uses up its own operation's reservation -/
theorem budget_write {cap m i : ℕ} (hi : Inv s) (hp : s.role p = .op i) (hb : Budget cap m s) (b : β) :
    Budget cap m { s with header := store s.header b, logged := s.logged ++ [(i, b)] } := by
  have hr := hi.roles
  intro hle
  have hia := hr.mem p i hp
  have hbud := hb fun j =>
    (Finset.card_le_card fun c hc => mem_blocksOf.2 (mem_append_left _ (mem_blocksOf.1 hc))).trans (hle j)
  set s' : State ι β := { s with header := store s.header b, logged := s.logged ++ [(i, b)] }
  have hrest : (s.active.erase i).map (s'.spare m) = (s.active.erase i).map (s.spare m) := by
    refine map_congr_left fun j hj => ?_
    have hji : j ≠ i := fun e => hr.nodup.not_mem_erase (e ▸ hj)
    have hof : s'.blocksOf j = s.blocksOf j := Finset.ext fun c => by simp [s', mem_blocksOf, hji]
    rw [State.spare, hof, State.spare]
  have hof : s'.blocksOf i = insert b (s.blocksOf i) := Finset.ext fun c => by simp [s', mem_blocksOf, or_comm]
  change ((store s.header b).length : ℤ) + (s.active.map (s'.spare m)).sum + 2 ≤ cap
  rw [← sum_map_erase _ hia, hrest, State.spare, hof]
  rw [← sum_map_erase _ hia, State.spare] at hbud
  by_cases hbh : b ∈ s.header
  · have := Finset.card_le_card (Finset.subset_insert b (s.blocksOf i))
    simp only [store, if_pos hbh]
    omega
  · -- a block new to the header is new to the operation: one longer, one less to come
    have hno := hr.no_committer (hi.not_committing hp)
    have hnew : b ∉ s.blocksOf i := by
      rw [mem_blocksOf]
      intro hl
      exact hbh ((hi.blocks.header (fun q hq => hno q (by simp [hq, Role.Commits])) b).mpr ⟨i, hr.sub i hia, hl⟩)
    rw [Finset.card_insert_of_notMem hnew]
    simp only [store, if_neg hbh, length_append, length_singleton]
    omega

end Blocks

/-! ## Steps -/

variable [DecidableEq ι]

/-- `p` takes the role `r` -/
def State.go (s : State ι β) (p : ι) (r : Role) : State ι β := { s with role := update s.role p r }

/-- a committer that moves on within its commit, or anyone who does not commit before and after -/
theorem commits_update {r : Role} (h : r.Commits ↔ (s.role p).Commits) (q : ι) :
    (update s.role p r q).Commits ↔ (s.role q).Commits := by
  by_cases hq : q = p
  · subst hq; simpa using h
  · simp [hq]

/-- a role the stepping participant does not take was there before -/
theorem role_of_update {r x : Role} {q : ι} (h : update s.role p r q = x) (hr : r ≠ x) : q ≠ p ∧ s.role q = x := by
  by_cases hq : q = p
  · subst hq; simp_all
  · simpa [hq] using h

/-- a step of an operation or of an outsider leaves no commit half done -/
theorem not_clearing {r : Role} (h : ∀ q, ¬ (s.role q).Commits) (hr : r ≠ .clearing) (q : ι) : update s.role p r q ≠ .clearing :=
  fun hq => h q (by simp [(role_of_update hq hr).2, Role.Commits])

theorem not_cleared {r : Role} (h : ∀ q, ¬ (s.role q).Commits) (hr : r ≠ .cleared) (q : ι) : update s.role p r q ≠ .cleared :=
  fun hq => h q (by simp [(role_of_update hq hr).2, Role.Commits])

variable [DecidableEq β] {Admit : List β → ℤ → Prop}

/-- one step of participant `p`; `Admit` is the admission test on the header and the number of open operations -/
inductive Step (Admit : List β → ℤ → Prop) (s : State ι β) (p : ι) : State ι β → Prop where
  | join : s.role p = .outside → s.committing = false → Admit s.header s.outstanding →
      Step Admit s p { s.go p (.op s.nextOp) with
        outstanding := s.outstanding + 1, nextOp := s.nextOp + 1,
        group := s.group ++ [s.nextOp], active := s.active ++ [s.nextOp] }
  | write {i} (b : β) : s.role p = .op i →
      Step Admit s p { s with header := store s.header b, logged := s.logged ++ [(i, b)] }
  | leave {i} : s.role p = .op i → s.outstanding - 1 ≠ 0 →
      Step Admit s p { s.go p .outside with outstanding := s.outstanding - 1, active := s.active.erase i }
  | close {i} : s.role p = .op i → s.outstanding - 1 = 0 →
      Step Admit s p { s.go p .last with
        outstanding := s.outstanding - 1, committing := true, active := s.active.erase i }
  | run : s.role p = .last →
      Step Admit s p { s.go p .clearing with commits := s.commits ++ [⟨s.group, s.header⟩], group := [] }
  | clear : s.role p = .clearing → Step Admit s p { s.go p .cleared with header := [] }
  | reopen : s.role p = .cleared → Step Admit s p { s.go p .outside with committing := false }

theorem step_roleInv (h : Step Admit s p s') (hi : Inv s) : RoleInv s' := by
  have hlt : ∀ i ∈ s.active, i < s.nextOp := fun i h => hi.group_lt (hi.roles.sub i h)
  obtain ⟨⟨hcount, hnd, hsub, hmem, hinj, hiff, huniq, hdr⟩, -⟩ := hi
  cases h with
  | join hp hc ha =>
    have hcm := commits_update (s := s) (p := p) (r := .op s.nextOp) (by simp [hp, Role.Commits])
    refine ⟨?_, ?_, ?_, ?_, ?_, ?_, ?_, ?_⟩ <;> simp only [State.go, hcm]
    · simp [hcount]
    · exact nodup_append.mpr ⟨hnd, by simp, by grind⟩
    · grind
    · grind
    · grind
    · exact hiff
    · exact huniq
    · simp [hc]
  | write b hp => exact ⟨hcount, hnd, hsub, hmem, hinj, hiff, huniq, hdr⟩
  | @leave i hp ho =>
    have hcm := commits_update (s := s) (p := p) (r := .outside) (by simp [hp, Role.Commits])
    have hia := hmem p i hp
    refine ⟨?_, hnd.erase i, ?_, ?_, ?_, ?_, ?_, ?_⟩ <;> simp only [State.go, hcm]
    · grind
    · grind
    · grind
    · grind
    · exact hiff
    · exact huniq
    · grind
  | @close i hp ho =>
    have hia := hmem p i hp
    have hone : s.active.erase i = [] := by
      rw [← length_eq_zero_iff, length_erase_of_mem hia]
      omega
    -- nobody else was inside, so nobody was committing either
    have hno : ∀ q, ¬ (s.role q).Commits := by
      intro q hq
      have := hdr (hiff.mpr ⟨q, hq⟩)
      simp [this] at hia
    refine ⟨?_, hnd.erase i, ?_, ?_, ?_, ?_, ?_, ?_⟩ <;> simp only [State.go]
    · grind
    · grind
    · grind
    · grind
    · exact ⟨fun _ => ⟨p, by simp [Role.Commits]⟩, fun _ => trivial⟩
    · intro q r hq hr
      by_cases hqp : q = p <;> by_cases hrp : r = p <;> simp_all
    · exact fun _ => hone
  | run hp =>
    have hcm := commits_update (s := s) (p := p) (r := .clearing) (by simp [hp, Role.Commits])
    have hnil := hdr (hiff.mpr ⟨p, by simp [hp, Role.Commits]⟩)
    refine ⟨hcount, hnd, ?_, ?_, ?_, ?_, ?_, hdr⟩ <;> simp only [State.go, hcm]
    · simp [hnil]
    · grind
    · grind
    · exact hiff
    · exact huniq
  | clear hp =>
    have hcm := commits_update (s := s) (p := p) (r := .cleared) (by simp [hp, Role.Commits])
    refine ⟨hcount, hnd, hsub, ?_, ?_, ?_, ?_, hdr⟩ <;> simp only [State.go, hcm]
    · grind
    · grind
    · exact hiff
    · exact huniq
  | reopen hp =>
    have hpc : (s.role p).Commits := by simp [hp, Role.Commits]
    refine ⟨hcount, hnd, hsub, ?_, ?_, ?_, ?_, by simp⟩ <;> simp only [State.go]
    · grind
    · grind
    · -- the committer was the only one
      simp only [Bool.false_eq_true, false_iff, not_exists]
      intro q hq
      by_cases hqp : q = p
      · simp [hqp, Role.Commits] at hq
      · rw [update_of_ne hqp] at hq
        exact hqp (huniq q p hq hpc)
    · grind [Role.Commits]

theorem step_headerInv (h : Step Admit s p s') (hi : Inv s) : HeaderInv s' := by
  have hr := hi.roles
  obtain ⟨hnd, hquiet, hhd, hclg, hcld, hcov, hnum, hlt⟩ := hi.blocks
  cases h with
  | join hp hc ha =>
    have hno := hr.no_committer hc
    have hfresh : ∀ b, (s.nextOp, b) ∉ s.logged := fun b hb => absurd (hlt _ _ hb) (lt_irrefl _)
    refine ⟨hnd, by simp, ?_, ?_, ?_, hcov, ?_, fun i b hb => Nat.lt_succ_of_lt (hlt i b hb)⟩ <;>
      simp only [State.go]
    · intro _ b
      rw [hhd (fun q hq => hno q (by simp [hq, Role.Commits]))]
      grind
    · exact fun q hq => absurd hq (not_clearing hno (by simp) q)
    · exact fun q hq => absurd hq (not_cleared hno (by simp) q)
    · rw [← append_assoc, hnum, range_succ]
  | @write i b hp =>
    have hno := hr.no_committer (hi.not_committing hp)
    have hia := hr.mem p i hp
    have hig := hr.sub i hia
    refine ⟨nodup_store hnd b, ?_, ?_, ?_, ?_, ?_, hnum, ?_⟩
    · intro _ ha
      simp [show s.active = [] from ha] at hia
    · intro _ c
      simp only [mem_store, hhd (fun q hq => hno q (by simp [hq, Role.Commits]))]
      grind
    · exact fun q hq => absurd (show s.role q = .clearing from hq) (fun e => hno q (by simp [e, Role.Commits]))
    · exact fun q hq => absurd (show s.role q = .cleared from hq) (fun e => hno q (by simp [e, Role.Commits]))
    · intro c hc d
      rw [hcov c hc]
      have := hi.not_covered hig hc
      grind
    · intro j c hj
      have := hi.group_lt hig
      grind
  | @leave i hp ho =>
    have hno := hr.no_committer (hi.not_committing hp)
    have hlen : (s.active.erase i).length ≠ 0 := by
      have hcount := hr.count
      have hpos := length_pos_of_mem (hr.mem p i hp)
      rw [length_erase_of_mem (hr.mem p i hp)]
      omega
    refine ⟨hnd, ?_, ?_, ?_, ?_, hcov, hnum, hlt⟩ <;> simp only [State.go]
    · intro _ he
      simp [he] at hlen
    · exact fun _ => hhd (fun q hq => hno q (by simp [hq, Role.Commits]))
    · exact fun q hq => absurd hq (not_clearing hno (by simp) q)
    · exact fun q hq => absurd hq (not_cleared hno (by simp) q)
  | close hp ho =>
    have hno := hr.no_committer (hi.not_committing hp)
    refine ⟨hnd, by simp, ?_, ?_, ?_, hcov, hnum, hlt⟩ <;> simp only [State.go]
    · exact fun _ => hhd (fun q hq => hno q (by simp [hq, Role.Commits]))
    · exact fun q hq => absurd hq (not_clearing hno (by simp) q)
    · exact fun q hq => absurd hq (not_cleared hno (by simp) q)
  | run hp =>
    have hpc : (s.role p).Commits := by simp [hp, Role.Commits]
    have hct := hr.committing_iff.mpr ⟨p, hpc⟩
    -- the committer is `p`, still before its commit
    have hncl : ∀ q, s.role q ≠ .clearing := by
      intro q hq
      have := hr.committer_uniq q p (by simp [hq, Role.Commits]) hpc
      simp_all
    refine ⟨hnd, by simp [State.go, hct], ?_, ?_, ?_, ?_, ?_, hlt⟩ <;> simp only [State.go]
    · intro h
      exact absurd (update_self ..) (h p)
    · simp
    · intro q hq
      obtain ⟨hqp, hq⟩ := role_of_update hq (by simp)
      exact absurd (hr.committer_uniq q p (by simp [hq, Role.Commits]) hpc) hqp
    · intro c hc b
      rcases mem_append.mp hc with hc | hc
      · exact hcov c hc b
      · rw [mem_singleton.mp hc]
        exact hhd hncl b
    · simpa [flatMap_append] using hnum
  | clear hp =>
    have hpc : (s.role p).Commits := by simp [hp, Role.Commits]
    have hg := (hclg p hp).1
    refine ⟨by simp, ?_, ?_, ?_, ?_, hcov, hnum, hlt⟩ <;> simp only [State.go]
    · intro hc
      exact absurd hpc (hr.no_committer hc p)
    · simp [hg]
    · intro q hq
      obtain ⟨hqp, hq⟩ := role_of_update hq (by simp)
      exact absurd (hr.committer_uniq q p (by simp [hq, Role.Commits]) hpc) hqp
    · simp [hg]
  | reopen hp =>
    have hpc : (s.role p).Commits := by simp [hp, Role.Commits]
    obtain ⟨hg, hh⟩ := hcld p hp
    refine ⟨hnd, ?_, ?_, ?_, ?_, hcov, hnum, hlt⟩ <;> simp only [State.go]
    · exact fun _ _ => ⟨hg, hh⟩
    · simp [hg, hh]
    · intro q hq
      obtain ⟨hqp, hq⟩ := role_of_update hq (by simp)
      exact absurd (hr.committer_uniq q p (by simp [hq, Role.Commits]) hpc) hqp
    · exact fun _ _ => ⟨hg, hh⟩

/-- the states reached from the empty log -/
inductive Reach (Admit : List β → ℤ → Prop) : State ι β → Prop where
  | init : Reach Admit State.init
  | step {s s' : State ι β} {p : ι} : Reach Admit s → Step Admit s p s' → Reach Admit s'

/-- **Group commit.** Every state a run reaches keeps the invariant. -/
theorem reach_inv (h : Reach Admit s) : Inv s := by
  induction h with
  | init => exact init_inv
  | step _ hs ih => exact ⟨step_roleInv hs ih, step_headerInv hs ih⟩

/-- the budget over one step: admission pays `m + 1` for an operation that uses at most `m` -/
theorem step_budget {cap m : ℕ} (hcap : m + 2 ≤ cap) (hadm : ∀ h k, Admit h k → (h.length : ℤ) + (k + 1) * (m + 1) ≤ cap)
    (h : Step Admit s p s') (hi : Inv s) (hb : Budget cap m s) : Budget cap m s' := by
  have hr := hi.roles
  cases h with
  | join hp hc ha =>
    intro hle
    have hnew : s.blocksOf s.nextOp = ∅ := by
      ext b
      simp only [mem_blocksOf, Finset.notMem_empty, iff_false]
      exact fun hb => absurd (hi.blocks.logged_lt _ _ hb) (lt_irrefl _)
    have hsum : (s.active.map (s.spare m)).sum ≤ s.active.length * m := by
      simpa using sum_le_card_nsmul (s.active.map (s.spare m)) (m : ℤ) (by simp [State.spare])
    have hres := hadm _ _ ha
    have hspare : s.spare m s.nextOp = m := by simp [State.spare, hnew]
    change (s.header.length : ℤ) + ((s.active ++ [s.nextOp]).map (s.spare m)).sum + 2 ≤ cap
    rw [map_append, List.sum_append, map_singleton, sum_singleton, hspare]
    rw [hr.count] at hres
    by_cases hact : s.active = []
    · -- the first of its group finds an empty header
      simp [hact, (hi.blocks.quiet hc hact).2]
      omega
    · have hpos : (1 : ℤ) ≤ s.active.length := by
        exact_mod_cast length_pos_iff.mpr hact
      nlinarith
  | write b hp => exact budget_write hi hp hb b
  | leave hp ho | close hp ho => exact fun hle => budget_leave (s := s) hle (hr.mem _ _ hp) hb
  | run hp | reopen hp => exact hb
  | clear hp =>
    intro hle
    have hbud := hb hle
    change ((0 : ℕ) : ℤ) + (s.active.map (s.spare m)).sum + 2 ≤ cap
    omega

/-- **Reservation.** Admission reserves `m + 1`, no operation logs over `m`: the header stays two short. -/
theorem reach_budget {cap m : ℕ} (hcap : m + 2 ≤ cap) (hadm : ∀ h k, Admit h k → (h.length : ℤ) + (k + 1) * (m + 1) ≤ cap)
    (h : Reach Admit s) (hle : ∀ i, (s.blocksOf i).card ≤ m) : s.header.length + 2 ≤ cap := by
  have hb : Budget cap m s := by
    clear hle
    induction h with
    | init => simpa [Budget, State.init] using fun _ => by omega
    | step hr hs ih => exact step_budget hcap hadm hs (reach_inv hr) ih
  have hsum : 0 ≤ (s.active.map (s.spare m)).sum := by
    refine sum_nonneg fun x hx => ?_
    obtain ⟨i, -, rfl⟩ := mem_map.mp hx
    simpa [State.spare] using hle i
  have := hb hle
  omega

end Xv6.Lib.GroupCommit
