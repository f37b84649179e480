/-
Programs over a shared state with numbered sleep locks.

A program returns, takes or releases a lock, or acts on the state: an action is atomic, labelled, and may fail for good
(a panic). `Runs` is one program alone, from the locks it holds: taking a lock it holds hangs, so such a run never
ends, and releasing one it does not hold is refused. `Guard` is a condition on the labelled steps of a run, checked in
the state before the step.

- `runs_bind`, `visits_bind`, `panics_bind`: a run of a sequence is a run of its parts.
- `Triple` and its rules: what a program establishes about the states it visits, its panics and the state it ends in.
-/
import Mathlib.Tactic

namespace Xv6.Lib.LockProg

/-- programs over states `σ`, with panics `ε` and labels `Λ` -/
inductive Prog (σ ε Λ α : Type) : Type 1 where
  | ret (a : α)
  | acquire (e : Λ) (l : ℕ) (k : Prog σ ε Λ α)
  | release (l : ℕ) (k : Prog σ ε Λ α)
  | act {β : Type} (e : Λ) (f : σ → Except ε (β × σ)) (k : β → Prog σ ε Λ α)

variable {σ ε Λ α β : Type}

def Prog.bind : Prog σ ε Λ α → (α → Prog σ ε Λ β) → Prog σ ε Λ β
  | .ret a, g => g a
  | .acquire e l k, g => .acquire e l (k.bind g)
  | .release l k, g => .release l (k.bind g)
  | .act e f k, g => .act e f fun x => (k x).bind g

instance : Monad (Prog σ ε Λ) where
  pure := .ret
  bind := .bind

/-- take lock `l` -/
def acquire (e : Λ) (l : ℕ) : Prog σ ε Λ Unit := .acquire e l (.ret ())

/-- release lock `l` -/
def release (l : ℕ) : Prog σ ε Λ Unit := .release l (.ret ())

/-- act on the state -/
def act (e : Λ) (f : σ → Except ε (β × σ)) : Prog σ ε Λ β := .act e f .ret

/-! ## One program alone -/

/-- a state and the locks the program holds -/
structure Cfg (σ : Type) where
  st : σ
  held : Finset ℕ

/-- the completed runs of a program whose labelled steps meet `Guard` -/
def Prog.Runs (Guard : Λ → σ → Prop) : Prog σ ε Λ α → Cfg σ → α → Cfg σ → Prop
  | .ret a, c, b, d => b = a ∧ d = c
  | .acquire e l k, c, b, d => Guard e c.st ∧ l ∉ c.held ∧ k.Runs Guard { c with held := insert l c.held } b d
  | .release l k, c, b, d => l ∈ c.held ∧ k.Runs Guard { c with held := c.held.erase l } b d
  | .act e f k, c, b, d => Guard e c.st ∧ ∃ x s, f c.st = .ok (x, s) ∧ (k x).Runs Guard { c with st := s } b d

theorem runs_bind {Guard : Λ → σ → Prop} {p : Prog σ ε Λ α} {g : α → Prog σ ε Λ β} {c d : Cfg σ} {b : β} :
    (p >>= g).Runs Guard c b d ↔ ∃ a c', p.Runs Guard c a c' ∧ (g a).Runs Guard c' b d := by
  change (p.bind g).Runs Guard c b d ↔ _
  induction p generalizing c with
  | ret a => simp [Prog.bind, Prog.Runs]
  | acquire e l k ih | release l k ih | act e f k ih =>
    simp only [Prog.bind, Prog.Runs, ih]
    grind

/-- the states a run visits -/
def Prog.Visits (Guard : Λ → σ → Prop) : Prog σ ε Λ α → Cfg σ → Cfg σ → Prop
  | .ret _, c, d => d = c
  | .acquire e l k, c, d => d = c ∨ Guard e c.st ∧ l ∉ c.held ∧ k.Visits Guard { c with held := insert l c.held } d
  | .release l k, c, d => d = c ∨ l ∈ c.held ∧ k.Visits Guard { c with held := c.held.erase l } d
  | .act e f k, c, d => d = c ∨ Guard e c.st ∧ ∃ x s, f c.st = .ok (x, s) ∧ (k x).Visits Guard { c with st := s } d

/-- the panics a run can end in -/
def Prog.Panics (Guard : Λ → σ → Prop) : Prog σ ε Λ α → Cfg σ → ε → Prop
  | .ret _, _, _ => False
  | .acquire e l k, c, x => Guard e c.st ∧ l ∉ c.held ∧ k.Panics Guard { c with held := insert l c.held } x
  | .release l k, c, x => l ∈ c.held ∧ k.Panics Guard { c with held := c.held.erase l } x
  | .act e f k, c, x => Guard e c.st ∧
      (f c.st = .error x ∨ ∃ y s, f c.st = .ok (y, s) ∧ (k y).Panics Guard { c with st := s } x)

theorem visits_bind {Guard : Λ → σ → Prop} {p : Prog σ ε Λ α} {g : α → Prog σ ε Λ β} {c d : Cfg σ}
    (h : (p >>= g).Visits Guard c d) : p.Visits Guard c d ∨ ∃ a c', p.Runs Guard c a c' ∧ (g a).Visits Guard c' d := by
  change (p.bind g).Visits Guard c d at h
  induction p generalizing c with
  | ret a => exact .inr ⟨a, c, ⟨rfl, rfl⟩, h⟩
  | acquire e l k ih | release l k ih | act e f k ih =>
    simp only [Prog.bind, Prog.Visits, Prog.Runs] at h ⊢
    grind

theorem panics_bind {Guard : Λ → σ → Prop} {p : Prog σ ε Λ α} {g : α → Prog σ ε Λ β} {c : Cfg σ} {x : ε}
    (h : (p >>= g).Panics Guard c x) : p.Panics Guard c x ∨ ∃ a c', p.Runs Guard c a c' ∧ (g a).Panics Guard c' x := by
  change (p.bind g).Panics Guard c x at h
  induction p generalizing c with
  | ret a => exact .inr ⟨a, c, ⟨rfl, rfl⟩, h⟩
  | acquire e l k ih | release l k ih | act e f k ih =>
    simp only [Prog.bind, Prog.Panics, Prog.Runs] at h ⊢
    grind

theorem runs_visits {Guard : Λ → σ → Prop} {p : Prog σ ε Λ α} {c d : Cfg σ} {a : α} (h : p.Runs Guard c a d) :
    p.Visits Guard c d := by
  induction p generalizing c with
  | ret b => exact h.2
  | acquire e l k ih => exact .inr ⟨h.1, h.2.1, ih h.2.2⟩
  | release l k ih => exact .inr ⟨h.1, ih h.2⟩
  | act e f k ih =>
    obtain ⟨hg, x, s, hf, hr⟩ := h
    exact .inr ⟨hg, x, s, hf, ih x hr⟩

/-! ## Runs, computed -/

/-- how a run ends; `stuck`: at a lock it holds or a step that does not meet the condition -/
inductive Outcome (σ ε α : Type) where
  | done (a : α) (c : Cfg σ)
  | panicked (x : ε)
  | stuck

/-- the run panicked with `x` -/
def Outcome.isPanic [DecidableEq ε] (x : ε) : Outcome σ ε α → Bool
  | .panicked y => x = y
  | _ => false

/-- the run of a program under a decidable condition -/
def Prog.exec (g : Λ → σ → Bool) : Prog σ ε Λ α → Cfg σ → Outcome σ ε α
  | .ret a, c => .done a c
  | .acquire e l k, c => if g e c.st ∧ l ∉ c.held then k.exec g { c with held := insert l c.held } else .stuck
  | .release l k, c => if l ∈ c.held then k.exec g { c with held := c.held.erase l } else .stuck
  | .act e f k, c =>
    if g e c.st then
      match f c.st with
      | .ok (x, s) => (k x).exec g { c with st := s }
      | .error x => .panicked x
    else .stuck

section

variable {g : Λ → σ → Bool} {Guard : Λ → σ → Prop}

theorem runs_of_exec (hg : ∀ e s, g e s = true → Guard e s) {p : Prog σ ε Λ α} {c d : Cfg σ} {a : α}
    (h : p.exec g c = .done a d) : p.Runs Guard c a d := by
  induction p generalizing c with
  | ret b =>
    cases h
    exact ⟨rfl, rfl⟩
  | acquire e l k ih =>
    simp only [Prog.exec] at h
    split_ifs at h with hl
    exact ⟨hg _ _ hl.1, hl.2, ih h⟩
  | release l k ih =>
    simp only [Prog.exec] at h
    split_ifs at h with hl
    exact ⟨hl, ih h⟩
  | act e f k ih =>
    simp only [Prog.exec] at h
    split_ifs at h with hl
    split at h
    · next x s hf => exact ⟨hg _ _ hl, x, s, hf, ih x h⟩
    · cases h

theorem panics_of_exec [DecidableEq ε] (hg : ∀ e s, g e s = true → Guard e s) {p : Prog σ ε Λ α} {c : Cfg σ} {x : ε}
    (h : (p.exec g c).isPanic x = true) : p.Panics Guard c x := by
  induction p generalizing c with
  | ret b => simp [Prog.exec, Outcome.isPanic] at h
  | acquire e l k ih =>
    simp only [Prog.exec] at h
    split_ifs at h with hl
    · exact ⟨hg _ _ hl.1, hl.2, ih h⟩
    · simp [Outcome.isPanic] at h
  | release l k ih =>
    simp only [Prog.exec] at h
    split_ifs at h with hl
    · exact ⟨hl, ih h⟩
    · simp [Outcome.isPanic] at h
  | act e f k ih =>
    simp only [Prog.exec] at h
    split_ifs at h with hl
    · split at h
      · next y s hf => exact ⟨hg _ _ hl, .inr ⟨y, s, hf, ih y h⟩⟩
      · next y hf =>
        obtain rfl : x = y := of_decide_eq_true h
        exact ⟨hg _ _ hl, .inl hf⟩
    · simp [Outcome.isPanic] at h

end

/-! ## Triples -/

/-- what is asked of every run: its steps meet `Guard`, its states keep `Always`, its panics are `Safe` -/
structure Spec (σ ε Λ : Type) where
  Guard : Λ → σ → Prop
  Always : σ → Prop
  Safe : ε → Prop

/-- from `P`, every run keeps to the specification, and ends in `Q` if it ends -/
def Triple (S : Spec σ ε Λ) (P : σ → Prop) (p : Prog σ ε Λ α) (Q : α → σ → Prop) : Prop :=
  ∀ c, P c.st → S.Always c.st →
    (∀ d, p.Visits S.Guard c d → S.Always d.st) ∧ (∀ x, p.Panics S.Guard c x → S.Safe x) ∧
      ∀ a d, p.Runs S.Guard c a d → Q a d.st

namespace Triple

variable {S : Spec σ ε Λ} {P P' : σ → Prop} {Q Q' : α → σ → Prop} {p : Prog σ ε Λ α}

theorem pure {a : α} (h : ∀ s, P s → Q a s) : Triple S P (pure a : Prog σ ε Λ α) Q := by
  intro c hc hA
  refine ⟨?_, ?_, ?_⟩
  · rintro d rfl
    exact hA
  · rintro x ⟨⟩
  · rintro b d ⟨rfl, rfl⟩
    exact h _ hc

theorem bind {R : β → σ → Prop} {g : α → Prog σ ε Λ β} (hp : Triple S P p Q) (hg : ∀ a, Triple S (Q a) (g a) R) :
    Triple S P (p >>= g) R := by
  intro c hc hA
  obtain ⟨hv, hx, hr⟩ := hp c hc hA
  have hnext : ∀ a c', p.Runs S.Guard c a c' → _ := fun a c' h => hg a c' (hr a c' h) (hv c' (runs_visits h))
  refine ⟨?_, ?_, ?_⟩
  · intro d hd
    obtain hd | ⟨a, c', h1, h2⟩ := visits_bind hd
    · exact hv d hd
    · exact (hnext a c' h1).1 d h2
  · intro x h
    obtain h | ⟨a, c', h1, h2⟩ := panics_bind h
    · exact hx x h
    · exact (hnext a c' h1).2.1 x h2
  · intro b d h
    obtain ⟨a, c', h1, h2⟩ := runs_bind.mp h
    exact (hnext a c' h1).2.2 b d h2

theorem conseq (hp : Triple S P p Q) (h : ∀ s, P' s → P s) (hq : ∀ a s, Q a s → Q' a s) : Triple S P' p Q' := by
  intro c hc hA
  obtain ⟨hv, hx, hr⟩ := hp c (h _ hc) hA
  exact ⟨hv, hx, fun a d hd => hq a _ (hr a d hd)⟩

/-- what is known of the state before may be used in the proof -/
theorem extract {φ : Prop} (h : ∀ s, P s → φ) (hp : φ → Triple S P p Q) : Triple S P p Q :=
  fun c hc hA => hp (h c.st hc) c hc hA

theorem acquire {e : Λ} {l : ℕ} : Triple S P (acquire e l : Prog σ ε Λ Unit) fun _ => P := by
  intro c hc hA
  refine ⟨?_, ?_, ?_⟩
  · rintro d (rfl | ⟨-, -, rfl⟩) <;> exact hA
  · rintro x ⟨-, -, ⟨⟩⟩
  · rintro a d ⟨-, -, -, rfl⟩
    exact hc

theorem release {l : ℕ} : Triple S P (release l : Prog σ ε Λ Unit) fun _ => P := by
  intro c hc hA
  refine ⟨?_, ?_, ?_⟩
  · rintro d (rfl | ⟨-, rfl⟩) <;> exact hA
  · rintro x ⟨-, ⟨⟩⟩
  · rintro a d ⟨-, -, rfl⟩
    exact hc

theorem act {e : Λ} {f : σ → Except ε (α × σ)}
    (hok : ∀ s x s', P s → S.Always s → S.Guard e s → f s = .ok (x, s') → S.Always s' ∧ Q x s')
    (herr : ∀ s x, P s → S.Guard e s → f s = .error x → S.Safe x) : Triple S P (act e f) Q := by
  intro c hc hA
  refine ⟨?_, ?_, ?_⟩
  · rintro d (rfl | ⟨hg, x, s, hf, rfl⟩)
    · exact hA
    · exact (hok _ x s hc hA hg hf).1
  · rintro x ⟨hg, hf | ⟨y, s, -, ⟨⟩⟩⟩
    exact herr _ x hc hg hf
  · rintro a d ⟨hg, x, s, hf, rfl, rfl⟩
    exact (hok _ a s hc hA hg hf).2

theorem ite {b : Prop} [Decidable b] {p q : Prog σ ε Λ α} (hp : b → Triple S P p Q) (hq : ¬ b → Triple S P q Q) :
    Triple S P (if b then p else q) Q := by
  split_ifs with hb
  · exact hp hb
  · exact hq hb

end Triple

end Xv6.Lib.LockProg
