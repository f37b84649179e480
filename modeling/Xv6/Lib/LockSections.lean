/-
Agents that run sequences of lock operations under mutual exclusion.

Each agent works through a list of `acq` and `rel` operations, its current path; an `acq` waits until the lock is free,
and an agent with nothing left to do may start another path. `Deadlocked` is a nonempty set of agents, each at an `acq`
of a lock held by another agent of the set.

Two agents cross when each holds a lock that the other still wants before giving up its own. Crossing pairs can never
untangle, so a run that never lets an agent complete a crossing (`NonCrossing` at each acquisition) never contains one:
`noCrossing_reach`. What else a development knows about its paths enters through `Along`, a condition on what is held at
each acquisition, which every agent keeps (`along_reach`).
-/
import Mathlib.Tactic

namespace Xv6.Lib

open Function (update update_self update_of_ne)

inductive LockOp (L : Type) where
  | acq (l : L)
  | rel (l : L)
deriving DecidableEq, Repr

/-- the locks an agent holds and the rest of its path -/
structure Agent (L : Type) where
  held : List L
  todo : List (LockOp L)
deriving DecidableEq, Repr

variable {I L : Type} [DecidableEq I] [DecidableEq L]

/-- the locks are free or held by the agents that list them -/
abbrev LockState (I L : Type) := I → Agent L

def idle : LockState I L := fun _ => ⟨[], []⟩

/-- no restriction on acquisitions -/
def Unguarded (_ : LockState I L) (_ : I) (_ : L) (_ : List (LockOp L)) : Prop := True

def Free (s : LockState I L) (l : L) : Prop := ∀ c, l ∉ (s c).held

/-- one lock operation, or the start of a path; `Guard` restricts the acquisitions that a run may contain -/
inductive LockStep (Paths : I → List (LockOp L) → Prop) (Guard : LockState I L → I → L → List (LockOp L) → Prop)
    (s : LockState I L) : LockState I L → Prop
  | start (c : I) (p : List (LockOp L)) (hp : Paths c p) (ht : (s c).todo = []) :
      LockStep Paths Guard s (update s c ⟨(s c).held, p⟩)
  | acquire (c : I) (l : L) (r : List (LockOp L)) (ht : (s c).todo = .acq l :: r) (hf : Free s l)
      (hg : Guard s c l r) : LockStep Paths Guard s (update s c ⟨l :: (s c).held, r⟩)
  | release (c : I) (l : L) (r : List (LockOp L)) (ht : (s c).todo = .rel l :: r) :
      LockStep Paths Guard s (update s c ⟨(s c).held.erase l, r⟩)

def Reach (Paths : I → List (LockOp L) → Prop) (Guard : LockState I L → I → L → List (LockOp L) → Prop) :
    LockState I L → Prop :=
  Relation.ReflTransGen (LockStep Paths Guard) idle

theorem Reach.idle {Paths : I → List (LockOp L) → Prop}
    {Guard : LockState I L → I → L → List (LockOp L) → Prop} : Reach Paths Guard idle := .refl

theorem Reach.step {Paths : I → List (LockOp L) → Prop} {Guard : LockState I L → I → L → List (LockOp L) → Prop}
    {s s' : LockState I L} (h : Reach Paths Guard s) (hs : LockStep Paths Guard s s') : Reach Paths Guard s' := h.tail hs

/-- agent c waits for lock l, held by agent c' -/
def WaitsFor (s : LockState I L) (c : I) (l : L) (c' : I) : Prop :=
  (∃ r, (s c).todo = .acq l :: r) ∧ l ∈ (s c').held

/-- every agent of D waits for a lock held by another agent of D -/
def Deadlocked (s : LockState I L) (D : Set I) : Prop :=
  D.Nonempty ∧ ∀ c ∈ D, ∃ l, ∃ c' ∈ D, c' ≠ c ∧ WaitsFor s c l c'

/-- the path takes y before it next releases x -/
def wants (x y : L) : List (LockOp L) → Bool
  | [] => false
  | .acq l :: r => l = y || wants x y r
  | .rel l :: r => l ≠ x && wants x y r

/-- each of the two agents holds a lock that the other still wants before releasing its own -/
def Crossing (s : LockState I L) (c c' : I) (x y : L) : Prop :=
  x ∈ (s c).held ∧ wants x y (s c).todo ∧ y ∈ (s c').held ∧ wants y x (s c').todo

/-- taking l does not complete a crossing with a lock that another agent holds -/
def NonCrossing (s : LockState I L) (c : I) (l : L) (r : List (LockOp L)) : Prop :=
  ∀ c' ≠ c, ∀ y ∈ (s c').held, ¬ (wants l y r ∧ wants y l (s c').todo)

variable {Paths : I → List (LockOp L) → Prop} {Guard : LockState I L → I → L → List (LockOp L) → Prop}
  {s s' : LockState I L}

/-! ## Conditions along the paths -/

/-- every acquisition of the path, from the held locks h on, meets R; at its end nothing is held -/
def Along (R : List L → L → Prop) : List L → List (LockOp L) → Prop
  | h, [] => h = []
  | h, .acq l :: r => R h l ∧ Along R (l :: h) r
  | h, .rel l :: r => Along R (h.erase l) r

theorem along_step {R : List L → L → Prop} (hP : ∀ c p, Paths c p → Along R [] p) (h : LockStep Paths Guard s s')
    (hs : ∀ c, Along R (s c).held (s c).todo) (c : I) : Along R (s' c).held (s' c).todo := by
  cases h with
  | start d p hp ht =>
    by_cases hc : c = d
    · subst hc
      have hnil : (s c).held = [] := by have := hs c; rwa [ht] at this
      simp only [update_self, hnil]
      exact hP c p hp
    · rw [update_of_ne hc]; exact hs c
  | acquire d k r ht hf hg =>
    by_cases hc : c = d
    · subst hc
      have := hs c
      rw [ht] at this
      simp only [update_self]
      exact this.2
    · rw [update_of_ne hc]; exact hs c
  | release d k r ht =>
    by_cases hc : c = d
    · subst hc
      have := hs c
      rw [ht] at this
      simp only [update_self]
      exact this
    · rw [update_of_ne hc]; exact hs c

theorem along_reach {R : List L → L → Prop} (hP : ∀ c p, Paths c p → Along R [] p) (h : Reach Paths Guard s) (c : I) :
    Along R (s c).held (s c).todo := by
  induction h generalizing c with
  | refl => rfl
  | tail _ hs ih => exact along_step hP hs ih c

/-! ## Crossing sections -/

theorem nodup_step (h : LockStep Paths Guard s s') (hs : ∀ c, (s c).held.Nodup) (c : I) : (s' c).held.Nodup := by
  cases h with
  | start d p hp ht =>
    by_cases hc : c = d
    · subst hc; simpa using hs c
    · rw [update_of_ne hc]; exact hs c
  | acquire d k r ht hf hg =>
    by_cases hc : c = d
    · subst hc; simpa using ⟨hf c, hs c⟩
    · rw [update_of_ne hc]; exact hs c
  | release d k r ht =>
    by_cases hc : c = d
    · subst hc; simpa using (hs c).erase k
    · rw [update_of_ne hc]; exact hs c

/-- What an agent holds and wants after a step it held and wanted before, or the step was its acquisition of that very
lock, and nothing happened to the others. -/
theorem section_step (h : LockStep Paths Guard s s') (hnd : ∀ c, (s c).held.Nodup) (hend : ∀ c, (s c).todo = [] → (s c).held = [])
    (c : I) (x y : L) (hx : x ∈ (s' c).held) (hw : wants x y (s' c).todo) : (x ∈ (s c).held ∧ wants x y (s c).todo) ∨
      (∃ r, wants x y r ∧ Guard s c x r ∧ ∀ c' ≠ c, s' c' = s c') := by
  cases h with
  | start d p hp ht =>
    by_cases hc : c = d
    · subst hc
      simp only [update_self, hend c ht] at hx
      simp at hx
    · rw [update_of_ne hc] at hx hw
      exact Or.inl ⟨hx, hw⟩
  | acquire d k r ht hf hg =>
    by_cases hc : c = d
    · subst hc
      simp only [update_self] at hx hw
      rcases List.mem_cons.1 hx with rfl | hx
      · exact Or.inr ⟨r, hw, hg, fun c' hc' => update_of_ne hc' _ _⟩
      · exact Or.inl ⟨hx, by rw [ht]; simp [wants, hw]⟩
    · rw [update_of_ne hc] at hx hw
      exact Or.inl ⟨hx, hw⟩
  | release d k r ht =>
    by_cases hc : c = d
    · subst hc
      simp only [update_self] at hx hw
      have hkx : k ≠ x := by
        rintro rfl
        exact (hnd c).not_mem_erase hx
      exact Or.inl ⟨List.mem_of_mem_erase hx, by rw [ht]; simp [wants, hkx, hw]⟩
    · rw [update_of_ne hc] at hx hw
      exact Or.inl ⟨hx, hw⟩

theorem noCrossing_step (h : LockStep Paths NonCrossing s s') (hnd : ∀ c, (s c).held.Nodup)
    (hend : ∀ c, (s c).todo = [] → (s c).held = []) (hs : ∀ c c' x y, c' ≠ c → ¬ Crossing s c c' x y) :
    ∀ c c' x y, c' ≠ c → ¬ Crossing s' c c' x y := by
  rintro c c' x y hne ⟨hx, hxw, hy, hyw⟩
  rcases section_step h hnd hend c x y hx hxw with ⟨h1, h2⟩ | ⟨r, hr, hg, hsame⟩
  · rcases section_step h hnd hend c' y x hy hyw with ⟨h3, h4⟩ | ⟨r, hr, hg, hsame⟩
    · exact hs c c' x y hne ⟨h1, h2, h3, h4⟩
    · exact hg c (Ne.symm hne) x h1 ⟨hr, h2⟩
  · rw [hsame c' hne] at hy hyw
    exact hg c' hne y hy ⟨hr, hyw⟩

/-- **No crossing pair is ever reached** when no acquisition completes one. -/
theorem noCrossing_reach {R : List L → L → Prop} (hP : ∀ c p, Paths c p → Along R [] p)
    (h : Reach Paths NonCrossing s) : ∀ c c' x y, c' ≠ c → ¬ Crossing s c c' x y := by
  have hall : (∀ c, (s c).held.Nodup) ∧ ∀ c c' x y, c' ≠ c → ¬ Crossing s c c' x y := by
    induction h with
    | refl => exact ⟨fun c => List.nodup_nil, fun c c' x y _ hx => by simp [Crossing, idle] at hx⟩
    | tail hr hs ih =>
      refine ⟨nodup_step hs ih.1, noCrossing_step hs ih.1 (fun c hc => ?_) ih.2⟩
      have := along_reach hP hr c
      rwa [hc] at this
  exact hall.2

end Xv6.Lib
