/-
Programs that pass a state along and can stop with an error, and rules for what they establish.

A `Triple` says of a program, from every state with P: if it stops, the error is one of E; if it ends, Q holds of its result
and the last state. The rules follow the program text: one for each way a program is built.
-/
import Mathlib.Tactic

namespace Xv6.Lib

/-- a program over states σ that can stop with an error of type ε -/
abbrev StateProg (σ ε α : Type) := StateT σ (Except ε) α

section Ends

variable {ε α β : Type} {E : ε → Prop} {P P' : α → Prop} {Q : β → Prop}

/-- an error is one of E, a result has P -/
def Ends (E : ε → Prop) (P : α → Prop) : Except ε α → Prop
  | .ok a => P a
  | .error e => E e

variable {x : Except ε α}

theorem Ends.bind {f : α → Except ε β} (h : Ends E P x) (hf : ∀ a, P a → Ends E Q (f a)) : Ends E Q (x >>= f) := by
  cases x with
  | ok a => exact hf a h
  | error e => exact h

theorem Ends.pure {a : α} (h : P a) : Ends E P (pure a : Except ε α) := h

theorem Ends.mono (h : Ends E P x) (hP : ∀ a, P a → P' a) : Ends E P' x := by
  cases x with
  | ok a => exact hP a h
  | error e => exact h

theorem Ends.and (h : Ends E P x) (h' : Ends E P' x) : Ends E (fun a => P a ∧ P' a) x := by
  cases x with
  | ok a => exact ⟨h, h'⟩
  | error e => exact h

end Ends

namespace StateProg

variable {σ ε α β : Type} {E : ε → Prop} {P P' : σ → Prop} {Q Q' : α → σ → Prop} {R : β → σ → Prop}

/-- from P, the program stops only with an error of E, and otherwise ends in Q -/
def Triple (E : ε → Prop) (P : σ → Prop) (x : StateProg σ ε α) (Q : α → σ → Prop) : Prop :=
  ∀ s, P s → Ends E (fun r => Q r.1 r.2) (x s)

theorem run_bind {x : StateProg σ ε α} {f : α → StateProg σ ε β} {s s' : σ} {a : α} (h : x s = .ok (a, s')) :
    (x >>= f) s = f a s' := by
  show (x s >>= fun r => f r.1 r.2) = _
  rw [h]
  rfl

theorem of_bind_ok {x : StateProg σ ε α} {f : α → StateProg σ ε β} {s s' : σ} {b : β} (h : (x >>= f) s = .ok (b, s')) :
    ∃ a s1, x s = .ok (a, s1) ∧ f a s1 = .ok (b, s') := by
  change (x s >>= fun r => f r.1 r.2) = _ at h
  cases hx : x s with
  | ok r =>
    rw [hx] at h
    exact ⟨r.1, r.2, rfl, h⟩
  | error e =>
    rw [hx] at h
    cases h

namespace Triple

theorem pure {a : α} (h : ∀ s, P s → Q a s) : Triple E P (pure a : StateProg σ ε α) Q := fun s hs => h s hs

variable {x : StateProg σ ε α}

theorem bind {f : α → StateProg σ ε β} (hx : Triple E P x Q) (hf : ∀ a, Triple E (Q a) (f a) R) :
    Triple E P (x >>= f) R := fun s hs => (hx s hs).bind fun r hr => hf r.1 r.2 hr

theorem conseq (hx : Triple E P x Q) (hp : ∀ s, P' s → P s) (hq : ∀ a s, Q a s → Q' a s) :
    Triple E P' x Q' := fun s hs => (hx s (hp s hs)).mono fun r hr => hq r.1 r.2 hr

theorem any (x : StateProg σ ε α) : Triple (fun _ => True) P x fun _ _ => True := fun s _ => by
  cases x s <;> trivial

theorem and {E' : ε → Prop} (h : Triple E P x Q) (h' : Triple E' P' x Q') :
    Triple E (fun s => P s ∧ P' s) x fun a s => Q a s ∧ Q' a s := by
  intro s hs
  have h1 := h s hs.1
  have h2 := h' s hs.2
  cases hx : x s with
  | ok r =>
    rw [hx] at h1 h2
    exact ⟨h1, h2⟩
  | error e =>
    rw [hx] at h1
    exact h1

theorem of_exists {ι : Type} {P : ι → σ → Prop} (h : ∀ i, Triple E (P i) x Q) :
    Triple E (fun s => ∃ i, P i s) x Q := fun s ⟨i, hs⟩ => h i s hs

/-- what is known of the state before may be used in the proof -/
theorem extract {φ : Prop} (h : ∀ s, P s → φ) (hx : φ → Triple E P x Q) : Triple E P x Q :=
  fun s hs => hx (h s hs) s hs

theorem get {R : σ → σ → Prop} (h : ∀ s, P s → R s s) : Triple E P (MonadState.get : StateProg σ ε σ) R :=
  fun s hs => h s hs

theorem read {f : σ → StateProg σ ε α} (h : ∀ s, Triple E (fun s' => s' = s ∧ P s') (f s) Q) :
    Triple E P (MonadState.get >>= f) Q := fun s hs => h s s ⟨rfl, hs⟩

theorem update {f : σ → σ} {R : Unit → σ → Prop} (h : ∀ s, P s → R () (f s)) :
    Triple E P (modify f : StateProg σ ε Unit) R := fun s hs => h s hs

theorem throw {e : ε} (h : ∀ s, P s → E e) : Triple E P (MonadExcept.throw e : StateProg σ ε α) Q := fun s hs => h s hs

theorem ite {b : Prop} [Decidable b] {y : StateProg σ ε α} (hx : b → Triple E P x Q) (hy : ¬ b → Triple E P y Q) :
    Triple E P (if b then x else y) Q := by
  split_ifs with h
  · exact hx h
  · exact hy h

end Triple

end StateProg

end Xv6.Lib
