/-
Singly linked lists: a list of cells of which each points to the next one, and the last one to a given cell. With the first
cell as that one the list is circular.
-/
import Mathlib.Tactic

namespace Xv6.Lib

open List

variable {α : Type*} {next next' : α → α}

/-- each cell of the list points to the one after it, the last one to z -/
def Walk (next : α → α) : List α → α → Prop
  | [], _ => True
  | a :: l, z => next a = l.headD z ∧ Walk next l z

theorem headD_append (l1 l2 : List α) (z : α) : (l1 ++ l2).headD z = l1.headD (l2.headD z) := by
  cases l1 <;> rfl

namespace Walk

theorem append {l1 l2 : List α} {z : α} : Walk next (l1 ++ l2) z ↔ Walk next l1 (l2.headD z) ∧ Walk next l2 z := by
  induction l1 with
  | nil => exact ⟨fun h => ⟨trivial, h⟩, fun h => h.2⟩
  | cons a l ih =>
    show next a = (l ++ l2).headD z ∧ Walk next (l ++ l2) z ↔ (next a = l.headD (l2.headD z) ∧ _) ∧ _
    rw [headD_append, ih, and_assoc]

theorem congr {l : List α} {z : α} (h : Walk next l z) (hn : ∀ x ∈ l, next' x = next x) : Walk next' l z := by
  induction l with
  | nil => trivial
  | cons a l ih =>
    exact ⟨(hn a mem_cons_self).trans h.1, ih h.2 fun x hx => hn x (mem_cons_of_mem a hx)⟩

theorem next_mem {l : List α} {z x : α} (h : Walk next l z) (hx : x ∈ l) : next x ∈ l.tail ++ [z] := by
  induction l with
  | nil => cases hx
  | cons a l ih =>
    rcases mem_cons.1 hx with rfl | hx
    · rw [h.1]
      cases l with
      | nil | cons b l => exact mem_cons_self
    · have := ih h.2 hx
      cases l with
      | nil => cases hx
      | cons b l => exact mem_cons_of_mem b this

theorem next_inj {l : List α} {z x y : α} (h : Walk next l z) (hnd : (l.tail ++ [z]).Nodup) (hx : x ∈ l) (hy : y ∈ l)
    (hxy : next x = next y) : x = y := by
  induction l with
  | nil => cases hx
  | cons a l ih =>
    have hnd' : (l ++ [z]).Nodup := hnd
    -- what the cells behind the first one point to is not what the first one points to
    have key : ∀ b ∈ l, next b ≠ next a := by
      intro b hb heq
      have hmem := h.2.next_mem hb
      rw [heq, h.1] at hmem
      cases l with
      | nil => cases hb
      | cons c l => exact (nodup_cons.1 hnd').1 hmem
    have htail : (l.tail ++ [z]).Nodup := by
      cases l with
      | nil => exact hnd'
      | cons c l => exact (nodup_cons.1 hnd').2
    rcases mem_cons.1 hx with rfl | hx'
    · rcases mem_cons.1 hy with rfl | hy'
      · rfl
      · exact absurd hxy.symm (key y hy')
    · rcases mem_cons.1 hy with rfl | hy'
      · exact absurd hxy (key x hx')
      · exact ih h.2 htail hx' hy'

variable [DecidableEq α]

theorem update {l : List α} {z x : α} (h : Walk next l z) (hx : x ∉ l) (v : α) : Walk (Function.update next x v) l z :=
  h.congr fun y hy => Function.update_of_ne (fun e : y = x => hx (e ▸ hy)) v next

/-- the part after p is replaced: p points to the first cell of the new part -/
theorem relink {l1 l2 l3 : List α} {p z : α} (h : Walk next (l1 ++ p :: l2) z) (h3 : Walk next l3 z) (h1 : p ∉ l1)
    (hp : p ∉ l3) : Walk (Function.update next p (l3.headD z)) (l1 ++ p :: l3) z := by
  rw [append] at h ⊢
  exact ⟨h.1.update h1 _, Function.update_self .., h3.update hp _⟩

end Walk

/-- a cell bounds the cells before it, in an increasing list, from those after it -/
theorem exists_split [LinearOrder α] {l : List α} {b : α} (hs : l.Pairwise (· < ·)) (hb : b ∉ l) (h : ∃ a ∈ l, a < b) :
    ∃ l1 p l2, l = l1 ++ p :: l2 ∧ p < b ∧ ∀ y ∈ l2, b < y := by
  induction l with
  | nil =>
    obtain ⟨a, ha, -⟩ := h
    cases ha
  | cons c l ih =>
    rw [pairwise_cons] at hs
    rw [mem_cons, not_or] at hb
    by_cases hex : ∃ a ∈ l, a < b
    · obtain ⟨l1, p, l2, rfl, hp, h2⟩ := ih hs.2 hb.2 hex
      exact ⟨c :: l1, p, l2, rfl, hp, h2⟩
    · have hge : ∀ y ∈ l, b < y := fun y hy =>
        lt_of_le_of_ne (not_lt.1 fun hlt => hex ⟨y, hy, hlt⟩) fun e => hb.2 (e ▸ hy)
      refine ⟨[], c, l, rfl, ?_, hge⟩
      obtain ⟨a, ha, hab⟩ := h
      rcases mem_cons.1 ha with rfl | ha
      · exact hab
      · exact absurd ⟨a, ha, hab⟩ hex

end Xv6.Lib
