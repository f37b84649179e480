/-
Doubly linked lists: successor and predecessor pointers, without the heap.

`Links ν` are the two pointers of every node. `Seg k a l b` says that the nodes between a and b are l, in both directions; a
ring with head h is `Seg k h l h` with h and l all different. `Seg.remove` and `Seg.pushFront` are the two splices of an LRU
list, and `Seg.walk` is a search along the pointers: it finds what `List.find?` finds in l. By `Seg.reverse` the same holds
backwards.
-/
import Mathlib.Tactic

namespace Xv6.Lib

open List
open Function (update update_self update_of_ne)

variable {ν : Type}

/-- the pointers of all nodes -/
structure Links (ν : Type) where
  next : ν → ν
  prev : ν → ν

/-- the same list, read backwards -/
def Links.flip (k : Links ν) : Links ν := ⟨k.prev, k.next⟩

/-- from a along l to b -/
def Seg (k : Links ν) (a : ν) : List ν → ν → Prop
  | [], b => k.next a = b ∧ k.prev b = a
  | x :: l, b => k.next a = x ∧ k.prev x = a ∧ Seg k x l b

namespace Seg

variable {k k' : Links ν} {b x : ν} {l2 : List ν}

theorem append : ∀ {l1 : List ν} {a : ν}, Seg k a (l1 ++ x :: l2) b ↔ Seg k a l1 x ∧ Seg k x l2 b
  | [], a => by
    simp only [nil_append, Seg]
    tauto
  | y :: l1, a => by
    simp only [cons_append, Seg, @append l1]
    tauto

/-- a segment sees the successors of a and l and the predecessors of l and b -/
theorem congr : ∀ {l : List ν} {a : ν}, (∀ y ∈ a :: l, k'.next y = k.next y) → (∀ y, y = b ∨ y ∈ l → k'.prev y = k.prev y) →
    Seg k a l b → Seg k' a l b
  | [], a, hn, hp, h => by
    refine ⟨?_, ?_⟩
    · rw [hn a (mem_cons_self ..)]
      exact h.1
    · rw [hp b (.inl rfl)]
      exact h.2
  | y :: l, a, hn, hp, h => by
    refine ⟨?_, ?_, congr (fun z hz => hn z (mem_cons_of_mem _ hz)) (fun z hz => hp z ?_) h.2.2⟩
    · rw [hn a (mem_cons_self ..)]
      exact h.1
    · rw [hp y (.inr (mem_cons_self ..))]
      exact h.2.1
    · exact hz.imp id (mem_cons_of_mem _)

theorem reverse : ∀ {l : List ν} {a : ν}, Seg k a l b → Seg k.flip b l.reverse a
  | [], _, h => ⟨h.2, h.1⟩
  | y :: l, a, h => by
    rw [reverse_cons, append]
    exact ⟨reverse h.2.2, h.2.1, h.1⟩

/-- the last node of a segment points to its end; it can be made to point elsewhere -/
theorem redirect {c : ν} : ∀ {l : List ν} {a : ν}, Seg k a l x → (a :: l).Nodup → c ∉ l →
    (∀ y ∈ a :: l, y ≠ k.prev x → k'.next y = k.next y) → k'.next (k.prev x) = c → (∀ y ∈ l, k'.prev y = k.prev y) →
    k'.prev c = k.prev x → Seg k' a l c
  | [], a, h, _, _, _, hlast, _, hc => by
    rw [h.2] at hlast hc
    exact ⟨hlast, hc⟩
  | y :: l, a, h, hnd, hcl, hn, hlast, hp, hc => by
    have hay : a ∉ y :: l := (nodup_cons.1 hnd).1
    have hmem : k.prev x ∈ y :: l := prev_mem h.2.2
    have hane : a ≠ k.prev x := fun heq => hay (heq ▸ hmem)
    refine ⟨?_, ?_, redirect h.2.2 (nodup_cons.1 hnd).2 (fun hl => hcl (mem_cons_of_mem _ hl))
      (fun z hz => hn z (mem_cons_of_mem _ hz)) hlast (fun z hz => hp z (mem_cons_of_mem _ hz)) hc⟩
    · rw [hn a (mem_cons_self ..) hane]
      exact h.1
    · rw [hp y (mem_cons_self ..)]
      exact h.2.1
where
  prev_mem : ∀ {l : List ν} {a : ν}, Seg k a l x → k.prev x ∈ a :: l
    | [], _, h => h.2 ▸ mem_cons_self ..
    | _ :: _, _, h => mem_cons_of_mem _ (prev_mem h.2.2)

end Seg

/-! ## Splices and searches -/

variable [DecidableEq ν]

namespace Links

/-- `x->next->prev = x->prev; x->prev->next = x->next` -/
def remove (k : Links ν) (x : ν) : Links ν where
  next := update k.next (update k.prev (k.next x) (k.prev x) x) (k.next x)
  prev := update k.prev (k.next x) (k.prev x)

/-- `x->next = h->next; x->prev = h; h->next->prev = x; h->next = x` -/
def pushFront (k : Links ν) (h x : ν) : Links ν where
  next := update (update k.next x (k.next h)) h x
  prev := update (update k.prev x h) (update k.next x (k.next h) h) x

end Links

/-- the loop `for (x = first; x != h; x = x->next)` until p -/
def walk (next : ν → ν) (h : ν) (p : ν → Bool) : ℕ → ν → Option ν
  | 0, _ => none
  | fuel + 1, x => if x = h then none else if p x then some x else walk next h p fuel (next x)

namespace Seg

variable {k : Links ν} {x h : ν} {l l1 l2 : List ν}

theorem remove (h0 : Seg k h (l1 ++ x :: l2) h) (hnd : (h :: (l1 ++ x :: l2)).Nodup) : Seg (k.remove x) h (l1 ++ l2) h := by
  obtain ⟨hleft, hright⟩ := append.1 h0
  have hperm : (h :: (l1 ++ x :: l2)).Perm (x :: (h :: (l1 ++ l2))) :=
    (perm_middle.cons h).trans (List.Perm.swap x h _)
  have hnd' := hperm.nodup_iff.1 hnd
  have hx : x ∉ h :: (l1 ++ l2) := (nodup_cons.1 hnd').1
  have hnd2 : (h :: (l1 ++ l2)).Nodup := (nodup_cons.1 hnd').2
  have hh : h ∉ l1 ++ l2 := (nodup_cons.1 hnd2).1
  have hdisj : ∀ y ∈ l1, y ∉ l2 := fun y h1 h2 => (nodup_append.1 (nodup_cons.1 hnd2).2).2.2 y h1 y h2 rfl
  have hnd1 : (h :: l1).Nodup := nodup_cons.2 ⟨fun hm => hh (mem_append_left _ hm),
    (nodup_append.1 (nodup_cons.1 hnd2).2).1⟩
  have hprev : k.prev x ∈ h :: l1 := redirect.prev_mem hleft
  -- x is not its own successor, so its predecessor is still the old one when it is used
  have hstart : ∀ c, k.next x = c → c ≠ x → c ∉ l1 → Seg (k.remove x) h l1 c := by
    intro c hc hcx hcl
    have hold : update k.prev (k.next x) (k.prev x) x = k.prev x := update_of_ne (hc ▸ hcx.symm) _ _
    refine redirect hleft hnd1 hcl (fun y _ hy => ?_) ?_ (fun y hy => ?_) ?_
    · show update k.next (update k.prev (k.next x) (k.prev x) x) (k.next x) y = _
      rw [hold, update_of_ne hy]
    · show update k.next (update k.prev (k.next x) (k.prev x) x) (k.next x) _ = _
      rw [hold, update_self, hc]
    · show update k.prev (k.next x) (k.prev x) y = _
      rw [hc, update_of_ne]
      rintro rfl
      exact hcl hy
    · show update k.prev (k.next x) (k.prev x) c = _
      rw [hc, update_self]
  cases l2 with
  | nil =>
    rw [append_nil] at hh ⊢
    exact hstart h hright.1 (fun heq => hx (heq ▸ mem_cons_self ..)) hh
  | cons n l3 =>
    have hnx : n ≠ x := fun heq => hx (heq ▸ mem_cons_of_mem _ (mem_append_right _ (mem_cons_self ..)))
    have hn1 : n ∉ l1 := fun hm => hdisj n hm (mem_cons_self ..)
    have hnh : n ≠ h := fun heq => hh (heq ▸ mem_append_right _ (mem_cons_self ..))
    have hn3 : n ∉ l3 := (nodup_cons.1 (nodup_append.1 (nodup_cons.1 hnd2).2).2.1).1
    have hold : update k.prev (k.next x) (k.prev x) x = k.prev x :=
      update_of_ne (hright.1 ▸ hnx.symm) _ _
    refine append.2 ⟨hstart n hright.1 hnx hn1, congr (fun y hy => ?_) (fun y hy => ?_) hright.2.2⟩
    · show update k.next (update k.prev (k.next x) (k.prev x) x) (k.next x) y = _
      rw [hold, update_of_ne]
      rintro rfl
      -- the predecessor of x is h or before x
      rcases mem_cons.1 hprev with heq | hm
      · rw [heq] at hy
        rcases mem_cons.1 hy with hhn | hm3
        · exact hnh hhn.symm
        · exact hh (mem_append_right _ (mem_cons_of_mem _ hm3))
      · exact hdisj _ hm hy
    · show update k.prev (k.next x) (k.prev x) y = _
      rw [hright.1, update_of_ne]
      rintro rfl
      rcases hy with heq | hm
      · exact hnh heq
      · exact hn3 hm

theorem pushFront (h0 : Seg k h l h) (hx : x ∉ h :: l) (hnd : (h :: l).Nodup) : Seg (k.pushFront h x) h (x :: l) h := by
  have hxh : x ≠ h := fun heq => hx (heq ▸ mem_cons_self ..)
  have hfirst : update k.next x (k.next h) h = k.next h := update_of_ne hxh.symm _ _
  have hnext : ∀ y, y ≠ h → y ≠ x → (k.pushFront h x).next y = k.next y := by
    intro y h1 h2
    show update (update k.next x (k.next h)) h x y = _
    rw [update_of_ne h1, update_of_ne h2]
  have hprev : ∀ y, y ≠ k.next h → y ≠ x → (k.pushFront h x).prev y = k.prev y := by
    intro y h1 h2
    show update (update k.prev x h) (update k.next x (k.next h) h) x y = _
    rw [hfirst, update_of_ne h1, update_of_ne h2]
  have hxnext : (k.pushFront h x).next x = k.next h := by
    show update (update k.next x (k.next h)) h x x = _
    rw [update_of_ne hxh, update_self]
  have hback : (k.pushFront h x).prev (k.next h) = x := by
    show update (update k.prev x h) (update k.next x (k.next h) h) x _ = _
    rw [hfirst, update_self]
  refine ⟨update_self .., ?_, ?_⟩
  · show update (update k.prev x h) (update k.next x (k.next h) h) x x = _
    rw [hfirst]
    by_cases hself : x = k.next h
    · exfalso
      cases l with
      | nil => exact hxh (hself.trans h0.1)
      | cons y l => exact hx (mem_cons_of_mem _ (hself.trans h0.1 ▸ mem_cons_self ..))
    · rw [update_of_ne hself, update_self]
  · cases l with
    | nil =>
      rw [h0.1] at hback
      exact ⟨hxnext.trans h0.1, hback⟩
    | cons y l =>
      have hyl := (nodup_cons.1 (nodup_cons.1 hnd).2).1
      have hh := (nodup_cons.1 hnd).1
      rw [h0.1] at hback
      refine ⟨hxnext.trans h0.1, hback, congr (fun z hz => hnext z ?_ ?_) (fun z hz => hprev z ?_ ?_)
        h0.2.2⟩
      · rintro rfl
        exact hh hz
      · rintro rfl
        exact hx (mem_cons_of_mem _ hz)
      · rw [h0.1]
        rintro rfl
        rcases hz with heq | hm
        · exact hh (heq ▸ mem_cons_self ..)
        · exact hyl hm
      · rintro rfl
        rcases hz with heq | hm
        · exact hxh heq
        · exact hx (mem_cons_of_mem _ (mem_cons_of_mem _ hm))

theorem walk (p : ν → Bool) : ∀ {l : List ν} {a : ν} {fuel : ℕ}, Seg k a l h → h ∉ l → l.length < fuel →
    Lib.walk k.next h p fuel (k.next a) = l.find? p
  | [], a, fuel + 1, h0, _, _ => by
    rw [h0.1]
    exact if_pos rfl
  | y :: l, a, fuel + 1, h0, hh, hlen => by
    have hyh : y ≠ h := fun heq => hh (heq ▸ mem_cons_self ..)
    rw [h0.1, Lib.walk, if_neg hyh, find?_cons]
    cases hp : p y with
    | true => rfl
    | false =>
      refine walk p h0.2.2 (fun hm => hh (mem_cons_of_mem _ hm)) ?_
      rw [length_cons] at hlen
      omega

end Seg

end Xv6.Lib
