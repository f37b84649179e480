/-
The producers and consumers of sleep1.p over `sleep` and `wakeup` (proc.c), for any number of parties and iterations.

A consumer runs acquire(lk); while(value == 0) sleep(chan, lk); value--; release(lk). A producer runs acquire(lk);
value++; and then wakeup(chan) before or after release(lk), which it chooses anew in each iteration. The steps of sleep
and wakeup, with lk and ptable.lock, are those of the monitor library. One channel is used, so Ch is Unit. value is an
integer, so that a decrement below zero would be visible.

Result `no_lost_wakeup`: in every reachable state value is not negative, and whenever ptable.lock is free and no producer
stands between its increment and the end of its wakeup, value > 0 implies that no consumer is SLEEPING.
-/
import Xv6.Lib.Monitor

namespace Xv6.SleepWakeup

open Lib.Monitor

/-! ## Model -/

/-- the code points of the two loops -/
inductive Point where
  /-- consumer: acquire(lk) -/
  | consume
  /-- consumer: the test of the while loop -/
  | test
  /-- consumer: sleep(chan, lk) -/
  | wait
  /-- consumer: value-- -/
  | take
  /-- consumer: release(lk) -/
  | leave
  /-- producer: acquire(lk) -/
  | produce
  /-- producer: value++ -/
  | put
  /-- producer: value was incremented; wakeup before or after release(lk) -/
  | order
  /-- producer: wakeup(chan) with lk held, then release(lk) -/
  | wakeFirst
  | thenRelease
  /-- producer: release(lk), then wakeup(chan) -/
  | releaseFirst
  | thenWake
deriving DecidableEq, Repr

def code : Point → Instr ℤ Point Unit
  | .consume => .acquire .test
  | .test => .act fun _ value => (value, if value = 0 then .wait else .take)
  | .wait => .sleep () .test
  | .take => .act fun _ value => (value - 1, .leave)
  | .leave => .release .consume
  | .produce => .acquire .put
  | .put => .act fun _ value => (value + 1, .order)
  | .order => .choose fun k => k = .wakeFirst ∨ k = .releaseFirst
  | .wakeFirst => .wakeup () .thenRelease
  | .thenRelease => .release .produce
  | .releaseFirst => .release .thenWake
  | .thenWake => .wakeup () .produce

/-- every party stands before its acquire(lk), and value starts at some v ≥ 0 -/
def Init (s : Cfg ℤ Point Unit) : Prop :=
  Initial (fun k => k = .consume ∨ k = .produce) s ∧ 0 ≤ s.d

/-- the reachable states -/
abbrev Reachable : Cfg ℤ Point Unit → Prop := Reach code (fun _ _ _ => True) Init

/-- a producer between its increment and the end of its wakeup -/
def Producing : Pos Point Unit → Prop
  | .run k => k = .order ∨ k = .wakeFirst ∨ k = .releaseFirst ∨ k = .thenWake
  | .wake1 _ _ => True
  | .wake2 _ => True
  | _ => False

/-! ## Discipline of the two loops -/

/-- lk is held from its acquire to its release -/
def holds : Point → Prop
  | .consume | .produce | .thenWake => False
  | _ => True

/-- sleep is called with value = 0, the decrement is made with value > 0 -/
def sees : Point → ℤ → Prop
  | .wait, value => value = 0
  | .take, value => 0 < value
  | _, _ => True

/-- a wakeup is owed from the increment on -/
def owes : Point → Unit → Prop
  | .order, _ | .wakeFirst, _ | .releaseFirst, _ | .thenWake, _ => True
  | _, _ => False

theorem locked : Locked code (fun _ _ _ => True) holds sees (fun value => 0 ≤ value) where
  acquire := by
    intro k k' h
    cases k <;> cases h <;> exact ⟨id, trivial, fun _ _ => trivial⟩
  release := by
    intro k k' h
    cases k <;> cases h <;> exact ⟨trivial, id⟩
  act := by
    intro k f h
    cases k with
    | test =>
      cases h
      refine ⟨trivial, fun _ value _ hpos _ => ?_⟩
      by_cases h0 : value = 0
      · simp only [if_pos h0]
        exact ⟨trivial, hpos, h0⟩
      · simp only [if_neg h0]
        exact ⟨trivial, hpos, lt_of_le_of_ne hpos (Ne.symm h0)⟩
    | take =>
      cases h
      refine ⟨trivial, fun _ value _ _ hsees => ⟨trivial, ?_, trivial⟩⟩
      have : 0 < value := hsees
      show 0 ≤ value - 1
      omega
    | put =>
      cases h
      refine ⟨trivial, fun _ value _ hpos _ => ⟨trivial, ?_, trivial⟩⟩
      show 0 ≤ value + 1
      omega
    | _ => cases h
  choose := by
    intro k P k' h hk
    cases k <;> cases h
    rcases hk with rfl | rfl <;> exact ⟨Iff.rfl, fun _ _ => trivial⟩
  wakeup := by
    intro k ch k' h
    cases k <;> cases h <;> exact ⟨Iff.rfl, fun _ _ => trivial⟩
  sleep := by
    intro k ch k' h
    cases k <;> cases h
    exact ⟨trivial, trivial, fun _ _ => trivial⟩

theorem wakes : Wakes code (fun _ _ _ => True) sees (fun value => 0 ≤ value) (fun _ value => value = 0) owes where
  acquire := by
    intro k k' ch h ho
    cases k <;> cases h <;> exact ho.elim
  release := by
    intro k k' ch h ho
    cases k <;> cases h <;> first | exact ho.elim | trivial
  act := by
    intro k f h b value ch _ _ hsees hblk
    cases k with
    | test =>
      cases h
      exact .inl (hblk.resolve_right id)
    | take =>
      -- a decrement is made at value > 0, where nobody was blocked
      cases h
      have hpos : 0 < value := hsees
      rcases hblk with h0 | ho
      · have : value = 0 := h0
        omega
      · exact ho.elim
    | put =>
      cases h
      exact .inr trivial
    | _ => cases h
  choose := by
    intro k P k' ch h hk _
    cases k <;> cases h
    rcases hk with rfl | rfl <;> trivial
  wakeup := by
    intro k ch' k' ch h _
    exact .inl rfl
  sleep := by
    intro k ch k' h
    cases k <;> cases h
    exact ⟨fun _ ho => ho, fun _ ho => ho, fun value hsees => hsees⟩

theorem init_ok (s : Cfg ℤ Point Unit) (h : Init s) : Initial (fun k => k = Point.consume ∨ k = .produce) s ∧ 0 ≤ s.d := h

theorem start_free (k : Point) (h : k = .consume ∨ k = .produce) : ¬ holds k := by
  rcases h with rfl | rfl <;> exact id

theorem producing_of_owes {q : Pos Point Unit} (h : q.Owes owes ()) : Producing q := by
  cases q with
  | run k => cases k <;> first | exact h.elim | simp [Producing]
  | wake1 | wake2 => trivial
  | _ => exact h.elim

/-! ## Main result -/

/-- **No wakeup is lost.** For any number of consumers and producers and any interleaving: value is never negative, and
when ptable.lock is free and no producer stands between its increment and the end of its wakeup, value > 0 implies that
no consumer is SLEEPING on the channel. -/
theorem no_lost_wakeup (s : Cfg ℤ Point Unit) (h : Reachable s) :
    0 ≤ s.d ∧ (s.pt = none → (∀ t, ¬ Producing (s.pos t)) → 0 < s.d → ∀ t, ¬ (s.pos t).SleepsOn ()) := by
  refine ⟨(reach_locked locked init_ok start_free h).data, fun _ hquiet hpos t hsleep => ?_⟩
  rcases reach_awake locked.sections wakes.sections init_ok start_free h t () hsleep.waitsOn with h0 | ⟨v, hv⟩
  · have : s.d = 0 := h0
    omega
  · exact hquiet v (producing_of_owes hv)

/-- party 0 is a consumer, all others are producers -/
def boot : Cfg ℤ Point Unit where
  d := 0
  lk := none
  pt := none
  pos t := .run (if t = 0 then .consume else .produce)
  killed _ := false

/-- the consumer goes to sleep, then producer 1 increments value and wakes it: nobody sleeps -/
theorem no_lost_wakeup_example : ∃ s : Cfg ℤ Point Unit, Reachable s ∧ s.pos 0 = .ready .test ∧ s.d = 1 ∧
    ∀ t, ¬ (s.pos t).SleepsOn () := by
  have hinit : Init boot := by
    refine ⟨⟨rfl, rfl, fun t => ⟨_, ?_, rfl⟩⟩, le_rfl⟩
    split_ifs
    · exact .inl rfl
    · exact .inr rfl
  have h1 : Reachable _ := .init hinit
  have h2 := h1.step (.acquire (t := 0) (k := .consume) rfl rfl rfl)
  have h3 := h2.step (.act (t := 0) (k := .test) rfl rfl trivial)
  have h4 := h3.step (.sleep (t := 0) (k := .wait) rfl rfl rfl)
  have h5 := h4.step (.unlock (t := 0) rfl)
  have h6 := h5.step (.mark (t := 0) rfl)
  have h7 := h6.step (.switch (t := 0) rfl)
  have h8 := h7.step (.acquire (t := 1) (k := .produce) rfl rfl rfl)
  have h9 := h8.step (.act (t := 1) (k := .put) rfl rfl trivial)
  have h10 := h9.step (.choose (t := 1) (k := .order) rfl rfl (.inl rfl))
  have h11 := h10.step (.wakeup (t := 1) (k := .wakeFirst) rfl rfl rfl)
  have h12 := h11.step (.scan (t := 1) rfl)
  have h13 := h12.step (.scanned (t := 1) rfl)
  refine ⟨_, h13, rfl, rfl, (no_lost_wakeup _ h13).2 rfl ?_ (by decide)⟩
  intro t
  match t with
  | 0 => exact id
  | 1 => simp [Producing]
  | t + 2 => simp [Producing, Pos.woken, boot]

end Xv6.SleepWakeup
