/-
Monitors with sleep and wakeup over two locks.

Threads (numbered by ℕ, so any number of them) run one program over code points K. A monitor lock lk protects the data;
a second lock pt protects who sleeps. `wakeup` takes pt, turns every sleeper of the channel into a runnable thread and
releases pt. `sleep` is called with lk held: it takes pt, releases lk, marks the thread as sleeping, and pt is released
when the thread has been switched out. A thread that was woken is dispatched with pt held, releases pt and takes lk
again before its call returns. Every acquisition and release is a step of its own, and at any moment a thread can be
killed, which wakes it.

A program is described by assertions of its code points. `Sections` says which points hold lk and what they know of the
data, and what holds while lk is free; `Locked` is the case of a data invariant that every access keeps. Over them
`Wakes` says on which channels a point still owes a wakeup, and `Owned` how the owners that the data names change.

- `reach_sections`, `reach_locked`: mutual exclusion, the assertions and the data invariant hold in every reachable state;
- `reach_awake`: whenever a thread sleeps on a channel, the channel is blocked or some thread owes it a wakeup;
- `reach_blocked`: with lk free the channel of a sleeper is blocked;
- `reach_owned`: where the data names the owners of resources, exactly the thread it names is in its owned section;
- `recording_keeps`: what the call of each thread has appended to a record in the data.
-/
import Mathlib.Tactic

namespace Xv6.Lib.Monitor

open Function (update update_self update_of_ne apply_update)

/-! ## Programs and their runs -/

/-- what a code point does -/
inductive Instr (σ K Ch : Type) where
  /-- acquire(lk) -/
  | acquire (k : K)
  /-- release(lk) -/
  | release (k : K)
  /-- an access to the data; it also sees whether the thread has been killed -/
  | act (f : Bool → σ → σ × K)
  | wakeup (ch : Ch) (k : K)
  /-- sleep(ch, lk) -/
  | sleep (ch : Ch) (k : K)
  /-- go on at any of these points -/
  | choose (P : K → Prop)

/-- where a thread stands -/
inductive Pos (K Ch : Type) where
  /-- at a code point -/
  | run (k : K)
  /-- in wakeup(ch) with pt held, before the scan -/
  | wake1 (ch : Ch) (k : K)
  /-- in wakeup with pt held, after the scan -/
  | wake2 (k : K)
  /-- in sleep(ch, lk), called at k0, with lk and pt held -/
  | slp1 (k0 : K) (ch : Ch) (k : K)
  /-- in sleep with pt held, lk released -/
  | slp2 (ch : Ch) (k : K)
  /-- marked as sleeping, not yet switched out: pt is still held -/
  | slp3 (ch : Ch) (k : K)
  /-- sleeping on ch -/
  | asleep (ch : Ch) (k : K)
  /-- woken, not yet dispatched -/
  | ready (k : K)
  /-- dispatched, with pt held -/
  | back (k : K)
  /-- in sleep, about to acquire lk again -/
  | relock (k : K)

structure Cfg (σ K Ch : Type) where
  d : σ
  lk : Option ℕ
  pt : Option ℕ
  pos : ℕ → Pos K Ch
  killed : ℕ → Bool

variable {σ K Ch : Type} [DecidableEq Ch]

/-- the wakeup scan on one thread -/
def Pos.woken (ch : Ch) : Pos K Ch → Pos K Ch
  | .asleep ch' k => if ch' = ch then .ready k else .asleep ch' k
  | p => p

/-- a killed thread is woken whatever it sleeps on -/
def Pos.roused : Pos K Ch → Pos K Ch
  | .asleep _ k => .ready k
  | p => p

/-- one step of a thread; an access to the data is only taken where the guard allows it -/
inductive Step (code : K → Instr σ K Ch) (guard : K → Bool → σ → Prop) : Cfg σ K Ch → Cfg σ K Ch → Prop where
  | acquire {s t k k'} (hp : s.pos t = .run k) (hc : code k = .acquire k') (hf : s.lk = none) :
      Step code guard s { s with lk := some t, pos := update s.pos t (.run k') }
  | release {s t k k'} (hp : s.pos t = .run k) (hc : code k = .release k') :
      Step code guard s { s with lk := none, pos := update s.pos t (.run k') }
  | act {s t k f} (hp : s.pos t = .run k) (hc : code k = .act f) (hg : guard k (s.killed t) s.d) :
      Step code guard s { s with
        d := (f (s.killed t) s.d).1, pos := update s.pos t (.run (f (s.killed t) s.d).2) }
  | choose {s t k P k'} (hp : s.pos t = .run k) (hc : code k = .choose P) (hk : P k') :
      Step code guard s { s with pos := update s.pos t (.run k') }
  | wakeup {s t k ch k'} (hp : s.pos t = .run k) (hc : code k = .wakeup ch k') (hf : s.pt = none) :
      Step code guard s { s with pt := some t, pos := update s.pos t (.wake1 ch k') }
  | scan {s t ch k} (hp : s.pos t = .wake1 ch k) :
      Step code guard s { s with pos := update (fun u => (s.pos u).woken ch) t (.wake2 k) }
  | scanned {s t k} (hp : s.pos t = .wake2 k) :
      Step code guard s { s with pt := none, pos := update s.pos t (.run k) }
  | sleep {s t k ch k'} (hp : s.pos t = .run k) (hc : code k = .sleep ch k') (hf : s.pt = none) :
      Step code guard s { s with pt := some t, pos := update s.pos t (.slp1 k ch k') }
  | unlock {s t k0 ch k} (hp : s.pos t = .slp1 k0 ch k) :
      Step code guard s { s with lk := none, pos := update s.pos t (.slp2 ch k) }
  | mark {s t ch k} (hp : s.pos t = .slp2 ch k) :
      Step code guard s { s with pos := update s.pos t (.slp3 ch k) }
  | switch {s t ch k} (hp : s.pos t = .slp3 ch k) :
      Step code guard s { s with pt := none, pos := update s.pos t (.asleep ch k) }
  | dispatch {s t k} (hp : s.pos t = .ready k) (hf : s.pt = none) :
      Step code guard s { s with pt := some t, pos := update s.pos t (.back k) }
  | tidy {s t k} (hp : s.pos t = .back k) :
      Step code guard s { s with pt := none, pos := update s.pos t (.relock k) }
  | relock {s t k} (hp : s.pos t = .relock k) (hf : s.lk = none) :
      Step code guard s { s with lk := some t, pos := update s.pos t (.run k) }
  | kill {s} (t : ℕ) (hf : s.pt = none) :
      Step code guard s { s with
        pos := update s.pos t (s.pos t).roused, killed := update s.killed t true }

/-- nobody holds a lock and every thread is at a start point -/
structure Initial (start : K → Prop) (s : Cfg σ K Ch) : Prop where
  lk : s.lk = none
  pt : s.pt = none
  pos : ∀ t, ∃ k, start k ∧ s.pos t = .run k

inductive Reach (code : K → Instr σ K Ch) (guard : K → Bool → σ → Prop) (init : Cfg σ K Ch → Prop) :
    Cfg σ K Ch → Prop where
  | init {s} (h : init s) : Reach code guard init s
  | step {s s'} (h : Reach code guard init s) (hs : Step code guard s s') : Reach code guard init s'

/-! ## Mutual exclusion and assertions -/

/-- the lock discipline of a program: `holds k` says that lk is held at k, `sees k` what is then known of the data, and
J is an invariant of the data -/
structure Locked (code : K → Instr σ K Ch) (guard : K → Bool → σ → Prop) (holds : K → Prop) (sees : K → σ → Prop)
    (J : σ → Prop) : Prop where
  acquire : ∀ {k k'}, code k = .acquire k' → ¬ holds k ∧ holds k' ∧ ∀ d, J d → sees k' d
  release : ∀ {k k'}, code k = .release k' → holds k ∧ ¬ holds k'
  act : ∀ {k f}, code k = .act f → holds k ∧ ∀ b d, guard k b d → J d → sees k d →
    holds (f b d).2 ∧ J (f b d).1 ∧ sees (f b d).2 (f b d).1
  choose : ∀ {k P k'}, code k = .choose P → P k' → (holds k' ↔ holds k) ∧ ∀ d, sees k d → sees k' d
  wakeup : ∀ {k ch k'}, code k = .wakeup ch k' → (holds k' ↔ holds k) ∧ ∀ d, sees k d → sees k' d
  sleep : ∀ {k ch k'}, code k = .sleep ch k' → holds k ∧ holds k' ∧ ∀ d, J d → sees k' d

/-- the same without a data invariant inside the critical sections: J holds while lk is free, and `sees k` is all that is
known at a point k that holds it -/
structure Sections (code : K → Instr σ K Ch) (guard : K → Bool → σ → Prop) (holds : K → Prop) (sees : K → σ → Prop)
    (J : σ → Prop) : Prop where
  acquire : ∀ {k k'}, code k = .acquire k' → ¬ holds k ∧ holds k' ∧ ∀ d, J d → sees k' d
  release : ∀ {k k'}, code k = .release k' → holds k ∧ ¬ holds k' ∧ ∀ d, sees k d → J d
  act : ∀ {k f}, code k = .act f → holds k ∧ ∀ b d, guard k b d → sees k d →
    holds (f b d).2 ∧ sees (f b d).2 (f b d).1
  choose : ∀ {k P k'}, code k = .choose P → P k' → (holds k' ↔ holds k) ∧ ∀ d, sees k d → sees k' d
  wakeup : ∀ {k ch k'}, code k = .wakeup ch k' → (holds k' ↔ holds k) ∧ ∀ d, sees k d → sees k' d
  sleep : ∀ {k ch k'}, code k = .sleep ch k' → holds k ∧ holds k' ∧ (∀ d, sees k d → J d) ∧ ∀ d, J d → sees k' d

section Locked

variable {code : K → Instr σ K Ch} {guard : K → Bool → σ → Prop} {holds : K → Prop} {sees : K → σ → Prop}
  {J : σ → Prop}

/-- what the position of a thread says about the locks and the data; `l` and `p` say that it holds lk and pt -/
def PosOk (code : K → Instr σ K Ch) (holds : K → Prop) (sees : K → σ → Prop) (d : σ) (l p : Prop) : Pos K Ch → Prop
  | .run k => (holds k ↔ l) ∧ ¬ p ∧ (holds k → sees k d)
  | .wake1 _ k => (holds k ↔ l) ∧ p ∧ (holds k → sees k d) ∧ ∃ k0 ch, code k0 = .wakeup ch k
  | .wake2 k => (holds k ↔ l) ∧ p ∧ (holds k → sees k d) ∧ ∃ k0 ch, code k0 = .wakeup ch k
  | .slp1 k0 ch k => l ∧ p ∧ code k0 = .sleep ch k ∧ sees k0 d
  | .slp2 ch k => ¬ l ∧ p ∧ ∃ k0, code k0 = .sleep ch k
  | .slp3 ch k => ¬ l ∧ p ∧ ∃ k0, code k0 = .sleep ch k
  | .asleep ch k => ¬ l ∧ ¬ p ∧ ∃ k0, code k0 = .sleep ch k
  | .ready k => ¬ l ∧ ¬ p ∧ ∃ k0 ch, code k0 = .sleep ch k
  | .back k => ¬ l ∧ p ∧ ∃ k0 ch, code k0 = .sleep ch k
  | .relock k => ¬ l ∧ ¬ p ∧ ∃ k0 ch, code k0 = .sleep ch k

variable {d : σ} {l p : Prop} {q : Pos K Ch} {s : Cfg σ K Ch}

omit [DecidableEq Ch] in
/-- a thread's position stays right when the data changes under somebody else's lock -/
theorem PosOk.frame {d' : σ} {l' p' : Prop} (h : PosOk code holds sees d l p q) (hl : l' ↔ l)
    (hp : p' ↔ p) (hd : l → d' = d) : PosOk code holds sees d' l' p' q := by
  cases q with
  | run k =>
    obtain ⟨h1, h2, h3⟩ := h
    exact ⟨h1.trans hl.symm, fun hp' => h2 (hp.1 hp'), fun hk => by rw [hd (h1.1 hk)]; exact h3 hk⟩
  | wake1 ch k | wake2 k =>
    obtain ⟨h1, h2, h3, h4⟩ := h
    exact ⟨h1.trans hl.symm, hp.2 h2, fun hk => by rw [hd (h1.1 hk)]; exact h3 hk, h4⟩
  | slp1 k0 ch k =>
    obtain ⟨h1, h2, h3, h4⟩ := h
    exact ⟨hl.2 h1, hp.2 h2, h3, by rw [hd h1]; exact h4⟩
  | slp2 ch k | slp3 ch k | back k => exact ⟨fun hl' => h.1 (hl.1 hl'), hp.2 h.2.1, h.2.2⟩
  | asleep ch k | ready k | relock k => exact ⟨fun hl' => h.1 (hl.1 hl'), fun hp' => h.2.1 (hp.1 hp'), h.2.2⟩

omit [DecidableEq Ch] in
theorem PosOk.roused (h : PosOk code holds sees d l p q) : PosOk code holds sees d l p q.roused := by
  cases q with
  | asleep ch k =>
    obtain ⟨h1, h2, k0, hk⟩ := h
    exact ⟨h1, h2, k0, ch, hk⟩
  | _ => exact h

theorem PosOk.woken (h : PosOk code holds sees d l p q) (ch : Ch) : PosOk code holds sees d l p (q.woken ch) := by
  cases q with
  | asleep ch' k =>
    by_cases e : ch' = ch
    · rw [Pos.woken, if_pos e]
      exact h.roused
    · rw [Pos.woken, if_neg e]
      exact h
  | _ => exact h

omit [DecidableEq Ch] in
theorem PosOk.mono {sees' : K → σ → Prop} (h : PosOk code holds sees d l p q)
    (hs : ∀ k, sees k d → sees' k d) : PosOk code holds sees' d l p q := by
  cases q with
  | run k => exact ⟨h.1, h.2.1, fun hk => hs k (h.2.2 hk)⟩
  | wake1 ch k | wake2 k => exact ⟨h.1, h.2.1, fun hk => hs k (h.2.2.1 hk), h.2.2.2⟩
  | slp1 k0 ch k => exact ⟨h.1, h.2.1, h.2.2.1, hs k0 h.2.2.2⟩
  | _ => exact h

omit [DecidableEq Ch] in
theorem PosOk.sees_of_locked (h : PosOk code holds sees d l p q) (hl : l) : ∃ k, sees k d := by
  cases q with
  | run k => exact ⟨k, h.2.2 (h.1.2 hl)⟩
  | wake1 ch k | wake2 k => exact ⟨k, h.2.2.1 (h.1.2 hl)⟩
  | slp1 k0 ch k => exact ⟨k0, h.2.2.2⟩
  | _ => exact absurd hl h.1

/-- the data invariant while lk is free, and every position fits the locks -/
structure SectInv (code : K → Instr σ K Ch) (holds : K → Prop) (sees : K → σ → Prop) (J : σ → Prop)
    (s : Cfg σ K Ch) : Prop where
  free : s.lk = none → J s.d
  pos : ∀ t, PosOk code holds sees s.d (s.lk = some t) (s.pt = some t) (s.pos t)

/-- the data invariant, and every position fits the locks -/
structure LockInv (code : K → Instr σ K Ch) (holds : K → Prop) (sees : K → σ → Prop) (J : σ → Prop)
    (s : Cfg σ K Ch) : Prop where
  data : J s.d
  pos : ∀ t, PosOk code holds sees s.d (s.lk = some t) (s.pt = some t) (s.pos t)

omit [DecidableEq Ch] in
theorem SectInv.update {s' : Cfg σ K Ch} (h : SectInv code holds sees J s) (t : ℕ) (q : Pos K Ch)
    (hpos : s'.pos = Function.update s.pos t q) (hlk : ∀ u, u ≠ t → (s'.lk = some u ↔ s.lk = some u))
    (hpt : ∀ u, u ≠ t → (s'.pt = some u ↔ s.pt = some u)) (hd : s'.d = s.d ∨ s.lk = some t) (hJ : s'.lk = none → J s'.d)
    (hq : PosOk code holds sees s'.d (s'.lk = some t) (s'.pt = some t) q) : SectInv code holds sees J s' := by
  refine ⟨hJ, fun u => ?_⟩
  rw [hpos]
  by_cases hu : u = t
  · subst hu
    rw [Function.update_self]
    exact hq
  · rw [Function.update_of_ne hu]
    refine (h.pos u).frame (hlk u hu) (hpt u hu) fun hl => ?_
    rcases hd with hd | hd
    · exact hd
    · exact absurd (Option.some.inj (hl.symm.trans hd)) hu

theorem step_sections (hS : Sections code guard holds sees J) {s' : Cfg σ K Ch} (h : SectInv code holds sees J s)
    (hs : Step code guard s s') : SectInv code holds sees J s' := by
  -- taking a free lock, or giving one up, does not concern the other threads
  have take : ∀ {o : Option ℕ} {t : ℕ}, o = none → ∀ u, u ≠ t → (some t = some u ↔ o = some u) := by
    intro o t ho u hu
    subst ho
    exact ⟨fun e => absurd (Option.some.inj e).symm hu, nofun⟩
  have give : ∀ {o : Option ℕ} {t : ℕ}, o = some t → ∀ u, u ≠ t → ((none : Option ℕ) = some u ↔ o = some u) := by
    intro o t ho u hu
    subst ho
    exact ⟨nofun, fun e => absurd (Option.some.inj e).symm hu⟩
  have same : ∀ {o : Option ℕ} {t : ℕ}, ∀ u, u ≠ t → (o = some u ↔ o = some u) := fun _ _ => Iff.rfl
  cases hs with
  | @acquire t k k' hp hc hf =>
    obtain ⟨-, hk', hsees⟩ := hS.acquire hc
    have ht := h.pos t
    rw [hp] at ht
    exact h.update t _ rfl (take hf) same (.inl rfl) nofun
      ⟨⟨fun _ => rfl, fun _ => hk'⟩, ht.2.1, fun _ => hsees _ (h.free hf)⟩
  | @release t k k' hp hc =>
    obtain ⟨hk, hk', hJ⟩ := hS.release hc
    have ht := h.pos t
    rw [hp] at ht
    exact h.update t _ rfl (give (ht.1.1 hk)) same (.inl rfl) (fun _ => hJ _ (ht.2.2 hk))
      ⟨⟨fun e => absurd e hk', nofun⟩, ht.2.1, fun e => absurd e hk'⟩
  | @act t k f hp hc hg =>
    obtain ⟨hk, hact⟩ := hS.act hc
    have ht := h.pos t
    rw [hp] at ht
    obtain ⟨hk', hsees⟩ := hact _ _ hg (ht.2.2 hk)
    have hlk := ht.1.1 hk
    have hheld : s.lk = none → J (f (s.killed t) s.d).1 := by rw [hlk]; nofun
    exact h.update t _ rfl same same (.inr hlk) hheld
      ⟨⟨fun _ => hlk, fun _ => hk'⟩, ht.2.1, fun _ => hsees⟩
  | @choose t k P k' hp hc hk =>
    obtain ⟨hiff, hsees⟩ := hS.choose hc hk
    have ht := h.pos t
    rw [hp] at ht
    exact h.update t _ rfl same same (.inl rfl) h.free
      ⟨hiff.trans ht.1, ht.2.1, fun e => hsees _ (ht.2.2 (hiff.1 e))⟩
  | @wakeup t k ch k' hp hc hf =>
    obtain ⟨hiff, hsees⟩ := hS.wakeup hc
    have ht := h.pos t
    rw [hp] at ht
    exact h.update t _ rfl same (take hf) (.inl rfl) h.free
      ⟨hiff.trans ht.1, rfl, fun e => hsees _ (ht.2.2 (hiff.1 e)), k, ch, hc⟩
  | @scan t ch k hp =>
    have ht := h.pos t
    rw [hp] at ht
    have hw : SectInv code holds sees J { s with pos := fun u => (s.pos u).woken ch } :=
      ⟨h.free, fun u => (h.pos u).woken ch⟩
    exact hw.update t _ rfl same same (.inl rfl) h.free ht
  | @scanned t k hp =>
    have ht := h.pos t
    rw [hp] at ht
    exact h.update t _ rfl same (give ht.2.1) (.inl rfl) h.free
      ⟨ht.1, nofun, ht.2.2.1⟩
  | @sleep t k ch k' hp hc hf =>
    obtain ⟨hk, -⟩ := hS.sleep hc
    have ht := h.pos t
    rw [hp] at ht
    exact h.update t _ rfl same (take hf) (.inl rfl) h.free
      ⟨ht.1.1 hk, rfl, hc, ht.2.2 hk⟩
  | @unlock t k0 ch k hp =>
    have ht := h.pos t
    rw [hp] at ht
    obtain ⟨-, -, hJ, -⟩ := hS.sleep ht.2.2.1
    exact h.update t _ rfl (give ht.1) same (.inl rfl) (fun _ => hJ _ ht.2.2.2)
      ⟨nofun, ht.2.1, k0, ht.2.2.1⟩
  | @mark t ch k hp =>
    have ht := h.pos t
    rw [hp] at ht
    exact h.update t _ rfl same same (.inl rfl) h.free ht
  | @switch t ch k hp | @tidy t k hp =>
    have ht := h.pos t
    rw [hp] at ht
    exact h.update t _ rfl same (give ht.2.1) (.inl rfl) h.free
      ⟨ht.1, nofun, ht.2.2⟩
  | @dispatch t k hp hf =>
    have ht := h.pos t
    rw [hp] at ht
    exact h.update t _ rfl same (take hf) (.inl rfl) h.free ⟨ht.1, rfl, ht.2.2⟩
  | @relock t k hp hf =>
    have ht := h.pos t
    rw [hp] at ht
    obtain ⟨k0, ch, hc⟩ := ht.2.2
    obtain ⟨-, hk, -, hsees⟩ := hS.sleep hc
    exact h.update t _ rfl (take hf) same (.inl rfl) nofun
      ⟨⟨fun _ => rfl, fun _ => hk⟩, ht.2.1, fun _ => hsees _ (h.free hf)⟩
  | kill t hf =>
    exact h.update t _ rfl same same (.inl rfl) h.free (h.pos t).roused

/-- **Mutual exclusion and assertions** in every reachable state, J while lk is free -/
theorem reach_sections (hS : Sections code guard holds sees J) {init : Cfg σ K Ch → Prop} {start : K → Prop}
    (hinit : ∀ s, init s → Initial start s ∧ J s.d) (hstart : ∀ k, start k → ¬ holds k)
    (h : Reach code guard init s) : SectInv code holds sees J s := by
  induction h with
  | @init s h =>
    obtain ⟨h0, hJ⟩ := hinit _ h
    refine ⟨fun _ => hJ, fun t => ?_⟩
    obtain ⟨k, hk, hp⟩ := h0.pos t
    rw [hp, h0.lk, h0.pt]
    exact ⟨⟨fun e => absurd e (hstart k hk), nofun⟩, nofun,
      fun e => absurd e (hstart k hk)⟩
  | step _ hs ih => exact step_sections hS ih hs

omit [DecidableEq Ch] in
/-- an invariant that holds throughout is one more assertion of the points that hold lk -/
theorem Locked.sections (hL : Locked code guard holds sees J) :
    Sections code guard holds (fun k d => J d ∧ sees k d) J where
  acquire hc := by
    obtain ⟨h1, h2, h3⟩ := hL.acquire hc
    exact ⟨h1, h2, fun d hJ => ⟨hJ, h3 d hJ⟩⟩
  release hc := by
    obtain ⟨h1, h2⟩ := hL.release hc
    exact ⟨h1, h2, fun _ h => h.1⟩
  act hc := by
    obtain ⟨h1, h2⟩ := hL.act hc
    exact ⟨h1, fun b d hg h => h2 b d hg h.1 h.2⟩
  choose hc hk := by
    obtain ⟨h1, h2⟩ := hL.choose hc hk
    exact ⟨h1, fun d h => ⟨h.1, h2 d h.2⟩⟩
  wakeup hc := by
    obtain ⟨h1, h2⟩ := hL.wakeup hc
    exact ⟨h1, fun d h => ⟨h.1, h2 d h.2⟩⟩
  sleep hc := by
    obtain ⟨h1, h2, h3⟩ := hL.sleep hc
    exact ⟨h1, h2, fun _ h => h.1, fun d hJ => ⟨hJ, h3 d hJ⟩⟩

/-- **Mutual exclusion and assertions** in every reachable state, with an invariant that holds throughout -/
theorem reach_locked (hL : Locked code guard holds sees J) {init : Cfg σ K Ch → Prop} {start : K → Prop}
    (hinit : ∀ s, init s → Initial start s ∧ J s.d) (hstart : ∀ k, start k → ¬ holds k)
    (h : Reach code guard init s) : LockInv code holds sees J s := by
  have hinv := reach_sections hL.sections hinit hstart h
  refine ⟨?_, fun t => (hinv.pos t).mono fun _ hs => hs.2⟩
  cases hlk : s.lk with
  | none => exact hinv.free hlk
  | some t =>
    obtain ⟨k, hk⟩ := (hinv.pos t).sees_of_locked hlk
    exact hk.1

end Locked

/-! ## No wakeup is lost -/

/-- committed to sleep on ch with lk given up: marked as sleeping, or about to be -/
def Pos.WaitsOn (ch : Ch) : Pos K Ch → Prop
  | .slp2 ch' _ => ch' = ch
  | .slp3 ch' _ => ch' = ch
  | .asleep ch' _ => ch' = ch
  | _ => False

/-- marked as sleeping on ch -/
def Pos.SleepsOn (ch : Ch) : Pos K Ch → Prop
  | .slp3 ch' _ => ch' = ch
  | .asleep ch' _ => ch' = ch
  | _ => False

omit [DecidableEq Ch] in
theorem Pos.SleepsOn.waitsOn {ch : Ch} {q : Pos K Ch} (h : q.SleepsOn ch) : q.WaitsOn ch := by
  cases q with
  | slp3 | asleep => exact h
  | _ => exact h.elim

/-- a wakeup on ch that the thread has still to make: its scan, or one its next code point owes -/
def Pos.Owes (owes : K → Ch → Prop) (ch : Ch) : Pos K Ch → Prop
  | .run k => owes k ch
  | .wake1 ch' k => ch' = ch ∨ owes k ch
  | .wake2 k => owes k ch
  | _ => False

/-- the wakeup discipline: a channel that was blocked, or owed a wakeup by the thread, stays so over every instruction
but the wakeup itself; sleep is only called on a blocked channel, with no wakeup owed -/
structure Wakes (code : K → Instr σ K Ch) (guard : K → Bool → σ → Prop) (sees : K → σ → Prop) (J : σ → Prop)
    (blocked : Ch → σ → Prop) (owes : K → Ch → Prop) : Prop where
  acquire : ∀ {k k' ch}, code k = .acquire k' → owes k ch → owes k' ch
  release : ∀ {k k' ch}, code k = .release k' → owes k ch → owes k' ch
  act : ∀ {k f}, code k = .act f → ∀ b d ch, guard k b d → J d → sees k d → blocked ch d ∨ owes k ch →
    blocked ch (f b d).1 ∨ owes (f b d).2 ch
  choose : ∀ {k P k' ch}, code k = .choose P → P k' → owes k ch → owes k' ch
  wakeup : ∀ {k ch' k' ch}, code k = .wakeup ch' k' → owes k ch → ch' = ch ∨ owes k' ch
  sleep : ∀ {k ch k'}, code k = .sleep ch k' → (∀ ch', ¬ owes k ch') ∧ (∀ ch', ¬ owes k' ch') ∧
    ∀ d, sees k d → blocked ch d

section Wakes

variable {code : K → Instr σ K Ch} {guard : K → Bool → σ → Prop} {holds : K → Prop} {sees : K → σ → Prop}
  {J : σ → Prop} {blocked : Ch → σ → Prop} {owes : K → Ch → Prop}

/-- whoever is committed to sleep on a channel, the channel is blocked or a wakeup on it is owed -/
def Awake (blocked : Ch → σ → Prop) (owes : K → Ch → Prop) (s : Cfg σ K Ch) : Prop :=
  ∀ u ch, (s.pos u).WaitsOn ch → blocked ch s.d ∨ ∃ v, (s.pos v).Owes owes ch

variable {s : Cfg σ K Ch}

omit [DecidableEq Ch] in
theorem Awake.update {s' : Cfg σ K Ch} (h : Awake blocked owes s) {t : ℕ} {p q : Pos K Ch} (hp : s.pos t = p)
    (hpos : s'.pos = Function.update s.pos t q) (hwait : ∀ ch, q.WaitsOn ch → p.WaitsOn ch ∨ blocked ch s'.d)
    (hkeep : ∀ ch, blocked ch s.d ∨ p.Owes owes ch → blocked ch s'.d ∨ q.Owes owes ch) : Awake blocked owes s' := by
  subst hp
  have self : s'.pos t = q := by rw [hpos, Function.update_self]
  have other : ∀ v, v ≠ t → s'.pos v = s.pos v := fun v hv => by rw [hpos, Function.update_of_ne hv]
  intro u ch hu
  have hu' : (s.pos u).WaitsOn ch ∨ blocked ch s'.d := by
    by_cases e : u = t
    · subst e
      rw [self] at hu
      exact hwait ch hu
    · rw [other u e] at hu
      exact .inl hu
  rcases hu' with hu' | hb
  · have hmine : blocked ch s'.d ∨ q.Owes owes ch → blocked ch s'.d ∨ ∃ v, (s'.pos v).Owes owes ch := by
      rintro (hb | ho)
      · exact .inl hb
      · exact .inr ⟨t, by rw [self]; exact ho⟩
    rcases h u ch hu' with hb | ⟨v, hv⟩
    · exact hmine (hkeep ch (.inl hb))
    · by_cases e : v = t
      · subst e
        exact hmine (hkeep ch (.inr hv))
      · exact .inr ⟨v, by rw [other v e]; exact hv⟩
  · exact .inl hb

section

variable (hS : Sections code guard holds sees J) (hW : Wakes code guard sees (fun _ => True) blocked owes)
include hS hW

theorem step_awake {s' : Cfg σ K Ch} (hi : SectInv code holds sees J s) (h : Awake blocked owes s) (hs : Step code guard s s') :
    Awake blocked owes s' := by
  cases hs with
  | @acquire t k k' hp hc hf =>
    exact h.update hp rfl (fun _ => False.elim) fun ch e => e.imp_right (hW.acquire hc)
  | @release t k k' hp hc =>
    exact h.update hp rfl (fun _ => False.elim) fun ch e => e.imp_right (hW.release hc)
  | @act t k f hp hc hg =>
    have ht := hi.pos t
    rw [hp] at ht
    exact h.update hp rfl (fun _ => False.elim) fun ch => hW.act hc _ _ ch hg trivial (ht.2.2 (hS.act hc).1)
  | @choose t k P k' hp hc hk =>
    exact h.update hp rfl (fun _ => False.elim) fun ch e => e.imp_right (hW.choose hc hk)
  | @wakeup t k ch' k' hp hc hf =>
    exact h.update hp rfl (fun _ => False.elim) fun ch e => e.imp_right (hW.wakeup hc)
  | @scan t ch0 k hp =>
    -- the scanner holds pt, so nobody is on the way into sleep: after the scan nobody waits on the scanned channel
    have ht := hi.pos t
    rw [hp] at ht
    have hpt : ∀ u, s.pt = some u → u = t := fun u hu => Option.some.inj (hu.symm.trans ht.2.1)
    have hwait : ∀ u ch, u ≠ t → ((s.pos u).woken ch0).WaitsOn ch → ch ≠ ch0 ∧ (s.pos u).WaitsOn ch := by
      intro u ch hu hw
      have hok := hi.pos u
      cases hq : s.pos u with
      | slp2 ch' k' | slp3 ch' k' => rw [hq] at hok; exact absurd (hpt u hok.2.1) hu
      | asleep ch' k' =>
        by_cases he : ch' = ch0
        · rw [hq, Pos.woken, if_pos he] at hw
          exact hw.elim
        · rw [hq, Pos.woken, if_neg he] at hw
          refine ⟨?_, hw⟩
          rintro rfl
          exact he hw
      | _ => rw [hq] at hw; exact hw.elim
    intro u ch hu
    by_cases hut : u = t
    · subst hut
      simp only [update_self] at hu
      exact hu.elim
    · simp only [update_of_ne hut] at hu
      obtain ⟨hne, hu'⟩ := hwait u ch hut hu
      refine (h u ch hu').imp_right ?_
      rintro ⟨v, hv⟩
      refine ⟨v, ?_⟩
      by_cases hvt : v = t
      · subst hvt
        rw [hp] at hv
        simp only [update_self]
        exact hv.resolve_left fun e => hne e.symm
      · simp only [update_of_ne hvt]
        cases hq : s.pos v with
        | asleep => rw [hq] at hv; exact hv.elim
        | _ => rw [hq] at hv; exact hv
  | @scanned t k hp | @dispatch t k hp hf | @tidy t k hp =>
    exact h.update hp rfl (fun _ => False.elim) fun _ => id
  | @sleep t k ch' k' hp hc hf =>
    exact h.update hp rfl (fun _ => False.elim) fun ch e => e.imp_right fun ho => absurd ho ((hW.sleep hc).1 ch)
  | @unlock t k0 ch0 k hp =>
    have ht := hi.pos t
    rw [hp] at ht
    refine h.update hp rfl (fun ch e => ?_) fun _ => id
    cases e
    exact .inr ((hW.sleep ht.2.2.1).2.2 _ ht.2.2.2)
  | @mark t ch0 k hp | @switch t ch0 k hp =>
    exact h.update hp rfl (fun _ => .inl) fun _ => id
  | @relock t k hp hf =>
    exact h.update hp rfl (fun _ => False.elim) fun ch e => e.imp_right False.elim
  | kill t hf =>
    refine h.update (t := t) rfl rfl (fun ch e => ?_) fun ch e => ?_
    · cases hq : s.pos t with
      | asleep => rw [hq] at e; exact e.elim
      | _ => rw [hq] at e; exact .inl e
    · cases hq : s.pos t with
      | asleep => rw [hq] at e; exact e
      | _ => rw [hq] at e; exact e

/-- **No lost wakeup.** In every reachable state, a thread committed to sleep on a channel finds the channel blocked,
or some thread has still to make a wakeup on it. -/
theorem reach_awake {init : Cfg σ K Ch → Prop} {start : K → Prop} (hinit : ∀ s, init s → Initial start s ∧ J s.d)
    (hstart : ∀ k, start k → ¬ holds k) (h : Reach code guard init s) : Awake blocked owes s := by
  induction h with
  | @init s h =>
    intro u ch hu
    obtain ⟨k, -, hp⟩ := (hinit _ h).1.pos u
    rw [hp] at hu
    exact hu.elim
  | step h hs ih => exact step_awake hS hW (reach_sections hS hinit hstart h) ih hs

/-- with lk free and every wakeup owed and made under lk, whoever is marked as sleeping sleeps on a blocked channel -/
theorem reach_blocked (howes : ∀ k ch, owes k ch → holds k) (hwakeup : ∀ k ch k', code k = .wakeup ch k' → holds k')
    {init : Cfg σ K Ch → Prop} {start : K → Prop} (hinit : ∀ s, init s → Initial start s ∧ J s.d)
    (hstart : ∀ k, start k → ¬ holds k) (h : Reach code guard init s) (hlk : s.lk = none) {t : ℕ} {ch : Ch}
    (ht : (s.pos t).SleepsOn ch) : blocked ch s.d := by
  have hinv := reach_sections hS hinit hstart h
  rcases reach_awake hS hW hinit hstart h t ch ht.waitsOn with hb | ⟨v, hv⟩
  · exact hb
  · have hv' := hinv.pos v
    rw [hlk] at hv'
    cases hq : s.pos v with
    | run k | wake2 k =>
      rw [hq] at hv hv'
      exact nomatch hv'.1.1 (howes k ch hv)
    | wake1 ch' k =>
      rw [hq] at hv'
      obtain ⟨k0, ch0, hc⟩ := hv'.2.2.2
      exact nomatch hv'.1.1 (hwakeup k0 ch0 k hc)
    | _ =>
      rw [hq] at hv
      exact hv.elim

end

omit [DecidableEq Ch] in
/-- an invariant that holds throughout is one more assertion here, too -/
theorem Wakes.sections (hW : Wakes code guard sees J blocked owes) :
    Wakes code guard (fun k d => J d ∧ sees k d) (fun _ => True) blocked owes where
  acquire := hW.acquire
  release := hW.release
  act hc b d ch hg _ h := hW.act hc b d ch hg h.1 h.2
  choose := hW.choose
  wakeup := hW.wakeup
  sleep hc := by
    obtain ⟨h1, h2, h3⟩ := hW.sleep hc
    exact ⟨h1, h2, fun d h => h3 d h.2⟩

end Wakes

/-! ## Ownership -/

/-- the code point at which a thread is, or at which it goes on after its call -/
def Pos.point : Pos K Ch → K
  | .run k => k
  | .wake1 _ k => k
  | .wake2 k => k
  | .slp1 _ _ k => k
  | .slp2 _ k => k
  | .slp3 _ k => k
  | .asleep _ k => k
  | .ready k => k
  | .back k => k
  | .relock k => k

omit [DecidableEq Ch] in
@[simp] theorem Pos.point_roused (q : Pos K Ch) : q.roused.point = q.point := by
  cases q <;> rfl

@[simp] theorem Pos.point_woken (ch : Ch) (q : Pos K Ch) : (q.woken ch).point = q.point := by
  cases q with
  | asleep ch' k =>
    rw [Pos.woken]
    split_ifs <;> rfl
  | _ => rfl

/-- the data names the owners of resources, by the identity that a thread's code points carry: only an access to the data
changes who owns, and it makes nobody but the thread itself owner, and takes a resource from nobody else -/
structure Owned {ι R : Type} (code : K → Instr σ K Ch) (guard : K → Bool → σ → Prop) (sees : K → σ → Prop)
    (who : K → ι) (owns : K → R → Prop) (owner : σ → R → Option ι) : Prop where
  acquire : ∀ {k k'}, code k = .acquire k' → who k' = who k ∧ ∀ r, owns k' r ↔ owns k r
  release : ∀ {k k'}, code k = .release k' → who k' = who k ∧ ∀ r, owns k' r ↔ owns k r
  act : ∀ {k f}, code k = .act f → ∀ b d, guard k b d → sees k d → (∀ r, owns k r ↔ owner d r = some (who k)) →
    who (f b d).2 = who k ∧ (∀ r, owns (f b d).2 r ↔ owner (f b d).1 r = some (who k)) ∧
      ∀ r i, i ≠ who k → (owner (f b d).1 r = some i ↔ owner d r = some i)
  choose : ∀ {k P k'}, code k = .choose P → P k' → who k' = who k ∧ ∀ r, owns k' r ↔ owns k r
  wakeup : ∀ {k ch k'}, code k = .wakeup ch k' → who k' = who k ∧ ∀ r, owns k' r ↔ owns k r
  sleep : ∀ {k ch k'}, code k = .sleep ch k' → who k' = who k ∧ ∀ r, owns k' r ↔ owns k r

section Owned

variable {ι R : Type} {code : K → Instr σ K Ch} {guard : K → Bool → σ → Prop} {holds : K → Prop} {sees : K → σ → Prop}
  {J : σ → Prop} {who : K → ι} {owns : K → R → Prop} {owner : σ → R → Option ι} {me : ℕ → ι}

/-- thread t is `me t`, it is in the section that owns r if and only if the data names it, and no stranger is named -/
structure OwnInv (who : K → ι) (owns : K → R → Prop) (owner : σ → R → Option ι) (me : ℕ → ι) (s : Cfg σ K Ch) :
    Prop where
  who_eq : ∀ t, who (s.pos t).point = me t
  owns_iff : ∀ t r, owns (s.pos t).point r ↔ owner s.d r = some (me t)
  known : ∀ r i, owner s.d r = some i → ∃ t, me t = i

variable {s : Cfg σ K Ch}

omit [DecidableEq Ch] in
/-- a step that leaves the data alone keeps it, if the thread keeps its identity and its ownership -/
theorem OwnInv.move {s' : Cfg σ K Ch} (h : OwnInv who owns owner me s) {t : ℕ} {p q : Pos K Ch} (hp : s.pos t = p)
    (hd : s'.d = s.d) (hpos : ∀ u, (s'.pos u).point = update (fun v => (s.pos v).point) t q.point u)
    (hsame : who q.point = who p.point ∧ ∀ r, owns q.point r ↔ owns p.point r) : OwnInv who owns owner me s' := by
  subst hp
  have point : ∀ u, who (s'.pos u).point = who (s.pos u).point ∧
      ∀ r, owns (s'.pos u).point r ↔ owns (s.pos u).point r := by
    intro u
    rw [hpos]
    by_cases hu : u = t
    · subst hu
      rw [update_self]
      exact hsame
    · rw [update_of_ne hu]
      exact ⟨rfl, fun _ => Iff.rfl⟩
  refine ⟨fun u => (point u).1.trans (h.who_eq u), fun u r => ?_, ?_⟩
  · rw [hd]
    exact ((point u).2 r).trans (h.owns_iff u r)
  · rw [hd]
    exact h.known

omit [DecidableEq Ch] in
theorem point_update (s : Cfg σ K Ch) (t : ℕ) (q : Pos K Ch) (u : ℕ) :
    (update s.pos t q u).point = update (fun v => (s.pos v).point) t q.point u :=
  apply_update (fun _ => Pos.point) s.pos t q u

section

variable (hme : Function.Injective me) (hS : Sections code guard holds sees J) (hO : Owned code guard sees who owns owner)
include hme hS hO

theorem step_owned {s' : Cfg σ K Ch} (hi : SectInv code holds sees J s)
    (h : OwnInv who owns owner me s) (hs : Step code guard s s') : OwnInv who owns owner me s' := by
  cases hs with
  | @acquire t k k' hp hc hf =>
    exact h.move hp rfl (point_update s t _) (hO.acquire hc)
  | @release t k k' hp hc =>
    exact h.move hp rfl (point_update s t _) (hO.release hc)
  | @act t k f hp hc hg =>
    have ht := hi.pos t
    have hwho := h.who_eq t
    have howns := h.owns_iff t
    rw [hp] at ht hwho howns
    change who k = me t at hwho
    rw [← hwho] at howns
    obtain ⟨hw, ho, hother⟩ := hO.act hc _ _ hg (ht.2.2 (hS.act hc).1) howns
    have hne : ∀ u, u ≠ t → me u ≠ who k := fun u hu e => hu (hme (e.trans hwho))
    refine ⟨fun u => ?_, fun u r => ?_, fun r i hi' => ?_⟩
    · by_cases hu : u = t
      · subst hu
        simp only [update_self]
        exact hw.trans hwho
      · simp only [update_of_ne hu]
        exact h.who_eq u
    · by_cases hu : u = t
      · subst hu
        simp only [update_self]
        rw [← hwho]
        exact ho r
      · simp only [update_of_ne hu]
        exact (h.owns_iff u r).trans (hother r _ (hne u hu)).symm
    · by_cases e : i = who k
      · exact ⟨t, hwho.symm.trans e.symm⟩
      · exact h.known r i ((hother r i e).1 hi')
  | @choose t k P k' hp hc hk =>
    exact h.move hp rfl (point_update s t _) (hO.choose hc hk)
  | @wakeup t k ch k' hp hc hf =>
    exact h.move hp rfl (point_update s t _) (hO.wakeup hc)
  | @scan t ch k hp =>
    refine h.move (q := .wake2 k) hp rfl (fun u => ?_) ⟨rfl, fun _ => Iff.rfl⟩
    rw [apply_update (fun _ => Pos.point) (fun v => (s.pos v).woken ch)]
    simp only [Pos.point_woken]
  | @scanned t k hp | @unlock t k0 ch k hp | @mark t ch k hp | @switch t ch k hp | @dispatch t k hp hf | @tidy t k hp
  | @relock t k hp hf => exact h.move hp rfl (point_update s t _) ⟨rfl, fun _ => Iff.rfl⟩
  | @sleep t k ch k' hp hc hf =>
    exact h.move hp rfl (point_update s t _) (hO.sleep hc)
  | kill t hf =>
    refine h.move (t := t) rfl rfl (point_update s t _) ?_
    rw [Pos.point_roused]
    exact ⟨rfl, fun _ => Iff.rfl⟩

/-- **Ownership.** In every reachable state a thread is in its owned section if and only if the data names it. -/
theorem reach_owned {init : Cfg σ K Ch → Prop} {start : K → Prop} (hinit : ∀ s, init s → Initial start s ∧ J s.d)
    (hstart : ∀ k, start k → ¬ holds k) (hown : ∀ s, init s → OwnInv who owns owner me s) (h : Reach code guard init s) :
    OwnInv who owns owner me s := by
  induction h with
  | init h => exact hown _ h
  | step h hs ih => exact step_owned hme hS hO (reach_sections hS hinit hstart h) ih hs

end

end Owned

/-! ## What a call has put on record -/

/-- the points at which a thread goes on from a point without an access to the data -/
def Instr.Next : Instr σ K Ch → K → Prop
  | .acquire k, k' => k' = k
  | .release k, k' => k' = k
  | .wakeup _ k, k' => k' = k
  | .sleep _ k, k' => k' = k
  | .choose P, k' => P k'
  | .act _, _ => False

/-- the runs, with what the accesses of each thread have appended to a record in the data since it came to the beginning of its
last call -/
inductive Recording {β : Type} (code : K → Instr σ K Ch) (guard : K → Bool → σ → Prop) (init : Cfg σ K Ch → Prop)
    (log : σ → List β) (begins : K → Bool) : Cfg σ K Ch → (ℕ → List β) → Prop where
  | init {s} (h : init s) : Recording code guard init log begins s fun _ => []
  | act {s own t k f x} (h : Recording code guard init log begins s own) (hp : s.pos t = .run k) (hc : code k = .act f)
      (hg : guard k (s.killed t) s.d) (hx : log (f (s.killed t) s.d).1 = log s.d ++ x) :
      Recording code guard init log begins { s with
        d := (f (s.killed t) s.d).1, pos := update s.pos t (.run (f (s.killed t) s.d).2) } (update own t (own t ++ x))
  | move {s s' own} (h : Recording code guard init log begins s own) (hs : Step code guard s s') (hd : s'.d = s.d) :
      Recording code guard init log begins s' fun t => if begins (s'.pos t).point then [] else own t

section Recording

variable {β : Type} {code : K → Instr σ K Ch} {guard : K → Bool → σ → Prop} {holds : K → Prop} {sees : K → σ → Prop}
  {J : σ → Prop} {init : Cfg σ K Ch → Prop} {log : σ → List β} {begins : K → Bool} {P : K → List β → Prop}
  {s : Cfg σ K Ch} {own : ℕ → List β}

theorem Recording.reach (h : Recording code guard init log begins s own) : Reach code guard init s := by
  induction h with
  | init h => exact .init h
  | act _ hp hc hg _ ih => exact ih.step (.act hp hc hg)
  | move _ hs _ ih => exact ih.step hs

theorem reach_recording (hlog : ∀ {k f}, code k = .act f → ∀ b d, ∃ x, log (f b d).1 = log d ++ x)
    (h : Reach code guard init s) : ∃ own, Recording code guard init log begins s own := by
  induction h with
  | init h => exact ⟨_, .init h⟩
  | @step s s' h hs ih =>
    obtain ⟨own, hown⟩ := ih
    cases hs with
    | @act t k f hp hc hg =>
      obtain ⟨x, hx⟩ := hlog hc (s.killed t) s.d
      exact ⟨_, .act hown hp hc hg hx⟩
    | acquire hp hc hf => exact ⟨_, .move hown (.acquire hp hc hf) rfl⟩
    | release hp hc => exact ⟨_, .move hown (.release hp hc) rfl⟩
    | choose hp hc hk => exact ⟨_, .move hown (.choose hp hc hk) rfl⟩
    | wakeup hp hc hf => exact ⟨_, .move hown (.wakeup hp hc hf) rfl⟩
    | scan hp => exact ⟨_, .move hown (.scan hp) rfl⟩
    | scanned hp => exact ⟨_, .move hown (.scanned hp) rfl⟩
    | sleep hp hc hf => exact ⟨_, .move hown (.sleep hp hc hf) rfl⟩
    | unlock hp => exact ⟨_, .move hown (.unlock hp) rfl⟩
    | mark hp => exact ⟨_, .move hown (.mark hp) rfl⟩
    | switch hp => exact ⟨_, .move hown (.switch hp) rfl⟩
    | dispatch hp hf => exact ⟨_, .move hown (.dispatch hp hf) rfl⟩
    | tidy hp => exact ⟨_, .move hown (.tidy hp) rfl⟩
    | relock hp hf => exact ⟨_, .move hown (.relock hp hf) rfl⟩
    | kill t hf => exact ⟨_, .move hown (.kill t hf) rfl⟩

theorem step_point {s' : Cfg σ K Ch} (hs : Step code guard s s') (u : ℕ) : (s'.pos u).point = (s.pos u).point ∨
    ∃ k, s.pos u = .run k ∧ ((code k).Next (s'.pos u).point ∨ ∃ f, code k = .act f ∧ guard k (s.killed u) s.d ∧
      s'.d = (f (s.killed u) s.d).1 ∧ (s'.pos u).point = (f (s.killed u) s.d).2) := by
  have hmove : ∀ {t : ℕ} {q : Pos K Ch}, (u ≠ t → (update s.pos t q u).point = (s.pos u).point) ∧
      (u = t → (update s.pos t q u).point = q.point) := fun {t q} =>
    ⟨fun hu => by rw [update_of_ne hu], fun hu => by rw [hu, update_self]⟩
  cases hs with
  | @acquire t k k' hp hc | @release t k k' hp hc | @choose t k _ k' hp hc | @wakeup t k ch k' hp hc | @sleep t k ch k' hp hc =>
    by_cases hu : u = t
    · refine .inr ⟨k, hu ▸ hp, .inl ?_⟩
      rw [hmove.2 hu, hc]
      first | assumption | rfl
    · exact .inl (hmove.1 hu)
  | @act t k f hp hc hg =>
    by_cases hu : u = t
    · subst hu
      exact .inr ⟨k, hp, .inr ⟨f, hc, hg, rfl, hmove.2 rfl⟩⟩
    · exact .inl (hmove.1 hu)
  | @scan t ch k hp =>
    left
    by_cases hu : u = t
    · subst hu
      dsimp only
      rw [update_self, hp]
      rfl
    · dsimp only
      rw [update_of_ne hu, Pos.point_woken]
  | @scanned t _ hp | @unlock t _ _ _ hp | @mark t _ _ hp | @switch t _ _ hp | @dispatch t _ hp | @tidy t _ hp | @relock t _ hp =>
    left
    by_cases hu : u = t
    · rw [hmove.2 hu, hu, hp]
      rfl
    · exact hmove.1 hu
  | kill t hf =>
    left
    by_cases hu : u = t
    · rw [hmove.2 hu, hu, Pos.point_roused]
    · exact hmove.1 hu

/-- `P k l` says of a call that stands at k that it has put l on record -/
structure Keeps (code : K → Instr σ K Ch) (guard : K → Bool → σ → Prop) (sees : K → σ → Prop) (J : σ → Prop)
    (log : σ → List β) (begins : K → Bool) (P : K → List β → Prop) : Prop where
  act : ∀ {k f}, code k = .act f → ∀ b d, guard k b d → J d → sees k d → begins (f b d).2 = false ∧
    ∀ l x, P k l → log (f b d).1 = log d ++ x → P (f b d).2 (l ++ x)
  next : ∀ {k k' l}, (code k).Next k' → P k l → P k' (if begins k' then [] else l)

/-- **Records.** Along every run each call has put on record what its code point says. -/
theorem recording_keeps (hL : Locked code guard holds sees J) (hK : Keeps code guard sees J log begins P) {start : K → Prop}
    (hinit : ∀ s, init s → Initial start s ∧ J s.d) (hstart : ∀ k, start k → ¬ holds k) (hP : ∀ k, start k → P k [])
    (h : Recording code guard init log begins s own) (t : ℕ) : P (s.pos t).point (own t) := by
  -- at the beginning of a call nothing is on record
  suffices hall : ∀ t, P (s.pos t).point (own t) ∧ (begins (s.pos t).point = true → own t = []) from (hall t).1
  have hknown : ∀ {s : Cfg σ K Ch}, Reach code guard init s → ∀ {t k f}, s.pos t = .run k → code k = .act f →
      J s.d ∧ sees k s.d := by
    intro s hr t k f hp hc
    have hinv := reach_locked hL hinit hstart hr
    have hpos := hinv.pos t
    rw [hp] at hpos
    exact ⟨hinv.data, hpos.2.2 (hL.act hc).1⟩
  induction h with
  | @init s h =>
    intro t
    obtain ⟨k, hk, hp⟩ := (hinit s h).1.pos t
    rw [hp]
    exact ⟨hP k hk, fun _ => rfl⟩
  | @act s own t k f x h hp hc hg hx ih =>
    intro u
    by_cases hu : u = t
    · subst hu
      obtain ⟨hJ, hs⟩ := hknown h.reach hp hc
      obtain ⟨hb, hPk⟩ := hK.act hc _ _ hg hJ hs
      have hu := (ih u).1
      rw [hp] at hu
      dsimp only
      rw [update_self, update_self]
      exact ⟨hPk _ _ hu hx, fun hb' => absurd (hb.symm.trans hb') Bool.false_ne_true⟩
    · dsimp only
      rw [update_of_ne hu, update_of_ne hu]
      exact ih u
  | @move s s' own h hs hd ih =>
    intro u
    have hbegin : begins (s'.pos u).point = true → (if begins (s'.pos u).point then [] else own u) = [] := fun hb => if_pos hb
    refine ⟨?_, hbegin⟩
    rcases step_point hs u with hsame | ⟨k, hp, hnext | ⟨f, hc, hg, hd', hpt⟩⟩
    · dsimp only
      rw [hsame]
      split_ifs with hb
      · rw [← (ih u).2 hb]
        exact (ih u).1
      · exact (ih u).1
    · have hu := (ih u).1
      rw [hp] at hu
      exact hK.next hnext hu
    · obtain ⟨hJ, hsees⟩ := hknown h.reach hp hc
      obtain ⟨hb, hPk⟩ := hK.act hc _ _ hg hJ hsees
      have hu := (ih u).1
      rw [hp] at hu
      dsimp only
      rw [hpt, hb, if_neg Bool.false_ne_true]
      have := hPk _ [] hu (by rw [← hd', hd, List.append_nil])
      rwa [List.append_nil] at this

end Recording

end Xv6.Lib.Monitor
