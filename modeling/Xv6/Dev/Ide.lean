/-
The disk driver (ide.c): `iderw` by any number of processes, `idestart` and the interrupt handler `ideintr`.

idequeue, the qnext pointers, the buffers and the controller are the data of a monitor with lock idelock and a channel
for each buffer; the steps of sleep, wakeup and kill are those of the monitor library. A process calls iderw on a buffer
b whose contents it has set as it likes, if no other call on b is in progress (it holds b->lock). The controller works
on the command that idestart gave it, and raises one interrupt when it is done: the handler runs only then, and this is
where the transfer between buffer and disk is placed. The device reports no errors.

Three lists record the history: the requests in the order in which they were appended to idequeue (`issued`), started
and completed, each with the buffer as it was, the completed ones also with the buffer as it became. `call` says which
process is in iderw on a buffer, and the number of its request.

memide.c's `iderw`, which copies at once between the buffer and an array in memory, is the specification.

Results:
- `ide_refines_memide`: while idelock is free, the issued requests are the completed ones followed by the queue, exactly
  the head of the queue has been started besides the completed ones and is what the controller works on; a process that
  leaves iderw has had its own request completed; nobody sleeps on a buffer that is valid and clean; and each completed
  request had the effect of memide's iderw on buffer and disk, in the order of completion.
-/
import Xv6.Param
import Xv6.Lib.Monitor

namespace Xv6.Driver

open Lib.Monitor List

variable {B : Type} [DecidableEq B]

/-! ## Model -/

/-- struct buf: flags, dev, blockno and data -/
structure Buf where
  valid : Bool
  dirty : Bool
  dev : ℕ
  blockno : ℕ
  data : Block

/-- (b->flags & (B_VALID|B_DIRTY)) == B_VALID -/
def Buf.Clean (c : Buf) : Prop := c.valid = true ∧ c.dirty = false

instance (c : Buf) : Decidable c.Clean := inferInstanceAs (Decidable (_ ∧ _))

/-- a buffer that iderw has something to do for -/
abbrev Dirty := { c : Buf // ¬ c.Clean }

/-- what idestart writes to the controller: drive, sector, and the data of a write -/
structure Cmd where
  drive : ℕ
  sector : ℕ
  write : Option Block

/-- the disks: drive and sector -/
abbrev Disks := ℕ → ℕ → Block

/-- a request: the buffer and what it held -/
structure Req (B : Type) where
  b : B
  buf : Buf

structure Ide (B : Type) where
  idequeue : Option B
  qnext : B → Option B
  buf : B → Buf
  /-- the command that the controller works on -/
  cmd : Option Cmd
  disks : Disks
  call : B → Option (ℕ × ℕ)
  issued : List (Req B)
  started : List (Req B)
  completed : List (Req B × Buf)

/-- the command for a buffer; a block is one sector -/
def Buf.cmd (c : Buf) : Cmd := ⟨c.dev % 2, c.blockno, if c.dirty then some c.data else none⟩

/-- the transfer that ends a command -/
def Cmd.transfer (x : Cmd) (disks : Disks) : Disks :=
  match x.write with
  | some data => update disks x.drive (update (disks x.drive) x.sector data)
  | none => disks

/-- the code points; me is the process, pp the pointer of the loop (none: &idequeue, some x: &x->qnext) -/
inductive Point (B : Type) where
  | user (me : ℕ)
  /-- iderw(b), b holding c: the checks -/
  | rw (me : ℕ) (b : B) (c : Buf)
  /-- iderw: acquire(&idelock) -/
  | lock (me : ℕ) (b : B) (c : Dirty)
  /-- iderw: b->qnext = 0 -/
  | link (me : ℕ) (b : B) (c : Dirty)
  /-- insert-queue: test of *pp, at the end *pp = b and idestart if b is the head -/
  | walk (me : ℕ) (b : B) (pp : Option B)
  /-- iderw: head of the while loop -/
  | test (me : ℕ) (b : B)
  /-- iderw: sleep(b, &idelock) -/
  | wait (me : ℕ) (b : B)
  /-- iderw: the call on b ends -/
  | leave (me : ℕ) (b : B)
  /-- iderw: release(&idelock) -/
  | left (me : ℕ) (b : B)
  /-- ideintr: acquire(&idelock) -/
  | intr (me : ℕ)
  /-- ideintr: from b = idequeue to the flags -/
  | finish (me : ℕ)
  /-- ideintr: wakeup(b) -/
  | wake (me : ℕ) (b : B)
  /-- ideintr: if(idequeue != 0) idestart(idequeue) -/
  | next (me : ℕ)
  /-- ideintr: release(&idelock) -/
  | intrDone (me : ℕ)
  /-- after a panic: with or without idelock, and the buffer of the call -/
  | halted (me : ℕ) (locked : Bool) (b : Option B)

namespace Ide

/-- *pp -/
def deref (d : Ide B) : Option B → Option B
  | none => d.idequeue
  | some x => d.qnext x

/-- *pp = b, as the next request of process me -/
def append (d : Ide B) (me : ℕ) (b : B) (pp : Option B) : Ide B :=
  let d := match pp with
    | none => { d with idequeue := some b }
    | some x => { d with qnext := update d.qnext x (some b) }
  { d with call := update d.call b (some (me, d.issued.length)), issued := d.issued ++ [⟨b, d.buf b⟩] }

/-- idestart(b), then on to k, or to `halt` if it panics -/
def idestart (d : Ide B) (b : B) (k halt : Point B) : Ide B × Point B :=
  if FSSIZE ≤ (d.buf b).blockno then (d, halt)
  else ({ d with cmd := some (d.buf b).cmd, started := d.started ++ [⟨b, d.buf b⟩] }, k)

/-- the device has completed the command x, and ideintr takes b from the queue: insl reads what the device delivers -/
def finish (d : Ide B) (x : Cmd) (b : B) : Ide B :=
  let disks := x.transfer d.disks
  let c : Buf := { d.buf b with
    valid := true
    dirty := false
    data := if (d.buf b).dirty then (d.buf b).data else disks x.drive x.sector }
  { d with
    idequeue := d.qnext b
    buf := update d.buf b c
    cmd := none
    disks := disks
    completed := d.completed ++ [(⟨b, d.buf b⟩, c)] }

end Ide

def code (havedisk1 : Bool) : Point B → Instr (Ide B) (Point B) B
  | .user me => .choose fun k => k = .intr me ∨ ∃ b c, k = .rw me b c
  | .rw me b c => .choose fun k =>
    k = if h : c.Clean then .halted me false none
      else if c.dev ≠ 0 ∧ havedisk1 = false then .halted me false none
      else .lock me b ⟨c, h⟩
  | .lock me b c => .acquire (.link me b c)
  | .link me b c => .act fun _ d =>
    ({ d with buf := update d.buf b c.1, qnext := update d.qnext b none }, .walk me b none)
  | .walk me b pp => .act fun _ d =>
    match d.deref pp with
    | some x => (d, .walk me b (some x))
    | none =>
      let d := d.append me b pp
      if d.idequeue = some b then d.idestart b (.test me b) (.halted me true (some b)) else (d, .test me b)
  | .test me b => .act fun _ d => (d, if (d.buf b).Clean then .leave me b else .wait me b)
  | .wait me b => .sleep b (.test me b)
  | .leave me b => .act fun _ d => ({ d with call := update d.call b none }, .left me b)
  | .left me _ => .release (.user me)
  | .intr me => .acquire (.finish me)
  | .finish me => .act fun _ d =>
    match d.idequeue, d.cmd with
    | some b, some x => (d.finish x b, .wake me b)
    | _, _ => (d, .intrDone me)
  | .wake me b => .wakeup b (.next me)
  | .next me => .act fun _ d =>
    match d.idequeue with
    | some b => d.idestart b (.intrDone me) (.halted me true none)
    | none => (d, .intrDone me)
  | .intrDone me => .release (.user me)
  | .halted _ _ _ => .choose fun _ => False

/-- no other call on b is in progress, and the handler runs only when the controller has completed a command -/
def Allowed : Point B → Bool → Ide B → Prop
  | .link _ b _, _, d => d.call b = none
  | .finish _, _, d => d.cmd ≠ none
  | _, _, _ => True

/-- at boot: an empty queue and an idle controller, every process in its own code -/
structure Init (disks : Disks) (s : Cfg (Ide B) (Point B) B) : Prop where
  lk : s.lk = none
  pt : s.pt = none
  pos : ∀ t, s.pos t = .run (.user t)
  idequeue : s.d.idequeue = none
  cmd : s.d.cmd = none
  disks : s.d.disks = disks
  call : ∀ b, s.d.call b = none
  issued : s.d.issued = []
  started : s.d.started = []
  completed : s.d.completed = []

abbrev Reachable (havedisk1 : Bool) (disks : Disks) : Cfg (Ide B) (Point B) B → Prop :=
  Reach (code havedisk1) Allowed (Init disks)

/-! ## memide.c -/

/-- memide.c's iderw, on a buffer and the disk in memory; an error is the text of the panic -/
def memIderw (c : Buf) (disk : ℕ → Block) : Except String (Buf × (ℕ → Block)) :=
  if c.Clean then .error "iderw: nothing to do"
  else if c.dev ≠ 1 then .error "iderw: request not for disk 1"
  else if FSSIZE ≤ c.blockno then .error "iderw: block out of range"
  else if c.dirty then .ok ({ c with dirty := false, valid := true }, update disk c.blockno c.data)
  else .ok ({ c with data := disk c.blockno, valid := true }, disk)

/-- requests served one after the other: each one for disk 1 has the effect of memide's iderw, and none touches another
drive than its own -/
inductive Served (start : Disks) : List (Req B × Buf) → Disks → Prop where
  | nil : Served start [] start
  | snoc {l : List (Req B × Buf)} {d d' : Disks} {r : Req B} {c : Buf} (h : Served start l d)
      (hmem : r.buf.dev = 1 → memIderw r.buf (d 1) = .ok (c, d' 1)) (hother : ∀ k, k ≠ r.buf.dev % 2 → d' k = d k) :
      Served start (l ++ [(r, c)]) d'

/-! ## The queue -/

/-- the buffers that the pointers link, from hd on -/
def Chain (qnext : B → Option B) : Option B → List B → Prop
  | hd, [] => hd = none
  | hd, b :: l => hd = some b ∧ Chain qnext (qnext b) l

variable {hd : Option B} {l : List B} {q : B → Option B} {b : B} {d : Ide B}

omit [DecidableEq B] in
theorem Chain.head {qnext : B → Option B} (h : Chain qnext hd l) : hd = l.head? := by
  cases l with
  | nil => exact h
  | cons b l => exact h.1

omit [DecidableEq B] in
theorem Chain.congr {q' : B → Option B} (hq : ∀ b ∈ l, q' b = q b) (h : Chain q hd l) : Chain q' hd l := by
  induction l generalizing hd with
  | nil => exact h
  | cons b l ih =>
    refine ⟨h.1, ?_⟩
    rw [hq b mem_cons_self]
    exact ih (fun x hx => hq x (mem_cons_of_mem _ hx)) h.2

/-- a pointer to a buffer outside the queue is not part of it -/
theorem Chain.update (h : Chain q hd l) (hb : b ∉ l) (x : Option B) : Chain (update q b x) hd l :=
  h.congr fun y hy => update_of_ne (fun e : y = b => hb (e ▸ hy)) x q

omit [DecidableEq B] in
/-- the pointer behind the first part of the queue is that of its last buffer -/
theorem Chain.behind {l1 l2 : List B} (h : Chain q hd (l1 ++ l2)) :
    (match l1.getLast? with | none => hd | some x => q x) = l2.head? := by
  induction l1 generalizing hd with
  | nil => exact h.head
  | cons b l ih =>
    have := ih h.2
    cases l with
    | nil => simpa using this
    | cons c l =>
      obtain ⟨z, hz⟩ : ∃ z, (c :: l).getLast? = some z := ⟨_, getLast?_eq_some_getLast (cons_ne_nil c l)⟩
      rw [hz] at this
      rw [getLast?_cons_cons, hz]
      exact this

theorem Chain.snoc {x : B} (h : Chain q hd l) (hx : l.getLast? = some x) (hnd : l.Nodup) (hb : b ∉ l) (hqb : q b = none) :
    Chain (Function.update q x (some b)) hd (l ++ [b]) := by
  induction l generalizing hd with
  | nil => cases hx
  | cons c l ih =>
    have hbc : b ≠ c := fun e => hb (by rw [e]; exact mem_cons_self)
    have hbl : b ∉ l := fun e => hb (mem_cons_of_mem _ e)
    cases l with
    | nil =>
      have hcx : c = x := by simpa using hx
      subst hcx
      refine ⟨h.1, ?_, ?_⟩
      · rw [update_self]
      · rw [update_of_ne hbc, hqb]
        rfl
    | cons e l =>
      have hx' : (e :: l).getLast? = some x := by simpa using hx
      have hcx : c ≠ x := by
        rintro rfl
        exact (nodup_cons.1 hnd).1 (mem_of_getLast? hx')
      refine ⟨h.1, ?_⟩
      rw [update_of_ne hcx]
      exact ih h.2 hx' (nodup_cons.1 hnd).2 hbl

/-! ## The invariant -/

/-- the request that a queued buffer stands for -/
def Ide.req (d : Ide B) (b : B) : Req B := ⟨b, d.buf b⟩

/-- the queue holds l, its head being worked on if `flight` -/
structure Queued (start : Disks) (d : Ide B) (l : List B) (flight : Bool) : Prop where
  chain : Chain d.qnext d.idequeue l
  nodup : l.Nodup
  issued : d.issued = d.completed.map Prod.fst ++ l.map d.req
  started : d.started = d.completed.map Prod.fst ++ if flight then (l.map d.req).take 1 else []
  cmd : d.cmd = if flight then l.head?.map fun b => (d.buf b).cmd else none
  range : flight = true → ∀ b, l.head? = some b → (d.buf b).blockno < FSSIZE
  pending : ∀ b ∈ l, ¬ (d.buf b).Clean ∧ d.call b ≠ none
  /-- a call in progress: its request is queued, or it has been completed and the buffer is as it became then -/
  calls : ∀ b m n, d.call b = some (m, n) → (b ∈ l ∧ d.completed.length ≤ n ∧ d.issued[n]? = some (d.req b)) ∨
    (b ∉ l ∧ ∃ c, d.completed[n]? = some (⟨b, c⟩, d.buf b))
  served : Served start d.completed d.disks

/-- what holds while idelock is free -/
def Quiet (start : Disks) (d : Ide B) : Prop := ∃ l, Queued start d l true

theorem Queued.prepare {start : Disks} (h : Queued start d l true) (hb : b ∉ l) (hcall : d.call b = none) (c : Buf) :
    Queued start { d with buf := update d.buf b c, qnext := update d.qnext b none } l true := by
  have hbuf : ∀ x, x ≠ b → update d.buf b c x = d.buf x := fun x hx => update_of_ne hx ..
  have hreq : ∀ x ∈ l, ({ d with buf := update d.buf b c, qnext := update d.qnext b none } : Ide B).req x
      = d.req x := by
    intro x hx
    show (⟨x, update d.buf b c x⟩ : Req B) = _
    rw [hbuf x fun e => hb (e ▸ hx)]
    rfl
  have hmap := map_congr_left hreq
  refine ⟨h.chain.update hb none, h.nodup, by rw [hmap]; exact h.issued, by rw [hmap]; exact h.started, ?_, ?_, ?_, ?_,
    h.served⟩
  · show d.cmd = if true then l.head?.map fun x => (update d.buf b c x).cmd else none
    rw [h.cmd]
    cases l with
    | nil => rfl
    | cons x l =>
      simp only [head?_cons, Option.map_some]
      rw [hbuf x fun e => hb (e ▸ mem_cons_self)]
  · intro _ x hx
    show (update d.buf b c x).blockno < FSSIZE
    rw [hbuf x fun e => hb (e ▸ mem_of_mem_head? hx)]
    exact h.range rfl x hx
  · intro x hx
    show ¬ (update d.buf b c x).Clean ∧ _
    rw [hbuf x fun e => hb (e ▸ hx)]
    exact h.pending x hx
  · intro x m n hx
    have hxb : x ≠ b := by
      rintro rfl
      rw [hcall] at hx
      cases hx
    rcases h.calls x m n hx with ⟨h1, h2, h3⟩ | ⟨h1, c', h2⟩
    · exact .inl ⟨h1, h2, by rw [hreq x h1]; exact h3⟩
    · refine .inr ⟨h1, c', ?_⟩
      show d.completed[n]? = some (⟨x, c'⟩, update d.buf b c x)
      rw [hbuf x hxb]
      exact h2

theorem append_fields (d : Ide B) (me : ℕ) (b : B) (pp : Option B) :
    (d.append me b pp).buf = d.buf ∧ (d.append me b pp).completed = d.completed ∧
    (d.append me b pp).issued = d.issued ++ [d.req b] ∧ (d.append me b pp).started = d.started ∧
    (d.append me b pp).cmd = d.cmd ∧ (d.append me b pp).disks = d.disks ∧
    (d.append me b pp).call = update d.call b (some (me, d.issued.length)) := by
  unfold Ide.append
  cases pp <;> exact ⟨rfl, rfl, rfl, rfl, rfl, rfl, rfl⟩

/-- *pp = b behind the last buffer: b is the last request; it is the one to start if the queue was empty -/
theorem Queued.append {start : Disks} (h : Queued start d l true) (me : ℕ) (hb : b ∉ l) (hqb : d.qnext b = none)
    (hpend : ¬ (d.buf b).Clean) : Queued start (d.append me b l.getLast?) (l ++ [b]) (decide (l ≠ [])) := by
  have hlen : d.issued.length = d.completed.length + l.length := by rw [h.issued]; simp
  obtain ⟨hbuf, hcomp, hiss, hst, hcmd, hdisk, hcall⟩ := append_fields d me b l.getLast?
  have hself : (d.append me b l.getLast?).call b = some (me, d.issued.length) := by rw [hcall, update_self]
  have hother : ∀ x, x ≠ b → (d.append me b l.getLast?).call x = d.call x := by
    intro x hx
    rw [hcall, update_of_ne hx]
  have hreq : (d.append me b l.getLast?).req = d.req := by
    funext x
    unfold Ide.req
    rw [hbuf]
  refine ⟨?_, ?_, ?_, ?_, ?_, ?_, ?_, ?_, ?_⟩
  · unfold Ide.append
    cases hl : l.getLast? with
    | none =>
      rw [getLast?_eq_none_iff.1 hl]
      exact ⟨rfl, hqb⟩
    | some x => exact h.chain.snoc hl h.nodup hb hqb
  · rw [nodup_append]
    exact ⟨h.nodup, nodup_singleton b, fun x hx y hy e => hb (by rw [← mem_singleton.1 hy, ← e]; exact hx)⟩
  · rw [hiss, hcomp, hreq, h.issued, map_append, append_assoc]
    rfl
  · rw [hst, hcomp, hreq, h.started]
    cases l with
    | nil => rfl
    | cons x l => simp
  · rw [hcmd, hbuf, h.cmd]
    cases l with
    | nil => rfl
    | cons x l => simp
  · intro hne x hx
    rw [hbuf]
    cases l with
    | nil => exact absurd rfl (of_decide_eq_true hne)
    | cons y l => exact h.range rfl x hx
  · intro x hx
    rw [hbuf]
    by_cases e : x = b
    · subst e
      exact ⟨hpend, by rw [hself]; nofun⟩
    · have hxl : x ∈ l := by
        rcases mem_append.1 hx with hx | hx
        · exact hx
        · exact absurd (mem_singleton.1 hx) e
      refine ⟨(h.pending x hxl).1, ?_⟩
      rw [hother x e]
      exact (h.pending x hxl).2
  · intro x m n hx
    rw [hcomp, hiss, hreq, hbuf]
    by_cases e : x = b
    · subst e
      rw [hself] at hx
      cases hx
      refine .inl ⟨mem_append_right _ mem_cons_self, by omega, ?_⟩
      rw [getElem?_append_right (le_refl _), Nat.sub_self]
      rfl
    · rcases h.calls x m n ((hother x e).symm.trans hx) with ⟨h1, h2, h3⟩ | ⟨h1, c, h2⟩
      · refine .inl ⟨mem_append_left _ h1, h2, ?_⟩
        rw [List.getElem?_append_left (List.getElem?_eq_some_iff.1 h3).1]
        exact h3
      · refine .inr ⟨fun hm => ?_, c, h2⟩
        rcases mem_append.1 hm with hm | hm
        · exact h1 hm
        · exact e (mem_singleton.1 hm)
  · rw [hcomp, hdisk]
    exact h.served

omit [DecidableEq B] in
theorem Queued.start {start : Disks} (h : Queued start d (b :: l) false) (hb : (d.buf b).blockno < FSSIZE) :
    Queued start { d with cmd := some (d.buf b).cmd, started := d.started ++ [⟨b, d.buf b⟩] } (b :: l) true := by
  refine ⟨h.chain, h.nodup, h.issued, ?_, rfl, fun _ x hx => ?_, h.pending, h.calls, h.served⟩
  · show d.started ++ [⟨b, d.buf b⟩] = _
    rw [h.started]
    simp [Ide.req]
  · cases hx
    exact hb

/-- the effect of a completed command is that of memide's iderw -/
theorem memIderw_transfer {c : Buf} (hp : ¬ c.Clean) (hdev : c.dev = 1) (hrange : c.blockno < FSSIZE) (disks : Disks) :
    memIderw c (disks 1) = .ok ({ c with
      valid := true
      dirty := false
      data := if c.dirty then c.data else c.cmd.transfer disks c.cmd.drive c.cmd.sector }, c.cmd.transfer disks 1) := by
  obtain ⟨valid, dirty, dev, blockno, data⟩ := c
  cases hdev
  have hrange' : ¬ FSSIZE ≤ blockno := not_le.2 hrange
  unfold memIderw
  rw [if_neg hp]
  cases dirty with
  | true | false => simp [hrange', Buf.cmd, Cmd.transfer]

theorem transfer_of_ne (x : Cmd) (disks : Disks) {k : ℕ} (hk : k ≠ x.drive) : x.transfer disks k = disks k := by
  unfold Cmd.transfer
  cases x.write with
  | none => rfl
  | some data => exact update_of_ne hk ..

theorem Queued.finish {start : Disks} (h : Queued start d (b :: l) true) : Queued start (d.finish (d.buf b).cmd b) l false := by
  obtain ⟨hbl, hnd⟩ := nodup_cons.1 h.nodup
  have hne : ∀ x ∈ l, x ≠ b := fun x hx e => hbl (e ▸ hx)
  have hbuf : ∀ x, x ≠ b → (d.finish (d.buf b).cmd b).buf x = d.buf x := fun x hx => update_of_ne hx ..
  have hreq : ∀ x, x ≠ b → (d.finish (d.buf b).cmd b).req x = d.req x := by
    intro x hx
    unfold Ide.req
    rw [hbuf x hx]
  have hcomp : (d.finish (d.buf b).cmd b).completed
      = d.completed ++ [(d.req b, (d.finish (d.buf b).cmd b).buf b)] := by
    show d.completed ++ [(⟨b, d.buf b⟩, _)] = d.completed ++ [(d.req b, update d.buf b _ b)]
    rw [update_self]
    rfl
  have hmap : l.map (d.finish (d.buf b).cmd b).req = l.map d.req := map_congr_left fun x hx => hreq x (hne x hx)
  have hhead : d.issued[d.completed.length]? = some (d.req b) := by
    rw [h.issued, getElem?_append_right (by simp)]
    simp
  refine ⟨h.chain.2, hnd, ?_, ?_, rfl, nofun, fun x hx => ?_, fun x m n hx => ?_, ?_⟩
  · rw [hcomp, hmap]
    show d.issued = _
    rw [h.issued]
    simp
  · rw [hcomp]
    show d.started = _
    rw [h.started]
    simp
  · rw [hbuf x (hne x hx)]
    exact h.pending x (mem_cons_of_mem _ hx)
  · have hx' : d.call x = some (m, n) := hx
    by_cases e : x = b
    · -- its request is the one completed now: b is queued once
      subst e
      rcases h.calls x m n hx' with ⟨-, hle, hn⟩ | ⟨hno, -⟩
      · have hnk : n = d.completed.length := by
          by_contra hnk
          rw [h.issued, getElem?_append_right (by simpa using hle), map_cons] at hn
          obtain ⟨k, hk⟩ : ∃ k, n - (d.completed.map Prod.fst).length = k + 1 :=
            ⟨n - d.completed.length - 1, by rw [length_map]; omega⟩
          rw [hk, getElem?_cons_succ] at hn
          have hmem := mem_of_getElem? hn
          obtain ⟨y, hy, hyx⟩ := mem_map.1 hmem
          have : y = x := congrArg Req.b hyx
          exact hbl (this ▸ hy)
        refine .inr ⟨hbl, d.buf x, ?_⟩
        rw [hcomp, hnk, getElem?_append_right (le_refl _), Nat.sub_self]
        rfl
      · exact absurd mem_cons_self hno
    · rcases h.calls x m n hx' with ⟨hin, hle, hn⟩ | ⟨hno, c, hn⟩
      · have hnk : n ≠ d.completed.length := by
          rintro rfl
          rw [hhead] at hn
          exact e (congrArg Req.b (Option.some.inj hn)).symm
        refine .inl ⟨(mem_cons.1 hin).resolve_left e, ?_, ?_⟩
        · rw [hcomp, length_append]
          show d.completed.length + 1 ≤ n
          omega
        · rw [hreq x e]
          exact hn
      · refine .inr ⟨fun hin => hno (mem_cons_of_mem _ hin), c, ?_⟩
        rw [hcomp, hbuf x e, List.getElem?_append_left (List.getElem?_eq_some_iff.1 hn).1]
        exact hn
  · have hp := (h.pending b mem_cons_self).1
    refine .snoc h.served (fun hdev => ?_) fun k hk => transfer_of_ne _ _ hk
    exact memIderw_transfer hp hdev (h.range rfl b rfl) d.disks

/-- the end of a call whose buffer is valid and clean: its request is not queued any more -/
theorem Queued.leave {start : Disks} (h : Queued start d l true) (hb : (d.buf b).Clean) :
    Queued start { d with call := update d.call b none } l true := by
  refine ⟨h.chain, h.nodup, h.issued, h.started, h.cmd, h.range, fun x hx => ?_, fun x m n hx => ?_, h.served⟩
  · have hxb : x ≠ b := fun e => (h.pending x hx).1 (e ▸ hb)
    refine ⟨(h.pending x hx).1, ?_⟩
    show update d.call b none x ≠ none
    rw [update_of_ne hxb]
    exact (h.pending x hx).2
  · have hxb : x ≠ b := by
      rintro rfl
      have : update d.call x none x = some (m, n) := hx
      rw [update_self] at this
      cases this
    have hx' : update d.call b none x = some (m, n) := hx
    rw [update_of_ne hxb] at hx'
    exact h.calls x m n hx'

/-! ## Discipline of the driver -/

/-- idelock is held from its acquire to its release, and by whoever panics in idestart -/
def holds : Point B → Prop
  | .user _ | .rw _ _ _ | .lock _ _ _ | .intr _ => False
  | .halted _ locked _ => locked = true
  | _ => True

/-- what is known at the points that hold idelock -/
def sees (start : Disks) : Point B → Ide B → Prop
  | .walk _ b pp, d => ∃ l1 l2, Queued start d (l1 ++ l2) true ∧ pp = l1.getLast? ∧ b ∉ l1 ++ l2 ∧ d.call b = none ∧
    d.qnext b = none ∧ ¬ (d.buf b).Clean
  | .wait _ b, d => Quiet start d ∧ ¬ (d.buf b).Clean
  | .leave _ b, d => Quiet start d ∧ (d.buf b).Clean
  | .wake _ _, d | .next _, d => ∃ l, Queued start d l false
  | .halted _ _ _, _ => True
  | _, d => Quiet start d

omit [DecidableEq B] in
theorem idestart_spec {start : Disks} (h : Queued start d (b :: l) false) {k halt : Point B} (hk : holds k)
    (hs : ∀ d', Quiet start d' → sees start k d') (hh : holds halt) (hhs : ∀ d', sees start halt d') :
    holds (d.idestart b k halt).2 ∧ sees start (d.idestart b k halt).2 (d.idestart b k halt).1 := by
  unfold Ide.idestart
  by_cases hr : FSSIZE ≤ (d.buf b).blockno
  · rw [if_pos hr]
    exact ⟨hh, hhs _⟩
  · rw [if_neg hr]
    exact ⟨hk, hs _ ⟨_, h.start (not_le.1 hr)⟩⟩

theorem walk_spec {start : Disks} {me : ℕ} {pp : Option B} (h : sees start (.walk me b pp) d)
    {f : Bool → Ide B → Ide B × Point B} {hd1 : Bool} (hc : code hd1 (.walk me b pp) = .act f) (killed : Bool) :
    holds (f killed d).2 ∧ sees start (f killed d).2 (f killed d).1 := by
  cases hc
  obtain ⟨l1, l2, hq, rfl, hb, hcall, hqb, hpend⟩ := h
  have hderef : d.deref l1.getLast? = l2.head? := by
    rw [← hq.chain.behind]
    cases l1.getLast? <;> rfl
  cases l2 with
  | cons x l2 =>
    -- one buffer further
    have hx : d.deref l1.getLast? = some x := hderef
    simp only [hx]
    refine ⟨trivial, l1 ++ [x], l2, ?_, by simp, ?_, hcall, hqb, hpend⟩
    · rw [append_assoc]
      exact hq
    · rw [append_assoc]
      exact hb
  | nil =>
    have hx : d.deref l1.getLast? = none := hderef
    simp only [hx]
    rw [append_nil] at hq hb
    have happ := hq.append me hb hqb hpend
    cases l1 with
    | nil =>
      -- an empty queue: b is the head and is started
      have hhead : (d.append me b ([] : List B).getLast?).idequeue = some b := rfl
      rw [if_pos hhead]
      exact idestart_spec happ trivial (fun _ h => h) rfl fun _ => trivial
    | cons y l1 =>
      have hhead : (d.append me b (y :: l1).getLast?).idequeue ≠ some b := by
        rw [happ.chain.head]
        intro e
        exact hb (by rw [Option.some.inj e]; exact mem_cons_self)
      rw [if_neg hhead]
      exact ⟨trivial, _, happ⟩

theorem sections (havedisk1 : Bool) (start : Disks) :
    Sections (code havedisk1) Allowed (holds (B := B)) (sees start) (Quiet start) where
  acquire := by
    intro k k' h
    cases k <;> cases h <;> exact ⟨id, trivial, fun _ hJ => hJ⟩
  release := by
    intro k k' h
    cases k <;> cases h <;> exact ⟨trivial, id, fun _ hs => hs⟩
  act := by
    intro k f h
    cases k with
    | link me b c =>
      cases h
      refine ⟨trivial, fun _ d hg hs => ⟨trivial, ?_⟩⟩
      obtain ⟨l, hq⟩ := hs
      have hcall : d.call b = none := hg
      have hb : b ∉ l := fun hb => (hq.pending b hb).2 hcall
      refine ⟨[], l, hq.prepare hb hcall c.1, rfl, hb, hcall, update_self .., ?_⟩
      show ¬ (update d.buf b c.1 b).Clean
      rw [update_self]
      exact c.2
    | walk me b pp => exact ⟨trivial, fun killed d _ hs => walk_spec hs h killed⟩
    | test me b =>
      cases h
      refine ⟨trivial, fun _ d _ hs => ?_⟩
      by_cases hc : (d.buf b).Clean
      · simp only [if_pos hc]
        exact ⟨trivial, hs, hc⟩
      · simp only [if_neg hc]
        exact ⟨trivial, hs, hc⟩
    | leave me b =>
      cases h
      refine ⟨trivial, fun _ d _ hs => ⟨trivial, ?_⟩⟩
      obtain ⟨⟨l, hq⟩, hc⟩ := hs
      exact ⟨l, hq.leave hc⟩
    | finish me =>
      cases h
      refine ⟨trivial, fun _ d hg hs => ?_⟩
      obtain ⟨l, hq⟩ := hs
      cases l with
      | nil =>
        have hnone : d.idequeue = none := hq.chain
        simp only [hnone]
        exact ⟨trivial, [], hq⟩
      | cons b l =>
        have hsome : d.idequeue = some b := hq.chain.1
        have hcmd : d.cmd = some (d.buf b).cmd := hq.cmd
        simp only [hsome, hcmd]
        exact ⟨trivial, l, hq.finish⟩
    | next me =>
      cases h
      refine ⟨trivial, fun _ d _ hs => ?_⟩
      obtain ⟨l, hq⟩ := hs
      cases l with
      | nil =>
        have hnone : d.idequeue = none := hq.chain
        simp only [hnone]
        exact ⟨trivial, [], ⟨hq.chain, hq.nodup, hq.issued, hq.started, hq.cmd, nofun, hq.pending, hq.calls, hq.served⟩⟩
      | cons b l =>
        have hsome : d.idequeue = some b := hq.chain.1
        simp only [hsome]
        exact idestart_spec hq trivial (fun _ h => h) rfl fun _ => trivial
    | _ => cases h
  choose := by
    intro k P k' h hk
    cases k with
    | user me =>
      cases h
      rcases hk with rfl | ⟨b, c, rfl⟩ <;> exact ⟨Iff.rfl, fun _ hs => hs⟩
    | rw me b c =>
      cases h
      split_ifs at hk <;> subst hk
      · exact ⟨⟨nofun, False.elim⟩, fun _ _ => trivial⟩
      · exact ⟨⟨nofun, False.elim⟩, fun _ _ => trivial⟩
      · exact ⟨Iff.rfl, fun _ hs => hs⟩
    | halted me locked b =>
      cases h
      exact hk.elim
    | _ => cases h
  wakeup := by
    intro k ch k' h
    cases k <;> cases h
    exact ⟨Iff.rfl, fun _ hs => hs⟩
  sleep := by
    intro k ch k' h
    cases k <;> cases h
    exact ⟨trivial, trivial, fun _ hs => hs.1, fun _ hJ => hJ⟩

/-- after it set the flags ideintr owes the wakeup -/
def owes : Point B → B → Prop
  | .wake _ b, ch => b = ch
  | _, _ => False

omit [DecidableEq B] in
theorem holds_of_owes (k : Point B) (ch : B) (h : owes k ch) : holds k := by
  cases k <;> first | exact h.elim | trivial

theorem holds_of_wakeup (havedisk1 : Bool) (k : Point B) (ch : B) (k' : Point B)
    (h : code havedisk1 k = .wakeup ch k') : holds k' := by
  cases k <;> cases h
  trivial

omit [DecidableEq B] in
theorem idestart_buf (d : Ide B) (b : B) (k halt : Point B) : (d.idestart b k halt).1.buf = d.buf := by
  unfold Ide.idestart
  split_ifs <;> rfl

/-- sleepers are blocked as long as their buffer is not valid and clean -/
theorem wakes (havedisk1 : Bool) (start : Disks) :
    Wakes (code havedisk1) Allowed (sees start) (fun _ => True) (fun (b : B) d => ¬ (d.buf b).Clean) owes where
  acquire := by
    intro k k' ch h ho
    cases k <;> cases h <;> exact ho.elim
  release := by
    intro k k' ch h ho
    cases k <;> cases h <;> exact ho.elim
  act := by
    intro k f h killed d ch hg _ hs hb
    cases k with
    | link me b c =>
      cases h
      left
      show ¬ (update d.buf b c.1 ch).Clean
      by_cases e : ch = b
      · rw [e, update_self]
        exact c.2
      · rw [update_of_ne e]
        exact hb.resolve_right id
    | walk me b pp =>
      cases h
      left
      dsimp only
      cases d.deref pp with
      | some x => exact hb.resolve_right id
      | none =>
        dsimp only
        have hbuf := (append_fields d me b pp).1
        split_ifs
        · rw [idestart_buf, hbuf]
          exact hb.resolve_right id
        · rw [hbuf]
          exact hb.resolve_right id
    | test me b | leave me b =>
      cases h
      exact .inl (hb.resolve_right id)
    | finish me =>
      cases h
      have hb' := hb.resolve_right id
      obtain ⟨l, hq⟩ := hs
      cases l with
      | nil =>
        have hnone : d.idequeue = none := hq.chain
        simp only [hnone]
        exact .inl hb'
      | cons b l =>
        have hsome : d.idequeue = some b := hq.chain.1
        have hcmd : d.cmd = some (d.buf b).cmd := hq.cmd
        simp only [hsome, hcmd]
        by_cases e : b = ch
        · exact .inr e
        · left
          show ¬ (update d.buf b _ ch).Clean
          rw [update_of_ne (Ne.symm e)]
          exact hb'
    | next me =>
      cases h
      left
      dsimp only
      cases d.idequeue with
      | none => exact hb.resolve_right id
      | some b =>
        dsimp only
        rw [idestart_buf]
        exact hb.resolve_right id
    | _ => cases h
  choose := by
    intro k P k' ch h hk ho
    cases k <;> cases h <;> exact ho.elim
  wakeup := by
    intro k ch' k' ch h ho
    cases k <;> cases h
    exact .inl ho
  sleep := by
    intro k ch k' h
    cases k <;> cases h
    exact ⟨fun _ => id, fun _ => id, fun _ hs => hs.2⟩

/-! ## Calls and their requests -/

/-- the process of a code point -/
def Point.me : Point B → ℕ
  | .user me | .rw me _ _ | .lock me _ _ | .link me _ _ | .walk me _ _ | .test me _ | .wait me _ | .leave me _
  | .left me _ | .intr me | .finish me | .wake me _ | .next me | .intrDone me | .halted me _ _ => me

/-- the points of a call on b whose request has been appended -/
def Point.owns : Point B → B → Prop
  | .test _ b, r | .wait _ b, r | .leave _ b, r => b = r
  | .halted _ _ o, r => o = some r
  | _, _ => False

/-- the process in iderw on a buffer -/
def owner (d : Ide B) (b : B) : Option ℕ := (d.call b).map Prod.fst

omit [DecidableEq B] in
theorem idestart_cases (d : Ide B) (b : B) (k halt : Point B) :
    (d.idestart b k halt).1.call = d.call ∧ ((d.idestart b k halt).2 = k ∨ (d.idestart b k halt).2 = halt) := by
  unfold Ide.idestart
  split_ifs
  · exact ⟨rfl, .inr rfl⟩
  · exact ⟨rfl, .inl rfl⟩

theorem owner_gain {d' : Ide B} {me : ℕ} (hcall : ∃ n, d'.call = update d.call b (some (me, n)))
    (hnone : owner d b = none) (hmine : ∀ r, owner d r ≠ some me) :
    (∀ r, b = r ↔ owner d' r = some me) ∧ ∀ r i, i ≠ me → (owner d' r = some i ↔ owner d r = some i) := by
  obtain ⟨n, hcall⟩ := hcall
  have hd' : ∀ r, owner d' r = if r = b then some me else owner d r := by
    intro r
    unfold owner
    rw [hcall]
    by_cases e : r = b
    · rw [e, update_self, if_pos rfl]
      rfl
    · rw [update_of_ne e, if_neg e]
  refine ⟨fun r => ?_, fun r i hi => ?_⟩
  · rw [hd' r]
    by_cases e : r = b
    · rw [if_pos e]
      exact ⟨fun _ => rfl, fun _ => e.symm⟩
    · rw [if_neg e]
      exact ⟨fun e' => absurd e'.symm e, fun e' => absurd e' (hmine r)⟩
  · rw [hd' r]
    by_cases e : r = b
    · rw [if_pos e, e, hnone]
      exact ⟨fun e' => absurd (Option.some.inj e').symm hi, nofun⟩
    · rw [if_neg e]

theorem owner_loss {d' : Ide B} {me : ℕ} (hcall : d'.call = update d.call b none) (hme : ∀ r, b = r ↔ owner d r = some me) :
    (∀ r, owner d' r ≠ some me) ∧ ∀ r i, i ≠ me → (owner d' r = some i ↔ owner d r = some i) := by
  have hd' : ∀ r, owner d' r = if r = b then none else owner d r := by
    intro r
    unfold owner
    rw [hcall]
    by_cases e : r = b
    · rw [e, update_self, if_pos rfl]
      rfl
    · rw [update_of_ne e, if_neg e]
  refine ⟨fun r => ?_, fun r i hi => ?_⟩
  · rw [hd' r]
    by_cases e : r = b
    · rw [if_pos e]
      nofun
    · rw [if_neg e]
      exact fun e' => absurd ((hme r).2 e').symm e
  · rw [hd' r]
    by_cases e : r = b
    · rw [if_pos e, e, (hme b).1 rfl]
      exact ⟨nofun, fun e' => absurd (Option.some.inj e').symm hi⟩
    · rw [if_neg e]

/-- a call belongs to the process that appended its request, until that process leaves iderw -/
theorem owned (havedisk1 : Bool) (start : Disks) :
    Owned (code havedisk1) Allowed (sees start) Point.me (Point.owns (B := B)) owner where
  acquire := by
    intro k k' h
    cases k <;> cases h <;> exact ⟨rfl, fun _ => Iff.rfl⟩
  release := by
    intro k k' h
    cases k <;> cases h <;> exact ⟨rfl, fun _ => Iff.rfl⟩
  act := by
    intro k f h killed d hg hs howns
    cases k with
    | link me b c =>
      cases h
      exact ⟨rfl, howns, fun _ _ _ => Iff.rfl⟩
    | walk me b pp =>
      obtain ⟨-, -, -, -, -, hcall, -, -⟩ := hs
      have hnone : owner d b = none := by simp [owner, hcall]
      have hmine : ∀ r, owner d r ≠ some me := fun r e => (howns r).2 e
      cases h
      dsimp only
      cases d.deref pp with
      | some x => exact ⟨rfl, howns, fun _ _ _ => Iff.rfl⟩
      | none =>
        dsimp only
        -- the append makes the process owner of b, which had none
        have happ : ∃ n, (d.append me b pp).call = update d.call b (some (me, n)) :=
          ⟨_, (append_fields d me b pp).2.2.2.2.2.2⟩
        split_ifs
        · obtain ⟨hc, hk⟩ := idestart_cases (d.append me b pp) b (.test me b) (.halted me true (some b))
          rw [← hc] at happ
          obtain ⟨hmine', hother⟩ := owner_gain happ hnone hmine
          refine ⟨?_, fun r => ?_, hother⟩
          · rcases hk with hk | hk <;> rw [hk] <;> rfl
          · refine Iff.trans ?_ (hmine' r)
            rcases hk with hk | hk <;> rw [hk]
            · exact Iff.rfl
            · exact ⟨fun e => Option.some.inj e, fun e => congrArg some e⟩
        · exact ⟨rfl, owner_gain happ hnone hmine⟩
    | test me b =>
      cases h
      by_cases hc : (d.buf b).Clean
      · simp only [if_pos hc]
        exact ⟨rfl, howns, fun _ _ _ => trivial⟩
      · simp only [if_neg hc]
        exact ⟨rfl, howns, fun _ _ _ => trivial⟩
    | leave me b =>
      cases h
      have hcall : ({ d with call := update d.call b none } : Ide B).call = update d.call b none := rfl
      obtain ⟨hnone, hother⟩ := owner_loss hcall howns
      exact ⟨rfl, fun r => ⟨False.elim, fun e => absurd e (hnone r)⟩, hother⟩
    | finish me =>
      cases h
      dsimp only
      split
      · exact ⟨rfl, howns, fun _ _ _ => Iff.rfl⟩
      · exact ⟨rfl, howns, fun _ _ _ => Iff.rfl⟩
    | next me =>
      cases h
      dsimp only
      split
      · rename_i b hb
        obtain ⟨hc, hk⟩ := idestart_cases d b (.intrDone me) (.halted me true none)
        have hown : ∀ r, owner (d.idestart b (.intrDone me) (.halted me true none)).1 r = owner d r := by
          intro r
          unfold owner
          rw [hc]
        refine ⟨?_, fun r => ?_, fun r i _ => by rw [hown r]⟩
        · rcases hk with hk | hk <;> rw [hk] <;> rfl
        · rw [hown r]
          rcases hk with hk | hk <;> rw [hk]
          · exact howns r
          · exact ⟨nofun, fun e => ((howns r).2 e).elim⟩
      · exact ⟨rfl, howns, fun _ _ _ => Iff.rfl⟩
    | _ => cases h
  choose := by
    intro k P k' h hk
    cases k with
    | user me =>
      cases h
      rcases hk with rfl | ⟨b, c, rfl⟩ <;> exact ⟨rfl, fun _ => Iff.rfl⟩
    | rw me b c =>
      cases h
      split_ifs at hk <;> subst hk
      · exact ⟨rfl, fun _ => ⟨nofun, False.elim⟩⟩
      · exact ⟨rfl, fun _ => ⟨nofun, False.elim⟩⟩
      · exact ⟨rfl, fun _ => Iff.rfl⟩
    | halted me locked b =>
      cases h
      exact hk.elim
    | _ => cases h
  wakeup := by
    intro k ch k' h
    cases k <;> cases h
    exact ⟨rfl, fun _ => Iff.rfl⟩
  sleep := by
    intro k ch k' h
    cases k <;> cases h
    exact ⟨rfl, fun _ => Iff.rfl⟩

/-! ## The driver refines memide -/

/-- the start point of some process -/
def Start (k : Point B) : Prop := ∃ me, k = .user me

omit [DecidableEq B] in
theorem start_free (k : Point B) (h : Start k) : ¬ holds k := by
  obtain ⟨me, rfl⟩ := h
  exact id

omit [DecidableEq B] in
theorem Init.initial {start : Disks} (s : Cfg (Ide B) (Point B) B) (h : Init start s) : Initial Start s ∧ Quiet start s.d := by
  refine ⟨⟨h.lk, h.pt, fun t => ⟨_, ⟨t, rfl⟩, h.pos t⟩⟩, [], ?_⟩
  refine ⟨h.idequeue, nodup_nil, ?_, ?_, h.cmd, fun _ _ => nofun, fun _ => nofun, fun b m n hb => ?_, ?_⟩
  · rw [h.issued, h.completed]
    rfl
  · rw [h.started, h.completed]
    rfl
  · rw [h.call b] at hb
    cases hb
  · rw [h.completed, h.disks]
    exact .nil

omit [DecidableEq B] in
theorem Init.own {start : Disks} (s : Cfg (Ide B) (Point B) B) (h : Init start s) : OwnInv Point.me Point.owns owner id s := by
  have hnone : ∀ b, owner s.d b = none := fun b => by simp [owner, h.call b]
  refine ⟨fun t => by rw [h.pos]; rfl, fun t r => ?_, fun r i hi => ?_⟩
  · rw [h.pos, hnone]
    exact ⟨False.elim, nofun⟩
  · rw [hnone] at hi
    cases hi

/-- **The driver refines an atomic block device.** For any number of processes calling iderw, each on a buffer on which
no other call is in progress, interleaved in any way with the interrupt handler, in every reachable state:
- while idelock is free, idequeue links distinct buffers l; the requests appended so far are the completed ones followed
  by l, in order; the started ones are the completed ones and the head of l, which is what the controller works on; and
  the completed ones, taken one after the other, had the effect of memide's iderw on buffer and disk;
- a process that leaves iderw(b) has had its request completed, and b is as the request left it;
- while idelock is free, nobody is SLEEPING on a buffer that is valid and clean. -/
theorem ide_refines_memide (havedisk1 : Bool) (start : Disks) (s : Cfg (Ide B) (Point B) B) (h : Reachable havedisk1 start s) :
    (s.lk = none → ∃ l : List B, l.Nodup ∧ Chain s.d.qnext s.d.idequeue l ∧
      s.d.issued = s.d.completed.map Prod.fst ++ l.map s.d.req ∧
      s.d.started = s.d.completed.map Prod.fst ++ (l.map s.d.req).take 1 ∧
      s.d.cmd = l.head?.map (fun b => (s.d.buf b).cmd) ∧ Served start s.d.completed s.d.disks) ∧
    (∀ t b m, s.pos t = .run (.leave m b) → ∃ n c, s.d.call b = some (t, n) ∧ s.d.completed[n]? = some (⟨b, c⟩, s.d.buf b)) ∧
    (s.lk = none → ∀ t b, (s.pos t).SleepsOn b → ¬ (s.d.buf b).Clean) := by
  have hinv := reach_sections (sections havedisk1 start) Init.initial start_free h
  have hown := reach_owned Function.injective_id (sections havedisk1 start) (owned havedisk1 start) Init.initial
    start_free Init.own h
  refine ⟨fun hlk => ?_, fun t b m hp => ?_, fun hlk t b ht => ?_⟩
  · obtain ⟨l, hq⟩ := hinv.free hlk
    exact ⟨l, hq.nodup, hq.chain, hq.issued, hq.started, hq.cmd, hq.served⟩
  · have ht := hinv.pos t
    have hmine := (hown.owns_iff t b).1 (by rw [hp]; exact rfl)
    rw [hp] at ht
    obtain ⟨⟨l, hq⟩, hclean⟩ := ht.2.2 trivial
    obtain ⟨⟨m', n⟩, hcall, hm⟩ := Option.map_eq_some_iff.1 hmine
    have hm' : m' = t := hm
    subst hm'
    rcases hq.calls b m' n hcall with ⟨hin, -, -⟩ | ⟨-, c, hc⟩
    · exact absurd hclean (hq.pending b hin).1
    · exact ⟨n, c, hcall, hc⟩
  · exact reach_blocked (sections havedisk1 start) (wakes havedisk1 start) holds_of_owes (holds_of_wakeup havedisk1)
      Init.initial start_free h hlk ht

/-- an empty queue, and the disks full of zeroes -/
def boot : Cfg (Ide ℕ) (Point ℕ) ℕ where
  d := ⟨none, fun _ => none, fun _ => ⟨false, false, 1, 0, Lib.Bytes.zero _⟩, none, fun _ _ => Lib.Bytes.zero _,
    fun _ => none, [], [], []⟩
  lk := none
  pt := none
  pos t := .run (.user t)
  killed _ := false

/-- block 7 of disk 1 to be read -/
def readSeven : Dirty := ⟨⟨false, false, 1, 7, Lib.Bytes.zero _⟩, by decide⟩

/-- process 0 reads block 7 into buffer 3; when the interrupt has been handled it leaves iderw with its request done -/
theorem ide_refines_memide_example : ∃ s, Reachable true (fun _ _ => Lib.Bytes.zero _) s ∧
    s.pos 0 = .run (.leave 0 3) ∧ ∃ c, s.d.completed[0]? = some (⟨3, c⟩, s.d.buf 3) := by
  have h1 : Reachable true (fun _ _ => Lib.Bytes.zero _) boot :=
    .init ⟨rfl, rfl, fun _ => rfl, rfl, rfl, rfl, fun _ => rfl, rfl, rfl, rfl⟩
  have h2 := h1.step (.choose (t := 0) (k := .user 0) rfl rfl (.inr ⟨3, readSeven.1, rfl⟩))
  have h3 := h2.step (.choose (t := 0) (k := .rw 0 3 readSeven.1) rfl rfl (by exact (rfl : Point.lock 0 3 readSeven = _)))
  have h4 := h3.step (.acquire (t := 0) (k := .lock 0 3 readSeven) rfl rfl rfl)
  have h5 := h4.step (.act (t := 0) (k := .link 0 3 readSeven) rfl rfl (by exact rfl))
  have h6 := h5.step (.act (t := 0) (k := .walk 0 3 none) rfl rfl (by exact trivial))
  have h7 := h6.step (.act (t := 0) (k := .test 0 3) rfl rfl (by exact trivial))
  have h8 := h7.step (.sleep (t := 0) (k := .wait 0 3) rfl rfl rfl)
  have h9 := h8.step (.unlock (t := 0) rfl)
  have h10 := h9.step (.mark (t := 0) rfl)
  have h11 := h10.step (.switch (t := 0) rfl)
  have h12 := h11.step (.choose (t := 1) (k := .user 1) rfl rfl (.inl rfl))
  have h13 := h12.step (.acquire (t := 1) (k := .intr 1) rfl rfl rfl)
  have h14 := h13.step (.act (t := 1) (k := .finish 1) rfl rfl (by exact nofun))
  have h15 := h14.step (.wakeup (t := 1) (k := .wake 1 3) rfl rfl rfl)
  have h16 := h15.step (.scan (t := 1) rfl)
  have h17 := h16.step (.scanned (t := 1) rfl)
  have h18 := h17.step (.act (t := 1) (k := .next 1) rfl rfl (by exact trivial))
  have h19 := h18.step (.release (t := 1) (k := .intrDone 1) rfl rfl)
  have h20 := h19.step (.dispatch (t := 0) rfl rfl)
  have h21 := h20.step (.tidy (t := 0) rfl)
  have h22 := h21.step (.relock (t := 0) rfl rfl)
  have h23 := h22.step (.act (t := 0) (k := .test 0 3) rfl rfl (by exact trivial))
  obtain ⟨n, c, hcall, hc⟩ := (ide_refines_memide true _ _ h23).2.1 0 3 0 rfl
  cases hcall
  exact ⟨_, h23, rfl, c, hc⟩

end Xv6.Driver
