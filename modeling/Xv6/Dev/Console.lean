/-
The console's line discipline (console.c): `consoleintr` and `consoleread` on the input ring.

The ring and its indices r, w, e are the data of a monitor with lock cons.lock and the one channel &input.r; the steps of
sleep, wakeup and kill are those of the monitor library. r, w, e are 32-bit counters that wrap. A call of consoleintr
receives any characters, one by one from getc; a call of consoleread asks for any number of bytes. The echo on the
screen and procdump, which use nothing of the ring, are left out.

Two lists record the history: `committed`, the bytes that consoleintr passed to the readers by w = e, and `consumed`,
the bytes that consoleread took from the ring, each with the bytes its call had delivered before it.

Over it stands the line discipline itself, on lists: bytes are pending until they are committed, erasing removes the
last pending byte, and a reader takes the next committed byte, a ^D only as the first byte of its call.

Results:
- `console_line_discipline`: the indices stay in order and at most INPUT_BUF apart, what readers consumed followed by
  the bytes in [r, w) is what was committed, every step of the code is a step of the line discipline, a consoleread
  delivers what it consumed, and no reader sleeps while there is something to read.
-/
import Xv6.Param
import Xv6.Lib.Monitor
import Xv6.Lib.Ring

namespace Xv6.Console

open Lib Lib.Monitor List

/-! ## Model -/

def INPUT_BUF : ℕ := 128

/-- C(x) of console.c: the control characters -/
def ctrlP : Byte := 0x10
def ctrlU : Byte := 0x15
def ctrlH : Byte := 0x08
def ctrlD : Byte := 0x04
def del : Byte := 0x7f
def newline : Byte := 0x0a
def carriageReturn : Byte := 0x0d

/-- the struct input, with the history of its bytes -/
structure Input where
  buf : Bytes INPUT_BUF
  r : Word
  w : Word
  e : Word
  committed : List Byte
  consumed : List (List Byte × Byte)

namespace Input

/-- the bytes in [r, w) -/
def available (d : Input) : List Byte := Ring.between INPUT_BUF d.buf.get d.r d.w

/-- the bytes in [w, e) -/
def pending (d : Input) : List Byte := Ring.between INPUT_BUF d.buf.get d.w d.e

/-- input.e-- -/
def erase (d : Input) : Input := { d with e := d.e - 1#32 }

/-- input.buf[input.e++ % INPUT_BUF] = c -/
def store (d : Input) (c : Byte) : Input :=
  { d with buf := d.buf.set (d.e.toNat % INPUT_BUF) c, e := d.e + 1#32 }

/-- input.w = input.e -/
def commit (d : Input) : Input := { d with w := d.e, committed := d.committed ++ d.pending }

/-- input.buf[input.r % INPUT_BUF] -/
def front (d : Input) : Byte := d.buf.get (d.r.toNat % INPUT_BUF)

/-- input.r++ after the read of that byte, by a call that has delivered `got` -/
def take (d : Input) (got : List Byte) : Input :=
  { d with r := d.r + 1#32, consumed := d.consumed ++ [(got, d.front)] }

end Input

/-- the code points of the two functions; `keys` are the characters that getc has still to return, `got` the bytes that
consoleread has put to dst: its n is target less their number -/
inductive Point where
  /-- outside of both functions; r is what the last call returned -/
  | user (r : ℤ)
  /-- consoleintr(getc): acquire -/
  | intr (keys : List Byte)
  /-- consoleintr: head of the while loop -/
  | key (keys : List Byte)
  /-- kill line: head of the inner while loop -/
  | killLine (keys : List Byte)
  /-- consoleintr: wakeup(&input.r) -/
  | wake (keys : List Byte)
  /-- consoleintr: release -/
  | intrDone
  /-- consoleread(ip, dst, target): acquire -/
  | read (target : ℤ)
  /-- consoleread: head of the two while loops -/
  | next (target : ℤ) (got : List Byte)
  /-- consoleread: sleep(&input.r, &cons.lock) -/
  | wait (target : ℤ) (got : List Byte)
  /-- consoleread: release, return target - n -/
  | readDone (got : List Byte)
  /-- consoleread: release, return -1 -/
  | readFail

/-- the body of consoleintr's while loop for one character -/
def keystroke (c : Byte) (keys : List Byte) (d : Input) : Input × Point :=
  if c = ctrlP then (d, .key keys)
  else if c = ctrlU then (d, .killLine keys)
  else if c = ctrlH ∨ c = del then (if d.e ≠ d.w then d.erase else d, .key keys)
  else if c ≠ 0 ∧ (d.e - d.r).toNat < INPUT_BUF then
    let c := if c = carriageReturn then newline else c
    let d := d.store c
    if c = newline ∨ c = ctrlD ∨ d.e = d.r + BitVec.ofNat 32 INPUT_BUF then (d.commit, .wake keys) else (d, .key keys)
  else (d, .key keys)

/-- one pass through consoleread's loops, up to its sleep -/
def readByte (target : ℤ) (got : List Byte) (killed : Bool) (d : Input) : Input × Point :=
  if 0 < target - got.length then
    if d.r = d.w then (d, if killed then .readFail else .wait target got)
    else if d.front = ctrlD then
      -- a ^D behind other bytes of this call is put back: r++ and r-- cancel
      if target - got.length < target then (d, .readDone got) else (d.take got, .readDone got)
    else if d.front = newline then (d.take got, .readDone (got ++ [d.front]))
    else (d.take got, .next target (got ++ [d.front]))
  else (d, .readDone got)

def code : Point → Instr Input Point Unit
  | .user _ => .choose fun k => (∃ keys, k = .intr keys) ∨ ∃ target, k = .read target
  | .intr keys => .acquire (.key keys)
  | .key [] => .act fun _ d => (d, .intrDone)
  | .key (c :: keys) => .act fun _ d => keystroke c keys d
  | .killLine keys => .act fun _ d =>
    if d.e ≠ d.w ∧ d.buf.get ((d.e - 1#32).toNat % INPUT_BUF) ≠ newline then (d.erase, .killLine keys) else (d, .key keys)
  | .wake keys => .wakeup () (.key keys)
  | .intrDone => .release (.user 0)
  | .read target => .acquire (.next target [])
  | .next target got => .act (readByte target got)
  | .wait target got => .sleep () (.next target got)
  | .readDone got => .release (.user got.length)
  | .readFail => .release (.user (-1))

/-- the ring at boot: empty -/
structure Empty (d : Input) : Prop where
  w : d.w = d.r
  e : d.e = d.r
  committed : d.committed = []
  consumed : d.consumed = []

def Init (s : Cfg Input Point Unit) : Prop := Initial (fun k => k = .user 0) s ∧ Empty s.d

abbrev Reachable : Cfg Input Point Unit → Prop := Reach code (fun _ _ _ => True) Init

/-! ## The line discipline on lists -/

/-- what has been consumed, what has been committed, and what can still be erased -/
structure Line where
  consumed : List (List Byte × Byte)
  committed : List Byte
  pending : List Byte

/-- one step of the line discipline -/
inductive Line.Step : Line → Line → Prop where
  | keep (l : Line) : Step l l
  /-- a character is typed -/
  | type (l : Line) (c : Byte) : Step l { l with pending := l.pending ++ [c] }
  /-- the last pending character is erased -/
  | erase (l : Line) : Step l { l with pending := l.pending.dropLast }
  /-- a character is typed that completes the line -/
  | commit (l : Line) (c : Byte) : Step l { l with committed := l.committed ++ (l.pending ++ [c]), pending := [] }
  /-- a read that has delivered `got` takes the next committed byte, a ^D only if it has delivered nothing -/
  | consume (l : Line) (got : List Byte) (c : Byte) (hnext : l.committed[l.consumed.length]? = some c)
      (heof : c = ctrlD → got = []) : Step l { l with consumed := l.consumed ++ [(got, c)] }

/-- the line that the ring represents -/
def Input.line (d : Input) : Line := ⟨d.consumed, d.committed, d.pending⟩

/-- the indices are in order and at most INPUT_BUF apart, and [r, w) holds what is committed and not consumed -/
structure Ordered (d : Input) : Prop where
  le : Ring.ahead d.r d.w + Ring.ahead d.w d.e ≤ INPUT_BUF
  eq : d.consumed.map Prod.snd ++ d.available = d.committed
  eof : ∀ x ∈ d.consumed, x.2 = ctrlD → x.1 = []

theorem dvd_wrap : INPUT_BUF ∣ 2 ^ 32 := by decide

variable {d : Input}

theorem Ordered.ahead_re (h : Ordered d) : Ring.ahead d.r d.e = Ring.ahead d.r d.w + Ring.ahead d.w d.e :=
  Ring.ahead_add (lt_of_le_of_lt h.le (by decide))

theorem Empty.ordered (h : Empty d) : Ordered d := by
  refine ⟨?_, ?_, ?_⟩
  · rw [h.w, h.e, Ring.ahead_eq_zero.2 rfl]
    decide
  · rw [h.consumed, h.committed, Input.available, h.w, Ring.between_self]
    rfl
  · rw [h.consumed]
    nofun

theorem Ordered.erase (h : Ordered d) (hne : d.e ≠ d.w) : Ordered d.erase := by
  have hback := Ring.ahead_back (Ne.symm hne)
  exact ⟨by have := h.le; show Ring.ahead d.r d.w + Ring.ahead d.w (d.e - 1#32) ≤ _; omega, h.eq, h.eof⟩

theorem pending_erase (hne : d.e ≠ d.w) : d.erase.pending = d.pending.dropLast := by
  have hback := Ring.ahead_back (Ne.symm hne)
  show Ring.window INPUT_BUF d.buf.get d.w.toNat (Ring.ahead d.w (d.e - 1#32)) = _
  unfold Input.pending Ring.between
  rw [← hback, Ring.window_append, dropLast_append_of_ne_nil (by simp [← length_pos_iff])]
  simp [Ring.window]

/-- a character stored in a ring with room for it is pending, and moves nothing else -/
theorem store_spec (h : Ordered d) (hroom : Ring.ahead d.r d.e < INPUT_BUF) (c : Byte) :
    (d.store c).available = d.available ∧ (d.store c).pending = d.pending ++ [c] := by
  have hre := h.ahead_re
  have hstep : Ring.ahead d.w (d.e + 1#32) = Ring.ahead d.w d.e + 1 := Ring.ahead_succ (by simp only [INPUT_BUF] at *; omega)
  have hpush : Ring.between INPUT_BUF (d.store c).buf.get d.r (d.e + 1#32)
      = Ring.between INPUT_BUF d.buf.get d.r d.e ++ [c] :=
    Ring.between_push dvd_wrap (by decide) hroom (Bytes.get_set_self _ (Nat.mod_lt _ (by decide)) c)
      fun j hj => Bytes.get_set_of_ne _ hj c
  have hsplit : Ring.between INPUT_BUF d.buf.get d.r d.e = d.available ++ d.pending :=
    Ring.between_append dvd_wrap _ (lt_of_le_of_lt h.le (by decide))
  have hsplit' : Ring.between INPUT_BUF (d.store c).buf.get d.r (d.e + 1#32)
      = (d.store c).available ++ (d.store c).pending :=
    Ring.between_append dvd_wrap _ (by
      show Ring.ahead d.r d.w + Ring.ahead d.w (d.e + 1#32) < _
      simp only [INPUT_BUF] at *
      omega)
  rw [hsplit', hsplit, append_assoc] at hpush
  refine append_inj hpush ?_
  simp [Input.available, Ring.between, Input.store]

theorem Ordered.store (h : Ordered d) (hroom : Ring.ahead d.r d.e < INPUT_BUF) (c : Byte) : Ordered (d.store c) := by
  have hre := h.ahead_re
  refine ⟨?_, ?_, h.eof⟩
  · show Ring.ahead d.r d.w + Ring.ahead d.w (d.e + 1#32) ≤ _
    rw [Ring.ahead_succ (by simp only [INPUT_BUF] at *; omega)]
    omega
  · rw [(store_spec h hroom c).1]
    exact h.eq

theorem Ordered.commit (h : Ordered d) : Ordered d.commit := by
  refine ⟨?_, ?_, h.eof⟩
  · show Ring.ahead d.r d.e + Ring.ahead d.e d.e ≤ _
    rw [h.ahead_re, Ring.ahead_eq_zero.2 (rfl : d.e = d.e)]
    exact h.le
  · have hsplit : d.commit.available = d.available ++ d.pending :=
      Ring.between_append dvd_wrap _ (lt_of_le_of_lt h.le (by decide))
    rw [hsplit, ← append_assoc]
    exact congrArg (· ++ d.pending) h.eq

theorem pending_commit (d : Input) : d.commit.pending = [] := Ring.between_self _ _

theorem available_eq (hne : d.r ≠ d.w) (got : List Byte) : d.available = d.front :: (d.take got).available :=
  Ring.between_pop dvd_wrap _ hne

theorem Ordered.take (h : Ordered d) (hne : d.r ≠ d.w) {got : List Byte} (heof : d.front = ctrlD → got = []) :
    Ordered (d.take got) := by
  have hpop := Ring.ahead_pop hne
  refine ⟨?_, ?_, ?_⟩
  · show Ring.ahead (d.r + 1#32) d.w + Ring.ahead d.w d.e ≤ _
    have := h.le
    omega
  · show (d.consumed ++ [(got, d.front)]).map Prod.snd ++ (d.take got).available = d.committed
    rw [map_append, append_assoc, ← h.eq, available_eq hne got]
    rfl
  · intro x hx
    rcases mem_append.1 hx with hx | hx
    · exact h.eof x hx
    · rw [mem_singleton.1 hx]
      exact heof

theorem step_take (h : Ordered d) (hne : d.r ≠ d.w) {got : List Byte} (heof : d.front = ctrlD → got = []) :
    Line.Step d.line (d.take got).line := by
  refine .consume d.line got d.front ?_ heof
  show d.committed[d.consumed.length]? = some d.front
  rw [← h.eq, available_eq hne got, getElem?_append_right (by simp)]
  simp

/-! ## Discipline of the two functions -/

/-- cons.lock is held from its acquire to its release -/
def holds : Point → Prop
  | .user _ | .intr _ | .read _ => False
  | _ => True

/-- sleep is called with nothing to read -/
def sees : Point → Input → Prop
  | .wait _ _, d => d.r = d.w
  | _, _ => True

/-- what one access to the ring establishes -/
def Fine (d : Input) (x : Input × Point) : Prop :=
  holds x.2 ∧ Ordered x.1 ∧ sees x.2 x.1 ∧ Line.Step d.line x.1.line

theorem fine_keep (h : Ordered d) {k : Point} (hk : holds k) (hs : sees k d) : Fine d (d, k) :=
  ⟨hk, h, hs, .keep _⟩

theorem fine_erase (h : Ordered d) (hne : d.e ≠ d.w) {k : Point} (hk : holds k) (hs : sees k d.erase) : Fine d (d.erase, k) := by
  refine ⟨hk, h.erase hne, hs, ?_⟩
  have hl : d.erase.line = { d.line with pending := d.line.pending.dropLast } :=
    congrArg (Line.mk d.consumed d.committed) (pending_erase hne)
  show Line.Step d.line d.erase.line
  rw [hl]
  exact .erase _

theorem fine_keystroke (h : Ordered d) (c : Byte) (keys : List Byte) : Fine d (keystroke c keys d) := by
  unfold keystroke
  by_cases hP : c = ctrlP
  · rw [if_pos hP]
    exact fine_keep h trivial trivial
  by_cases hU : c = ctrlU
  · rw [if_neg hP, if_pos hU]
    exact fine_keep h trivial trivial
  by_cases hH : c = ctrlH ∨ c = del
  · rw [if_neg hP, if_neg hU, if_pos hH]
    by_cases hne : d.e ≠ d.w
    · rw [if_pos hne]
      exact fine_erase h hne trivial trivial
    · rw [if_neg hne]
      exact fine_keep h trivial trivial
  rw [if_neg hP, if_neg hU, if_neg hH]
  by_cases hroom : c ≠ 0 ∧ (d.e - d.r).toNat < INPUT_BUF
  · rw [if_pos hroom]
    generalize (if c = carriageReturn then newline else c) = c'
    obtain ⟨-, hpend⟩ := store_spec h hroom.2 c'
    have hst := h.store hroom.2 c'
    dsimp only
    by_cases hcommit : c' = newline ∨ c' = ctrlD ∨ (d.store c').e = (d.store c').r + BitVec.ofNat 32 INPUT_BUF
    · rw [if_pos hcommit]
      have hl : (d.store c').commit.line
          = { d.line with committed := d.line.committed ++ (d.line.pending ++ [c']), pending := [] } := by
        show Line.mk d.consumed (d.committed ++ (d.store c').pending) (d.store c').commit.pending = _
        rw [pending_commit, hpend]
        rfl
      refine ⟨trivial, hst.commit, trivial, ?_⟩
      rw [hl]
      exact .commit _ _
    · rw [if_neg hcommit]
      have hl : (d.store c').line = { d.line with pending := d.line.pending ++ [c'] } :=
        congrArg (Line.mk d.consumed d.committed) hpend
      refine ⟨trivial, hst, trivial, ?_⟩
      rw [hl]
      exact .type _ _
  · rw [if_neg hroom]
    exact fine_keep h trivial trivial

theorem fine_readByte (h : Ordered d) (target : ℤ) (got : List Byte) (killed : Bool) : Fine d (readByte target got killed d) := by
  unfold readByte
  by_cases hn : 0 < target - (got.length : ℤ)
  · rw [if_pos hn]
    by_cases hrw : d.r = d.w
    · rw [if_pos hrw]
      cases killed
      · exact fine_keep h trivial hrw
      · exact fine_keep h trivial trivial
    rw [if_neg hrw]
    by_cases heof : d.front = ctrlD
    · rw [if_pos heof]
      by_cases hlt : target - (got.length : ℤ) < target
      · rw [if_pos hlt]
        exact fine_keep h trivial trivial
      · -- the call has delivered nothing yet
        rw [if_neg hlt]
        have hgot : got = [] := length_eq_zero_iff.1 (by omega)
        exact ⟨trivial, h.take hrw fun _ => hgot, trivial, step_take h hrw fun _ => hgot⟩
    rw [if_neg heof]
    have htake := h.take hrw (fun e => absurd e heof : d.front = ctrlD → got = [])
    have hstep := step_take h hrw (fun e => absurd e heof : d.front = ctrlD → got = [])
    by_cases hnl : d.front = newline
    · rw [if_pos hnl]
      exact ⟨trivial, htake, trivial, hstep⟩
    · rw [if_neg hnl]
      exact ⟨trivial, htake, trivial, hstep⟩
  · rw [if_neg hn]
    exact fine_keep h trivial trivial

/-- every access to the ring is made under cons.lock and is a step of the line discipline -/
theorem fine_act {k : Point} {f : Bool → Input → Input × Point} (hc : code k = .act f) (killed : Bool)
    (h : Ordered d) : holds k ∧ Fine d (f killed d) := by
  cases k with
  | key keys =>
    cases keys with
    | nil =>
      cases hc
      exact ⟨trivial, fine_keep h trivial trivial⟩
    | cons c keys =>
      cases hc
      exact ⟨trivial, fine_keystroke h c keys⟩
  | killLine keys =>
    cases hc
    refine ⟨trivial, ?_⟩
    by_cases hk : d.e ≠ d.w ∧ d.buf.get ((d.e - 1#32).toNat % INPUT_BUF) ≠ newline
    · simp only [if_pos hk]
      exact fine_erase h hk.1 trivial trivial
    · simp only [if_neg hk]
      exact fine_keep h trivial trivial
  | next target got =>
    cases hc
    exact ⟨trivial, fine_readByte h target got killed⟩
  | _ => cases hc

theorem locked : Locked code (fun _ _ _ => True) holds sees Ordered where
  acquire := by
    intro k k' h
    cases k with
    | key keys => cases keys <;> cases h
    | _ => cases h <;> exact ⟨id, trivial, fun _ _ => trivial⟩
  release := by
    intro k k' h
    cases k with
    | key keys => cases keys <;> cases h
    | _ => cases h <;> exact ⟨trivial, id⟩
  act := by
    intro k f h
    cases k with
    | user | intr | wake | intrDone | read | wait | readDone | readFail => cases h
    | _ =>
      refine ⟨trivial, fun killed d _ hJ _ => ?_⟩
      obtain ⟨-, hk, hJ', hs, -⟩ := fine_act h killed hJ
      exact ⟨hk, hJ', hs⟩
  choose := by
    intro k P k' h hk
    cases k with
    | key keys => cases keys <;> cases h
    | user r =>
      cases h
      rcases hk with ⟨keys, rfl⟩ | ⟨target, rfl⟩ <;> exact ⟨Iff.rfl, fun _ _ => trivial⟩
    | _ => cases h
  wakeup := by
    intro k ch k' h
    cases k with
    | key keys => cases keys <;> cases h
    | _ => cases h <;> exact ⟨Iff.rfl, fun _ hs => hs⟩
  sleep := by
    intro k ch k' h
    cases k with
    | key keys => cases keys <;> cases h
    | _ => cases h <;> exact ⟨trivial, trivial, fun _ _ => trivial⟩

/-- after the commit consoleintr owes the readers a wakeup -/
def owes : Point → Unit → Prop
  | .wake _, _ => True
  | _, _ => False

theorem holds_of_owes (k : Point) (ch : Unit) (h : owes k ch) : holds k := by
  cases k <;> first | exact h.elim | trivial

theorem holds_of_wakeup (k : Point) (ch : Unit) (k' : Point) (h : code k = .wakeup ch k') : holds k' := by
  cases k with
  | key keys => cases keys <;> cases h
  | _ => cases h <;> trivial

/-- a character leaves the readers blocked, unless it commits the line and consoleintr goes on to the wakeup -/
theorem keystroke_blocked (c : Byte) (keys : List Byte) (h : d.r = d.w) :
    (keystroke c keys d).1.r = (keystroke c keys d).1.w ∨ owes (keystroke c keys d).2 () := by
  unfold keystroke
  dsimp only
  split_ifs
  all_goals first | exact .inl h | exact .inr trivial

theorem readByte_blocked (target : ℤ) (got : List Byte) (killed : Bool) (h : d.r = d.w) :
    (readByte target got killed d).1 = d := by
  unfold readByte
  by_cases hn : 0 < target - (got.length : ℤ)
  · rw [if_pos hn, if_pos h]
  · rw [if_neg hn]

theorem wakes : Wakes code (fun _ _ _ => True) sees Ordered (fun _ d => d.r = d.w) owes where
  acquire := by
    intro k k' ch h ho
    cases k with
    | key keys => cases keys <;> cases h
    | _ => cases h <;> exact ho.elim
  release := by
    intro k k' ch h ho
    cases k with
    | key keys => cases keys <;> cases h
    | _ => cases h <;> exact ho.elim
  act := by
    intro k f h killed d ch _ _ _ hb
    cases k with
    | key keys =>
      have hb' := hb.resolve_right id
      cases keys with
      | nil =>
        cases h
        exact .inl hb'
      | cons c keys =>
        cases h
        exact keystroke_blocked c keys hb'
    | killLine keys =>
      cases h
      have hb' := hb.resolve_right id
      by_cases hk : d.e ≠ d.w ∧ d.buf.get ((d.e - 1#32).toNat % INPUT_BUF) ≠ newline
      · simp only [if_pos hk]
        exact .inl hb'
      · simp only [if_neg hk]
        exact .inl hb'
    | next target got =>
      cases h
      have hb' := hb.resolve_right id
      left
      rw [readByte_blocked target got killed hb']
      exact hb'
    | _ => cases h
  choose := by
    intro k P k' ch h hk ho
    cases k with
    | key keys => cases keys <;> cases h
    | _ => cases h <;> exact ho.elim
  wakeup := by
    intro k ch' k' ch h ho
    cases k with
    | key keys => cases keys <;> cases h
    | _ => cases h <;> exact .inl rfl
  sleep := by
    intro k ch k' h
    cases k with
    | key keys => cases keys <;> cases h
    | _ => cases h <;> exact ⟨fun _ => id, fun _ => id, fun _ hs => hs⟩

/-! ## The console -/

theorem init_ordered (s : Cfg Input Point Unit) (h : Init s) : Initial (fun k => k = Point.user 0) s ∧ Ordered s.d :=
  ⟨h.1, h.2.ordered⟩

theorem start_free (k : Point) (h : k = .user 0) : ¬ holds k := by
  subst h
  exact id

/-- a call of consoleread begins -/
def readBegins : Point → Bool
  | .read _ => true
  | _ => false

/-- the runs, with what the last consoleread of each process has consumed -/
abbrev Reading : Cfg Input Point Unit → (ℕ → List (List Byte × Byte)) → Prop :=
  Recording code (fun _ _ _ => True) Init Input.consumed readBegins

/-- what a call of consoleread that stands at a point has consumed: the bytes it has put to dst, or a ^D alone -/
def ReadOk : Point → List (List Byte × Byte) → Prop
  | .read _, l => l = []
  | .next _ got, l => l.map Prod.snd = got
  | .wait _ got, l => l.map Prod.snd = got
  | .readDone got, l => l.map Prod.snd = got ∨ got = [] ∧ l.map Prod.snd = [ctrlD]
  | _, _ => True

theorem readByte_keeps (target : ℤ) (got : List Byte) (killed : Bool) (d : Input) {l x : List (List Byte × Byte)}
    (hl : l.map Prod.snd = got) (hx : (readByte target got killed d).1.consumed = d.consumed ++ x) :
    ReadOk (readByte target got killed d).2 (l ++ x) := by
  have hsame : d.consumed = d.consumed ++ x → (l ++ x).map Prod.snd = got := by
    intro hx
    rw [self_eq_append_right.1 hx, append_nil, hl]
  have htook : d.consumed ++ [(got, d.front)] = d.consumed ++ x → (l ++ x).map Prod.snd = got ++ [d.front] := by
    intro hx
    rw [← append_cancel_left hx, map_append, hl]
    rfl
  unfold readByte at hx ⊢
  by_cases hn : 0 < target - (got.length : ℤ)
  · rw [if_pos hn] at hx ⊢
    by_cases hrw : d.r = d.w
    · rw [if_pos hrw] at hx ⊢
      cases killed
      · exact hsame hx
      · trivial
    rw [if_neg hrw] at hx ⊢
    by_cases heof : d.front = ctrlD
    · rw [if_pos heof] at hx ⊢
      by_cases hlt : target - (got.length : ℤ) < target
      · rw [if_pos hlt] at hx ⊢
        exact .inl (hsame hx)
      · rw [if_neg hlt] at hx ⊢
        have hgot : got = [] := length_eq_zero_iff.1 (by omega)
        refine .inr ⟨hgot, ?_⟩
        rw [htook hx, hgot, heof]
        rfl
    rw [if_neg heof] at hx ⊢
    by_cases hnl : d.front = newline
    · rw [if_pos hnl] at hx ⊢
      exact .inl (htook hx)
    · rw [if_neg hnl] at hx ⊢
      exact htook hx
  · rw [if_neg hn] at hx ⊢
    exact .inl (hsame hx)

theorem readByte_begins (target : ℤ) (got : List Byte) (killed : Bool) (d : Input) :
    readBegins (readByte target got killed d).2 = false := by
  unfold readByte
  cases killed <;> split_ifs <;> rfl

theorem reads_keep : Keeps code (fun _ _ _ => True) sees Ordered Input.consumed readBegins ReadOk where
  act := by
    intro k f h killed d _ _ _
    cases k with
    | key keys =>
      cases keys with
      | nil =>
        cases h
        exact ⟨rfl, fun _ _ _ _ => trivial⟩
      | cons c keys =>
        cases h
        dsimp only [keystroke]
        split_ifs <;> exact ⟨rfl, fun _ _ _ _ => trivial⟩
    | killLine keys =>
      cases h
      dsimp only
      split_ifs <;> exact ⟨rfl, fun _ _ _ _ => trivial⟩
    | next target got =>
      cases h
      exact ⟨readByte_begins target got killed d, fun l x hl hx => readByte_keeps target got killed d hl hx⟩
    | _ => cases h
  next := by
    intro k k' l h hl
    cases k with
    | key keys => cases keys <;> exact h.elim
    | user r => rcases h with ⟨keys, rfl⟩ | ⟨target, rfl⟩ <;> trivial
    | read target =>
      cases h
      exact congrArg (map Prod.snd) hl
    | wait target got =>
      cases h
      exact hl
    | killLine | next => exact h.elim
    | _ =>
      cases h
      trivial

theorem consumed_grows {k : Point} {f : Bool → Input → Input × Point} (h : code k = .act f) (killed : Bool) (d : Input) :
    ∃ x, (f killed d).1.consumed = d.consumed ++ x := by
  cases k with
  | key keys =>
    cases keys with
    | nil =>
      cases h
      exact ⟨[], (append_nil _).symm⟩
    | cons c keys =>
      cases h
      dsimp only [keystroke]
      split_ifs <;> exact ⟨[], (append_nil _).symm⟩
  | killLine keys =>
    cases h
    dsimp only
    split_ifs <;> exact ⟨[], (append_nil _).symm⟩
  | next target got =>
    cases h
    unfold readByte
    split_ifs <;> first | exact ⟨[], (append_nil _).symm⟩ | exact ⟨[(got, d.front)], rfl⟩
  | _ => cases h

/-- **Line discipline of the console.** For any characters given to consoleintr, interleaved in any way with calls of
consoleread of any lengths by any processes, in every reachable state: w and e are at most INPUT_BUF ahead of r, in this
order; what readers consumed, followed by the bytes in [r, w), is what was committed; a ^D was consumed only by a call
that had delivered nothing; whatever step comes next, it is a step of the line discipline, so it commits, erases or
consumes only as that does; and when cons.lock is free nobody is SLEEPING on &input.r with r != w. Every run can be
recorded, and along it a consoleread that is about to return delivers the bytes that it has consumed, or it delivers
nothing and has consumed a ^D. -/
theorem console_line_discipline (s : Cfg Input Point Unit) (h : Reachable s) :
    ((s.d.w - s.d.r).toNat ≤ (s.d.e - s.d.r).toNat ∧ (s.d.e - s.d.r).toNat ≤ INPUT_BUF) ∧
    s.d.consumed.map Prod.snd ++ s.d.available = s.d.committed ∧ (∀ x ∈ s.d.consumed, x.2 = ctrlD → x.1 = []) ∧
    (∀ s', Monitor.Step code (fun _ _ _ => True) s s' → Line.Step s.d.line s'.d.line) ∧
    (s.lk = none → ∀ t, (s.pos t).SleepsOn () → s.d.r = s.d.w) ∧ (∃ took, Reading s took) ∧
    ∀ took, Reading s took → ∀ t got, s.pos t = .run (.readDone got) →
      (took t).map Prod.snd = got ∨ got = [] ∧ (took t).map Prod.snd = [ctrlD] := by
  have hinv := reach_locked locked init_ordered start_free h
  have hJ := hinv.data
  have hre : (s.d.e - s.d.r).toNat = (s.d.w - s.d.r).toNat + (s.d.e - s.d.w).toNat := hJ.ahead_re
  have hle : (s.d.w - s.d.r).toNat + (s.d.e - s.d.w).toNat ≤ INPUT_BUF := hJ.le
  refine ⟨⟨by omega, by omega⟩, hJ.eq, hJ.eof, fun s' hs => ?_, fun hlk t ht => ?_, reach_recording consumed_grows h,
    fun took htook t got hp => ?_⟩
  · cases hs with
    | act hp hc hg => exact (fine_act hc _ hJ).2.2.2.2
    | _ => exact .keep _
  · exact reach_blocked locked.sections wakes.sections holds_of_owes holds_of_wakeup init_ordered start_free h hlk ht
  · have hread := recording_keeps locked reads_keep init_ordered start_free (fun k hk => by rw [hk]; trivial) htook t
    rw [hp] at hread
    exact hread

/-- the empty ring with its indices just before their wrap -/
def boot : Cfg Input Point Unit where
  d := ⟨Bytes.zero _, BitVec.ofNat 32 (2 ^ 32 - 1), BitVec.ofNat 32 (2 ^ 32 - 1), BitVec.ofNat 32 (2 ^ 32 - 1), [], []⟩
  lk := none
  pt := none
  pos _ := .run (.user 0)
  killed _ := false

/-- a, backspace, b, return is typed, and a reader of one byte gets the b: the newline is left in [r, w) -/
theorem console_line_discipline_example : ∃ s took, Reading s took ∧ s.d.consumed = [([], 98)] ∧ s.d.available = [newline] ∧
    s.d.consumed.map Prod.snd ++ s.d.available = s.d.committed ∧ (took 1).map Prod.snd = [98] := by
  have h1 : Reachable boot := .init ⟨⟨rfl, rfl, fun _ => ⟨_, rfl, rfl⟩⟩, ⟨rfl, rfl, rfl, rfl⟩⟩
  have h2 := h1.step (.choose (t := 0) (k := .user 0) rfl rfl (.inl ⟨[97, 8, 98, 13], rfl⟩))
  have h3 := h2.step (.acquire (t := 0) (k := .intr [97, 8, 98, 13]) rfl rfl rfl)
  have h4 := h3.step (.act (t := 0) (k := .key [97, 8, 98, 13]) rfl rfl trivial)
  have h5 := h4.step (.act (t := 0) (k := .key [8, 98, 13]) rfl rfl trivial)
  have h6 := h5.step (.act (t := 0) (k := .key [98, 13]) rfl rfl trivial)
  have h7 := h6.step (.act (t := 0) (k := .key [13]) rfl rfl trivial)
  have h8 := h7.step (.wakeup (t := 0) (k := .wake []) rfl rfl rfl)
  have h9 := h8.step (.scan (t := 0) rfl)
  have h10 := h9.step (.scanned (t := 0) rfl)
  have h11 := h10.step (.act (t := 0) (k := .key []) rfl rfl trivial)
  have h12 := h11.step (.release (t := 0) (k := .intrDone) rfl rfl)
  have h13 := h12.step (.choose (t := 1) (k := .user 0) rfl rfl (.inr ⟨1, rfl⟩))
  have h14 := h13.step (.acquire (t := 1) (k := .read 1) rfl rfl rfl)
  have h15 := h14.step (.act (t := 1) (k := .next 1 []) rfl rfl trivial)
  have h16 := h15.step (.act (t := 1) (k := .next 1 [98]) rfl rfl trivial)
  obtain ⟨-, heq, -, -, -, ⟨took, htook⟩, hall⟩ := console_line_discipline _ h16
  exact ⟨_, took, htook, rfl, rfl, heq, (hall took htook 1 [98] rfl).resolve_right fun h => cons_ne_nil _ _ h.1⟩

end Xv6.Console
