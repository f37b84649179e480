/-
Pipes (pipe.c): `pipewrite`, `piperead` and `pipeclose` on one pipe by any number of processes.

The pipe is a monitor with lock p->lock and the channels &p->nread and &p->nwrite; the steps of sleep, wakeup and kill
are those of the monitor library. Between two lock operations a critical section advances byte by byte. nread and
nwrite are 32-bit counters that wrap, the ring index is the counter modulo PIPESIZE. A process in user code begins any
call, with any argument. What follows the last close (kfree) is outside the model.

Two lists record the history: `stored`, the bytes pipewrite put into the ring, and `returned`, the bytes piperead took
out of it, both in order. Code point `store` also carries whether the call stored a byte since it last took p->lock.

Results:
- `pipe_byte_stream`: in every reachable state at most PIPESIZE bytes are buffered, the bytes returned followed by the bytes
  buffered are the bytes stored, and a piperead hands to its caller exactly the bytes that it took out itself;
- `killed_writer_strands_reader`: a pipewrite that fills the ring and then finds itself killed returns -1 without a
  wakeup, and a reader sleeps on &p->nread with PIPESIZE bytes to read;
- `pipe_sleepers_blocked`: as long as no pipewrite takes that early return with a byte stored in its critical section,
  a process SLEEPING on &p->nread has an empty pipe with the write end open, and one SLEEPING on &p->nwrite a full one
  with the read end open;
- `writes_fit`: if every pipewrite finds room for its bytes, a pipewrite that fails has stored nothing and one that returns n
  has stored n bytes.
-/
import Xv6.Param
import Xv6.Lib.Monitor
import Xv6.Lib.Ring

namespace Xv6.Ipc

open Lib Lib.Monitor List

/-! ## Model -/

def PIPESIZE : ℕ := 512

/-- struct pipe, with the history of the bytes -/
structure Pipe where
  data : Bytes PIPESIZE
  nread : Word
  nwrite : Word
  readopen : Bool
  writeopen : Bool
  stored : List Byte
  returned : List Byte

namespace Pipe

/-- p->nwrite == p->nread + PIPESIZE -/
def Full (p : Pipe) : Prop := p.nwrite = p.nread + BitVec.ofNat 32 PIPESIZE

instance (p : Pipe) : Decidable p.Full := inferInstanceAs (Decidable (_ = _))

/-- p->data[p->nwrite++ % PIPESIZE] = b -/
def put (p : Pipe) (b : Byte) : Pipe :=
  { p with data := p.data.set (p.nwrite.toNat % PIPESIZE) b, nwrite := p.nwrite + 1#32, stored := p.stored ++ [b] }

/-- p->data[p->nread % PIPESIZE] -/
def front (p : Pipe) : Byte := p.data.get (p.nread.toNat % PIPESIZE)

/-- p->nread++ after the read of that byte -/
def take (p : Pipe) : Pipe := { p with nread := p.nread + 1#32, returned := p.returned ++ [p.front] }

/-- the open flag that pipeclose(p, writable) clears -/
def shut (p : Pipe) (writable : Bool) : Pipe :=
  if writable then { p with writeopen := false } else { p with readopen := false }

/-- the number of bytes in the ring -/
def count (p : Pipe) : ℕ := (p.nwrite - p.nread).toNat

/-- the bytes in the ring, oldest first -/
def buffered (p : Pipe) : List Byte := Ring.window PIPESIZE p.data.get p.nread.toNat p.count

end Pipe

/-- the two channels: the addresses of the counters -/
inductive Chan where
  | nread | nwrite
deriving DecidableEq, Repr

/-- the code points of the three functions; `store`, `wakeFull`, `waitRoom` carry the bytes that are left to write, and
`copy` the bytes read so far -/
inductive Point where
  /-- in user code; r is what the last call returned -/
  | user (r : ℤ)
  /-- pipewrite(p, addr, n): acquire -/
  | write (n : ℤ) (addr : List Byte)
  /-- pipewrite: head of the for loop -/
  | store (n : ℤ) (rest : List Byte) (dirty : Bool)
  /-- pipewrite-full: wakeup(&p->nread) -/
  | wakeFull (n : ℤ) (rest : List Byte)
  /-- pipewrite-sleep: sleep(&p->nwrite, &p->lock) -/
  | waitRoom (n : ℤ) (rest : List Byte)
  /-- pipewrite-wakeup1: wakeup(&p->nread) -/
  | wakeLast (n : ℤ)
  /-- pipewrite: release, return n -/
  | writeDone (n : ℤ)
  /-- pipewrite: release, return -1 -/
  | writeFail
  /-- piperead(p, addr, n): acquire -/
  | read (n : ℤ)
  /-- pipe-empty: test of the while loop -/
  | await (n : ℤ)
  /-- piperead-sleep: sleep(&p->nread, &p->lock) -/
  | waitData (n : ℤ)
  /-- piperead-copy: head of the for loop -/
  | copy (n : ℤ) (got : List Byte)
  /-- piperead-wakeup: wakeup(&p->nwrite) -/
  | wakeWriters (got : List Byte)
  /-- piperead: release, return i -/
  | readDone (got : List Byte)
  /-- piperead: release, return -1 -/
  | readFail
  /-- pipeclose(p, writable): acquire -/
  | close (writable : Bool)
  /-- pipeclose: clear the open flag -/
  | shut (writable : Bool)
  /-- pipeclose: wakeup of the other side -/
  | wakeClosed (writable : Bool)
  /-- pipeclose: are both ends closed? -/
  | lastClose
  /-- pipeclose: release (and kfree if this was the last close) -/
  | closeDone (last : Bool)

/-- the calls a process can begin; addr holds the n bytes that the loop of pipewrite reads -/
def Call (k : Point) : Prop :=
  (∃ n addr, addr.length = n.toNat ∧ k = .write n addr) ∨ (∃ n, k = .read n) ∨ ∃ writable, k = .close writable

def code : Point → Instr Pipe Point Chan
  | .user _ => .choose Call
  | .write n addr => .acquire (.store n addr false)
  | .store n rest _ => .act fun killed p =>
    match rest with
    | [] => (p, .wakeLast n)
    | b :: rest' =>
      if p.Full then (p, if p.readopen = false ∨ killed then .writeFail else .wakeFull n rest)
      else (p.put b, .store n rest' true)
  | .wakeFull n rest => .wakeup .nread (.waitRoom n rest)
  | .waitRoom n rest => .sleep .nwrite (.store n rest false)
  | .wakeLast n => .wakeup .nread (.writeDone n)
  | .writeDone n => .release (.user n)
  | .writeFail => .release (.user (-1))
  | .read n => .acquire (.await n)
  | .await n => .act fun killed p =>
    (p, if p.nread = p.nwrite ∧ p.writeopen then if killed then .readFail else .waitData n else .copy n [])
  | .waitData n => .sleep .nread (.await n)
  | .copy n got => .act fun _ p =>
    if got.length < n then
      if p.nread = p.nwrite then (p, .wakeWriters got) else (p.take, .copy n (got ++ [p.front]))
    else (p, .wakeWriters got)
  | .wakeWriters got => .wakeup .nwrite (.readDone got)
  | .readDone got => .release (.user got.length)
  | .readFail => .release (.user (-1))
  | .close writable => .acquire (.shut writable)
  | .shut writable => .act fun _ p => (p.shut writable, .wakeClosed writable)
  | .wakeClosed writable => .wakeup (if writable then .nread else .nwrite) .lastClose
  | .lastClose => .act fun _ p => (p, .closeDone (p.readopen = false ∧ p.writeopen = false))
  | .closeDone _ => .release (.user 0)

/-- the pipe that pipealloc returns: empty, both ends open; its page holds arbitrary bytes -/
structure Fresh (p : Pipe) : Prop where
  nread : p.nread = 0
  nwrite : p.nwrite = 0
  readopen : p.readopen = true
  writeopen : p.writeopen = true
  stored : p.stored = []
  returned : p.returned = []

def Init (s : Cfg Pipe Point Chan) : Prop := Initial (fun k => k = .user 0) s ∧ Fresh s.d

/-- the states reached when the steps of the loops satisfy the guard -/
abbrev Reachable (guard : Point → Bool → Pipe → Prop) : Cfg Pipe Point Chan → Prop := Reach code guard Init

/-! ## The byte stream -/

/-- the ring holds what was stored and not yet returned -/
structure Stream (p : Pipe) : Prop where
  le : p.count ≤ PIPESIZE
  eq : p.returned ++ p.buffered = p.stored

variable {p : Pipe} {s : Cfg Pipe Point Chan} {sent : ℕ → List Byte}

theorem Fresh.stream (h : Fresh p) : Stream p := by
  have hc : p.count = 0 := by simp [Pipe.count, h.nread, h.nwrite]
  exact ⟨by omega, by simp [Pipe.buffered, hc, Ring.window, h.stored, h.returned]⟩

/-- the write counter is the read counter advanced by the bytes in the ring, also over a wrap -/
theorem nwrite_eq (p : Pipe) : p.nwrite = p.nread + BitVec.ofNat 32 p.count := Ring.eq_add_ahead p.nread p.nwrite

theorem full_iff (h : p.count ≤ PIPESIZE) : p.Full ↔ p.count = PIPESIZE := by
  unfold Pipe.Full
  rw [nwrite_eq p, add_right_inj, ← BitVec.toNat_inj, BitVec.toNat_ofNat, BitVec.toNat_ofNat]
  simp only [PIPESIZE] at h ⊢
  omega

theorem count_eq_zero_iff : p.count = 0 ↔ p.nread = p.nwrite := Ring.ahead_eq_zero

theorem count_put (h : p.count < PIPESIZE) (b : Byte) : (p.put b).count = p.count + 1 := by
  have hlt : p.count + 1 < 2 ^ 32 := by
    simp only [PIPESIZE] at h
    omega
  exact Ring.ahead_succ hlt

theorem count_take (h : p.nread ≠ p.nwrite) : p.take.count + 1 = p.count := Ring.ahead_pop h

/-- storing a byte in a ring that is not full appends it to the buffered bytes -/
theorem buffered_put (h : p.count < PIPESIZE) (b : Byte) : (p.put b).buffered = p.buffered ++ [b] :=
  Ring.between_push (by decide) (by decide) h (Bytes.get_set_self _ (Nat.mod_lt _ (by decide)) b)
    fun _ hj => Bytes.get_set_of_ne _ hj b

theorem buffered_take (h : p.nread ≠ p.nwrite) : p.buffered = p.front :: p.take.buffered :=
  Ring.between_pop (by decide) _ h

theorem Stream.put (h : Stream p) (hf : ¬ p.Full) (b : Byte) : Stream (p.put b) := by
  have hlt : p.count < PIPESIZE := lt_of_le_of_ne h.le fun e => hf ((full_iff h.le).2 e)
  refine ⟨by rw [count_put hlt]; exact hlt, ?_⟩
  rw [buffered_put hlt]
  show p.returned ++ (p.buffered ++ [b]) = p.stored ++ [b]
  rw [← append_assoc, h.eq]

theorem Stream.take (h : Stream p) (hne : p.nread ≠ p.nwrite) : Stream p.take := by
  refine ⟨by have := count_take hne; have := h.le; omega, ?_⟩
  show p.returned ++ [p.front] ++ p.take.buffered = p.stored
  rw [append_assoc, singleton_append, ← buffered_take hne, h.eq]

theorem Stream.shut (h : Stream p) (writable : Bool) : Stream (p.shut writable) := by
  cases writable <;> exact ⟨h.le, h.eq⟩

/-! ## Discipline of the three functions -/

/-- p->lock is held from its acquire to its release -/
def holds : Point → Prop
  | .user _ | .write _ _ | .read _ | .close _ => False
  | _ => True

/-- a channel is blocked while its sleepers could not proceed -/
def blocked : Chan → Pipe → Prop
  | .nread, p => p.nread = p.nwrite ∧ p.writeopen = true
  | .nwrite, p => p.Full ∧ p.readopen = true

/-- sleep is called with its channel blocked -/
def sees : Point → Pipe → Prop
  | .wakeFull _ _, p => blocked .nwrite p
  | .waitRoom _ _, p => blocked .nwrite p
  | .waitData _, p => blocked .nread p
  | _, _ => True

theorem locked (guard : Point → Bool → Pipe → Prop) : Locked code guard holds sees Stream where
  acquire := by
    intro k k' h
    cases k <;> cases h <;> exact ⟨id, trivial, fun _ _ => trivial⟩
  release := by
    intro k k' h
    cases k <;> cases h <;> exact ⟨trivial, id⟩
  act := by
    intro k f h
    cases k with
    | store n rest dirty =>
      cases h
      refine ⟨trivial, fun killed p _ hJ _ => ?_⟩
      cases rest with
      | nil => exact ⟨trivial, hJ, trivial⟩
      | cons b rest =>
        by_cases hf : p.Full
        · by_cases hr : p.readopen = false ∨ killed = true
          · simp only [if_pos hf, if_pos hr]
            exact ⟨trivial, hJ, trivial⟩
          · simp only [if_pos hf, if_neg hr]
            exact ⟨trivial, hJ, hf, by simpa using fun e => hr (.inl e)⟩
        · simp only [if_neg hf]
          exact ⟨trivial, hJ.put hf b, trivial⟩
    | await n =>
      cases h
      refine ⟨trivial, fun killed p _ hJ _ => ?_⟩
      by_cases he : p.nread = p.nwrite ∧ p.writeopen = true
      · cases killed
        · simp only [if_pos he, Bool.false_eq_true, if_false]
          exact ⟨trivial, hJ, he⟩
        · simp only [if_pos he, if_true]
          exact ⟨trivial, hJ, trivial⟩
      · simp only [if_neg he]
        exact ⟨trivial, hJ, trivial⟩
    | copy n got =>
      cases h
      refine ⟨trivial, fun killed p _ hJ _ => ?_⟩
      by_cases hn : (got.length : ℤ) < n
      · by_cases he : p.nread = p.nwrite
        · simp only [if_pos hn, if_pos he]
          exact ⟨trivial, hJ, trivial⟩
        · simp only [if_pos hn, if_neg he]
          exact ⟨trivial, hJ.take he, trivial⟩
      · simp only [if_neg hn]
        exact ⟨trivial, hJ, trivial⟩
    | shut writable =>
      cases h
      exact ⟨trivial, fun _ p _ hJ _ => ⟨trivial, hJ.shut writable, trivial⟩⟩
    | lastClose =>
      cases h
      exact ⟨trivial, fun _ p _ hJ _ => ⟨trivial, hJ, trivial⟩⟩
    | _ => cases h
  choose := by
    intro k P k' h hk
    cases k <;> cases h
    rcases hk with ⟨n, addr, -, rfl⟩ | ⟨n, rfl⟩ | ⟨w, rfl⟩ <;> exact ⟨Iff.rfl, fun _ _ => trivial⟩
  wakeup := by
    intro k ch k' h
    cases k <;> cases h <;> exact ⟨Iff.rfl, fun _ hs => hs⟩
  sleep := by
    intro k ch k' h
    cases k <;> cases h <;> exact ⟨trivial, trivial, fun _ _ => trivial⟩

theorem init_stream (s : Cfg Pipe Point Chan) (h : Init s) : Initial (fun k => k = Point.user 0) s ∧ Stream s.d :=
  ⟨h.1, h.2.stream⟩

theorem start_free (k : Point) (h : k = .user 0) : ¬ holds k := by
  subst h
  exact id

theorem reach_stream {guard : Point → Bool → Pipe → Prop} (h : Reachable guard s) : Stream s.d :=
  (reach_locked (locked guard) init_stream start_free h).data

/-- a call of piperead begins -/
def readBegins : Point → Bool
  | .read _ => true
  | _ => false

/-- the runs, with the bytes that the last piperead of each process has taken out of the ring -/
abbrev Reading : Cfg Pipe Point Chan → (ℕ → List Byte) → Prop :=
  Recording code (fun _ _ _ => True) Init Pipe.returned readBegins

/-- what a call of piperead that stands at a point has taken out -/
def ReadOk : Point → List Byte → Prop
  | .read _, l => l = []
  | .await _, l => l = []
  | .waitData _, l => l = []
  | .copy _ got, l => l = got
  | .wakeWriters got, l => l = got
  | .readDone got, l => l = got
  | .readFail, l => l = []
  | _, _ => True

theorem ReadOk.same {l x r : List Byte} {k : Point} (h : ReadOk k l) (hx : r = r ++ x) : ReadOk k (l ++ x) := by
  rwa [self_eq_append_right.1 hx, append_nil]

theorem reads_keep : Keeps code (fun _ _ _ => True) sees Stream Pipe.returned readBegins ReadOk where
  act := by
    intro k f h killed p _ _ _
    cases k with
    | store n rest dirty =>
      cases h
      cases rest with
      | nil => exact ⟨rfl, fun _ _ _ _ => trivial⟩
      | cons b rest =>
        dsimp only
        split_ifs <;> exact ⟨rfl, fun _ _ _ _ => trivial⟩
    | await n =>
      cases h
      dsimp only
      split_ifs <;> exact ⟨rfl, fun l x hl hx => ReadOk.same hl hx⟩
    | copy n got =>
      cases h
      dsimp only
      by_cases hn : (got.length : ℤ) < n
      · by_cases he : p.nread = p.nwrite
        · rw [if_pos hn, if_pos he]
          exact ⟨rfl, fun l x hl hx => ReadOk.same (k := .wakeWriters got) hl hx⟩
        · rw [if_pos hn, if_neg he]
          refine ⟨rfl, fun l x hl hx => ?_⟩
          rw [← append_cancel_left hx]
          exact congrArg (· ++ [p.front]) hl
      · rw [if_neg hn]
        exact ⟨rfl, fun l x hl hx => ReadOk.same (k := .wakeWriters got) hl hx⟩
    | shut writable | lastClose =>
      cases h
      exact ⟨rfl, fun _ _ _ _ => trivial⟩
    | _ => cases h
  next := by
    intro k k' l h hl
    cases k with
    | user r => rcases h with ⟨n, addr, -, rfl⟩ | ⟨n, rfl⟩ | ⟨w, rfl⟩ <;> trivial
    | read n | waitData n | wakeWriters got =>
      cases h
      exact hl
    | store | await | copy | shut | lastClose => exact h.elim
    | _ =>
      cases h
      trivial

theorem history_grows {k : Point} {f : Bool → Pipe → Pipe × Point} (h : code k = .act f) (killed : Bool) (p : Pipe) :
    (∃ x, (f killed p).1.stored = p.stored ++ x) ∧ ∃ x, (f killed p).1.returned = p.returned ++ x := by
  have hsame : ∀ l : List Byte, ∃ x, l = l ++ x := fun _ => ⟨[], (append_nil _).symm⟩
  cases k with
  | store n rest dirty =>
    cases h
    cases rest with
    | nil => exact ⟨hsame _, hsame _⟩
    | cons b rest =>
      dsimp only
      split_ifs
      · exact ⟨hsame _, hsame _⟩
      · exact ⟨hsame _, hsame _⟩
      · exact ⟨⟨[b], rfl⟩, hsame _⟩
  | copy n got =>
    cases h
    dsimp only
    split_ifs
    · exact ⟨hsame _, hsame _⟩
    · exact ⟨hsame _, ⟨[p.front], rfl⟩⟩
    · exact ⟨hsame _, hsame _⟩
  | shut writable =>
    cases h
    cases writable <;> exact ⟨hsame _, hsame _⟩
  | await n | lastClose =>
    cases h
    exact ⟨hsame _, hsame _⟩
  | _ => cases h

theorem returned_grows {k : Point} {f : Bool → Pipe → Pipe × Point} (h : code k = .act f) (killed : Bool) (p : Pipe) :
    ∃ x, (f killed p).1.returned = p.returned ++ x := (history_grows h killed p).2

theorem stored_grows {k : Point} {f : Bool → Pipe → Pipe × Point} (h : code k = .act f) (killed : Bool) (p : Pipe) :
    ∃ x, (f killed p).1.stored = p.stored ++ x := (history_grows h killed p).1

/-- **The pipe is a byte stream.** For any number of processes and any interleaving, in every reachable state: at most
PIPESIZE bytes lie between the two counters, and the bytes returned by piperead, followed by those in the ring, are the
bytes stored by pipewrite, in order. Every run can be recorded, and along it a piperead that is about to return hands over
exactly the bytes that it has added to the bytes returned; one that is about to fail has added none. -/
theorem pipe_byte_stream (s : Cfg Pipe Point Chan) (h : Reachable (fun _ _ _ => True) s) :
    (s.d.nwrite - s.d.nread).toNat ≤ PIPESIZE ∧ s.d.returned ++ s.d.buffered = s.d.stored ∧ (∃ took, Reading s took) ∧
      ∀ took, Reading s took → ∀ t, (∀ got, s.pos t = .run (.readDone got) → took t = got) ∧
        (s.pos t = .run .readFail → took t = []) := by
  have hinv := reach_stream h
  refine ⟨hinv.le, hinv.eq, reach_recording returned_grows h, fun took htook t => ?_⟩
  have hread := recording_keeps (locked _) reads_keep init_stream start_free (fun k hk => by rw [hk]; trivial) htook t
  refine ⟨fun got hp => ?_, fun hp => ?_⟩
  · rw [hp] at hread
    exact hread
  · rw [hp] at hread
    exact hread

/-- the pipe of a fresh page, all processes in user code -/
def boot : Cfg Pipe Point Chan where
  d := ⟨Bytes.zero _, 0, 0, true, true, [], []⟩
  lk := none
  pt := none
  pos _ := .run (.user 0)
  killed _ := false

theorem boot_init : Init boot := ⟨⟨rfl, rfl, fun _ => ⟨_, rfl, rfl⟩⟩, ⟨rfl, rfl, rfl, rfl, rfl, rfl⟩⟩

/-- process 0 writes two bytes, process 1 reads the first and is about to return it: the other one is buffered -/
theorem pipe_byte_stream_example : ∃ s took, Reading s took ∧ s.d.returned = [7] ∧ s.d.buffered = [9] ∧
    s.d.returned ++ s.d.buffered = s.d.stored ∧ took 1 = [7] := by
  have h1 : Reachable (fun _ _ _ => True) boot := .init boot_init
  have h2 := h1.step (.choose (t := 0) (k := .user 0) rfl rfl (.inl ⟨2, [7, 9], rfl, rfl⟩))
  have h3 := h2.step (.acquire (t := 0) (k := .write 2 [7, 9]) rfl rfl rfl)
  have h4 := h3.step (.act (t := 0) (k := .store 2 [7, 9] false) rfl rfl trivial)
  have h5 := h4.step (.act (t := 0) (k := .store 2 [9] true) rfl rfl trivial)
  have h6 := h5.step (.act (t := 0) (k := .store 2 [] true) rfl rfl trivial)
  have h7 := h6.step (.wakeup (t := 0) (k := .wakeLast 2) rfl rfl rfl)
  have h8 := h7.step (.scan (t := 0) rfl)
  have h9 := h8.step (.scanned (t := 0) rfl)
  have h10 := h9.step (.release (t := 0) (k := .writeDone 2) rfl rfl)
  have h11 := h10.step (.choose (t := 1) (k := .user 0) rfl rfl (.inr (.inl ⟨1, rfl⟩)))
  have h12 := h11.step (.acquire (t := 1) (k := .read 1) rfl rfl rfl)
  have h13 := h12.step (.act (t := 1) (k := .await 1) rfl rfl trivial)
  have h14 := h13.step (.act (t := 1) (k := .copy 1 []) rfl rfl trivial)
  have h15 := h14.step (.act (t := 1) (k := .copy 1 [7]) rfl rfl trivial)
  have h16 := h15.step (.wakeup (t := 1) (k := .wakeWriters [7]) rfl rfl rfl)
  have h17 := h16.step (.scan (t := 1) rfl)
  have h18 := h17.step (.scanned (t := 1) rfl)
  obtain ⟨-, heq, ⟨took, htook⟩, hall⟩ := pipe_byte_stream _ h18
  exact ⟨_, took, htook, rfl, rfl, heq, (hall took htook 1).1 [7] rfl⟩

/-! ## Sleepers -/

/-- the channel on which a code point still owes a wakeup: from the change of the pipe on that unblocks it -/
def owes : Point → Chan → Prop
  | .store _ _ dirty, ch => dirty = true ∧ ch = .nread
  | .wakeFull _ _, ch => ch = .nread
  | .wakeLast _, ch => ch = .nread
  | .copy _ got, ch => got ≠ [] ∧ ch = .nwrite
  | .wakeWriters _, ch => ch = .nwrite
  | .wakeClosed writable, ch => ch = if writable then .nread else .nwrite
  | _, _ => False

/-- pipewrite takes its early return only if it stored nothing since it last took p->lock -/
def CleanReturn : Point → Bool → Pipe → Prop
  | .store _ rest dirty, killed, p =>
    rest ≠ [] → p.Full → p.readopen = false ∨ killed = true → dirty = false
  | _, _, _ => True

theorem wakes : Wakes code CleanReturn sees Stream blocked owes where
  acquire := by
    intro k k' ch h ho
    cases k <;> cases h <;> exact ho.elim
  release := by
    intro k k' ch h ho
    cases k <;> cases h <;> exact ho.elim
  act := by
    intro k f h killed p ch hg _ _ hb
    cases k with
    | store n rest dirty =>
      cases h
      cases rest with
      | nil =>
        rcases hb with hb | ⟨-, rfl⟩
        · exact .inl hb
        · exact .inr rfl
      | cons b rest =>
        by_cases hf : p.Full
        · by_cases hr : p.readopen = false ∨ killed = true
          · -- the early return drops what the call owes: nothing, since its section stored no byte
            simp only [if_pos hf, if_pos hr]
            have hclean : dirty = false := hg (cons_ne_nil _ _) hf hr
            rcases hb with hb | ⟨hd, -⟩
            · exact .inl hb
            · rw [hclean] at hd
              cases hd
          · simp only [if_pos hf, if_neg hr]
            rcases hb with hb | ⟨-, rfl⟩
            · exact .inl hb
            · exact .inr rfl
        · -- a stored byte: the readers are owed a wakeup, and no writer was blocked
          simp only [if_neg hf]
          cases ch with
          | nread => exact .inr ⟨rfl, rfl⟩
          | nwrite =>
            rcases hb with hb | ⟨-, hch⟩
            · exact absurd hb.1 hf
            · cases hch
    | await n | lastClose =>
      cases h
      exact .inl (hb.resolve_right id)
    | copy n got =>
      cases h
      by_cases hn : (got.length : ℤ) < n
      · by_cases he : p.nread = p.nwrite
        · simp only [if_pos hn, if_pos he]
          exact hb.imp_right And.right
        · -- a byte taken: the writers are owed a wakeup, and no reader was blocked
          simp only [if_pos hn, if_neg he]
          cases ch with
          | nread =>
            rcases hb with hb | ⟨-, hch⟩
            · exact absurd hb.1 he
            · cases hch
          | nwrite => exact .inr ⟨by simp, rfl⟩
      · simp only [if_neg hn]
        exact hb.imp_right And.right
    | shut writable =>
      cases h
      have hb' := hb.resolve_right id
      cases writable <;> cases ch
      · exact .inl hb'
      · exact .inr rfl
      · exact .inr rfl
      · exact .inl hb'
    | _ => cases h
  choose := by
    intro k P k' ch h _ ho
    cases k <;> cases h
    exact ho.elim
  wakeup := by
    intro k ch' k' ch h ho
    cases k <;> cases h <;> exact .inl ho.symm
  sleep := by
    intro k ch k' h
    cases k with
    | waitRoom n rest =>
      cases h
      exact ⟨fun _ ho => ho, fun _ ho => Bool.noConfusion ho.1, fun _ hs => hs⟩
    | waitData n =>
      cases h
      exact ⟨fun _ ho => ho, fun _ ho => ho, fun _ hs => hs⟩
    | _ => cases h

theorem holds_of_owes {k : Point} {ch : Chan} (h : owes k ch) : holds k := by
  cases k <;> trivial

theorem holds_of_wakeup (k : Point) (ch : Chan) (k' : Point) (h : code k = .wakeup ch k') : holds k' := by
  cases k <;> cases h <;> trivial

/-- **No pipe party sleeps while it could proceed.** For any number of processes, some killed at any time, in every run
in which no pipewrite takes its early return with a byte stored in the same critical section: when p->lock is free, a
process SLEEPING on &p->nread finds the pipe empty and the write end open, and a process SLEEPING on &p->nwrite finds it
full and the read end open. -/
theorem pipe_sleepers_blocked (s : Cfg Pipe Point Chan) (h : Reachable CleanReturn s) (hlk : s.lk = none)
    (t : ℕ) : ((s.pos t).SleepsOn .nread → s.d.nread = s.d.nwrite ∧ s.d.writeopen = true) ∧
    ((s.pos t).SleepsOn .nwrite → s.d.nwrite = s.d.nread + BitVec.ofNat 32 PIPESIZE ∧ s.d.readopen = true) := by
  have key : ∀ ch, (s.pos t).SleepsOn ch → blocked ch s.d := fun _ hsleep =>
    reach_blocked (locked _).sections wakes.sections (fun _ _ => holds_of_owes) holds_of_wakeup init_stream start_free h hlk hsleep
  exact ⟨key .nread, key .nwrite⟩

theorem reader_sleeps (guard : Point → Bool → Pipe → Prop) (hg : ∀ n killed p, guard (.await n) killed p) :
    Reachable guard { boot with pos := update boot.pos 0 (.asleep .nread (.await 1)) } := by
  have h1 : Reachable guard boot := .init boot_init
  have h2 := h1.step (.choose (t := 0) (k := .user 0) rfl rfl (.inr (.inl ⟨1, rfl⟩)))
  have h3 := h2.step (.acquire (t := 0) (k := .read 1) rfl rfl rfl)
  have h4 := h3.step (.act (t := 0) (k := .await 1) rfl rfl (hg _ _ _))
  have h5 := h4.step (.sleep (t := 0) (k := .waitData 1) rfl rfl rfl)
  have h6 := h5.step (.unlock (t := 0) rfl)
  have h7 := h6.step (.mark (t := 0) rfl)
  have h8 := h7.step (.switch (t := 0) rfl)
  simp only [update_idem] at h8
  exact h8

theorem pipe_sleepers_blocked_example : ∃ s, Reachable CleanReturn s ∧ (s.pos 0).SleepsOn .nread ∧
    s.d.nread = s.d.nwrite ∧ s.d.writeopen = true := by
  have h := reader_sleeps CleanReturn fun _ _ _ => trivial
  have hsleep : (update boot.pos 0 (.asleep .nread (.await 1)) 0).SleepsOn Chan.nread := rfl
  exact ⟨_, h, hsleep, (pipe_sleepers_blocked _ h rfl 0).1 hsleep⟩

/-! ## A writer that is killed -/

/-- a call of pipewrite begins -/
def writeBegins : Point → Bool
  | .write _ _ => true
  | _ => false

/-- the runs, with the bytes that the last pipewrite of each process has stored -/
abbrev Writing (guard : Point → Bool → Pipe → Prop) : Cfg Pipe Point Chan → (ℕ → List Byte) → Prop :=
  Recording code guard Init Pipe.stored writeBegins

section Killed

variable {init : Cfg Pipe Point Chan → Prop} {own : ℕ → List Byte} {t : ℕ} {n : ℤ} {addr : List Byte}

/-- a writer with room for them stores its next bytes, one step each -/
theorem writing_stores (h : Recording code (fun _ _ _ => True) init Pipe.stored writeBegins s own) (l rest : List Byte)
    (dirty : Bool) (hp : s.pos t = .run (.store n (l ++ rest) dirty)) (hst : Stream s.d)
    (hroom : s.d.count + l.length ≤ PIPESIZE) : ∃ s' dirty',
      Recording code (fun _ _ _ => True) init Pipe.stored writeBegins s' (update own t (own t ++ l)) ∧
      s'.pos = update s.pos t (.run (.store n rest dirty')) ∧ s'.pt = s.pt ∧ Stream s'.d ∧
      s'.d.count = s.d.count + l.length := by
  induction l generalizing s own dirty with
  | nil =>
    refine ⟨s, dirty, ?_, by rw [nil_append] at hp; rw [← hp, update_eq_self], rfl, hst, rfl⟩
    rwa [append_nil, update_eq_self]
  | cons b l ih =>
    simp only [length_cons] at hroom
    have hlt : s.d.count < PIPESIZE := by omega
    have hf : ¬ s.d.Full := fun e => by have := (full_iff hst.le).1 e; omega
    have hstep := Recording.act (x := [b]) h hp rfl trivial (by simp only [cons_append, if_neg hf]; rfl)
    simp only [cons_append, if_neg hf] at hstep
    obtain ⟨s', dirty', hr, hpos, hpt, hst', hc⟩ := ih hstep true (update_self ..) (hst.put hf b)
      (by rw [count_put hlt]; omega)
    refine ⟨s', dirty', ?_, ?_, hpt, hst', ?_⟩
    · rw [update_self, update_idem, append_assoc] at hr
      exact hr
    · rw [hpos, update_idem]
    · rw [hc, count_put hlt, length_cons]
      omega

/-- A pipewrite of more bytes than there is room for fills the pipe, finds its process killed and fails. -/
theorem killed_write_fills (h : Recording code (fun _ _ _ => True) init Pipe.stored writeBegins s own)
    (hp : s.pos t = .run (.write n addr)) (hlk : s.lk = none) (hpt : s.pt = none) (hst : Stream s.d)
    (hroom : PIPESIZE - s.d.count < addr.length) : ∃ s' own',
      Recording code (fun _ _ _ => True) init Pipe.stored writeBegins s' own' ∧ s'.pos t = .run .writeFail ∧ s'.pt = none ∧
      (∀ u, u ≠ t → s'.pos u = s.pos u) ∧ s'.d.count = PIPESIZE ∧ addr.take (PIPESIZE - s.d.count) <:+ own' t := by
  have hle : s.d.count ≤ PIPESIZE := hst.le
  obtain ⟨b, rest, hrest⟩ : ∃ b rest, addr.drop (PIPESIZE - s.d.count) = b :: rest :=
    exists_cons_of_length_pos (by rw [length_drop]; omega)
  have haddr : addr = addr.take (PIPESIZE - s.d.count) ++ b :: rest := by rw [← hrest, take_append_drop]
  have h2 := h.move (.acquire hp rfl hlk) rfl
  obtain ⟨s', dirty, h3, hpos, hpt', hst', hc⟩ := writing_stores (t := t) (n := n) h2 (addr.take (PIPESIZE - s.d.count))
    (b :: rest) false (by simp only [update_self, ← haddr]) hst (by rw [length_take]; dsimp only; omega)
  have hcount : s'.d.count = PIPESIZE := by
    rw [hc, length_take]
    dsimp only
    omega
  have hfull : s'.d.Full := (full_iff hst'.le).2 hcount
  have hp' : s'.pos t = .run (.store n (b :: rest) dirty) := by rw [hpos, update_self]
  -- the kill comes while the writer holds p->lock, so it wakes nobody
  have h4 := h3.move (.kill t (hpt'.trans hpt)) rfl
  have h5 := h4.move (.act (t := t) (k := .store n (b :: rest) dirty) (by simp [hp', Pos.roused]) rfl trivial)
    (by simp only [if_pos hfull, update_self, or_true, if_true])
  simp only [if_pos hfull, update_self, or_true, if_true] at h5
  refine ⟨_, _, h5, update_self .., hpt'.trans hpt, fun u hu => by simp [hu, hpos], hcount, ?_⟩
  simp [hp', Pos.roused, Pos.point, writeBegins]

end Killed

theorem big_write : (List.replicate 513 (0 : Byte)).length = (513 : ℤ).toNat := length_replicate

/-- Process 1 writes 513 bytes to the empty pipe, fills it, finds itself killed and returns -1. -/
theorem reach_killed_write (h : Reachable (fun _ _ _ => True) s) (hp : s.pos 1 = .run (.user 0))
    (hlk : s.lk = none) (hpt : s.pt = none) (hd : s.d.count = 0) : ∃ s', Reachable (fun _ _ _ => True) s' ∧ s'.lk = none ∧
      s'.pt = none ∧ s'.pos 1 = .run (.user (-1)) ∧ (∀ t, t ≠ 1 → s'.pos t = s.pos t) ∧ s'.d.count = PIPESIZE := by
  have hbegun := h.step (.choose (t := 1) hp rfl (.inl ⟨513, _, big_write, rfl⟩))
  obtain ⟨own, hrec⟩ := reach_recording stored_grows hbegun
  have hroom : PIPESIZE - s.d.count < (List.replicate 513 (0 : Byte)).length := by
    rw [hd, length_replicate]
    decide
  obtain ⟨s', own', hs', hfail, hpt', hpos, hcount, -⟩ := killed_write_fills (t := 1) (n := 513) hrec (by simp only [update_self])
    hlk hpt (reach_stream hbegun) hroom
  refine ⟨_, hs'.reach.step (.release hfail rfl), rfl, hpt', by simp only [update_self], fun t ht => ?_, hcount⟩
  have hpos := hpos t ht
  simp only [update_of_ne ht] at hpos ⊢
  exact hpos

/-- **A killed writer strands a reader.** Process 0 sleeps on &p->nread of the empty pipe; process 1 writes more than
PIPESIZE bytes, fills the ring, finds itself killed and returns -1 without a wakeup. Both locks are free, the ring is
full, and the reader is still SLEEPING. -/
theorem killed_writer_strands_reader : ∃ s, Reachable (fun _ _ _ => True) s ∧ s.lk = none ∧ s.pt = none ∧
    (s.pos 0).SleepsOn .nread ∧ s.pos 1 = .run (.user (-1)) ∧ s.d.nread ≠ s.d.nwrite := by
  obtain ⟨s, hr, hlk, hpt, hp1, hpos, hcount⟩ :=
    reach_killed_write (reader_sleeps (fun _ _ _ => True) fun _ _ _ => trivial) rfl rfl rfl rfl
  refine ⟨s, hr, hlk, hpt, ?_, hp1, fun e => ?_⟩
  · rw [hpos 0 zero_ne_one]
    rfl
  · rw [count_eq_zero_iff.2 e] at hcount
    cases hcount

/-! ## What a call has stored -/

/-- a pipewrite that has p->lock and has stored nothing finds room for all bytes, or has one byte only, or fails at once -/
def Fits : Point → Bool → Pipe → Prop
  | .store _ rest false, killed, p =>
    rest.length ≤ max (PIPESIZE - p.count) 1 ∨ p.Full ∧ (p.readopen = false ∨ killed = true)
  | _, _, _ => True

/-- what the call of a process that stands at a point has stored -/
def SentOk : Point → List Byte → Prop
  | .write n addr, l => l = [] ∧ addr.length = n.toNat
  | .store n rest dirty, l => l.length + rest.length = n.toNat ∧ (dirty = false → l = [])
  | .wakeFull n rest, l => l = [] ∧ rest.length = n.toNat
  | .waitRoom n rest, l => l = [] ∧ rest.length = n.toNat
  | .wakeLast n, l => l.length = n.toNat
  | .writeDone n, l => l.length = n.toNat
  | .writeFail, l => l = []
  | _, _ => True

/-- a pipewrite that has begun to store has room for the rest -/
def seesRoom : Point → Pipe → Prop
  | .store _ rest true, p => p.count + rest.length ≤ PIPESIZE
  | _, _ => True

theorem fits_locked : Locked code Fits holds seesRoom Stream where
  acquire := by
    intro k k' h
    cases k <;> cases h <;> exact ⟨id, trivial, fun _ _ => trivial⟩
  release := (locked Fits).release
  act := by
    intro k f h
    refine ⟨((locked Fits).act h).1, fun killed p hg hJ hs => ?_⟩
    cases k with
    | store n rest dirty =>
      cases h
      cases rest with
      | nil => exact ⟨trivial, hJ, trivial⟩
      | cons b rest =>
        by_cases hf : p.Full
        · simp only [if_pos hf]
          split_ifs <;> exact ⟨trivial, hJ, trivial⟩
        · simp only [if_neg hf]
          have hlt : p.count < PIPESIZE := lt_of_le_of_ne hJ.le fun e => hf ((full_iff hJ.le).2 e)
          refine ⟨trivial, hJ.put hf b, ?_⟩
          show (p.put b).count + rest.length ≤ PIPESIZE
          rw [count_put hlt]
          cases dirty with
          | false =>
            have hroom := hg.resolve_right fun hfull => hf hfull.1
            rw [length_cons] at hroom
            omega
          | true =>
            have hroom : p.count + (b :: rest).length ≤ PIPESIZE := hs
            rw [length_cons] at hroom
            omega
    | await n | copy n got =>
      cases h
      dsimp only
      split_ifs with h1 h2 <;> first | exact ⟨trivial, hJ, trivial⟩ | exact ⟨trivial, hJ.take h2, trivial⟩
    | shut writable =>
      cases h
      exact ⟨trivial, hJ.shut writable, trivial⟩
    | lastClose =>
      cases h
      exact ⟨trivial, hJ, trivial⟩
    | _ => cases h
  choose := by
    intro k P k' h hk
    cases k <;> cases h
    rcases hk with ⟨n, addr, -, rfl⟩ | ⟨n, rfl⟩ | ⟨w, rfl⟩ <;> exact ⟨Iff.rfl, fun _ _ => trivial⟩
  wakeup := by
    intro k ch k' h
    cases k <;> cases h <;> exact ⟨Iff.rfl, fun _ _ => trivial⟩
  sleep := by
    intro k ch k' h
    cases k <;> cases h <;> exact ⟨trivial, trivial, fun _ _ => trivial⟩

theorem writes_keep : Keeps code Fits seesRoom Stream Pipe.stored writeBegins SentOk where
  act := by
    intro k f h killed p _ hJ hs
    cases k with
    | store n rest dirty =>
      cases h
      cases rest with
      | nil =>
        refine ⟨rfl, fun l x hl hx => ?_⟩
        rw [self_eq_append_right.1 hx, append_nil]
        exact hl.1
      | cons b rest =>
        by_cases hf : p.Full
        · -- nothing has been stored: otherwise there would be room
          have hclean : dirty = false := by
            cases dirty with
            | false => rfl
            | true =>
              have hroom : p.count + (b :: rest).length ≤ PIPESIZE := hs
              rw [(full_iff hJ.le).1 hf, length_cons] at hroom
              omega
          simp only [if_pos hf]
          split_ifs
          · refine ⟨rfl, fun l x hl hx => ?_⟩
            rw [self_eq_append_right.1 hx, append_nil]
            exact hl.2 hclean
          · refine ⟨rfl, fun l x hl hx => ?_⟩
            have hnil := hl.2 hclean
            have hsum := hl.1
            rw [self_eq_append_right.1 hx, append_nil]
            rw [hnil, length_nil, Nat.zero_add] at hsum
            exact ⟨hnil, hsum⟩
        · simp only [if_neg hf]
          refine ⟨rfl, fun l x hl hx => ⟨?_, nofun⟩⟩
          have hsum := hl.1
          rw [← append_cancel_left hx, length_append, length_singleton]
          rw [length_cons] at hsum
          omega
    | await n | copy n got =>
      cases h
      dsimp only
      split_ifs <;> exact ⟨rfl, fun _ _ _ _ => trivial⟩
    | shut writable | lastClose =>
      cases h
      exact ⟨rfl, fun _ _ _ _ => trivial⟩
    | _ => cases h
  next := by
    intro k k' l h hl
    cases k with
    | user r =>
      rcases h with ⟨n, addr, hlen, rfl⟩ | ⟨n, rfl⟩ | ⟨w, rfl⟩
      · exact ⟨rfl, hlen⟩
      · trivial
      · trivial
    | write n rest | waitRoom n rest =>
      cases h
      obtain ⟨hnil, hlen⟩ := hl
      have hstart : SentOk (.store n rest false) [] := ⟨(Nat.zero_add _).trans hlen, fun _ => rfl⟩
      rw [hnil]
      exact hstart
    | wakeFull n rest | wakeLast n =>
      cases h
      exact hl
    | store | await | copy | shut | lastClose => exact h.elim
    | _ =>
      cases h
      trivial

/-- **What pipewrite stores.** If every pipewrite finds room for its bytes, or has one byte only, or fails at once, a call that is
about to return -1 has stored nothing, and a call that is about to return n has stored n bytes. -/
theorem writes_fit (h : Writing Fits s sent) (t : ℕ) : SentOk (s.pos t).point (sent t) :=
  recording_keeps fits_locked writes_keep init_stream start_free (fun k hk => by rw [hk]; trivial) h t

/-- **A failed write that has filled the pipe.** Process 1 is the only one that does anything: it writes 513 bytes to the empty
pipe, fills it, finds itself killed, and returns -1; its 512 bytes stay in the pipe. -/
theorem failed_write_fills_pipe : ∃ s, Reachable (fun _ _ _ => True) s ∧ s.pos 1 = .run (.user (-1)) ∧
    (∀ t, t ≠ 1 → s.pos t = .run (.user 0)) ∧ s.d.count = PIPESIZE := by
  obtain ⟨s, hr, -, -, hp1, hpos, hcount⟩ := reach_killed_write (.init boot_init) rfl rfl rfl rfl
  exact ⟨s, hr, hp1, hpos, hcount⟩

end Xv6.Ipc
