/-
Constants of `param.h`, `fs.h` and `proc.h`, and the machine word of the 32-bit build (`-m32`).

The derived constants are written as the headers derive them, so a change to one of the base values changes the rest.
-/
import Xv6.Lib.Bytes

namespace Xv6

export Function (update update_self update_of_ne update_eq_self update_idem)

/-- `uint` of types.h, and the carrier of `int` (read as signed through `toInt`) -/
abbrev Word := BitVec 32

theorem toNat_offset {p : Word} {i : ℕ} (h : p.toNat + i < 2 ^ 32) : (p + BitVec.ofNat 32 i).toNat = p.toNat + i := by
  rw [BitVec.toNat_add, BitVec.toNat_ofNat, Nat.mod_eq_of_lt (show i < 2 ^ 32 by omega), Nat.mod_eq_of_lt h]

/-! ## param.h -/

/-- maximum number of processes -/
def NPROC : ℕ := 64
/-- maximum number of CPUs -/
def NCPU : ℕ := 8
/-- max # of blocks any FS op writes -/
def MAXOPBLOCKS : ℕ := 10
/-- max data blocks in on-disk log -/
def LOGSIZE : ℕ := MAXOPBLOCKS * 3
/-- open files per process -/
def NOFILE : ℕ := 16
/-- open files per system -/
def NFILE : ℕ := 100
/-- size of file system in blocks -/
def FSSIZE : ℕ := 20000

/-! ## proc.h -/

def DEFAULT_NICE_VALUE : ℕ := 40
def MAX_NICE_VALUE : ℕ := 100
def MIN_NICE_VALUE : ℕ := 1

/-! ## fs.h -/

/-- root i-number -/
def ROOTINO : ℕ := 1
/-- block size -/
def BSIZE : ℕ := 512
def NDIRECT : ℕ := 12
/-- `BSIZE / sizeof(uint)` -/
def NINDIRECT : ℕ := BSIZE / 4
def MAXFILE : ℕ := NDIRECT + NINDIRECT
/-- length of a name in a directory entry -/
def DIRSIZ : ℕ := 14
/-- `sizeof(struct dirent)` -/
def DIRENTSIZE : ℕ := 2 + DIRSIZ

/-! ## mkfs.c -/

def NINODES : ℕ := 200

/-- the data of one disk block or buffer -/
abbrev Block := Lib.Bytes BSIZE

/-- a disk: block numbers are uints -/
abbrev Disk := Word → Block

end Xv6
