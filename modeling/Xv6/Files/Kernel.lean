/-
The file system calls on the blocks of the disk: `fs.c`, `file.c`, `sysfile.c` and the parts of `pipe.c`, `exec.c` and `proc.c`
that use files, run one call after the other.

The inode cache is its array of NINODE entries, the file table its array of NFILE files; inodes, files and pipes are named by
their index. Directories are files: their entries are read and written as 16 bytes. The inode blocks are the table `dinode`.
There is one device, and an inode number beyond the inode blocks names a free inode. `trace` records what a call does to the
log. Waiting for a lock that the caller holds itself never ends (`hang`).

Not modelled: what the console shows, the bytes that pipes carry, user memory. What the console delivers, whether kalloc and
copyuvm have memory, and whether argstr finds a string, is given.
-/
import Xv6.Fs.Blocks

namespace Xv6.Files

open Lib Blocks
open Sysfile (IType elems O_RDONLY O_WRONLY O_RDWR O_CREATE)

/-! ## State -/

/-- entries of the inode cache -/
def NINODE : ℕ := 50

/-- struct inode, without its device -/
structure Entry where
  inum : ℕ
  ref : ℕ
  valid : Bool
  locked : Bool
  n : Dinode

/-- `type` of a struct file -/
inductive FType where
  | none
  | pipe
  | inode
  deriving DecidableEq

/-- struct file -/
structure File where
  type : FType
  ref : ℕ
  readable : Bool
  writable : Bool
  pipe : ℕ
  ip : ℕ
  off : ℕ

/-- struct pipe, without its buffer -/
structure Pipe where
  readopen : Bool
  writeopen : Bool

/-- `state` of a process, as far as files are concerned -/
inductive PState where
  | unused
  | used
  | zombie
  deriving DecidableEq

structure Proc where
  state : PState
  ofile : ℕ → Option ℕ
  cwd : Option ℕ

structure Kern where
  disk : Dev
  dinode : ℕ → Dinode
  icache : ℕ → Entry
  file : ℕ → File
  /-- the pipes in memory, by page -/
  pipe : ℕ → Option Pipe
  proc : ℕ → Proc
  /-- what the next reads of the console return -/
  input : List (Option (List Byte))

abbrev K (α : Type) := StateProg Kern Panic α

def setEntry (k : ℕ) (x : Entry) : K Unit := modify fun s => { s with icache := update s.icache k x }

def setFile (f : ℕ) (x : File) : K Unit := modify fun s => { s with file := update s.file f x }

def setProc (p : ℕ) (x : Proc) : K Unit := modify fun s => { s with proc := update s.proc p x }

def entry (k : ℕ) : K Entry := do return (← get).icache k

/-- an `if` without an `else` -/
def onlyIf (c : Prop) [Decidable c] (x : K Unit) : K Unit := if c then x else pure ()

/-! ## log.c -/

def record (e : LogEv) : K Unit := modify fun s => { s with disk := { s.disk with trace := e :: s.disk.trace } }

def beginOp : K Unit := record .beginOp

def endOp : K Unit := record .endOp

/-! ## fs.c: inodes -/

variable (sb : Superblock)

/-- a function of the block layer on the inode of entry k -/
def onInode {α : Type} (k : ℕ) (f : Dev → Dinode → Except Panic (Dev × Dinode × α)) : K α := fun s =>
  match f s.disk (s.icache k).n with
  | .ok (d, n, a) => .ok (a, { s with disk := d, icache := update s.icache k { s.icache k with n := n } })
  | .error e => .error e

/-- copy the inode in the cache to the disk -/
def iupdate (k : ℕ) : K Unit := do
  modify fun s => { s with dinode := update s.dinode (s.icache k).inum (s.icache k).n }
  record .logWrite

/-- change the inode in the cache, and then on disk -/
def change (k : ℕ) (f : Dinode → Dinode) : K Unit := do
  modify fun s => { s with icache := update s.icache k { s.icache k with n := f (s.icache k).n } }
  iupdate k

def iget (inum : ℕ) : K ℕ := do
  let s ← get
  match (List.range NINODE).find? fun k => decide (0 < (s.icache k).ref) && (s.icache k).inum == inum with
  | some k => do
    setEntry k { s.icache k with ref := (s.icache k).ref + 1 }
    return k
  | none =>
    match (List.range NINODE).find? fun k => (s.icache k).ref == 0 with
    | none => throw .igetNoInodes
    | some k => do
      setEntry k { s.icache k with inum := inum, ref := 1, valid := false }
      return k

def idup (k : ℕ) : K Unit := do
  let x ← entry k
  setEntry k { x with ref := x.ref + 1 }

/-- the first free inode number, marked allocated on the disk -/
def ialloc (type : IType) : K ℕ := do
  let s ← get
  match (List.range' 1 (sb.ninodes - 1)).find? fun i => (s.dinode i).type == .free with
  | none => throw .iallocNoInodes
  | some i => do
    modify fun s => { s with dinode := update s.dinode i ⟨type, 0, 0, 0, 0, fun _ => 0⟩ }
    record .logWrite
    iget i

def ilock (k : ℕ) : K Unit := do
  let s ← get
  let x := s.icache k
  if x.ref < 1 then throw .ilock
  else if x.locked then throw .hang
  else if x.valid then setEntry k { x with locked := true }
  else if (s.dinode x.inum).type = .free then throw .ilockNoType
  else setEntry k { x with locked := true, valid := true, n := s.dinode x.inum }

def iunlock (k : ℕ) : K Unit := do
  let x ← entry k
  if x.locked = false ∨ x.ref < 1 then throw .iunlock
  else setEntry k { x with locked := false }

/-- inode has no links and no other references: truncate and free -/
def freeInode (k : ℕ) : K Unit := do
  onInode k fun d n => do
    let (d, n) ← itrunc sb d n
    return (d, n, ())
  iupdate k
  change k fun n => { n with type := .free }
  modify fun s => { s with icache := update s.icache k { s.icache k with valid := false } }

/-- iput; the lock is free again when it returns, and nobody else runs in between -/
def iput (k : ℕ) : K Unit := do
  record .iput
  let x ← entry k
  if x.locked then throw .hang
  else do
    onlyIf (x.valid ∧ x.n.nlink = 0 ∧ x.ref = 1) (freeInode sb k)
    modify fun s => { s with icache := update s.icache k { s.icache k with ref := (s.icache k).ref - 1 } }

def iunlockput (k : ℕ) : K Unit := do
  iunlock k
  iput sb k

/-- the only device with functions in devsw -/
def CONSOLE : BitVec 16 := 1

/-- other processes may lock the inode while the reader waits for a line -/
def consoleread (k n : ℕ) : K (Option (List Byte)) := do
  iunlock k
  let s ← get
  modify fun s => { s with input := s.input.tail }
  ilock k
  return (s.input.headD none).map (List.take n)

def consolewrite (k : ℕ) (src : List Byte) : K (Option ℕ) := do
  iunlock k
  ilock k
  return some src.length

/-- `none` is -1 -/
def readi (k off n : ℕ) : K (Option (List Byte)) := do
  let x ← entry k
  if x.n.type = .dev then if x.n.major = CONSOLE then consoleread k n else return none
  else if off > x.n.size ∨ (off + n) % 2 ^ 32 < off then return none
  else do
    let l ← onInode k fun d m => readLoop sb d m off (if (off + n) % 2 ^ 32 > x.n.size then x.n.size - off else n)
    return some l

def writei (k off : ℕ) (src : List Byte) : K (Option ℕ) := do
  let x ← entry k
  if x.n.type = .dev then if x.n.major = CONSOLE then consolewrite k src else return none
  else if off > x.n.size ∨ (off + src.length) % 2 ^ 32 < off then return none
  else if (off + src.length) % 2 ^ 32 > MAXFILE * BSIZE then return none
  else do
    onInode k fun d m => do
      let (d, m) ← writeLoop sb d m off src
      return (d, m, ())
    onlyIf (0 < src.length ∧ off + src.length > x.n.size) (change k fun m => { m with size := off + src.length })
    return some src.length

/-! ## fs.c: directories -/

/-- strncmp(p, q, n) == 0 -/
def strnEq : ℕ → List Byte → List Byte → Bool
  | 0, _, _ => true
  | n + 1, p, q =>
    if p.headD 0 ≠ 0 ∧ p.headD 0 = q.headD 0 then strnEq n p.tail q.tail else p.headD 0 == q.headD 0

/-- namecmp(s, t) == 0 -/
def nameEq (s t : List Byte) : Bool := strnEq DIRSIZ s t

/-- `inum` of the bytes of a struct dirent -/
def deInum (de : List Byte) : ℕ := (de.getD 0 0).toNat + 256 * (de.getD 1 0).toNat

/-- the bytes of a struct dirent: the inode number as a ushort, and the name as strncpy copies it -/
def dirent (inum : ℕ) (name : List Byte) : List Byte :=
  [BitVec.ofNat 8 inum, BitVec.ofNat 8 (inum / 256)] ++ (name ++ List.replicate DIRSIZ 0).take DIRSIZ

/-- the loops over the entries of a directory: the offset and bytes of the first one with p, from entries ks -/
def dirScan (k : ℕ) (e : Panic) (p : List Byte → Bool) : List ℕ → K (Option (ℕ × List Byte))
  | [] => return none
  | j :: js => do
    match ← readi sb k (DIRENTSIZE * j) DIRENTSIZE with
    | none => throw e
    | some de =>
      if de.length ≠ DIRENTSIZE then throw e
      else if p de then return some (DIRENTSIZE * j, de)
      else dirScan k e p js

/-- the number of rounds of `for(off = 0; off < size; off += sizeof(de))` -/
def dirRounds (size : ℕ) : ℕ := (size + DIRENTSIZE - 1) / DIRENTSIZE

/-- the entry of the inode cache, with a new reference, and the offset -/
def dirlookup (k : ℕ) (name : List Byte) : K (Option (ℕ × ℕ)) := do
  let x ← entry k
  if x.n.type ≠ .dir then throw .dirlookupNotDir
  else do
    let r ← dirScan sb k .dirlookupRead (fun de => deInum de ≠ 0 && nameEq name (de.drop 2)) (List.range (dirRounds x.n.size))
    match r with
    | none => return none
    | some (off, de) => do
      let j ← iget (deInum de)
      return some (j, off)

/-- `false` is -1 -/
def dirlink (k : ℕ) (name : List Byte) (inum : ℕ) : K Bool := do
  let r ← dirlookup sb k name
  match r with
  | some (j, _) => do
    iput sb j
    return false
  | none => do
    let x ← entry k
    let r ← dirScan sb k .dirlinkRead (fun de => deInum de = 0) (List.range (dirRounds x.n.size))
    let w ← writei sb k (match r with
      | none => DIRENTSIZE * dirRounds x.n.size
      | some (off, _) => off) (dirent inum name)
    if w = some DIRENTSIZE then return true else throw .dirlink

/-! ## fs.c: paths -/

/-- the loop of namex from entry k -/
def namexLoop (nameiparent : Bool) : ℕ → List (List Byte) → K (Option (ℕ × List Byte))
  | k, [] =>
    if nameiparent then do
      iput sb k
      return none
    else return some (k, [])
  | k, name :: rest => do
    ilock k
    let x ← entry k
    if x.n.type ≠ .dir then do
      iunlockput sb k
      return none
    else if nameiparent ∧ rest = [] then do
      -- Stop one level early.
      iunlock k
      return some (k, name)
    else do
      let r ← dirlookup sb k name
      match r with
      | none => do
        iunlockput sb k
        return none
      | some (next, _) => do
        iunlockput sb k
        namexLoop nameiparent next rest

/-- where the path of process p starts -/
def start (p : ℕ) (path : List Byte) : K ℕ :=
  if path.head? = some 0x2f then iget ROOTINO
  else do
    let s ← get
    let k := (s.proc p).cwd.getD 0
    idup k
    return k

def namex (p : ℕ) (path : List Byte) (nameiparent : Bool) : K (Option (ℕ × List Byte)) := do
  let k ← start p path
  namexLoop sb nameiparent k (elems path)

def namei (p : ℕ) (path : List Byte) : K (Option ℕ) := do
  let r ← namex sb p path false
  return r.map Prod.fst

def nameiparent (p : ℕ) (path : List Byte) : K (Option (ℕ × List Byte)) := namex sb p path true

/-! ## file.c and pipe.c -/

def filealloc : K (Option ℕ) := do
  let s ← get
  match (List.range NFILE).find? fun f => (s.file f).ref == 0 with
  | none => return none
  | some f => do
    setFile f { s.file f with ref := 1 }
    return some f

def filedup (f : ℕ) : K Unit := do
  let s ← get
  if (s.file f).ref < 1 then throw .filedup
  else setFile f { s.file f with ref := (s.file f).ref + 1 }

/-- the page is freed with the second end -/
def pipeclose (q : ℕ) (writable : Bool) : K Unit := modify fun s =>
  match s.pipe q with
  | none => s
  | some x =>
    let x := if writable then { x with writeopen := false } else { x with readopen := false }
    { s with pipe := update s.pipe q (if x.readopen = false ∧ x.writeopen = false then none else some x) }

def fileclose (f : ℕ) : K Unit := do
  let s ← get
  let ff := s.file f
  if ff.ref < 1 then throw .fileclose
  else if 0 < ff.ref - 1 then setFile f { ff with ref := ff.ref - 1 }
  else do
    setFile f { ff with ref := 0, type := .none }
    match ff.type with
    | .none => return ()
    | .pipe => pipeclose ff.pipe ff.writable
    | .inode => do
      beginOp
      iput sb ff.ip
      endOp

def fileread (f n : ℕ) : K ℤ := do
  let x := (← get).file f
  if x.readable = false then return -1
  else match x.type with
    | .none => throw .fileread
    | .pipe => return 0
    | .inode => do
      ilock x.ip
      let r ← readi sb x.ip x.off n
      match r with
      | none => do
        iunlock x.ip
        return -1
      | some l => do
        setFile f { x with off := x.off + l.length }
        iunlock x.ip
        return l.length

/-- `((MAXOPBLOCKS-1-1-2) / 2) * 512` -/
def maxWrite : ℕ := (MAXOPBLOCKS - 1 - 1 - 2) / 2 * 512

/-- the rounds of filewrite: one transaction each -/
def writeRounds (f ip : ℕ) : List (List Byte) → K Bool
  | [] => return true
  | src :: rest => do
    beginOp
    ilock ip
    let off := ((← get).file f).off
    let r ← writei sb ip off src
    modify fun s => { s with file := update s.file f { s.file f with off := (s.file f).off + r.getD 0 } }
    iunlock ip
    endOp
    match r with
    | none => return false
    | some m => if m ≠ src.length then throw .shortFilewrite else writeRounds f ip rest

/-- the pieces of at most maxWrite bytes -/
def pieces : ℕ → List Byte → List (List Byte)
  | 0, _ => []
  | fuel + 1, src => if src = [] then [] else src.take maxWrite :: pieces fuel (src.drop maxWrite)

def filewrite (f : ℕ) (src : List Byte) : K ℤ := do
  let x := (← get).file f
  if x.writable = false then return -1
  else match x.type with
    | .none => throw .filewrite
    | .pipe => return 0
    | .inode => do
      let ok ← writeRounds sb f x.ip (pieces src.length src)
      return if ok then src.length else -1

/-- close a file if there is one -/
def closeIf : Option ℕ → K Unit
  | none => return ()
  | some f => fileclose sb f

/-- `bad` of pipealloc; the page is not allocated then -/
def pipeBad (f0 f1 : Option ℕ) : K (Option (ℕ × ℕ)) := do
  closeIf sb f0
  closeIf sb f1
  return none

/-- page: what kalloc returns, which is no page in use -/
def pipealloc (page : Option ℕ) : K (Option (ℕ × ℕ)) := do
  let r0 ← filealloc
  match r0 with
  | none => pipeBad sb none none
  | some f0 => do
    let r1 ← filealloc
    let s ← get
    match r1, page.filter fun q => (s.pipe q).isNone with
    | some f1, some q => do
      modify fun s => { s with pipe := update s.pipe q (some ⟨true, true⟩) }
      modify fun s => { s with
        file := update s.file f0 { s.file f0 with type := .pipe, readable := true, writable := false, pipe := q } }
      modify fun s => { s with
        file := update s.file f1 { s.file f1 with type := .pipe, readable := false, writable := true, pipe := q } }
      return some (f0, f1)
    | r1, _ => pipeBad sb (some f0) r1

/-! ## sysfile.c -/

/-- the file of descriptor fd of process p -/
def argfd (p : ℕ) (fd : ℤ) : K (Option ℕ) := do
  let s ← get
  return if fd < 0 ∨ fd ≥ NOFILE then none else (s.proc p).ofile fd.toNat

def setFd (p fd : ℕ) (f : Option ℕ) : K Unit := modify fun s =>
  { s with proc := update s.proc p { s.proc p with ofile := update (s.proc p).ofile fd f } }

def fdalloc (p f : ℕ) : K (Option ℕ) := do
  let s ← get
  match (List.range NOFILE).find? fun fd => ((s.proc p).ofile fd).isNone with
  | none => return none
  | some fd => do
    setFd p fd (some f)
    return some fd

def sysDup (p : ℕ) (fd : ℤ) : K ℤ := do
  let r ← argfd p fd
  match r with
  | none => return -1
  | some f => do
    let r ← fdalloc p f
    match r with
    | none => return -1
    | some fd => do
      filedup f
      return fd

def sysRead (p : ℕ) (fd : ℤ) (n : ℕ) : K ℤ := do
  let r ← argfd p fd
  match r with
  | none => return -1
  | some f => fileread sb f n

def sysWrite (p : ℕ) (fd : ℤ) (src : List Byte) : K ℤ := do
  let r ← argfd p fd
  match r with
  | none => return -1
  | some f => filewrite sb f src

def sysClose (p : ℕ) (fd : ℤ) : K ℤ := do
  let r ← argfd p fd
  match r with
  | none => return -1
  | some f => do
    setFd p fd.toNat none
    fileclose sb f
    return 0

/-- a failed call inside its transaction -/
def failOp : K ℤ := do
  endOp
  return -1

/-- `bad` of sys_link -/
def linkBad (ip : ℕ) : K ℤ := do
  ilock ip
  change ip fun n => { n with nlink := n.nlink - 1 }
  iunlockput sb ip
  failOp

/-- sys_link with ip's nlink already counted up -/
def linkInto (p ip : ℕ) (new : List Byte) : K ℤ := do
  let r ← nameiparent sb p new
  match r with
  | none => linkBad sb ip
  | some (dp, name) => do
    ilock dp
    let x ← entry ip
    let ok ← dirlink sb dp name x.inum
    iunlockput sb dp
    if ok then do
      iput sb ip
      endOp
      return 0
    else linkBad sb ip

def sysLink (p : ℕ) (old new : Option (List Byte)) : K ℤ := do
  match old, new with
  | some old, some new => do
    beginOp
    let r ← namei sb p old
    match r with
    | none => failOp
    | some ip => do
      ilock ip
      let x ← entry ip
      if x.n.type = .dir then do
        iunlockput sb ip
        failOp
      else do
        change ip fun n => { n with nlink := n.nlink + 1 }
        iunlock ip
        linkInto sb p ip new
  | _, _ => return -1

/-- is the directory empty except for "." and ".."? -/
def isdirempty (k : ℕ) : K Bool := do
  let x ← entry k
  let r ← dirScan sb k .isdiremptyReadi (fun de => deInum de ≠ 0) (List.range' 2 (dirRounds x.n.size - 2))
  return r.isNone

/-- `bad` of sys_unlink -/
def unlinkBad (dp : ℕ) : K ℤ := do
  iunlockput sb dp
  failOp

/-- sys_unlink of the entry at off of dp, which names ip -/
def unlinkEntry (dp ip off : ℕ) (dir : Bool) : K ℤ := do
  let w ← writei sb dp off (List.replicate DIRENTSIZE 0)
  if w ≠ some DIRENTSIZE then throw .unlinkWritei
  else do
    onlyIf dir (change dp fun n => { n with nlink := n.nlink - 1 })
    iunlockput sb dp
    change ip fun n => { n with nlink := n.nlink - 1 }
    iunlockput sb ip
    endOp
    return 0

def unlinkFound (dp ip off : ℕ) : K ℤ := do
  ilock ip
  let x ← entry ip
  if x.n.nlink.toInt < 1 then throw .unlinkNlink
  else if x.n.type = .dir then do
    let empty ← isdirempty sb ip
    if empty then unlinkEntry sb dp ip off true
    else do
      iunlockput sb ip
      unlinkBad sb dp
  else unlinkEntry sb dp ip off false

def dot : List Byte := [0x2e]

def dotdot : List Byte := [0x2e, 0x2e]

def sysUnlink (p : ℕ) (path : Option (List Byte)) : K ℤ := do
  match path with
  | none => return -1
  | some path => do
    beginOp
    let r ← nameiparent sb p path
    match r with
    | none => failOp
    | some (dp, name) => do
      ilock dp
      -- Cannot unlink "." or "..".
      if nameEq name dot ∨ nameEq name dotdot then unlinkBad sb dp
      else do
        let r ← dirlookup sb dp name
        match r with
        | none => unlinkBad sb dp
        | some (ip, off) => unlinkFound sb dp ip off

/-- create . and .. entries -/
def createDots (dp ip : ℕ) : K Unit := do
  change dp fun n => { n with nlink := n.nlink + 1 }  -- for ".."
  let x ← entry ip
  let y ← entry dp
  let d1 ← dirlink sb ip dot x.inum
  if d1 = false then throw .createDots
  else do
    let d2 ← dirlink sb ip dotdot y.inum
    if d2 = false then throw .createDots else pure ()

/-- a new inode with its name in dp -/
def createNew (dp : ℕ) (name : List Byte) (type : IType) (major minor : BitVec 16) : K ℕ := do
  let ip ← ialloc sb type
  ilock ip
  change ip fun n => { n with major := major, minor := minor, nlink := 1 }
  onlyIf (type = .dir) (createDots sb dp ip)
  let x ← entry ip
  let d ← dirlink sb dp name x.inum
  if d = false then throw .createDirlink
  else do
    iunlockput sb dp
    return ip

/-- returns the inode locked -/
def create (p : ℕ) (path : List Byte) (type : IType) (major minor : BitVec 16) : K (Option ℕ) := do
  let r ← nameiparent sb p path
  match r with
  | none => return none
  | some (dp, name) => do
    ilock dp
    let r ← dirlookup sb dp name
    match r with
    | some (ip, _) => do
      iunlockput sb dp
      ilock ip
      let x ← entry ip
      if type = .file ∧ x.n.type = .file then return some ip
      else do
        iunlockput sb ip
        return none
    | none => do
      let ip ← createNew sb dp name type major minor
      return some ip

/-- sys_open without a file or descriptor -/
def openBad (f : Option ℕ) (ip : ℕ) : K ℤ := do
  closeIf sb f
  iunlockput sb ip
  failOp

/-- sys_open with its locked inode -/
def openFile (p ip : ℕ) (omode : Word) : K ℤ := do
  let r ← filealloc
  match r with
  | none => openBad sb none ip
  | some f => do
    let r ← fdalloc p f
    match r with
    | none => openBad sb (some f) ip
    | some fd => do
      iunlock ip
      endOp
      modify fun s => { s with file := update s.file f { s.file f with
        type := .inode, ip := ip, off := 0, readable := omode &&& O_WRONLY == 0,
        writable := omode &&& O_WRONLY != 0 || omode &&& O_RDWR != 0 } }
      return fd

def sysOpen (p : ℕ) (path : Option (List Byte)) (omode : Word) : K ℤ := do
  match path with
  | none => return -1
  | some path => do
    beginOp
    if omode &&& O_CREATE ≠ 0 then do
      let r ← create sb p path .file 0 0
      match r with
      | none => failOp
      | some ip => openFile sb p ip omode
    else do
      let r ← namei sb p path
      match r with
      | none => failOp
      | some ip => do
        ilock ip
        let x ← entry ip
        if x.n.type = .dir ∧ omode ≠ O_RDONLY then do
          iunlockput sb ip
          failOp
        else openFile sb p ip omode

/-- sys_mkdir and sys_mknod -/
def createAndPut (p : ℕ) (path : Option (List Byte)) (type : IType) (major minor : BitVec 16) : K ℤ := do
  beginOp
  match path with
  | none => failOp
  | some path => do
    let r ← create sb p path type major minor
    match r with
    | none => failOp
    | some ip => do
      iunlockput sb ip
      endOp
      return 0

def sysMkdir (p : ℕ) (path : Option (List Byte)) : K ℤ := createAndPut sb p path .dir 0 0

def sysMknod (p : ℕ) (path : Option (List Byte)) (major minor : BitVec 16) : K ℤ := createAndPut sb p path .dev major minor

def sysChdir (p : ℕ) (path : Option (List Byte)) : K ℤ := do
  beginOp
  match path with
  | none => failOp
  | some path => do
    let r ← namei sb p path
    match r with
    | none => failOp
    | some ip => do
      ilock ip
      let x ← entry ip
      if x.n.type ≠ .dir then do
        iunlockput sb ip
        failOp
      else do
        iunlock ip
        let s ← get
        iput sb ((s.proc p).cwd.getD 0)
        endOp
        modify fun s => { s with proc := update s.proc p { s.proc p with cwd := some ip } }
        return 0

/-- give a descriptor back if there is one -/
def clearIf (p : ℕ) : Option ℕ → K Unit
  | none => return ()
  | some fd => setFd p fd none

/-- sys_pipe without two descriptors -/
def pipeFail (p : ℕ) (fd0 : Option ℕ) (rf wf : ℕ) : K ℤ := do
  clearIf p fd0
  fileclose sb rf
  fileclose sb wf
  return -1

def sysPipe (p : ℕ) (page : Option ℕ) : K ℤ := do
  let r ← pipealloc sb page
  match r with
  | none => return -1
  | some (rf, wf) => do
    let r0 ← fdalloc p rf
    match r0 with
    | none => pipeFail sb p none rf wf
    | some fd0 => do
      let r1 ← fdalloc p wf
      match r1 with
      | none => pipeFail sb p (some fd0) rf wf
      | some _ => return 0

/-! ## exec.c -/

/-- a little-endian number -/
def number (l : List Byte) : ℕ := l.foldr (fun b n => b.toNat + 256 * n) 0

/-- the field of w bytes at o -/
def field (l : List Byte) (o w : ℕ) : ℕ := number ((l.drop o).take w)

/-- `bad` of exec while it has the inode -/
def execBad (ip : ℕ) : K ℤ := do
  iunlockput sb ip
  failOp

/-- the reads of loaduvm -/
def loadPages (ip off size : ℕ) : List ℕ → K Bool
  | [] => return true
  | j :: js => do
    let n := min (size - 4096 * j) 4096
    let r ← readi sb ip ((off + 4096 * j) % 2 ^ 32) n
    match r with
    | none => return false
    | some l => if l.length ≠ n then return false else loadPages ip off size js

/-- the loop of exec over the program headers; mem: the results of allocuvm -/
def loadHeaders (ip off : ℕ) (mem : ℕ → Bool) : List ℕ → K Bool
  | [] => return true
  | j :: js => do
    let r ← readi sb ip ((off + 32 * j) % 2 ^ 32) 32
    match r with
    | none => return false
    | some ph =>
      if ph.length ≠ 32 then return false
      else if field ph 0 4 ≠ 1 then loadHeaders ip off mem js
      else if field ph 20 4 < field ph 16 4 then return false
      else if (field ph 8 4 + field ph 20 4) % 2 ^ 32 < field ph 8 4 then return false
      else if mem j = false then return false
      else if field ph 8 4 % 4096 ≠ 0 then return false
      else do
        let ok ← loadPages sb ip (field ph 4 4) (field ph 16 4) (List.range ((field ph 16 4 + 4095) / 4096))
        if ok then loadHeaders ip off mem js else return false

/-- exec as far as it uses the file system; kvm, mem and image: whether setupkvm, each allocuvm, and what comes after the
transaction succeed -/
def exec (p : ℕ) (path : List Byte) (kvm : Bool) (mem : ℕ → Bool) (image : Bool) : K ℤ := do
  beginOp
  let r ← namei sb p path
  match r with
  | none => failOp
  | some ip => do
    ilock ip
    let r ← readi sb ip 0 52
    match r with
    | none => execBad sb ip
    | some elf =>
      if elf.length ≠ 52 then execBad sb ip
      else if field elf 0 4 ≠ 0x464C457F then execBad sb ip
      else if kvm = false then execBad sb ip
      else do
        let ok ← loadHeaders sb ip (field elf 28 4) mem (List.range (field elf 44 2))
        if ok then do
          iunlockput sb ip
          endOp
          return if image then 0 else -1
        else execBad sb ip

/-! ## proc.c -/

/-- the loop of fork over the descriptors -/
def forkFiles (p np : ℕ) : List ℕ → K Unit
  | [] => return ()
  | fd :: fds => do
    let s ← get
    match (s.proc p).ofile fd with
    | none => forkFiles p np fds
    | some f => do
      filedup f
      setFd np fd (some f)
      forkFiles p np fds

/-- mem: whether kalloc and copyuvm succeed -/
def fork (p : ℕ) (mem : Bool) : K ℤ := do
  let s ← get
  match (List.range NPROC).find? fun q => (s.proc q).state == .unused with
  | none => return -1
  | some np =>
    if mem = false then return -1
    else do
      forkFiles p np (List.range NOFILE)
      let s ← get
      idup ((s.proc p).cwd.getD 0)
      modify fun s => { s with proc := update s.proc np { s.proc np with cwd := (s.proc p).cwd, state := .used } }
      return np

/-- the loop of exit over the descriptors -/
def exitFiles (p : ℕ) : List ℕ → K Unit
  | [] => return ()
  | fd :: fds => do
    let s ← get
    match (s.proc p).ofile fd with
    | none => exitFiles p fds
    | some f => do
      fileclose sb f
      setFd p fd none
      exitFiles p fds

/-- process 0 is init -/
def exit (p : ℕ) : K ℤ := do
  if p = 0 then throw .initExiting
  else do
    exitFiles sb p (List.range NOFILE)
    beginOp
    let s ← get
    iput sb ((s.proc p).cwd.getD 0)
    endOp
    modify fun s => { s with proc := update s.proc p { s.proc p with cwd := none, state := .zombie } }
    return 0

/-- wait finds the ZOMBIE q -/
def wait (q : ℕ) : K ℤ := do
  let s ← get
  if (s.proc q).state = .zombie then do
    setProc q { s.proc q with state := .unused }
    return q
  else return -1

/-! ## Calls -/

/-- the calls with what they are given -/
inductive Call where
  | open (path : Option (List Byte)) (omode : Word)
  | close (fd : ℤ)
  | dup (fd : ℤ)
  | link (old new : Option (List Byte))
  | unlink (path : Option (List Byte))
  | mkdir (path : Option (List Byte))
  | mknod (path : Option (List Byte)) (major minor : BitVec 16)
  | chdir (path : Option (List Byte))
  | exec (path : List Byte) (kvm : Bool) (mem : ℕ → Bool) (image : Bool)
  | read (fd : ℤ) (n : Word)
  | write (fd : ℤ) (src : List Byte)
  | pipe (page : Option ℕ)
  | fork (mem : Bool)
  | exit
  | wait (q : ℕ)

/-- the code of a call of process p -/
def Call.code (p : ℕ) : Call → K ℤ
  | .open path omode => sysOpen sb p path omode
  | .close fd => sysClose sb p fd
  | .dup fd => sysDup p fd
  | .link old new => sysLink sb p old new
  | .unlink path => sysUnlink sb p path
  | .mkdir path => sysMkdir sb p path
  | .mknod path major minor => sysMknod sb p path major minor
  | .chdir path => sysChdir sb p path
  | .exec path kvm mem image => Files.exec sb p path kvm mem image
  | .read fd n => sysRead sb p fd n.toNat
  | .write fd src => sysWrite sb p fd src
  | .pipe page => sysPipe sb p page
  | .fork mem => Files.fork p mem
  | .exit => Files.exit sb p
  | .wait q => Files.wait q

/-- after boot: init, with the root directory as its current directory, which is in the first entry of the cache -/
def boot (data : Store) (dinode : ℕ → Dinode) : Kern where
  disk := ⟨data, []⟩
  dinode := dinode
  icache k := ⟨ROOTINO, if k = 0 then 1 else 0, false, false, dinode 0⟩
  file _ := ⟨.none, 0, false, false, 0, 0, 0⟩
  pipe _ := none
  proc p := if p = 0 then ⟨.used, fun _ => none, some 0⟩ else ⟨.unused, fun _ => none, none⟩
  input := []

/-- the states between calls, from start -/
inductive Reach (start : Kern → Prop) : Kern → Prop where
  | start {s : Kern} : start s → Reach start s
  | call {s s' : Kern} {p : ℕ} {r : ℤ} (c : Call) : Reach start s → (s.proc p).state = .used →
      c.code sb p s = .ok (r, s') → Reach start s'
  /-- at the console, anything may be typed -/
  | input {s : Kern} (l : List (Option (List Byte))) : Reach start s → Reach start { s with input := l }

end Xv6.Files
