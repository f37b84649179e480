/-
The file system calls of `sysfile.c`, with the inode, directory and path functions of `fs.c`, the file table of
`file.c` and the parts of `fork` and `exit` that touch them.

The calls are programs (`LockProg.Prog`) over the kernel state: `acquiresleep` and `releasesleep` on an inode's lock are
steps, and what happens between them is one atomic action a function. The inode cache is write-through, so `inode` is
both the inode on disk and its loaded copy; `valid` says whether the cache entry has been loaded, `ref` counts its
references. A directory is the list of its entries (its size is a multiple of the entry size); the bytes of other
files are left out, no call here reads them. A name is the byte string that `strncmp(.., DIRSIZ)` compares. `ialloc`
numbers inodes below the `NINODES` of `mkfs`, so an inode number fits the `ushort` of an entry.

`begin_op`/`end_op` have no part in what is modelled here, and the cache (`NINODE` entries) and the disk have room: with
no room the kernel panics.
-/
import Xv6.Param
import Xv6.Lib.LockProg

namespace Xv6.Sysfile

open Lib Lib.LockProg List

/-! ## State -/

/-- `type` of an inode: 0 (free), T_DIR, T_FILE, T_DEV -/
inductive IType where
  | free
  | dir
  | file
  | dev
  deriving DecidableEq

/-- a file name: at most DIRSIZ bytes, none of them 0 or '/' -/
abbrev Name := List Byte

def dot : Name := [0x2e]
def dotdot : Name := [0x2e, 0x2e]

/-- struct dirent -/
structure Dirent where
  inum : ℕ
  name : Name
  deriving DecidableEq

/-- struct dinode: the content of a directory as its entries -/
structure Inode where
  type : IType := .free
  major : BitVec 16 := 0
  minor : BitVec 16 := 0
  nlink : BitVec 16 := 0
  ents : List Dirent := []
  deriving DecidableEq

/-- struct file: `isInode` is FD_INODE against FD_NONE -/
structure File where
  ref : ℕ := 0
  isInode : Bool := false
  ip : ℕ := 0
  readable : Bool := false
  writable : Bool := false
  deriving DecidableEq

/-- the part of struct proc the calls use -/
structure Proc where
  cwd : ℕ
  ofile : ℕ → Option ℕ := fun _ => none

/-- inodes, the cache entries' `ref` and `valid`, the file table and the process table (`none`: unused) -/
structure Kern where
  inode : ℕ → Inode
  ref : ℕ → ℕ
  valid : ℕ → Bool
  file : ℕ → File
  proc : ℕ → Option Proc

/-- the panics the calls can reach -/
inductive Panic where
  | ilock
  | ilockNoType
  | iunlock
  | iallocNoInodes
  | dirlookupNotDir
  | dirlink
  | createDots
  | createDirlink
  | unlinkNlink
  | filedup
  | fileclose
  | fileread
  | filewrite
  | initExiting
  deriving DecidableEq

/-- labels of the steps a condition can be put on -/
inductive Ev where
  | silent
  /-- the section of `iput` under `ip->lock` -/
  | put (i : ℕ)
  /-- `nlink++` -/
  | inc (i : ℕ)
  /-- `dirlink` stores an entry for `i` in `dp` -/
  | entry (dp i : ℕ)
  /-- `iput` takes the lock of a directory just unlocked, with another inode locked -/
  | retake
  deriving DecidableEq

/-- kernel code over that state -/
abbrev KProg (α : Type) := Prog Kern Panic Ev α

namespace Kern

variable (s : Kern)

def setInode (i : ℕ) (n : Inode) : Kern := { s with inode := update s.inode i n }

def setFile (f : ℕ) (x : File) : Kern := { s with file := update s.file f x }

def setProc (p : ℕ) (x : Option Proc) : Kern := { s with proc := update s.proc p x }

/-- `ref++`; an entry that had no reference is recycled, its `valid` cleared -/
def iget (i : ℕ) : Kern :=
  { s with
    ref := update s.ref i (s.ref i + 1),
    valid := if s.ref i = 0 then update s.valid i false else s.valid }

/-- the last reference to a loaded inode without links is being dropped -/
def frees (i : ℕ) : Bool := s.valid i && (s.inode i).nlink == 0 && s.ref i == 1

/-- `itrunc`, `type = 0`, `iupdate`, `valid = 0` -/
def free (i : ℕ) : Kern :=
  { s.setInode i { s.inode i with type := .free, ents := [] } with valid := update s.valid i false }

end Kern

/-! ## fs.c: inodes -/

/-- an action without a result -/
def modify (e : Ev) (f : Kern → Kern) : KProg Unit := act e fun s => .ok ((), f s)

/-- read the state -/
def look {α : Type} (f : Kern → α) : KProg α := act .silent fun s => .ok (f s, s)

/-- stop the kernel -/
def panic {α : Type} (e : Panic) : KProg α := act .silent fun _ => .error e

/-- `panic` unless the test holds -/
def check (e : Panic) (f : Kern → Bool) : KProg Unit := act .silent fun s => if f s then .ok ((), s) else .error e

def iget (i : ℕ) : KProg Unit := modify .silent (·.iget i)

def ilock (i : ℕ) : KProg Unit := do
  check .ilock fun s => 1 ≤ s.ref i
  acquire .silent i
  act .silent fun s =>
    if s.valid i then .ok ((), s)
    else if (s.inode i).type = .free then .error .ilockNoType
    else .ok ((), { s with valid := update s.valid i true })

def iunlock (i : ℕ) : KProg Unit := do
  check .iunlock fun s => 1 ≤ s.ref i
  release i

def iput (e : Ev) (i : ℕ) : KProg Unit := do
  acquire e i
  modify (.put i) fun s => if s.frees i then s.free i else s
  release i
  modify .silent fun s => { s with ref := update s.ref i (s.ref i - 1) }

def iunlockput (e : Ev) (i : ℕ) : KProg Unit := do
  iunlock i
  iput e i

/-- the loop of `ialloc` over the inode numbers -/
def iallocLoop (t : IType) : List ℕ → KProg ℕ
  | [] => panic .iallocNoInodes
  | i :: is => do
    let got ← act .silent fun s =>
      if (s.inode i).type = .free then .ok (true, s.setInode i { type := t }) else .ok (false, s)
    if got then do
      iget i
      return i
    else iallocLoop t is

def ialloc (t : IType) : KProg ℕ := iallocLoop t (List.range' 1 (NINODES - 1))

/-! ## fs.c: directories and paths -/

/-- the loop of `dirlookup`: the first used entry of that name, with its index -/
def lookup (name : Name) : ℕ → List Dirent → Option (ℕ × ℕ)
  | _, [] => none
  | k, de :: l =>
    if de.inum = 0 then lookup name (k + 1) l
    else if name = de.name then some (de.inum, k)
    else lookup name (k + 1) l

def dirlookup (dp : ℕ) (name : Name) : KProg (Option (ℕ × ℕ)) := act .silent fun s =>
  if (s.inode dp).type ≠ .dir then .error .dirlookupNotDir
  else match lookup name 0 (s.inode dp).ents with
    | none => .ok (none, s)
    | some (i, off) => .ok (some (i, off), s.iget i)

/-- store an entry in the first unused place, or at the end -/
def addEntry (ents : List Dirent) (de : Dirent) : List Dirent :=
  let off := ents.findIdx fun x => x.inum == 0
  if off < ents.length then ents.set off de else ents ++ [de]

/-- the new entry still lies within the maximal file size -/
def hasRoom (ents : List Dirent) : Bool :=
  ((ents.findIdx fun x => x.inum == 0) + 1) * DIRENTSIZE ≤ MAXFILE * BSIZE

/-- the second half of `dirlink`: look for an unused entry and write the new one there -/
def writeEntry (dp : ℕ) (name : Name) (inum : ℕ) : KProg Bool := act (.entry dp inum) fun s =>
  let n := s.inode dp
  if hasRoom n.ents then .ok (true, s.setInode dp { n with ents := addEntry n.ents ⟨inum, name⟩ })
  else .error .dirlink

def dirlink (dp : ℕ) (name : Name) (inum : ℕ) : KProg Bool := do
  match ← dirlookup dp name with
  | some (i, _) => do
    iput .silent i
    return false
  | none => writeEntry dp name inum

/-- copy the next path element; `none` if there is none -/
def skipelem (path : List Byte) : Option (Name × List Byte) :=
  match path.dropWhile (· == 0x2f) with
  | [] => none
  | c :: cs => some (((c :: cs).takeWhile (· != 0x2f)).take DIRSIZ,
      ((c :: cs).dropWhile (· != 0x2f)).dropWhile (· == 0x2f))

/-- the elements of a path, as repeated `skipelem` finds them -/
def elemsLoop : ℕ → List Byte → List Name
  | 0, _ => []
  | n + 1, path =>
    match skipelem path with
    | none => []
    | some (name, rest) => name :: elemsLoop n rest

def elems (path : List Byte) : List Name := elemsLoop path.length path

/-- the parts of a path between its slashes, without the empty ones, cut to the length of a name -/
def parts (path : List Byte) : List Name := ((path.splitOnP (· == 0x2f)).filter (· ≠ [])).map (·.take DIRSIZ)

theorem parts_cons {c : Byte} (hc : (c == 0x2f) = true) (cs : List Byte) : parts (c :: cs) = parts cs := by
  unfold parts
  rw [splitOnP_cons_eq_if_modifyHead, if_pos hc]
  rfl

theorem parts_dropWhile (path : List Byte) : parts (path.dropWhile (· == 0x2f)) = parts path := by
  induction path with
  | nil => rfl
  | cons c cs ih =>
    rw [dropWhile_cons]
    split_ifs with hc
    · rw [ih, parts_cons hc]
    · rfl

theorem parts_elem {path : List Byte} (hne : path.takeWhile (· != 0x2f) ≠ []) :
    parts path = (path.takeWhile (· != 0x2f)).take DIRSIZ :: parts (path.dropWhile (· != 0x2f)) := by
  have helem : ∀ x ∈ path.takeWhile (· != 0x2f), (x == 0x2f) = false := fun x hx => by
    simpa using all_eq_true.1 all_takeWhile x hx
  have htail := head?_dropWhile_not (fun x : Byte => x != 0x2f) path
  conv_lhs => rw [← takeWhile_append_dropWhile (p := (· != 0x2f)) (l := path)]
  cases hd : path.dropWhile (· != 0x2f) with
  | nil =>
    rw [append_nil, parts, splitOnP_eq_singleton helem, filter_cons_of_pos (by simpa using hne)]
    rfl
  | cons d ds =>
    rw [hd] at htail
    have hs : (d == 0x2f) = true := by simpa using htail
    rw [parts_cons hs, parts, splitOnP_append_cons_of_forall_mem helem d hs, filter_cons_of_pos (by simpa using hne)]
    rfl

/-- **skipelem takes a path apart.** Run to its end, it finds the parts between the slashes, in their order. -/
theorem elems_eq_parts (path : List Byte) : elems path = parts path := by
  suffices h : ∀ n path, path.length ≤ n → elemsLoop n path = parts path from h _ path le_rfl
  intro n
  induction n with
  | zero =>
    intro path h
    rw [length_eq_zero_iff.1 (Nat.le_zero.1 h)]
    rfl
  | succ n ih =>
    intro path h
    have hhead := head?_dropWhile_not (fun x : Byte => x == 0x2f) path
    have h1 := (dropWhile_suffix (l := path) (· == 0x2f)).length_le
    rw [elemsLoop, skipelem, ← parts_dropWhile path]
    cases hd : path.dropWhile (· == 0x2f) with
    | nil => rfl
    | cons c cs =>
      rw [hd] at hhead h1
      have hc : (c != 0x2f) = true := by simpa using hhead
      dsimp only
      rw [parts_elem (by simpa [takeWhile_cons] using hc), ← parts_dropWhile (dropWhile _ _), ih]
      -- the element is not empty, so what is left is shorter
      rw [dropWhile_cons, if_pos hc]
      have h2 := (dropWhile_suffix (l := cs) (· != 0x2f)).length_le
      have h3 := (dropWhile_suffix (l := cs.dropWhile (· != 0x2f)) (· == 0x2f)).length_le
      rw [length_cons] at h1
      omega

/-- the loop of `namex` from directory `ip` -/
def namexLoop (nameiparent : Bool) : ℕ → List Name → KProg (Option (ℕ × Name))
  | ip, [] =>
    if nameiparent then do
      iput .silent ip
      return none
    else return some (ip, [])
  | ip, name :: rest => do
    ilock ip
    let n ← look (·.inode ip)
    if n.type ≠ .dir then do
      iunlockput .silent ip
      return none
    else if nameiparent && rest.isEmpty then do
      -- Stop one level early.
      iunlock ip
      return some (ip, name)
    else do
      match ← dirlookup ip name with
      | none => do
        iunlockput .silent ip
        return none
      | some (next, _) => do
        iunlockput .silent ip
        namexLoop nameiparent next rest

/-- where a path starts: the root, or the current directory of process `p` -/
def start (p : ℕ) (path : List Byte) : KProg ℕ :=
  if path.head? = some 0x2f then do
    iget ROOTINO
    return ROOTINO
  else act .silent fun s =>
    let cwd := ((s.proc p).map Proc.cwd).getD 0
    .ok (cwd, { s with ref := update s.ref cwd (s.ref cwd + 1) })

def namex (p : ℕ) (path : List Byte) (nameiparent : Bool) : KProg (Option (ℕ × Name)) := do
  let ip ← start p path
  namexLoop nameiparent ip (elems path)

def namei (p : ℕ) (path : List Byte) : KProg (Option ℕ) := do
  let r ← namex p path false
  return r.map Prod.fst

def nameiparent (p : ℕ) (path : List Byte) : KProg (Option (ℕ × Name)) := namex p path true

/-! ## file.c -/

/-- the first unused file of the table, claimed -/
def filealloc : KProg (Option ℕ) := act .silent fun s =>
  match (List.range NFILE).find? fun f => (s.file f).ref == 0 with
  | none => .ok (none, s)
  | some f => .ok (some f, s.setFile f { s.file f with ref := 1 })

def filedup (f : ℕ) : KProg Unit := act .silent fun s =>
  if (s.file f).ref < 1 then .error .filedup
  else .ok ((), s.setFile f { s.file f with ref := (s.file f).ref + 1 })

def fileclose (f : ℕ) : KProg Unit := do
  let ff ← act .silent fun s =>
    let x := s.file f
    if x.ref < 1 then .error .fileclose
    else if 0 < x.ref - 1 then .ok (none, s.setFile f { x with ref := x.ref - 1 })
    else .ok (some x, s.setFile f { x with ref := 0, isInode := false })
  match ff with
  | some x => if x.isInode then iput .silent x.ip else return ()
  | none => return ()

/-! ## sysfile.c -/

/-- -1, the result of a failed call -/
def fail : KProg ℤ := return -1

/-- change `nlink` of the locked inode `i`, with its `iupdate` -/
def setNlink (e : Ev) (i : ℕ) (f : BitVec 16 → BitVec 16) : KProg Unit :=
  modify e fun s => s.setInode i { s.inode i with nlink := f (s.inode i).nlink }

/-- `sys_link`'s label `bad` -/
def linkBad (ip : ℕ) : KProg ℤ := do
  ilock ip
  setNlink .silent ip (· - 1)
  iunlockput .silent ip
  fail

def sysLink (p : ℕ) (old new : List Byte) : KProg ℤ := do
  match ← namei p old with
  | none => fail
  | some ip => do
    ilock ip
    let n ← look (·.inode ip)
    if n.type = .dir then do
      iunlockput .silent ip
      fail
    else do
      setNlink (.inc ip) ip (· + 1)
      iunlock ip
      match ← nameiparent p new with
      | none => linkBad ip
      | some (dp, name) => do
        ilock dp
        let ok ← dirlink dp name ip
        if ok then do
          iunlockput .silent dp
          iput .silent ip
          return 0
        else do
          iunlockput .silent dp
          linkBad ip

/-- no used entry past "." and ".." -/
def isdirempty (ents : List Dirent) : Bool := (ents.drop 2).all fun de => de.inum == 0

/-- `sys_unlink`'s label `bad` -/
def unlinkBad (dp : ℕ) : KProg ℤ := do
  iunlockput .silent dp
  fail

/-- a removed directory no longer links its parent through ".." -/
def dropDotdot (dp : ℕ) (type : IType) : KProg Unit :=
  if type = .dir then setNlink .silent dp (· - 1) else pure ()

def sysUnlink (p : ℕ) (path : List Byte) : KProg ℤ := do
  match ← nameiparent p path with
  | none => fail
  | some (dp, name) => do
    ilock dp
    -- Cannot unlink "." or "..".
    if name = dot ∨ name = dotdot then unlinkBad dp
    else do
      match ← dirlookup dp name with
      | none => unlinkBad dp
      | some (ip, off) => do
        ilock ip
        check .unlinkNlink fun s => 1 ≤ (s.inode ip).nlink.toInt
        let n ← look (·.inode ip)
        if n.type = .dir ∧ ¬ isdirempty n.ents then do
          iunlockput .silent ip
          unlinkBad dp
        else do
          modify .silent fun s => s.setInode dp { s.inode dp with ents := (s.inode dp).ents.set off ⟨0, []⟩ }
          dropDotdot dp n.type
          iunlockput .retake dp
          setNlink .silent ip (· - 1)
          iunlockput .silent ip
          return 0

/-- create . and .. entries -/
def createDots (dp ip : ℕ) (type : IType) : KProg Unit :=
  if type = .dir then do
    setNlink (.inc dp) dp (· + 1)  -- for ".."
    let d1 ← dirlink ip dot ip
    check .createDots fun _ => d1
    let d2 ← dirlink ip dotdot dp
    check .createDots fun _ => d2
  else pure ()

/-- `create`'s new inode `ip` in `dp`: its fields, for a directory its dots, and its name -/
def createNew (dp : ℕ) (name : Name) (type : IType) (major minor : BitVec 16) : KProg ℕ := do
  let ip ← ialloc type
  ilock ip
  modify .silent fun s => s.setInode ip { s.inode ip with major := major, minor := minor, nlink := 1 }
  createDots dp ip type
  let d3 ← dirlink dp name ip
  check .createDirlink fun _ => d3
  iunlockput .retake dp
  return ip

/-- returns the inode locked -/
def create (p : ℕ) (path : List Byte) (type : IType) (major minor : BitVec 16) : KProg (Option ℕ) := do
  match ← nameiparent p path with
  | none => return none
  | some (dp, name) => do
    ilock dp
    match ← dirlookup dp name with
    | some (ip, _) => do
      iunlockput .silent dp
      ilock ip
      let n ← look (·.inode ip)
      if type = .file ∧ n.type = .file then return some ip
      else do
        iunlockput .silent ip
        return none
    | none => do
      let ip ← createNew dp name type major minor
      return some ip

def O_RDONLY : Word := 0
def O_WRONLY : Word := 1
def O_RDWR : Word := 2
def O_CREATE : Word := 0x200

/-- the first free descriptor of process `p`, set to `f` -/
def fdalloc (p f : ℕ) : KProg (Option ℕ) := act .silent fun s =>
  match s.proc p with
  | none => .ok (none, s)
  | some pr =>
    match (List.range NOFILE).find? fun fd => (pr.ofile fd).isNone with
    | none => .ok (none, s)
    | some fd => .ok (some fd, s.setProc p (some { pr with ofile := update pr.ofile fd (some f) }))

/-- `sys_open` once it has the locked inode -/
def openFile (p ip : ℕ) (omode : Word) : KProg ℤ := do
  match ← filealloc with
  | none => do
    iunlockput .silent ip
    fail
  | some f => do
    match ← fdalloc p f with
    | none => do
      fileclose f
      iunlockput .silent ip
      fail
    | some fd => do
      iunlock ip
      modify .silent fun s => s.setFile f { s.file f with
        isInode := true, ip := ip,
        readable := omode &&& O_WRONLY == 0,
        writable := omode &&& O_WRONLY != 0 || omode &&& O_RDWR != 0 }
      return fd

def sysOpen (p : ℕ) (path : List Byte) (omode : Word) : KProg ℤ := do
  if omode &&& O_CREATE ≠ 0 then do
    match ← create p path .file 0 0 with
    | none => fail
    | some ip => openFile p ip omode
  else do
    match ← namei p path with
    | none => fail
    | some ip => do
      ilock ip
      let n ← look (·.inode ip)
      if n.type = .dir ∧ omode ≠ O_RDONLY then do
        iunlockput .silent ip
        fail
      else openFile p ip omode

/-- `sys_mkdir` and `sys_mknod` -/
def createAndPut (p : ℕ) (path : List Byte) (type : IType) (major minor : BitVec 16) : KProg ℤ := do
  match ← create p path type major minor with
  | none => fail
  | some ip => do
    iunlockput .silent ip
    return 0

def sysMkdir (p : ℕ) (path : List Byte) : KProg ℤ := createAndPut p path .dir 0 0

def sysMknod (p : ℕ) (path : List Byte) (major minor : BitVec 16) : KProg ℤ := createAndPut p path .dev major minor

/-- the current directory of process `p` -/
def cwdOf (p : ℕ) (s : Kern) : ℕ := ((s.proc p).map Proc.cwd).getD 0

def sysChdir (p : ℕ) (path : List Byte) : KProg ℤ := do
  match ← namei p path with
  | none => fail
  | some ip => do
    ilock ip
    let n ← look (·.inode ip)
    if n.type ≠ .dir then do
      iunlockput .silent ip
      fail
    else do
      iunlock ip
      let cwd ← look (cwdOf p)
      iput .silent cwd
      modify .silent fun s => s.setProc p ((s.proc p).map fun pr => { pr with cwd := ip })
      return 0

/-- `argfd`: the file behind descriptor `fd` -/
def argfd (p fd : ℕ) (s : Kern) : Option ℕ :=
  if fd < NOFILE then (s.proc p).bind fun pr => pr.ofile fd else none

/-- `ofile[fd] = 0` -/
def clearFd (p fd : ℕ) : KProg Unit := modify .silent fun s =>
  s.setProc p ((s.proc p).map fun pr => { pr with ofile := update pr.ofile fd none })

def sysClose (p fd : ℕ) : KProg ℤ := do
  match ← look (argfd p fd) with
  | none => fail
  | some f => do
    clearFd p fd
    fileclose f
    return 0

/-! ## proc.c -/

/-- the loop of `fork` over the parent's descriptors -/
def forkFiles (p : ℕ) : List ℕ → KProg Unit
  | [] => pure ()
  | fd :: fds => do
    match ← look (argfd p fd) with
    | none => forkFiles p fds
    | some f => do
      filedup f
      forkFiles p fds

/-- `fork` into the unused entry `q` of the process table: the files and `idup(cwd)` -/
def fork (p q : ℕ) : KProg ℤ := do
  let unused ← look fun s => (s.proc q).isNone
  if unused then do
    forkFiles p (List.range NOFILE)
    modify .silent fun s =>
      { s.setProc q (s.proc p) with ref := update s.ref (cwdOf p s) (s.ref (cwdOf p s) + 1) }
    return q
  else fail

/-- the loop of `exit` over the descriptors -/
def exitFiles (p : ℕ) : List ℕ → KProg Unit
  | [] => pure ()
  | fd :: fds => do
    match ← look (argfd p fd) with
    | none => exitFiles p fds
    | some f => do
      fileclose f
      clearFd p fd
      exitFiles p fds

/-- `exit` of process `p`; process 0 is init -/
def exit (p : ℕ) : KProg ℤ := do
  check .initExiting fun _ => p ≠ 0
  exitFiles p (List.range NOFILE)
  let cwd ← look (cwdOf p)
  iput .silent cwd
  modify .silent fun s => s.setProc p none
  return 0

/-! ## Calls and runs -/

/-- the calls, with their arguments -/
inductive Syscall where
  | open (path : List Byte) (omode : Word)
  | mkdir (path : List Byte)
  | mknod (path : List Byte) (major minor : BitVec 16)
  | link (old new : List Byte)
  | unlink (path : List Byte)
  | chdir (path : List Byte)
  | close (fd : ℕ)
  | fork (q : Fin NPROC)
  | exit

/-- the kernel code of a call made by process `p` -/
def Syscall.code (p : ℕ) : Syscall → KProg ℤ
  | .open path omode => sysOpen p path omode
  | .mkdir path => sysMkdir p path
  | .mknod path major minor => sysMknod p path major minor
  | .link old new => sysLink p old new
  | .unlink path => sysUnlink p path
  | .chdir path => sysChdir p path
  | .close fd => sysClose p fd
  | .fork q => Sysfile.fork p q
  | .exit => Sysfile.exit p

/-- the image of `mkfs` on a list of file names: the root with its dots, then the files from inode 2 on; the root's size
is filled up to the next block -/
def mkfsInode (files : List Name) (i : ℕ) : Inode :=
  if i = ROOTINO then
    let ents := ⟨ROOTINO, dot⟩ :: ⟨ROOTINO, dotdot⟩ :: files.mapIdx fun k name => ⟨k + 2, name⟩
    { type := .dir, nlink := 1,
      ents := ents ++ List.replicate (BSIZE / DIRENTSIZE - ents.length % (BSIZE / DIRENTSIZE)) ⟨0, []⟩ }
  else if 2 ≤ i ∧ i < files.length + 2 then { type := .file, nlink := 1 }
  else {}

/-- the kernel after boot: init, with the root as its current directory -/
def boot (files : List Name) : Kern where
  inode := mkfsInode files
  ref i := if i = ROOTINO then 1 else 0
  valid _ := false
  file _ := {}
  proc p := if p = 0 then some { cwd := ROOTINO } else none

/-- the file names `mkfs` is given: they have inodes, and are neither "." nor ".." -/
def MkfsNames (files : List Name) : Prop := files.length + 2 ≤ NINODES ∧ dot ∉ files ∧ dotdot ∉ files

/-- the states between calls, from an image of `mkfs`, when the steps of all calls meet `Guard` -/
inductive Reach (Guard : Ev → Kern → Prop) : Cfg Kern → Prop where
  | boot {files : List Name} : MkfsNames files → Reach Guard ⟨boot files, ∅⟩
  | call {c d : Cfg Kern} {p : ℕ} {r : ℤ} (sc : Syscall) : Reach Guard c → (c.st.proc p).isSome →
      (sc.code p).Runs Guard c r d → Reach Guard d

/-- the state after a script of calls, each by a process, computed under a decidable condition -/
def script (g : Ev → Kern → Bool) : List (ℕ × Syscall) → Cfg Kern → Option (Cfg Kern)
  | [], c => some c
  | (p, sc) :: l, c =>
    if (c.st.proc p).isSome then
      match (sc.code p).exec g c with
      | .done _ d => script g l d
      | _ => none
    else none

theorem reach_script {g : Ev → Kern → Bool} {Guard : Ev → Kern → Prop} (hg : ∀ e s, g e s = true → Guard e s)
    {l : List (ℕ × Syscall)} {c d : Cfg Kern} (hc : Reach Guard c) (h : script g l c = some d) : Reach Guard d := by
  induction l generalizing c with
  | nil => exact Option.some.inj h ▸ hc
  | cons x l ih =>
    obtain ⟨p, sc⟩ := x
    simp only [script] at h
    split_ifs at h with hp
    split at h
    · next r d' hd => exact ih (hc.call sc hp (runs_of_exec hg hd)) h
    · cases h

end Xv6.Sysfile
