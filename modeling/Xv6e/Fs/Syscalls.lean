import Xv6e.Fs.Inodes

/-!
# File-system calls

The system calls of `sysfile.c` and what `file.c` and `proc.c` do for them.  Pipes and `exec` are left out, so
are `dup` and `fstat`, and the bytes of files; what is said of every call and of every run is said of the
calls below.  A call returns the value of its register; `-1` is failure.

* `create` and the calls `open`, `mkdir`, `mknod`, `link`, `unlink`, `chdir`;
* `read`, `write`, `close` on descriptors; `fork` and `exit`.
-/

namespace Xv6e.Fs.Syscalls

open Library.Locking Names Inodes
open Prog (read modify atomic)
open Function (update)

/-! ### Name space -/

def incLink (ip : ℕ) : M Unit := updateInode ip fun i => { i with nlink := short (i.nlink + 1) }

def decLink (ip : ℕ) : M Unit := updateInode ip fun i => { i with nlink := short (i.nlink - 1) }

/-- The entries `.` and `..` of a new directory, and the link of its parent. -/
def makeDots (dp ip : ℕ) : M Unit := do
  incLink dp
  let ok ← dirlink ip dot ip
  if ok then do
    let ok ← dirlink ip dotdot dp
    if ok then return () else .panic .createDots
  else .panic .createDots

def whenDir (type : FileType) (c : M Unit) : M Unit := if type = .dir then c else return ()

/-- The inode that `create` allocates, locked and with its first link. -/
def makeInode (type : FileType) (major minor : ℤ) : M ℕ := do
  let ip ← ialloc type
  ilock ip
  updateInode ip fun i => { i with major := short major, minor := short minor, nlink := 1 }
  return ip

/-- The part of `create` that makes the inode, with the parent locked. -/
def createNew (dp : ℕ) (name : Name) (type : FileType) (major minor : ℤ) : M ℕ := do
  let ip ← makeInode type major minor
  whenDir type (makeDots dp ip)
  let ok ← dirlink dp name ip
  if ok then do
    iunlockput dp
    return ip
  else .panic .createDirlink

def create (p : ℕ) (path : Name) (type : FileType) (major minor : ℤ) : M (Option ℕ) := do
  match ← nameiparent p path with
  | none => return none
  | some (dp, name) =>
    ilock dp
    match ← dirlookup dp name with
    | some (ip, _) =>
      iunlockput dp
      ilock ip
      let found ← read fun s => (s.inode ip).type
      if type = .file ∧ found = .file then return some ip
      else do
        iunlockput ip
        return none
    | none =>
      let ip ← createNew dp name type major minor
      return some ip

def sysMkdir (p : ℕ) (path : Name) : M ℤ := do
  match ← create p path .dir 0 0 with
  | none => return -1
  | some ip =>
    iunlockput ip
    return 0

def sysMknod (p : ℕ) (path : Name) (major minor : ℤ) : M ℤ := do
  match ← create p path .dev major minor with
  | none => return -1
  | some ip =>
    iunlockput ip
    return 0

def linkBad (ip : ℕ) : M ℤ := do
  ilock ip
  decLink ip
  iunlockput ip
  return -1

def sysLink (p : ℕ) (old new : Name) : M ℤ := do
  match ← namei p old with
  | none => return -1
  | some ip =>
    ilock ip
    let type ← read fun s => (s.inode ip).type
    if type = .dir then do
      iunlockput ip
      return -1
    else do
      incLink ip
      iunlock ip
      match ← nameiparent p new with
      | none => linkBad ip
      | some (dp, name) =>
        ilock dp
        let ok ← dirlink dp name ip
        iunlockput dp
        if ok then do
          iput ip
          return 0
        else linkBad ip

/-- The part of `unlink` that removes the entry at `off` of `dp` for `ip`, both locked. -/
def removeEntry (dp ip off : ℕ) : M ℤ := do
  let ok ← writeDirent dp off Dirent.zero
  if ok then do
    let type ← read fun s => (s.inode ip).type
    whenDir type (decLink dp)
    iunlockput dp
    decLink ip
    iunlockput ip
    return 0
  else .panic .unlinkWritei

def sysUnlink (p : ℕ) (path : Name) : M ℤ := do
  match ← nameiparent p path with
  | none => return -1
  | some (dp, name) =>
    ilock dp
    if sameName name dot || sameName name dotdot then do
      iunlockput dp
      return -1
    else
      match ← dirlookup dp name with
      | none =>
        iunlockput dp
        return -1
      | some (ip, off) =>
        ilock ip
        let (type, nlink, entries) ← read fun s =>
          ((s.inode ip).type, (s.inode ip).nlink, (s.dinode ip).entries)
        if nlink < 1 then .panic .unlinkNlink
        else if type = .dir ∧ isdirempty entries = false then do
          iunlockput ip
          iunlockput dp
          return -1
        else removeEntry dp ip off

def sysChdir (p : ℕ) (path : Name) : M ℤ := do
  match ← namei p path with
  | none => return -1
  | some ip =>
    ilock ip
    let type ← read fun s => (s.inode ip).type
    if type ≠ .dir then do
      iunlockput ip
      return -1
    else do
      iunlock ip
      let cwd ← read fun s => ((s.proc p).map Proc.cwd).getD ROOTINO
      iput cwd
      modify fun s => { s with proc := update s.proc p ((s.proc p).map fun q => { q with cwd := ip }) }
      return 0

/-! ### Files -/

def O_RDWR : ℕ := 0x002

def filealloc : M (Option ℕ) :=
  atomic fun s =>
    match (List.range NFILE).find? fun f => (s.file f).ref = 0 with
    | none => .ok (none, s)
    | some f => .ok (some f, { s with file := update s.file f { s.file f with ref := 1 } })

/-- Set or clear a descriptor of process `p`. -/
def State.setFd (s : State) (p fd : ℕ) (f : Option ℕ) : State :=
  { s with proc := update s.proc p ((s.proc p).map fun q => { q with ofile := update q.ofile fd f }) }

def State.ofile (s : State) (p fd : ℕ) : Option ℕ := (s.proc p).bind fun q => q.ofile fd

def fdalloc (p f : ℕ) : M (Option ℕ) :=
  atomic fun s =>
    match (List.range NOFILE).find? fun fd => State.ofile s p fd = none with
    | none => .ok (none, s)
    | some fd => .ok (some fd, State.setFd s p fd (some f))

/-- The part of `fileclose` under `ftable.lock`: the inode to put, when that was the last reference to its
file. -/
def dropFile (f : ℕ) : M (Option ℕ) :=
  atomic fun s =>
    let ff := s.file f
    if ff.ref < 1 then .error .fileclose
    else if 1 < ff.ref then .ok (none, { s with file := update s.file f { ff with ref := ff.ref - 1 } })
    else .ok (ff.ip, { s with file := update s.file f { ff with ref := 0, ip := none } })

def fileclose (f : ℕ) : M Unit := do
  match ← dropFile f with
  | none => return ()
  | some ip => iput ip

/-- The fields that `open` gives a file. -/
def openedFile (ref ip omode : ℕ) : File where
  ref := ref
  ip := some ip
  readable := omode &&& O_WRONLY = 0
  writable := omode &&& O_WRONLY ≠ 0 ∨ omode &&& O_RDWR ≠ 0
  off := 0

/-- The end of `open`: a file and a descriptor for the inode, which is locked. -/
def openFile (p ip omode : ℕ) : M ℤ := do
  match ← filealloc with
  | none =>
    iunlockput ip
    return -1
  | some f =>
    match ← fdalloc p f with
    | none =>
      fileclose f
      iunlockput ip
      return -1
    | some fd =>
      iunlock ip
      modify fun s => { s with file := update s.file f (openedFile (s.file f).ref ip omode) }
      return fd

def sysOpen (p : ℕ) (path : Name) (omode : ℕ) : M ℤ := do
  if omode &&& O_CREATE ≠ 0 then do
    match ← create p path .file 0 0 with
    | none => return -1
    | some ip => openFile p ip omode
  else do
    match ← namei p path with
    | none => return -1
    | some ip =>
      ilock ip
      let type ← read fun s => (s.inode ip).type
      if type = .dir ∧ omode ≠ O_RDONLY then do
        iunlockput ip
        return -1
      else openFile p ip omode

def sysClose (p fd : ℕ) : M ℤ := do
  match ← read fun s => State.ofile s p fd with
  | none => return -1
  | some f =>
    modify fun s => State.setFd s p fd none
    fileclose f
    return 0

def CONSOLE : ℤ := 1

/-- The device of an inode gives up the inode's lock while it works; `false` for a device without driver. -/
def device (ip : ℕ) : M Bool := do
  let major ← read fun s => (s.inode ip).major
  if major = CONSOLE then do
    iunlock ip
    ilock ip
    return true
  else return false

/-- `read` of `n` bytes from a descriptor. -/
def sysRead (p fd n : ℕ) : M ℤ := do
  match ← read fun s => (State.ofile s p fd).map fun f => (f, (s.file f).readable, (s.file f).ip) with
  | none => return -1
  | some (_, false, _) => return -1
  | some (_, true, none) => .panic .fileread
  | some (f, true, some ip) =>
    ilock ip
    let type ← read fun s => (s.inode ip).type
    if type = .dev then do
      let ok ← device ip
      iunlock ip
      return if ok then n else -1
    else do
      let r ← atomic fun s =>
        let size := (s.dinode ip).size
        let off := (s.file f).off
        if size < off then .ok ((-1 : ℤ), s)
        else .ok ((min n (size - off) : ℕ),
          { s with file := update s.file f { s.file f with off := off + min n (size - off) } })
      iunlock ip
      return r

/-- `writei` of `n` bytes at the offset of a file: whether it succeeds. -/
def writeFile (f ip n : ℕ) : M Bool :=
  atomic fun s =>
    let d := s.dinode ip
    let off := (s.file f).off
    if d.size < off ∨ MAXFILE * BSIZE < off + n then .ok (false, s)
    else
      let d' := { d with fsize := max d.fsize (off + n) }
      if s.freeBlocks < nblocks d'.size - nblocks d.size then .error .ballocOutOfBlocks
      else .ok (true, { s.setDinode ip d' with
        freeBlocks := s.freeBlocks - (nblocks d'.size - nblocks d.size)
        file := update s.file f { s.file f with off := off + n } })

/-- The most that `filewrite` writes at a time. -/
def maxWrite : ℕ := (MAXOPBLOCKS - 1 - 1 - 2) / 2 * 512

/-- One round of `filewrite`, with the inode locked: `write` of its device, or `writei`. -/
def writeRound (f ip n : ℕ) (type : FileType) : M Bool := if type = .dev then device ip else writeFile f ip n

/-- The loop of `filewrite` with `n` bytes to go: whether all of them are written; `fuel` bounds the
rounds. -/
def writeLoop (f ip : ℕ) : ℕ → ℕ → M Bool
  | 0, n => return n = 0
  | fuel + 1, n =>
    if n = 0 then return true
    else do
      ilock ip
      let type ← read fun s => (s.inode ip).type
      let ok ← writeRound f ip (min n maxWrite) type
      iunlock ip
      if ok then writeLoop f ip fuel (n - min n maxWrite) else return false

/-- `write` of `n` bytes to a descriptor. -/
def sysWrite (p fd n : ℕ) : M ℤ := do
  match ← read fun s => (State.ofile s p fd).map fun f => (f, (s.file f).writable, (s.file f).ip) with
  | none => return -1
  | some (_, false, _) => return -1
  | some (_, true, none) => .panic .filewrite
  | some (f, true, some ip) =>
    let ok ← writeLoop f ip n n
    return if ok then n else -1

/-! ### Processes -/

def filedup (f : ℕ) : M Unit :=
  atomic fun s =>
    if (s.file f).ref < 1 then .error .filedup
    else .ok ((), { s with file := update s.file f { s.file f with ref := (s.file f).ref + 1 } })

/-- The loop of `fork` over the descriptors. -/
def dupFiles (p q : ℕ) : List ℕ → M Unit
  | [] => return ()
  | fd :: rest => do
    match ← read fun s => State.ofile s p fd with
    | none => dupFiles p q rest
    | some f =>
      filedup f
      modify fun s => State.setFd s q fd (some f)
      dupFiles p q rest

/-- `fork` of process `p` into the unused process `q`, as far as the file system is concerned. -/
def sysFork (p q : ℕ) : M ℤ := do
  let cwd ← read fun s => ((s.proc p).map Proc.cwd).getD ROOTINO
  let cwd ← idup cwd
  modify fun s => { s with proc := update s.proc q (some ⟨cwd, fun _ => none⟩) }
  dupFiles p q (List.range NOFILE)
  return q

/-- The loop of `exit` over the descriptors. -/
def closeFiles (p : ℕ) : List ℕ → M Unit
  | [] => return ()
  | fd :: rest => do
    match ← read fun s => State.ofile s p fd with
    | none => closeFiles p rest
    | some f =>
      fileclose f
      modify fun s => State.setFd s p fd none
      closeFiles p rest

def initproc : ℕ := 1

def sysExit (p : ℕ) : M ℤ := do
  if p = initproc then .panic .initExiting
  else do
    closeFiles p (List.range NOFILE)
    let cwd ← read fun s => ((s.proc p).map Proc.cwd).getD ROOTINO
    iput cwd
    modify fun s => { s with proc := update s.proc p none }
    return 0

/-! ### Calls -/

inductive Call where
  | open (path : Name) (omode : ℕ)
  | mkdir (path : Name)
  | mknod (path : Name) (major minor : ℤ)
  | link (old new : Name)
  | unlink (path : Name)
  | chdir (path : Name)
  | read (fd n : ℕ)
  | write (fd n : ℕ)
  | close (fd : ℕ)
  | fork (child : ℕ)
  | exit
  deriving DecidableEq, Repr

/-- The code of a call made by process `p`. -/
def syscall (p : ℕ) : Call → M ℤ
  | .open path omode => sysOpen p path omode
  | .mkdir path => sysMkdir p path
  | .mknod path major minor => sysMknod p path major minor
  | .link old new => sysLink p old new
  | .unlink path => sysUnlink p path
  | .chdir path => sysChdir p path
  | .read fd n => sysRead p fd n
  | .write fd n => sysWrite p fd n
  | .close fd => sysClose p fd
  | .fork child => sysFork p child
  | .exit => sysExit p

end Xv6e.Fs.Syscalls
