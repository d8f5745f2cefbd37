import Xv6e.Params
import Xv6e.Library.Locking
import Xv6e.Fs.Names

/-!
# Inodes, directories and paths

The inode, directory and path layers of `fs.c`, as programs whose atomic sections are those under
`icache.lock` and under a buffer's lock.  There is one device, so an inode is named by its number, and the
inode cache is a map from the numbers of cached inodes: `iget` finds an inode that is cached, or takes one of
the `NINODE` places for it.  Directories are lists of entries and files have a size; which blocks hold them is
not modelled here, only how many there are (`nblocks`, `freeBlocks`), so that running out of blocks is.

An update of a field of a cached inode and the `iupdate` that follows it are one section: the field is
protected by the inode's lock, which the caller holds.

* `iget`, `idup`, `ilock`, `iunlock`, `iput`, `ialloc` — inodes;
* `dirlookup`, `dirlink`, `namex` — directories and paths.
-/

namespace Xv6e.Fs.Inodes

open Library.Locking Names

/-! ### Parameters -/

def NDIRECT : ℕ := 12

def NINDIRECT : ℕ := 128

def MAXFILE : ℕ := NDIRECT + NINDIRECT

def NOFILE : ℕ := 16

def NFILE : ℕ := 100

def ROOTINO : ℕ := 1

/-- The number of inodes `mkfs` gives a file system, `sb.ninodes`. -/
def NINODES : ℕ := 200

def short (z : ℤ) : ℤ := (z + 2 ^ 15) % 2 ^ 16 - 2 ^ 15

/-! ### State -/

/-- The type of an inode: `0` for a free one, `T_DIR`, `T_FILE`, `T_DEV`. -/
inductive FileType where
  | free
  | dir
  | file
  | dev
  deriving DecidableEq, Repr

/-- `struct dinode` with the contents of the inode: the entries of a directory, the size of a file. -/
structure Dinode where
  type : FileType
  major : ℤ
  minor : ℤ
  nlink : ℤ
  entries : List Dirent
  fsize : ℕ
  deriving DecidableEq, Repr

def Dinode.zero : Dinode := ⟨.free, 0, 0, 0, [], 0⟩

def Dinode.size (d : Dinode) : ℕ := direntSize * d.entries.length + d.fsize

/-- `struct inode`: the cached inode and its copy of the dinode. -/
structure Inode where
  ref : ℕ
  valid : Bool
  type : FileType
  major : ℤ
  minor : ℤ
  nlink : ℤ
  deriving DecidableEq, Repr

/-- `struct file`; `ip` is `none` for the type `FD_NONE`. -/
structure File where
  ref : ℕ
  ip : Option ℕ
  readable : Bool
  writable : Bool
  off : ℕ
  deriving DecidableEq, Repr

/-- What the file system reads of a process. -/
structure Proc where
  cwd : ℕ
  ofile : ℕ → Option ℕ

/-- The disk, the inode cache, the file table and the processes.  `inUse` is the number of cached inodes. -/
structure State where
  dinode : ℕ → Dinode
  freeBlocks : ℕ
  inode : ℕ → Inode
  inUse : ℕ
  file : ℕ → File
  proc : ℕ → Option Proc

/-- Where a sleep-lock of an inode is taken. -/
inductive Via where
  | ilock
  | iput
  deriving DecidableEq, Repr

inductive Panic where
  | ilock
  | ilockNoType
  | iunlock
  | igetNoInodes
  | iallocNoInodes
  | ballocOutOfBlocks
  | dirlookupNotDir
  | dirlink
  | unlinkNlink
  | unlinkWritei
  | createDots
  | createDirlink
  | filedup
  | fileclose
  | fileread
  | filewrite
  | initExiting
  deriving DecidableEq, Repr

/-- Code of the file system: the locks are those of inodes, by number. -/
abbrev M (α : Type) : Type := Prog State ℕ Via Panic α

open Prog (read modify atomic acquire release)

def State.setDinode (s : State) (n : ℕ) (d : Dinode) : State :=
  { s with dinode := Function.update s.dinode n d }

def State.setInode (s : State) (n : ℕ) (ip : Inode) : State :=
  { s with inode := Function.update s.inode n ip }

/-- The number of blocks of contents of a given size, with the indirect block. -/
def nblocks (size : ℕ) : ℕ :=
  let data := (size + BSIZE - 1) / BSIZE
  data + if NDIRECT < data then 1 else 0

/-! ### Inodes -/

/-- `iget`: the inode with number `inum`, cached and referenced. -/
def iget (inum : ℕ) : M ℕ :=
  atomic fun s =>
    let ip := s.inode inum
    if 0 < ip.ref then .ok (inum, s.setInode inum { ip with ref := ip.ref + 1 })
    else if s.inUse = NINODE then .error .igetNoInodes
    else .ok (inum, { s.setInode inum { ip with ref := 1, valid := false } with inUse := s.inUse + 1 })

def idup (ip : ℕ) : M ℕ :=
  atomic fun s => .ok (ip, s.setInode ip { s.inode ip with ref := (s.inode ip).ref + 1 })

/-- The part of `ilock` under the lock: read the inode from the disk if necessary. -/
def loadInode (ip : ℕ) : M Unit :=
  atomic fun s =>
    if (s.inode ip).valid then .ok ((), s)
    else
      let d := s.dinode ip
      if d.type = .free then .error .ilockNoType
      else .ok ((), s.setInode ip { s.inode ip with
        valid := true, type := d.type, major := d.major, minor := d.minor, nlink := d.nlink })

def ilock (ip : ℕ) : M Unit := do
  let ref ← read fun s => (s.inode ip).ref
  if ref < 1 then .panic .ilock
  else
    acquire ip .ilock
    loadInode ip

def iunlock (ip : ℕ) : M Unit := do
  let ref ← read fun s => (s.inode ip).ref
  if ref < 1 then .panic .iunlock
  else release ip .iunlock

/-- `iupdate`: copy the fields of the cached inode to the disk. -/
def State.iupdate (s : State) (ip : ℕ) : State :=
  s.setDinode ip { s.dinode ip with
    type := (s.inode ip).type, major := (s.inode ip).major, minor := (s.inode ip).minor, nlink :=
      (s.inode ip).nlink }

/-- Change fields of a cached inode, and `iupdate`. -/
def updateInode (ip : ℕ) (f : Inode → Inode) : M Unit :=
  modify fun s => (s.setInode ip (f (s.inode ip))).iupdate ip

/-- `itrunc`: the blocks of the contents are freed. -/
def itrunc (ip : ℕ) : M Unit :=
  modify fun s =>
    State.iupdate { s.setDinode ip { s.dinode ip with entries := [], fsize := 0 } with
      freeBlocks := s.freeBlocks + nblocks (s.dinode ip).size } ip

/-- `ip->type = 0; iupdate(ip); ip->valid = 0;` -/
def freeInode (ip : ℕ) : M Unit :=
  modify fun s =>
    let s := (s.setInode ip { s.inode ip with type := .free }).iupdate ip
    s.setInode ip { s.inode ip with valid := false }

def dropRef (ip : ℕ) : M Unit :=
  modify fun s =>
    { s.setInode ip { s.inode ip with ref := (s.inode ip).ref - 1 } with
      inUse := if (s.inode ip).ref = 1 then s.inUse - 1 else s.inUse }

/-- The part of `iput` under the lock: the inode is freed when it has no links and no other references. -/
def freeIfLast (ip : ℕ) : M Unit := do
  let last ← read fun s => decide ((s.inode ip).valid = true ∧ (s.inode ip).nlink = 0 ∧ (s.inode ip).ref = 1)
  if last then do
    itrunc ip
    freeInode ip
  else return ()

def iput (ip : ℕ) : M Unit := do
  acquire ip .iput
  freeIfLast ip
  release ip .iunlock
  dropRef ip

def iunlockput (ip : ℕ) : M Unit := do
  iunlock ip
  iput ip

/-- One round of the loop of `ialloc`: take the inode if it is free. -/
def takeInode (inum : ℕ) (type : FileType) : M Bool :=
  atomic fun s =>
    if (s.dinode inum).type = .free then .ok (true, s.setDinode inum { Dinode.zero with type := type })
    else .ok (false, s)

/-- The loop of `ialloc` over inode numbers. -/
def iallocLoop (type : FileType) : List ℕ → M ℕ
  | [] => .panic .iallocNoInodes
  | inum :: rest => do
    let taken ← takeInode inum type
    if taken then iget inum else iallocLoop type rest

def ialloc (type : FileType) : M ℕ := iallocLoop type (List.range' 1 (NINODES - 1))

/-! ### Directories -/

/-- `dirlookup`: the inode of an entry, referenced, and the offset of the entry. -/
def dirlookup (dp : ℕ) (name : Name) : M (Option (ℕ × ℕ)) := do
  let (type, entries) ← read fun s => ((s.inode dp).type, (s.dinode dp).entries)
  if type ≠ .dir then .panic .dirlookupNotDir
  else
    match findEntry name entries 0 with
    | none => return none
    | some (off, inum) =>
      let ip ← iget inum
      return some (ip, off)

/-- The entry at index `k` written, or appended. -/
def putEntry (entries : List Dirent) (k : ℕ) (de : Dirent) : List Dirent :=
  if k < entries.length then entries.set k de else entries ++ [de]

/-- `writei` of one directory entry; `false` for the return value `-1`. -/
def writeDirent (dp off : ℕ) (de : Dirent) : M Bool :=
  atomic fun s =>
    let d := s.dinode dp
    if d.size < off ∨ MAXFILE * BSIZE < off + direntSize then .ok (false, s)
    else
      let d' := { d with entries := putEntry d.entries (off / direntSize) de }
      if s.freeBlocks < nblocks d'.size - nblocks d.size then .error .ballocOutOfBlocks
      else .ok (true,
        { s.setDinode dp d' with freeBlocks := s.freeBlocks - (nblocks d'.size - nblocks d.size) })

/-- `dirlink`; `false` for the return value `-1`. -/
def dirlink (dp : ℕ) (name : Name) (inum : ℕ) : M Bool := do
  match ← dirlookup dp name with
  | some (ip, _) =>
    iput ip
    return false
  | none =>
    let entries ← read fun s => (s.dinode dp).entries
    let ok ← writeDirent dp (freeEntry entries 0) ⟨inum, name.take DIRSIZ⟩
    if ok then return true else .panic .dirlink

/-! ### Paths -/

/-- The loop of `namex`, from inode `ip` on; `fuel` bounds the number of elements of the path. -/
def namexLoop (nameiparent : Bool) : ℕ → Name → ℕ → M (Option (ℕ × Name))
  | 0, _, _ => return none
  | fuel + 1, path, ip =>
    match skipelem path with
    | none =>
      if nameiparent then do
        iput ip
        return none
      else return some (ip, [])
    | some (name, rest) => do
      ilock ip
      let type ← read fun s => (s.inode ip).type
      if type ≠ .dir then
        iunlockput ip
        return none
      else if nameiparent && rest = [] then
        -- stop one level early
        iunlock ip
        return some (ip, name)
      else
        match ← dirlookup ip name with
        | none =>
          iunlockput ip
          return none
        | some (next, _) =>
          iunlockput ip
          namexLoop nameiparent fuel rest next

def idupCwd (p : ℕ) : M ℕ := do
  let cwd ← read fun s => ((s.proc p).map Proc.cwd).getD ROOTINO
  idup cwd

def namexStart (p : ℕ) (path : Name) : M ℕ := if path.head? = some slash then iget ROOTINO else idupCwd p

def namex (p : ℕ) (path : Name) (nameiparent : Bool) : M (Option (ℕ × Name)) := do
  let ip ← namexStart p path
  namexLoop nameiparent (path.length + 1) path ip

def namei (p : ℕ) (path : Name) : M (Option ℕ) := do
  let r ← namex p path false
  return r.map Prod.fst

/-- `nameiparent`: the inode of the parent, and the last element of the path. -/
def nameiparent (p : ℕ) (path : Name) : M (Option (ℕ × Name)) := namex p path true

end Xv6e.Fs.Inodes
