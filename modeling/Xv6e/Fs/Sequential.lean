import Xv6e.Fs.Syscalls
import Xv6e.Library.Transition
import Xv6e.Library.Sums

/-!
# File-system calls one after another

The states that sequences of calls reach from an image made by `mkfs`: `userinit` has started the first
process in the root directory, and processes make calls in any order, each call running to its end before the
next one starts.  A call that panics or waits for ever has no step.  A process is named by the number of its
place in the process table.

* `mkfs`, `boot` — the image and the state after start-up;
* `calls` — the transition system;
* `resolve` — the inode a path leads to, as a function of the disk;
* `held` — the references to an inode that last from call to call.
-/

namespace Xv6e.Fs.Sequential

open Library.Locking Library.Transition Library.Sums
open Names Inodes Syscalls

/-! ### The image -/

/-- The data blocks of the disk, `FSSIZE - nmeta`. -/
def dataBlocks : ℕ := 1000 - (2 + 30 + 26 + 1)

/-- The entries of the root directory for the files, whose inodes are numbered from `inum` on. -/
def fileEntries : ℕ → List (Name × ℕ) → List Dirent
  | _, [] => []
  | inum, (name, _) :: rest => ⟨inum, name.take DIRSIZ⟩ :: fileEntries (inum + 1) rest

/-- The number of entries of the root directory after its size is rounded: to a whole number of blocks, and
up. -/
def rootLength (used : ℕ) : ℕ := (direntSize * used / BSIZE + 1) * BSIZE / direntSize

/-- The entries of the root directory. -/
def rootEntries (files : List (Name × ℕ)) : List Dirent :=
  ⟨ROOTINO, dot⟩ :: ⟨ROOTINO, dotdot⟩ ::
    (fileEntries 2 files ++ List.replicate (rootLength (2 + files.length) - (2 + files.length)) Dirent.zero)

/-- The inodes that `mkfs` writes for files with the given names and sizes. -/
def mkfs (files : List (Name × ℕ)) (n : ℕ) : Dinode :=
  if n = ROOTINO then ⟨.dir, 0, 0, 1, rootEntries files, 0⟩
  else if 2 ≤ n ∧ n < files.length + 2 then ⟨.file, 0, 0, 1, [], (files.getD (n - 2) ([], 0)).2⟩
  else Dinode.zero

def usedBlocks (D : ℕ → Dinode) : ℕ := tally NINODES (fun d => nblocks d.size) D

/-- What `mkfs` is given: names other than `.` and `..`, and no more files than inodes and blocks.  A root
directory that fills its last block is left out: `mkfs` rounds its size up by a block that it does not
allocate. -/
structure ImageOk (files : List (Name × ℕ)) : Prop where
  names : ∀ f ∈ files, ¬ sameName f.1 dot = true ∧ ¬ sameName f.1 dotdot = true
  inodes : files.length + 2 ≤ NINODES
  blocks : usedBlocks (mkfs files) ≤ dataBlocks
  root : direntSize * (2 + files.length) % BSIZE ≠ 0

theorem imageOk_nil : ImageOk [] := ⟨by simp, by decide, by decide +kernel, by decide⟩

/-- The state in which the first process starts: its current directory is `namei("/")`. -/
def boot (files : List (Name × ℕ)) : State where
  dinode := mkfs files
  freeBlocks := dataBlocks - usedBlocks (mkfs files)
  inode n := if n = ROOTINO then ⟨1, false, .free, 0, 0, 0⟩ else ⟨0, false, .free, 0, 0, 0⟩
  inUse := 1
  file _ := ⟨0, none, false, false, 0⟩
  proc p := if p = initproc then some ⟨ROOTINO, fun _ => none⟩ else none

/-! ### Calls -/

/-- Process `p` can make the call: it exists, and `fork` is given an unused place. -/
def canCall (s : State) (p : ℕ) : Call → Bool
  | .fork q => decide (p < NPROC) && (s.proc p).isSome && decide (q < NPROC) && (s.proc q).isNone
  | _ => decide (p < NPROC) && (s.proc p).isSome

/-- One call, from its start to its return. -/
def callStep (s : State) : ℕ × Call → Option State
  | (p, c) =>
    if canCall s p c then
      match (syscall p c).run s [] with
      | .done _ t _ => some t
      | _ => none
    else none

def calls : System State (ℕ × Call) where
  init s := ∃ files, ImageOk files ∧ s = boot files
  step := callStep

/-! ### Paths as functions of the disk -/

/-- The loop of `namex` without its locks and references. -/
def resolveFrom (D : ℕ → Dinode) (parent : Bool) : ℕ → Name → ℕ → Option (ℕ × Name)
  | 0, _, _ => none
  | fuel + 1, path, n =>
    match skipelem path with
    | none => if parent then none else some (n, [])
    | some (name, rest) =>
      if (D n).type ≠ .dir then none
      else if parent && rest = [] then some (n, name)
      else
        match findEntry name (D n).entries 0 with
        | none => none
        | some (_, next) => resolveFrom D parent fuel rest next

/-- The inode where process `p` starts to look up a path. -/
def startInode (s : State) (p : ℕ) (path : Name) : ℕ :=
  if path.head? = some slash then ROOTINO else ((s.proc p).map Proc.cwd).getD ROOTINO

def resolve (s : State) (p : ℕ) (path : Name) (parent : Bool) : Option (ℕ × Name) :=
  resolveFrom s.dinode parent (path.length + 1) path (startInode s p path)

/-! ### References -/

/-- `1` for a process in directory `n`. -/
def cwdIs (n : ℕ) (q : Option Proc) : ℕ := if q.map Proc.cwd = some n then 1 else 0

/-- `1` for an open file of inode `n`. -/
def fileIs (n : ℕ) (f : File) : ℕ := if f.ip = some n then 1 else 0

/-- The current directories and open files that refer to inode `n`. -/
def held (s : State) (n : ℕ) : ℕ := tally NPROC (cwdIs n) s.proc + tally NFILE (fileIs n) s.file

/-- Every entry in use of every allocated directory refers to an allocated inode. -/
def EntriesOk (D : ℕ → Dinode) : Prop :=
  ∀ d, (D d).type = .dir → ∀ de ∈ (D d).entries, de.inum ≠ 0 → (D de.inum).type ≠ .free

end Xv6e.Fs.Sequential
