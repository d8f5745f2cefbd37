import Mathlib

/-!
# Constants of the headers

The numbers of `param.h`, `memlayout.h`, `fs.h` and `fcntl.h` that more than one part of the system uses, and
the number of addresses of the machine.
-/

namespace Xv6e

def ADDRESSES : ℕ := 2 ^ 32

/-- The first virtual address of the kernel. -/
def KERNBASE : ℕ := 0x80000000

def NPROC : ℕ := 64

def NINODE : ℕ := 50

def MAXOPBLOCKS : ℕ := 10

def BSIZE : ℕ := 512

def O_RDONLY : ℕ := 0x000

def O_WRONLY : ℕ := 0x001

def O_CREATE : ℕ := 0x200

end Xv6e
