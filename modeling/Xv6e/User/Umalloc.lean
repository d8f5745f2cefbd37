import Xv6e.Params
import Xv6e.Library.PointerRing
import Xv6e.Library.Transition

/-!
# The user-level allocator

`free`, `morecore` and `malloc` of `umalloc.c`.  A `Header` is eight bytes: the fields `ptr` and `size` of the
header at an address are two functions of it, and sizes are counted in headers.

What `sbrk` does is given in advance: for each call, whether it fails, and how far above the memory that the
process has the new memory starts.  It never grows the process beyond `KERNBASE`.

* `place`, `insertBlock`, `free` — the loop that looks for the place of a block, and what follows it;
* `sbrk`, `morecore`, `carve`, `mallocLoop`, `malloc`;
* `step`, `Allowed`, `system` — a program that calls `malloc` and `free`.
-/

namespace Xv6e.User.Umalloc

open Library.PointerRing Library.Transition
open Function (update)

/-- The allocator's memory, and that of the process: `top` is its end, `answers` what the next calls of `sbrk`
do, `refused` says that one has failed since `malloc` was called, and `obtained` are the ranges that it
returned. -/
structure Heap where
  ptr : ℕ → ℕ
  size : ℕ → ℕ
  freep : ℕ
  top : ℕ
  answers : List (Option ℕ)
  refused : Bool
  obtained : List (ℕ × ℕ)

def add (p n : ℕ) : ℕ := (p + 8 * n) % ADDRESSES

/-- The loop of `free` ends at `p`: `bp` belongs between `p` and the block after it, or beyond the two ends of
the list. -/
def place (s : Heap) (bp p : ℕ) : Bool :=
  (decide (p < bp) && decide (bp < s.ptr p))
    || (decide (s.ptr p ≤ p) && (decide (p < bp) || decide (bp < s.ptr p)))

/-- The first test of `free`: `bp` is joined to the block after it, or points to it. -/
def joinUpper (s : Heap) (bp p : ℕ) : Heap :=
  if add bp (s.size bp) = s.ptr p then
    { s with
      size := update s.size bp (s.size bp + s.size (s.ptr p))
      ptr := update s.ptr bp (s.ptr (s.ptr p)) }
  else { s with ptr := update s.ptr bp (s.ptr p) }

/-- The second test of `free`: `bp` is joined to `p`, or `p` points to it. -/
def joinLower (s : Heap) (bp p : ℕ) : Heap :=
  if add p (s.size p) = bp then
    { s with
      size := update s.size p (s.size p + s.size bp)
      ptr := update s.ptr p (s.ptr bp) }
  else { s with ptr := update s.ptr p bp }

/-- What `free` does with the block `bp` once it has found the place `p`. -/
def insertBlock (s : Heap) (bp p : ℕ) : Heap := { joinLower (joinUpper s bp p) bp p with freep := p }

/-- `free(ap)`; `none` if its loop does not end. -/
def free (s : Heap) (ap : ℕ) : Option Heap :=
  (follow s.ptr (place s (ap - 8)) ADDRESSES s.freep).map (insertBlock s (ap - 8))

def sbrk (s : Heap) (n : ℕ) : Option ℕ × Heap :=
  match s.answers with
  | some gap :: rest =>
    if s.top + gap + n ≤ KERNBASE then
      (some (s.top + gap),
        { s with top := s.top + gap + n, answers := rest, obtained := s.obtained ++ [(s.top + gap, n)] })
    else (none, { s with answers := rest, refused := true })
  | none :: rest => (none, { s with answers := rest, refused := true })
  | [] => (none, { s with refused := true })

def atLeast (nu : ℕ) : ℕ := if nu < 4096 then 4096 else nu

/-- `morecore(nu)`; `none` if the loop of `free` does not end. -/
def morecore (s : Heap) (nu : ℕ) : Option (ℕ × Heap) :=
  match sbrk s (atLeast nu * 8 % ADDRESSES) with
  | (none, s) => some (0, s)
  | (some p, s) => (free { s with size := update s.size p (atLeast nu) } (p + 8)).map fun s => (s.freep, s)

/-- What `malloc` does with a block `p` that is large enough: it takes all of it, or its end. -/
def carve (s : Heap) (nunits prevp p : ℕ) : ℕ × Heap :=
  if s.size p = nunits then
    (p + 8, { s with ptr := update s.ptr prevp (s.ptr p), freep := prevp })
  else
    let q := add p (s.size p - nunits)
    (q + 8, { s with
      size := update (update s.size p (s.size p - nunits)) q nunits
      freep := prevp })

/-- The loop of `malloc`; `none` if it does not end. -/
def mallocLoop (nunits : ℕ) : ℕ → Heap → ℕ → ℕ → Option (ℕ × Heap)
  | 0, _, _, _ => none
  | fuel + 1, s, prevp, p =>
    if nunits ≤ s.size p then some (carve s nunits prevp p)
    else if p = s.freep then
      match morecore s nunits with
      | none => none
      | some (p, s) => if p = 0 then some (0, s) else mallocLoop nunits fuel s p (s.ptr p)
    else mallocLoop nunits fuel s p (s.ptr p)

/-- The headers that a request takes, its own included. -/
def units (nbytes : ℕ) : ℕ := (nbytes + 8 - 1) % ADDRESSES / 8 + 1

/-- The list of the first call: `base` alone. -/
def initList (base : ℕ) (s : Heap) : Heap :=
  if s.freep = 0 then
    { s with ptr := update s.ptr base base, size := update s.size base 0, freep := base }
  else s

/-- `malloc(nbytes)`, where `base` is the address of the variable `base`. -/
def malloc (base : ℕ) (s : Heap) (nbytes : ℕ) : Option (ℕ × Heap) :=
  mallocLoop (units nbytes) ADDRESSES (initList base s) (initList base s).freep
    ((initList base s).ptr (initList base s).freep)

/-! ### Programs -/

/-- A program's state: the blocks it was given and has not freed, as ranges of bytes with their headers, and
what `malloc` has returned last. -/
structure Program where
  heap : Heap
  live : List (ℕ × ℕ)
  returned : ℕ

inductive Event
  | malloc (nbytes : ℕ) (answers : List (Option ℕ))
  | free (ap : ℕ)
  deriving DecidableEq, Repr

def step (base : ℕ) (s : Program) : Event → Option Program
  | .malloc nbytes answers =>
    (malloc base { s.heap with answers := answers, refused := false } nbytes).map fun r =>
      { heap := r.2
        live := if r.1 = 0 then s.live else s.live ++ [(r.1 - 8, 8 * units nbytes)]
        returned := r.1 }
  | .free ap => (free s.heap ap).map fun h =>
    { s with heap := h, live := s.live.filter fun b => b.1 + 8 ≠ ap }

/-- The sizes that `malloc` computes for a request are below `2^31`, and `free` is called with a pointer that
was returned and has not been freed. -/
def Allowed (s : Program) : Event → Prop
  | .malloc nbytes _ => nbytes + 15 < 2 ^ 31
  | .free ap => ∃ b ∈ s.live, b.1 + 8 = ap

instance (s : Program) (e : Event) : Decidable (Allowed s e) :=
  match e with
  | .malloc nbytes _ => inferInstanceAs (Decidable (nbytes + 15 < 2 ^ 31))
  | .free ap => inferInstanceAs (Decidable (∃ b ∈ s.live, b.1 + 8 = ap))

/-- A program starts with no list, and its memory ends past the variable `base`. -/
structure Start (base : ℕ) (s : Program) : Prop where
  freep : s.heap.freep = 0
  pos : 0 < base
  top : base + 8 ≤ s.heap.top
  bound : s.heap.top ≤ KERNBASE
  obtained : s.heap.obtained = []
  live : s.live = []

def system (base : ℕ) : System Program Event where
  init := Start base
  step := step base

end Xv6e.User.Umalloc
