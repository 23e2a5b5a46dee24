import Xv6Cos.Lib.Cycle
import Xv6Cos.Lib.Transition
import Mathlib.Algebra.Group.Nat.Defs

/-!
# The allocator of user programs (`user/umalloc.c`)

Memory is what is read as headers: at every address a pointer and a size. The program gets blocks
from `malloc`, writes to them and gives them back; `sbrk` extends the heap, or not, as the kernel
likes. The loops get a bound, and a call is a step if some bound is enough.
-/

namespace Xv6Cos.User

open Transition

/-- `sizeof(Header)`. -/
abbrev HEADER : ℕ := 16

/-- The allocator's memory, and the end of the heap. -/
structure Heap where
  /-- `&base`. -/
  base : ℕ
  /-- 0 for the null pointer. -/
  freep : ℕ
  /-- `p->s.ptr`. -/
  ptr : ℕ → ℕ
  /-- `p->s.size`. -/
  size : ℕ → UInt32
  /-- Where the next region may start. -/
  brk : ℕ
  /-- The regions that `sbrk` has returned, with their length in bytes. -/
  regions : List (ℕ × ℕ)

namespace Heap

/-- `p->s.ptr = q`. -/
def setPtr (s : Heap) (p q : ℕ) : Heap := { s with ptr := Function.update s.ptr p q }

/-- `p->s.size = n`. -/
def setSize (s : Heap) (p : ℕ) (n : UInt32) : Heap := { s with size := Function.update s.size p n }

/-- `p + p->s.size`. -/
def above (s : Heap) (p : ℕ) : ℕ := p + HEADER * (s.size p).toNat

/-- The loop of `free` ends at `p`. -/
def freeStops (s : Heap) (bp p : ℕ) : Bool :=
  decide (p < bp ∧ bp < s.ptr p) || decide (s.ptr p ≤ p ∧ (p < bp ∨ bp < s.ptr p))

/-- `free` joins the block with the one above it, or links to that. -/
def joinUpper (s : Heap) (bp p : ℕ) : Heap :=
  if s.above bp = s.ptr p then
    (s.setSize bp (s.size bp + s.size (s.ptr p))).setPtr bp (s.ptr (s.ptr p))
  else s.setPtr bp (s.ptr p)

/-- `free` joins the block with the one below it, or is linked from that. -/
def joinLower (s : Heap) (bp p : ℕ) : Heap :=
  if s.above p = bp then (s.setSize p (s.size p + s.size bp)).setPtr p (s.ptr bp)
  else s.setPtr p bp

/-- `free` finds the place of the block in the list, and joins it with its neighbours. -/
def free (fuel : ℕ) (s : Heap) (ap : ℕ) : Option Heap :=
  let bp := ap - HEADER
  (Cycle.search s.ptr (s.freeStops bp) fuel s.freep).map fun p =>
    { (s.joinUpper bp p).joinLower bp p with freep := p }

/-- `sbrk(n)`, if the kernel answers with this address. A negative `n` gives memory back. -/
def sbrk (s : Heap) (answer : Option ℕ) (n : ℤ) : Option ℕ × Heap :=
  match answer with
  | none => (none, s)
  | some a =>
    if s.brk ≤ a ∧ HEADER ∣ a then
      (some a, { s with brk := (a + n).toNat, regions := (a, n.toNat) :: s.regions })
    else (none, s)

/-- The argument that `morecore` passes to `sbrk`, an `int`. -/
def sbrkArgument (nu : UInt32) : ℤ :=
  let nu := if nu < 4096 then 4096 else nu
  (BitVec.ofNat 32 (nu.toNat * HEADER)).toInt

/-- `morecore` gives the block that it obtains to `free`. -/
def morecore (fuel : ℕ) (s : Heap) (answer : Option ℕ) (nu : UInt32) : Option (Option ℕ × Heap) :=
  match s.sbrk answer (sbrkArgument nu) with
  | (none, s) => some (none, s)
  | (some p, s) =>
    let nu := if nu < 4096 then 4096 else nu
    (free fuel (s.setSize p nu) (p + HEADER)).map fun s => (some s.freep, s)

/-- `malloc` takes the block behind `prevp`, or the end of it. -/
def take (s : Heap) (prevp : ℕ) (nunits : UInt32) : ℕ × Heap :=
  let p := s.ptr prevp
  if s.size p = nunits then (p + HEADER, { s.setPtr prevp (s.ptr p) with freep := prevp })
  else
    let s := s.setSize p (s.size p - nunits)
    let q := s.above p
    (q + HEADER, { s.setSize q nunits with freep := prevp })

/-- The loop of `malloc`, in which `p` is `prevp->s.ptr`; `answer` is what the kernel answers to
each `sbrk`. -/
def mallocLoop (answer : ℕ → Option ℕ) (nunits : UInt32) :
    ℕ → ℕ → Heap → ℕ → Option (Option ℕ × Heap)
  | 0, _, _, _ => none
  | fuel + 1, k, s, prevp =>
    let p := s.ptr prevp
    if nunits ≤ s.size p then some (some (s.take prevp nunits).1, (s.take prevp nunits).2)
    else if p = s.freep then
      match s.morecore fuel (answer k) nunits with
      | none => none
      | some (none, s) => some (none, s)
      | some (some p, s) => mallocLoop answer nunits fuel (k + 1) s p
    else mallocLoop answer nunits fuel k s p

/-- The first call of `malloc` makes a list of `base` alone. -/
def initFreep (s : Heap) : Heap :=
  if s.freep = 0 then { (s.setPtr s.base s.base).setSize s.base 0 with freep := s.base } else s

/-- The number of units for a request. -/
def nunits (nbytes : ℕ) : ℕ := (nbytes + HEADER - 1) / HEADER + 1

/-- `malloc` makes the list at the first call, and looks for a block. -/
def malloc (fuel : ℕ) (answer : ℕ → Option ℕ) (s : Heap) (nbytes : ℕ) :
    Option (Option ℕ × Heap) :=
  mallocLoop answer (UInt32.ofNat (nunits nbytes)) fuel 0 s.initFreep s.initFreep.freep

end Heap

/-- A block: the address of its header and its size in units. -/
abbrev HeapBlock := ℕ × ℕ

/-- The allocator and the blocks that the program has. -/
structure HeapState where
  heap : Heap
  live : List HeapBlock

/-- What the program did. -/
inductive HeapEvent
  /-- `malloc` returned this pointer, or 0. -/
  | allocated (nbytes : ℕ) (result : Option ℕ)
  | freed (ap : ℕ)
  /-- It wrote to its blocks. -/
  | wrote

/-- One call or some writes. Requests are less than 2³¹ bytes, header included. -/
def heapStep (s : HeapState) : HeapEvent → HeapState → Prop
  | .allocated nbytes result, t => Heap.nunits nbytes * HEADER < 2 ^ 31 ∧
      (∃ fuel answer, s.heap.malloc fuel answer nbytes = some (result, t.heap)) ∧
      t.live = match result with
        | none => s.live
        | some ap => (ap - HEADER, Heap.nunits nbytes) :: s.live
  | .freed ap, t => ∃ b ∈ s.live, ap = b.1 + HEADER ∧
      (∃ fuel, s.heap.free fuel ap = some t.heap) ∧ t.live = s.live.erase b
  | .wrote, t => t.live = s.live ∧
      t.heap = { s.heap with ptr := t.heap.ptr, size := t.heap.size } ∧
      -- a header changes only if it overlaps what is behind the header of one of the blocks
      ∀ a, (∀ b ∈ s.live, a ≤ b.1 ∨ b.1 + HEADER * b.2 ≤ a) →
        t.heap.ptr a = s.heap.ptr a ∧ t.heap.size a = s.heap.size a

/-- The runs of a program. The heap starts behind the program's data, where `base` is. -/
def heapSystem : StepSystem HeapState HeapEvent where
  init s := 0 < s.heap.base ∧ s.heap.freep = 0 ∧ s.heap.base + HEADER ≤ s.heap.brk ∧
    s.heap.regions = [] ∧ s.live = []
  step := heapStep

end Xv6Cos.User
