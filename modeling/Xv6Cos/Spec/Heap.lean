import Xv6Cos.User.Umalloc
import Xv6Cos.Lib.Tiling

/-!
# Blocks of the user heap

What the allocator keeps: a circular list of the free blocks in address order, and blocks, free or
in use, that tile the memory from `sbrk`.
-/

namespace Xv6Cos.Spec

open User Transition Tiling

/-- The bytes of a block, as start and length. -/
def bytes (b : HeapBlock) : ℕ × ℕ := (b.1, HEADER * b.2)

/-- The memory obtained from `sbrk`. -/
def Obtained (s : Heap) (x : ℕ) : Prop := ∃ r ∈ s.regions, Has r x

/-- From `base` the list visits these blocks and comes back. -/
structure FreeList (s : Heap) (free : List HeapBlock) : Prop where
  cycle : Cycle.Path s.ptr s.base (free.map Prod.fst) s.base
  entry : s.freep ∈ s.base :: free.map Prod.fst
  root : s.size s.base = 0
  sizes : ∀ b ∈ free, (s.size b.1).toNat = b.2
  /-- In address order, and never adjacent. -/
  sorted : free.Pairwise fun b c => b.1 + HEADER * b.2 < c.1
  /-- The order starts again at `base`. -/
  first : ∀ b ∈ free, s.base < b.1

/-- A list as it should be, before the first `malloc` or after. -/
def Listed (s : Heap) (free : List HeapBlock) : Prop :=
  s.freep = 0 ∧ free = [] ∨ s.freep ≠ 0 ∧ FreeList s free

/-- Free blocks and blocks in use tile the heap. -/
structure HeapOk (s : Heap) (free live : List HeapBlock) : Prop where
  listed : Listed s free
  tiles : Tiles ((free ++ live).map bytes) (Obtained s)
  headers : ∀ b ∈ live, (s.size b.1).toNat = b.2

/-- `free` leaves no gap of 2³⁶ bytes, the size of 2³² units, between the blocks in use. -/
def BoundedGaps (s : HeapState) : HeapEvent → Prop
  | .freed ap => ¬∃ a, ∀ x, a ≤ x → x < a + HEADER * 2 ^ 32 →
      Obtained s.heap x ∧ ∀ b ∈ s.live, b.1 + HEADER ≠ ap → ¬Has (bytes b) x
  | _ => True

/-- Runs with such gaps only. -/
def boundedRuns : StepSystem HeapState HeapEvent := heapSystem.restrict BoundedGaps

end Xv6Cos.Spec
