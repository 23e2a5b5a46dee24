import Xv6Cos.Lib.Program
import Xv6Cos.Lib.Bytes

/-!
# Physical memory (`kernel/kalloc.c`)

Memory is a sequence of pages of bytes, named by page number: every physical address that
the kernel passes around is the start of a page. The free list is the list of its pages.
-/

namespace Xv6Cos.Kernel

open Program Function

/-- The panics of `kalloc.c`, `vm.c`, `exec.c` and `proc.c`. -/
inductive VmPanic
  /-- `increase ref cnt`. -/
  | increse
  | kfree
  /-- `kfree panic`. -/
  | kfreeRef
  /-- `refcnt kalloc`. -/
  | refcntKalloc
  | walk
  /-- `mappages: size`. -/
  | mappagesSize
  /-- `mappages: remap`. -/
  | remap
  /-- `uvmunmap: not aligned`. -/
  | unmapAligned
  /-- `uvmunmap: walk`. -/
  | unmapWalk
  /-- `uvmunmap: not mapped`. -/
  | notMapped
  /-- `uvmunmap: not a leaf`. -/
  | notLeaf
  /-- `freewalk: leaf`. -/
  | freewalkLeaf
  /-- The recursion of `freewalk` is deeper than a page table. -/
  | freewalkDepth
  /-- `uvmcopy: pte should exist`. -/
  | copyWalk
  /-- `uvmcopy: page not present`. -/
  | notPresent
  | uvmclear
  /-- `uvmfirst: more than a page`. -/
  | uvmfirst
  /-- `loadseg: address should exist`. -/
  | loadseg
  /-- `init exiting`. -/
  | initExiting
  /-- The kernel follows a null pointer (`kerneltrap`). -/
  | nullPointer
  deriving DecidableEq

/-- The bytes of a page. -/
def PGSIZE : ℕ := 4096

/-- `PHYSTOP / PGSIZE`: the first page number beyond RAM. -/
def PHYSPAGES : ℕ := 0x88000000 / PGSIZE

/-- The bytes of a page, by offset. -/
abbrev Page := ℕ → UInt8

/-- Where the linker puts things. -/
structure Layout where
  /-- The first page after the kernel, `PGROUNDUP(end) / PGSIZE`. -/
  kend : ℕ
  /-- The page of the trampoline code, in the kernel's text. -/
  trampoline : ℕ
  above : trampoline < kend
  below : kend ≤ PHYSPAGES

/-- Physical memory, `kmem.freelist` and `refcnt`. -/
structure Vm where
  mem : ℕ → Page
  freelist : List ℕ
  refcnt : ℕ → ℕ

namespace Vm

/-- Overwrite a page. -/
def setPage (vm : Vm) (pn : ℕ) (page : Page) : Vm :=
  { vm with mem := update vm.mem pn page }

/-- Drop one reference to a page: `kfree` after its tests. -/
def drop (vm : Vm) (pn : ℕ) : Vm :=
  let refcnt := update vm.refcnt pn (vm.refcnt pn - 1)
  if refcnt pn > 0 then { vm with refcnt := refcnt }
  else
    { mem := update vm.mem pn (fun _ => 1)
      freelist := pn :: vm.freelist
      refcnt := refcnt }

end Vm

/-- A program over physical memory. -/
abbrev VmM (α : Type) := Prog Vm VmPanic α

/-- Allocate one page; `none` if the memory cannot be allocated. -/
def kalloc : VmM (Option ℕ) := fun vm =>
  match vm.freelist with
  | [] => .ok (none, vm)
  | r :: next =>
    if vm.refcnt r ≠ 0 then .error .refcntKalloc
    else
      .ok (some r,
        { mem := update vm.mem r (fun _ => 5)
          freelist := next
          refcnt := update vm.refcnt r 1 })

/-- Free a page. -/
def kfree (layout : Layout) (pn : ℕ) : VmM Unit := fun vm =>
  if pn < layout.kend ∨ PHYSPAGES ≤ pn then .error .kfree
  else if vm.refcnt pn < 1 then .error .kfreeRef
  else .ok ((), vm.drop pn)

/-- Add a reference to a page. -/
def increse (pn : ℕ) : VmM Unit := fun vm =>
  if PHYSPAGES < pn ∨ vm.refcnt pn < 1 then .error .increse
  else .ok ((), { vm with refcnt := update vm.refcnt pn (vm.refcnt pn + 1) })

/-- `memset` of a whole page. -/
def memset (pn : ℕ) (c : UInt8) : VmM Unit := modifies fun vm => vm.setPage pn fun _ => c

/-- `freerange`: the pages of `[kend, kend + n)` with one reference each, freed in turn. -/
def freerangeGo (layout : Layout) (pn : ℕ) : ℕ → VmM Unit
  | 0 => pure ()
  | n + 1 => do
    modifies fun vm => { vm with refcnt := update vm.refcnt pn 1 }
    kfree layout pn
    freerangeGo layout (pn + 1) n

/-- `kinit` frees all memory behind the kernel. -/
def kinit (layout : Layout) : VmM Unit :=
  freerangeGo layout layout.kend (PHYSPAGES - layout.kend)

end Xv6Cos.Kernel
