import Xv6Cos.Kernel.Kalloc

/-!
# User page tables (`kernel/vm.c`, and `cowfault` of `kernel/trap.c`)

A page table is named by the page number of its root. The functions follow the source
statement by statement; a loop over pages is a recursion on the number of pages left.
-/

namespace Xv6Cos.Kernel

open Program

/-- A page with these bytes at this offset. -/
def Page.store (page : Page) (offset : ℕ) (bytes : List UInt8) : Page := fun k =>
  if offset ≤ k then (bytes[k - offset]?).getD (page k) else page k

/-- A page-table entry: a page number above ten flag bits. -/
structure Pte where
  pn : ℕ
  flags : BitVec 10
  deriving DecidableEq

/-- Valid. -/
def PTE_V : BitVec 10 := 1

/-- Readable. -/
def PTE_R : BitVec 10 := 2

/-- Writable. -/
def PTE_W : BitVec 10 := 4

/-- Executable. -/
def PTE_X : BitVec 10 := 8

/-- User can access. -/
def PTE_U : BitVec 10 := 16

/-- `MAXVA`: one beyond the highest virtual address. -/
def MAXVA : ℕ := 2 ^ (9 + 9 + 9 + 12 - 1)

/-- The page of the code that enters and leaves the kernel. -/
def TRAMPOLINE : ℕ := MAXVA - PGSIZE

/-- The page of the saved registers. -/
def TRAPFRAME : ℕ := TRAMPOLINE - PGSIZE

/-- `PGROUNDUP`. -/
def pgroundup (sz : ℕ) : ℕ := (sz + PGSIZE - 1) / PGSIZE * PGSIZE

/-- `PGROUNDDOWN`. -/
def pgrounddown (a : ℕ) : ℕ := a / PGSIZE * PGSIZE

/-- `PX(level, va)`. -/
def PX (level va : ℕ) : ℕ := va / 2 ^ (12 + 9 * level) % 512

namespace Pte

/-- Is one of these flags set? -/
def has (pte : Pte) (flags : BitVec 10) : Bool := pte.flags &&& flags != 0

/-- The entry as the 64-bit word in memory. -/
def word (pte : Pte) : ℕ := pte.pn * 1024 + pte.flags.toNat

/-- The entry that a word in memory encodes. -/
def ofWord (w : ℕ) : Pte := ⟨w / 1024, BitVec.ofNat 10 w⟩

end Pte

/-- Entry `i` of a page-table page. -/
def Vm.pte (vm : Vm) (pagetable i : ℕ) : Pte := .ofWord (Bytes.readLE (vm.mem pagetable) (8 * i) 8)

/-- Store entry `i` of a page-table page. -/
def Vm.setPte (vm : Vm) (pagetable i : ℕ) (pte : Pte) : Vm :=
  vm.setPage pagetable (Bytes.writeLE (vm.mem pagetable) (8 * i) pte.word 8)

/-- `pagetable[i]`. -/
def readPte (pagetable i : ℕ) : VmM Pte := reads fun vm => vm.pte pagetable i

/-- `pagetable[i] = pte`. -/
def writePte (pagetable i : ℕ) (pte : Pte) : VmM Unit := modifies fun vm =>
  vm.setPte pagetable i pte

/-- The loop of `walk` from this page at this level down to level 0. -/
def walkGo (va : ℕ) (alloc : Bool) : ℕ → ℕ → VmM (Option ℕ)
  | 0, pagetable => pure (some pagetable)
  | level + 1, pagetable => do
    let pte ← readPte pagetable (PX (level + 1) va)
    if pte.has PTE_V then walkGo va alloc level pte.pn
    else if alloc then
      match ← kalloc with
      | none => pure none
      | some page => do
        memset page 0
        writePte pagetable (PX (level + 1) va) ⟨page, PTE_V⟩
        walkGo va alloc level page
    else pure none

/-- The page and the index of the entry for a virtual address, as `walk` returns it. -/
def walk (pagetable va : ℕ) (alloc : Bool) : VmM (Option (ℕ × ℕ)) :=
  if MAXVA ≤ va then fail .walk
  else do
    let page ← walkGo va alloc 2 pagetable
    pure (page.map fun page => (page, PX 0 va))

/-- The page that a user address is mapped to. -/
def walkaddr (pagetable va : ℕ) : VmM (Option ℕ) :=
  if MAXVA ≤ va then pure none
  else do
    match ← walk pagetable va false with
    | none => pure none
    | some (page, i) => do
      let pte ← readPte page i
      if !pte.has PTE_V then pure none
      else if !pte.has PTE_U then pure none
      else pure (some pte.pn)

/-- The body of the loop of `mappages`. -/
def mapPage (pagetable a pn : ℕ) (perm : BitVec 10) : VmM Bool := do
  match ← walk pagetable a true with
  | none => pure false
  | some (page, i) => do
    let pte ← readPte page i
    if pte.has PTE_V then fail .remap
    else do
      writePte page i ⟨pn, perm ||| PTE_V⟩
      pure true

/-- The loop of `mappages`, with `left` more pages after this one. -/
def mappagesGo (pagetable a pn : ℕ) (perm : BitVec 10) : ℕ → VmM Bool
  | 0 => mapPage pagetable a pn perm
  | left + 1 => do
    if ← mapPage pagetable a pn perm then
      mappagesGo pagetable (a + PGSIZE) (pn + 1) perm left
    else pure false

/-- Map `size` bytes from `va` to the pages from `pn` on; false if a page-table page cannot
be allocated. -/
def mappages (pagetable va size pn : ℕ) (perm : BitVec 10) : VmM Bool :=
  if size = 0 then fail .mappagesSize
  else mappagesGo pagetable (pgrounddown va) pn perm
    ((pgrounddown (va + size - 1) - pgrounddown va) / PGSIZE)

/-- The loop of `uvmunmap`. -/
def uvmunmapGo (layout : Layout) (pagetable : ℕ) (doFree : Bool) (a : ℕ) : ℕ → VmM Unit
  | 0 => pure ()
  | left + 1 => do
    match ← walk pagetable a false with
    | none => fail .unmapWalk
    | some (page, i) => do
      let pte ← readPte page i
      if !pte.has PTE_V then fail .notMapped
      else if pte.flags = PTE_V then fail .notLeaf
      else do
        if doFree then kfree layout pte.pn else pure ()
        writePte page i ⟨0, 0⟩
        uvmunmapGo layout pagetable doFree (a + PGSIZE) left

/-- Remove `npages` of mappings, and optionally free the pages. -/
def uvmunmap (layout : Layout) (pagetable va npages : ℕ) (doFree : Bool) : VmM Unit :=
  if va % PGSIZE ≠ 0 then fail .unmapAligned
  else uvmunmapGo layout pagetable doFree va npages

/-- An empty user page table; `none` if out of memory. -/
def uvmcreate : VmM (Option ℕ) := do
  match ← kalloc with
  | none => pure none
  | some pagetable => do
    memset pagetable 0
    pure (some pagetable)

/-- Deallocate user pages to bring the size from `oldsz` to `newsz`. -/
def uvmdealloc (layout : Layout) (pagetable oldsz newsz : ℕ) : VmM ℕ :=
  if oldsz ≤ newsz then pure oldsz
  else do
    if pgroundup newsz < pgroundup oldsz then
      uvmunmap layout pagetable (pgroundup newsz)
        ((pgroundup oldsz - pgroundup newsz) / PGSIZE) true
    else pure ()
    pure newsz

/-- The loop of `uvmalloc`; false when it gives up. -/
def uvmallocGo (layout : Layout) (pagetable oldsz : ℕ) (xperm : BitVec 10) (a : ℕ) : ℕ → VmM Bool
  | 0 => pure true
  | left + 1 => do
    match ← kalloc with
    | none => do
      let _ ← uvmdealloc layout pagetable a oldsz
      pure false
    | some mem => do
      memset mem 0
      if ← mappages pagetable a PGSIZE mem (PTE_R ||| PTE_U ||| xperm) then
        uvmallocGo layout pagetable oldsz xperm (a + PGSIZE) left
      else do
        kfree layout mem
        let _ ← uvmdealloc layout pagetable a oldsz
        pure false

/-- Grow a process from `oldsz` to `newsz`; the new size, or 0 on error. -/
def uvmalloc (layout : Layout) (pagetable oldsz newsz : ℕ) (xperm : BitVec 10) : VmM ℕ :=
  if newsz < oldsz then pure oldsz
  else do
    let grown ← uvmallocGo layout pagetable (pgroundup oldsz) xperm (pgroundup oldsz)
      ((newsz - pgroundup oldsz + PGSIZE - 1) / PGSIZE)
    pure (if grown then newsz else 0)

/-- The loop of `freewalk` over the entries from `i` on; `free` is the recursive call. -/
def freewalkGo (free : ℕ → VmM Unit) (pagetable i : ℕ) : ℕ → VmM Unit
  | 0 => pure ()
  | left + 1 => do
    let pte ← readPte pagetable i
    if pte.has PTE_V && !pte.has (PTE_R ||| PTE_W ||| PTE_X) then do
      free pte.pn
      writePte pagetable i ⟨0, 0⟩
    else if pte.has PTE_V then fail .freewalkLeaf
    else pure ()
    freewalkGo free pagetable (i + 1) left

/-- Free the pages of a page table, at most `depth` levels of them. -/
def freewalk (layout : Layout) : ℕ → ℕ → VmM Unit
  | 0, _ => fail .freewalkDepth
  | depth + 1, pagetable => do
    freewalkGo (freewalk layout depth) pagetable 0 512
    kfree layout pagetable

/-- Free user memory pages, then page-table pages. -/
def uvmfree (layout : Layout) (pagetable sz : ℕ) : VmM Unit := do
  if 0 < sz then uvmunmap layout pagetable 0 (pgroundup sz / PGSIZE) true else pure ()
  freewalk layout 3 pagetable

/-- The loop of `uvmcopy`, with its error exit. -/
def uvmcopyGo (layout : Layout) (old new i : ℕ) : ℕ → VmM Bool
  | 0 => pure true
  | left + 1 => do
    match ← walk old i false with
    | none => fail .copyWalk
    | some (page, k) => do
      let pte ← readPte page k
      if !pte.has PTE_V then fail .notPresent
      else do
        let flags := pte.flags &&& ~~~PTE_W
        writePte page k ⟨pte.pn, flags⟩
        increse pte.pn
        if ← mappages new i PGSIZE pte.pn flags then uvmcopyGo layout old new (i + PGSIZE) left
        else do
          uvmunmap layout new 0 (i / PGSIZE) true
          pure false

/-- Share a parent's pages with a child's page table; false if a page-table page cannot be
allocated. -/
def uvmcopy (layout : Layout) (old new sz : ℕ) : VmM Bool :=
  uvmcopyGo layout old new 0 ((sz + PGSIZE - 1) / PGSIZE)

/-- Mark an entry invalid for user access. -/
def uvmclear (pagetable va : ℕ) : VmM Unit := do
  match ← walk pagetable va false with
  | none => fail .uvmclear
  | some (page, i) => do
    let pte ← readPte page i
    writePte page i ⟨pte.pn, pte.flags &&& ~~~PTE_U⟩

/-- `uvmfirst`: load the user initcode into address 0, for the very first process. The kernel
does not look at the results of `kalloc` and `mappages`. -/
def uvmfirst (pagetable : ℕ) (src : List UInt8) : VmM Unit :=
  if PGSIZE ≤ src.length then fail .uvmfirst
  else do
    match ← kalloc with
    | none => fail .nullPointer
    | some mem => do
      memset mem 0
      let _ ← mappages pagetable 0 PGSIZE mem (PTE_W ||| PTE_R ||| PTE_X ||| PTE_U)
      modifies fun vm => vm.setPage mem (Page.store (vm.mem mem) 0 src)

/-- Give the process its own writable copy of a page; false on error. -/
def cowfault (layout : Layout) (pagetable va : ℕ) : VmM Bool :=
  if MAXVA ≤ va then pure false
  else do
    match ← walk pagetable va false with
    | none => pure false
    | some (page, i) => do
      let pte ← readPte page i
      if !pte.has PTE_U || !pte.has PTE_V then pure false
      else do
        match ← kalloc with
        | none => pure false
        | some pa2 => do
          modifies fun vm => vm.setPage pa2 (vm.mem pte.pn)
          writePte page i ⟨pa2, PTE_U ||| PTE_V ||| PTE_W ||| PTE_X ||| PTE_R⟩
          kfree layout pte.pn
          pure true

/-- The loop of `copyout`, with fuel for every byte. -/
def copyoutGo (layout : Layout) (pagetable : ℕ) : ℕ → ℕ → List UInt8 → VmM Bool
  | _, _, [] => pure true
  | 0, _, _ => pure true
  | fuel + 1, dstva, src => do
    let va0 := pgrounddown dstva
    if MAXVA < va0 then pure false
    else if ← cowfault layout pagetable va0 then do
      match ← walkaddr pagetable va0 with
      | none => pure false
      | some pa0 => do
        let n := min (PGSIZE - (dstva - va0)) src.length
        modifies fun vm => vm.setPage pa0 (Page.store (vm.mem pa0) (dstva - va0) (src.take n))
        copyoutGo layout pagetable fuel (va0 + PGSIZE) (src.drop n)
    else pure false

/-- Copy from kernel to user; false on error. -/
def copyout (layout : Layout) (pagetable dstva : ℕ) (src : List UInt8) : VmM Bool :=
  copyoutGo layout pagetable src.length dstva src

/-- The loop of `copyin`, with fuel for every byte. -/
def copyinGo (pagetable : ℕ) : ℕ → ℕ → ℕ → VmM (Option (List UInt8))
  | _, _, 0 => pure (some [])
  | 0, _, _ => pure (some [])
  | fuel + 1, srcva, len => do
    let va0 := pgrounddown srcva
    match ← walkaddr pagetable va0 with
    | none => pure none
    | some pa0 => do
      let n := min (PGSIZE - (srcva - va0)) len
      let page ← reads fun vm => vm.mem pa0
      match ← copyinGo pagetable fuel (va0 + PGSIZE) (len - n) with
      | none => pure none
      | some rest => pure (some ((List.range n).map (fun k => page (srcva - va0 + k)) ++ rest))

/-- Copy from user to kernel; `none` on error. -/
def copyin (pagetable srcva len : ℕ) : VmM (Option (List UInt8)) :=
  copyinGo pagetable len srcva len

/-- Is this a virtual address of the machine: do bits 63 to 39 equal bit 38? -/
def canonical (va : ℕ) : Bool := va < 2 ^ 38 || (2 ^ 64 - 2 ^ 38 ≤ va && va < 2 ^ 64)

/-- The machine's walk from this page at this level: the level and the entry of the leaf. -/
def Vm.translateGo (vm : Vm) (va : ℕ) : ℕ → ℕ → Option (ℕ × Pte)
  | level, pagetable =>
    let pte := vm.pte pagetable (PX level va)
    if !pte.has PTE_V then none
    else if pte.has (PTE_R ||| PTE_W ||| PTE_X) then some (level, pte)
    else
      match level with
      | 0 => none
      | level + 1 => translateGo vm va level pte.pn

/-- The leaf by which the machine translates a virtual address, with its level. -/
def Vm.translate (vm : Vm) (pagetable va : ℕ) : Option (ℕ × Pte) :=
  if canonical va then vm.translateGo va 2 pagetable else none

/-- The physical page of a virtual address, by the leaf and its level. -/
def physPage (leaf : ℕ × Pte) (va : ℕ) : ℕ := leaf.2.pn + va / PGSIZE % 512 ^ leaf.1

end Xv6Cos.Kernel
