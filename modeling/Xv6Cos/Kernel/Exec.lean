import Xv6Cos.Kernel.Proc

/-!
# Running a program file (`kernel/exec.c`)

The file is the list of its bytes; `readi` copies a part of it. `exec` builds a new page table
beside the old one and commits to it only when nothing can fail any more.
-/

namespace Xv6Cos.Kernel

open Program

/-- The most arguments of `exec`. -/
def MAXARG : ℕ := 32

/-- `readi`: the bytes of the file from `off` on, at most `n`; offsets are 32 bits wide. -/
def readi (file : List UInt8) (off n : ℕ) : List UInt8 :=
  if 2 ^ 32 ≤ off + n then [] else (file.drop off).take n

/-- The little-endian number in a field of a header. -/
def field (bytes : List UInt8) (off len : ℕ) : ℕ := Bytes.readLE (fun k => bytes.getD k 0) off len

/-- `struct elfhdr`. -/
structure ElfHdr where
  magic : ℕ
  entry : ℕ
  phoff : ℕ
  phnum : ℕ

/-- `sizeof(struct elfhdr)`. -/
def ELFHDRSIZE : ℕ := 64

/-- The file header in these bytes. -/
def ElfHdr.ofBytes (bytes : List UInt8) : ElfHdr :=
  ⟨field bytes 0 4, field bytes 24 8, field bytes 32 8, field bytes 56 2⟩

/-- The first four bytes of a program. -/
def ELF_MAGIC : ℕ := 0x464C457F

/-- `struct proghdr`. -/
structure ProgHdr where
  type : ℕ
  flags : ℕ
  off : ℕ
  vaddr : ℕ
  filesz : ℕ
  memsz : ℕ

/-- `sizeof(struct proghdr)`. -/
def PROGHDRSIZE : ℕ := 56

/-- The program header in these bytes. -/
def ProgHdr.ofBytes (bytes : List UInt8) : ProgHdr :=
  ⟨field bytes 0 4, field bytes 4 4, field bytes 8 8, field bytes 16 8, field bytes 32 8,
    field bytes 40 8⟩

/-- The type of a segment that is to be loaded. -/
def ELF_PROG_LOAD : ℕ := 1

/-- The permissions that the flags of a segment ask for. -/
def flags2perm (flags : ℕ) : BitVec 10 :=
  (if flags.testBit 0 then PTE_X else 0) ||| (if flags.testBit 1 then PTE_W else 0)

/-- The loop of `loadseg` from byte `i` on. -/
def loadsegGo (pagetable va : ℕ) (file : List UInt8) (offset sz i : ℕ) : ℕ → VmM Bool
  | 0 => pure true
  | left + 1 => do
    match ← walkaddr pagetable (va + i) with
    | none => fail .loadseg
    | some pa => do
      let n := min PGSIZE (sz - i)
      let bytes := readi file ((offset + i) % 2 ^ 32) n
      modifies fun vm => vm.setPage pa (Page.store (vm.mem pa) 0 bytes)
      if bytes.length ≠ n then pure false
      else loadsegGo pagetable va file offset sz (i + PGSIZE) left

/-- Load a program segment; false if the file is too short. -/
def loadseg (pagetable va : ℕ) (file : List UInt8) (offset sz : ℕ) : VmM Bool :=
  loadsegGo pagetable va file offset sz 0 ((sz + PGSIZE - 1) / PGSIZE)

/-- The body of `exec`'s loop for one program header: whether to go on, and the new size. -/
def loadProgram (layout : Layout) (pagetable : ℕ) (file : List UInt8) (ph : ProgHdr) (sz : ℕ) :
    VmM (Bool × ℕ) :=
  if ph.type ≠ ELF_PROG_LOAD then pure (true, sz)
  else if ph.memsz < ph.filesz then pure (false, sz)
  else if (ph.vaddr + ph.memsz) % 2 ^ 64 < ph.vaddr then pure (false, sz)
  else if ph.vaddr % PGSIZE ≠ 0 then pure (false, sz)
  else do
    let sz1 ← uvmalloc layout pagetable sz ((ph.vaddr + ph.memsz) % 2 ^ 64) (flags2perm ph.flags)
    if sz1 = 0 then pure (false, sz)
    else do
      let loaded ← loadseg pagetable ph.vaddr file (ph.off % 2 ^ 32) (ph.filesz % 2 ^ 32)
      pure (loaded, sz1)

/-- The loop of `exec` over the program headers. -/
def loadPrograms (layout : Layout) (pagetable : ℕ) (file : List UInt8) (off sz : ℕ) :
    ℕ → VmM (Bool × ℕ)
  | 0 => pure (true, sz)
  | left + 1 => do
    let bytes := readi file off PROGHDRSIZE
    if bytes.length ≠ PROGHDRSIZE then pure (false, sz)
    else do
      let (ok, sz1) ← loadProgram layout pagetable file (.ofBytes bytes) sz
      if ok then loadPrograms layout pagetable file ((off + PROGHDRSIZE) % 2 ^ 32) sz1 left
      else pure (false, sz1)

/-- Subtraction of 64-bit words. -/
def sub64 (a b : ℕ) : ℕ := (a + 2 ^ 64 - b % 2 ^ 64) % 2 ^ 64

/-- Make room on the stack, aligned to 16 bytes. -/
def pushSp (sp len : ℕ) : ℕ := sub64 sp len - sub64 sp len % 16

/-- The loop of `exec` that pushes the argument strings: the stack pointer and the array
`ustack`. -/
def pushStrings (layout : Layout) (pagetable stackbase sp : ℕ) (ustack : List ℕ) :
    List (List UInt8) → VmM (Option (ℕ × List ℕ))
  | [] => pure (some (sp, ustack))
  | arg :: argv => do
    if MAXARG ≤ ustack.length then pure none
    else do
      let sp' := pushSp sp (arg.length + 1)
      if sp' < stackbase then pure none
      else if ← copyout layout pagetable sp' (arg ++ [0]) then
        pushStrings layout pagetable stackbase sp' (ustack ++ [sp']) argv
      else pure none

/-- The bytes of an array of 64-bit words. -/
def wordBytes (words : List ℕ) : List UInt8 :=
  words.flatMap fun word => (List.range 8).map fun k => UInt8.ofNat (word / 256 ^ k)

/-- Push the arguments of `main`: the stack pointer and `argc`. -/
def pushArgs (layout : Layout) (pagetable sz : ℕ) (argv : List (List UInt8)) :
    VmM (Option (ℕ × ℕ)) := do
  match ← pushStrings layout pagetable (sz - PGSIZE) sz [] argv with
  | none => pure none
  | some (sp, ustack) => do
    let sp' := pushSp sp ((ustack.length + 1) * 8)
    if sp' < sz - PGSIZE then pure none
    else if ← copyout layout pagetable sp' (wordBytes (ustack ++ [0])) then
      pure (some (sp', ustack.length))
    else pure none

/-- A store to `ustack[i]`; beyond the array there is none. -/
def setUstack (ustack : Fin MAXARG → ℕ) (i value : ℕ) : VmM (Fin MAXARG → ℕ) :=
  if h : i < MAXARG then pure (Function.update ustack ⟨i, h⟩ value) else fail .nullPointer

/-- `pushStrings` with `ustack` as the array that it is: the stack pointer, `argc` and the array. -/
def pushStringsArray (layout : Layout) (pagetable stackbase sp argc : ℕ)
    (ustack : Fin MAXARG → ℕ) : List (List UInt8) → VmM (Option (ℕ × ℕ × (Fin MAXARG → ℕ)))
  | [] => pure (some (sp, argc, ustack))
  | arg :: argv => do
    if MAXARG ≤ argc then pure none
    else do
      let sp' := pushSp sp (arg.length + 1)
      if sp' < stackbase then pure none
      else if ← copyout layout pagetable sp' (arg ++ [0]) then do
        let ustack' ← setUstack ustack argc sp'
        pushStringsArray layout pagetable stackbase sp' (argc + 1) ustack' argv
      else pure none

/-- `pushArgs` with `ustack` as the array that it is, whatever it holds at first. -/
def pushArgsArray (layout : Layout) (pagetable sz : ℕ) (ustack : Fin MAXARG → ℕ)
    (argv : List (List UInt8)) : VmM (Option (ℕ × ℕ)) := do
  match ← pushStringsArray layout pagetable (sz - PGSIZE) sz 0 ustack argv with
  | none => pure none
  | some (sp, argc, ustack) => do
    let ustack' ← setUstack ustack argc 0
    let sp' := pushSp sp ((argc + 1) * 8)
    if sp' < sz - PGSIZE then pure none
    else if ← copyout layout pagetable sp'
        (wordBytes (((List.finRange MAXARG).map ustack').take (argc + 1))) then
      pure (some (sp', argc))
    else pure none

/-- A user image that `exec` has built. -/
structure ExecImage where
  pagetable : ℕ
  sz : ℕ
  sp : ℕ
  entry : ℕ
  argc : ℕ

/-- `exec` up to the point where it commits; `none` after `bad`. -/
def execImage (layout : Layout) (trapframe : ℕ) (file : List UInt8) (argv : List (List UInt8)) :
    VmM (Option ExecImage) := do
  let bytes := readi file 0 ELFHDRSIZE
  let elf := ElfHdr.ofBytes bytes
  if bytes.length ≠ ELFHDRSIZE then pure none
  else if elf.magic ≠ ELF_MAGIC then pure none
  else do
    match ← procPagetable layout trapframe with
    | none => pure none
    | some pagetable => do
      let (ok, sz) ← loadPrograms layout pagetable file (elf.phoff % 2 ^ 32) 0 elf.phnum
      if !ok then do
        procFreepagetable layout pagetable sz
        pure none
      else do
        let sz1 ← uvmalloc layout pagetable (pgroundup sz) (pgroundup sz + 2 * PGSIZE) PTE_W
        if sz1 = 0 then do
          procFreepagetable layout pagetable (pgroundup sz)
          pure none
        else do
          uvmclear pagetable (sz1 - 2 * PGSIZE)
          match ← pushArgs layout pagetable sz1 argv with
          | none => do
            procFreepagetable layout pagetable sz1
            pure none
          | some (sp, argc) => pure (some ⟨pagetable, sz1, sp, elf.entry, argc⟩)

/-- `exec` of the file that `namei` found, if any; the value it returns. -/
def exec (layout : Layout) (p : Fin NPROC) (file : Option (List UInt8))
    (argv : List (List UInt8)) : SysM Int := do
  let pr ← getProc p
  match file, pr.trapframe, pr.pagetable with
  | none, _, _ => pure (-1)
  | some file, some trapframe, some oldpagetable => do
    match ← memory (execImage layout trapframe file argv) with
    | none => pure (-1)
    | some image => do
      setProc p { pr with pagetable := some image.pagetable, sz := image.sz }
      memory do
        setReg trapframe 120 image.sp
        setReg trapframe 24 image.entry
        setReg trapframe 48 image.sp
        procFreepagetable layout oldpagetable pr.sz
      pure image.argc
  | _, _, _ => fail .nullPointer

/-- `exec` and the end of `syscall`, which stores the value returned in `a0`. -/
def execReturn (layout : Layout) (p : Fin NPROC) (file : Option (List UInt8))
    (argv : List (List UInt8)) : SysM Int := do
  let ret ← exec layout p file argv
  let pr ← getProc p
  match pr.trapframe with
  | none => fail .nullPointer
  | some trapframe => do
    memory (setReg trapframe 112 (ret % 2 ^ 64).toNat)
    pure ret

end Xv6Cos.Kernel
