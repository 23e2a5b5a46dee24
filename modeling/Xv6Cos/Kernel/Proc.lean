import Xv6Cos.Kernel.Vm
import Xv6Cos.Kernel.Param

/-!
# Processes and their memory (`kernel/proc.c`)

The process table with the fields that concern memory. The scheduler moves a process between
`USED`, `SLEEPING`, `RUNNABLE` and `RUNNING`; none of that touches memory, and the four states
are one here. A program of the kernel gets the calling process as an argument.
-/

namespace Xv6Cos.Kernel

open Program

/-- The entries of the process table. -/
def NPROC : ℕ := 64

/-- There is a first entry. -/
theorem nproc_pos : 0 < NPROC := by decide

/-- And a second one. -/
theorem one_lt_nproc : 1 < NPROC := by decide

/-- `enum procstate`. -/
inductive ProcState
  | unused
  /-- `USED`, `SLEEPING`, `RUNNABLE` or `RUNNING`. -/
  | alive
  | zombie
  deriving DecidableEq

/-- `struct proc`. -/
structure Proc where
  state : ProcState
  pagetable : Option ℕ
  sz : ℕ
  trapframe : Option ℕ
  parent : Option (Fin NPROC)
  pid : ℕ
  xstate : Int

/-- An entry of the process table that `freeproc` has cleared. -/
def Proc.cleared : Proc := ⟨.unused, none, 0, none, none, 0, 0⟩

/-- The kernel's state, as far as memory goes. -/
structure Sys where
  vm : Vm
  proc : Fin NPROC → Proc
  initproc : Fin NPROC
  nextpid : ℕ
  /-- The pages that other parts of the kernel have allocated: page tables and stacks of the
  kernel, disk queues, pipes, argument strings, alarm frames. -/
  held : List ℕ

/-- A program over the kernel's state. -/
abbrev SysM (α : Type) := Prog Sys VmPanic α

/-- A program over memory, as one over the kernel's state. -/
def memory {α : Type} (m : VmM α) : SysM α := within Sys.vm (fun s vm => { s with vm := vm }) m

/-- Overwrite an entry of the process table. -/
def Sys.setProc (s : Sys) (p : Fin NPROC) (pr : Proc) : Sys :=
  { s with proc := Function.update s.proc p pr }

/-- `proc[p]`. -/
def getProc (p : Fin NPROC) : SysM Proc := reads fun s => s.proc p

/-- `proc[p] = pr`. -/
def setProc (p : Fin NPROC) (pr : Proc) : SysM Unit := modifies fun s => s.setProc p pr

/-- `sizeof(struct trapframe)`. -/
def TRAPFRAMESIZE : ℕ := 288

/-- Store a register in a trapframe page, by its offset. -/
def setReg (trapframe offset value : ℕ) : VmM Unit :=
  modifies fun vm => vm.setPage trapframe (Bytes.writeLE (vm.mem trapframe) offset value 8)

/-- `*(np->trapframe) = *(p->trapframe)`. -/
def copyTrapframe (source target : ℕ) : VmM Unit :=
  modifies fun vm => vm.setPage target fun k =>
    if k < TRAPFRAMESIZE then vm.mem source k else vm.mem target k

/-- A user page table with no user memory, but with trampoline and trapframe. -/
def procPagetable (layout : Layout) (trapframe : ℕ) : VmM (Option ℕ) := do
  match ← uvmcreate with
  | none => pure none
  | some pagetable => do
    if ← mappages pagetable TRAMPOLINE PGSIZE layout.trampoline (PTE_R ||| PTE_X) then do
      if ← mappages pagetable TRAPFRAME PGSIZE trapframe (PTE_R ||| PTE_W) then
        pure (some pagetable)
      else do
        uvmunmap layout pagetable TRAMPOLINE 1 false
        uvmfree layout pagetable 0
        pure none
    else do
      uvmfree layout pagetable 0
      pure none

/-- Free a process's page table and the memory it refers to. -/
def procFreepagetable (layout : Layout) (pagetable sz : ℕ) : VmM Unit := do
  uvmunmap layout pagetable TRAMPOLINE 1 false
  uvmunmap layout pagetable TRAPFRAME 1 false
  uvmfree layout pagetable sz

/-- Free a process and the data hanging from it. -/
def freeproc (layout : Layout) (p : Fin NPROC) : SysM Unit := do
  let pr ← getProc p
  match pr.trapframe with
  | some trapframe => memory (kfree layout trapframe)
  | none => pure ()
  match pr.pagetable with
  | some pagetable => memory (procFreepagetable layout pagetable pr.sz)
  | none => pure ()
  setProc p .cleared

/-- Find an unused process and set it up; `none` if there is none or memory is short. -/
def allocproc (layout : Layout) : SysM (Option (Fin NPROC)) := do
  let found ← reads fun s => (List.finRange NPROC).find? fun p => (s.proc p).state = .unused
  match found with
  | none => pure none
  | some p => do
    let pid ← reads Sys.nextpid
    modifies fun s => { s with nextpid := pid + 1 }
    let pr ← getProc p
    match ← memory kalloc with
    | none => do
      setProc p { pr with pid := pid, trapframe := none }
      freeproc layout p
      pure none
    | some trapframe => do
      setProc p { pr with pid := pid, trapframe := some trapframe }
      match ← memory (procPagetable layout trapframe) with
      | none => do
        setProc p { pr with pid := pid, trapframe := some trapframe, pagetable := none }
        freeproc layout p
        pure none
      | some pagetable => do
        setProc p { pr with
          pid := pid, trapframe := some trapframe, pagetable := some pagetable, state := .alive }
        pure (some p)

/-- How `fork` ends. -/
inductive ForkResult
  /-- `allocproc` failed. -/
  | noProc
  /-- `uvmcopy` failed. -/
  | noCopy
  | child (np : Fin NPROC) (pid : ℕ)

/-- Create a new process, copying the parent. -/
def fork (layout : Layout) (p : Fin NPROC) : SysM ForkResult := do
  match ← allocproc layout with
  | none => pure .noProc
  | some np => do
    let pr ← getProc p
    let npr ← getProc np
    match pr.pagetable, npr.pagetable, pr.trapframe, npr.trapframe with
    | some old, some new, some trapframe, some newframe => do
      if ← memory (uvmcopy layout old new pr.sz) then do
        memory (copyTrapframe trapframe newframe)
        memory (setReg newframe 112 0)
        setProc np { npr with sz := pr.sz, parent := some p, state := .alive }
        pure (.child np npr.pid)
      else do
        freeproc layout np
        pure .noCopy
    | _, _, _, _ => fail .nullPointer

/-- `userinit`: set up the first user process. -/
def userinit (layout : Layout) (initcode : List UInt8) : SysM Unit := do
  match ← allocproc layout with
  | none => fail .nullPointer
  | some p => do
    modifies fun s => { s with initproc := p }
    let pr ← getProc p
    match pr.pagetable, pr.trapframe with
    | some pagetable, some trapframe => do
      memory (uvmfirst pagetable initcode)
      memory (setReg trapframe 24 0)
      memory (setReg trapframe 48 PGSIZE)
      setProc p { pr with sz := PGSIZE, state := .alive }
    | _, _ => fail .nullPointer

/-- Grow or shrink user memory by `n` bytes; false on failure. -/
def growproc (layout : Layout) (p : Fin NPROC) (n : Int) : SysM Bool := do
  let pr ← getProc p
  match pr.pagetable with
  | none => fail .nullPointer
  | some pagetable => do
    let newsz := ((pr.sz + n) % 2 ^ 64).toNat
    if 0 < n then do
      let sz ← memory (uvmalloc layout pagetable pr.sz newsz PTE_W)
      if sz = 0 then pure false
      else do
        setProc p { pr with sz := sz }
        pure true
    else if n < 0 then do
      let sz ← memory (uvmdealloc layout pagetable pr.sz newsz)
      setProc p { pr with sz := sz }
      pure true
    else pure true

/-- Pass `p`'s abandoned children to init. -/
def Sys.reparent (s : Sys) (p : Fin NPROC) : Sys where
  __ := s
  proc pp :=
    if (s.proc pp).parent = some p then { s.proc pp with parent := some s.initproc }
    else s.proc pp

/-- `exit`: the children go to `initproc`, and the process becomes a zombie. -/
def exit (p : Fin NPROC) (status : Int) : SysM Unit := do
  let initproc ← reads Sys.initproc
  if p = initproc then fail .initExiting
  else do
    modifies fun s => s.reparent p
    let pr ← getProc p
    setProc p { pr with xstate := status, state := .zombie }

/-- How `wait` ends. -/
inductive WaitResult
  /-- A child with this exit status is gone. -/
  | reaped (pp : Fin NPROC) (pid : ℕ) (xstate : Int)
  /-- `copyout` of the exit status failed. -/
  | noCopy (xstate : Int)
  | noChildren
  /-- There are children, but none has exited: sleep. -/
  | asleep

/-- The bytes of an `int`. -/
def intBytes (n : Int) : List UInt8 :=
  (List.range 4).map fun k => UInt8.ofNat ((n % 2 ^ 32).toNat / 256 ^ k)

/-- One scan of `wait` for an exited child. -/
def wait (layout : Layout) (p : Fin NPROC) (addr : ℕ) : SysM WaitResult := do
  let pr ← getProc p
  let zombie ← reads fun s => (List.finRange NPROC).find? fun pp =>
    (s.proc pp).parent = some p && (s.proc pp).state = .zombie
  let havekids ← reads fun s => (List.finRange NPROC).any fun pp => (s.proc pp).parent = some p
  match zombie with
  | none => pure (if havekids then .asleep else .noChildren)
  | some pp => do
    let child ← getProc pp
    match pr.pagetable with
    | none => fail .nullPointer
    | some pagetable => do
      let copied ← if addr ≠ 0 then memory (copyout layout pagetable addr (intBytes child.xstate))
        else pure true
      if copied then do
        freeproc layout pp
        pure (.reaped pp child.pid child.xstate)
      else pure (.noCopy child.xstate)

end Xv6Cos.Kernel
