import Xv6Cos.Kernel.Exec
import Xv6Cos.Lib.Transition

/-!
# Runs of user processes

The operations by which processes and the kernel use memory, one at a time and in any order:
the system calls, the machine's loads and stores with the page faults they raise
(`usertrap` of `kernel/trap.c`), copies between kernel and user, and the pages that other
parts of the kernel allocate and free. A label says what an operation did.
-/

namespace Xv6Cos.Kernel

open Program Transition

/-- What the machine finds at a virtual address of a process. -/
structure UserByte where
  flags : BitVec 10
  byte : UInt8

/-- The leaf and the byte at a virtual address of a process. -/
def Sys.read (s : Sys) (p : Fin NPROC) (va : ℕ) : Option UserByte := do
  let pagetable ← (s.proc p).pagetable
  let leaf ← s.vm.translate pagetable va
  some ⟨leaf.2.flags, s.vm.mem (physPage leaf va) (va % PGSIZE)⟩

/-- What an operation did. -/
inductive UserEvent
  | forked (p np : Fin NPROC)
  /-- `fork` failed before or inside `uvmcopy`. -/
  | forkFailed (p : Fin NPROC) (copying : Bool)
  /-- The process has a new image. -/
  | execed (p : Fin NPROC) (sz : ℕ) (image : ℕ → Option UserByte)
  | execFailed (p : Fin NPROC)
  /-- `growproc` succeeded, with the new size. -/
  | grew (p : Fin NPROC) (sz : ℕ)
  | growFailed (p : Fin NPROC)
  | stored (p : Fin NPROC) (va : ℕ) (byte : UInt8)
  /-- A store faulted and `cowfault` succeeded. -/
  | faulted (p : Fin NPROC) (va : ℕ)
  /-- A store faulted and the process was killed. -/
  | storeKilled (p : Fin NPROC) (va : ℕ)
  | loaded (p : Fin NPROC) (va : ℕ) (byte : UInt8)
  | loadKilled (p : Fin NPROC) (va : ℕ)
  | copiedOut (p : Fin NPROC) (va : ℕ) (src : List UInt8) (ok : Bool)
  | copiedIn (p : Fin NPROC) (va : ℕ) (bytes : Option (List UInt8))
  | exited (p : Fin NPROC)
  | waited (p : Fin NPROC) (addr : ℕ) (result : WaitResult)
  | held (page : Option ℕ)
  | released (page : ℕ)

/-- An operation, by the process that runs it. -/
inductive UserAction
  | fork
  | exec (file : Option (List UInt8)) (argv : List (List UInt8))
  | growproc (n : Int)
  | store (va : ℕ) (byte : UInt8)
  | load (va : ℕ)
  | copyout (va : ℕ) (src : List UInt8)
  | copyin (va len : ℕ)
  | exit (status : Int)
  | wait (addr : ℕ)
  /-- Another part of the kernel calls `kalloc`. -/
  | hold
  /-- Another part of the kernel frees a page it holds. -/
  | release (page : ℕ)

/-- May the machine access a user page this way? -/
def allows (flags wanted : BitVec 10) : Bool :=
  flags &&& PTE_V != 0 && flags &&& PTE_U != 0 && flags &&& wanted != 0

/-- A user store: the machine writes where it may; otherwise the fault goes to `cowfault`, and
the process exits if that fails. -/
def userStore (layout : Layout) (p : Fin NPROC) (va : ℕ) (byte : UInt8) : SysM UserEvent := do
  let pr ← getProc p
  match pr.pagetable with
  | none => fail .nullPointer
  | some pagetable => do
    let leaf ← reads fun s => s.vm.translate pagetable va
    match leaf.filter fun leaf => allows leaf.2.flags PTE_W with
    | some leaf => do
      memory (modifies fun vm => vm.setPage (physPage leaf va)
        (Page.store (vm.mem (physPage leaf va)) (va % PGSIZE) [byte]))
      pure (.stored p va byte)
    | none => do
      if ← memory (cowfault layout pagetable va) then pure (.faulted p va)
      else do
        exit p (-1)
        pure (.storeKilled p va)

/-- A user load: the machine reads where it may; otherwise the process exits. -/
def userLoad (p : Fin NPROC) (va : ℕ) : SysM UserEvent := do
  let found ← reads fun s => s.read p va
  match found.filter fun found => allows found.flags PTE_R with
  | some found => pure (.loaded p va found.byte)
  | none => do
    exit p (-1)
    pure (.loadKilled p va)

/-- Run one operation. -/
def UserAction.run (layout : Layout) (p : Fin NPROC) : UserAction → SysM UserEvent
  | .fork => do
    match ← Kernel.fork layout p with
    | .noProc => pure (.forkFailed p false)
    | .noCopy => pure (.forkFailed p true)
    | .child np _ => pure (.forked p np)
  | .exec file argv => do
    if 0 ≤ (← Kernel.exec layout p file argv) then
      reads fun s => .execed p (s.proc p).sz (s.read p)
    else pure (.execFailed p)
  | .growproc n => do
    if ← Kernel.growproc layout p n then reads fun s => .grew p (s.proc p).sz
    else pure (.growFailed p)
  | .store va byte => userStore layout p va byte
  | .load va => userLoad p va
  | .copyout va src => do
    let pr ← getProc p
    match pr.pagetable with
    | none => fail .nullPointer
    | some pagetable => do
      let ok ← memory (Kernel.copyout layout pagetable va src)
      pure (.copiedOut p va src ok)
  | .copyin va len => do
    let pr ← getProc p
    match pr.pagetable with
    | none => fail .nullPointer
    | some pagetable => do
      let bytes ← memory (Kernel.copyin pagetable va len)
      pure (.copiedIn p va bytes)
  | .exit status => do
    Kernel.exit p status
    pure (.exited p)
  | .wait addr => do
    let result ← Kernel.wait layout p addr
    pure (.waited p addr result)
  | .hold => do
    let page ← memory kalloc
    modifies fun s => { s with held := page.toList ++ s.held }
    pure (.held page)
  | .release page => do
    memory (kfree layout page)
    modifies fun s => { s with held := s.held.erase page }
    pure (.released page)

/-- May the process run the operation? Other parts of the kernel free a page only once. -/
def UserAction.enabled (s : Sys) (p : Fin NPROC) : UserAction → Prop
  | .release page => (s.proc p).state = .alive ∧ page ∈ s.held
  | _ => (s.proc p).state = .alive

/-- Other parts of the kernel allocate `n` pages at boot. -/
def holdPages : ℕ → SysM Unit
  | 0 => pure ()
  | n + 1 => do
    match ← memory kalloc with
    | none => fail .nullPointer
    | some page => do
      modifies fun s => { s with held := page :: s.held }
      holdPages n

/-- Boot, as far as memory goes (`main` of `kernel/main.c`). -/
def boot (layout : Layout) (n : ℕ) (initcode : List UInt8) : SysM Unit := do
  memory (kinit layout)
  holdPages n
  userinit layout initcode

/-- The state that the machine starts in, with any contents of RAM. -/
def Sys.reset (mem : ℕ → Page) : Sys where
  vm := ⟨mem, [], fun _ => 0⟩
  proc _ := .cleared
  initproc := ⟨0, nproc_pos⟩
  nextpid := 1
  held := []

/-- The runs of the kernel and its processes after a boot with enough memory for the first
process. -/
def userSystem (layout : Layout) : StepSystem Sys UserEvent where
  init s := ∃ mem n initcode, boot layout n initcode (.reset mem) = .ok ((), s) ∧
    (s.read s.initproc 0).isSome
  step s event t := ∃ p, ∃ action : UserAction, action.enabled s p ∧
    action.run layout p s = .ok (event, t)

end Xv6Cos.Kernel
