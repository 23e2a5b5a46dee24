import Xv6Cos.Spec.UserMemory

/-!
# Read-only memory

A record, kept beside a run, of the bytes that each process got without the right to write
them: `exec` creates them, `fork` hands them to the child, and they go when the process shrinks,
runs another program or is freed.
-/

namespace Xv6Cos.Spec

open Kernel Transition Function

/-- The read-only bytes of every process, as they were created. -/
abbrev ReadOnlyBytes := Fin NPROC → UserMemory

/-- May the user read this byte but not write it? -/
def isReadOnly (found : UserByte) : Bool :=
  found.flags &&& PTE_U != 0 && found.flags &&& PTE_W == 0

/-- The read-only bytes of an image. -/
def readOnlyPart (image : UserMemory) : UserMemory := fun va =>
  if va < TRAPFRAME then (image va).filter isReadOnly else none

/-- The read-only bytes after an operation. -/
def trackReadOnly (ro : ReadOnlyBytes) : UserEvent → ReadOnlyBytes
  | .forked p np => update ro np (ro p)
  | .execed p _ image => update ro p (readOnlyPart image)
  | .grew p sz => update ro p fun va => if va < pgroundup sz then ro p va else none
  | .waited _ _ (.reaped pp _ _) => update ro pp fun _ => none
  | _ => ro

/-- No read-only byte of the process is on a page that a copy of `n` bytes to `dst` touches. -/
def Misses (ro : UserMemory) (dst n : ℕ) : Prop := ∀ va, Touched dst n (va / PGSIZE) → ro va = none

/-- The operation neither stores nor copies to a read-only page while there is free memory. -/
def Spares (s : Sys) (ro : ReadOnlyBytes) : UserEvent → Prop
  | .stored p va _ | .faulted p va | .storeKilled p va =>
    s.vm.freelist = [] ∨ Misses (ro p) va 1
  | .copiedOut p dst src _ => s.vm.freelist = [] ∨ Misses (ro p) dst src.length
  | .waited p addr (.reaped _ _ _) => addr = 0 ∨ s.vm.freelist = [] ∨ Misses (ro p) addr 4
  | .waited p addr (.noCopy _) => s.vm.freelist = [] ∨ Misses (ro p) addr 4
  | _ => True

/-- Runs with the record of read-only bytes. -/
def readOnlySystem (layout : Layout) : StepSystem (Sys × ReadOnlyBytes) UserEvent where
  init state := (userSystem layout).init state.1 ∧ state.2 = fun _ _ => none
  step before event after := (userSystem layout).step before.1 event after.1 ∧
    after.2 = trackReadOnly before.2 event

/-- The runs in which every operation spares read-only pages. -/
def sparingSystem (layout : Layout) : StepSystem (Sys × ReadOnlyBytes) UserEvent where
  init := (readOnlySystem layout).init
  step before event after := (readOnlySystem layout).step before event after ∧
    Spares before.1 before.2 event

/-- Read-only bytes are where they were created, with the same contents and rights. -/
def ReadOnlyKept (s : Sys) (ro : ReadOnlyBytes) : Prop :=
  ∀ p va found, ro p va = some found → isReadOnly found = true ∧ userMemory s p va = some found

end Xv6Cos.Spec
