import Xv6Cos.Spec.UserMemory

/-!
# Eager fork

The model that copy-on-write has to agree with: every process has a memory of its own, and
`fork` copies all of the parent's. There are no pages, no rights and no faults in it.
-/

namespace Xv6Cos.Spec

open Kernel Transition Function

/-- The bytes of every process. -/
abbrev EagerMemory := Fin NPROC → ℕ → Option UInt8

/-- Overwrite the bytes from `dst` on. -/
def writeBytes (m : ℕ → Option UInt8) (dst : ℕ) (bytes : List UInt8) : ℕ → Option UInt8 := fun va =>
  if dst ≤ va ∧ va < dst + bytes.length then bytes[va - dst]? else m va

/-- One operation where `fork` copies eagerly. A copy to user memory that fails may have written
some of its bytes. -/
def EagerStep (m m' : EagerMemory) : UserEvent → Prop
  | .forked p np => m' = update m np (m p)
  | .execed p _ image => m' = update m p fun va =>
      if va < TRAPFRAME then (image va).map UserByte.byte else none
  | .grew p sz => m' = update m p fun va =>
      if va < pgroundup sz then some ((m p va).getD 0) else none
  | .stored p va byte => (m p va).isSome ∧ m' = update m p (writeBytes (m p) va [byte])
  | .loaded p va byte => m p va = some byte ∧ m' = m
  | .copiedOut p dst src ok => ∃ n ≤ src.length, (ok = true ↔ n = src.length) ∧
      m' = update m p (writeBytes (m p) dst (src.take n))
  | .copiedIn p src bytes => m' = m ∧ ∀ list, bytes = some list →
      ∀ k byte, list[k]? = some byte → m p (src + k) = some byte
  | .waited p addr (.reaped pp _ xstate) => m' = update (update m p
      (if addr = 0 then m p else writeBytes (m p) addr (intBytes xstate))) pp fun _ => none
  | .waited p addr (.noCopy xstate) => ∃ n < 4,
      m' = update m p (writeBytes (m p) addr ((intBytes xstate).take n))
  | _ => m' = m

/-- The bytes of every process as the machine finds them. -/
def contents (s : Sys) : EagerMemory := fun p va => (userMemory s p va).map UserByte.byte

/-- The runs of the eager model from this memory. -/
def eagerSystem (m₀ : EagerMemory) : StepSystem EagerMemory UserEvent where
  init m := m = m₀
  step m event m' := EagerStep m m' event

/-- The process that writes user memory in this operation. -/
def writer : UserEvent → Option (Fin NPROC)
  | .stored p _ _ => some p
  | .faulted p _ => some p
  | .copiedOut p _ _ _ => some p
  | .waited p _ (.noCopy _) => some p
  | _ => none

end Xv6Cos.Spec
