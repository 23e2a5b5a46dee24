import Xv6Cos.Kernel.UserMachine

/-!
# What the operations do to user memory

The memory of a process is what the machine finds at each address below the trapframe.
`Effect` says for every label how the memories of all processes change; nothing else about
page tables or physical pages is visible to a process.
-/

namespace Xv6Cos.Spec

open Kernel

/-- User memory: the rights and the byte at each virtual address. -/
abbrev UserMemory := ℕ → Option UserByte

/-- The memory of a process. -/
def userMemory (s : Sys) (p : Fin NPROC) : UserMemory := fun va =>
  if va < TRAPFRAME then s.read p va else none

/-- The flags that `cowfault` gives a page. -/
def cowFlags : BitVec 10 := PTE_U ||| PTE_V ||| PTE_W ||| PTE_X ||| PTE_R

/-- The byte with other rights. -/
def setFlags (flags : BitVec 10) (found : UserByte) : UserByte := { found with flags := flags }

/-- The byte without the right to write. -/
def dropWrite (found : UserByte) : UserByte := { found with flags := found.flags &&& ~~~PTE_W }

/-- A byte that `growproc` adds. -/
def grownByte : UserByte := ⟨PTE_R ||| PTE_U ||| PTE_W ||| PTE_V, 0⟩

/-- May the user access this address at all? -/
def UserCan (m : UserMemory) (va : ℕ) : Prop := ∃ found, m va = some found ∧
    found.flags &&& PTE_U ≠ 0

/-- Does a copy of `n` bytes to `dst` touch this virtual page? -/
def Touched (dst n v : ℕ) : Prop := 0 < n ∧ dst < (v + 1) * PGSIZE ∧ v * PGSIZE < dst + n

instance (dst n v : ℕ) : Decidable (Touched dst n v) := inferInstanceAs (Decidable (_ ∧ _ ∧ _))

namespace UserMemory

/-- No page may be written. -/
def share (m : UserMemory) : UserMemory := fun va => (m va).map dropWrite

/-- Memory of another size. -/
def resize (m : UserMemory) (sz : ℕ) : UserMemory := fun va =>
  if va < pgroundup sz then some ((m va).getD grownByte) else none

/-- One byte is stored. -/
def store (m : UserMemory) (va : ℕ) (byte : UInt8) : UserMemory :=
  Function.update m va ((m va).map fun found => { found with byte := byte })

/-- The page of an address is the process's own. -/
def own (m : UserMemory) (va : ℕ) : UserMemory := fun a =>
  if a / PGSIZE = va / PGSIZE then (m a).map (setFlags cowFlags) else m a

/-- The first `n` bytes of `src` arrive at `dst`; the pages they touch are the process's own. -/
def copy (m : UserMemory) (dst n : ℕ) (src : List UInt8) : UserMemory := fun a =>
  if Touched dst n (a / PGSIZE) then
    if dst ≤ a ∧ a < dst + n then some ⟨cowFlags, src.getD (a - dst) 0⟩
    else (m a).map (setFlags cowFlags)
  else m a

end UserMemory

/-- No user memory changes, except perhaps that of `p`. -/
def OnlyChanges (p : Fin NPROC) (s t : Sys) : Prop := ∀ q ≠ p, userMemory t q = userMemory s q

/-- No user memory changes. -/
def Unchanged (s t : Sys) : Prop := ∀ q, userMemory t q = userMemory s q

/-- `copyout` of `src` to `dst` in the memory of `p` wrote `n` bytes. -/
def Copied (s t : Sys) (p : Fin NPROC) (dst n : ℕ) (src : List UInt8) : Prop :=
  n ≤ src.length ∧
  (n = 0 ↔ src = [] ∨ ¬UserCan (userMemory s p) dst ∨ s.vm.freelist = []) ∧
  userMemory t p = (userMemory s p).copy dst n src

/-- These are the bytes of a memory from `src` on. -/
def Reads (m : UserMemory) (src : ℕ) (bytes : List UInt8) : Prop :=
  ∀ k byte, bytes[k]? = some byte → (m (src + k)).map UserByte.byte = some byte

/-- How an operation changes the memories of all processes, and what it reads there. -/
def Effect (s t : Sys) : UserEvent → Prop
  | .forked p np => np ≠ p ∧ (∀ q, q ≠ p → q ≠ np → userMemory t q = userMemory s q) ∧
      userMemory t p = (userMemory s p).share ∧ userMemory t np = (userMemory s p).share
  | .forkFailed p copying => OnlyChanges p s t ∧ ∀ va, userMemory t p va = userMemory s p va ∨
      copying = true ∧ userMemory t p va = (userMemory s p).share va
  | .execed p sz image => OnlyChanges p s t ∧ sz = (t.proc p).sz ∧ image = t.read p
  | .execFailed _ => Unchanged s t
  | .grew p sz => OnlyChanges p s t ∧ userMemory t p = (userMemory s p).resize sz
  | .growFailed _ => Unchanged s t
  | .stored p va byte => OnlyChanges p s t ∧
      (∃ found, userMemory s p va = some found ∧ allows found.flags PTE_W = true) ∧
      userMemory t p = (userMemory s p).store va byte
  | .faulted p va => OnlyChanges p s t ∧ s.vm.freelist ≠ [] ∧ UserCan (userMemory s p) va ∧
      userMemory t p = (userMemory s p).own va
  | .storeKilled p va => Unchanged s t ∧ (t.proc p).state = .zombie ∧
      (¬UserCan (userMemory s p) va ∨ s.vm.freelist = [])
  | .loaded p va byte => Unchanged s t ∧
      ∃ found, userMemory s p va = some found ∧ allows found.flags PTE_R = true ∧ found.byte = byte
  | .loadKilled _ _ => Unchanged s t
  | .copiedOut p dst src ok => OnlyChanges p s t ∧ ∃ n, (ok = true ↔ n = src.length) ∧
      Copied s t p dst n src
  | .copiedIn p src bytes => Unchanged s t ∧ ∀ list, bytes = some list →
      Reads (userMemory s p) src list
  | .exited _ => Unchanged s t
  | .waited p addr (.reaped pp _ xstate) => pp ≠ p ∧
      (∀ q, q ≠ p → q ≠ pp → userMemory t q = userMemory s q) ∧ userMemory t pp = (fun _ => none) ∧
      if addr = 0 then userMemory t p = userMemory s p else Copied s t p addr 4 (intBytes xstate)
  | .waited p addr (.noCopy xstate) => OnlyChanges p s t ∧ addr ≠ 0 ∧
      ∃ n < 4, Copied s t p addr n (intBytes xstate)
  | .waited _ _ .noChildren => Unchanged s t
  | .waited _ _ .asleep => Unchanged s t
  | .held _ => Unchanged s t
  | .released _ => Unchanged s t

end Xv6Cos.Spec
