import Xv6Cos.Kernel.UserMachine
import Mathlib.Algebra.BigOperators.Group.Finset.Basic
import Mathlib.Data.Fintype.Basic

/-!
# Address spaces and references

Which pages a process's page table should map, and how many page-table entries refer to a
physical page, in terms of what `walk` finds.
-/

namespace Xv6Cos.Spec

open Kernel

/-- The valid entry of the lowest level for a virtual address, as `walk` finds it. -/
def leafPte (vm : Vm) (pagetable va : ℕ) : Option Pte :=
  match walk pagetable va false vm with
  | .ok (some (page, i), _) => if (vm.pte page i).has PTE_V then some (vm.pte page i) else none
  | _ => none

/-- Does the address space of a process of this size contain the address? -/
def InSpace (sz va : ℕ) : Prop :=
  va < pgroundup sz ∨ va / PGSIZE = TRAPFRAME / PGSIZE ∨ va / PGSIZE = TRAMPOLINE / PGSIZE

/-- Does the process map this user page to the physical page? -/
def mapsTo (s : Sys) (p : Fin NPROC) (q v : ℕ) : Bool :=
  match (s.proc p).pagetable with
  | none => false
  | some pagetable => (leafPte s.vm pagetable (v * PGSIZE)).map Pte.pn = some q

/-- The number of user leaf entries, over the page tables of all processes, that map a
physical page. -/
def mappings (s : Sys) (q : ℕ) : ℕ :=
  ∑ p : Fin NPROC, ((Finset.range (TRAPFRAME / PGSIZE)).filter fun v => mapsTo s p q v).card

/-- The reference count of every page mapped as a user page is the number of its mappings. -/
def ExactCounts (s : Sys) : Prop := ∀ q, 0 < mappings s q → s.vm.refcnt q = mappings s q

/-- The pages that a `fork` of a process of this size takes at most: six for the child's trapframe
and page table, and two tables for each page it shares. -/
def forkPages (sz : ℕ) : ℕ := 6 + 2 * ((sz + PGSIZE - 1) / PGSIZE)

/-- A `fork` finds that many free pages. -/
def ForksFit (s : Sys) : UserEvent → Prop
  | .forked p _ | .forkFailed p _ => forkPages (s.proc p).sz ≤ s.vm.freelist.length
  | _ => True

/-- Was this a `fork` that failed inside `uvmcopy`? -/
def copyFailed : UserEvent → Bool
  | .forkFailed _ copying => copying
  | _ => false

end Xv6Cos.Spec
