import Xv6Cos.Kernel.ProcTable

/-!
# The tickets and the random numbers of the lottery scheduler (`kernel/proc.c`, `kernel/sysproc.c`)
-/

namespace Xv6Cos.Kernel

open Function

/-- `settickets`, called by `myproc`. -/
def settickets (tickets : Fin NPROC → BitVec 32) (myproc : Fin NPROC) (number pid : BitVec 32) :
    (Fin NPROC → BitVec 32) × BitVec 32 :=
  (update tickets myproc number, pid)

/-- `sys_settickets`, with its two arguments. -/
def sysSettickets (tickets : Fin NPROC → BitVec 32) (myproc : Fin NPROC) (arg₀ arg₁ : BitVec 32) :
    (Fin NPROC → BitVec 32) × BitVec 32 :=
  let number := arg₀
  let pid := arg₁
  settickets tickets myproc pid number

/-- The process table with the tickets of each process. -/
structure Lottery where
  table : ProcTable
  tickets : Fin NPROC → BitVec 32

/-- The result of an operation on `long`; `none` if it overflows. -/
def long (x : ℤ) : Option ℤ := if -2 ^ 63 ≤ x ∧ x < 2 ^ 63 then some x else none

/-- What `custom_random` and `do_rand` do: the number they return, and the new `*ctx`. -/
def parkMiller (ctx : BitVec 64) : Option (BitVec 32 × BitVec 64) := do
  let x ← long (ctx.toNat % 0x7ffffffe + 1 : ℕ)
  let hi := x.tdiv 127773
  let lo := x.tmod 127773
  let x ← long ((← long (16807 * lo)) - (← long (2836 * hi)))
  let x ← (if x < 0 then long (x + 0x7fffffff) else some x)
  let x ← long (x - 1)
  return (.ofInt 32 x, .ofInt 64 x)

/-- `custom_random`. -/
def customRandom : BitVec 64 → Option (BitVec 32 × BitVec 64) := parkMiller

/-- `do_rand` of `user/grind.c`. -/
def doRand : BitVec 64 → Option (BitVec 32 × BitVec 64) := parkMiller

end Xv6Cos.Kernel
