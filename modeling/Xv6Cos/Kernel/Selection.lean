import Mathlib.Data.Int.Log
import Mathlib.Data.Rat.Floor
import Xv6Cos.Kernel.ProcTable

/-!
# The selection loops of the schedulers (`kernel/proc.c`)

FCFS and PBS go through the table and keep the lock of the process that they have found so far.
-/

namespace Xv6Cos.Kernel

open Function

section Priority

/-- The nearest integer, the even one of two. -/
def nearestEven (x : ℚ) : ℤ :=
  if x - ⌊x⌋ < 1 / 2 then ⌊x⌋
  else if 1 / 2 < x - ⌊x⌋ then ⌊x⌋ + 1
  else if ⌊x⌋ % 2 = 0 then ⌊x⌋ else ⌊x⌋ + 1

/-- The nearest `float` of a nonnegative number that is not too large for one. -/
def toFloat (x : ℚ) : ℚ :=
  if x = 0 then 0 else nearestEven (x / 2 ^ (Int.log 2 x - 23)) * 2 ^ (Int.log 2 x - 23)

/-- The conversion of a nonnegative `float` to an `int`, which saturates. -/
def truncate (x : ℚ) : BitVec 32 := if x < 2 ^ 31 then .ofInt 32 ⌊x⌋ else 0x7FFFFFFF

/-- `niceness`. A quotient by zero is infinite or not a number; both convert to the largest
`int`. -/
def niceness (sleepTime rtime : BitVec 32) : BitVec 32 :=
  let total := sleepTime + rtime
  let quotient := if total = 0 then 0x7FFFFFFF else
    truncate (toFloat (toFloat sleepTime.toNat / toFloat total.toNat))
  quotient * 10

/-- `dynamic_priority`. -/
def dynamicPriority (staticPriority sleepTime rtime : BitVec 32) : Int :=
  let priority := (staticPriority - niceness sleepTime rtime + 5).toInt
  if priority < 0 then 0 else if 100 < priority then 100 else priority

end Priority

section Selection

/-- What the selection loops read of a process. -/
structure Candidate where
  state : EntryState
  ctime : BitVec 32
  staticPriority : BitVec 32
  sleepTime : BitVec 32
  rtime : BitVec 32

/-- The panics of `acquire` and `release`. -/
inductive LockPanic
  | acquire | release

/-- A selection loop: the process found so far, its key, and the process locks that the CPU
holds. -/
structure Scan (κ : Type) where
  chosen : Option (Fin NPROC)
  least : κ
  held : Fin NPROC → Bool

namespace Scan

variable {κ : Type}

/-- `acquire(&p->lock)`. -/
def acquire (s : Scan κ) (p : Fin NPROC) : Except LockPanic (Scan κ) :=
  if s.held p then .error .acquire else .ok { s with held := update s.held p true }

/-- `release(&p->lock)`. -/
def release (s : Scan κ) (p : Fin NPROC) : Except LockPanic (Scan κ) :=
  if s.held p then .ok { s with held := update s.held p false } else .error .release

/-- The lock of the process found before is released. -/
def giveUp (s : Scan κ) : Except LockPanic (Scan κ) :=
  match s.chosen with
  | some p => s.release p
  | none => .ok s

/-- The body of a loop: a runnable process that comes `before` what has been found takes its place
and stays locked. -/
def look (table : Fin NPROC → Candidate) (key : Candidate → κ) (before : Scan κ → κ → Bool)
    (s : Scan κ) (p : Fin NPROC) : Except LockPanic (Scan κ) := do
  let s ← s.acquire p
  if (table p).state = .runnable ∧ before s (key (table p)) then
    let s ← s.giveUp
    pure { s with chosen := some p, least := key (table p) }
  else s.release p

/-- The loop over the table. -/
def loop (table : Fin NPROC → Candidate) (key : Candidate → κ) (before : Scan κ → κ → Bool)
    (least : κ) : Except LockPanic (Scan κ) :=
  (List.finRange NPROC).foldlM (look table key before) ⟨none, least, fun _ => false⟩

end Scan

/-- The creation time; `min_creation_time` is converted to unsigned where it is compared. -/
def Candidate.created (c : Candidate) : ℕ := c.ctime.toNat

/-- The loop of FCFS. -/
def fcfsScan (table : Fin NPROC → Candidate) : Except LockPanic (Scan ℕ) :=
  Scan.loop table Candidate.created (fun s ctime => s.chosen = none ∨ ctime < s.least) 0

/-- The priority that PBS computes. -/
def Candidate.priority (c : Candidate) : Int := dynamicPriority c.staticPriority c.sleepTime c.rtime

/-- The loop of PBS. -/
def pbsScan (table : Fin NPROC → Candidate) : Except LockPanic (Scan Int) :=
  Scan.loop table Candidate.priority (fun s priority => priority < s.least) 500

end Selection

end Xv6Cos.Kernel
