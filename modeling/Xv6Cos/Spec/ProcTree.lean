import Xv6Cos.Kernel.ProcTable

/-!
# Processes that live, and what a run has done to them
-/

namespace Xv6Cos.Spec

open Kernel

/-- `SLEEPING`, `RUNNABLE` or `RUNNING`. -/
def Living (state : EntryState) : Prop := state = .sleeping ∨ state = .runnable ∨ state = .running

/-- The pids that `fork` took from `allocpid`, also those of forks that failed. -/
def takenPids : List ProcEvent → List (BitVec 32) :=
  List.filterMap fun
    | .allocated _ _ pid => some pid
    | .forkFailed _ _ pid => some pid
    | _ => none

/-- The pids that `wait` and `waitx` returned. -/
def reapedPids : List ProcEvent → List (BitVec 32) :=
  List.filterMap fun
    | .reaped _ _ pid _ _ => some pid
    | _ => none

end Xv6Cos.Spec
