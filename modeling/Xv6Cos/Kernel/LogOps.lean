import Xv6Cos.Kernel.Log
import Xv6Cos.Lib.Transition

/-!
# Interleavings of `begin_op`, `log_write` and `end_op`

The log alone, as its callers see it: each process runs operations that begin, log blocks
and end, and the process that ends the last one commits. An operation logs at most
`MAXOPBLOCKS` distinct blocks; the log calls of different processes interleave in any order.
-/

namespace Xv6Cos.Kernel

open Transition

/-- Where a process is with respect to the log. -/
inductive OpPhase
  /-- In no operation. -/
  | idle
  /-- Between `begin_op` and `end_op`, having logged these distinct blocks. -/
  | active (logged : List ℕ)
  /-- In `commit`, called by its `end_op`. -/
  | committing
  /-- In `end_op`, after `commit`. -/
  | committed
  deriving DecidableEq

/-- The log and the processes `ι` that use it. -/
structure OpsState (ι : Type) where
  log : Log
  phase : ι → OpPhase

/-- A log call, or a part of one, by a process. -/
inductive OpAction (ι : Type)
  | beginOp (p : ι)
  | logWrite (p : ι) (blockno : ℕ)
  | endOp (p : ι)
  /-- `commit()`, of which the log keeps `lh.n = 0`. -/
  | commit (p : ι)
  /-- The last critical section of `end_op`. -/
  | endCommit (p : ι)
  deriving DecidableEq

namespace OpsState

variable {ι : Type} [DecidableEq ι]

/-- `p` continues in this phase. -/
def setPhase (s : OpsState ι) (p : ι) (phase : OpPhase) : OpsState ι :=
  { s with phase := Function.update s.phase p phase }

/-- The effect of one action; `none` when it panics, must sleep, or is not the caller's to
take. -/
def next (s : OpsState ι) : OpAction ι → Option (OpsState ι)
  | .beginOp p =>
    if s.phase p = .idle then
      s.log.beginOp.map fun log => ({ s with log := log } : OpsState ι).setPhase p (.active [])
    else none
  | .logWrite p blockno =>
    match s.phase p with
    | .active logged =>
      if (logged.insert blockno).length ≤ MAXOPBLOCKS then
        match s.log.logWrite blockno with
        | .ok (log, _) =>
          some (({ s with log := log } : OpsState ι).setPhase p (.active (logged.insert blockno)))
        | .error _ => none
      else none
    | _ => none
  | .endOp p =>
    match s.phase p with
    | .active _ =>
      match s.log.endOp with
      | .ok (log, commit) =>
        some (({ s with log := log } : OpsState ι).setPhase p
          (if commit then .committing else .idle))
      | .error _ => none
    | _ => none
  | .commit p =>
    if s.phase p = .committing then
      some (({ s with log := { s.log with lh := { s.log.lh with n := 0 } } } :
        OpsState ι).setPhase p .committed)
    else none
  | .endCommit p =>
    if s.phase p = .committed then
      some (({ s with log := s.log.endCommit } : OpsState ι).setPhase p .idle)
    else none

end OpsState

/-- All interleavings of operations on a log whose size is the `nlog` of `mkfs`. -/
def logOps (ι : Type) [DecidableEq ι] : StepSystem (OpsState ι) (OpAction ι) :=
  .ofNext (fun s => ∃ dev logstart,
    s = { log := Log.initlog dev logstart nlog, phase := fun _ => .idle }) OpsState.next

/-- The distinct blocks passed to `log_write` since the last commit. -/
def groupBlocks {ι : Type} (trace : List (OpAction ι)) : List ℕ :=
  trace.foldl (fun blocks action =>
    match action with
    | .logWrite _ blockno => blocks.insert blockno
    | .commit _ => []
    | _ => blocks) []

end Xv6Cos.Kernel
