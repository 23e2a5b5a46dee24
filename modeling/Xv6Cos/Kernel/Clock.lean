import Xv6Cos.Kernel.ProcTable

/-!
# The clock interrupt (`kernel/trap.c`, `kernel/proc.c`)

`clockintr` increments `ticks` and then calls `update_time`, which looks at one entry of the process
table after the other, each under its lock. The processes on the other CPUs go on meanwhile. The
handler holds `tickslock` from end to end, so there is one at a time; its `wakeup(&ticks)` is a
`wakeup` of the process table.
-/

namespace Xv6Cos.Kernel

open Transition

/-- The process table and the clock interrupt handler. -/
structure ClockTable where
  table : ProcTable
  /-- The entry that `update_time` looks at next, while the handler runs. -/
  clock : Option ℕ

/-- What can happen next. -/
inductive ClockAction
  /-- `clockintr` acquires `tickslock` and increments `ticks`. -/
  | clockintr
  /-- `update_time` looks at its next entry, or ends. -/
  | updateTime
  /-- A step of the process table. -/
  | other (action : ProcAction)

/-- The steps of the process table that stand for the clock. -/
def ProcAction.ofClock : ProcAction → Bool
  | .tick | .updateTime _ => true
  | _ => false

/-- The body of the loop in `update_time`. -/
def Entry.updateTime (e : Entry) : Entry :=
  if e.state = .running then { e with rtime := e.rtime + 1 } else e

namespace ClockTable

/-- The effect of an action. -/
def next (s : ClockTable) : ClockAction → Option ClockTable
  | .clockintr =>
    match s.clock with
    | none => some ⟨{ s.table with ticks := s.table.ticks + 1 }, some 0⟩
    | some _ => none
  | .updateTime =>
    match s.clock with
    | none => none
    | some i =>
      if h : i < NPROC then
        some ⟨s.table.setEntry ⟨i, h⟩ (s.table.entry ⟨i, h⟩).updateTime, some (i + 1)⟩
      else some ⟨s.table, none⟩
  | .other action =>
    if action.ofClock then none
    else (s.table.next action).map fun (table, _) => ⟨table, s.clock⟩

/-- The state after `userinit`. -/
def boot : ClockTable := ⟨.boot, none⟩

end ClockTable

/-- The runs of the process table and the clock. -/
def clockSystem : StepSystem ClockTable ClockAction := .ofNext (· = .boot) ClockTable.next

/-- Number of clock interrupts in a run. -/
def clockTicks (trace : List ClockAction) : ℕ :=
  trace.countP fun
    | .clockintr => true
    | _ => false

end Xv6Cos.Kernel
