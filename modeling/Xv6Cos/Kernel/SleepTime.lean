import Xv6Cos.Kernel.ProcTable

/-!
# Time asleep (`kernel/proc.c`, `kernel/sysproc.c`)

`sleep` notes when a process goes to sleep and `wakeup` adds the ticks since then to its
`sleep_time`, from which the priority scheduler computes its niceness. The operations on the process
table are atomic here, as are the ticks of the clock.
-/

namespace Xv6Cos.Kernel

open Transition

/-- The fields of `struct proc` that these operations use. -/
structure SleepEntry where
  state : EntryState
  chan : Option ℕ
  killed : Bool
  pid : BitVec 32
  whenStartedSleeping : BitVec 32
  sleepTime : BitVec 32

/-- The process table, the pid counter and the clock. -/
structure SleepTable where
  entry : Fin NPROC → SleepEntry
  nextpid : BitVec 32
  ticks : BitVec 32

/-- One operation. -/
inductive SleepAction
  /-- `allocproc` takes an entry. -/
  | allocproc (q : Fin NPROC)
  /-- `fork` or `userinit` lets the new process run. -/
  | start (q : Fin NPROC)
  /-- The scheduler of some CPU picks the process. -/
  | schedule (p : Fin NPROC)
  | yield (p : Fin NPROC)
  | sleep (p : Fin NPROC) (chan : ℕ)
  /-- `sleep` returns. -/
  | tidyUp (p : Fin NPROC)
  /-- `wakeup`, by a process or by an interrupt on an idle CPU. -/
  | wakeup (caller : Option (Fin NPROC)) (chan : ℕ)
  | kill (pid : BitVec 32)
  | exit (p : Fin NPROC)
  /-- `wait`, or a `fork` that fails, calls `freeproc`. -/
  | freeproc (q : Fin NPROC)
  | tick

/-- `wakeup` at an entry, for a process that is not the caller. -/
def SleepEntry.wake (e : SleepEntry) (ticks : BitVec 32) (chan : ℕ) : SleepEntry :=
  if e.state = .sleeping ∧ e.chan = some chan then
    { e with
      sleepTime := e.sleepTime + (ticks - e.whenStartedSleeping)
      state := .runnable }
  else e

/-- `kill` at the entry with the pid it looks for. -/
def SleepEntry.kill (e : SleepEntry) : SleepEntry :=
  { e with killed := true, state := if e.state = .sleeping then .runnable else e.state }

namespace SleepTable

/-- Overwrite an entry. -/
def setEntry (s : SleepTable) (q : Fin NPROC) (e : SleepEntry) : SleepTable :=
  { s with entry := Function.update s.entry q e }

/-- The entry that `kill` finds. -/
def findPid (s : SleepTable) (pid : BitVec 32) : Option (Fin NPROC) :=
  (List.finRange NPROC).find? fun q => (s.entry q).pid = pid

/-- The effect of an operation; `none` if it cannot happen now. -/
def next (s : SleepTable) : SleepAction → Option SleepTable
  | .allocproc q =>
    if (s.entry q).state = .unused then
      some ({ s with nextpid := s.nextpid + 1 }.setEntry q
        { s.entry q with
          pid := s.nextpid, whenStartedSleeping := 0, sleepTime := 0, state := .used })
    else none
  | .start q =>
    if (s.entry q).state = .used then some (s.setEntry q { s.entry q with state := .runnable })
    else none
  | .schedule p =>
    if (s.entry p).state = .runnable then some (s.setEntry p { s.entry p with state := .running })
    else none
  | .yield p =>
    if (s.entry p).state = .running then some (s.setEntry p { s.entry p with state := .runnable })
    else none
  | .sleep p chan =>
    if (s.entry p).state = .running then
      some (s.setEntry p { s.entry p with
        chan := some chan, state := .sleeping, whenStartedSleeping := s.ticks })
    else none
  | .tidyUp p =>
    if (s.entry p).state = .running then some (s.setEntry p { s.entry p with chan := none })
    else none
  | .wakeup caller chan =>
    if caller.all fun p => (s.entry p).state = .running then
      some { s with
        entry := fun q => if caller = some q then s.entry q else (s.entry q).wake s.ticks chan }
    else none
  | .kill pid =>
    match s.findPid pid with
    | none => some s
    | some q => some (s.setEntry q (s.entry q).kill)
  | .exit p =>
    if (s.entry p).state = .running then some (s.setEntry p { s.entry p with state := .zombie })
    else none
  | .freeproc q =>
    if (s.entry q).state = .zombie ∨ (s.entry q).state = .used then
      some (s.setEntry q { s.entry q with
        pid := 0, chan := none, killed := false, state := .unused })
    else none
  | .tick => some { s with ticks := s.ticks + 1 }

/-- The table after `procinit`. -/
def boot : SleepTable where
  entry _ := ⟨.unused, none, false, 0, 0, 0⟩
  nextpid := 1
  ticks := 0

end SleepTable

/-- The runs of these operations. -/
def sleepSystem : StepSystem SleepTable SleepAction := .ofNext (· = .boot) SleepTable.next

/-- The loop of `sys_sleep`, after it has slept `k` times: what it returns, and how often it has
slept by then. There have been `clock k` clock interrupts since the start when it looks, and
`killed k` says whether the process has been killed. `none` if it still sleeps after `fuel` more
looks. -/
def sysSleepLoop (n ticks0 : BitVec 32) (clock : ℕ → ℕ) (killed : ℕ → Bool) :
    ℕ → ℕ → Option (ℤ × ℕ)
  | 0, _ => none
  | fuel + 1, k =>
    if (ticks0 + .ofNat 32 (clock k) - ticks0).ult n then
      if killed k then some (-1, k) else sysSleepLoop n ticks0 clock killed fuel (k + 1)
    else some (0, k)

/-- `sys_sleep`, from this value of `ticks`. -/
def sysSleep (n ticks : BitVec 32) (clock : ℕ → ℕ) (killed : ℕ → Bool) (fuel : ℕ) :
    Option (ℤ × ℕ) :=
  sysSleepLoop n ticks clock killed fuel 0

end Xv6Cos.Kernel
