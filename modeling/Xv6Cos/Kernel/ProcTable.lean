import Xv6Cos.Kernel.Proc
import Xv6Cos.Lib.Transition

/-!
# The process table under its locks (`kernel/proc.c`)

`fork`, `exit`, `wait`, `waitx` and `kill`, cut at the points where another CPU can interfere: a
step is one critical section under `p->lock`, and `wait_lock` is taken and given back explicitly.
Each process has a position in the call it is making, with the loop variables that are live there.
-/

namespace Xv6Cos.Kernel

open Transition

/-- `enum procstate`. -/
inductive EntryState
  | unused | used | sleeping | runnable | running | zombie
  deriving DecidableEq

/-- What a process sleeps on: an entry of the table, in `wait`, or something else. -/
inductive Chan
  | proc (p : Fin NPROC)
  | other (n : ℕ)
  deriving DecidableEq

/-- The fields of `struct proc` that these calls use. -/
structure Entry where
  state : EntryState
  chan : Option Chan
  killed : Bool
  xstate : Int
  pid : BitVec 32
  parent : Option (Fin NPROC)
  rtime : BitVec 32
  ctime : BitVec 32
  etime : BitVec 32

/-- An entry that has never been used. -/
def Entry.zero : Entry := ⟨.unused, none, false, 0, 0, none, 0, 0, 0⟩

/-- `freeproc` clears the entry. -/
def Entry.freeproc (e : Entry) : Entry :=
  { e with pid := 0, parent := none, chan := none, killed := false, xstate := 0, state := .unused }

/-- The waiting time and the running time that `waitx` reports. -/
def Entry.times (e : Entry) : BitVec 32 × BitVec 32 := (e.etime - e.ctime - e.rtime, e.rtime)

/-- The arguments of `wait`, or of `waitx`, which also reports times. -/
structure WaitCall where
  addr : ℕ
  times : Bool

/-- Where a process is in a call. -/
inductive Position
  /-- In user space, or in a part of the kernel that is not modelled here. -/
  | user
  /-- Asleep there. -/
  | asleep
  /-- `fork`: `allocproc` looks at entry `i`. -/
  | forkScan (i : ℕ)
  /-- `fork` has filled the entry and is about to set its parent. -/
  | forkParent (np : Fin NPROC) (pid : BitVec 32)
  /-- `fork` is about to make the new process runnable. -/
  | forkRun (np : Fin NPROC) (pid : BitVec 32)
  /-- `exit` is about to acquire `wait_lock`. -/
  | exitStart (status : Int)
  /-- `reparent` looks at entry `i`. -/
  | exitReparent (status : Int) (i : ℕ)
  /-- `wakeup(initproc)`, called for entry `i`, looks at entry `j`. -/
  | exitWakeInit (status : Int) (i j : ℕ)
  /-- `wakeup(p->parent)` looks at entry `j`; at the end the process becomes a zombie. -/
  | exitWakeParent (status : Int) (parent : Option (Fin NPROC)) (j : ℕ)
  /-- `wait` is about to acquire `wait_lock`. -/
  | waitStart (call : WaitCall)
  /-- `wait` looks at entry `i`. -/
  | waitScan (call : WaitCall) (havekids : Bool) (i : ℕ)
  /-- `wait` has found a child in entry `i` and is about to acquire its lock. -/
  | waitChild (call : WaitCall) (i : Fin NPROC)
  /-- `wait` is about to sleep, and then sleeps. -/
  | waitSleep (call : WaitCall)
  | waitAsleep (call : WaitCall)
  /-- `kill` looks at entry `i`. -/
  | killScan (pid : BitVec 32) (i : ℕ)

/-- The process table, its counters and `wait_lock`. -/
structure ProcTable where
  entry : Fin NPROC → Entry
  position : Fin NPROC → Position
  nextpid : BitVec 32
  ticks : BitVec 32
  waitLock : Option (Fin NPROC)
  initproc : Fin NPROC

/-- How the memory operations inside a critical section end: in `allocproc`, in `uvmcopy` or in
`copyout` they may fail. -/
inductive MemoryResult
  | ok | noProc | noCopy
  deriving DecidableEq

/-- A call that a process makes. -/
inductive ProcCall
  | fork
  | exit (status : Int)
  | wait (call : WaitCall)
  | kill (pid : BitVec 32)

/-- What can happen next. -/
inductive ProcAction
  /-- The scheduler of some CPU picks the process. -/
  | schedule (p : Fin NPROC)
  | yield (p : Fin NPROC)
  | call (p : Fin NPROC) (c : ProcCall)
  /-- The process takes the next step of its call. -/
  | advance (p : Fin NPROC) (result : MemoryResult)
  | setkilled (p : Fin NPROC)
  /-- The process sleeps in another part of the kernel. -/
  | sleep (p : Fin NPROC) (n : ℕ)
  /-- Another part of the kernel, or an interrupt, looks at an entry in `wakeup`. -/
  | wakeup (n : ℕ) (q : Fin NPROC)
  | tick
  /-- `update_time` looks at an entry. -/
  | updateTime (q : Fin NPROC)

/-- What a step did. -/
inductive ProcEvent
  | silent
  /-- `allocproc` took an entry and a pid for `fork`. -/
  | allocated (p np : Fin NPROC) (pid : BitVec 32)
  /-- `fork` took a pid and failed inside this entry. -/
  | forkFailed (p np : Fin NPROC) (pid : BitVec 32)
  /-- `fork` found no entry. -/
  | forkFull (p : Fin NPROC)
  | forked (p : Fin NPROC) (pid : BitVec 32)
  /-- A process with this pid called `exit`. -/
  | exiting (p : Fin NPROC) (pid : BitVec 32) (status : Int)
  /-- `wait` or `waitx` freed the entry and returned its pid. -/
  | reaped (p pp : Fin NPROC) (pid : BitVec 32) (status : Option Int)
      (times : Option (BitVec 32 × BitVec 32))
  /-- `wait` or `waitx` returned -1. -/
  | waitFailed (p : Fin NPROC) (times : Option (BitVec 32 × BitVec 32))
  | killed (p : Fin NPROC) (pid : BitVec 32) (found : Bool)

namespace ProcTable

variable (t : ProcTable)

/-- Overwrite an entry. -/
def setEntry (q : Fin NPROC) (e : Entry) : ProcTable :=
  { t with entry := Function.update t.entry q e }

/-- A process goes on elsewhere. -/
def goto (p : Fin NPROC) (position : Position) : ProcTable :=
  { t with position := Function.update t.position p position }

/-- The body of the loop in `wakeup`, for a process that is not the caller. -/
def wake (chan : Option Chan) (q : Fin NPROC) : ProcTable :=
  if (t.entry q).state = .sleeping ∧ (t.entry q).chan = chan then
    t.setEntry q { t.entry q with state := .runnable }
  else t

/-- The loop in `wakeup`, called by `p`, at one entry. -/
def wakeEntry (p : Fin NPROC) (chan : Option Chan) (q : Fin NPROC) : ProcTable :=
  if q = p then t else t.wake chan q

/-- `sleep`, up to the switch to the scheduler. -/
def sleep (p : Fin NPROC) (chan : Chan) : ProcTable :=
  t.setEntry p { t.entry p with chan := some chan, state := .sleeping }

/-- `sleep`, after the switch back. -/
def tidyUp (p : Fin NPROC) : ProcTable := t.setEntry p { t.entry p with chan := none }

/-- `fork` in the critical section of the entry that `allocproc` found. -/
def forkAlloc (p np : Fin NPROC) (result : MemoryResult) : ProcTable × ProcEvent :=
  let pid := t.nextpid
  let t := { t with nextpid := t.nextpid + 1 }
  match result with
  | .noProc =>
    ((t.setEntry np { t.entry np with pid := pid }.freeproc).goto p .user, .forkFailed p np pid)
  | .noCopy =>
    let e := { t.entry np with
      pid := pid, rtime := 0, etime := 0, ctime := t.ticks, state := .used }
    ((t.setEntry np e.freeproc).goto p .user, .forkFailed p np pid)
  | .ok =>
    let e := { t.entry np with
      pid := pid, rtime := 0, etime := 0, ctime := t.ticks, state := .used }
    ((t.setEntry np e).goto p (.forkParent np pid), .allocated p np pid)

/-- `wait` at a child that is a zombie: it is freed unless `copyout` of its status fails. -/
def reap (p pp : Fin NPROC) (call : WaitCall) (result : MemoryResult) : ProcTable × ProcEvent :=
  let e := t.entry pp
  let times := if call.times then some e.times else none
  let t := { t with waitLock := none }
  if call.addr ≠ 0 ∧ result ≠ .ok then (t.goto p .user, .waitFailed p times)
  else ((t.setEntry pp e.freeproc).goto p .user,
    .reaped p pp e.pid (if call.addr ≠ 0 then some e.xstate else none) times)

/-- The end of `exit`. -/
def becomeZombie (p : Fin NPROC) (status : Int) : ProcTable :=
  { t with waitLock := none }.setEntry p
    { t.entry p with xstate := status, state := .zombie, etime := t.ticks }

/-- `kill` at an entry with the pid it looks for. -/
def killEntry (q : Fin NPROC) : ProcTable :=
  t.setEntry q { t.entry q with
    killed := true
    state := if (t.entry q).state = .sleeping then .runnable else (t.entry q).state }

/-- The next step of a running process in its call; it waits while another holds `wait_lock`. -/
def advance (p : Fin NPROC) (result : MemoryResult) : Option (ProcTable × ProcEvent) :=
  match t.position p with
  | .user => none
  | .asleep => some ((t.tidyUp p).goto p .user, .silent)
  | .forkScan i =>
    if h : i < NPROC then
      if (t.entry ⟨i, h⟩).state = .unused then some (t.forkAlloc p ⟨i, h⟩ result)
      else some (t.goto p (.forkScan (i + 1)), .silent)
    else some (t.goto p .user, .forkFull p)
  | .forkParent np pid =>
    if t.waitLock = none then
      some ((t.setEntry np { t.entry np with parent := some p }).goto p (.forkRun np pid), .silent)
    else none
  | .forkRun np pid =>
    some ((t.setEntry np { t.entry np with state := .runnable }).goto p .user, .forked p pid)
  | .exitStart status =>
    if t.waitLock = none then
      some ({ t with waitLock := some p }.goto p (.exitReparent status 0), .silent)
    else none
  | .exitReparent status i =>
    if h : i < NPROC then
      if (t.entry ⟨i, h⟩).parent = some p then
        some ((t.setEntry ⟨i, h⟩ { t.entry ⟨i, h⟩ with parent := some t.initproc }).goto p
          (.exitWakeInit status i 0), .silent)
      else some (t.goto p (.exitReparent status (i + 1)), .silent)
    else some (t.goto p (.exitWakeParent status (t.entry p).parent 0), .silent)
  | .exitWakeInit status i j =>
    if h : j < NPROC then
      some ((t.wakeEntry p (some (.proc t.initproc)) ⟨j, h⟩).goto p
        (.exitWakeInit status i (j + 1)), .silent)
    else some (t.goto p (.exitReparent status (i + 1)), .silent)
  | .exitWakeParent status parent j =>
    if h : j < NPROC then
      some ((t.wakeEntry p (parent.map .proc) ⟨j, h⟩).goto p
        (.exitWakeParent status parent (j + 1)), .silent)
    else some ((t.becomeZombie p status).goto p .user, .silent)
  | .waitStart call =>
    if t.waitLock = none then
      some ({ t with waitLock := some p }.goto p (.waitScan call false 0), .silent)
    else none
  | .waitScan call havekids i =>
    if h : i < NPROC then
      if (t.entry ⟨i, h⟩).parent = some p then some (t.goto p (.waitChild call ⟨i, h⟩), .silent)
      else some (t.goto p (.waitScan call havekids (i + 1)), .silent)
    else if !havekids || (t.entry p).killed then
      some ({ t with waitLock := none }.goto p .user, .waitFailed p none)
    else some (t.goto p (.waitSleep call), .silent)
  | .waitChild call pp =>
    if (t.entry pp).state = .zombie then some (t.reap p pp call result)
    else some (t.goto p (.waitScan call true (pp + 1)), .silent)
  | .waitSleep call =>
    some (({ t with waitLock := none }.sleep p (.proc p)).goto p (.waitAsleep call), .silent)
  | .waitAsleep call => some ((t.tidyUp p).goto p (.waitStart call), .silent)
  | .killScan pid i =>
    if h : i < NPROC then
      if (t.entry ⟨i, h⟩).pid = pid then
        some ((t.killEntry ⟨i, h⟩).goto p .user, .killed p pid true)
      else some (t.goto p (.killScan pid (i + 1)), .silent)
    else some (t.goto p .user, .killed p pid false)

/-- A process starts a call. `initproc` panics in `exit`, which ends the run. -/
def call (p : Fin NPROC) : ProcCall → Option (ProcTable × ProcEvent)
  | .fork => some (t.goto p (.forkScan 0), .silent)
  | .exit status =>
    if p = t.initproc then none
    else some (t.goto p (.exitStart status), .exiting p (t.entry p).pid status)
  | .wait c => some (t.goto p (.waitStart c), .silent)
  | .kill pid => some (t.goto p (.killScan pid 0), .silent)

/-- Is the process in user space or in another part of the kernel, on some CPU? -/
def Ready (p : Fin NPROC) : Prop :=
  (t.entry p).state = .running ∧ match t.position p with
    | .user => True
    | _ => False

instance (p : Fin NPROC) : Decidable (t.Ready p) := by
  unfold Ready
  split <;> infer_instance

/-- The effect of an action. -/
def next : ProcAction → Option (ProcTable × ProcEvent)
  | .schedule p =>
    if (t.entry p).state = .runnable then
      some (t.setEntry p { t.entry p with state := .running }, .silent)
    else none
  -- a process that holds a lock has interrupts off
  | .yield p =>
    if (t.entry p).state = .running ∧ t.waitLock ≠ some p then
      some (t.setEntry p { t.entry p with state := .runnable }, .silent)
    else none
  | .call p c => if t.Ready p then t.call p c else none
  | .advance p result => if (t.entry p).state = .running then t.advance p result else none
  | .setkilled p =>
    if t.Ready p then some (t.setEntry p { t.entry p with killed := true }, .silent) else none
  | .sleep p n =>
    if t.Ready p then some ((t.sleep p (.other n)).goto p .asleep, .silent) else none
  | .wakeup n q => some (t.wake (some (.other n)) q, .silent)
  | .tick => some ({ t with ticks := t.ticks + 1 }, .silent)
  | .updateTime q =>
    if (t.entry q).state = .running then
      some (t.setEntry q { t.entry q with rtime := (t.entry q).rtime + 1 }, .silent)
    else none

/-- The table after `userinit`: one runnable process. -/
def boot : ProcTable where
  entry := Function.update (fun _ => .zero) ⟨0, nproc_pos⟩
    { Entry.zero with state := .runnable, pid := 1 }
  position _ := .user
  nextpid := 2
  ticks := 0
  waitLock := none
  initproc := ⟨0, nproc_pos⟩

end ProcTable

/-- The runs of the process table. -/
def procSystem : StepSystem ProcTable ProcEvent where
  init t := t = .boot
  step t event t' := ∃ action, t.next action = some (t', event)

end Xv6Cos.Kernel
