import Xv6Cos.Lib.Transition

/-!
# Pipes (`kernel/pipe.c`)

One pipe shared by any number of processes. A critical section under `pi->lock` is one
step: it runs from `acquire`, or from the return of `sleep`, to `release` or to the next
`sleep`. User memory and the `killed` flag are read inside the loops, so a section takes
them from an environment that answers each iteration: what `copyin` and `copyout` return
there, and from which iteration on a concurrent `kill` is visible.
-/

namespace Xv6Cos.Kernel

open Transition Function

/-- The bytes of the buffer. -/
abbrev PIPESIZE : Nat := 512

/-- `struct pipe`, without its spinlock: a section holds it from end to end. -/
structure Pipe where
  /-- `data[PIPESIZE]`. -/
  data : Fin PIPESIZE → UInt8
  /-- Number of bytes read, modulo 2³². -/
  nread : UInt32
  /-- Number of bytes written, modulo 2³². -/
  nwrite : UInt32
  /-- The read descriptor is still open. -/
  readopen : Bool
  /-- The write descriptor is still open. -/
  writeopen : Bool

namespace Pipe

/-- The pipe that `pipealloc` builds in a fresh page; `kalloc` leaves junk in `data`. -/
def pipealloc (junk : Fin PIPESIZE → UInt8) : Pipe :=
  { data := junk, nread := 0, nwrite := 0, readopen := true, writeopen := true }

/-- `pi->data[pi->nwrite++ % PIPESIZE] = ch`. -/
def put (pi : Pipe) (ch : UInt8) : Pipe :=
  { pi with
    data := update pi.data (Fin.ofNat PIPESIZE pi.nwrite.toNat) ch
    nwrite := pi.nwrite + 1 }

/-- The byte of `ch = pi->data[pi->nread++ % PIPESIZE]`. -/
def front (pi : Pipe) : UInt8 := pi.data (Fin.ofNat PIPESIZE pi.nread.toNat)

/-- The pipe after `ch = pi->data[pi->nread++ % PIPESIZE]`. -/
def skip (pi : Pipe) : Pipe := { pi with nread := pi.nread + 1 }

/-- The test `pi->nwrite == pi->nread + PIPESIZE`. -/
def full (pi : Pipe) : Bool := pi.nwrite == pi.nread + 512

/-- The test `pi->nread == pi->nwrite`. -/
def empty (pi : Pipe) : Bool := pi.nread == pi.nwrite

end Pipe

/-- What the loops of one section learn from outside, for each value of the counter `i`. -/
structure PipeEnv where
  /-- `killed(pr)`. -/
  killed : Nat → Bool
  /-- The byte `copyin` fetches from `addr + i`; `none` when it returns -1. -/
  copyin : Nat → Option UInt8
  /-- Whether `copyout` to `addr + i` succeeds. -/
  copyout : Nat → Bool

/-- How a section of `pipewrite` leaves its loop. -/
inductive WriteExit
  /-- The reader is gone or the writer was killed: return -1. -/
  | failed
  /-- The pipe is full: sleep on `&pi->nwrite` with this count. -/
  | full (i : Nat)
  /-- All bytes written, or `copyin` failed: return this count. -/
  | done (i : Nat)
  deriving DecidableEq

/-- The loop of `pipewrite` at count `i` with `left` bytes to go, up to its next `sleep` or
its exit, with the bytes put into `pi->data` in order. -/
def pipewriteGo (env : PipeEnv) (pi : Pipe) (i : Nat) : Nat → WriteExit × Pipe × List UInt8
  | 0 => (.done i, pi, [])
  | left + 1 =>
    if !pi.readopen || env.killed i then (.failed, pi, [])
    else if pi.full then (.full i, pi, [])
    else
      match env.copyin i with
      | none => (.done i, pi, [])
      | some ch =>
        let (exit, pi', bytes) := pipewriteGo env (pi.put ch) (i + 1) left
        (exit, pi', ch :: bytes)

/-- The copying loop of `piperead` at count `i` with `left` bytes requested, with the bytes
taken out of `pi->data` in order. A byte is consumed before `copyout` is tried. -/
def pipereadGo (env : PipeEnv) (pi : Pipe) (i : Nat) : Nat → Nat × Pipe × List UInt8
  | 0 => (i, pi, [])
  | left + 1 =>
    if pi.empty then (i, pi, [])
    else if !env.copyout i then (i, pi.skip, [pi.front])
    else
      let (r, pi', bytes) := pipereadGo env pi.skip (i + 1) left
      (r, pi', pi.front :: bytes)

/-- The wait channels of a pipe. -/
inductive PipeChan
  /-- `&pi->nread`, where readers wait. -/
  | nread
  /-- `&pi->nwrite`, where writers wait. -/
  | nwrite
  deriving DecidableEq

/-- Where a process is with respect to the pipe. -/
inductive PipeCall
  /-- In no pipe call; the result of the last one. -/
  | idle (result : Option Int)
  /-- In `pipewrite`, outside its critical section, with `i` of `n` bytes written. -/
  | writing (i : Nat) (n : Int)
  /-- In `piperead`, outside its critical section, with `n` bytes requested. -/
  | reading (n : Int)
  deriving DecidableEq

/-- One pipe and the processes `ι` that use it. -/
structure PipeState (ι : Type) where
  /-- The pipe. -/
  pi : Pipe
  /-- `pipeclose` has passed the page to `kfree`. -/
  freed : Bool
  /-- Where each process is. -/
  call : ι → PipeCall
  /-- The channel a SLEEPING process waits on. -/
  asleep : ι → Option PipeChan
  /-- `p->killed`. -/
  killed : ι → Bool

/-- A step of the system. -/
inductive PipeAction (ι : Type)
  /-- `p` calls `pipewrite(pi, addr, n)`. -/
  | pipewrite (p : ι) (n : Int)
  /-- `p` calls `piperead(pi, addr, n)`. -/
  | piperead (p : ι) (n : Int)
  /-- `p` runs its next critical section; `copy` answers `copyin` and `copyout`, and a
  `kill` arriving meanwhile is visible from iteration `killedFrom` on. -/
  | run (p : ι) (copyin : Nat → Option UInt8) (copyout : Nat → Bool)
      (killedFrom : Option Nat)
  /-- `pipeclose(pi, writable)`. -/
  | pipeclose (writable : Bool)
  /-- `kill` of `p`. -/
  | kill (p : ι)

/-- What a step did to the byte stream. -/
structure PipeEvent where
  /-- Bytes put into `pi->data`, in order. -/
  put : List UInt8 := []
  /-- Bytes taken out of `pi->data`, in order. -/
  taken : List UInt8 := []

namespace PipeState

variable {ι : Type} [DecidableEq ι]

/-- `wakeup(chan)`: every process sleeping on the channel becomes runnable. -/
def wakeup (s : PipeState ι) (chan : PipeChan) : PipeState ι :=
  { s with asleep := fun p => if s.asleep p = some chan then none else s.asleep p }

/-- `p` goes to sleep on the channel, inside the call it is in. -/
def sleep (s : PipeState ι) (p : ι) (chan : PipeChan) : PipeState ι :=
  { s with asleep := update s.asleep p (some chan) }

/-- `p` continues at this place of its call. -/
def setCall (s : PipeState ι) (p : ι) (call : PipeCall) : PipeState ι :=
  { s with call := update s.call p call }

/-- The environment of one section of `p`. -/
def env (s : PipeState ι) (p : ι) (copyin : Nat → Option UInt8) (copyout : Nat → Bool)
    (killedFrom : Option Nat) : PipeEnv where
  killed i := s.killed p || (killedFrom.any fun k => decide (k ≤ i))
  copyin := copyin
  copyout := copyout

/-- One critical section of `pipewrite`. -/
def writeSection (s : PipeState ι) (p : ι) (i : Nat) (n : Int) (env : PipeEnv) :
    PipeState ι × PipeEvent :=
  let (exit, pi, bytes) := pipewriteGo env s.pi i (n - i).toNat
  let s := { s with pi := pi }
  match exit with
  | .failed => (s.setCall p (.idle (some (-1))), { put := bytes })
  | .full i => (((s.wakeup .nread).setCall p (.writing i n)).sleep p .nwrite, { put := bytes })
  | .done i => ((s.wakeup .nread).setCall p (.idle (some i)), { put := bytes })

/-- One critical section of `piperead`: wait while the pipe is empty and the writer is
there, else copy what is there. -/
def readSection (s : PipeState ι) (p : ι) (n : Int) (env : PipeEnv) : PipeState ι × PipeEvent :=
  if s.pi.empty && s.pi.writeopen then
    if env.killed 0 then (s.setCall p (.idle (some (-1))), {})
    else (s.sleep p .nread, {})
  else
    let (i, pi, bytes) := pipereadGo env s.pi 0 n.toNat
    ((({ s with pi := pi } : PipeState ι).wakeup .nwrite).setCall p (.idle (some i)),
      { taken := bytes })

/-- `pipeclose`, which frees the page with the second end. -/
def pipeclose (s : PipeState ι) (writable : Bool) : PipeState ι :=
  let s :=
    if writable then ({ s with pi := { s.pi with writeopen := false } } : PipeState ι).wakeup .nread
    else ({ s with pi := { s.pi with readopen := false } } : PipeState ι).wakeup .nwrite
  if !s.pi.readopen && !s.pi.writeopen then { s with freed := true } else s

/-- The effect of one action; `none` when it cannot happen now. -/
def next (s : PipeState ι) : PipeAction ι → Option (PipeState ι × PipeEvent)
  | .pipewrite p n =>
    match s.call p with
    | .idle _ => some (s.setCall p (.writing 0 n), {})
    | _ => none
  | .piperead p n =>
    match s.call p with
    | .idle _ => some (s.setCall p (.reading n), {})
    | _ => none
  | .run p copyin copyout killedFrom =>
    if (s.asleep p).isSome then none
    else
      let env := s.env p copyin copyout killedFrom
      let s := { s with killed := update s.killed p (s.killed p || killedFrom.isSome) }
      match s.call p with
      | .idle _ => none
      | .writing i n => some (s.writeSection p i n env)
      | .reading n => some (s.readSection p n env)
  | .pipeclose writable => some (s.pipeclose writable, {})
  | .kill p =>
    some ({ s with
      killed := update s.killed p true
      asleep := update s.asleep p none }, {})

end PipeState

/-- All interleavings on one pipe, from its allocation until its page is freed. -/
def pipeSystem (ι : Type) [DecidableEq ι] : StepSystem (PipeState ι) PipeEvent where
  init s := ∃ junk, s =
    { pi := Pipe.pipealloc junk, freed := false, call := fun _ => .idle none,
      asleep := fun _ => none, killed := fun _ => false }
  step s event t := s.freed = false ∧ ∃ action, s.next action = some (t, event)

/-- The bytes put in by all writers along a trace. -/
def putBytes (trace : List PipeEvent) : List UInt8 := trace.flatMap PipeEvent.put

/-- The bytes taken out by all readers along a trace. -/
def takenBytes (trace : List PipeEvent) : List UInt8 := trace.flatMap PipeEvent.taken

end Xv6Cos.Kernel
