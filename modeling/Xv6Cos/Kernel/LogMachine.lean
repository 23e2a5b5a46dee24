import Xv6Cos.Kernel.Bio
import Xv6Cos.Kernel.Log
import Xv6Cos.Lib.Transition
import Mathlib.Data.Fintype.Basic

/-!
# The log running over the buffer cache (`kernel/log.c`, `kernel/bio.c`)

Any number of processes read, modify, log and release blocks; the process that ends the last
operation runs `commit`; a crash keeps the disk and starts recovery. One step is one
critical section, one acquisition or release of a buffer's sleep-lock, or one transfer of a
block, which is atomic and reaches the disk in the order issued. There is one device; the
superblock has been read before recovery starts.
-/

namespace Xv6Cos.Kernel

open Transition Function

/-- Whether `install_trans` runs in `commit` or in `recover_from_log`. -/
inductive Mode
  | commit
  | recover
  deriving DecidableEq

/-- Which header `write_head` writes: the transaction, or the one with `lh.n = 0`. -/
inductive Head
  | log
  | erase (mode : Mode)
  deriving DecidableEq

/-- Where a process is in `commit` or `initlog`; `user` in neither. Each stage is about to
make the call its comment names. -/
inductive Stage
  | user
  /-- `commit`: test `log.lh.n > 0`. -/
  | commit
  /-- `write_log`: loop test, then `bread` of the log block. -/
  | writeLog (tail : ℕ)
  /-- `bread` of the cache block. -/
  | writeLogFrom (tail : ℕ) (tobuf : Fin NBUF)
  /-- `memmove` and `bwrite(to)`. -/
  | writeLogCopy (tail : ℕ) (tobuf frombuf : Fin NBUF)
  /-- `brelse(from)`. -/
  | writeLogRelFrom (tail : ℕ) (tobuf frombuf : Fin NBUF)
  /-- `brelse(to)`. -/
  | writeLogRelTo (tail : ℕ) (tobuf : Fin NBUF)
  /-- `write_head`: `bread` of the header block. -/
  | writeHead (head : Head)
  /-- Copy `log.lh` and `bwrite(buf)`. -/
  | writeHeadFill (head : Head) (buf : Fin NBUF)
  /-- `brelse(buf)`. -/
  | writeHeadRel (head : Head) (buf : Fin NBUF)
  /-- `install_trans`: loop test, then `bread` of the log block. -/
  | install (mode : Mode) (tail : ℕ)
  /-- `bread` of the destination. -/
  | installDst (mode : Mode) (tail : ℕ) (lbuf : Fin NBUF)
  /-- `memmove` and `bwrite(dbuf)`. -/
  | installCopy (mode : Mode) (tail : ℕ) (lbuf dbuf : Fin NBUF)
  /-- `bunpin(dbuf)` unless recovering. -/
  | installUnpin (mode : Mode) (tail : ℕ) (lbuf dbuf : Fin NBUF)
  /-- `brelse(lbuf)`. -/
  | installRelLog (mode : Mode) (tail : ℕ) (lbuf dbuf : Fin NBUF)
  /-- `brelse(dbuf)`. -/
  | installRelDst (mode : Mode) (tail : ℕ) (dbuf : Fin NBUF)
  /-- `log.lh.n = 0`. -/
  | clear (mode : Mode)
  /-- `read_head`: `bread` of the header block. -/
  | readHead
  /-- Copy the header into `log.lh`. -/
  | readHeadCopy (buf : Fin NBUF)
  /-- `brelse(buf)`. -/
  | readHeadRel (buf : Fin NBUF)
  /-- Back in `end_op` after `commit`. -/
  | commitDone
  /-- End of `initlog`. -/
  | initDone
  deriving DecidableEq

/-- Where a process is inside `bread` or `brelse`; `run` in neither. -/
inductive Wait
  | run
  /-- In `bget`, with a reference to the buffer, before `acquiresleep` returns. -/
  | acquiring (b : Fin NBUF) (blockno : ℕ)
  /-- In `bread`, with the sleep-lock, before it returns. -/
  | filling (b : Fin NBUF) (blockno : ℕ)
  /-- In `brelse`, after `releasesleep`. -/
  | releasing (b : Fin NBUF)
  deriving DecidableEq

/-- The disk, the kernel's memory, and where each process is. -/
structure LogState (ι : Type) where
  disk : ℕ → Block
  cache : Bcache ι
  log : Log
  stage : ι → Stage
  wait : ι → Wait
  /-- Is the process between `begin_op` and `end_op`? -/
  inOp : ι → Bool
  /-- Has `initlog` completed? -/
  booted : Bool

/-- What a step shows of block contents. -/
inductive LogEvent
  | silent
  /-- `bread` returned this block with these contents. -/
  | read (blockno : ℕ) (data : Block)
  /-- A buffer passed to `log_write` was released with these contents. -/
  | released (blockno : ℕ) (data : Block)
  /-- `log.c` wrote a log block or the erased header, or recovery wrote a home block. -/
  | wrote (blockno : ℕ) (data : Block)
  /-- `write_head` wrote the header of a transaction. -/
  | committed (blockno : ℕ) (data : Block)
  /-- `install_trans` of a commit wrote a home block. -/
  | installed
  /-- `initlog` completed. -/
  | booted
  /-- The machine stopped with this disk. -/
  | crashed (disk : ℕ → Block)

/-- The next thing a stage does. -/
inductive Op
  | bread (blockno : ℕ)
  | bwrite (b : Fin NBUF) (data : Block) (event : LogEvent) (after : Stage)
  | brelse (b : Fin NBUF) (after : Stage)
  | bunpin (b : Fin NBUF) (after : Stage)
  | setHead (lh : Logheader) (after : Stage)
  | goto (after : Stage)
  | endCommit
  | initDone

/-- Outcome of an action. -/
inductive Outcome (ι : Type)
  /-- The process sleeps, or the action is not its to take. -/
  | blocked
  | panic (why : LogPanic)
  | ok (s : LogState ι) (event : LogEvent)

/-- An action of a process that follows the protocol, one step of a process inside a call,
or a crash after which `p` is the first process. -/
inductive LogAction (ι : Type)
  | bread (p : ι) (blockno : ℕ)
  | modify (p : ι) (b : Fin NBUF) (data : Block)
  | logWrite (p : ι) (b : Fin NBUF)
  | brelse (p : ι) (b : Fin NBUF)
  | beginOp (p : ι)
  | endOp (p : ι)
  | run (p : ι)
  | crash (p : ι)

/-- A block outside the log that the header can name. -/
def Log.home (log : Log) (blockno : ℕ) : Prop :=
  (blockno < log.start ∨ log.start + log.size ≤ blockno) ∧ blockno < 2 ^ 32

instance (log : Log) (blockno : ℕ) : Decidable (log.home blockno) :=
  inferInstanceAs (Decidable (_ ∧ _))

/-- The stage after the `bread` that this stage makes. -/
def Stage.got (stage : Stage) (b : Fin NBUF) : Stage :=
  match stage with
  | .writeLog tail => .writeLogFrom tail b
  | .writeLogFrom tail tobuf => .writeLogCopy tail tobuf b
  | .writeHead head => .writeHeadFill head b
  | .install mode tail => .installDst mode tail b
  | .installDst mode tail lbuf => .installCopy mode tail lbuf b
  | .readHead => .readHeadCopy b
  | stage => stage

/-- The stage after `write_head`. -/
def Head.after : Head → Stage
  | .log => .install .commit 0
  | .erase .commit => .commitDone
  | .erase .recover => .initDone

namespace LogState

variable {ι : Type}

/-- The bodies of `commit`, `write_log`, `write_head`, `install_trans`, `read_head` and
`recover_from_log`. -/
def op (s : LogState ι) : Stage → Option Op
  | .user => none
  | .commit => some (.goto (if 0 < s.log.lh.n then .writeLog 0 else .commitDone))
  | .writeLog tail =>
    if tail < s.log.lh.n then some (.bread (s.log.start + tail + 1))
    else some (.goto (.writeHead .log))
  | .writeLogFrom tail _ => some (.bread (s.log.lh.block tail))
  | .writeLogCopy tail tobuf frombuf =>
    let data := (s.cache.buf frombuf).data
    some (.bwrite tobuf data (.wrote (s.cache.buf tobuf).blockno data)
      (.writeLogRelFrom tail tobuf frombuf))
  | .writeLogRelFrom tail tobuf frombuf => some (.brelse frombuf (.writeLogRelTo tail tobuf))
  | .writeLogRelTo tail tobuf => some (.brelse tobuf (.writeLog (tail + 1)))
  | .writeHead _ => some (.bread s.log.start)
  | .writeHeadFill head buf =>
    let data := s.log.lh.fillHead (s.cache.buf buf).data
    let blockno := (s.cache.buf buf).blockno
    some (.bwrite buf data
      (match head with
        | .log => .committed blockno data
        | .erase _ => .wrote blockno data)
      (.writeHeadRel head buf))
  | .writeHeadRel head buf => some (.brelse buf head.after)
  | .install mode tail =>
    if tail < s.log.lh.n then some (.bread (s.log.start + tail + 1))
    else some (.goto (.clear mode))
  | .installDst _ tail _ => some (.bread (s.log.lh.block tail))
  | .installCopy mode tail lbuf dbuf =>
    let data := (s.cache.buf lbuf).data
    some (.bwrite dbuf data
      (match mode with
        | .commit => .installed
        | .recover => .wrote (s.cache.buf dbuf).blockno data)
      (.installUnpin mode tail lbuf dbuf))
  | .installUnpin .commit tail lbuf dbuf =>
    some (.bunpin dbuf (.installRelLog .commit tail lbuf dbuf))
  | .installUnpin .recover tail lbuf dbuf =>
    some (.goto (.installRelLog .recover tail lbuf dbuf))
  | .installRelLog mode tail lbuf dbuf => some (.brelse lbuf (.installRelDst mode tail dbuf))
  | .installRelDst mode tail dbuf => some (.brelse dbuf (.install mode (tail + 1)))
  | .clear mode => some (.setHead { s.log.lh with n := 0 } (.writeHead (.erase mode)))
  | .readHead => some (.bread s.log.start)
  | .readHeadCopy buf =>
    some (.setHead (s.log.lh.readHead (s.cache.buf buf).data) (.readHeadRel buf))
  | .readHeadRel buf => some (.brelse buf (.install .recover 0))
  | .commitDone => some .endCommit
  | .initDone => some .initDone

variable [DecidableEq ι]

/-- `p` is now in this stage. -/
def setStage (s : LogState ι) (p : ι) (stage : Stage) : LogState ι :=
  { s with stage := update s.stage p stage }

/-- `p` is now here inside `bread` or `brelse`. -/
def setWait (s : LogState ι) (p : ι) (wait : Wait) : LogState ι :=
  { s with wait := update s.wait p wait }

/-- Replace one buffer. -/
def setBuf (s : LogState ι) (b : Fin NBUF) (buf : Buf ι) : LogState ι :=
  { s with cache := s.cache.set b buf }

/-- `p` is outside every call, after boot. -/
def Ready (s : LogState ι) (p : ι) : Prop :=
  s.booted = true ∧ s.stage p = .user ∧ s.wait p = .run

instance (s : LogState ι) (p : ι) : Decidable (s.Ready p) :=
  inferInstanceAs (Decidable (_ ∧ _))

/-- Start of `bread`: `bget` up to `acquiresleep`. -/
def startRead (s : LogState ι) (p : ι) (blockno : ℕ) : Outcome ι :=
  match s.cache.bget s.log.dev blockno with
  | some (b, cache) => .ok ({ s with cache := cache }.setWait p (.acquiring b blockno)) .silent
  | none => .panic .noBuffers

/-- Start of `brelse`: `releasesleep`. -/
def startRelease (s : LogState ι) (p : ι) (b : Fin NBUF) : Outcome ι :=
  let buf := s.cache.buf b
  if buf.lock = some p then
    .ok ((s.setBuf b { buf with lock := none, edit := .clean }).setWait p (.releasing b))
      (if buf.edit = .clean then .silent else .released buf.blockno buf.data)
  else .panic .brelse

/-- Continue a process inside `bread` or `brelse`. -/
def resume (s : LogState ι) (p : ι) : Wait → Outcome ι
  | .run => .blocked
  | .acquiring b blockno =>
    if (s.cache.buf b).lock = none then
      .ok ((s.setBuf b { s.cache.buf b with lock := some p }).setWait p (.filling b blockno))
        .silent
    else .blocked
  | .filling b blockno =>
    let buf := s.cache.buf b
    let data := if buf.valid then buf.data else s.disk buf.blockno
    .ok (((s.setBuf b { buf with valid := true, data := data }).setWait p .run).setStage p
      ((s.stage p).got b)) (.read blockno data)
  | .releasing b => .ok ({ s with cache := s.cache.brelse b }.setWait p .run) .silent

/-- Do what the stage of `p` does next. -/
def perform (s : LogState ι) (p : ι) : Op → Outcome ι
  | .bread blockno => s.startRead p blockno
  | .bwrite b data event after =>
    let buf := s.cache.buf b
    if buf.lock = some p then
      .ok ({ s.setBuf b { buf with data := data } with
        disk := update s.disk buf.blockno data }.setStage p after) event
    else .panic .bwrite
  | .brelse b after => (s.setStage p after).startRelease p b
  | .bunpin b after => .ok ({ s with cache := s.cache.bunpin b }.setStage p after) .silent
  | .setHead lh after => .ok ({ s with log := { s.log with lh := lh } }.setStage p after) .silent
  | .goto after => .ok (s.setStage p after) .silent
  | .endCommit => .ok ({ s with log := s.log.endCommit }.setStage p .user) .silent
  | .initDone => .ok ({ s with booted := true }.setStage p .user) .booted

/-- The machine at the start of `initlog` in the first process. -/
def boot (dev logstart nlog : ℕ) (disk : ℕ → Block) (p : ι) : LogState ι where
  disk := disk
  cache := .binit
  log := .initlog dev logstart nlog
  stage := update (fun _ => .user) p .readHead
  wait _ := .run
  inOp _ := false
  booted := false

/-- The effect of an action. A process modifies and logs only home blocks that it holds,
inside an operation; it releases no block it modified without `log_write`, and ends no
operation while it holds a block it modified or logged. -/
def next (s : LogState ι) : LogAction ι → Outcome ι
  | .bread p blockno => if s.Ready p then s.startRead p blockno else .blocked
  | .modify p b data =>
    let buf := s.cache.buf b
    if s.Ready p ∧ s.inOp p = true ∧ buf.lock = some p ∧ s.log.home buf.blockno then
      .ok (s.setBuf b
        { buf with data := data, edit := if buf.edit = .logged then .logged else .unlogged })
        .silent
    else .blocked
  | .logWrite p b =>
    let buf := s.cache.buf b
    if s.Ready p ∧ s.inOp p = true ∧ buf.lock = some p ∧ s.log.home buf.blockno then
      match s.log.logWrite buf.blockno with
      | .error why => .panic why
      | .ok (log, pin) =>
        let s := s.setBuf b { buf with edit := .logged }
        .ok { s with log := log, cache := if pin then s.cache.bpin b else s.cache } .silent
    else .blocked
  | .brelse p b =>
    if s.Ready p ∧ (s.cache.buf b).edit ≠ .unlogged then s.startRelease p b else .blocked
  | .beginOp p =>
    if s.Ready p ∧ s.inOp p = false then
      match s.log.beginOp with
      | some log => .ok { s with log := log, inOp := update s.inOp p true } .silent
      | none => .blocked
    else .blocked
  | .endOp p =>
    if s.Ready p ∧ s.inOp p = true ∧
        ∀ b, (s.cache.buf b).lock = some p → (s.cache.buf b).edit = .clean then
      match s.log.endOp with
      | .error why => .panic why
      | .ok (log, commit) =>
        .ok ({ s with log := log, inOp := update s.inOp p false }.setStage p
          (if commit then .commit else .user)) .silent
    else .blocked
  | .run p =>
    match s.wait p with
    | .run =>
      match s.op (s.stage p) with
      | some op => s.perform p op
      | none => .blocked
    | wait => s.resume p wait
  | .crash p => .ok (boot s.log.dev s.log.start s.log.size s.disk p) (.crashed s.disk)

end LogState

/-- All runs from a disk with an empty log, as `mkfs` writes it. -/
def logMachine (ι : Type) [DecidableEq ι] (disk : ℕ → Block) :
    StepSystem (LogState ι) LogEvent where
  init s := ∃ dev logstart nlog p, 1 ≤ dev ∧ 1 ≤ nlog ∧
    Bytes.readLE (disk logstart) 0 4 = 0 ∧ s = .boot dev logstart nlog disk p
  step s event t := ∃ action, s.next action = .ok t event

end Xv6Cos.Kernel
