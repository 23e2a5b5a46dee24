import Xv6Cos.Kernel.Param
import Xv6Cos.Lib.Bytes

/-!
# Log state (`kernel/log.c`)

The in-memory log and the critical sections of `begin_op`, `log_write` and `end_op` under
`log.lock`, and the layout of the header block.
-/

namespace Xv6Cos.Kernel

open Bytes

/-- The panics of the log and of the buffer cache. -/
inductive LogPanic
  /-- `bget: no buffers`. -/
  | noBuffers
  /-- `bwrite`: the caller does not hold the buffer. -/
  | bwrite
  /-- `brelse`: the caller does not hold the buffer. -/
  | brelse
  /-- `too big a transaction`. -/
  | tooBig
  /-- `log_write outside of trans`. -/
  | outsideTrans
  /-- `log.committing`. -/
  | committing
  deriving DecidableEq

/-- `struct logheader`: a count and the array of logged block numbers. -/
structure Logheader where
  n : ℕ
  block : ℕ → ℕ

/-- `struct log`, without its spinlock. -/
structure Log where
  start : ℕ
  size : ℕ
  /-- How many FS sys calls are executing. -/
  outstanding : ℤ
  /-- In `commit()`, please wait. -/
  committing : Bool
  dev : ℕ
  lh : Logheader

namespace Logheader

/-- The loop of `log_write` from index `i` with `left` entries to go. -/
def searchGo (lh : Logheader) (blockno i : ℕ) : ℕ → ℕ
  | 0 => i
  | left + 1 => if lh.block i = blockno then i else lh.searchGo blockno (i + 1) left

/-- The index at which `log_write` records the block: its entry, or `lh.n`. -/
def search (lh : Logheader) (blockno : ℕ) : ℕ := lh.searchGo blockno 0 lh.n

/-- `read_head`: the count and that many entries; the entries beyond keep their values. -/
def readHead (lh : Logheader) (data : Block) : Logheader :=
  let n := readLE data 0 4
  { n := n, block := fun i => if i < n then readLE data (4 * (i + 1)) 4 else lh.block i }

/-- Store the first `k` entries into the header block. -/
def fillHeadGo (lh : Logheader) (data : Block) : ℕ → Block
  | 0 => data
  | k + 1 => writeLE (lh.fillHeadGo data k) (4 * (k + 1)) (lh.block k) 4

/-- The contents `write_head` gives to the header block. -/
def fillHead (lh : Logheader) (data : Block) : Block :=
  lh.fillHeadGo (writeLE data 0 lh.n 4) lh.n

end Logheader

namespace Log

/-- The log that `initlog` sets up before recovery. -/
def initlog (dev logstart nlog : ℕ) : Log where
  start := logstart
  size := nlog
  outstanding := 0
  committing := false
  dev := dev
  lh := { n := 0, block := fun _ => 0 }

/-- One test of `begin_op`; `none` when it goes to sleep. -/
def beginOp (log : Log) : Option Log :=
  if log.committing then none
  else if log.lh.n + (log.outstanding + 1) * MAXOPBLOCKS > LOGSIZE then none
  else some { log with outstanding := log.outstanding + 1 }

/-- The first critical section of `end_op`, with the value of `do_commit`. -/
def endOp (log : Log) : Except LogPanic (Log × Bool) :=
  let log := { log with outstanding := log.outstanding - 1 }
  if log.committing then .error .committing
  else if log.outstanding = 0 then .ok ({ log with committing := true }, true)
  else .ok (log, false)

/-- `log_write`, with whether the buffer is to be pinned. -/
def logWrite (log : Log) (blockno : ℕ) : Except LogPanic (Log × Bool) :=
  if LOGSIZE ≤ log.lh.n ∨ log.size ≤ log.lh.n + 1 then .error .tooBig
  else if log.outstanding < 1 then .error .outsideTrans
  else
    let i := log.lh.search blockno
    let block := Function.update log.lh.block i blockno
    if i = log.lh.n then
      .ok ({ log with lh := { n := log.lh.n + 1, block := block } }, true)
    else .ok ({ log with lh := { log.lh with block := block } }, false)

/-- The last critical section of `end_op`, after `commit`. -/
def endCommit (log : Log) : Log := { log with committing := false }

end Log

end Xv6Cos.Kernel
