import Xv6Cos.Kernel.Param
import Xv6Cos.Lib.CircularList

/-!
# Buffer cache (`kernel/bio.c`)

`NBUF` buffers on a circular list ordered by use. The functions here are the critical
sections under `bcache.lock`; the sleep-lock of a buffer and the disk transfers are steps of
their own in `Kernel.LogMachine`.
-/

namespace Xv6Cos.Kernel

open CircularList

/-- What the holder of a buffer has done to `data` since it took the sleep-lock. The kernel
stores no such field: it is the caller's side of the protocol of `bread`, `log_write` and
`brelse`. -/
inductive Edit
  /-- Nothing. -/
  | clean
  /-- Changed `data`, and not yet called `log_write` for it. -/
  | unlogged
  /-- Called `log_write` for it. -/
  | logged
  deriving DecidableEq

/-- `struct buf`, without its list pointers. -/
structure Buf (ι : Type) where
  /-- Has data been read from disk? -/
  valid : Bool
  dev : ℕ
  blockno : ℕ
  /-- The process that holds the sleep-lock. -/
  lock : Option ι
  refcnt : ℕ
  data : Block
  edit : Edit

/-- `bcache`, without its spinlock. -/
structure Bcache (ι : Type) where
  buf : Fin NBUF → Buf ι
  /-- The `prev` and `next` pointers of the buffers and of `head`. -/
  links : Links (Fin NBUF)

namespace Bcache

variable {ι : Type}

/-- Replace one buffer. -/
def set (c : Bcache ι) (b : Fin NBUF) (buf : Buf ι) : Bcache ι :=
  { c with buf := Function.update c.buf b buf }

/-- `binit`: every buffer is pushed behind `head` in turn; the rest of `bcache` is zero. -/
def binit : Bcache ι where
  buf _ :=
    { valid := false, dev := 0, blockno := 0, lock := none, refcnt := 0, data := fun _ => 0,
      edit := .clean }
  links := (List.finRange NBUF).foldl Links.pushFront ⟨fun _ => none, fun _ => none⟩

/-- First loop of `bget`: the buffer that caches the block. -/
def lookup (c : Bcache ι) (dev blockno : ℕ) : Option (Fin NBUF) :=
  scan c.links.next (fun b => (c.buf b).dev == dev && (c.buf b).blockno == blockno)
    (c.links.next none) (NBUF + 1)

/-- Second loop of `bget`: the least recently used buffer with no reference. -/
def victim (c : Bcache ι) : Option (Fin NBUF) :=
  scan c.links.prev (fun b => (c.buf b).refcnt == 0) (c.links.prev none) (NBUF + 1)

/-- `bget` up to its `release`; `none` is the panic "bget: no buffers". -/
def bget (c : Bcache ι) (dev blockno : ℕ) : Option (Fin NBUF × Bcache ι) :=
  match c.lookup dev blockno with
  | some b => some (b, c.set b { c.buf b with refcnt := (c.buf b).refcnt + 1 })
  | none =>
    match c.victim with
    | some b =>
      some (b, c.set b
        { c.buf b with dev := dev, blockno := blockno, valid := false, refcnt := 1 })
    | none => none

/-- `brelse` from its `acquire` on: drop the reference, and move the buffer behind `head`
when nobody is waiting for it. -/
def brelse (c : Bcache ι) (b : Fin NBUF) : Bcache ι :=
  let c := c.set b { c.buf b with refcnt := (c.buf b).refcnt - 1 }
  if (c.buf b).refcnt = 0 then { c with links := (c.links.unlink b).pushFront b } else c

/-- `bpin` keeps the buffer in the cache. -/
def bpin (c : Bcache ι) (b : Fin NBUF) : Bcache ι :=
  c.set b { c.buf b with refcnt := (c.buf b).refcnt + 1 }

/-- `bunpin` undoes one `bpin`. -/
def bunpin (c : Bcache ι) (b : Fin NBUF) : Bcache ι :=
  c.set b { c.buf b with refcnt := (c.buf b).refcnt - 1 }

end Bcache

end Xv6Cos.Kernel
