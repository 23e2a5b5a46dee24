import Xv6Cos.Kernel.Inode
import Xv6Cos.Lib.Transition

/-!
# The inode table under its locks (`kernel/fs.c`)

Any number of processes get, duplicate, lock, unlock, update and put inodes and allocate new
ones. A step is one critical section under `itable.lock` or under the sleep-lock of an inode;
`iput` gives `itable.lock` back while it frees an inode, and is cut there.
-/

namespace Xv6Cos.Kernel

open Transition Function

/-- Where a process is in a call that takes several sections. -/
inductive InodeCall
  | idle
  /-- `ialloc` has marked the inode allocated on disk and is about to call `iget`. -/
  | getting (dev inum : ℕ)
  /-- `iput` has found the inode without links and other references, locked it, and released
  `itable.lock`: it is about to truncate and free it. -/
  | freeing (e : Fin NINODE)
  /-- `iput` has freed the inode and is about to drop the reference. -/
  | dropping (e : Fin NINODE)
  deriving DecidableEq

/-- The table, the disk inodes, and the processes that use them. -/
structure InodeTable (ι : Type) where
  inode : Itable
  /-- The holder of the sleep-lock of each entry. -/
  lock : Fin NINODE → Option ι
  /-- The inode of a device with a number. -/
  disk : ℕ → ℕ → Dinode
  call : ι → InodeCall
  /-- The references handed out and not yet put, each with the process that holds it. -/
  handed : List (ι × Fin NINODE)

/-- One section, by the process that runs it. -/
inductive InodeAction (ι : Type)
  | iget (p : ι) (dev inum : ℕ)
  /-- `idup`, for a reference that another process may hold. -/
  | idup (p : ι) (e : Fin NINODE) (holder : ι)
  | ilock (p : ι) (e : Fin NINODE)
  /-- The holder of the lock changes fields and calls `iupdate`. -/
  | iupdate (p : ι) (e : Fin NINODE) (fields : Dinode)
  | iunlock (p : ι) (e : Fin NINODE)
  /-- `iput` up to its first `release`. -/
  | iput (p : ι) (e : Fin NINODE)
  /-- `iput` from there to `releasesleep`. -/
  | free (p : ι)
  /-- `iput` from its second `acquire`. -/
  | drop (p : ι)
  /-- `ialloc` for the free inode that it finds. -/
  | ialloc (p : ι) (dev inum : ℕ) (type : BitVec 16)

namespace InodeTable

variable {ι : Type} [DecidableEq ι]

/-- Change one entry. -/
def setInode (s : InodeTable ι) (e : Fin NINODE) (ip : Inode) : InodeTable ι :=
  { s with inode := update s.inode e ip }

/-- Change one inode on disk. -/
def setDisk (s : InodeTable ι) (dev inum : ℕ) (d : Dinode) : InodeTable ι :=
  { s with disk := update s.disk dev (update (s.disk dev) inum d) }

/-- Move a process on in its call. -/
def setCall (s : InodeTable ι) (p : ι) (call : InodeCall) : InodeTable ι :=
  { s with call := update s.call p call }

/-- Take or give back a sleep-lock. -/
def setLock (s : InodeTable ι) (e : Fin NINODE) (holder : Option ι) : InodeTable ι :=
  { s with lock := update s.lock e holder }

/-- `ip->ref--`, and the reference is gone. -/
def dropRef (s : InodeTable ι) (p : ι) (e : Fin NINODE) : InodeTable ι :=
  { s.setInode e { s.inode e with ref := (s.inode e).ref - 1 } with
    handed := s.handed.erase (p, e) }

/-- The fields that `ilock` has in memory: those on disk unless the entry is valid. -/
def loaded (s : InodeTable ι) (e : Fin NINODE) : Inode :=
  if (s.inode e).valid then s.inode e
  else { s.inode e with valid := true, copy := s.disk (s.inode e).dev (s.inode e).inum }

/-- One section; `none` if the process cannot run it now, blocks in it, or panics. Processes keep
to the kernel's use of inodes: they lock, duplicate and put what they hold a reference to, put
nothing they have locked, and change no `type`. -/
def next (s : InodeTable ι) : InodeAction ι → Option (InodeTable ι)
  | .iget p dev inum =>
    if s.call p = .idle ∨ s.call p = .getting dev inum then
      (s.inode.iget dev inum).map fun (e, inode) =>
        { s.setCall p .idle with inode := inode, handed := (p, e) :: s.handed }
    else none
  | .idup p e holder =>
    if s.call p = .idle ∧ (p, e) ∈ s.handed then
      some { s.setInode e { s.inode e with ref := (s.inode e).ref + 1 } with
        handed := (holder, e) :: s.handed }
    else none
  | .ilock p e =>
    if s.call p = .idle ∧ (p, e) ∈ s.handed ∧ s.lock e = none ∧ (s.loaded e).copy.type ≠ 0 then
      some ((s.setLock e (some p)).setInode e (s.loaded e))
    else none
  | .iupdate p e fields =>
    if s.call p = .idle ∧ s.lock e = some p ∧ fields.type = (s.inode e).copy.type then
      some ((s.setInode e { s.inode e with copy := fields }).setDisk
        (s.inode e).dev (s.inode e).inum fields)
    else none
  | .iunlock p e =>
    if s.call p = .idle ∧ s.lock e = some p then some (s.setLock e none) else none
  | .iput p e =>
    if s.call p = .idle ∧ (p, e) ∈ s.handed ∧ s.lock e ≠ some p then
      if (s.inode e).ref = 1 ∧ (s.inode e).valid ∧ (s.inode e).copy.nlink = 0 then
        -- `acquiresleep` blocks if another process has the lock
        if s.lock e = none then some ((s.setLock e (some p)).setCall p (.freeing e)) else none
      else some (s.dropRef p e)
    else none
  | .free p =>
    match s.call p with
    | .freeing e =>
      let fields := { (s.inode e).copy.truncated with type := 0 }
      some ((((s.setInode e { s.inode e with copy := fields, valid := false }).setDisk
        (s.inode e).dev (s.inode e).inum fields).setLock e none).setCall p (.dropping e))
    | _ => none
  | .drop p =>
    match s.call p with
    | .dropping e => some ((s.dropRef p e).setCall p .idle)
    | _ => none
  | .ialloc p dev inum type =>
    if s.call p = .idle ∧ (s.disk dev inum).type = 0 ∧ type ≠ 0 then
      some ((s.setDisk dev inum { Dinode.zero with type := type }).setCall p (.getting dev inum))
    else none

end InodeTable

/-- All interleavings of the sections, from an empty table and any disk. -/
def inodeSystem (ι : Type) [DecidableEq ι] : StepSystem (InodeTable ι) (InodeAction ι) :=
  StepSystem.ofNext
    (fun s => (∀ e, (s.inode e).ref = 0) ∧ (∀ e, s.lock e = none) ∧ (∀ p, s.call p = .idle) ∧
      s.handed = [])
    InodeTable.next

end Xv6Cos.Kernel
