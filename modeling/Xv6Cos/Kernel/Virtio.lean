import Xv6Cos.Lib.Program
import Xv6Cos.Lib.Transition
import Mathlib.Algebra.Group.Nat.Defs

/-!
# The disk driver (`kernel/virtio_disk.c`)

Processes `ι` read and write buffers `β` through `virtio_disk_rw`, each while it holds the buffer's
sleep-lock, as `bread` and `bwrite` do. A section under `vdisk_lock` is one step, except that
`virtio_disk_intr` makes one step a round, since the device may complete requests meanwhile. The
device sees a request when `avail->idx` moves, which is the last write of its section.
-/

namespace Xv6Cos.Kernel

open Program Transition Function

/-- `NUM`, the number of descriptors. -/
abbrev NUM : ℕ := 8

/-- Where a descriptor points to. -/
inductive DescAddr (β : Type)
  | null
  /-- `&disk.ops[i]`. -/
  | op (i : ℕ)
  /-- `b->data`. -/
  | data (b : β)
  /-- `&disk.info[i].status`. -/
  | status (i : ℕ)

/-- `struct virtq_desc`, with its flags apart. -/
structure Desc (β : Type) where
  addr : DescAddr β
  len : ℕ
  /-- `VRING_DESC_F_NEXT`. -/
  hasNext : Bool
  /-- `VRING_DESC_F_WRITE`. -/
  deviceWrites : Bool
  next : ℕ

/-- A descriptor that `free_desc` has cleared. -/
def Desc.cleared {β : Type} : Desc β := ⟨.null, 0, false, false, 0⟩

/-- `struct virtio_blk_req`. -/
structure BlkReq where
  write : Bool
  sector : ℕ

/-- An entry of `disk.info`. -/
structure DiskInfo (β : Type) where
  b : Option β
  status : UInt8

/-- `struct disk`, with the rings that it shares with the device. -/
structure VirtioDisk (β : Type) where
  desc : ℕ → Desc β
  /-- `avail->ring`. -/
  availRing : Fin NUM → ℕ
  /-- `avail->idx`. -/
  availIdx : UInt16
  /-- `used->ring[..].id`. -/
  usedRing : Fin NUM → ℕ
  /-- `used->idx`. -/
  usedRingIdx : UInt16
  free : ℕ → Bool
  /-- `used_idx`. -/
  usedIdx : UInt16
  info : ℕ → DiskInfo β
  ops : ℕ → BlkReq

/-- The local variables of a `virtio_disk_rw` whose request the device has. -/
structure DiskRequest (β : Type) where
  b : β
  blockno : ℕ
  write : Bool
  /-- `idx[0]`, the head of the chain. -/
  head : ℕ
  /-- `idx[1]`. -/
  body : ℕ
  /-- `idx[2]`. -/
  tail : ℕ

/-- The descriptors of a request. -/
def DiskRequest.idx {β : Type} (r : DiskRequest β) : List ℕ := [r.head, r.body, r.tail]

/-- `b->blockno * (BSIZE / 512)`, in 32-bit arithmetic. -/
def DiskRequest.sector {β : Type} (r : DiskRequest β) : ℕ := r.blockno * 2 % 2 ^ 32

/-- Where a process is with respect to the disk. -/
inductive RwCall (β : Type)
  | idle
  /-- It needs descriptors. -/
  | allocating (b : β) (blockno : ℕ) (write : Bool)
  /-- It waits for the device. -/
  | inFlight (r : DiskRequest β)

/-- The buffer of a call. -/
def RwCall.buffer {β : Type} : RwCall β → Option β
  | .idle => none
  | .allocating b _ _ => some b
  | .inFlight r => some r.b

/-- The wait channels. -/
inductive DiskChan (β : Type)
  /-- `&disk.free[0]`. -/
  | free
  | buf (b : β)
  deriving DecidableEq

/-- Driver, device, buffers and processes. -/
structure DriverState (ι β : Type) where
  disk : VirtioDisk β
  /-- `b->disk`. -/
  busy : β → Bool
  /-- Who holds `b->lock`. -/
  owner : β → Option ι
  call : ι → RwCall β
  asleep : ι → Option (DiskChan β)
  /-- `virtio_disk_intr` holds `vdisk_lock`. -/
  inIntr : Bool
  /-- How far the device has looked in the available ring. -/
  seen : UInt16
  /-- The chains that the device works on. -/
  fetched : List ℕ

/-- The panics of the driver. -/
inductive DriverPanic
  | freeDesc1 | freeDesc2 | status | nullPointer
  /-- A chain of more than `NUM` descriptors. -/
  | endless
  /-- The device finds a chain that is no request. -/
  | badChain

/-- A program of the driver. -/
abbrev DriverM (ι β α : Type) := Prog (DriverState ι β) DriverPanic α

section Driver

variable {ι β : Type} [DecidableEq ι] [DecidableEq β]

/-- Change `disk`. -/
def onVirtio (f : VirtioDisk β → VirtioDisk β) : DriverM ι β Unit :=
  modifies fun s => { s with disk := f s.disk }

/-- `wakeup(chan)`. -/
def wakeupDisk (chan : DiskChan β) : DriverM ι β Unit :=
  modifies fun s =>
    { s with asleep := fun p => if s.asleep p = some chan then none else s.asleep p }

/-- `alloc_desc`. -/
def allocDesc : DriverM ι β (Option ℕ) := do
  match ← reads fun s => (List.range NUM).find? s.disk.free with
  | none => pure none
  | some i => do
    onVirtio fun d => { d with free := update d.free i false }
    pure (some i)

/-- `free_desc`. -/
def freeDesc (i : ℕ) : DriverM ι β Unit := do
  let free ← reads fun s => s.disk.free i
  if NUM ≤ i then fail .freeDesc1
  else if free then fail .freeDesc2
  else do
    onVirtio fun d => { d with
      desc := update d.desc i .cleared
      free := update d.free i true }
    wakeupDisk .free

/-- `free_chain`, for at most this many descriptors. -/
def freeChain : ℕ → ℕ → DriverM ι β Unit
  | 0, _ => fail .endless
  | left + 1, i => do
    let desc ← reads fun s => s.disk.desc i
    freeDesc i
    if desc.hasNext then freeChain left desc.next else pure ()

/-- `alloc3_desc`. -/
def alloc3Desc : DriverM ι β (Option (ℕ × ℕ × ℕ)) := do
  match ← allocDesc with
  | none => pure none
  | some i => do
    match ← allocDesc with
    | none => do
      freeDesc i
      pure none
    | some j => do
      match ← allocDesc with
      | none => do
        freeDesc i
        freeDesc j
        pure none
      | some k => pure (some (i, j, k))

/-- Format the three descriptors, record the buffer and pass the chain to the device. -/
def submitted (r : DiskRequest β) (d : VirtioDisk β) : VirtioDisk β :=
  { d with
    ops := update d.ops r.head ⟨r.write, r.sector⟩
    desc := update (update (update d.desc
      r.head ⟨.op r.head, 16, true, false, r.body⟩)
      r.body ⟨.data r.b, 1024, true, !r.write, r.tail⟩)
      r.tail ⟨.status r.head, 1, false, true, 0⟩
    info := update d.info r.head ⟨some r.b, 0xff⟩
    availRing := update d.availRing (Fin.ofNat NUM d.availIdx.toNat) r.head
    availIdx := d.availIdx + 1 }

/-- What a step did. -/
inductive DriverEvent (ι β : Type)
  | locked (p : ι) (b : β)
  | unlocked (p : ι) (b : β)
  | called (p : ι) (b : β)
  /-- `virtio_disk_rw` went to sleep without passing a request. -/
  | waited (p : ι)
  | requested (p : ι) (r : DiskRequest β)
  /-- `virtio_disk_rw` returned after it freed the chain of this request. -/
  | returned (p : ι) (r : DiskRequest β)
  | interrupted
  /-- `virtio_disk_intr` found this chain in the used ring and cleared `b->disk`. -/
  | handled (head : ℕ) (b : β)
  | acknowledged
  | fetched (head : ℕ)
  /-- The device did what the chain with this head asked for. -/
  | completed (head : ℕ) (b : β) (op : BlkReq)
  | killed (p : ι)

/-- The next section of `virtio_disk_rw`, up to its `sleep` or its end. -/
def rwSection (p : ι) : RwCall β → DriverM ι β (DriverEvent ι β)
  | .idle => pure (.waited p)
  | .allocating b blockno write => do
    match ← alloc3Desc with
    | none => do
      modifies fun s => { s with asleep := update s.asleep p (some .free) }
      pure (.waited p)
    | some (i, j, k) => do
      let r : DiskRequest β := ⟨b, blockno, write, i, j, k⟩
      onVirtio (submitted r)
      modifies fun s => { s with
        busy := update s.busy b true
        call := update s.call p (.inFlight r)
        asleep := update s.asleep p (some (.buf b)) }
      pure (.requested p r)
  | .inFlight r => do
    if ← reads fun s => s.busy r.b then do
      modifies fun s => { s with asleep := update s.asleep p (some (.buf r.b)) }
      pure (.waited p)
    else do
      onVirtio fun d =>
        { d with info := update d.info r.head { d.info r.head with b := none } }
      freeChain (NUM + 1) r.head
      modifies fun s => { s with call := update s.call p .idle }
      pure (.returned p r)

/-- A round of the loop of `virtio_disk_intr`, or its end. -/
def intrRound : DriverM ι β (DriverEvent ι β) := do
  let d ← reads fun s => s.disk
  if d.usedIdx = d.usedRingIdx then do
    modifies fun s => { s with inIntr := false }
    pure .acknowledged
  else do
    let id := d.usedRing (Fin.ofNat NUM d.usedIdx.toNat)
    if (d.info id).status ≠ 0 then fail .status
    else match (d.info id).b with
      | none => fail .nullPointer
      | some b => do
        modifies fun s => { s with busy := update s.busy b false }
        wakeupDisk (.buf b)
        onVirtio fun d => { d with usedIdx := d.usedIdx + 1 }
        pure (.handled id b)

/-- What the device finds when it follows a chain: the request, the buffer and the place of the
status. -/
def VirtioDisk.chain (d : VirtioDisk β) (head : ℕ) : Option (BlkReq × β × ℕ) :=
  let body := (d.desc head).next
  let tail := (d.desc body).next
  match (d.desc head).addr, (d.desc body).addr, (d.desc tail).addr with
  | .op i, .data b, .status k =>
    if (d.desc head).hasNext && (d.desc body).hasNext && !(d.desc tail).hasNext then
      some (d.ops i, b, k)
    else none
  | _, _, _ => none

/-- The device has done the request: it writes the status and an entry of the used ring. -/
def completeChain (d : VirtioDisk β) (head status : ℕ) : VirtioDisk β :=
  { d with
    info := update d.info status { d.info status with status := 0 }
    usedRing := update d.usedRing (Fin.ofNat NUM d.usedRingIdx.toNat) head
    usedRingIdx := d.usedRingIdx + 1 }

/-- A step of a process, of the interrupt handler or of the device. -/
inductive DriverAction (ι β : Type)
  | lock (p : ι) (b : β)
  | unlock (p : ι) (b : β)
  | rw (p : ι) (b : β) (blockno : ℕ) (write : Bool)
  | run (p : ι)
  | interrupt
  | round
  | fetch
  | complete (head : ℕ)
  /-- `kill` wakes the process, wherever it sleeps. -/
  | kill (p : ι)

/-- Can it happen now? -/
def DriverAction.enabled (s : DriverState ι β) : DriverAction ι β → Prop
  | .lock p b => (s.call p).buffer = none ∧ s.owner b = none
  | .unlock p b => (s.call p).buffer = none ∧ s.owner b = some p
  | .rw p b _ _ => (s.call p).buffer = none ∧ s.owner b = some p
  | .run p => (s.call p).buffer ≠ none ∧ s.asleep p = none ∧ s.inIntr = false
  | .interrupt => s.inIntr = false
  | .round => s.inIntr = true
  | .fetch => s.seen ≠ s.disk.availIdx
  | .complete head => head ∈ s.fetched
  | .kill _ => True

/-- Do it. -/
def DriverAction.perform : DriverAction ι β → DriverM ι β (DriverEvent ι β)
  | .lock p b => do
    modifies fun s => { s with owner := update s.owner b (some p) }
    pure (.locked p b)
  | .unlock p b => do
    modifies fun s => { s with owner := update s.owner b none }
    pure (.unlocked p b)
  | .rw p b blockno write => do
    modifies fun s => { s with call := update s.call p (.allocating b blockno write) }
    pure (.called p b)
  | .run p => do
    let call ← reads fun s => s.call p
    rwSection p call
  | .interrupt => do
    modifies fun s => { s with inIntr := true }
    pure .interrupted
  | .round => intrRound
  | .fetch => do
    let head ← reads fun s => s.disk.availRing (Fin.ofNat NUM s.seen.toNat)
    modifies fun s => { s with seen := s.seen + 1, fetched := head :: s.fetched }
    pure (.fetched head)
  | .complete head => do
    match ← reads fun s => s.disk.chain head with
    | none => fail .badChain
    | some (op, b, status) => do
      onVirtio fun d => completeChain d head status
      modifies fun s => { s with fetched := s.fetched.erase head }
      pure (.completed head b op)
  | .kill p => do
    modifies fun s => { s with asleep := update s.asleep p none }
    pure (.killed p)

end Driver

end Xv6Cos.Kernel
