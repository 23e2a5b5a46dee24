import Xv6Cos.Kernel.Inode
import Xv6Cos.Lib.Bytes
import Xv6Cos.Lib.Program

/-!
# Blocks and inodes on the disk (`kernel/fs.h`, `kernel/fs.c`)

The block allocator, the inode layer and the contents of files, on the bytes of the disk, run by one
process at a time. The cache and the log are below: a buffer has the bytes that `bread` returns and
those that the log or the disk has, which differ where a change was not logged.
-/

namespace Xv6Cos.Kernel

open Bytes Program Function

/-- `IPB`, inodes per block. -/
abbrev IPB : ℕ := BSIZE / 64

/-- `BPB`, bitmap bits per block. -/
abbrev BPB : ℕ := BSIZE * 8

/-- The block numbers in an indirect block. -/
abbrev NINDIRECT : ℕ := BSIZE / 4

/-- The blocks of the largest file. -/
abbrev MAXFILE : ℕ := NDIRECT + NINDIRECT

/-- `sb.magic`. -/
abbrev FSMAGIC : ℕ := 0x10203040

/-- `struct superblock`. -/
structure Superblock where
  magic : ℕ
  /-- Size of the file system image in blocks. -/
  size : ℕ
  /-- Number of data blocks. -/
  nblocks : ℕ
  ninodes : ℕ
  nlog : ℕ
  logstart : ℕ
  inodestart : ℕ
  bmapstart : ℕ
  deriving DecidableEq

namespace Superblock

/-- Number of blocks before the data blocks. -/
def nmeta (sb : Superblock) : ℕ := sb.size - sb.nblocks

end Superblock

/-- `IBLOCK`, the block with an inode. -/
def IBLOCK (i : ℕ) (sb : Superblock) : ℕ := i / IPB + sb.inodestart

/-- `BBLOCK`, the bitmap block with the bit of a block. -/
def BBLOCK (b : ℕ) (sb : Superblock) : ℕ := b / BPB + sb.bmapstart

namespace Dinode

/-- Inode `k` of a block. -/
def load (data : Block) (k : ℕ) : Dinode where
  type := BitVec.ofNat 16 (readLE data (64 * k) 2)
  major := BitVec.ofNat 16 (readLE data (64 * k + 2) 2)
  minor := BitVec.ofNat 16 (readLE data (64 * k + 4) 2)
  nlink := BitVec.ofNat 16 (readLE data (64 * k + 6) 2)
  size := BitVec.ofNat 32 (readLE data (64 * k + 8) 4)
  addrs a := readLE data (64 * k + 12 + 4 * a) 4

/-- Overwrite inode `k` of a block. -/
def store (d : Dinode) (data : Block) (k : ℕ) : Block :=
  let data := writeWords data (64 * k) 2
    [d.type.toNat, d.major.toNat, d.minor.toNat, d.nlink.toNat]
  let data := writeLE data (64 * k + 8) d.size.toNat 4
  writeWords data (64 * k + 12) 4 (List.ofFn d.addrs)

/-- `addrs[a] = addr`. -/
def setAddr (d : Dinode) (a : Fin (NDIRECT + 1)) (addr : ℕ) : Dinode :=
  { d with addrs := update d.addrs a addr }

end Dinode

/-- The place of the address of the indirect block, `addrs[NDIRECT]`. -/
abbrev INDIRECT : Fin (NDIRECT + 1) := Fin.last NDIRECT

/-- A buffer of the cache, if it has one for the block. -/
structure DiskBuf where
  /-- What `bread` returns. -/
  data : Block
  /-- What the disk has, once the log has been committed. -/
  home : Block
  /-- Is the block in `log.lh`? Then it keeps its buffer, which the commit copies. -/
  logged : Bool

/-- `struct inode`, as the entries of `itable` for one inode number behave: there is at most one
with `ref > 0`. -/
structure Icopy where
  ref : ℕ
  /-- Is the sleep-lock held? -/
  locked : Bool
  valid : Bool
  /-- The fields that are copied from the disk inode. -/
  copy : Dinode

/-- The disk behind the cache and the log, and what is in memory of its inodes. -/
structure Disk where
  buf : ℕ → DiskBuf
  icache : ℕ → Icopy
  /-- `log.outstanding`. -/
  outstanding : ℕ
  /-- What `printf` has printed. -/
  console : List String

/-- Why an operation does not end. -/
inductive FsPanic
  /-- `panic`. -/
  | logWrite | freeingFreeBlock | bmap | ilock | ilockNoType | iunlock | dirlookupNotDir
  | dirlookupRead | dirlinkRead | isdiremptyRead | unlinkNlink | unlinkWritei
  /-- It sleeps for a lock that it has itself. -/
  | acquiresleep
  deriving DecidableEq

/-- Code of the file system. -/
abbrev DiskProg := Prog Disk FsPanic

namespace Disk

/-- The bytes of all blocks. -/
def image (s : Disk) (b : ℕ) : Block := (s.buf b).data

/-- A buffer with other bytes, which nothing but the cache has if the block is not in the log. -/
def setData (s : Disk) (b : ℕ) (data : Block) : Disk :=
  let old := s.buf b
  { s with buf := update s.buf b ⟨data, if old.logged then data else old.home, old.logged⟩ }

/-- A block with other bytes, which the log has. -/
def write (s : Disk) (b : ℕ) (data : Block) : Disk :=
  { s with buf := update s.buf b ⟨data, data, true⟩ }

/-- The copy of an inode in memory. -/
def setCopy (s : Disk) (i : ℕ) (entry : Icopy) : Disk :=
  { s with icache := update s.icache i entry }

/-- `bread`, of which only the bytes matter. -/
def bread (b : ℕ) : DiskProg Block := reads fun s => s.image b

/-- `log_write`, in a log that has room for what operations may write. -/
def logWrite (b : ℕ) : DiskProg Unit := fun s =>
  if s.outstanding < 1 then .error .logWrite else .ok ((), s.write b (s.image b))

/-- Change a buffer, log and release it. -/
def change (b : ℕ) (f : Block → Block) : DiskProg Unit := do
  modifies fun s => s.setData b (f (s.image b))
  logWrite b

/-- Go on, or panic. -/
def check (good : Disk → Bool) (panic : FsPanic) : DiskProg Unit := fun s =>
  if good s then .ok ((), s) else .error panic

/-- `printf` on the console. -/
def printf (text : String) : DiskProg Unit :=
  modifies fun s => { s with console := s.console ++ [text] }

/-- `bzero` fills a block with zeros. -/
def bzero (b : ℕ) : DiskProg Unit := change b fun _ _ => 0

variable (sb : Superblock)

/-- The bit of a block in the bitmap. -/
def used (s : Disk) (b : ℕ) : Bool := getBit (s.image (BBLOCK b sb)) (b % BPB)

/-- `balloc`: the number of a zeroed block, 0 if there is none. -/
def balloc : DiskProg ℕ := do
  match ← reads fun s => (List.range sb.size).find? fun b => !s.used sb b with
  | some b =>
    change (BBLOCK b sb) fun data => setBit data (b % BPB)
    bzero b
    pure b
  | none =>
    printf "balloc: out of blocks\n"
    pure 0

/-- `bfree` clears the bit of a block. -/
def bfree (b : ℕ) : DiskProg Unit := do
  if ← reads fun s => s.used sb b then change (BBLOCK b sb) fun data => clearBit data (b % BPB)
  else fail .freeingFreeBlock

/-- `ip->xxx`. -/
def inode (i : ℕ) : DiskProg Dinode := reads fun s => (s.icache i).copy

/-- Change the copy of an inode in memory. -/
def setInode (i : ℕ) (f : Dinode → Dinode) : DiskProg Unit :=
  modifies fun s => s.setCopy i { s.icache i with copy := f (s.icache i).copy }

/-- The address, or else that of a new block, which is recorded. -/
def orAlloc (addr : ℕ) (record : ℕ → DiskProg Unit) : DiskProg ℕ := do
  if addr = 0 then
    let addr ← balloc sb
    if addr ≠ 0 then record addr
    pure addr
  else pure addr

/-- The number of a block of the file, which is allocated if there is none yet; zero if it cannot
be. -/
def bmap (i bn : ℕ) : DiskProg ℕ := do
  let ip ← inode i
  if h : bn < NDIRECT then
    let k : Fin (NDIRECT + 1) := ⟨bn, by omega⟩
    orAlloc sb (ip.addrs k) fun addr => setInode i fun ip => ip.setAddr k addr
  else
    let bn := bn - NDIRECT
    if bn < NINDIRECT then
      let addr ← orAlloc sb (ip.addrs INDIRECT) fun addr =>
        setInode i fun ip => ip.setAddr INDIRECT addr
      if addr = 0 then pure 0
      else
        let a ← bread addr
        orAlloc sb (readLE a (4 * bn) 4) fun new => change addr fun a => writeLE a (4 * bn) new 4
    else fail .bmap

/-- `iupdate` writes the copy in memory to the disk. -/
def iupdate (i : ℕ) : DiskProg Unit := do
  let ip ← inode i
  change (IBLOCK i sb) fun data => ip.store data (i % IPB)

/-- The loop of `itrunc` over direct blocks. -/
def freeDirect (i : ℕ) : List (Fin (NDIRECT + 1)) → DiskProg Unit
  | [] => pure ()
  | k :: rest => do
    let ip ← inode i
    if ip.addrs k ≠ 0 then
      bfree sb (ip.addrs k)
      setInode i fun ip => ip.setAddr k 0
    freeDirect i rest

/-- The loop of `itrunc` over the entries of the indirect block. -/
def freeEntries (addr : ℕ) : List ℕ → DiskProg Unit
  | [] => pure ()
  | j :: rest => do
    let a ← bread addr
    if readLE a (4 * j) 4 ≠ 0 then bfree sb (readLE a (4 * j) 4)
    freeEntries addr rest

/-- What `itrunc` does about the indirect block. -/
def freeIndirect (i : ℕ) : DiskProg Unit := do
  let ip ← inode i
  if ip.addrs INDIRECT ≠ 0 then
    freeEntries sb (ip.addrs INDIRECT) (List.range NINDIRECT)
    bfree sb (ip.addrs INDIRECT)
    setInode i fun ip => ip.setAddr INDIRECT 0

/-- `itrunc` frees the blocks of the file. -/
def itrunc (i : ℕ) : DiskProg Unit := do
  freeDirect sb i ((List.finRange NDIRECT).map Fin.castSucc)
  freeIndirect sb i
  setInode i fun ip => { ip with size := 0 }
  iupdate sb i

/-- Number of bytes that can be copied before one that cannot. -/
def reach (mapped : ℕ → Bool) (start len : ℕ) : ℕ :=
  ((List.range len).takeWhile fun k => mapped (start + k)).length

/-- The loop of `readi`. `dst` says which bytes of the destination can be written; `out` is what has
been written there. -/
def readiGo (i : ℕ) (dst : ℕ → Bool) (n : ℕ) :
    ℕ → ℕ → ℕ → List UInt8 → DiskProg (Int × List UInt8)
  | 0, tot, _, out => pure (tot, out)
  | fuel + 1, tot, off, out => do
    if tot < n then
      let addr ← bmap sb i (off / BSIZE)
      if addr = 0 then pure (tot, out)
      else
        let data ← bread addr
        let m := min (n - tot) (BSIZE - off % BSIZE)
        let copied := reach dst tot m
        let out := out ++ (List.range copied).map fun k => data (off % BSIZE + k)
        if copied < m then pure (-1, out)
        else readiGo i dst n fuel (tot + m) (off + m) out
    else pure (tot, out)

/-- `readi`: what it returns, and the bytes it has copied to the destination. Each turn of the loop
copies a byte at least. -/
def readi (i : ℕ) (dst : ℕ → Bool) (off n : ℕ) : DiskProg (Int × List UInt8) := do
  let ip ← inode i
  let size := ip.size.toNat
  if size < off ∨ (off + n) % 2 ^ 32 < off then pure (0, [])
  else
    let n := if size < (off + n) % 2 ^ 32 then size - off else n
    readiGo sb i dst n n 0 off []

/-- Bytes copied into a block. -/
def overlay (data : Block) (start len : ℕ) (bytes : ℕ → UInt8) : Block := fun a =>
  if start ≤ a ∧ a < start + len then bytes (a - start) else data a

/-- The loop of `writei`; it returns `tot` and `off`. `src` has the bytes of the source, `none`
where it cannot be read. -/
def writeiGo (i : ℕ) (src : ℕ → Option UInt8) (n : ℕ) : ℕ → ℕ → ℕ → DiskProg (ℕ × ℕ)
  | 0, tot, off => pure (tot, off)
  | fuel + 1, tot, off => do
    if tot < n then
      let addr ← bmap sb i (off / BSIZE)
      if addr = 0 then pure (tot, off)
      else
        let m := min (n - tot) (BSIZE - off % BSIZE)
        let copied := reach (fun k => (src k).isSome) tot m
        modifies fun s => s.setData addr
          (overlay (s.image addr) (off % BSIZE) copied fun k => (src (tot + k)).getD 0)
        if copied < m then pure (tot, off)
        else
          logWrite addr
          writeiGo i src n fuel (tot + m) (off + m)
    else pure (tot, off)

/-- `writei` writes from `src` at `off`. -/
def writei (i : ℕ) (src : ℕ → Option UInt8) (off n : ℕ) : DiskProg Int := do
  let ip ← inode i
  if ip.size.toNat < off ∨ (off + n) % 2 ^ 32 < off then pure (-1)
  else if MAXFILE * BSIZE < (off + n) % 2 ^ 32 then pure (-1)
  else
    let (tot, off) ← writeiGo sb i src n n 0 off
    setInode i fun ip =>
      if ip.size.toNat < off then { ip with size := BitVec.ofNat 32 off } else ip
    iupdate sb i
    pure tot

/-- `iget` counts a reference, to a new entry if this is the first. -/
def iget (i : ℕ) : DiskProg Unit := modifies fun s => s.setCopy i
  (if 0 < (s.icache i).ref then { s.icache i with ref := (s.icache i).ref + 1 }
  else { s.icache i with ref := 1, valid := false })

/-- `idup` counts a further reference. -/
def idup (i : ℕ) : DiskProg Unit := modifies fun s =>
  s.setCopy i { s.icache i with ref := (s.icache i).ref + 1 }

/-- The inode on the disk. -/
def dinode (s : Disk) (i : ℕ) : Dinode := Dinode.load (s.image (IBLOCK i sb)) (i % IPB)

/-- `ialloc`: the number of the inode, of which there is a reference. -/
def ialloc (type : BitVec 16) : DiskProg (Option ℕ) := do
  match ← reads fun s => ((List.range sb.ninodes).drop 1).find? fun i =>
    (s.dinode sb i).type = 0 with
  | some i =>
    change (IBLOCK i sb) fun data => { Dinode.zero with type := type }.store data (i % IPB)
    iget i
    pure (some i)
  | none =>
    printf "ialloc: no inodes\n"
    pure none

/-- `acquiresleep(&ip->lock)`. -/
def acquiresleep (i : ℕ) : DiskProg Unit := do
  check (fun s => !(s.icache i).locked) .acquiresleep
  modifies fun s => s.setCopy i { s.icache i with locked := true }

/-- `releasesleep(&ip->lock)`. -/
def releasesleep (i : ℕ) : DiskProg Unit := modifies fun s =>
  s.setCopy i { s.icache i with locked := false }

/-- What `ilock` does about an inode that has not been read. -/
def loadInode (i : ℕ) : DiskProg Unit := do
  if ← reads fun s => (s.icache i).valid then pure ()
  else
    modifies fun s => s.setCopy i { s.icache i with valid := true, copy := s.dinode sb i }
    check (fun s => (s.icache i).copy.type ≠ 0) .ilockNoType

/-- `ilock` reads the inode if the entry is not valid. -/
def ilock (i : ℕ) : DiskProg Unit := do
  check (fun s => 1 ≤ (s.icache i).ref) .ilock
  acquiresleep i
  loadInode sb i

/-- `iunlock`. -/
def iunlock (i : ℕ) : DiskProg Unit := do
  check (fun s => (s.icache i).locked && 1 ≤ (s.icache i).ref) .iunlock
  releasesleep i

/-- Free an inode that nothing refers to. -/
def ifree (i : ℕ) : DiskProg Unit := do
  acquiresleep i
  itrunc sb i
  setInode i fun ip => { ip with type := 0 }
  iupdate sb i
  modifies fun s => s.setCopy i { s.icache i with valid := false }
  releasesleep i

/-- `ip->ref--`. -/
def dropRef (i : ℕ) : DiskProg Unit := modifies fun s =>
  s.setCopy i { s.icache i with ref := (s.icache i).ref - 1 }

/-- `iput` drops a reference, and frees an inode that has no links with the last one. -/
def iput (i : ℕ) : DiskProg Unit := do
  let ip ← reads fun s => s.icache i
  if ip.ref = 1 ∧ ip.valid ∧ ip.copy.nlink = 0 then
    ifree sb i
    dropRef i
  else dropRef i

/-- `iunlock` and `iput`. -/
def iunlockput (i : ℕ) : DiskProg Unit := do
  iunlock i
  iput sb i

/-- `begin_op`, when no other operation is in progress. -/
def beginOp : DiskProg Unit := modifies fun s => { s with outstanding := s.outstanding + 1 }

/-- `end_op`; the last one commits. -/
def endOp : DiskProg Unit := modifies fun s =>
  { s with
    outstanding := s.outstanding - 1
    buf := fun b => { s.buf b with logged := s.outstanding ≠ 1 && (s.buf b).logged } }

end Disk

end Xv6Cos.Kernel
