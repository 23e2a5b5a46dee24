import Xv6Cos.Kernel.Disk
import Xv6Cos.Lib.Ownership

/-!
# Which blocks are whose

What the addresses in inodes and indirect blocks make of a disk image: the blocks that each inode
refers to, and the bytes of its file.
-/

namespace Xv6Cos.Spec

open Kernel Bytes

/-- The areas of the disk follow each other: inodes, bitmap, data. -/
structure Sound (sb : Superblock) : Prop where
  inodes : ∀ i, i < sb.ninodes → IBLOCK i sb < sb.bmapstart
  bitmap : ∀ b, b < sb.size → BBLOCK b sb < sb.nmeta
  nonempty : 0 < sb.nmeta
  /-- Block numbers are of type `uint`. -/
  uint : sb.size ≤ 2 ^ 32

/-- A place that has the address of a block: in the inode, or in its indirect block. -/
inductive Place
  | addr (k : Fin (NDIRECT + 1))
  | entry (j : Fin NINDIRECT)
  deriving DecidableEq

/-- Entry `j` of a block of addresses. -/
def entryOf (img : ℕ → Block) (b j : ℕ) : ℕ := readLE (img b) (4 * j) 4

/-- The address at a place, 0 if there is none. -/
def addrOf (img : ℕ → Block) (d : Dinode) : Place → ℕ
  | .addr k => d.addrs k
  | .entry j => if d.addrs INDIRECT = 0 then 0 else entryOf img (d.addrs INDIRECT) j

/-- The place of the address of block `bn` of a file. -/
def placeOf (bn : ℕ) : Option Place :=
  if h : bn < NDIRECT then some (.addr ⟨bn, Nat.lt_succ_of_lt h⟩)
  else if h : bn - NDIRECT < NINDIRECT then some (.entry ⟨bn - NDIRECT, h⟩)
  else none

/-- The address of block `bn` of a file, 0 if there is none. -/
def blockOf (img : ℕ → Block) (d : Dinode) (bn : ℕ) : ℕ :=
  match placeOf bn with
  | some place => addrOf img d place
  | none => 0

/-- Byte `k` of a file. -/
def byteOf (img : ℕ → Block) (d : Dinode) (k : ℕ) : UInt8 :=
  img (blockOf img d (k / BSIZE)) (k % BSIZE)

/-- The bytes of a file, up to its size. -/
def fileBytes (img : ℕ → Block) (d : Dinode) : List UInt8 :=
  (List.range d.size.toNat).map (byteOf img d)

/-- An allocated inode refers to the block from a place. -/
def Refers (sb : Superblock) (img : ℕ → Block) (node : ℕ → Dinode) (a : ℕ × Place) (b : ℕ) : Prop :=
  a.1 < sb.ninodes ∧ (node a.1).type ≠ 0 ∧ addrOf img (node a.1) a.2 = b ∧ b ≠ 0

/-- Every block of the file, up to its size, has an address. -/
def HoleFree (img : ℕ → Block) (d : Dinode) : Prop :=
  ∀ bn, bn * BSIZE < d.size.toNat → blockOf img d bn ≠ 0

/-- The inode as the code sees it: the copy in memory, if there is one, or else the one on disk. -/
def node (sb : Superblock) (s : Disk) (i : ℕ) : Dinode :=
  if 0 < (s.icache i).ref ∧ (s.icache i).valid then (s.icache i).copy else s.dinode sb i

/-- The references of all inodes. -/
abbrev References (sb : Superblock) (s : Disk) : ℕ × Place → ℕ → Prop :=
  Refers sb s.image (node sb s)

/-- What holds of a disk at any time, whether or not the inodes in memory have been written back. -/
structure DiskOk (sb : Superblock) (s : Disk) : Prop where
  sound : Sound sb
  owned : Ownership.Owned sb.nmeta sb.size (References sb s) (s.used sb)
  /-- What the code relies on to find its blocks has been logged. -/
  logged : ∀ b, b < sb.nmeta ∨ (∃ i, References sb s (i, .addr INDIRECT) b) →
    (s.buf b).home = s.image b
  /-- Only inodes of the disk are in memory, and those that have been read are allocated. -/
  entries : ∀ i, 0 < (s.icache i).ref → i < sb.ninodes ∧
    ((s.icache i).valid → (s.icache i).copy.type ≠ 0)

/-- Every buffer that differs from its disk block is in the log. -/
def AllLogged (s : Disk) : Prop := ∀ b, (s.buf b).home = s.image b

/-- The log has all blocks of the inode as they are. -/
def BlocksLogged (sb : Superblock) (s : Disk) (i : ℕ) : Prop :=
  ∀ p b, References sb s (i, p) b → (s.buf b).home = s.image b

/-- The inode in memory, if any, is the one on disk. -/
def WrittenBack (sb : Superblock) (s : Disk) (i : ℕ) : Prop :=
  0 < (s.icache i).ref → (s.icache i).valid → (s.icache i).copy = s.dinode sb i

/-- What holds of a disk between the calls of the inode layer. -/
structure Intact (sb : Superblock) (s : Disk) : Prop where
  ok : DiskOk sb s
  root : ROOTINO < sb.ninodes
  written : ∀ i, WrittenBack sb s i
  whole : ∀ i, i < sb.ninodes → (node sb s i).type ≠ 0 → HoleFree s.image (node sb s i)
  /-- The entries of directories name inodes of the disk. -/
  names : ∀ i, i < sb.ninodes → (node sb s i).type = T_DIR → ∀ k,
    16 * k + 16 ≤ (node sb s i).size.toNat →
    readLE (byteOf s.image (node sb s i)) (16 * k) 2 < sb.ninodes
  settled : ∀ i, i < sb.ninodes → (node sb s i).type = T_DIR → BlocksLogged sb s i
  /-- An inode is locked only if it is in use and has been read. -/
  locks : ∀ i, (s.icache i).locked = true → 0 < (s.icache i).ref ∧ (s.icache i).valid = true

/-- The inode of a disk image. -/
def imageNode (sb : Superblock) (img : ℕ → Block) (i : ℕ) : Dinode :=
  Dinode.load (img (IBLOCK i sb)) (i % IPB)

/-- A disk image whose blocks are owned once and whose files have no holes. -/
structure ImageOk (sb : Superblock) (img : ℕ → Block) : Prop where
  sound : Sound sb
  root : ROOTINO < sb.ninodes
  owned : Ownership.Owned sb.nmeta sb.size (Refers sb img (imageNode sb img))
    fun b => getBit (img (BBLOCK b sb)) (b % BPB)
  whole : ∀ i, i < sb.ninodes → (imageNode sb img i).type ≠ 0 → HoleFree img (imageNode sb img i)
  /-- The entries of directories name inodes of the disk. -/
  names : ∀ i, i < sb.ninodes → (imageNode sb img i).type = T_DIR → ∀ k,
    16 * k + 16 ≤ (imageNode sb img i).size.toNat →
    readLE (byteOf img (imageNode sb img i)) (16 * k) 2 < sb.ninodes

/-- What `readi` returns of an inode is this array of bytes, wherever the destination can be written
and the range has an end. -/
def ReadsAs (sb : Superblock) (s : Disk) (i : ℕ) (bytes : List UInt8) : Prop :=
  ∀ dst off n, (∀ k < n, dst k = true) → off + n < 2 ^ 32 → Disk.readi sb i dst off n s =
    .ok (((min n (bytes.length - off) : ℕ), (bytes.drop off).take n), s)

/-- After a write that reports `tot` bytes from `off` on, all other bytes of the file are as before,
whatever buffers are taken for other blocks, and all that has changed in the cache is logged. -/
def OnlyReported (s t : Disk) (i off tot : ℕ) : Prop :=
  AllLogged t ∧ ∀ img : ℕ → Block, (∀ b, img b = t.image b ∨ img b = (t.buf b).home) →
    ∀ k < (s.icache i).copy.size.toNat, blockOf s.image (s.icache i).copy (k / BSIZE) ≠ 0 →
      ¬(off ≤ k ∧ k < off + tot) →
      byteOf img (t.icache i).copy k = byteOf s.image (s.icache i).copy k

/-- A byte that a failed write may leave in the cache: one in a new block, the one that was there,
or one beyond the end of the file in a block that the log has. -/
def Harmless (s : Disk) (i k : ℕ) (byte : UInt8) : Prop :=
  let b := blockOf s.image (s.icache i).copy (k / BSIZE)
  b = 0 ∨ byte = byteOf s.image (s.icache i).copy k ∨
    (s.icache i).copy.size.toNat ≤ k ∧ (s.buf b).logged = true

/-- Bytes written over a list from an offset. -/
def overlaid (old : List UInt8) (off : ℕ) (new : List UInt8) : List UInt8 :=
  old.take off ++ new ++ old.drop (off + new.length)

/-- A panic that says nothing against blocks and addresses. -/
def Benign : FsPanic → Prop
  | .logWrite | .freeingFreeBlock | .bmap => False
  | _ => True

end Xv6Cos.Spec
