import Xv6Cos.Kernel.Param
import Mathlib.Data.List.FinRange

/-!
# Inodes on disk and in memory (`kernel/fs.h`, `kernel/file.h`, `kernel/fs.c`)

The two structures, and the search of the in-memory table under `itable.lock`.
-/

namespace Xv6Cos.Kernel

/-- Number of block addresses in an inode itself. -/
abbrev NDIRECT : ℕ := 12

/-- Maximum number of active inodes. -/
abbrev NINODE : ℕ := 50

/-- `ROOTINO`, the inode number of the root directory. -/
abbrev ROOTINO : ℕ := 1

/-- A directory. -/
abbrev T_DIR : BitVec 16 := 1

/-- A file. -/
abbrev T_FILE : BitVec 16 := 2

/-- A device. -/
abbrev T_DEVICE : BitVec 16 := 3

/-- `struct dinode`. -/
structure Dinode where
  /-- File type; zero in a free inode. -/
  type : BitVec 16
  major : BitVec 16
  minor : BitVec 16
  /-- Number of links to the inode, a `short`. -/
  nlink : BitVec 16
  /-- Size of the file in bytes. -/
  size : BitVec 32
  /-- The direct blocks and the indirect block; zero where there is none. -/
  addrs : Fin (NDIRECT + 1) → ℕ

namespace Dinode

/-- `memset(dip, 0, sizeof(*dip))`. -/
def zero : Dinode := ⟨0, 0, 0, 0, 0, fun _ => 0⟩

/-- What `itrunc` leaves of the inode itself. -/
def truncated (d : Dinode) : Dinode := { d with size := 0, addrs := fun _ => 0 }

end Dinode

/-- `struct inode`, without its sleep-lock. -/
structure Inode where
  dev : ℕ
  inum : ℕ
  /-- Number of C pointers to this entry. -/
  ref : ℕ
  /-- Has the inode been read from disk? -/
  valid : Bool
  /-- The fields that are copied from the disk inode. -/
  copy : Dinode

/-- Does the entry hold this inode? -/
def Inode.is (ip : Inode) (dev inum : ℕ) : Bool := ip.dev = dev ∧ ip.inum = inum

/-- `itable.inode`. -/
abbrev Itable := Fin NINODE → Inode

namespace Itable

/-- The entry in use for this inode that the loop of `iget` returns. -/
def present (table : Itable) (dev inum : ℕ) : Option (Fin NINODE) :=
  (List.finRange NINODE).find? fun e => 0 < (table e).ref && (table e).is dev inum

/-- The empty slot that the loop of `iget` remembers. -/
def empty (table : Itable) : Option (Fin NINODE) :=
  (List.finRange NINODE).find? fun e => (table e).ref = 0

/-- `iget`; `none` where it panics with `iget: no inodes`. -/
def iget (table : Itable) (dev inum : ℕ) : Option (Fin NINODE × Itable) :=
  match table.present dev inum with
  | some e => some (e, Function.update table e { table e with ref := (table e).ref + 1 })
  | none =>
    match table.empty with
    | none => none
    | some e => some (e, Function.update table e
        { table e with dev := dev, inum := inum, ref := 1, valid := false })

end Itable

end Xv6Cos.Kernel
