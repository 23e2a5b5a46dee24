import Mathlib.Data.Nat.Notation

/-!
# Constants (`kernel/param.h`, `kernel/fs.h`, `mkfs/mkfs.c`)
-/

namespace Xv6Cos.Kernel

/-- Largest number of blocks one file system operation writes. -/
abbrev MAXOPBLOCKS : ℕ := 10

/-- Largest number of data blocks in the on-disk log. -/
abbrev LOGSIZE : ℕ := MAXOPBLOCKS * 3

/-- Size of the disk block cache. -/
abbrev NBUF : ℕ := MAXOPBLOCKS * 3

/-- Size of a disk block in bytes. -/
abbrev BSIZE : ℕ := 1024

/-- `nlog`, the number of log blocks `mkfs` writes to the super block. -/
abbrev nlog : ℕ := LOGSIZE

/-- Largest size of a path in a system call, with the NUL at its end. -/
abbrev MAXPATH : ℕ := 128

/-- The bytes of a disk block; offsets from `BSIZE` on are never addressed. -/
abbrev Block := ℕ → UInt8

end Xv6Cos.Kernel
