import Xv6Cos.Kernel.InodeTable

/-!
# What the inode table is for

Each inode in use has one entry, which counts the references to it and stays its entry as long as
there are any; an inode goes back to the disk's free inodes when it has no links and nobody else
uses it.
-/

namespace Xv6Cos.Spec

open Kernel Transition

variable {ι : Type}

/-- Does the reference name this inode? -/
def Names (s : InodeTable ι) (r : ι × Fin NINODE) (dev inum : ℕ) : Prop :=
  (s.inode r.2).dev = dev ∧ (s.inode r.2).inum = inum

/-- At most one entry with references for each inode. -/
def OneEntry (s : InodeTable ι) : Prop :=
  ∀ e e', 0 < (s.inode e).ref → 0 < (s.inode e').ref → (s.inode e).dev = (s.inode e').dev →
    (s.inode e).inum = (s.inode e').inum → e = e'

/-- Each entry counts the references to it. -/
def CountsHanded (s : InodeTable ι) : Prop :=
  ∀ e, (s.inode e).ref = (s.handed.map Prod.snd).count e

/-- No reference changes what it names. -/
def NamesStay (s t : InodeTable ι) : Prop :=
  ∀ r ∈ s.handed, Names t r (s.inode r.2).dev (s.inode r.2).inum

/-- `iput` starts to free an inode only if nobody else has a reference to it. -/
def StartsAlone (s t : InodeTable ι) : Prop :=
  ∀ p e, s.call p ≠ .freeing e → t.call p = .freeing e → ∀ r ∈ s.handed, r.2 = e → r.1 = p

/-- An inode is freed on disk only with no links. -/
def FreedUnlinked (s t : InodeTable ι) : Prop :=
  ∀ dev inum, (s.disk dev inum).type ≠ 0 → (t.disk dev inum).type = 0 →
    (s.disk dev inum).nlink = 0

/-- An inode is freed on disk, and truncated with it, only by `iput`, with no links, and with no
reference but that of the process that puts it. -/
def FreedAlone (s : InodeTable ι) (action : InodeAction ι) (t : InodeTable ι) : Prop :=
  ∀ dev inum, (s.disk dev inum).type ≠ 0 → (t.disk dev inum).type = 0 →
    (s.disk dev inum).nlink = 0 ∧ t.disk dev inum = { (s.disk dev inum).truncated with type := 0 } ∧
      ∃ p, action = .free p ∧ ∀ r ∈ s.handed, Names s r dev inum → r.1 = p

/-- Nobody else has a reference to an inode that is being freed. -/
def FreersAlone (s : InodeTable ι) : Prop :=
  ∀ p e, s.call p = .freeing e → ∀ r ∈ s.handed, r.2 = e → r.1 = p

/-- The action gets an inode that another process is freeing. -/
def Intrudes (s : InodeTable ι) : InodeAction ι → Prop
  | .iget _ dev inum => ∃ p e, s.call p = .freeing e ∧ (s.inode e).dev = dev ∧
      (s.inode e).inum = inum
  | _ => False

/-- The interleavings in which nobody gets an inode that is being freed. -/
def quietInodes (ι : Type) [DecidableEq ι] : StepSystem (InodeTable ι) (InodeAction ι) :=
  (inodeSystem ι).restrict fun s action => ¬Intrudes s action

end Xv6Cos.Spec
