import Xv6Cos.Kernel.FsTree
import Mathlib.Algebra.BigOperators.Group.Finset.Basic

/-!
# Directory trees and link counts

What a consistent file system looks like, as a property of its inodes alone.
-/

namespace Xv6Cos.Spec

open Kernel

/-- The inodes of the disk, by number. -/
abbrev Nodes := ℕ → Node

/-- The entry has a name other than `.` and `..`. -/
def plain (de : Dirent) : Bool := de.name ≠ Dirent.dot && de.name ≠ Dirent.dotdot

/-- The directory has this entry, which is not empty. -/
def HasEntry (nodes : Nodes) (d : ℕ) (de : Dirent) : Prop :=
  (nodes d).type = .dir ∧ de ∈ (nodes d).slots ∧ de.inum ≠ 0

/-- The directories that paths from the root lead to. -/
inductive FromRoot (nodes : Nodes) : ℕ → Prop
  | root : FromRoot nodes ROOTINO
  | entry {d : ℕ} {de : Dirent} : FromRoot nodes d → HasEntry nodes d de →
      (nodes de.inum).type = .dir → FromRoot nodes de.inum

/-- Entry `k` of directory `d`, which can be reached from the root, names the inode, and is neither
`.` nor `..`. -/
def NamedAt (nodes : Nodes) (i d k : ℕ) : Prop :=
  FromRoot nodes d ∧ ∃ de, HasEntry nodes d de ∧ (nodes d).slots[k]? = some de ∧ plain de ∧
    de.inum = i

/-- The directories that can be reached from the root form a tree: each but the root is named by
exactly one entry, and starts with entries for itself and for the directory of that entry; and no
directory has two entries of one name. -/
structure TreeShaped (nodes : Nodes) : Prop where
  named : ∀ x, FromRoot nodes x → x ≠ ROOTINO → ∃ d k, NamedAt nodes x d k ∧
    (∀ d' k', NamedAt nodes x d' k' → d' = d ∧ k' = k) ∧
    (nodes x).slots[0]? = some ⟨x, Dirent.dot⟩ ∧ (nodes x).slots[1]? = some ⟨d, Dirent.dotdot⟩
  distinct : ∀ d, (nodes d).type = .dir → (nodes d).slots.Pairwise fun a b =>
    a.inum ≠ 0 → b.inum ≠ 0 → a.name ≠ b.name

/-- Number of entries other than `.` that name the inode, in directories that have links. -/
def liveLinks (n : ℕ) (nodes : Nodes) (i : ℕ) : ℕ :=
  ∑ d ∈ Finset.range n, if (nodes d).type = .dir ∧ 0 < (nodes d).nlink.toInt then
    (nodes d).slots.countP fun de => de.inum ≠ 0 && de.inum = i && de.name ≠ Dirent.dot else 0

/-- Every link count is the number of entries that it counts. -/
def LinksExact (n : ℕ) (nodes : Nodes) : Prop :=
  ∀ i, (nodes i).type ≠ .free → (nodes i).nlink.toInt = liveLinks n nodes i

/-- Every allocated inode but the root has a name in a directory that can be reached. -/
def NoneLeaked (nodes : Nodes) : Prop :=
  ∀ i, (nodes i).type ≠ .free → i ≠ ROOTINO → ∃ d k, NamedAt nodes i d k

/-- A file system with this number of inodes, as `mkfs` makes it and clean use leaves it. -/
structure Consistent (n : ℕ) (nodes : Nodes) : Prop where
  /-- Inode numbers fit into directory entries. -/
  numbers : n ≤ 2 ^ 16
  range : ∀ i, (nodes i).type ≠ .free → 0 < i ∧ i < n
  rooted : (nodes ROOTINO).type = .dir ∧ (nodes ROOTINO).slots[0]? = some ⟨ROOTINO, Dirent.dot⟩ ∧
    (nodes ROOTINO).slots[1]? = some ⟨ROOTINO, Dirent.dotdot⟩ ∧ 0 < (nodes ROOTINO).nlink.toInt
  /-- The root has no other name. -/
  unnamed : ∀ d k, ¬NamedAt nodes ROOTINO d k
  entries : ∀ d de, HasEntry nodes d de → (nodes de.inum).type ≠ .free
  tree : TreeShaped nodes
  linked : NoneLeaked nodes
  exact : LinksExact n nodes

end Xv6Cos.Spec
