import Xv6Cos.Spec.DirTree

/-!
# Runs of the file system calls

The runs of many processes from consistent images, and conditions that all steps of a run may
meet.
-/

namespace Xv6Cos.Spec

open Kernel Transition

/-- The runs on a disk with this number of inodes. -/
def fsSystem (n : ℕ) : StepSystem FsTree FsAction :=
  .ofNext (fun s => ∃ nodes, Consistent n nodes ∧ s = .boot nodes) (FsTree.next n)

/-- The inode that a step frees. -/
def freeing (s : FsTree) : FsAction → Option ℕ
  | .advance p _ =>
    match s.place p with
    | .drop ip _ => if s.ref ip = 1 ∧ s.valid ip ∧ (s.node ip).nlink = 0 then some ip else none
    | _ => none
  | _ => none

/-- A step frees no directory that the `..` of another names. -/
def ParentsStay (n : ℕ) (s : FsTree) (action : FsAction) : Prop :=
  ∀ ip ∈ freeing s action, ∀ d < n, d ≠ ip → (s.node d).type = .dir →
    ⟨ip, Dirent.dotdot⟩ ∉ (s.node d).slots

/-- The place whose step an action takes. -/
def acting (s : FsTree) : FsAction → FsPlace
  | .advance p _ => s.place p
  | .start .. | .close .. | .fork .. | .exit _ | .crash => .idle

/-- The inode whose link count a process is about to increment, in `link` or `mkdir`. -/
def raising (s : FsTree) : FsPlace → Option ℕ
  | .target (.linkOld _) ip => if (s.node ip).type = .dir then none else some ip
  | .fill new dp _ _ => if new.type = .dir then some dp else none
  | _ => none

/-- No link count that is as large as a `short` can be is to be incremented. -/
def HasRoom (s : FsTree) (action : FsAction) : Prop :=
  ∀ i ∈ raising s (acting s action), (s.node i).nlink.toInt < 2 ^ 15 - 1

/-- The directory that a process is about to name something in, in `link` or `create`. -/
def naming (s : FsTree) : FsPlace → Option ℕ
  | .parent (.linkNew _) dp name | .fill _ dp name _ =>
    if dirlookup (s.node dp).slots name = none then some dp else none
  | _ => none

/-- No directory without links is about to get a name. -/
def NamesLinked (s : FsTree) (action : FsAction) : Prop :=
  ∀ d ∈ naming s (acting s action), (s.node d).nlink ≠ 0

instance (n : ℕ) (s : FsTree) (action : FsAction) : Decidable (ParentsStay n s action) :=
  inferInstanceAs (Decidable (∀ ip ∈ freeing s action, ∀ d < n, d ≠ ip → (s.node d).type = .dir →
    ⟨ip, Dirent.dotdot⟩ ∉ (s.node d).slots))

instance (s : FsTree) (action : FsAction) : Decidable (HasRoom s action) :=
  inferInstanceAs (Decidable (∀ i ∈ raising s (acting s action),
    (s.node i).nlink.toInt < 2 ^ 15 - 1))

instance (s : FsTree) (action : FsAction) : Decidable (NamesLinked s action) :=
  inferInstanceAs (Decidable (∀ d ∈ naming s (acting s action), (s.node d).nlink ≠ 0))

/-- The runs in which no directory goes that the `..` of another names, and link counts have room
to grow. -/
abbrev orderlyFs (n : ℕ) : StepSystem FsTree FsAction :=
  (fsSystem n).restrict fun s action => ParentsStay n s action ∧ HasRoom s action

/-- Those of them in which directories without links get no names. -/
abbrev linkedFs (n : ℕ) : StepSystem FsTree FsAction :=
  (fsSystem n).restrict fun s action =>
    ParentsStay n s action ∧ HasRoom s action ∧ NamesLinked s action

/-- The inodes that the next step of a process may lock. -/
def MayLock (s : FsTree) (p : Fin NPROC) (i : ℕ) : Prop :=
  match s.place p with
  | .walk _ ip _ | .target _ ip | .fill _ _ _ ip | .undo ip => i = ip
  | .parent .unlink dp name => i = dp ∨
      ((s.node dp).type = .dir ∧ dirlookup (s.node dp).slots name = some i)
  | .parent _ dp _ => i = dp
  | _ => False

end Xv6Cos.Spec
