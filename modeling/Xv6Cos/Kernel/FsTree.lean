import Xv6Cos.Kernel.Inode
import Xv6Cos.Kernel.Proc
import Xv6Cos.Lib.Transition
import Mathlib.Data.Fintype.Basic

/-!
# Directories and links under the inode locks (`kernel/fs.c`, `kernel/sysfile.c`)

`open`, `mkdir`, `mknod`, `link`, `unlink`, `chdir`, `close`, `fork` and `exit`, run by many
processes at once and cut where another process can interfere. A step is what a process does from
one acquisition of an inode's sleep-lock to the next release of all it holds, or one section under
`itable.lock`; `create` keeps its directory locked over several steps.

A directory is the list of its entries; the blocks that they are in, and what is in files, are left
out, and whether a block or an open-file entry is to be had is answered by the environment. A copy
of an inode in memory agrees with the inode on disk between the steps, so there is one of both. The
log makes what all operations have done durable when the last of them ends.
-/

namespace Xv6Cos.Kernel

open Transition Function

/-- `DIRSIZ`, the length of a name in a directory entry. -/
abbrev DIRSIZ : ℕ := 14

/-- The number of devices. -/
abbrev NDEV : ℕ := 10

/-- Number of directory entries in a block. -/
abbrev DPB : ℕ := BSIZE / 16

/-- Number of directory entries in a file of the maximal size, `MAXFILE` blocks. -/
abbrev MAXDIRENTS : ℕ := (NDIRECT + BSIZE / 4) * DPB

/-- `O_WRONLY`, `O_RDWR` and `O_CREATE`. -/
def O_WRONLY : BitVec 32 := 0x001
/-- `open` for both. -/
def O_RDWR : BitVec 32 := 0x002
/-- `open` creates a file. -/
def O_CREATE : BitVec 32 := 0x200

/-- The bytes of a name or of a path. -/
abbrev Path := List UInt8

/-- `struct dirent`; the entry is empty if `inum` is zero. A name has no zero byte, and
`namecmp` compares names of at most `DIRSIZ` bytes. -/
structure Dirent where
  inum : ℕ
  name : Path
  deriving DecidableEq

namespace Dirent

/-- The name `.`. -/
def dot : Path := [46]

/-- The name `..`. -/
def dotdot : Path := [46, 46]

/-- An empty entry. -/
def zero : Dirent := ⟨0, []⟩

/-- Does the entry have this name? -/
def hits (name : Path) (de : Dirent) : Bool := de.inum ≠ 0 && de.name = name

end Dirent

/-- The loop of `dirlookup`. -/
def dirlookup (slots : List Dirent) (name : Path) : Option ℕ :=
  (slots.find? (Dirent.hits name)).map Dirent.inum

/-- Clear the entry that `dirlookup` finds. -/
def clearEntry (name : Path) : List Dirent → List Dirent
  | [] => []
  | de :: rest => if de.hits name then .zero :: rest else de :: clearEntry name rest

/-- Store an entry in the first empty one. -/
def reuseEntry (new : Dirent) : List Dirent → Option (List Dirent)
  | [] => none
  | de :: rest => if de.inum = 0 then some (new :: rest) else (reuseEntry new rest).map (de :: ·)

/-- `dirlink`: the entries after it, `none` where it returns -1. `de.inum` is a `ushort`. An entry
at the end may need a block; `room` says if there is one. -/
def dirlink (slots : List Dirent) (name : Path) (inum : ℕ) (room : Bool) : Option (List Dirent) :=
  if (dirlookup slots name).isSome then none
  else
    match reuseEntry ⟨inum % 2 ^ 16, name⟩ slots with
    | some slots => some slots
    | none =>
      if slots.length < MAXDIRENTS ∧ (slots.length % DPB ≠ 0 ∨ room) then
        some (slots ++ [⟨inum % 2 ^ 16, name⟩])
      else none

/-- Is the directory empty but for its first two entries? -/
def isdirempty (slots : List Dirent) : Bool := (slots.drop 2).all fun de => de.inum = 0

/-- `skipelem`: the next path element and the rest of the path. -/
def skipelem (path : Path) : Option (Path × Path) :=
  let path := path.dropWhile (· = 47)
  if path = [] then none
  else some ((path.takeWhile (· ≠ 47)).take DIRSIZ,
    (path.dropWhile (· ≠ 47)).dropWhile (· = 47))

/-- The `type` of an inode; `free` is zero. -/
inductive FileType
  | free | dir | file | device
  deriving DecidableEq

/-- An inode with what is in it, if it is a directory. -/
structure Node where
  type : FileType
  major : BitVec 16
  minor : BitVec 16
  /-- Number of links to the inode, a `short`. -/
  nlink : BitVec 16
  slots : List Dirent

/-- A zeroed inode. -/
def Node.zero : Node := ⟨.free, 0, 0, 0, []⟩

/-- What `create` is called for. -/
inductive NewNode
  /-- `open` with `O_CREATE`. -/
  | file
  /-- `mkdir`. -/
  | dir
  /-- `mknod`. -/
  | device (major minor : BitVec 16)
  deriving DecidableEq

/-- The `type` argument of `create`. -/
def NewNode.type : NewNode → FileType
  | .file => .file
  | .dir => .dir
  | .device _ _ => .device

/-- The `major` argument of `create`. -/
def NewNode.major : NewNode → BitVec 16
  | .device major _ => major
  | _ => 0

/-- The `minor` argument of `create`. -/
def NewNode.minor : NewNode → BitVec 16
  | .device _ minor => minor
  | _ => 0

/-- The system call that a path is looked up for. -/
inductive FsCall
  | create (new : NewNode)
  | unlink
  /-- `link`, with the old path; the new one comes later. -/
  | linkOld (new : Path)
  /-- `link` with the new path, for this inode, whose `nlink` has been incremented. -/
  | linkNew (ip : ℕ)
  /-- `open` without `O_CREATE`; not only for reading? -/
  | opens (writes : Bool)
  | chdir
  deriving DecidableEq

/-- Is this how a call starts? -/
def FsCall.starts : FsCall → Bool
  | .linkNew _ => false
  | _ => true

/-- Does the call use `nameiparent`? -/
def FsCall.nameiparent : FsCall → Bool
  | .create _ | .unlink | .linkNew _ => true
  | .linkOld _ | .opens _ | .chdir => false

/-- Where a process is in a system call. -/
inductive FsPlace
  /-- In none. -/
  | idle
  /-- The loop of `namex`, at this inode, with the rest of the path. -/
  | walk (call : FsCall) (ip : ℕ) (path : Path)
  /-- `nameiparent` has returned this directory and this name. -/
  | parent (call : FsCall) (dp : ℕ) (name : Path)
  /-- `namei` has returned this inode, or `create` has found it. -/
  | target (call : FsCall) (ip : ℕ)
  /-- `create`, with `dp` locked: `ialloc` has marked the inode and is about to call `iget`. -/
  | alloc (new : NewNode) (dp : ℕ) (name : Path) (ip : ℕ)
  /-- `create`, with `dp` locked, is about to lock the new inode. -/
  | fill (new : NewNode) (dp : ℕ) (name : Path) (ip : ℕ)
  /-- `link` has failed and is about to lock the inode and decrement `nlink`. -/
  | undo (ip : ℕ)
  /-- `iput` of this inode is next. -/
  | drop (ip : ℕ) (next : FsPlace)
  /-- `iput` has freed this inode and is about to decrement `ref`. -/
  | release (ip : ℕ) (next : FsPlace)
  /-- `end_op` is next. -/
  | finish
  deriving DecidableEq

/-- Does a process have this inode locked between two steps? -/
def FsPlace.holds (i : ℕ) : FsPlace → Bool
  | .alloc _ dp _ _ | .fill _ dp _ _ => dp = i
  | _ => false

/-- Where a call goes on if its path is not found. -/
def FsCall.fails : FsCall → FsPlace
  | .linkNew ip => .undo ip
  | _ => .finish

/-- What the environment answers in one step. -/
structure FsChoice where
  /-- The free inode that `ialloc` finds; zero if none. -/
  inum : ℕ := 0
  /-- Is there a block for the directory, if it needs one? -/
  room : Bool := true
  /-- Is there a block for the new directory? -/
  roomNew : Bool := true
  /-- Is there no entry for an open file? -/
  full : Bool := false

/-- The inodes and the processes that use them. -/
structure FsTree where
  node : ℕ → Node
  /-- The inodes that recovery finds after a crash. -/
  committed : ℕ → Node
  /-- `ref` of the entry in the inode table, zero if there is none. -/
  ref : ℕ → ℕ
  /-- `valid` of the entry. -/
  valid : ℕ → Bool
  /-- The inodes of the open files. -/
  files : List ℕ
  /-- The current directory of each process, if there is the process. -/
  cwd : Fin NPROC → Option ℕ
  place : Fin NPROC → FsPlace

namespace FsTree

variable (s : FsTree) (p : Fin NPROC)

/-- The process goes on there. -/
def goto (place : FsPlace) : FsTree := { s with place := update s.place p place }

/-- Change one inode. -/
def setNode (i : ℕ) (node : Node) : FsTree := { s with node := update s.node i node }

/-- `iget`, which finds an entry or makes one that is not valid. -/
def iget (i : ℕ) : FsTree :=
  { s with
    ref := update s.ref i (s.ref i + 1)
    valid := update s.valid i (s.ref i ≠ 0 && s.valid i) }

/-- Another process has the inode locked, in `create`. -/
def locked (i : ℕ) : Prop :=
  ∃ q, q ≠ p ∧ (s.place q).holds i

instance (i : ℕ) : Decidable (s.locked p i) :=
  inferInstanceAs (Decidable (∃ q, q ≠ p ∧ (s.place q).holds i))

/-- `ilock`; `none` where the process has to wait, or panics with `ilock: no type`. -/
def ilock (i : ℕ) : Option FsTree :=
  if s.locked p i then none
  else if s.valid i = false ∧ (s.node i).type = .free then none
  else some { s with valid := update s.valid i true }

/-- The directory that `namex` starts in, with its reference. -/
def namexStart (path : Path) : Option (ℕ × FsTree) :=
  if path.head? = some 47 then some (ROOTINO, s.iget ROOTINO)
  else (s.cwd p).map fun c => (c, { s with ref := update s.ref c (s.ref c + 1) })

/-- One round of the loop in `namex`, and its end. -/
def walk (call : FsCall) (ip : ℕ) (path : Path) : Option FsTree :=
  match skipelem path with
  | none =>
    if call.nameiparent then some (s.goto p (.drop ip call.fails))
    else some (s.goto p (.target call ip))
  | some (name, rest) => do
    let s ← s.ilock p ip
    if (s.node ip).type ≠ .dir then pure (s.goto p (.drop ip call.fails))
    else if call.nameiparent ∧ rest = [] then pure (s.goto p (.parent call ip name))
    else
      match dirlookup (s.node ip).slots name with
      | none => pure (s.goto p (.drop ip call.fails))
      | some next => pure ((s.iget next).goto p (.drop ip (.walk call next rest)))

/-- `create` with its directory, up to `ialloc`. -/
def createIn (new : NewNode) (dp : ℕ) (name : Path) (choice : FsChoice) (ninodes : ℕ) :
    Option FsTree := do
  let s ← s.ilock p dp
  -- `dirlookup` panics unless `dp` is a directory
  if (s.node dp).type ≠ .dir then none
  else
    match dirlookup (s.node dp).slots name with
    | some ip => pure ((s.iget ip).goto p (.drop dp (.target (.create new) ip)))
    | none =>
      if choice.inum = 0 then pure (s.goto p (.drop dp .finish))
      else if choice.inum < ninodes ∧ (s.node choice.inum).type = .free then
        pure ((s.setNode choice.inum { Node.zero with type := new.type }).goto p
          (.alloc new dp name choice.inum))
      else none

/-- The part of `open` after the inode is there and locked. -/
def openNode (ip : ℕ) (choice : FsChoice) (before : FsPlace → FsPlace) : FsTree :=
  if ((s.node ip).type = .device ∧
      ((s.node ip).major.toInt < 0 ∨ NDEV ≤ (s.node ip).major.toInt)) ∨ choice.full then
    s.goto p (before (.drop ip .finish))
  else { s.goto p (before .finish) with files := ip :: s.files }

/-- The end of `create` after `fail`, when the new inode has these entries. -/
def createFail (new : NewNode) (dp ip : ℕ) (slots : List Dirent) : FsTree :=
  (s.setNode ip { s.node ip with
    major := new.major, minor := new.minor, nlink := 0, slots := slots }).goto p
    (.drop ip (.drop dp .finish))

/-- `create` from the `dirlink` for its name on, when the new inode has these entries. -/
def createLink (new : NewNode) (dp : ℕ) (name : Path) (ip : ℕ) (slots : List Dirent)
    (choice : FsChoice) : FsTree :=
  let made := s.setNode ip { s.node ip with
    major := new.major, minor := new.minor, nlink := 1, slots := slots }
  match dirlink (made.node dp).slots name ip choice.room with
  | none => s.createFail p new dp ip slots
  | some entries =>
    let nlink := if new.type = .dir then (made.node dp).nlink + 1 else (made.node dp).nlink
    let linked := made.setNode dp { made.node dp with slots := entries, nlink := nlink }
    match new with
    | .file => linked.openNode p ip choice (.drop dp)
    | _ => linked.goto p (.drop dp (.drop ip .finish))

/-- `create` from the lock of the new inode on. -/
def fill (new : NewNode) (dp : ℕ) (name : Path) (ip : ℕ) (choice : FsChoice) : Option FsTree := do
  let s ← s.ilock p ip
  if new.type = .dir then
    match dirlink (s.node ip).slots Dirent.dot ip choice.roomNew with
    | none => pure (s.createFail p new dp ip (s.node ip).slots)
    | some slots =>
      match dirlink slots Dirent.dotdot dp choice.roomNew with
      | none => pure (s.createFail p new dp ip slots)
      | some slots => pure (s.createLink p new dp name ip slots choice)
  else pure (s.createLink p new dp name ip (s.node ip).slots choice)

/-- `unlink` with the directory and the name. -/
def unlink (dp : ℕ) (name : Path) : Option FsTree := do
  let s ← s.ilock p dp
  if name = Dirent.dot ∨ name = Dirent.dotdot then pure (s.goto p (.drop dp .finish))
  else if (s.node dp).type ≠ .dir then none
  else
    match dirlookup (s.node dp).slots name with
    | none => pure (s.goto p (.drop dp .finish))
    | some ip =>
      -- a process that has `dp` locked waits for ever to lock it again
      if ip = dp then none
      else do
        let s ← (s.iget ip).ilock p ip
        if (s.node ip).nlink.toInt < 1 then none
        else if (s.node ip).type = .dir ∧ !isdirempty (s.node ip).slots then
          pure (s.goto p (.drop ip (.drop dp .finish)))
        else
          let nlink :=
            if (s.node ip).type = .dir then (s.node dp).nlink - 1 else (s.node dp).nlink
          let s := s.setNode dp
            { s.node dp with slots := clearEntry name (s.node dp).slots, nlink := nlink }
          let s := s.setNode ip { s.node ip with nlink := (s.node ip).nlink - 1 }
          pure (s.goto p (.drop dp (.drop ip .finish)))

/-- `link` with the directory and the name of the new entry. -/
def linkIn (ip dp : ℕ) (name : Path) (choice : FsChoice) : Option FsTree := do
  let s ← s.ilock p dp
  if (s.node dp).type ≠ .dir then none
  else
    match dirlink (s.node dp).slots name ip choice.room with
    | none => pure (s.goto p (.drop dp (.undo ip)))
    | some slots =>
      pure ((s.setNode dp { s.node dp with slots := slots }).goto p (.drop dp (.drop ip .finish)))

/-- A call with the inode that its path names. -/
def reach (call : FsCall) (ip : ℕ) (choice : FsChoice) : Option FsTree := do
  let s ← s.ilock p ip
  match call with
  | .create new =>
    if new.type = .file ∧ ((s.node ip).type = .file ∨ (s.node ip).type = .device) then
      pure (s.openNode p ip choice id)
    else pure (s.goto p (.drop ip .finish))
  | .linkOld new =>
    if (s.node ip).type = .dir then pure (s.goto p (.drop ip .finish))
    else do
      let s := s.setNode ip { s.node ip with nlink := (s.node ip).nlink + 1 }
      let (dp, s) ← s.namexStart p new
      pure (s.goto p (.walk (.linkNew ip) dp new))
  | .opens writes =>
    if (s.node ip).type = .dir ∧ writes then pure (s.goto p (.drop ip .finish))
    else pure (s.openNode p ip choice id)
  | .chdir =>
    if (s.node ip).type ≠ .dir then pure (s.goto p (.drop ip .finish))
    else
      -- only the process itself reads its `cwd`, so it may as well be set before `iput`
      match s.cwd p with
      | none => none
      | some old =>
        pure { s.goto p (.drop old .finish) with cwd := update s.cwd p (some ip) }
  | .unlink | .linkNew _ => none

/-- The undo path of `link`. -/
def undo (ip : ℕ) : Option FsTree := do
  let s ← s.ilock p ip
  pure ((s.setNode ip { s.node ip with nlink := (s.node ip).nlink - 1 }).goto p (.drop ip .finish))

/-- `iput`: free the inode if this is the last reference and it has no links, or drop the
reference. -/
def iput (ip : ℕ) (next : FsPlace) : FsTree :=
  if s.ref ip = 1 ∧ s.valid ip ∧ (s.node ip).nlink = 0 then
    { (s.setNode ip { s.node ip with type := .free, slots := [] }).goto p (.release ip next) with
      valid := update s.valid ip false }
  else { s.goto p next with ref := update s.ref ip (s.ref ip - 1) }

/-- `end_op`: the log commits when the last operation ends. -/
def endOp : FsTree :=
  let s := s.goto p .idle
  if ∀ q, s.place q = .idle then { s with committed := s.node } else s

/-- What a process does next in its call. -/
def advance (ninodes : ℕ) (choice : FsChoice) : Option FsTree :=
  match s.place p with
  | .idle => none
  | .walk call ip path => s.walk p call ip path
  | .parent (.create new) dp name => s.createIn p new dp name choice ninodes
  | .parent .unlink dp name => s.unlink p dp name
  | .parent (.linkNew ip) dp name => s.linkIn p ip dp name choice
  | .parent _ _ _ => none
  | .target call ip => s.reach p call ip choice
  | .alloc new dp name ip => some ((s.iget ip).goto p (.fill new dp name ip))
  | .fill new dp name ip => s.fill p new dp name ip choice
  | .undo ip => s.undo p ip
  | .drop ip next => some (s.iput p ip next)
  | .release ip next =>
    some { s.goto p next with ref := update s.ref ip (s.ref ip - 1) }
  | .finish => some (s.endOp p)

end FsTree

/-- A system call that starts, a step of one, or a crash. -/
inductive FsAction
  /-- Start a call with a path. -/
  | start (p : Fin NPROC) (call : FsCall) (path : Path)
  | advance (p : Fin NPROC) (choice : FsChoice)
  /-- The last descriptor of an open file of this inode is closed. -/
  | close (p : Fin NPROC) (ip : ℕ)
  /-- `fork`; open files are shared. -/
  | fork (p child : Fin NPROC)
  /-- `exit`, after the files are closed. -/
  | exit (p : Fin NPROC)
  /-- Power failure, recovery, and the first process. -/
  | crash

namespace FsTree

/-- The process that `userinit` makes. -/
def initProc : Fin NPROC := ⟨0, by decide⟩

/-- The first process, in the root directory, and nothing else in memory. -/
def boot (node : ℕ → Node) : FsTree where
  node := node
  committed := node
  ref := update (fun _ => 0) ROOTINO 1
  valid _ := false
  files := []
  cwd := update (fun _ => none) initProc (some ROOTINO)
  place _ := .idle

/-- One step; `none` if it is not possible, waits, or panics. -/
def next (ninodes : ℕ) (s : FsTree) : FsAction → Option FsTree
  | .start p call path =>
    if s.place p = .idle ∧ (s.cwd p).isSome ∧ path.length < MAXPATH ∧ 0 ∉ path ∧ call.starts then
      (s.namexStart p path).map fun (ip, s) => s.goto p (.walk call ip path)
    else none
  | .advance p choice => s.advance p ninodes choice
  | .close p ip =>
    if s.place p = .idle ∧ (s.cwd p).isSome ∧ ip ∈ s.files then
      some { s.goto p (.drop ip .finish) with files := s.files.erase ip }
    else none
  | .fork p child =>
    match s.cwd p with
    | none => none
    | some c =>
      if s.place p = .idle ∧ s.place child = .idle ∧ s.cwd child = none then
        some { s with
          ref := update s.ref c (s.ref c + 1)
          cwd := update s.cwd child (some c) }
      else none
  | .exit p =>
    match s.cwd p with
    | none => none
    | some c =>
      if s.place p = .idle then
        some { s.goto p (.drop c .finish) with cwd := update s.cwd p none }
      else none
  | .crash => some (boot s.committed)

end FsTree

end Xv6Cos.Kernel
