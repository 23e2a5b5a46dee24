import Xv6Cos.Kernel.Disk
import Xv6Cos.Kernel.FsTree

/-!
# Directories and system calls on the disk (`kernel/fs.c`, `kernel/sysfile.c`, `kernel/file.c`)

A directory is a file of entries of 16 bytes. The calls are those of one process at a time, each
with its transaction; there is one device.
-/

namespace Xv6Cos.Kernel

open Bytes Program Transition

/-- `open` empties the file. -/
def O_TRUNC : BitVec 32 := 0x400

/-- The bytes of a string, with the zero byte that ends it. -/
def cstr (name : Path) : ℕ → UInt8 := fun k => name.getD k 0

/-- `strncmp` compares up to so many bytes. -/
def strncmp (p q : ℕ → UInt8) : ℕ → Int
  | 0 => 0
  | n + 1 =>
    if p 0 ≠ 0 ∧ p 0 = q 0 then strncmp (fun k => p (k + 1)) (fun k => q (k + 1)) n
    else (p 0).toNat - (q 0).toNat

/-- `strncpy`: the bytes that it stores. -/
def strncpy (t : ℕ → UInt8) : ℕ → List UInt8
  | 0 => []
  | n + 1 => if t 0 = 0 then List.replicate (n + 1) 0 else t 0 :: strncpy (fun k => t (k + 1)) n

/-- `namecmp` compares two names. -/
def namecmp (s t : ℕ → UInt8) : Int := strncmp s t DIRSIZ

/-- `de.inum`. -/
def entryInum (de : ℕ → UInt8) : ℕ := readLE de 0 2

/-- `de.name`. -/
def entryName (de : ℕ → UInt8) : ℕ → UInt8 := fun k => de (k + 2)

/-- The bytes of a `struct dirent`; `inum` becomes a `ushort`. -/
def entryBytes (inum : ℕ) (name : ℕ → UInt8) : ℕ → UInt8 :=
  writeLE (fun k => (strncpy name DIRSIZ).getD (k - 2) 0) 0 (inum % 2 ^ 16) 2

namespace Disk

variable (sb : Superblock)

/-- The loops over the entries of a directory: where they stop, and the entry found there. -/
def scan (i : ℕ) (panic : FsPanic) (found : (ℕ → UInt8) → Bool) :
    ℕ → ℕ → DiskProg (ℕ × Option (ℕ → UInt8))
  | 0, off => pure (off, none)
  | fuel + 1, off => do
    let ip ← inode i
    if off < ip.size.toNat then
      let (r, bytes) ← readi sb i (fun _ => true) off 16
      if r = 16 then
        let de : ℕ → UInt8 := fun k => bytes.getD k 0
        if found de then pure (off, some de) else scan i panic found fuel (off + 16)
      else fail panic
    else pure (off, none)

/-- A loop from one offset to the end of the directory. -/
def scanFrom (i : ℕ) (panic : FsPanic) (found : (ℕ → UInt8) → Bool) (off : ℕ) :
    DiskProg (ℕ × Option (ℕ → UInt8)) := do
  let ip ← inode i
  scan sb i panic found (ip.size.toNat / 16 + 1) off

/-- `dirlookup`: the offset of the entry, and the inode. -/
def dirlookup (dp : ℕ) (name : ℕ → UInt8) : DiskProg (Option (ℕ × ℕ)) := do
  check (fun s => (s.icache dp).copy.type = T_DIR) .dirlookupNotDir
  match ← scanFrom sb dp .dirlookupRead
      (fun de => entryInum de ≠ 0 ∧ namecmp name (entryName de) = 0) 0 with
  | (off, some de) =>
    iget (entryInum de)
    pure (some (off, entryInum de))
  | (_, none) => pure none

/-- `dirlink`; does it succeed? -/
def dirlink (dp : ℕ) (name : ℕ → UInt8) (inum : ℕ) : DiskProg Bool := do
  match ← dirlookup sb dp name with
  | some (_, ip) =>
    iput sb ip
    pure false
  | none =>
    let (off, _) ← scanFrom sb dp .dirlinkRead (fun de => entryInum de = 0) 0
    let r ← writei sb dp (fun k => some (entryBytes inum name k)) off 16
    pure (r = 16)

/-- Is the directory empty but for `.` and `..`? -/
def isdirempty (dp : ℕ) : DiskProg Bool := do
  let (_, de) ← scanFrom sb dp .isdiremptyRead (fun de => entryInum de ≠ 0) 32
  pure de.isNone

/-- The loop of `namex`, which returns the last element of the path, too. Each turn takes a byte of
the path at least. -/
def namexGo (parent : Bool) : ℕ → ℕ → Path → Path → DiskProg (Option (ℕ × Path))
  | 0, ip, _, name => pure (some (ip, name))
  | fuel + 1, ip, path, name =>
    match skipelem path with
    | none => if parent then do
        iput sb ip
        pure none
      else pure (some (ip, name))
    | some (name, rest) => do
      ilock sb ip
      if (← inode ip).type ≠ T_DIR then
        iunlockput sb ip
        pure none
      else if parent ∧ rest = [] then
        iunlock ip
        pure (some (ip, name))
      else
        match ← dirlookup sb ip (cstr name) with
        | none =>
          iunlockput sb ip
          pure none
        | some (_, next) =>
          iunlockput sb ip
          namexGo parent fuel next rest name

/-- `namex`, for a process with this current directory. -/
def namex (cwd : ℕ) (path : Path) (parent : Bool) : DiskProg (Option (ℕ × Path)) := do
  if path.head? = some 47 then
    iget ROOTINO
    namexGo sb parent (path.length + 1) ROOTINO path []
  else
    idup cwd
    namexGo sb parent (path.length + 1) cwd path []

/-- The inode that a path names. -/
def namei (cwd : ℕ) (path : Path) : DiskProg (Option ℕ) := do
  let found ← namex sb cwd path false
  pure (found.map Prod.fst)

/-- The directory that the last element of a path is in, and that element. -/
def nameiparent (cwd : ℕ) (path : Path) : DiskProg (Option (ℕ × Path)) := namex sb cwd path true

/-- Set `nlink` and write the inode. -/
def setNlink (i : ℕ) (f : BitVec 16 → BitVec 16) : DiskProg Unit := do
  setInode i fun ip => { ip with nlink := f ip.nlink }
  iupdate sb i

/-- `create` when the name is there. -/
def createOld (dp ip : ℕ) (type : BitVec 16) : DiskProg (Option ℕ) := do
  iunlockput sb dp
  ilock sb ip
  let node ← inode ip
  if type = T_FILE ∧ (node.type = T_FILE ∨ node.type = T_DEVICE) then pure (some ip)
  else
    iunlockput sb ip
    pure none

/-- The entries that `create` makes. -/
def createEntries (dp ip : ℕ) (name : Path) (type : BitVec 16) : DiskProg Bool := do
  if type = T_DIR then
    if ← dirlink sb ip (cstr Dirent.dot) ip then
      if ← dirlink sb ip (cstr Dirent.dotdot) dp then dirlink sb dp (cstr name) ip
      else pure false
    else pure false
  else dirlink sb dp (cstr name) ip

/-- A directory has a link to its parent. -/
def countParent (dp : ℕ) (type : BitVec 16) (f : BitVec 16 → BitVec 16) : DiskProg Unit :=
  if type = T_DIR then setNlink sb dp f else pure ()

/-- `create` with its new inode. -/
def createNew (dp ip : ℕ) (name : Path) (type major minor : BitVec 16) : DiskProg (Option ℕ) := do
  ilock sb ip
  setInode ip fun node => { node with major := major, minor := minor, nlink := 1 }
  iupdate sb ip
  if ← createEntries sb dp ip name type then
    countParent sb dp type (· + 1)
    iunlockput sb dp
    pure (some ip)
  else
    setNlink sb ip fun _ => 0
    iunlockput sb ip
    iunlockput sb dp
    pure none

/-- `create`: the new inode, locked. -/
def create (cwd : ℕ) (path : Path) (type major minor : BitVec 16) : DiskProg (Option ℕ) := do
  match ← nameiparent sb cwd path with
  | none => pure none
  | some (dp, name) =>
    ilock sb dp
    match ← dirlookup sb dp (cstr name) with
    | some (_, ip) => createOld sb dp ip type
    | none =>
      match ← ialloc sb type with
      | none =>
        iunlockput sb dp
        pure none
      | some ip => createNew sb dp ip name type major minor

/-- A system call between `begin_op` and `end_op`. -/
def transaction {α : Type} (body : DiskProg α) : DiskProg α := do
  beginOp
  let result ← body
  endOp
  pure result

/-- The inode that `open` is about, locked. -/
def openInode (cwd : ℕ) (path : Path) (omode : BitVec 32) : DiskProg (Option ℕ) := do
  if omode &&& O_CREATE ≠ 0 then create sb cwd path T_FILE 0 0
  else
    match ← namei sb cwd path with
    | none => pure none
    | some ip =>
      ilock sb ip
      if (← inode ip).type = T_DIR ∧ omode ≠ 0 then
        iunlockput sb ip
        pure none
      else pure (some ip)

/-- What `open` does about `O_TRUNC`. -/
def openTrunc (ip : ℕ) (omode : BitVec 32) : DiskProg Unit := do
  if omode &&& O_TRUNC ≠ 0 ∧ (← inode ip).type = T_FILE then itrunc sb ip else pure ()

/-- `open` of a locked inode: the inode of the open file, and whether it can be written. -/
def openFile (ip : ℕ) (omode : BitVec 32) (room : Bool) : DiskProg (Option (ℕ × Bool)) := do
  let node ← inode ip
  if node.type = T_DEVICE ∧ (node.major.toInt < 0 ∨ NDEV ≤ node.major.toInt) ∨ !room then
    iunlockput sb ip
    pure none
  else
    openTrunc sb ip omode
    iunlock ip
    pure (some (ip, omode &&& O_WRONLY ≠ 0 || omode &&& O_RDWR ≠ 0))

/-- `sys_open`, where `room` says if there are an entry for the file and a descriptor. -/
def sysOpen (cwd : ℕ) (path : Path) (omode : BitVec 32) (room : Bool) :
    DiskProg (Option (ℕ × Bool)) := transaction do
  match ← openInode sb cwd path omode with
  | none => pure none
  | some ip => openFile sb ip omode room

/-- `sys_mkdir` and `sys_mknod`. -/
def sysMake (cwd : ℕ) (path : Path) (type major minor : BitVec 16) : DiskProg Unit := transaction do
  match ← create sb cwd path type major minor with
  | none => pure ()
  | some ip => iunlockput sb ip

/-- `sys_mkdir`. -/
def sysMkdir (cwd : ℕ) (path : Path) : DiskProg Unit := sysMake sb cwd path T_DIR 0 0

/-- `sys_mknod`. -/
def sysMknod (cwd : ℕ) (path : Path) (major minor : BitVec 16) : DiskProg Unit :=
  sysMake sb cwd path T_DEVICE major minor

/-- `link` with the path of the new entry. -/
def linkIn (cwd ip : ℕ) (new : Path) : DiskProg Bool := do
  match ← nameiparent sb cwd new with
  | none => pure false
  | some (dp, name) =>
    ilock sb dp
    let linked ← dirlink sb dp (cstr name) ip
    iunlockput sb dp
    pure linked

/-- `link` after the link has been counted. -/
def linkTo (cwd ip : ℕ) (new : Path) : DiskProg Unit := do
  if ← linkIn sb cwd ip new then iput sb ip
  else
    ilock sb ip
    setNlink sb ip (· - 1)
    iunlockput sb ip

/-- `sys_link`. -/
def sysLink (cwd : ℕ) (old new : Path) : DiskProg Unit := transaction do
  match ← namei sb cwd old with
  | none => pure ()
  | some ip =>
    ilock sb ip
    if (← inode ip).type = T_DIR then iunlockput sb ip
    else
      setNlink sb ip (· + 1)
      iunlock ip
      linkTo sb cwd ip new

/-- `unlink` of an entry. -/
def unlinkEntry (dp ip off : ℕ) : DiskProg Unit := do
  let r ← writei sb dp (fun _ => some 0) off 16
  if r = 16 then
    let node ← inode ip
    countParent sb dp node.type (· - 1)
    iunlockput sb dp
    setNlink sb ip (· - 1)
    iunlockput sb ip
  else fail .unlinkWritei

/-- Is the inode a directory with entries? -/
def hasEntries (ip : ℕ) : DiskProg Bool := do
  if (← inode ip).type = T_DIR then
    let empty ← isdirempty sb ip
    pure !empty
  else pure false

/-- `unlink` in a directory, which is locked. -/
def unlinkIn (dp : ℕ) (name : Path) : DiskProg Unit := do
  if namecmp (cstr name) (cstr Dirent.dot) = 0 ∨ namecmp (cstr name) (cstr Dirent.dotdot) = 0 then
    iunlockput sb dp
  else
    match ← dirlookup sb dp (cstr name) with
    | none => iunlockput sb dp
    | some (off, ip) =>
      ilock sb ip
      check (fun s => 1 ≤ (s.icache ip).copy.nlink.toInt) .unlinkNlink
      if ← hasEntries sb ip then
        iunlockput sb ip
        iunlockput sb dp
      else unlinkEntry sb dp ip off

/-- `sys_unlink`. -/
def sysUnlink (cwd : ℕ) (path : Path) : DiskProg Unit := transaction do
  match ← nameiparent sb cwd path with
  | none => pure ()
  | some (dp, name) =>
    ilock sb dp
    unlinkIn sb dp name

/-- `sys_chdir`: the new current directory. -/
def sysChdir (cwd : ℕ) (path : Path) : DiskProg ℕ := transaction do
  match ← namei sb cwd path with
  | none => pure cwd
  | some ip =>
    ilock sb ip
    if (← inode ip).type ≠ T_DIR then
      iunlockput sb ip
      pure cwd
    else
      iunlock ip
      iput sb cwd
      pure ip

/-- One transaction of `filewrite`. -/
def fileWrite (ip : ℕ) (src : ℕ → Option UInt8) (off n : ℕ) : DiskProg Int := transaction do
  ilock sb ip
  let r ← writei sb ip src off n
  iunlock ip
  pure r

/-- `fileread`, without a transaction. -/
def fileRead (ip : ℕ) (dst : ℕ → Bool) (off n : ℕ) : DiskProg (Int × List UInt8) := do
  ilock sb ip
  let r ← readi sb ip dst off n
  iunlock ip
  pure r

/-- The end of `fileclose` and the `iput` of `exit`. -/
def drop (ip : ℕ) : DiskProg Unit := transaction (iput sb ip)

/-- The cache takes the buffer of a block, which is not in the log, for another one. -/
def evict (b : ℕ) : DiskProg Unit := modifies fun s => s.setData b (s.buf b).home

end Disk

/-- The disk, the inodes of the open files with whether they can be written, and the current
directories of the processes. -/
structure DiskSystem where
  disk : Disk
  files : List (ℕ × Bool)
  cwds : List ℕ

/-- One transaction or read of a process, or a buffer that is taken for another block. -/
inductive DiskAction
  /-- The first process starts in the root directory. -/
  | userinit
  /-- A process with this current directory gets a child. -/
  | fork (cwd : ℕ)
  /-- A process exits, after its files have been closed. -/
  | exit (cwd : ℕ)
  | openPath (cwd : ℕ) (path : Path) (omode : BitVec 32) (room : Bool)
  | mkdir (cwd : ℕ) (path : Path)
  | mknod (cwd : ℕ) (path : Path) (major minor : BitVec 16)
  | link (cwd : ℕ) (old new : Path)
  | unlink (cwd : ℕ) (path : Path)
  | chdir (cwd : ℕ) (path : Path)
  /-- The last descriptor of a file is closed. -/
  | close (file : ℕ × Bool)
  | write (file : ℕ × Bool) (src : ℕ → Option UInt8) (off : ℕ) (n : BitVec 32)
  | read (file : ℕ × Bool) (dst : ℕ → Bool) (off : ℕ) (n : BitVec 32)
  | evict (b : ℕ)

namespace DiskSystem

/-- The processes use current directories and files that they have. -/
def possible (s : DiskSystem) : DiskAction → Prop
  | .userinit => True
  | .evict b => (s.disk.buf b).logged = false
  | .fork cwd | .exit cwd | .openPath cwd _ _ _ | .mkdir cwd _ | .mknod cwd _ _ _ | .link cwd _ _
  | .unlink cwd _ | .chdir cwd _ => cwd ∈ s.cwds
  | .close file | .read file _ _ _ => file ∈ s.files
  | .write file _ _ _ => file ∈ s.files ∧ file.2 = true

/-- One action: the files and the current directories after it. -/
def perform (sb : Superblock) (s : DiskSystem) : DiskAction → DiskProg (List (ℕ × Bool) × List ℕ)
  | .userinit => do
    Disk.iget ROOTINO
    pure (s.files, ROOTINO :: s.cwds)
  | .fork cwd => do
    Disk.idup cwd
    pure (s.files, cwd :: s.cwds)
  | .exit cwd => do
    Disk.drop sb cwd
    pure (s.files, s.cwds.erase cwd)
  | .openPath cwd path omode room => do
    let file ← Disk.sysOpen sb cwd path omode room
    pure (file.toList ++ s.files, s.cwds)
  | .mkdir cwd path => do
    Disk.sysMkdir sb cwd path
    pure (s.files, s.cwds)
  | .mknod cwd path major minor => do
    Disk.sysMknod sb cwd path major minor
    pure (s.files, s.cwds)
  | .link cwd old new => do
    Disk.sysLink sb cwd old new
    pure (s.files, s.cwds)
  | .unlink cwd path => do
    Disk.sysUnlink sb cwd path
    pure (s.files, s.cwds)
  | .chdir cwd path => do
    let cwd' ← Disk.sysChdir sb cwd path
    pure (s.files, cwd' :: s.cwds.erase cwd)
  | .close file => do
    Disk.drop sb file.1
    pure (s.files.erase file, s.cwds)
  | .write file src off n => do
    let _ ← Disk.fileWrite sb file.1 src off n.toNat
    pure (s.files, s.cwds)
  | .read file dst off n => do
    let _ ← Disk.fileRead sb file.1 dst off n.toNat
    pure (s.files, s.cwds)
  | .evict b => do
    Disk.evict b
    pure (s.files, s.cwds)

/-- A disk image after boot. -/
def boot (img : ℕ → Block) : DiskSystem where
  disk :=
    { buf := fun b => ⟨img b, img b, false⟩
      icache := fun _ => ⟨0, false, false, .zero⟩
      outstanding := 0
      console := [] }
  files := []
  cwds := []

/-- Sequences of completed actions. -/
def system (sb : Superblock) (img : ℕ → Block) : StepSystem DiskSystem DiskAction where
  init s := s = boot img
  step s action t := s.possible action ∧
    s.perform sb action s.disk = .ok ((t.files, t.cwds), t.disk)

end DiskSystem

end Xv6Cos.Kernel
