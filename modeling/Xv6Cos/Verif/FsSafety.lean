import Xv6Cos.Verif.FsRun

/-!
# Entries, link counts, the tree of directories, and crashes

What holds in every state of every run, and runs that break each of it where a directory goes too
early or gets a name too late.
-/

namespace Xv6Cos.Verif

open Kernel Spec Transition List Dirent FsTree

variable {i d k : ℕ} {de : Dirent}

section Disk

/-- A disk with an empty root directory. -/
def emptyDisk : Nodes := fun i =>
  if i = ROOTINO then ⟨.dir, 0, 0, 1, [⟨ROOTINO, Dirent.dot⟩, ⟨ROOTINO, Dirent.dotdot⟩]⟩ else .zero

/-- Only the root is in use. -/
theorem emptyDisk_only (allocated : (emptyDisk i).type ≠ .free) : i = ROOTINO := by
  by_contra other
  rw [emptyDisk, if_neg other] at allocated
  exact allocated rfl

/-- It has no names. -/
theorem emptyDisk_entry (entry : HasEntry emptyDisk d de) :
    d = ROOTINO ∧ de.inum = ROOTINO ∧ ¬plain de := by
  obtain ⟨directory, mem, -⟩ := entry
  obtain rfl := emptyDisk_only (by rw [directory]; exact nofun)
  have known : de ∈ [⟨ROOTINO, dot⟩, ⟨ROOTINO, dotdot⟩] := mem
  simp only [mem_cons, not_mem_nil, or_false] at known
  rcases known with rfl | rfl
  · exact ⟨rfl, rfl, by decide⟩
  · exact ⟨rfl, rfl, by decide⟩

/-- It is a consistent image. -/
theorem emptyDisk_consistent : Consistent 8 emptyDisk := by
  have unnamed : ∀ i d k, ¬NamedAt emptyDisk i d k := by
    rintro i d k ⟨-, de, entry, -, named, -⟩
    exact (emptyDisk_entry entry).2.2 named
  constructor
  · decide
  · intro i allocated
    rw [emptyDisk_only allocated]
    decide
  · decide
  · exact unnamed ROOTINO
  · intro d de entry
    rw [(emptyDisk_entry entry).2.1]
    decide
  · constructor
    · intro x reached other
      cases reached with
      | root => exact absurd rfl other
      | entry _ entry => exact absurd (emptyDisk_entry entry).2.1 other
    · intro d directory
      obtain rfl := emptyDisk_only (by rw [directory]; exact nofun)
      decide
  · intro i allocated other
    exact absurd (emptyDisk_only allocated) other
  · intro i allocated
    rw [emptyDisk_only allocated]
    decide

/-- A call, and steps of it; `ialloc` finds this inode. -/
def callSteps (p : Fin NPROC) (call : FsCall) (path : Path) (steps inum : ℕ) : List FsAction :=
  .start p call path :: List.replicate steps (.advance p { inum := inum })

/-- The path `/a`. -/
def pathA : Path := [47, 97]

/-- The path `/a/b`. -/
def pathAB : Path := [47, 97, 47, 98]

/-- `mkdir /a`, as inode 2. -/
def mkdirA : List FsAction := callSteps FsTree.initProc (.create .dir) pathA 7 2

/-- `mkdir /a/b`, as inode 3. -/
def mkdirAB : List FsAction := callSteps FsTree.initProc (.create .dir) pathAB 9 3

/-- Actions from a disk that all succeed are a run. -/
theorem image_run {nodes : Nodes} (image : Consistent 8 nodes)
    (condition : FsTree → FsAction → Prop) [∀ s l, Decidable (condition s l)]
    (actions : List FsAction) (check : FsTree → Prop) [DecidablePred check]
    (checked : (StepSystem.runActions (fun s l => if condition s l then s.next 8 l else none)
      (.boot nodes) actions).any (check ·) = true) :
    ∃ s, ((fsSystem 8).restrict condition).Exec actions s ∧ check s := by
  have ran : ∃ s, ((fsSystem 8).restrict condition).Exec actions s ∧ decide (check s) = true :=
    StepSystem.exists_actions (next 8) condition ⟨nodes, image, rfl⟩ actions _ checked
  simpa using ran

end Disk

section Entries

/-- If no directory goes that the `..` of another names, and no link count overflows, every entry
names an inode in use, and no process comes to lock a free inode. -/
theorem entries_never_dangle (n : ℕ) (trace : List FsAction) (s : FsTree)
    (run : (orderlyFs n).Exec trace s) :
    (∀ d de, HasEntry s.node d de → (s.node de.inum).type ≠ .free) ∧
      ∀ p i, MayLock s p i → (s.node i).type ≠ .free := by
  have inv := orderly_inv run
  refine ⟨fun d de entry => (inv.disk.targets d de entry).1, fun p i locks => ?_⟩
  have held : i ∈ placeKeeps (s.place p) → (s.node i).type ≠ .free := fun mem =>
    inv.alive p i (mem_append_left _ mem)
  cases here : s.place p with
  | walk call ip | target call ip | undo ip =>
    rw [MayLock, here] at locks
    obtain rfl : i = ip := locks
    exact held (by rw [here]; exact mem_cons_self)
  | fill make dp name ip =>
    rw [MayLock, here] at locks
    obtain rfl : i = ip := locks
    exact held (by rw [here]; exact mem_cons_of_mem _ mem_cons_self)
  | parent call dp name =>
    have mine : dp ∈ placeKeeps (s.place p) := by
      rw [here]
      exact mem_cons_self
    rw [MayLock, here] at locks
    cases call with
    | unlink =>
      rcases locks with rfl | ⟨directory, found⟩
      · exact held mine
      · obtain ⟨de, -, mem, used, rfl⟩ := dirlookup_some found
        exact (inv.disk.targets dp _ ⟨directory, mem, used⟩).1
    | _ =>
      obtain rfl : i = dp := locks
      exact held mine
  | idle | alloc | drop | release | finish =>
    rw [MayLock, here] at locks
    exact locks.elim

/-- Two directories are made. -/
theorem entries_never_dangle_mkdir : ∃ s, (orderlyFs 8).Exec (mkdirA ++ mkdirAB) s ∧
    HasEntry s.node 3 ⟨2, Dirent.dotdot⟩ ∧
    ((∀ d de, HasEntry s.node d de → (s.node de.inum).type ≠ .free) ∧
      ∀ p i, MayLock s p i → (s.node i).type ≠ .free) := by
  obtain ⟨s, run, directory, mem⟩ := image_run emptyDisk_consistent
    (fun s action => ParentsStay 8 s action ∧ HasRoom s action) (mkdirA ++ mkdirAB)
    (fun s => (s.node 3).type = .dir ∧ ⟨2, dotdot⟩ ∈ (s.node 3).slots)
    (by decide +kernel)
  exact ⟨s, run, ⟨directory, mem, by decide⟩, entries_never_dangle 8 _ s run⟩

/-- A process in `/a/b` removes it and `/a`, and opens `..`. -/
def openRemoved : List FsAction :=
  mkdirA ++ mkdirAB ++ callSteps FsTree.initProc .chdir pathAB 8 0 ++
    callSteps FsTree.initProc .unlink pathAB 7 0 ++ callSteps FsTree.initProc .unlink pathA 6 0 ++
    callSteps FsTree.initProc (.opens false) Dirent.dotdot 3 0

/-- The current directory of a process has an entry for a freed inode, which the process is about
to lock. -/
theorem entry_dangles : ∃ s, (fsSystem 8).Exec openRemoved s ∧ ∃ p d de,
    s.cwd p = some d ∧ HasEntry s.node d de ∧ (s.node de.inum).type = .free ∧
    s.valid de.inum = false ∧ MayLock s p de.inum := by
  obtain ⟨s, run, current, directory, mem, free, invalid, here⟩ :=
    image_run emptyDisk_consistent (fun _ _ => True) openRemoved
    (fun s => s.cwd initProc = some 3 ∧ (s.node 3).type = .dir ∧
      ⟨2, dotdot⟩ ∈ (s.node 3).slots ∧ (s.node 2).type = .free ∧ s.valid 2 = false ∧
      s.place initProc = .target (.opens false) 2) (by decide +kernel)
  refine ⟨s, run.unrestrict, initProc, 3, ⟨2, dotdot⟩, current,
    ⟨directory, mem, by decide⟩, free, invalid, ?_⟩
  rw [MayLock, here]

end Entries

section Tree

/-- If no directory goes that the `..` of another names, and no link count overflows, the
directories form a tree in every state of every interleaving. -/
theorem directories_form_tree (n : ℕ) (trace : List FsAction) (s : FsTree)
    (run : (orderlyFs n).Exec trace s) : TreeShaped s.node :=
  (orderly_inv run).disk.treeShaped

/-- The second is in the first, and both are in the tree. -/
theorem directories_form_tree_mkdir : ∃ s, (orderlyFs 8).Exec (mkdirA ++ mkdirAB) s ∧
    FromRoot s.node 3 ∧ TreeShaped s.node := by
  obtain ⟨s, run, root, one, above, two, directory⟩ := image_run emptyDisk_consistent
    (fun s action => ParentsStay 8 s action ∧ HasRoom s action) (mkdirA ++ mkdirAB)
    (fun s => (s.node ROOTINO).type = .dir ∧ ⟨2, [97]⟩ ∈ (s.node ROOTINO).slots ∧
      (s.node 2).type = .dir ∧ ⟨3, [98]⟩ ∈ (s.node 2).slots ∧ (s.node 3).type = .dir)
    (by decide +kernel)
  have first : FromRoot s.node 2 := FromRoot.root.entry ⟨root, one, by decide⟩ above
  exact ⟨s, run, first.entry ⟨above, two, by decide⟩ directory, directories_form_tree 8 _ s run⟩

/-- A second process. -/
def otherProc : Fin NPROC := ⟨1, by decide⟩

/-- A process is on its way along `/a/b/../x` when `/a/b` and `/a` are removed, and follows `..` to
the inode that `mkdir /q` has just allocated. -/
def followStale : List FsAction :=
  mkdirA ++ mkdirAB ++ [.fork FsTree.initProc otherProc] ++
    callSteps otherProc (.create .file) [47, 97, 47, 98, 47, 46, 46, 47, 120] 4 0 ++
    callSteps FsTree.initProc .unlink pathAB 7 0 ++ callSteps FsTree.initProc .unlink pathA 6 0 ++
    callSteps FsTree.initProc (.create .dir) [47, 113] 3 2 ++
    List.replicate 9 (.advance otherProc { inum := 3 }) ++
    List.replicate 4 (.advance FsTree.initProc {})

/-- The first entry of a directory that can be reached from the root is not `.`. -/
theorem tree_broken : ∃ s, (fsSystem 8).Exec followStale s ∧ ¬TreeShaped s.node := by
  obtain ⟨s, run, root, mem, directory, first⟩ := image_run emptyDisk_consistent
    (fun _ _ => True) followStale
    (fun s => (s.node ROOTINO).type = .dir ∧ mk 2 [113] ∈ (s.node ROOTINO).slots ∧
      (s.node 2).type = .dir ∧ (s.node 2).slots[0]? = some (mk 3 [120]))
    (by decide +kernel)
  refine ⟨s, run.unrestrict, fun tree => ?_⟩
  have reached : FromRoot s.node 2 := FromRoot.root.entry ⟨root, mem, by decide⟩ directory
  obtain ⟨d, k, -, -, dot, -⟩ := tree.named 2 reached (by decide)
  rw [first] at dot
  exact absurd dot (by decide)

end Tree

section Links

/-- If no directory goes that the `..` of another names, no link count overflows, and no directory
without links gets a name, then between calls every link count is the number of entries that it
counts, and every inode with links has a name or a `..` in a directory with links. -/
theorem link_counts_exact (n : ℕ) (trace : List FsAction) (s : FsTree)
    (run : (linkedFs n).Exec trace s) (idle : ∀ p, s.place p = .idle) :
    LinksExact n s.node ∧ ∀ i, (s.node i).type ≠ .free → 0 < (s.node i).nlink.toInt →
      ∃ d de, HasEntry s.node d de ∧ 0 < (s.node d).nlink.toInt ∧ de.name ≠ Dirent.dot ∧
        de.inum = i := by
  obtain ⟨inv, linked, -⟩ := linked_inv run
  have disk := inv.disk
  rw [pending_idle idle] at disk linked
  have exact := linked_exact disk linked
  refine ⟨exact, fun i allocated links => ?_⟩
  rw [exact i allocated] at links
  have positive : liveLinks n s.node i ≠ 0 := by
    have cast : 0 < liveLinks n s.node i := by exact_mod_cast links
    exact cast.ne'
  obtain ⟨d, -, some⟩ := Finset.exists_ne_zero_of_sum_ne_zero positive
  obtain ⟨live, counted⟩ := ite_ne_right_iff.mp some
  obtain ⟨de, mem, hit⟩ := countP_pos_iff.mp (Nat.pos_of_ne_zero counted)
  simp only [ne_eq, decide_not, Bool.and_eq_true, Bool.not_eq_true', decide_eq_false_iff_not,
    decide_eq_true_eq] at hit
  exact ⟨d, de, ⟨live.1, mem, hit.1.1⟩, live.2, hit.2, hit.1.2⟩

/-- The first has two links then. -/
theorem link_counts_exact_mkdir : ∃ s, (linkedFs 8).Exec (mkdirA ++ mkdirAB) s ∧
    (∀ p, s.place p = .idle) ∧ (s.node 2).nlink = 2 ∧
    (LinksExact 8 s.node ∧ ∀ i, (s.node i).type ≠ .free → 0 < (s.node i).nlink.toInt →
      ∃ d de, HasEntry s.node d de ∧ 0 < (s.node d).nlink.toInt ∧ de.name ≠ Dirent.dot ∧
        de.inum = i) := by
  obtain ⟨s, run, idle, counted⟩ := image_run emptyDisk_consistent
    (fun s action => ParentsStay 8 s action ∧ HasRoom s action ∧ NamesLinked s action)
    (mkdirA ++ mkdirAB) (fun s => (∀ p, s.place p = .idle) ∧ (s.node 2).nlink = 2)
    (by decide +kernel)
  exact ⟨s, run, idle, counted, link_counts_exact 8 _ s run idle⟩

/-- A process in `/a` removes it and creates `x` in it. -/
def createInRemoved : List FsAction :=
  mkdirA ++ callSteps FsTree.initProc .chdir pathA 6 0 ++
    callSteps FsTree.initProc .unlink pathA 5 0 ++
    callSteps FsTree.initProc (.create .file) [120] 6 3

/-- A file has a link, and its only name is in a directory without links. -/
theorem link_count_wrong : ∃ s, (orderlyFs 8).Exec createInRemoved s ∧
    (∀ p, s.place p = .idle) ∧ ¬LinksExact 8 s.node := by
  obtain ⟨s, run, idle, file, differ⟩ := image_run emptyDisk_consistent
    (fun s action => ParentsStay 8 s action ∧ HasRoom s action) createInRemoved
    (fun s => (∀ p, s.place p = .idle) ∧ (s.node 3).type = .file ∧
      (s.node 3).nlink.toInt ≠ liveLinks 8 s.node 3) (by decide +kernel)
  exact ⟨s, run, idle, fun exact => differ (exact 3 (by rw [file]; exact nofun))⟩

end Links

section Overflow

/-- If no directory goes that the `..` of another names, none without links gets a name, and no link
count of 32767 is to be incremented, then between calls every link count is the number of entries
that it counts, no link count is ever negative, and `unlink` finds at least one link. -/
theorem link_counts_fit (n : ℕ) (trace : List FsAction) (s : FsTree)
    (run : (linkedFs n).Exec trace s) :
    ((∀ p, s.place p = .idle) → LinksExact n s.node) ∧
      (∀ i, (s.node i).type ≠ .free → 0 ≤ (s.node i).nlink.toInt) ∧
      ∀ p dp name ip, s.place p = .parent .unlink dp name → name ≠ Dirent.dot →
        name ≠ Dirent.dotdot → (s.node dp).type = .dir →
        dirlookup (s.node dp).slots name = some ip → 1 ≤ (s.node ip).nlink.toInt := by
  obtain ⟨inv, linked, -⟩ := linked_inv run
  constructor
  · intro idle
    have disk := inv.disk
    rw [pending_idle idle] at disk linked
    exact linked_exact disk linked
  constructor
  · exact fun i used => toInt_nonneg.mpr (inv.disk.small i used)
  · intro p dp name ip _ one two directory found
    obtain ⟨-, -, mem, used, rfl⟩ := dirlookup_some found
    have entry : HasEntry s.node dp ⟨ip, name⟩ := ⟨directory, mem, used⟩
    have allocated := (inv.disk.targets dp _ entry).1
    have counted := inv.disk.counts ip allocated
    have positive := total_pos entry (plain_iff.mpr ⟨one, two⟩) (inv.disk.inside_dir directory)
    have small := inv.disk.small ip allocated
    rw [owed] at counted
    dsimp only at positive
    rw [BitVec.toInt_eq_toNat_cond, if_pos (by omega)]
    omega

/-- The counts are small. -/
theorem link_counts_fit_mkdir : ∃ s, (linkedFs 8).Exec (mkdirA ++ mkdirAB) s ∧
    (∀ p, s.place p = .idle) ∧ (s.node 2).nlink = 2 ∧
    (((∀ p, s.place p = .idle) → LinksExact 8 s.node) ∧
      (∀ i, (s.node i).type ≠ .free → 0 ≤ (s.node i).nlink.toInt) ∧
      ∀ p dp name ip, s.place p = .parent .unlink dp name → name ≠ Dirent.dot →
        name ≠ Dirent.dotdot → (s.node dp).type = .dir →
        dirlookup (s.node dp).slots name = some ip → 1 ≤ (s.node ip).nlink.toInt) := by
  obtain ⟨s, run, idle, counted⟩ := image_run emptyDisk_consistent
    (fun s action => ParentsStay 8 s action ∧ HasRoom s action ∧ NamesLinked s action)
    (mkdirA ++ mkdirAB) (fun s => (∀ p, s.place p = .idle) ∧ (s.node 2).nlink = 2)
    (by decide +kernel)
  exact ⟨s, run, idle, counted, link_counts_fit 8 _ s run⟩

/-- Names of three bytes. -/
def linkName (k : ℕ) : Path := [97, .ofNat (100 + k / 128), .ofNat (100 + k % 128)]

/-- Entries for inode 4. -/
def linkEntries : ℕ → List Dirent
  | 0 => []
  | k + 1 => ⟨4, linkName k⟩ :: linkEntries k

/-- A directory in the root, with names for inode 4. -/
def crowdedDir (d k : ℕ) : Node :=
  ⟨.dir, 0, 0, 1, ⟨d, Dirent.dot⟩ :: ⟨ROOTINO, Dirent.dotdot⟩ :: linkEntries k⟩

/-- A file with 32767 links, in the directories `/a` and `/b`. -/
def crowdedDisk : Nodes
  | 1 => ⟨.dir, 0, 0, 3, [⟨1, Dirent.dot⟩, ⟨1, Dirent.dotdot⟩, ⟨2, [97]⟩, ⟨3, [98]⟩]⟩
  | 2 => crowdedDir 2 16384
  | 3 => crowdedDir 3 16383
  | 4 => ⟨.file, 0, 0, 0x7fff, []⟩
  | _ => .zero

/-- The names differ. -/
theorem linkName_inj {j : ℕ} (small : j < 2 ^ 14) (small' : k < 2 ^ 14)
    (same : linkName j = linkName k) : j = k := by
  simp only [linkName, List.cons.injEq, true_and, and_true] at same
  have first := congrArg UInt8.toNat same.1
  have second := congrArg UInt8.toNat same.2
  simp only [UInt8.toNat_ofNat'] at first second
  omega

/-- They all name inode 4. -/
theorem linkEntries_mem (mem : de ∈ linkEntries k) : ∃ j < k, de = ⟨4, linkName j⟩ := by
  induction k with
  | zero => contradiction
  | succ k ih =>
    rcases mem_cons.mp mem with here | later
    · exact ⟨k, Nat.lt_succ_self k, here⟩
    · obtain ⟨j, before, found⟩ := ih later
      exact ⟨j, Nat.lt_succ_of_lt before, found⟩

/-- There are as many as asked for. -/
theorem linkEntries_count (i k : ℕ) : ((linkEntries k).countP fun de =>
    de.inum ≠ 0 && de.inum = i && de.name ≠ dot) = if i = 4 then k else 0 := by
  induction k with
  | zero => simp [linkEntries]
  | succ k ih =>
    rw [linkEntries, countP_cons, ih]
    by_cases hit : i = 4
    · simp [hit, linkName, dot]
    · simp [hit, Ne.symm hit]

/-- No name is there twice. -/
theorem linkEntries_distinct (small : k ≤ 2 ^ 14) : (linkEntries k).Pairwise fun a b =>
    a.inum ≠ 0 → b.inum ≠ 0 → a.name ≠ b.name := by
  induction k with
  | zero => exact .nil
  | succ k ih =>
    rw [linkEntries, pairwise_cons]
    refine ⟨fun de later _ _ same => ?_, ih (by omega)⟩
    obtain ⟨j, before, rfl⟩ := linkEntries_mem later
    have equal := linkName_inj (by omega) (by omega) same
    omega

/-- What is in the directory. -/
theorem crowdedDir_mem (mem : de ∈ (crowdedDir d k).slots) :
    de = ⟨d, dot⟩ ∨ de = ⟨ROOTINO, dotdot⟩ ∨ ∃ j, de = ⟨4, linkName j⟩ := by
  simp only [crowdedDir, mem_cons] at mem
  refine mem.imp_right (Or.imp_right fun later => ?_)
  obtain ⟨j, -, found⟩ := linkEntries_mem later
  exact ⟨j, found⟩

/-- No name is in it twice. -/
theorem crowdedDir_distinct (small : k ≤ 2 ^ 14) :
    (crowdedDir d k).slots.Pairwise fun a b => a.inum ≠ 0 → b.inum ≠ 0 → a.name ≠ b.name := by
  rw [crowdedDir, pairwise_cons, pairwise_cons]
  refine ⟨fun de later _ _ same => ?_, fun de later _ _ same => ?_, linkEntries_distinct small⟩
  · rcases mem_cons.mp later with rfl | later
    · cases congrArg List.length same
    · obtain ⟨j, -, rfl⟩ := linkEntries_mem later
      cases congrArg List.length same
  · obtain ⟨j, -, rfl⟩ := linkEntries_mem later
    cases congrArg List.length same

/-- Four inodes are in use. -/
theorem crowdedDisk_used (allocated : (crowdedDisk i).type ≠ .free) :
    i = 1 ∨ i = 2 ∨ i = 3 ∨ i = 4 := by
  match i with
  | 1 | 2 | 3 | 4 => decide
  | 0 | _ + 5 => exact absurd rfl allocated

/-- Three of them are directories. -/
theorem crowdedDisk_dir (directory : (crowdedDisk d).type = .dir) : d = 1 ∨ d = 2 ∨ d = 3 := by
  rcases crowdedDisk_used (by rw [directory]; exact nofun) with rfl | rfl | rfl | rfl
  · decide
  · decide
  · decide
  · contradiction

/-- Every entry of the disk. -/
theorem crowdedDisk_entry (entry : HasEntry crowdedDisk d de) :
    (d = 1 ∧ de ∈ (crowdedDisk 1).slots) ∨
      ((d = 2 ∨ d = 3) ∧ (de = ⟨d, dot⟩ ∨ de = ⟨1, dotdot⟩ ∨
        ∃ j, de = ⟨4, linkName j⟩)) := by
  obtain ⟨directory, mem, -⟩ := entry
  rcases crowdedDisk_dir directory with rfl | rfl | rfl
  · exact .inl ⟨rfl, mem⟩
  · exact .inr ⟨.inl rfl, crowdedDir_mem mem⟩
  · exact .inr ⟨.inr rfl, crowdedDir_mem mem⟩

/-- The names of inodes other than 4 are in the root, at the index that is their number. -/
theorem crowdedDisk_named {x : ℕ} (named : NamedAt crowdedDisk x d k) (other : x ≠ 4) :
    d = 1 ∧ k = x ∧ (x = 2 ∨ x = 3) := by
  obtain ⟨-, de, entry, found, proper, rfl⟩ := named
  rcases crowdedDisk_entry entry with ⟨rfl, -⟩ | ⟨-, rfl | rfl | ⟨j, rfl⟩⟩
  · match k with
    | 0 | 1 =>
      cases found
      exact absurd proper (by decide)
    | 2 | 3 =>
      cases found
      decide
    | _ + 4 => cases found
  · exact absurd proper (plain_iff.not.mpr fun both => both.1 rfl)
  · exact absurd proper (by decide)
  · exact absurd rfl other

/-- The link counts are exact. -/
theorem crowdedDisk_counts (allocated : (crowdedDisk i).type ≠ .free) :
    (crowdedDisk i).nlink.toInt = liveLinks 8 crowdedDisk i := by
  have counted : ∀ d k, ((crowdedDir d k).slots.countP fun de =>
      de.inum ≠ 0 && de.inum = i && de.name ≠ dot) =
        (if i = 4 then k else 0) + if 1 = i then 1 else 0 := by
    intro d k
    rw [crowdedDir, countP_cons, countP_cons, linkEntries_count]
    simp [dotdot, dot]
  have sum : liveLinks 8 crowdedDisk i =
      ((crowdedDisk 1).slots.countP fun de =>
        de.inum ≠ 0 && de.inum = i && de.name ≠ dot) +
      (((if i = 4 then 16384 else 0) + if 1 = i then 1 else 0) +
        ((if i = 4 then 16383 else 0) + if 1 = i then 1 else 0)) := by
    rw [← counted 2, ← counted 3, liveLinks]
    simp only [Finset.sum_range_succ, Finset.sum_range_zero]
    rw [if_neg (by decide), if_pos (by decide), if_pos (by decide), if_pos (by decide),
      if_neg (by decide), if_neg (by decide), if_neg (by decide), if_neg (by decide)]
    simp only [zero_add, add_zero, add_assoc]
    rfl
  rw [sum]
  rcases crowdedDisk_used allocated with rfl | rfl | rfl | rfl
  · decide
  · decide
  · decide
  · decide

/-- It is a consistent image. -/
theorem crowdedDisk_consistent : Consistent 8 crowdedDisk := by
  have top : FromRoot crowdedDisk 1 := .root
  have two : HasEntry crowdedDisk 1 ⟨2, [97]⟩ := ⟨rfl, by decide, by decide⟩
  have three : HasEntry crowdedDisk 1 ⟨3, [98]⟩ := ⟨rfl, by decide, by decide⟩
  have first : NamedAt crowdedDisk 2 1 2 := ⟨top, _, two, rfl, by decide, rfl⟩
  have second : NamedAt crowdedDisk 3 1 3 := ⟨top, _, three, rfl, by decide, rfl⟩
  constructor
  · decide
  · intro i allocated
    have known := crowdedDisk_used allocated
    omega
  · exact ⟨rfl, rfl, rfl, by decide⟩
  · intro d k named
    exact absurd (crowdedDisk_named named (by decide)).2.2 (by decide)
  · intro d de entry
    rcases crowdedDisk_entry entry with ⟨-, mem⟩ | ⟨rfl | rfl, rfl | rfl | ⟨j, rfl⟩⟩
    · have used : ∀ de ∈ (crowdedDisk 1).slots, (crowdedDisk de.inum).type ≠ .free := by decide
      exact used de mem
    all_goals exact nofun
  · constructor
    · intro x reached other
      have directory : (crowdedDisk x).type = .dir := by
        cases reached with
        | root => rfl
        | entry _ _ directory => exact directory
      rcases crowdedDisk_dir directory with rfl | rfl | rfl
      · exact absurd rfl other
      · exact ⟨1, 2, first, fun d k named => ⟨(crowdedDisk_named named (by decide)).1,
          (crowdedDisk_named named (by decide)).2.1⟩, rfl, rfl⟩
      · exact ⟨1, 3, second, fun d k named => ⟨(crowdedDisk_named named (by decide)).1,
          (crowdedDisk_named named (by decide)).2.1⟩, rfl, rfl⟩
    · intro d directory
      rcases crowdedDisk_dir directory with rfl | rfl | rfl
      · decide
      · exact crowdedDir_distinct (by decide)
      · exact crowdedDir_distinct (by decide)
  · intro i allocated other
    rcases crowdedDisk_used allocated with rfl | rfl | rfl | rfl
    · exact absurd rfl other
    · exact ⟨1, 2, first⟩
    · exact ⟨1, 3, second⟩
    · exact ⟨2, 2, top.entry two rfl, ⟨4, linkName 16383⟩,
        ⟨rfl, mem_of_getElem? (i := 2) rfl, by decide⟩, rfl, rfl, rfl⟩
  · exact fun i => crowdedDisk_counts

/-- `link` gives the file with 32767 links the name `/x`, and `unlink` is to remove it. -/
def linkOnce : List FsAction :=
  callSteps FsTree.initProc (.linkOld [47, 120]) ([47, 97, 47] ++ linkName 16383) 11 0 ++
    callSteps FsTree.initProc .unlink [47, 120] 1 0

/-- The link count has become negative, and `unlink` panics. -/
theorem link_count_wraps : ∃ s, (fsSystem 8).Exec linkOnce s ∧ ∃ p,
    s.place p = .parent .unlink ROOTINO [120] ∧ (s.node ROOTINO).type = .dir ∧
    dirlookup (s.node ROOTINO).slots [120] = some 4 ∧ (s.node 4).type = .file ∧
    (s.node 4).nlink.toInt = -2 ^ 15 ∧ s.next 8 (.advance p {}) = none := by
  obtain ⟨s, run, here, directory, found, file, count, panics⟩ := image_run crowdedDisk_consistent
    (fun _ _ => True) linkOnce
    (fun s => s.place initProc = .parent .unlink ROOTINO [120] ∧
      (s.node ROOTINO).type = .dir ∧ dirlookup (s.node ROOTINO).slots [120] = some 4 ∧
      (s.node 4).type = .file ∧ (s.node 4).nlink.toInt = -2 ^ 15 ∧
      (s.next 8 (.advance initProc {})).isNone) (by decide +kernel)
  exact ⟨s, run.unrestrict, initProc, here, directory, found, file, count,
    Option.isNone_iff_eq_none.mp panics⟩

end Overflow

section Crash

/-- After a crash and recovery every inode in use has a name that can be reached exactly if the
last commit left no inode in use without links, in every run in which no directory goes that the
`..` of another names, no link count overflows, and no directory without links gets a name. -/
theorem crash_leaks_unlinked (n : ℕ) (trace : List FsAction) (s t : FsTree)
    (run : (linkedFs n).Exec trace s) (crashed : s.next n .crash = some t) :
    NoneLeaked t.node ↔ ∀ i, (s.committed i).type ≠ .free → (s.committed i).nlink ≠ 0 := by
  obtain ⟨inv, -, linked⟩ := linked_inv run
  cases crashed
  exact noneLeaked_iff inv.saved linked

/-- Both survive a crash. -/
theorem crash_leaks_unlinked_mkdir : ∃ s t, (linkedFs 8).Exec (mkdirA ++ mkdirAB) s ∧
    s.next 8 .crash = some t ∧ (t.node 3).type = .dir ∧
    (NoneLeaked t.node ↔ ∀ i, (s.committed i).type ≠ .free → (s.committed i).nlink ≠ 0) := by
  obtain ⟨s, run, checked⟩ := image_run emptyDisk_consistent
    (fun s action => ParentsStay 8 s action ∧ HasRoom s action ∧ NamesLinked s action)
    (mkdirA ++ mkdirAB) (fun s => (s.committed 3).type = .dir) (by decide +kernel)
  exact ⟨s, .boot s.committed, run, rfl, checked,
    crash_leaks_unlinked 8 _ s _ run rfl⟩

/-- `open` creates `/a`, which is then removed; the file is still open when the system stops. -/
def crashOpen : List FsAction :=
  callSteps FsTree.initProc (.create .file) pathA 6 2 ++
    callSteps FsTree.initProc .unlink pathA 5 0 ++ [.crash]

/-- An inode in use has no name after recovery. -/
theorem crash_leaks : ∃ s, (linkedFs 8).Exec crashOpen s ∧ ¬NoneLeaked s.node := by
  obtain ⟨s, run, file, unlinked, idle⟩ := image_run emptyDisk_consistent
    (fun s action => ParentsStay 8 s action ∧ HasRoom s action ∧ NamesLinked s action)
    crashOpen (fun s => (s.node 2).type = .file ∧ (s.node 2).nlink = 0 ∧
      ∀ p, s.place p = .idle) (by decide +kernel)
  obtain ⟨inv, linked, -⟩ := linked_inv run
  have disk := inv.disk
  rw [pending_idle idle] at disk linked
  refine ⟨s, run, fun none => ?_⟩
  exact (noneLeaked_iff disk linked).mp none 2 (by rw [file]; exact nofun) unlinked

end Crash

end Xv6Cos.Verif
