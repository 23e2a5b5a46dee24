import Xv6Cos.Verif.DirTree
import Mathlib.Data.Fintype.BigOperators

/-!
# What the processes hold while they walk and change directories

The invariant of the whole system: the inodes with the pending links of the processes, the counts
of the references that the processes hold, and what those references may be to. A step changes the
place of one process and the inodes that it may touch.
-/

namespace Xv6Cos.Verif

open Kernel Spec Finset List

variable {new : NewNode} {dp ip i d : ℕ} {place : FsPlace} {de : Dirent}

/-- The reference that a call keeps while it looks up a path. -/
def callRefs : FsCall → List ℕ
  | .linkNew ip => [ip]
  | _ => []

/-- The references that a process holds. -/
def placeRefs : FsPlace → List ℕ
  | .idle | .finish => []
  | .walk call ip _ | .parent call ip _ | .target call ip => ip :: callRefs call
  | .alloc _ dp _ _ => [dp]
  | .fill _ dp _ ip => [dp, ip]
  | .undo ip => [ip]
  | .drop ip next | .release ip next => ip :: placeRefs next

/-- The inodes that a process may still lock, change or put. -/
def placeKeeps : FsPlace → List ℕ
  | .idle | .finish => []
  | .walk call ip _ | .parent call ip _ | .target call ip => ip :: callRefs call
  | .alloc _ dp _ ip | .fill _ dp _ ip => [dp, ip]
  | .undo ip => [ip]
  | .drop ip next => ip :: placeKeeps next
  | .release _ next => placeKeeps next

/-- The inodes that a process may still lock, but for one that it is making. -/
def placeHandles : FsPlace → List ℕ
  | .idle | .finish => []
  | .walk call ip _ | .parent call ip _ | .target call ip => ip :: callRefs call
  | .alloc _ dp _ _ | .fill _ dp _ _ => [dp]
  | .undo ip => [ip]
  | .drop _ next | .release _ next => placeHandles next

/-- The pending links of a process to an inode. -/
def placePend (i : ℕ) : FsPlace → ℕ
  | .walk call _ _ | .parent call _ _ | .target call _ => (callRefs call).count i
  | .undo ip => if ip = i then 1 else 0
  | .drop _ next | .release _ next => placePend i next
  | _ => 0

/-- The inode that a process is making, and the directory that it is for. -/
def placeMaking : FsPlace → Option (NewNode × ℕ × ℕ)
  | .alloc new dp _ ip | .fill new dp _ ip => some (new, dp, ip)
  | .drop _ next | .release _ next => placeMaking next
  | _ => none

/-- Is the process about to put an inode? -/
def placeDrops : FsPlace → Bool
  | .drop _ _ | .release _ _ => true
  | _ => false

/-- The references of a process, its current directory included. -/
def procRefs (s : FsTree) (p : Fin NPROC) : List ℕ := placeRefs (s.place p) ++ (s.cwd p).toList

def procKeeps (s : FsTree) (p : Fin NPROC) : List ℕ := placeKeeps (s.place p) ++ (s.cwd p).toList

def procHandles (s : FsTree) (p : Fin NPROC) : List ℕ :=
  placeHandles (s.place p) ++ (s.cwd p).toList

/-- The pending links to an inode. -/
def pending (s : FsTree) (i : ℕ) : ℕ := ∑ p, placePend i (s.place p)

/-- The references to an inode. -/
def holders (s : FsTree) (i : ℕ) : ℕ := ∑ p, (procRefs s p).count i + s.files.count i

/-- The inode is one that another process is making. -/
def MadeElsewhere (s : FsTree) (p : Fin NPROC) (i : ℕ) : Prop :=
  ∃ q, q ≠ p ∧ ∃ new dp, placeMaking (s.place q) = some (new, dp, i)

/-- The inode as `ialloc` leaves it, for a directory. -/
structure Made (s : FsTree) (new : NewNode) (dp ip : ℕ) : Prop where
  type : (s.node ip).type = new.type
  nlink : (s.node ip).nlink = 0
  slots : (s.node ip).slots = []
  parent : (s.node dp).type = .dir

theorem Made.congr {s t : FsTree} (made : Made s new dp ip)
    (node : t.node ip = s.node ip) (parent : (t.node dp).type = (s.node dp).type) :
    Made t new dp ip := by
  obtain ⟨type, nlink, slots, directory⟩ := made
  rw [← node] at type nlink slots
  exact ⟨type, nlink, slots, parent.trans directory⟩

/-- The invariant of the system. -/
structure FsInv (n : ℕ) (s : FsTree) : Prop where
  disk : DiskInv n s.node (pending s)
  /-- What recovery finds is in order. -/
  saved : DiskInv n s.committed fun _ => 0
  counted : ∀ i, s.ref i = holders s i
  alive : ∀ p, ∀ i ∈ procKeeps s p, (s.node i).type ≠ .free
  opened : ∀ i ∈ s.files, (s.node i).type ≠ .free
  handled : ∀ p, ∀ i ∈ procHandles s p, Good s.node i
  /-- Pending links are not to directories. -/
  pended : ∀ p i, 0 < placePend i (s.place p) → (s.node i).type ≠ .free ∧ (s.node i).type ≠ .dir
  /-- Nobody else has an inode that a process is making. -/
  made : ∀ p new dp ip, placeMaking (s.place p) = some (new, dp, ip) → Made s new dp ip ∧
    (∀ q, q ≠ p → ip ∉ procKeeps s q) ∧ s.cwd p ≠ some ip ∧ ip ∉ s.files
  /-- A process that puts an inode is not making one. -/
  settled : ∀ p, placeDrops (s.place p) → placeMaking (s.place p) = none

section Places

/-- What a process may lock it may put. -/
theorem handles_subset (mem : i ∈ placeHandles place) : i ∈ placeKeeps place := by
  induction place with
  | idle | finish => contradiction
  | walk | parent | target | undo => exact mem
  | alloc new dp name ip | fill new dp name ip =>
    exact List.mem_cons.mpr (.inl (List.mem_singleton.mp mem))
  | drop ip next ih => exact mem_cons_of_mem _ (ih mem)
  | release ip next ih => exact ih mem

/-- A process may put an inode that it has a pending link to. -/
theorem pend_keeps (pends : 0 < placePend i place) : i ∈ placeKeeps place := by
  induction place with
  | idle | finish | alloc | fill => exact absurd pends (lt_irrefl 0)
  | walk call | parent call | target call =>
    exact mem_cons_of_mem _ (count_pos_iff.mp pends)
  | undo ip =>
    rw [placePend] at pends
    split at pends
    case isTrue same => exact List.mem_singleton.mpr same.symm
    case isFalse => contradiction
  | drop ip next ih => exact mem_cons_of_mem _ (ih pends)
  | release ip next ih => exact ih pends

/-- The directory that a process makes an inode for. -/
theorem making_handles (making : placeMaking place = some (new, dp, ip)) :
    dp ∈ placeHandles place ∧ ip ∈ placeKeeps place := by
  induction place with
  | alloc new' dp' name ip' | fill new' dp' name ip' =>
    cases making
    simp [placeHandles, placeKeeps]
  | drop i next ih => exact ⟨(ih making).1, mem_cons_of_mem _ (ih making).2⟩
  | release i next ih => exact ih making
  | _ => contradiction

/-- What a process may put it has a reference to, or is making. -/
theorem keeps_refs (mem : i ∈ placeKeeps place) :
    i ∈ placeRefs place ∨ ∃ new dp, placeMaking place = some (new, dp, i) := by
  induction place with
  | idle | finish => contradiction
  | walk | parent | target | undo | fill => exact .inl mem
  | alloc new dp name ip =>
    simp only [placeKeeps, List.mem_cons, List.not_mem_nil, or_false] at mem
    rcases mem with rfl | rfl
    · exact .inl mem_cons_self
    · exact .inr ⟨new, dp, rfl⟩
  | drop ip next ih =>
    rcases List.mem_cons.mp mem with rfl | mem
    · exact .inl mem_cons_self
    · rcases ih mem with held | making
      · exact .inl (mem_cons_of_mem _ held)
      · exact .inr making
  | release ip next ih =>
    rcases ih mem with held | making
    · exact .inl (mem_cons_of_mem _ held)
    · exact .inr making

end Places

section Frame

variable {n : ℕ} {s t : FsTree} {p : Fin NPROC}

/-- The pending links after one process has moved. -/
theorem pending_change (others : ∀ q, q ≠ p → t.place q = s.place q) (i : ℕ) :
    pending t i + placePend i (s.place p) = pending s i + placePend i (t.place p) := by
  apply Sums.sum_change (mem_univ p)
  intro q _ other
  rw [others q other]

/-- The pending links after one process has moved and kept its own. -/
theorem pending_same (others : ∀ q, q ≠ p → t.place q = s.place q)
    (pends : ∀ i, placePend i (t.place p) = placePend i (s.place p)) : pending t = pending s := by
  funext i
  have change := pending_change others i
  rw [pends i] at change
  omega

/-- The references after one process has moved. -/
theorem holders_change (others : ∀ q, q ≠ p → t.place q = s.place q ∧ t.cwd q = s.cwd q) (i : ℕ) :
    holders t i + (procRefs s p).count i + s.files.count i =
      holders s i + (procRefs t p).count i + t.files.count i := by
  have change := Sums.sum_change (f := fun q => (procRefs s q).count i)
    (g := fun q => (procRefs t q).count i) (mem_univ p) fun q _ other => by
      rw [procRefs, procRefs, (others q other).1, (others q other).2]
  rw [holders, holders]
  omega

section

variable (inv : FsInv n s)

include inv

/-- One process moves; at most one inode goes, which nobody else has, and the inodes that others
are making stay. -/
theorem FsInv.frame (p : Fin NPROC) (gone : ℕ)
    (disk : DiskInv n t.node (pending t)) (saved : DiskInv n t.committed fun _ => 0)
    (others : ∀ q, q ≠ p → t.place q = s.place q ∧ t.cwd q = s.cwd q)
    (refs : ∀ i, t.ref i + (procRefs s p).count i + s.files.count i =
      s.ref i + (procRefs t p).count i + t.files.count i)
    (nodes : ∀ i, MadeElsewhere s p i → t.node i = s.node i)
    (types : ∀ i, i ≠ gone → (s.node i).type ≠ .free → (t.node i).type = (s.node i).type)
    (good : ∀ i, i ≠ gone → Good s.node i → Good t.node i)
    (left : ∀ q, q ≠ p → gone ∉ procKeeps s q)
    (mine : ∀ i ∈ procKeeps t p, ¬MadeElsewhere s p i ∧ (t.node i).type ≠ .free)
    (handled : ∀ i ∈ procHandles t p, Good t.node i)
    (pended : ∀ i, 0 < placePend i (t.place p) →
      (t.node i).type ≠ .free ∧ (t.node i).type ≠ .dir)
    (made : ∀ new dp ip, placeMaking (t.place p) = some (new, dp, ip) → Made t new dp ip ∧
      (∀ q, q ≠ p → ip ∉ procKeeps s q) ∧ t.cwd p ≠ some ip ∧ ip ∉ t.files)
    (settled : placeDrops (t.place p) → placeMaking (t.place p) = none)
    (files : ∀ i ∈ t.files,
      (i ∈ s.files ∧ i ≠ gone) ∨ (¬MadeElsewhere s p i ∧ (t.node i).type ≠ .free)) :
    FsInv n t := by
  have keeps : ∀ q, q ≠ p → procKeeps t q = procKeeps s q := fun q other => by
    rw [procKeeps, procKeeps, (others q other).1, (others q other).2]
  have stays : ∀ q, q ≠ p → ∀ i ∈ procKeeps s q, (t.node i).type = (s.node i).type :=
    fun q other i mem =>
      types i (fun hit => left q other (hit ▸ mem)) (inv.alive q i mem)
  constructor
  · exact disk
  · exact saved
  · intro i
    have change := holders_change others i
    have before := inv.counted i
    have after := refs i
    omega
  · intro q i mem
    by_cases hit : q = p
    · exact (mine i (hit ▸ mem)).2
    · rw [keeps q hit] at mem
      rw [stays q hit i mem]
      exact inv.alive q i mem
  · intro i mem
    rcases files i mem with ⟨old, apart⟩ | ⟨-, allocated⟩
    · rw [types i apart (inv.opened i old)]
      exact inv.opened i old
    · exact allocated
  · intro q i mem
    by_cases hit : q = p
    · exact handled i (hit ▸ mem)
    · rw [procHandles, (others q hit).1, (others q hit).2] at mem
      have kept : i ∈ procKeeps s q := by
        rcases mem_append.mp mem with here | here
        · exact mem_append_left _ (handles_subset here)
        · exact mem_append_right _ here
      exact good i (fun same => left q hit (same ▸ kept)) (inv.handled q i mem)
  · intro q i pends
    by_cases hit : q = p
    · exact pended i (hit ▸ pends)
    · rw [(others q hit).1] at pends
      rw [stays q hit i (mem_append_left _ (pend_keeps pends))]
      exact inv.pended q i pends
  · intro q new dp ip making
    by_cases hit : q = p
    · subst hit
      obtain ⟨here, hidden, rest⟩ := made new dp ip making
      refine ⟨here, fun q' other => ?_, rest⟩
      rw [keeps q' other]
      exact hidden q' other
    · rw [(others q hit).1] at making
      have hides : MadeElsewhere s p ip := ⟨q, hit, new, dp, making⟩
      obtain ⟨before, hidden, cwd, closed⟩ := inv.made q new dp ip making
      have handle := (making_handles making).1
      have parent := stays q hit dp (mem_append_left _ (handles_subset handle))
      refine ⟨before.congr (nodes ip hides) parent, fun q' other mem => ?_, ?_, fun mem => ?_⟩
      · by_cases same : q' = p
        · exact (mine ip (same ▸ mem)).1 hides
        · rw [keeps q' same] at mem
          exact hidden q' other mem
      · rw [(others q hit).2]
        exact cwd
      · rcases files ip mem with ⟨old, -⟩ | ⟨visible, -⟩
        · exact closed old
        · exact visible hides
  · intro q drops
    by_cases hit : q = p
    · rw [hit] at drops ⊢
      exact settled drops
    · rw [(others q hit).1] at drops ⊢
      exact inv.settled q drops

/-- A process that holds an inode is not alone with it if another is making it. -/
theorem FsInv.visible (mem : i ∈ procKeeps s p) : ¬MadeElsewhere s p i := by
  rintro ⟨q, other, new, dp, making⟩
  exact (inv.made q new dp i making).2.1 p other.symm mem

/-- Nobody is making a free inode. -/
theorem FsInv.visible_free (free : (s.node i).type = .free) : ¬MadeElsewhere s p i := by
  rintro ⟨q, other, new, dp, making⟩
  have typed := (inv.made q new dp i making).1.type
  rw [free] at typed
  cases new <;> contradiction

/-- Nobody is making a directory that is complete. -/
theorem FsInv.visible_proper {parent : ℕ} (proper : Proper s.node i parent) :
    ¬MadeElsewhere s p i := by
  rintro ⟨q, other, new, dp, making⟩
  exact proper.ne_nil (inv.made q new dp i making).1.slots

/-- No entry names a new inode. -/
theorem FsInv.new_unnamed
    (made : Made s new dp ip) (entry : HasEntry s.node d de) : de.inum ≠ ip := by
  obtain ⟨parent, proper⟩ := inv.disk.proper_of_entry entry
  rcases proper.entry entry with rfl | rfl | named
  · rintro rfl
    exact proper.ne_nil made.slots
  · rintro rfl
    have directory := inv.disk.parents d parent proper
    obtain ⟨above, complete⟩ := (inv.disk.targets d _ entry).2 directory
    exact complete.ne_nil made.slots
  · exact inv.disk.no_name made.nlink entry named

/-- Nobody is making an inode that an entry names. -/
theorem FsInv.visible_entry (entry : HasEntry s.node d de) : ¬MadeElsewhere s p de.inum := by
  rintro ⟨q, other, new, dp, making⟩
  exact inv.new_unnamed (inv.made q new dp _ making).1 entry rfl

/-- Inode zero is not in use. -/
theorem FsInv.zero_unused (q : Fin NPROC) : 0 ∉ procKeeps s q := fun mem =>
  absurd (inv.disk.range 0 (inv.alive q 0 mem)).1 (lt_irrefl 0)

theorem FsInv.file_ne_zero (mem : i ∈ s.files) : i ≠ 0 :=
  (inv.disk.range i (inv.opened i mem)).1.ne'

/-- One process moves and no inode changes. -/
theorem FsInv.quiet (p : Fin NPROC) (nodes : t.node = s.node)
    (saved : DiskInv n t.committed fun _ => 0)
    (others : ∀ q, q ≠ p → t.place q = s.place q ∧ t.cwd q = s.cwd q)
    (refs : ∀ i, t.ref i + (procRefs s p).count i + s.files.count i =
      s.ref i + (procRefs t p).count i + t.files.count i)
    (mine : ∀ i ∈ procKeeps t p,
      i ∈ procKeeps s p ∨ (¬MadeElsewhere s p i ∧ (s.node i).type ≠ .free))
    (handled : ∀ i ∈ procHandles t p, i ∈ procHandles s p ∨ Good s.node i)
    (pends : ∀ i, placePend i (t.place p) = placePend i (s.place p))
    (making : placeMaking (t.place p) = none ∨ (placeMaking (t.place p) = placeMaking (s.place p) ∧
      t.cwd p = s.cwd p ∧ t.files = s.files ∧ ¬placeDrops (t.place p)))
    (files : ∀ i ∈ t.files, i ∈ s.files ∨ i ∈ procKeeps s p) : FsInv n t := by
  have same := pending_same (fun q other => (others q other).1) pends
  apply inv.frame p 0
  · rw [nodes, same]
    exact inv.disk
  · exact saved
  · exact others
  · exact refs
  · exact fun i _ => by rw [nodes]
  · exact fun i _ _ => by rw [nodes]
  · exact fun i _ before => by rwa [nodes]
  · exact fun q _ => inv.zero_unused q
  · intro i mem
    rw [nodes]
    rcases mine i mem with old | fresh
    · exact ⟨inv.visible old, inv.alive p i old⟩
    · exact fresh
  · intro i mem
    rw [nodes]
    rcases handled i mem with old | good
    · exact inv.handled p i old
    · exact good
  · intro i positive
    rw [nodes]
    rw [pends i] at positive
    exact inv.pended p i positive
  · intro new dp ip made
    rcases making with none | ⟨kept, cwd, opened, -⟩
    · rw [none] at made
      contradiction
    · rw [kept] at made
      obtain ⟨before, hidden, apart, closed⟩ := inv.made p new dp ip made
      exact ⟨before.congr (by rw [nodes]) (by rw [nodes]), hidden, cwd ▸ apart, opened ▸ closed⟩
  · intro drops
    rcases making with none | ⟨-, -, -, holds⟩
    · exact none
    · exact absurd drops holds
  · intro i mem
    rw [nodes]
    rcases files i mem with old | kept
    · exact .inl ⟨old, inv.file_ne_zero old⟩
    · exact .inr ⟨inv.visible kept, inv.alive p i kept⟩

end

end Frame

end Xv6Cos.Verif
