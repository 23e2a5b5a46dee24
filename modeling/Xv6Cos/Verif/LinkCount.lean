import Xv6Cos.Verif.DirChange
import Mathlib.Algebra.BigOperators.Group.Finset.Piecewise

/-!
# Link counts as numbers of entries

The entries that a link count is about are the names of the inode and the `..` of the directories
in it. A directory that has links has one `..`, and one name unless it is the root; so the `..` that
name a directory are as many as the directories in it, and one more for the root.
-/

namespace Xv6Cos.Verif

open Kernel Spec Finset Dirent

variable {d parent i : ℕ}

/-- The directory has links. -/
def Live (nodes : Nodes) (d : ℕ) : Prop := (nodes d).type = .dir ∧ 0 < (nodes d).nlink.toInt

/-- The directories with links have one name each, but for the root, and the others none. -/
structure Rooted (n : ℕ) (nodes : Nodes) : Prop where
  range : ∀ i, (nodes i).type ≠ .free → 0 < i ∧ i < n
  root : Proper nodes ROOTINO ROOTINO ∧ Live nodes ROOTINO
  unnamed : ∀ d, names nodes d ROOTINO = 0
  proper : ∀ d, Live nodes d → ∃ parent, Proper nodes d parent
  parents : ∀ d parent, Proper nodes d parent → (nodes parent).type = .dir
  dead : ∀ d, (nodes d).type = .dir → ¬Live nodes d → Bare nodes d ∧ ∀ e, names nodes e d = 0
  once : ∀ x parent, Live nodes x → x ≠ ROOTINO → Proper nodes x parent →
    ∀ d, names nodes d x = if d = parent then 1 else 0

section Counts

variable {n : ℕ} {nodes : Nodes}

/-- Number of entries of the directory, other than `.`, that name the inode. -/
def linksIn (nodes : Nodes) (d i : ℕ) : ℕ :=
  if (nodes d).type = .dir ∧ 0 < (nodes d).nlink.toInt then
    (nodes d).slots.countP fun de => de.inum ≠ 0 && de.inum = i && de.name ≠ Dirent.dot else 0

/-- Does the directory have links, and `..` name the inode? -/
def upLink (nodes : Nodes) (d i : ℕ) : ℕ :=
  if (nodes d).type = .dir ∧ 0 < (nodes d).nlink.toInt ∧
    (nodes d).slots[1]? = some ⟨i, Dirent.dotdot⟩ then 1 else 0

theorem Proper.second (proper : Proper nodes d parent) :
    (nodes d).slots[1]? = some ⟨i, dotdot⟩ ↔ parent = i := by
  obtain ⟨-, rest, slots, -⟩ := proper
  rw [slots]
  simp

/-- The entries of a directory with links. -/
theorem linksIn_live (rooted : Rooted n nodes) (live : Live nodes d)
    (proper : Proper nodes d parent) :
    linksIn nodes d i = names nodes d i + if parent = i then 1 else 0 := by
  have positive : parent ≠ 0 :=
    (rooted.range parent (by rw [rooted.parents d parent proper]; exact nofun)).1.ne'
  obtain ⟨isDir, rest, slots, others⟩ := proper
  have same : rest.countP (fun de => de.inum ≠ 0 && de.inum = i && de.name ≠ dot) =
      rest.countP (namesNode i) := by
    apply List.countP_congr
    intro de mem
    rw [namesNode_iff]
    constructor
    · intro meant
      simp only [ne_eq, decide_not, Bool.and_eq_true, Bool.not_eq_true', decide_eq_false_iff_not,
        decide_eq_true_eq] at meant
      exact ⟨meant.1.1, meant.1.2, others de mem meant.1.1⟩
    · rintro ⟨used, hit, named⟩
      simp [hit, (plain_iff.mp named).1]
      exact hit ▸ used
  rw [linksIn, if_pos ⟨isDir, live.2⟩, names, if_pos isDir, slots]
  simp only [List.countP_cons, same]
  have dotted : dotdot ≠ dot := by decide
  simp [namesNode, plain, positive, dotted]

/-- The entries of a directory, as names and `..`. -/
theorem linksIn_eq (rooted : Rooted n nodes) (d i : ℕ) :
    linksIn nodes d i = names nodes d i + upLink nodes d i := by
  by_cases live : Live nodes d
  · obtain ⟨parent, proper⟩ := rooted.proper d live
    rw [linksIn_live rooted live proper, upLink]
    simp only [live.1, live.2, proper.second, true_and]
  · have up : upLink nodes d i = 0 := if_neg fun both => live ⟨both.1, both.2.1⟩
    have none : names nodes d i = 0 := by
      by_cases isDir : (nodes d).type = .dir
      · exact (rooted.dead d isDir live).1.names_zero i
      · exact if_neg isDir
    rw [none, up]
    exact if_neg live

/-- A `..` that names the directory belongs to a directory in it, or to the root. -/
theorem upLink_eq (rooted : Rooted n nodes) (d i : ℕ) :
    upLink nodes d i = (if (nodes d).type = .dir then names nodes i d else 0) +
      if d = ROOTINO then (if i = ROOTINO then 1 else 0) else 0 := by
  by_cases isDir : (nodes d).type = .dir
  · rw [if_pos isDir]
    by_cases live : Live nodes d
    · obtain ⟨parent, proper⟩ := rooted.proper d live
      have up : upLink nodes d i = if parent = i then 1 else 0 := by
        rw [upLink]
        simp only [live.1, live.2, proper.second, true_and]
      by_cases root : d = ROOTINO
      · subst root
        obtain rfl := proper.parent_unique rooted.root.1
        rw [up, rooted.unnamed, if_pos rfl, zero_add]
        simp only [eq_comm]
      · rw [up, rooted.once d parent live root proper i, if_neg root, add_zero]
        simp only [eq_comm]
    · have root : d ≠ ROOTINO := by
        rintro rfl
        exact live rooted.root.2
      rw [(rooted.dead d isDir live).2 i, if_neg root]
      exact if_neg fun both => live ⟨both.1, both.2.1⟩
  · have root : d ≠ ROOTINO := by
      rintro rfl
      exact isDir rooted.root.2.1
    rw [if_neg isDir, if_neg root]
    exact if_neg fun both => isDir both.1

/-- The directories in a directory, one by one. -/
theorem subdirs_eq_sum (range : ∀ i, (nodes i).type ≠ .free → 0 < i ∧ i < n) (i : ℕ) :
    subdirs nodes i =
      ∑ d ∈ Finset.range n, if (nodes d).type = .dir then names nodes i d else 0 := by
  by_cases isDir : (nodes i).type = .dir
  · have classes : ∀ d, (if (nodes d).type = .dir then names nodes i d else 0) =
        (nodes i).slots.countP fun de => (nodes d).type = .dir && namesNode d de := by
      intro d
      by_cases directory : (nodes d).type = .dir
      · simp [directory, names, isDir]
      · simp [directory]
    simp only [classes, subdirs, if_pos isDir]
    apply Sums.countP_eq_sum
    intro de _
    split
    case isTrue meant =>
      obtain ⟨used, directory, named⟩ := namesDir_iff.mp meant
      have inside := (range de.inum (by simp [directory])).2
      rw [sum_eq_single_of_mem de.inum (mem_range.mpr inside)]
      · simp [directory, namesNode_iff, used, named]
      · intro d _ other
        simp [namesNode_iff, Ne.symm other]
    case isFalse meant =>
      symm
      apply sum_eq_zero
      intro d _
      refine if_neg fun both => meant ?_
      simp only [Bool.and_eq_true, decide_eq_true_eq] at both
      obtain ⟨used, rfl, named⟩ := namesNode_iff.mp both.2
      exact namesDir_iff.mpr ⟨used, both.1, named⟩
  · rw [subdirs, if_neg isDir]
    symm
    apply sum_eq_zero
    intro d _
    simp [names, isDir]

/-- The number of entries that a link count is about. -/
theorem liveLinks_eq (rooted : Rooted n nodes) (i : ℕ) :
    liveLinks n nodes i =
      total n nodes i + subdirs nodes i + if i = ROOTINO then 1 else 0 := by
  have inside : ROOTINO < n :=
    (rooted.range ROOTINO (by rw [rooted.root.2.1]; exact nofun)).2
  calc liveLinks n nodes i
      = ∑ d ∈ Finset.range n, linksIn nodes d i := rfl
    _ = ∑ d ∈ Finset.range n, (names nodes d i + upLink nodes d i) :=
        sum_congr rfl fun d _ => linksIn_eq rooted d i
    _ = total n nodes i + ∑ d ∈ Finset.range n, upLink nodes d i := sum_add_distrib
    _ = total n nodes i + (subdirs nodes i + if i = ROOTINO then 1 else 0) := by
        congr 1
        rw [sum_congr rfl fun d _ => upLink_eq rooted d i, sum_add_distrib,
          ← subdirs_eq_sum rooted.range, sum_ite_eq' (Finset.range n) ROOTINO,
          if_pos (mem_range.mpr inside)]
    _ = total n nodes i + subdirs nodes i + if i = ROOTINO then 1 else 0 := by omega

end Counts

end Xv6Cos.Verif
