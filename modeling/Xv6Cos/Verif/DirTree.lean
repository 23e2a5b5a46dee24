import Xv6Cos.Spec.DirTree
import Xv6Cos.Verif.Dirent
import Xv6Cos.Lib.Sums
import Mathlib.Algebra.Order.BigOperators.Group.Finset

/-!
# What every change to the directories keeps

The invariant of the inodes between any two steps of the processes. A link that a process has
counted and not yet written, or has removed and not yet subtracted, is pending; with the pending
links every operation is a sequence of small changes that each keep the invariant and the balance
between link counts and links.
-/

namespace Xv6Cos.Verif

open Kernel Spec Finset Dirent Nat

variable {parent y : ℕ} {P : Dirent → Bool}

/-- The directory starts with entries for itself and for its parent, and has no others of their
names. -/
def Proper (nodes : Nodes) (d parent : ℕ) : Prop :=
  (nodes d).type = .dir ∧ ∃ rest,
    (nodes d).slots = ⟨d, Dirent.dot⟩ :: ⟨parent, Dirent.dotdot⟩ :: rest ∧
    ∀ de ∈ rest, de.inum ≠ 0 → plain de

/-- An inode that paths may lead to. -/
def Good (nodes : Nodes) (i : ℕ) : Prop :=
  (nodes i).type ≠ .free ∧ ((nodes i).type = .dir → ∃ parent, Proper nodes i parent)

/-- The entry names the inode, and is neither `.` nor `..`. -/
def namesNode (i : ℕ) (de : Dirent) : Bool := de.inum ≠ 0 && de.inum = i && plain de

/-- The entry names a directory, and is neither `.` nor `..`. -/
def namesDir (nodes : Nodes) (de : Dirent) : Bool :=
  de.inum ≠ 0 && (nodes de.inum).type = .dir && plain de

/-- Number of entries of the directory that name the inode. -/
def names (nodes : Nodes) (d i : ℕ) : ℕ :=
  if (nodes d).type = .dir then (nodes d).slots.countP (namesNode i) else 0

/-- Number of entries that name the inode. -/
def total (n : ℕ) (nodes : Nodes) (i : ℕ) : ℕ := ∑ d ∈ range n, names nodes d i

/-- Number of entries of the directory that name directories. -/
def subdirs (nodes : Nodes) (i : ℕ) : ℕ :=
  if (nodes i).type = .dir then (nodes i).slots.countP (namesDir nodes) else 0

/-- The number of links of an inode: its names, the directories in it, the pending links, and for
the root its own `..`. -/
def owed (n : ℕ) (nodes : Nodes) (pend : ℕ → ℕ) (i : ℕ) : ℕ :=
  total n nodes i + subdirs nodes i + pend i + if i = ROOTINO then 1 else 0

/-- The directory has no names in it. -/
def Bare (nodes : Nodes) (d : ℕ) : Prop := ∀ de, HasEntry nodes d de → ¬plain de

/-- The invariant of the inodes, with the pending links of each. -/
structure DiskInv (n : ℕ) (nodes : Nodes) (pend : ℕ → ℕ) : Prop where
  numbers : n ≤ 2 ^ 16
  range : ∀ i, (nodes i).type ≠ .free → 0 < i ∧ i < n
  small : ∀ i, (nodes i).type ≠ .free → (nodes i).nlink.toNat < 2 ^ 15
  root : Proper nodes ROOTINO ROOTINO
  /-- Entries name inodes that paths may lead to. -/
  targets : ∀ d de, HasEntry nodes d de → Good nodes de.inum
  /-- A directory is complete, or new and empty. -/
  shape : ∀ d, (nodes d).type = .dir → (nodes d).slots = [] ∨ ∃ parent, Proper nodes d parent
  parents : ∀ d parent, Proper nodes d parent → (nodes parent).type = .dir
  distinct : ∀ d, (nodes d).type = .dir → ∀ name, (nodes d).slots.countP (Dirent.hits name) ≤ 1
  /-- The `..` of a directory names the directory that its name is in. -/
  child : ∀ d de, HasEntry nodes d de → plain de → (nodes de.inum).type = .dir →
    Proper nodes de.inum d
  once : ∀ i, (nodes i).type = .dir → total n nodes i ≤ 1
  unnamed : total n nodes ROOTINO = 0
  counts : ∀ i, (nodes i).type ≠ .free → owed n nodes pend i ≤ (nodes i).nlink.toNat

section Facts

variable {n : ℕ} {nodes : Nodes} {pend : ℕ → ℕ} {d i : ℕ} {de : Dirent}

theorem namesNode_iff : namesNode i de ↔ de.inum ≠ 0 ∧ de.inum = i ∧ plain de := by
  simp [namesNode, and_assoc]

theorem namesDir_iff :
    namesDir nodes de ↔ de.inum ≠ 0 ∧ (nodes de.inum).type = .dir ∧ plain de := by
  simp [namesDir, and_assoc]

theorem plain_iff : plain de ↔ de.name ≠ dot ∧ de.name ≠ dotdot := by
  simp [plain]

/-- An entry that names an inode is one of its names. -/
theorem total_pos (entry : HasEntry nodes d de) (named : plain de) (inside : d < n) :
    0 < total n nodes de.inum := by
  have here : 0 < names nodes d de.inum := by
    rw [names, if_pos entry.1]
    exact List.countP_pos_iff.mpr ⟨de, entry.2.1, namesNode_iff.mpr ⟨entry.2.2, rfl, named⟩⟩
  exact lt_of_lt_of_le here
    (single_le_sum (f := fun d => names nodes d de.inum) (fun _ _ => zero_le _)
      (mem_range.mpr inside))

/-- An inode with a name is in a directory. -/
theorem exists_name (named : 0 < total n nodes i) :
    ∃ d de, HasEntry nodes d de ∧ plain de ∧ de.inum = i := by
  obtain ⟨d, -, here⟩ := exists_ne_zero_of_sum_ne_zero (pos_iff_ne_zero.mp named)
  rw [names] at here
  split at here
  case isFalse => exact absurd rfl here
  case isTrue directory =>
    obtain ⟨de, mem, hit⟩ := List.countP_pos_iff.mp (pos_of_ne_zero here)
    obtain ⟨used, same, named⟩ := namesNode_iff.mp hit
    exact ⟨d, de, ⟨directory, mem, used⟩, named, same⟩

/-- The entries of a complete directory. -/
theorem Proper.entry (proper : Proper nodes d parent) (entry : HasEntry nodes d de) :
    de = ⟨d, dot⟩ ∨ de = ⟨parent, dotdot⟩ ∨ plain de := by
  obtain ⟨-, rest, slots, others⟩ := proper
  obtain ⟨-, mem, used⟩ := entry
  rw [slots] at mem
  rcases List.mem_cons.mp mem with rfl | mem
  · exact .inl rfl
  · rcases List.mem_cons.mp mem with rfl | mem
    · exact .inr (.inl rfl)
    · exact .inr (.inr (others de mem used))

theorem Proper.parent_unique {one two : ℕ} (first : Proper nodes d one)
    (second : Proper nodes d two) : one = two := by
  obtain ⟨-, rest, slots, -⟩ := first
  obtain ⟨-, rest', slots', -⟩ := second
  rw [slots, List.cons.injEq, List.cons.injEq] at slots'
  exact (Dirent.mk.inj slots'.2.1).1

theorem Proper.ne_nil (proper : Proper nodes d parent) : (nodes d).slots ≠ [] := by
  obtain ⟨-, rest, slots, -⟩ := proper
  rw [slots]
  exact List.cons_ne_nil _ _

/-- A directory that looks the same is complete. -/
theorem Proper.congr {nodes' : Nodes} (proper : Proper nodes d parent)
    (types : (nodes' d).type = (nodes d).type) (slots : (nodes' d).slots = (nodes d).slots) :
    Proper nodes' d parent := by
  unfold Proper
  rw [types, slots]
  exact proper

theorem Good.congr {nodes' : Nodes} (good : Good nodes i)
    (types : (nodes' i).type = (nodes i).type) (slots : (nodes' i).slots = (nodes i).slots) :
    Good nodes' i := by
  unfold Good
  rw [types]
  refine ⟨good.1, fun directory => ?_⟩
  obtain ⟨parent, proper⟩ := good.2 directory
  exact ⟨parent, proper.congr types slots⟩

theorem Bare.names_zero (bare : Bare nodes d) (y : ℕ) : names nodes d y = 0 := by
  rw [names]
  split
  case isFalse => rfl
  case isTrue directory =>
    rw [List.countP_eq_zero]
    intro de mem hit
    obtain ⟨used, -, named⟩ := namesNode_iff.mp hit
    exact bare de ⟨directory, mem, used⟩ named

theorem Bare.subdirs_zero (bare : Bare nodes d) : subdirs nodes d = 0 := by
  rw [subdirs]
  split
  case isFalse => rfl
  case isTrue directory =>
    rw [List.countP_eq_zero]
    intro de mem hit
    obtain ⟨used, -, named⟩ := namesDir_iff.mp hit
    exact bare de ⟨directory, mem, used⟩ named

namespace DiskInv

variable (inv : DiskInv n nodes pend)

include inv

theorem inside (allocated : (nodes i).type ≠ .free) : i < n := (inv.range i allocated).2

theorem inside_dir (directory : (nodes i).type = .dir) : i < n :=
  inv.inside (by rw [directory]; exact nofun)

/-- An inode without links has no name. -/
theorem no_name (unlinked : (nodes i).nlink = 0) (entry : HasEntry nodes d de) (named : plain de) :
    de.inum ≠ i := by
  rintro rfl
  have target := inv.targets d de entry
  have counted := inv.counts de.inum target.1
  have positive := total_pos entry named (inv.inside_dir entry.1)
  have zero : (nodes de.inum).nlink.toNat = 0 := by
    rw [unlinked]
    rfl
  rw [zero, owed] at counted
  omega

/-- A directory with an entry is complete. -/
theorem proper_of_entry (entry : HasEntry nodes d de) : ∃ parent, Proper nodes d parent := by
  rcases inv.shape d entry.1 with empty | proper
  · rw [HasEntry, empty] at entry
    exact absurd entry.2.1 List.not_mem_nil
  · exact proper

theorem root_linked : (nodes ROOTINO).nlink ≠ 0 := by
  intro unlinked
  have directory := inv.root.1
  have counted := inv.counts ROOTINO (by rw [directory]; exact nofun)
  rw [unlinked] at counted
  simp [owed] at counted

end DiskInv

end Facts

section Sums

variable {n : ℕ} {nodes nodes' : Nodes} {d i j : ℕ}

/-- The names of an inode after one directory has changed. -/
theorem total_change (inside : j < n) (others : ∀ d, d ≠ j → nodes' d = nodes d) (i : ℕ) :
    total n nodes' i + names nodes j i = total n nodes i + names nodes' j i := by
  apply Sums.sum_change (mem_range.mpr inside)
  intro d _ other
  rw [names, names, others d other]

theorem names_congr (types : (nodes' d).type = (nodes d).type)
    (slots : (nodes' d).slots = (nodes d).slots) (i : ℕ) : names nodes' d i = names nodes d i := by
  rw [names, names, types, slots]

/-- The directories in a directory depend on the types of the inodes that it names. -/
theorem subdirs_congr (types : (nodes' i).type = (nodes i).type)
    (slots : (nodes' i).slots = (nodes i).slots)
    (same : ∀ de, HasEntry nodes i de → plain de →
      ((nodes' de.inum).type = .dir ↔ (nodes de.inum).type = .dir)) :
    subdirs nodes' i = subdirs nodes i := by
  rw [subdirs, subdirs, types, slots]
  split
  case isFalse => rfl
  case isTrue directory =>
    apply List.countP_congr
    intro de mem
    rw [namesDir_iff, namesDir_iff]
    constructor
    · rintro ⟨used, isDir, named⟩
      exact ⟨used, (same de ⟨directory, mem, used⟩ named).mp isDir, named⟩
    · rintro ⟨used, isDir, named⟩
      exact ⟨used, (same de ⟨directory, mem, used⟩ named).mpr isDir, named⟩

end Sums

/-- Every inode's links and its link count change alike. -/
def Balances (n : ℕ) (nodes : Nodes) (pend : ℕ → ℕ) (nodes' : Nodes) (pend' : ℕ → ℕ) : Prop :=
  ∀ x, (nodes x).type ≠ .free →
    (nodes' x).nlink.toNat + owed n nodes pend x = (nodes x).nlink.toNat + owed n nodes' pend' x

section Relink

variable {nodes nodes' : Nodes} {pend pend' : ℕ → ℕ}
  (types : ∀ d, (nodes' d).type = (nodes d).type) (slots : ∀ d, (nodes' d).slots = (nodes d).slots)

include types slots

theorem relink_total (n x : ℕ) : total n nodes' x = total n nodes x :=
  sum_congr rfl fun d _ => names_congr (types d) (slots d) x

variable (links : ∀ x, (nodes x).type ≠ .free →
  (nodes' x).nlink.toNat + pend x = (nodes x).nlink.toNat + pend' x)

include links

/-- Only link counts and pending links change. -/
theorem relink_balances (n : ℕ) : Balances n nodes pend nodes' pend' := by
  intro x allocated
  have inner : subdirs nodes' x = subdirs nodes x :=
    subdirs_congr (types x) (slots x) fun de _ _ => by rw [types]
  have change := links x allocated
  rw [owed, owed, relink_total types slots, inner]
  omega

theorem DiskInv.relink {n : ℕ} (inv : DiskInv n nodes pend)
    (small : ∀ d, (nodes d).type ≠ .free → (nodes' d).nlink.toNat < 2 ^ 15) :
    DiskInv n nodes' pend' := by
  have proper : ∀ {d parent}, Proper nodes' d parent → Proper nodes d parent := fun before =>
    before.congr (types _).symm (slots _).symm
  have entries : ∀ {d de}, HasEntry nodes' d de → HasEntry nodes d de := fun entry => by
    unfold HasEntry at entry ⊢
    rwa [types, slots] at entry
  have totals := relink_total types slots n
  constructor
  · exact inv.numbers
  · intro i allocated
    exact inv.range i (types i ▸ allocated)
  · intro i allocated
    exact small i (types i ▸ allocated)
  · exact inv.root.congr (types _) (slots _)
  · intro d de entry
    exact (inv.targets d de (entries entry)).congr (types _) (slots _)
  · intro d directory
    rw [slots]
    rcases inv.shape d (types d ▸ directory) with empty | ⟨parent, before⟩
    · exact .inl empty
    · exact .inr ⟨parent, before.congr (types d) (slots d)⟩
  · intro d parent after
    rw [types]
    exact inv.parents d parent (proper after)
  · intro d directory name
    rw [slots]
    exact inv.distinct d (types d ▸ directory) name
  · intro d de entry named directory
    exact (inv.child d de (entries entry) named (types _ ▸ directory)).congr (types _) (slots _)
  · intro i directory
    rw [totals]
    exact inv.once i (types i ▸ directory)
  · rw [totals]
    exact inv.unnamed
  · intro i allocated
    have before := inv.counts i (types i ▸ allocated)
    have balance := relink_balances types slots links n i (types i ▸ allocated)
    omega

end Relink

section Edit

variable {n : ℕ} {nodes nodes' : Nodes} {pend pend' : ℕ → ℕ} {dp : ℕ}

/-- The entries of one complete directory change, and its link count. -/
theorem DiskInv.edit (inv : DiskInv n nodes pend)
    (types : ∀ d, (nodes' d).type = (nodes d).type) (others : ∀ d, d ≠ dp → nodes' d = nodes d)
    (proper : ∀ d parent, Proper nodes' d parent ↔ Proper nodes d parent)
    (complete : ∃ parent, Proper nodes dp parent) (small : (nodes' dp).nlink.toNat < 2 ^ 15)
    (entries : ∀ d de, HasEntry nodes' d de → HasEntry nodes d de ∨
      (Good nodes de.inum ∧ ((nodes de.inum).type = .dir → Proper nodes de.inum d)))
    (distinct : ∀ name, (nodes' dp).slots.countP (hits name) ≤ 1)
    (once : ∀ i, (nodes i).type = .dir → total n nodes' i ≤ 1)
    (unnamed : total n nodes' ROOTINO = 0) (balances : Balances n nodes pend nodes' pend') :
    DiskInv n nodes' pend' := by
  have good : ∀ i, Good nodes i → Good nodes' i := by
    intro i before
    unfold Good
    simp only [types, proper]
    exact before
  constructor
  · exact inv.numbers
  · intro i allocated
    exact inv.range i (types i ▸ allocated)
  · intro i allocated
    by_cases hit : i = dp
    · rw [hit]
      exact small
    · rw [others i hit] at allocated ⊢
      exact inv.small i allocated
  · exact (proper _ _).mpr inv.root
  · intro d de entry
    rcases entries d de entry with old | ⟨before, -⟩
    · exact good _ (inv.targets d de old)
    · exact good _ before
  · intro d directory
    by_cases hit : d = dp
    · obtain ⟨parent, before⟩ := complete
      exact .inr ⟨parent, (proper d parent).mpr (hit ▸ before)⟩
    · rw [others d hit]
      rcases inv.shape d (types d ▸ directory) with empty | ⟨parent, before⟩
      · exact .inl empty
      · exact .inr ⟨parent, (proper d parent).mpr before⟩
  · intro d parent after
    rw [types]
    exact inv.parents d parent ((proper d parent).mp after)
  · intro d directory name
    by_cases hit : d = dp
    · rw [hit]
      exact distinct name
    · rw [others d hit]
      exact inv.distinct d (types d ▸ directory) name
  · intro d de entry named directory
    rw [types] at directory
    rcases entries d de entry with old | ⟨-, right⟩
    · exact (proper _ _).mpr (inv.child d de old named directory)
    · exact (proper _ _).mpr (right directory)
  · intro i directory
    exact once i (types i ▸ directory)
  · exact unnamed
  · intro i allocated
    rw [types] at allocated
    have before := inv.counts i allocated
    have balance := balances i allocated
    omega

end Edit

section AddEntry

/-- An entry for an inode with a pending link is added to a complete directory. -/
structure Adds (n : ℕ) (nodes : Nodes) (pend : ℕ → ℕ) (nodes' : Nodes) (pend' : ℕ → ℕ)
    (dp x : ℕ) (name : Path) : Prop where
  others : ∀ d, d ≠ dp → nodes' d = nodes d
  type : (nodes' dp).type = .dir
  proper : ∃ parent, Proper nodes dp parent
  linked : ∃ room, dirlink (nodes dp).slots name x room = some (nodes' dp).slots
  nlink : (nodes' dp).nlink.toNat =
    (nodes dp).nlink.toNat + if (nodes x).type = .dir then 1 else 0
  small : (nodes' dp).nlink.toNat < 2 ^ 15
  good : Good nodes x
  apart : x ≠ dp
  /-- A directory that gets a name has none, and its `..` is right. -/
  fresh : (nodes x).type = .dir → Proper nodes x dp ∧ total n nodes x = 0 ∧ x ≠ ROOTINO
  pends : ∀ y, pend y = pend' y + if y = x then 1 else 0

variable {n : ℕ} {nodes nodes' : Nodes} {pend pend' : ℕ → ℕ} {dp x : ℕ} {name : Path}

namespace Adds

theorem types (adds : Adds n nodes pend nodes' pend' dp x name) (d : ℕ) :
    (nodes' d).type = (nodes d).type := by
  by_cases hit : d = dp
  · obtain ⟨parent, proper⟩ := adds.proper
    rw [hit, adds.type, proper.1]
  · rw [adds.others d hit]

variable (adds : Adds n nodes pend nodes' pend' dp x name) (inv : DiskInv n nodes pend)

include adds inv

/-- The number of the inode fits into the entry. -/
theorem inum_eq : x % 2 ^ 16 = x := by
  have inside := inv.inside adds.good.1
  have numbers := inv.numbers
  exact mod_eq_of_lt (by omega)

theorem inum_ne_zero : x ≠ 0 := (inv.range x adds.good.1).1.ne'

/-- The new name is neither `.` nor `..`, which the directory has. -/
theorem plain_name : plain ⟨x, name⟩ := by
  obtain ⟨parent, proper⟩ := adds.proper
  have directory := inv.parents dp parent proper
  obtain ⟨isDir, rest, slots, -⟩ := proper
  obtain ⟨room, linked⟩ := adds.linked
  have absent := dirlookup_none.mp (dirlink_split linked).1
  rw [slots] at absent
  have one := absent ⟨dp, dot⟩ List.mem_cons_self
    (inv.range dp (by rw [isDir]; exact nofun)).1.ne'
  have two := absent ⟨parent, dotdot⟩ (List.mem_cons_of_mem _ List.mem_cons_self)
    (inv.range parent (by rw [directory]; exact nofun)).1.ne'
  exact plain_iff.mpr ⟨one.symm, two.symm⟩

/-- What is counted of the entries of the directory. -/
theorem countP_slots (empty : ∀ de : Dirent, de.inum = 0 → P de = false) :
    (nodes' dp).slots.countP P = (nodes dp).slots.countP P + if P ⟨x, name⟩ then 1 else 0 := by
  obtain ⟨room, linked⟩ := adds.linked
  have counted := countP_dirlink empty linked
  rwa [adds.inum_eq inv] at counted

theorem entry_cases {d : ℕ} {de : Dirent} (entry : HasEntry nodes' d de) :
    HasEntry nodes d de ∨ (d = dp ∧ de = ⟨x, name⟩) := by
  by_cases hit : d = dp
  · subst hit
    obtain ⟨directory, mem, used⟩ := entry
    obtain ⟨room, linked⟩ := adds.linked
    rcases mem_dirlink linked mem with old | new
    · exact .inl ⟨adds.types d ▸ directory, old, used⟩
    · rw [adds.inum_eq inv] at new
      exact .inr ⟨rfl, new⟩
  · unfold HasEntry at entry
    rw [adds.others d hit] at entry
    exact .inl entry

/-- The directory stays complete. -/
theorem proper_parent (proper : Proper nodes dp parent) : Proper nodes' dp parent := by
  have named := adds.plain_name inv
  have directory := inv.parents dp parent proper
  obtain ⟨isDir, rest, slots, others⟩ := proper
  obtain ⟨room, linked⟩ := adds.linked
  have positive := (inv.range dp (by rw [isDir]; exact nofun)).1.ne'
  have positive' := (inv.range parent (by rw [directory]; exact nofun)).1.ne'
  rw [slots] at linked
  obtain ⟨rest', slots', mems⟩ := dirlink_two _ _ positive positive' linked
  refine ⟨adds.type, rest', slots', fun de mem used => ?_⟩
  rcases mems de mem with old | new
  · exact others de old used
  · rw [adds.inum_eq inv] at new
    rw [new]
    exact named

/-- Other directories stay as they are. -/
theorem proper_iff {d : ℕ} : Proper nodes' d parent ↔ Proper nodes d parent := by
  by_cases hit : d = dp
  · subst hit
    constructor
    · intro after
      obtain ⟨parent', before⟩ := adds.proper
      rwa [after.parent_unique (adds.proper_parent inv before)]
    · exact adds.proper_parent inv
  · unfold Proper
    rw [adds.others d hit]

theorem total_eq (y : ℕ) : total n nodes' y = total n nodes y + if y = x then 1 else 0 := by
  obtain ⟨parent, proper⟩ := adds.proper
  have inside := inv.inside_dir proper.1
  have change := total_change inside adds.others y
  have here : names nodes' dp y = names nodes dp y + if y = x then 1 else 0 := by
    rw [names, names, if_pos adds.type, if_pos proper.1,
      adds.countP_slots inv fun de unused => by simp [namesNode, unused]]
    congr 1
    simp [namesNode, adds.inum_ne_zero inv, adds.plain_name inv, eq_comm]
  omega

theorem subdirs_eq (y : ℕ) : subdirs nodes' y =
    subdirs nodes y + if y = dp ∧ (nodes x).type = .dir then 1 else 0 := by
  by_cases hit : y = dp
  · subst hit
    obtain ⟨parent, proper⟩ := adds.proper
    have same : namesDir nodes' = namesDir nodes := by
      funext de
      rw [namesDir, namesDir, adds.types]
    rw [subdirs, subdirs, if_pos adds.type, if_pos proper.1, same,
      adds.countP_slots inv fun de unused => by simp [namesDir, unused]]
    congr 1
    simp [namesDir, adds.inum_ne_zero inv, adds.plain_name inv]
  · rw [if_neg fun both => hit both.1, add_zero]
    exact subdirs_congr (adds.types y) (by rw [adds.others y hit]) fun de _ _ => by rw [adds.types]

theorem balances : Balances n nodes pend nodes' pend' := by
  intro y _
  rw [owed, owed, adds.total_eq inv, adds.subdirs_eq inv, adds.pends y]
  by_cases hit : y = dp
  · subst hit
    rw [adds.nlink]
    simp only [true_and]
    omega
  · have apart : ¬(y = dp ∧ (nodes x).type = .dir) := fun both => hit both.1
    rw [adds.others y hit, if_neg apart]
    omega

/-- No entry in use had the new name. -/
theorem distinct_name (other : Path) : (nodes' dp).slots.countP (hits other) ≤ 1 := by
  obtain ⟨parent, proper⟩ := adds.proper
  have before := inv.distinct dp proper.1 other
  rw [adds.countP_slots inv fun de unused => by simp [hits, unused]]
  split
  case isFalse => exact before
  case isTrue meant =>
    obtain ⟨room, linked⟩ := adds.linked
    have absent := dirlookup_none.mp (dirlink_split linked).1
    have none : (nodes dp).slots.countP (hits other) = 0 := by
      rw [List.countP_eq_zero]
      intro de mem hit
      obtain ⟨used, same⟩ := hits_iff.mp hit
      exact absent de mem used (same.trans (hits_iff.mp meant).2.symm)
    omega

/-- The invariant holds with the new entry. -/
theorem diskInv : DiskInv n nodes' pend' := by
  apply inv.edit adds.types adds.others (fun _ _ => adds.proper_iff inv) adds.proper adds.small
  · intro d de entry
    rcases adds.entry_cases inv entry with old | ⟨rfl, rfl⟩
    · exact .inl old
    · exact .inr ⟨adds.good, fun directory => (adds.fresh directory).1⟩
  · exact adds.distinct_name inv
  · intro i directory
    rw [adds.total_eq inv]
    by_cases hit : i = x
    · subst hit
      rw [(adds.fresh directory).2.1, if_pos rfl]
    · rw [if_neg hit]
      exact inv.once i directory
  · have apart : ROOTINO ≠ x := by
      rintro rfl
      exact (adds.fresh inv.root.1).2.2 rfl
    rw [adds.total_eq inv, inv.unnamed, if_neg apart]
  · exact adds.balances inv

end Adds

end AddEntry

section RemoveEntry

/-- An entry of a complete directory is cleared; the link of its inode becomes pending. -/
structure Removes (nodes : Nodes) (pend : ℕ → ℕ) (nodes' : Nodes) (pend' : ℕ → ℕ)
    (dp x : ℕ) (name : Path) : Prop where
  others : ∀ d, d ≠ dp → nodes' d = nodes d
  type : (nodes' dp).type = .dir
  proper : ∃ parent, Proper nodes dp parent
  found : (nodes dp).slots.find? (Dirent.hits name) = some ⟨x, name⟩
  named : plain ⟨x, name⟩
  slots : (nodes' dp).slots = clearEntry name (nodes dp).slots
  nlink : (nodes' dp).nlink.toNat + (if (nodes x).type = .dir then 1 else 0) =
    (nodes dp).nlink.toNat
  pends : ∀ y, pend' y = pend y + if y = x then 1 else 0

variable {n : ℕ} {nodes nodes' : Nodes} {pend pend' : ℕ → ℕ} {dp x : ℕ} {name : Path}

namespace Removes

section

variable (removes : Removes nodes pend nodes' pend' dp x name)

include removes

theorem types (d : ℕ) : (nodes' d).type = (nodes d).type := by
  by_cases hit : d = dp
  · obtain ⟨parent, proper⟩ := removes.proper
    rw [hit, removes.type, proper.1]
  · rw [removes.others d hit]

theorem entry : HasEntry nodes dp ⟨x, name⟩ := by
  obtain ⟨parent, proper⟩ := removes.proper
  exact ⟨proper.1, List.mem_of_find?_eq_some removes.found,
    (hits_iff.mp (List.find?_some removes.found)).1⟩

/-- What is counted of the entries of the directory. -/
theorem countP_slots (empty : P .zero = false) :
    (nodes' dp).slots.countP P + (if P ⟨x, name⟩ then 1 else 0) = (nodes dp).slots.countP P := by
  rw [removes.slots]
  exact countP_clearEntry empty removes.found

theorem entry_old {d : ℕ} {de : Dirent} (entry : HasEntry nodes' d de) : HasEntry nodes d de := by
  by_cases hit : d = dp
  · subst hit
    obtain ⟨directory, mem, used⟩ := entry
    rw [removes.slots] at mem
    rcases mem_clearEntry removes.found mem with rfl | old
    · exact absurd rfl used
    · exact ⟨removes.types d ▸ directory, old, used⟩
  · unfold HasEntry at entry
    rwa [removes.others d hit] at entry

/-- The directory stays complete. -/
theorem proper_parent (proper : Proper nodes dp parent) : Proper nodes' dp parent := by
  obtain ⟨isDir, rest, slots, others⟩ := proper
  obtain ⟨one, two⟩ := plain_iff.mp removes.named
  have cleared : (nodes' dp).slots =
      ⟨dp, dot⟩ :: ⟨parent, dotdot⟩ :: clearEntry name rest := by
    rw [removes.slots, slots]
    exact clearEntry_two (Ne.symm one) (Ne.symm two)
  refine ⟨removes.type, _, cleared, fun de mem used => ?_⟩
  have found : rest.find? (hits name) = some ⟨x, name⟩ := by
    have found := removes.found
    have miss : ∀ i other, other ≠ name → ¬(Dirent.mk i other).hits name :=
      fun i other differ hit =>
        differ (hits_iff.mp hit).2
    rwa [slots, List.find?_cons_of_neg (miss dp _ (Ne.symm one)),
      List.find?_cons_of_neg (miss parent _ (Ne.symm two))] at found
  rcases mem_clearEntry found mem with rfl | old
  · exact absurd rfl used
  · exact others de old used

theorem proper_iff {d : ℕ} : Proper nodes' d parent ↔ Proper nodes d parent := by
  by_cases hit : d = dp
  · subst hit
    constructor
    · intro after
      obtain ⟨parent', before⟩ := removes.proper
      rwa [after.parent_unique (removes.proper_parent before)]
    · exact removes.proper_parent
  · unfold Proper
    rw [removes.others d hit]

end

variable (removes : Removes nodes pend nodes' pend' dp x name)

include removes

theorem subdirs_eq (y : ℕ) : subdirs nodes' y +
    (if y = dp ∧ (nodes x).type = .dir then 1 else 0) = subdirs nodes y := by
  by_cases hit : y = dp
  · subst hit
    obtain ⟨parent, proper⟩ := removes.proper
    have same : namesDir nodes' = namesDir nodes := by
      funext de
      rw [namesDir, namesDir, removes.types]
    rw [subdirs, subdirs, if_pos removes.type, if_pos proper.1, same, ← removes.countP_slots rfl]
    congr 1
    simp [namesDir, removes.entry.2.2, removes.named]
  · rw [if_neg fun both => hit both.1, add_zero]
    exact subdirs_congr (removes.types y) (by rw [removes.others y hit])
      fun de _ _ => by rw [removes.types]

variable (inv : DiskInv n nodes pend)

include inv

theorem total_eq (y : ℕ) : total n nodes' y + (if y = x then 1 else 0) = total n nodes y := by
  obtain ⟨parent, proper⟩ := removes.proper
  have inside := inv.inside_dir proper.1
  have change := total_change inside removes.others y
  have here : names nodes' dp y + (if y = x then 1 else 0) = names nodes dp y := by
    rw [names, names, if_pos removes.type, if_pos proper.1, ← removes.countP_slots rfl]
    congr 1
    simp [namesNode, removes.entry.2.2, removes.named, eq_comm]
  omega

theorem balances : Balances n nodes pend nodes' pend' := by
  intro y _
  have totals := removes.total_eq inv y
  have inner := removes.subdirs_eq y
  rw [owed, owed, removes.pends y]
  by_cases hit : y = dp
  · subst hit
    have links := removes.nlink
    simp only [true_and] at inner
    omega
  · have apart : ¬(y = dp ∧ (nodes x).type = .dir) := fun both => hit both.1
    rw [if_neg apart] at inner
    rw [removes.others y hit]
    omega

/-- The invariant holds without the entry. -/
theorem diskInv : DiskInv n nodes' pend' := by
  have isDir : (nodes dp).type = .dir := removes.entry.1
  apply inv.edit removes.types removes.others (fun _ _ => removes.proper_iff) removes.proper
  · have before := inv.small dp (by rw [isDir]; exact nofun)
    have links := removes.nlink
    omega
  · exact fun d de entry => .inl (removes.entry_old entry)
  · intro other
    have before := inv.distinct dp isDir other
    have counted := removes.countP_slots (P := hits other) rfl
    omega
  · intro i directory
    have before := inv.once i directory
    have totals := removes.total_eq inv i
    omega
  · have before := inv.unnamed
    have totals := removes.total_eq inv ROOTINO
    omega
  · exact removes.balances inv

end Removes

end RemoveEntry

section Swap

/-- An inode that no other directory names changes, and has no names in it afterwards. -/
structure Swaps (nodes nodes' : Nodes) (j : ℕ) : Prop where
  others : ∀ d, d ≠ j → nodes' d = nodes d
  unseen : ∀ d de, d ≠ j → HasEntry nodes d de → de.inum ≠ j
  bare : Bare nodes' j

variable {n : ℕ} {nodes nodes' : Nodes} {pend pend' : ℕ → ℕ} {j : ℕ}

namespace Swaps

variable (swaps : Swaps nodes nodes' j)

include swaps

theorem total_eq (inside : j < n) (y : ℕ) :
    total n nodes' y + names nodes j y = total n nodes y := by
  have change := total_change inside swaps.others y
  rw [swaps.bare.names_zero] at change
  omega

theorem subdirs_other (other : y ≠ j) : subdirs nodes' y = subdirs nodes y := by
  refine subdirs_congr (by rw [swaps.others y other]) (by rw [swaps.others y other]) ?_
  intro de entry _
  rw [swaps.others de.inum (swaps.unseen y de other entry)]

/-- The inode has no name. -/
theorem total_new (n : ℕ) : total n nodes' j = 0 := by
  rw [total, sum_eq_zero]
  intro d _
  by_cases hit : d = j
  · rw [hit]
    exact swaps.bare.names_zero j
  · rw [names, swaps.others d hit]
    split
    case isFalse => rfl
    case isTrue directory =>
      rw [List.countP_eq_zero]
      intro de mem meant
      obtain ⟨used, same, -⟩ := namesNode_iff.mp meant
      exact swaps.unseen d de hit ⟨directory, mem, used⟩ same

/-- The links of another inode: those in the one that changes are gone. -/
theorem owed_other (inside : j < n) (pend pend' : ℕ → ℕ) (other : y ≠ j)
    (pends : pend' y = pend y) :
    owed n nodes' pend' y + names nodes j y = owed n nodes pend y := by
  have totals := swaps.total_eq inside y
  rw [owed, owed, swaps.subdirs_other other, pends]
  omega

theorem entry_old {d : ℕ} {de : Dirent} (other : d ≠ j) (entry : HasEntry nodes' d de) :
    HasEntry nodes d de := by
  unfold HasEntry at entry
  rwa [swaps.others d other] at entry

theorem proper_old {d : ℕ} (other : d ≠ j) : Proper nodes' d parent ↔ Proper nodes d parent := by
  unfold Proper
  rw [swaps.others d other]

theorem good_old {i : ℕ} (other : i ≠ j) : Good nodes' i ↔ Good nodes i := by
  unfold Good
  simp only [swaps.others i other, swaps.proper_old other]

/-- The invariant holds if what is there now is in order. -/
theorem diskInv (inv : DiskInv n nodes pend) (inside : 0 < j ∧ j < n) (other : j ≠ ROOTINO)
    (small : (nodes' j).nlink.toNat < 2 ^ 15)
    (targets : ∀ de, HasEntry nodes' j de → Good nodes' de.inum)
    (shape : (nodes' j).type = .dir → (nodes' j).slots = [] ∨ ∃ parent, Proper nodes' j parent)
    (parents : ∀ parent, Proper nodes' j parent → (nodes' parent).type = .dir)
    (distinct : ∀ name, (nodes' j).slots.countP (hits name) ≤ 1)
    (pends : ∀ y, y ≠ j → pend' y = pend y)
    (counts : (nodes' j).type ≠ .free → pend' j ≤ (nodes' j).nlink.toNat) :
    DiskInv n nodes' pend' := by
  have totals := swaps.total_eq inside.2
  constructor
  · exact inv.numbers
  · intro i allocated
    by_cases hit : i = j
    · exact hit ▸ inside
    · exact inv.range i (swaps.others i hit ▸ allocated)
  · intro i allocated
    by_cases hit : i = j
    · exact hit ▸ small
    · rw [swaps.others i hit] at allocated ⊢
      exact inv.small i allocated
  · exact (swaps.proper_old (Ne.symm other)).mpr inv.root
  · intro d de entry
    by_cases hit : d = j
    · exact targets de (hit ▸ entry)
    · have old := swaps.entry_old hit entry
      exact (swaps.good_old (swaps.unseen d de hit old)).mpr (inv.targets d de old)
  · intro d directory
    by_cases hit : d = j
    · subst hit
      exact shape directory
    · rw [swaps.others d hit] at directory ⊢
      rcases inv.shape d directory with empty | ⟨parent, before⟩
      · exact .inl empty
      · exact .inr ⟨parent, (swaps.proper_old hit).mpr before⟩
  · intro d parent after
    by_cases hit : d = j
    · exact parents parent (hit ▸ after)
    · have before := (swaps.proper_old hit).mp after
      have directory := inv.parents d parent before
      obtain ⟨isDir, rest, slots, -⟩ := before
      have entry : HasEntry nodes d ⟨parent, dotdot⟩ := by
        refine ⟨isDir, ?_, (inv.range parent (by rw [directory]; exact nofun)).1.ne'⟩
        rw [slots]
        exact List.mem_cons_of_mem _ List.mem_cons_self
      rwa [swaps.others parent (swaps.unseen d _ hit entry)]
  · intro d directory name
    by_cases hit : d = j
    · exact hit ▸ distinct name
    · rw [swaps.others d hit] at directory ⊢
      exact inv.distinct d directory name
  · intro d de entry named directory
    by_cases hit : d = j
    · exact absurd named (swaps.bare de (hit ▸ entry))
    · have old := swaps.entry_old hit entry
      have seen := swaps.unseen d de hit old
      rw [swaps.others de.inum seen] at directory
      exact (swaps.proper_old seen).mpr (inv.child d de old named directory)
  · intro i directory
    by_cases hit : i = j
    · rw [hit, swaps.total_new n]
      exact zero_le 1
    · rw [swaps.others i hit] at directory
      have before := inv.once i directory
      have change := totals i
      omega
  · have before := inv.unnamed
    have change := totals ROOTINO
    omega
  · intro i allocated
    by_cases hit : i = j
    · subst hit
      have enough := counts allocated
      rw [owed, swaps.total_new n, swaps.bare.subdirs_zero, if_neg other]
      omega
    · have change := swaps.owed_other inside.2 pend pend' hit (pends i hit)
      rw [swaps.others i hit] at allocated ⊢
      have before := inv.counts i allocated
      omega

end Swaps

end Swap

end Xv6Cos.Verif
