import Xv6Cos.Verif.DirTree

/-!
# The changes that file system calls are made of

Every step of a call is one or two of four changes of the inodes. All of them keep the invariant of
the inodes. If no directory without links gets a name, they also keep the link counts exact and
every directory that has a name within reach of the root.
-/

namespace Xv6Cos.Verif

open Kernel Spec Finset

variable {d dp x : ℕ} {name : Path}

/-- The directories that names, other than `.` and `..`, lead to from the root. -/
inductive Below (nodes : Nodes) : ℕ → Prop
  | root : Below nodes ROOTINO
  | entry {d : ℕ} {de : Dirent} : Below nodes d → HasEntry nodes d de → plain de →
      (nodes de.inum).type = .dir → Below nodes de.inum

/-- The links of the inodes are all in directories that have links. -/
structure Linked (n : ℕ) (nodes : Nodes) (pend : ℕ → ℕ) : Prop where
  exact : ∀ i, (nodes i).type ≠ .free → (nodes i).nlink.toNat = owed n nodes pend i
  bare : ∀ d, (nodes d).type = .dir → d ≠ ROOTINO → total n nodes d = 0 → Bare nodes d
  reached : ∀ d, (nodes d).type = .dir → 0 < total n nodes d → Below nodes d

/-- A change of the inodes and of the pending links; if it is strict, a directory that gets a name
has links. -/
inductive Change (n : ℕ) (strict : Prop) (nodes : Nodes) (pend : ℕ → ℕ) (nodes' : Nodes)
    (pend' : ℕ → ℕ) : Prop
  /-- Only link counts and pending links change. -/
  | relink : (∀ d, (nodes' d).type = (nodes d).type) → (∀ d, (nodes' d).slots = (nodes d).slots) →
      (∀ d, (nodes d).type ≠ .free → (nodes' d).nlink.toNat < 2 ^ 15) →
      (∀ x, (nodes x).type ≠ .free →
        (nodes' x).nlink.toNat + pend x = (nodes x).nlink.toNat + pend' x) →
      Change n strict nodes pend nodes' pend'
  | adds (dp x : ℕ) (name : Path) : Adds n nodes pend nodes' pend' dp x name → pend dp = 0 →
      (strict → (nodes dp).nlink ≠ 0) → Change n strict nodes pend nodes' pend'
  /-- A directory that loses its name has no names in it. -/
  | removes (dp x : ℕ) (name : Path) : Removes nodes pend nodes' pend' dp x name →
      ((nodes x).type = .dir → Bare nodes x) → Change n strict nodes pend nodes' pend'
  /-- An inode without links is allocated, prepared or freed. -/
  | swaps (j : ℕ) : Swaps nodes nodes' j → 0 < j ∧ j < n → j ≠ ROOTINO →
      ((nodes j).type = .free ∨ (nodes j).nlink = 0) → (nodes' j).nlink.toNat < 2 ^ 15 →
      (∀ de, HasEntry nodes' j de → Good nodes' de.inum) →
      ((nodes' j).type = .dir → (nodes' j).slots = [] ∨ ∃ parent, Proper nodes' j parent) →
      (∀ parent, Proper nodes' j parent → (nodes' parent).type = .dir) →
      (∀ name, (nodes' j).slots.countP (Dirent.hits name) ≤ 1) →
      (∀ y, y ≠ j → pend' y = pend y) →
      ((nodes' j).type ≠ .free → (nodes' j).nlink.toNat = pend' j) →
      Change n strict nodes pend nodes' pend'

section Keep

variable {n : ℕ} {strict : Prop} {nodes nodes' : Nodes} {pend pend' : ℕ → ℕ}

/-- Every change keeps the invariant of the inodes. -/
theorem DiskInv.change (inv : DiskInv n nodes pend)
    (change : Change n strict nodes pend nodes' pend') : DiskInv n nodes' pend' := by
  cases change with
  | relink types slots small links => exact inv.relink types slots links small
  | adds dp x name adds => exact adds.diskInv inv
  | removes dp x name removes => exact removes.diskInv inv
  | swaps j swaps inside other before small targets shape parents distinct pends counts =>
    exact swaps.diskInv inv inside other small targets shape parents distinct pends
      fun allocated => (counts allocated).ge

/-- Entries that stay keep directories within reach. -/
theorem Below.mono (below : Below nodes d)
    (entries : ∀ d de, HasEntry nodes d de → plain de → HasEntry nodes' d de)
    (types : ∀ d, (nodes' d).type = (nodes d).type) : Below nodes' d := by
  induction below with
  | root => exact .root
  | entry _ entry named directory ih =>
    exact .entry ih (entries _ _ entry named) named (types _ ▸ directory)

section

variable (linked : Linked n nodes pend)

include linked

section

variable (directory : (nodes d).type = .dir) (links : (nodes d).nlink ≠ 0) (settled : pend d = 0)

include directory links settled

/-- A directory with links, none of them pending, has a name or is the root. -/
theorem Linked.named (other : d ≠ ROOTINO) :
    0 < total n nodes d := by
  by_contra unnamed
  have none : total n nodes d = 0 := by omega
  have inner := (linked.bare d directory other none).subdirs_zero
  have counted := linked.exact d (by rw [directory]; exact nofun)
  rw [owed, none, inner, settled, if_neg other] at counted
  exact links (BitVec.eq_of_toNat_eq counted)

/-- A directory with links, none of them pending, is within reach. -/
theorem Linked.below : Below nodes d := by
  by_cases other : d = ROOTINO
  · rw [other]
    exact .root
  · exact linked.reached d directory (linked.named directory links settled other)

end

theorem Linked.relink (types : ∀ d, (nodes' d).type = (nodes d).type)
    (slots : ∀ d, (nodes' d).slots = (nodes d).slots)
    (links : ∀ x, (nodes x).type ≠ .free →
      (nodes' x).nlink.toNat + pend x = (nodes x).nlink.toNat + pend' x) :
    Linked n nodes' pend' := by
  have entries : ∀ {d de}, HasEntry nodes' d de ↔ HasEntry nodes d de := by
    intro d de
    unfold HasEntry
    rw [types, slots]
  have totals := relink_total types slots n
  constructor
  · intro i allocated
    rw [types] at allocated
    have before := linked.exact i allocated
    have balance := relink_balances types slots links n i allocated
    omega
  · intro d directory other none de entry
    rw [types] at directory
    rw [totals] at none
    exact linked.bare d directory other none de (entries.mp entry)
  · intro d directory named
    rw [types] at directory
    rw [totals] at named
    exact (linked.reached d directory named).mono (fun d de entry _ => entries.mpr entry) types

/-- A name is added to a directory with links. -/
theorem Linked.adds (inv : DiskInv n nodes pend)
    (adds : Adds n nodes pend nodes' pend' dp x name) (settled : pend dp = 0)
    (live : (nodes dp).nlink ≠ 0) : Linked n nodes' pend' := by
  have isDir : (nodes dp).type = .dir := adds.types dp ▸ adds.type
  have stays : ∀ d de, HasEntry nodes d de → plain de → HasEntry nodes' d de := by
    intro d de entry _
    by_cases hit : d = dp
    · subst hit
      obtain ⟨room, linked⟩ := adds.linked
      exact ⟨adds.type, mem_of_dirlink linked entry.2.1 entry.2.2, entry.2.2⟩
    · unfold HasEntry
      rwa [adds.others d hit]
  constructor
  · intro i allocated
    rw [adds.types] at allocated
    have before := linked.exact i allocated
    have balance := adds.balances inv i allocated
    omega
  · intro d directory other none de entry
    rw [adds.types] at directory
    have before : total n nodes d = 0 := by
      have totals := adds.total_eq inv d
      omega
    rcases adds.entry_cases inv entry with old | ⟨rfl, rfl⟩
    · exact linked.bare d directory other before de old
    · exact absurd before (linked.named isDir live settled other).ne'
  · intro d directory named
    rw [adds.types] at directory
    rw [adds.total_eq inv] at named
    by_cases hit : d = x
    · have below := (linked.below isDir live settled).mono stays adds.types
      obtain ⟨room, added⟩ := adds.linked
      have mem := new_mem_dirlink added
      rw [adds.inum_eq inv] at mem
      have entry : HasEntry nodes' dp ⟨x, name⟩ := ⟨adds.type, mem, adds.inum_ne_zero inv⟩
      rw [hit]
      exact .entry below entry (adds.plain_name inv) (by rw [adds.types, ← hit, directory])
    · rw [if_neg hit, add_zero] at named
      exact (linked.reached d directory named).mono stays adds.types

/-- A name is removed; if it is of a directory, that has no names in it. -/
theorem Linked.removes (inv : DiskInv n nodes pend)
    (removes : Removes nodes pend nodes' pend' dp x name)
    (empty : (nodes x).type = .dir → Bare nodes x) : Linked n nodes' pend' := by
  have stays : ∀ d de, HasEntry nodes d de → de.inum ≠ x → HasEntry nodes' d de := by
    intro d de entry other
    by_cases hit : d = dp
    · subst hit
      refine ⟨removes.type, ?_, entry.2.2⟩
      rw [removes.slots]
      exact mem_of_clearEntry removes.found entry.2.1 fun same => other (same ▸ rfl)
    · unfold HasEntry
      rwa [removes.others d hit]
  -- no path goes through the directory that loses its name
  have below : ∀ {d}, Below nodes d → d ≠ x → Below nodes' d := by
    intro d below
    induction below with
    | root => exact fun _ => .root
    | entry above entry named directory ih =>
      intro other
      have apart : _ ≠ x := fun same => empty (same ▸ entry.1) _ (same ▸ entry) named
      exact .entry (ih apart) (stays _ _ entry other) named (removes.types _ ▸ directory)
  constructor
  · intro i allocated
    rw [removes.types] at allocated
    have before := linked.exact i allocated
    have balance := removes.balances inv i allocated
    omega
  · intro d directory other none de entry
    rw [removes.types] at directory
    by_cases hit : d = x
    · subst hit
      exact empty directory de (removes.entry_old entry)
    · have totals := removes.total_eq inv d
      rw [none, if_neg hit] at totals
      exact linked.bare d directory other totals.symm de (removes.entry_old entry)
  · intro d directory named
    rw [removes.types] at directory
    have totals := removes.total_eq inv d
    have once := inv.once d directory
    have other : d ≠ x := by
      intro hit
      rw [if_pos hit] at totals
      omega
    exact below (linked.reached d directory (by omega)) other

/-- An inode without links changes. -/
theorem Linked.swaps {j : ℕ} (swaps : Swaps nodes nodes' j)
    (inside : j < n) (root : j ≠ ROOTINO) (before : (nodes j).type = .free ∨ (nodes j).nlink = 0)
    (pends : ∀ y, y ≠ j → pend' y = pend y)
    (counts : (nodes' j).type ≠ .free → (nodes' j).nlink.toNat = pend' j) :
    Linked n nodes' pend' := by
  have bare : Bare nodes j := by
    intro de entry
    rcases before with free | unlinked
    · rw [HasEntry, free] at entry
      exact absurd entry.1 (by simp)
    · have counted := linked.exact j (by simp [entry.1])
      have zero : (nodes j).nlink.toNat = 0 := by
        rw [unlinked]
        rfl
      rw [zero, owed] at counted
      exact linked.bare j entry.1 root (by omega) de entry
  have totals : ∀ y, total n nodes' y = total n nodes y := by
    intro y
    have change := swaps.total_eq inside y
    rwa [bare.names_zero, add_zero] at change
  -- no path goes through the inode
  have below : ∀ {d}, Below nodes d → d ≠ j ∧ Below nodes' d := by
    intro d below
    induction below with
    | root => exact ⟨root.symm, .root⟩
    | entry above entry named directory ih =>
      obtain ⟨apart, reached⟩ := ih
      have unseen := swaps.unseen _ _ apart entry
      refine ⟨unseen, .entry reached ?_ named (by rwa [swaps.others _ unseen])⟩
      unfold HasEntry
      rwa [swaps.others _ apart]
  constructor
  · intro i allocated
    by_cases hit : i = j
    · subst hit
      rw [counts allocated, owed, swaps.total_new n, swaps.bare.subdirs_zero, if_neg root]
      omega
    · have change := swaps.owed_other inside pend pend' hit (pends i hit)
      rw [bare.names_zero, add_zero] at change
      rw [swaps.others i hit] at allocated ⊢
      rw [change]
      exact linked.exact i allocated
  · intro d directory other none
    by_cases hit : d = j
    · rw [hit]
      exact swaps.bare
    · rw [totals] at none
      rw [swaps.others d hit] at directory
      exact fun de entry => linked.bare d directory other none de (swaps.entry_old hit entry)
  · intro d directory named
    have hit : d ≠ j := by
      rintro rfl
      rw [swaps.total_new n] at named
      exact absurd named (lt_irrefl 0)
    rw [totals] at named
    rw [swaps.others d hit] at directory
    exact (below (linked.reached d directory named)).2

/-- Changes that give names to directories with links only keep the links. -/
theorem Linked.change (inv : DiskInv n nodes pend)
    (change : Change n True nodes pend nodes' pend') : Linked n nodes' pend' := by
  cases change with
  | relink types slots small links => exact linked.relink types slots links
  | adds dp x name adds settled live => exact linked.adds inv adds settled (live trivial)
  | removes dp x name removes empty => exact linked.removes inv removes empty
  | swaps j swaps inside root before small targets shape parents distinct pends counts =>
    exact linked.swaps swaps inside.2 root before pends counts

end

end Keep

end Xv6Cos.Verif
