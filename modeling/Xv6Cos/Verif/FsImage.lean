import Xv6Cos.Verif.LinkCount
import Xv6Cos.Verif.FsSteps

/-!
# Consistent images

Consistent images meet the invariant of the inodes and have exact link counts. In the other
direction the invariant makes the directories a tree; and with exact links and none pending every
link count is the number of entries that it counts, and an inode is leaked only if it has no links.
-/

namespace Xv6Cos.Verif

open Kernel Spec Finset

variable {n : ℕ} {nodes : Nodes} {pend : ℕ → ℕ} {d parent i x : ℕ}

section Names

/-- Entries in use have different names if no name is counted twice. -/
theorem pairwise_names {slots : List Dirent} :
    (slots.Pairwise fun a b => a.inum ≠ 0 → b.inum ≠ 0 → a.name ≠ b.name) ↔
      ∀ name, slots.countP (Dirent.hits name) ≤ 1 := by
  induction slots with
  | nil => simp
  | cons first rest ih =>
    rw [List.pairwise_cons, ih]
    constructor
    · rintro ⟨apart, once⟩ name
      rw [List.countP_cons]
      split
      case isFalse => exact once name
      case isTrue hit =>
        obtain ⟨used, rfl⟩ := hits_iff.mp hit
        have none : rest.countP (Dirent.hits first.name) = 0 := by
          rw [List.countP_eq_zero]
          intro de mem other
          obtain ⟨used', same⟩ := hits_iff.mp other
          exact apart de mem used used' same.symm
        omega
    · intro once
      constructor
      · intro de mem used used' same
        have counted := once first.name
        have hit : first.hits first.name := hits_iff.mpr ⟨used, rfl⟩
        have later : 0 < rest.countP (Dirent.hits first.name) :=
          List.countP_pos_iff.mpr ⟨de, mem, hits_iff.mpr ⟨used', same.symm⟩⟩
        rw [List.countP_cons, if_pos hit] at counted
        omega
      · intro name
        have counted := once name
        rw [List.countP_cons] at counted
        omega

/-- A directory with the right first two entries, and no name twice, is complete. -/
theorem proper_of_two (directory : (nodes d).type = .dir) (positive : d ≠ 0)
    (positive' : parent ≠ 0) (one : (nodes d).slots[0]? = some ⟨d, Dirent.dot⟩)
    (two : (nodes d).slots[1]? = some ⟨parent, Dirent.dotdot⟩)
    (distinct : (nodes d).slots.Pairwise fun a b => a.inum ≠ 0 → b.inum ≠ 0 → a.name ≠ b.name) :
    Proper nodes d parent := by
  refine ⟨directory, ?_⟩
  match slots : (nodes d).slots with
  | [] =>
    rw [slots] at one
    contradiction
  | [_] =>
    rw [slots] at two
    contradiction
  | a :: b :: rest =>
    rw [slots] at one two distinct
    cases one
    cases two
    obtain ⟨first, distinct⟩ := List.pairwise_cons.mp distinct
    obtain ⟨second, -⟩ := List.pairwise_cons.mp distinct
    refine ⟨rest, rfl, fun de mem used => plain_iff.mpr ⟨?_, ?_⟩⟩
    · exact (first de (List.mem_cons_of_mem _ mem) positive used).symm
    · exact (second de mem positive' used).symm

theorem Proper.first_two (proper : Proper nodes d parent) :
    (nodes d).slots[0]? = some ⟨d, Dirent.dot⟩ ∧
      (nodes d).slots[1]? = some ⟨parent, Dirent.dotdot⟩ := by
  obtain ⟨-, rest, slots, -⟩ := proper
  rw [slots]
  exact ⟨rfl, rfl⟩

/-- A name is in a directory if it is counted there. -/
theorem names_pos : 0 < names nodes d i ↔
    ∃ de, HasEntry nodes d de ∧ plain de ∧ de.inum = i := by
  rw [names]
  split
  case isFalse other =>
    constructor
    · intro positive
      exact absurd positive (lt_irrefl 0)
    · rintro ⟨de, entry, -⟩
      exact absurd entry.1 other
  case isTrue directory =>
    rw [List.countP_pos_iff]
    constructor
    · rintro ⟨de, mem, hit⟩
      obtain ⟨used, same, named⟩ := namesNode_iff.mp hit
      exact ⟨de, ⟨directory, mem, used⟩, named, same⟩
    · rintro ⟨de, entry, named, same⟩
      exact ⟨de, entry.2.1, namesNode_iff.mpr ⟨entry.2.2, same, named⟩⟩

end Names

section Tree

variable (inv : DiskInv n nodes pend)

theorem Below.fromRoot (below : Below nodes d) : FromRoot nodes d := by
  induction below with
  | root => exact .root
  | entry _ entry _ directory ih => exact .entry ih entry directory

include inv

/-- `.` and `..` lead to no other directories than names do. -/
theorem fromRoot_below (reached : FromRoot nodes d) : Below nodes d := by
  induction reached with
  | root => exact .root
  | @entry d de _ entry directory ih =>
    obtain ⟨parent, proper⟩ := inv.proper_of_entry entry
    rcases proper.entry entry with rfl | rfl | named
    · exact ih
    · -- the directory that a name leads from is the parent
      cases ih with
      | root =>
        rw [proper.parent_unique inv.root]
        exact .root
      | entry above entry' named' directory' =>
        rw [proper.parent_unique (inv.child _ _ entry' named' directory')]
        exact above
    · exact .entry ih entry named directory

/-- A directory has its name in one place. -/
theorem named_once {d' k k' : ℕ} (directory : (nodes x).type = .dir) (one : NamedAt nodes x d k)
    (two : NamedAt nodes x d' k') : d' = d ∧ k' = k := by
  obtain ⟨-, de, entry, found, named, hit⟩ := one
  obtain ⟨-, de', entry', found', named', hit'⟩ := two
  have here : 0 < names nodes d x := names_pos.mpr ⟨de, entry, named, hit⟩
  have there : 0 < names nodes d' x := names_pos.mpr ⟨de', entry', named', hit'⟩
  have inside := inv.inside_dir entry.1
  have inside' := inv.inside_dir entry'.1
  have once := inv.once x directory
  have share : names nodes d x ≤ total n nodes x :=
    single_le_sum (f := fun d => names nodes d x) (fun _ _ => Nat.zero_le _) (mem_range.mpr inside)
  have same : d' = d := by
    by_contra apart
    have both : names nodes d' x + names nodes d x ≤ total n nodes x :=
      add_le_sum (f := fun d => names nodes d x) (fun _ _ => Nat.zero_le _)
        (mem_range.mpr inside') (mem_range.mpr inside) apart
    omega
  subst same
  refine ⟨rfl, ?_⟩
  have counted : (nodes d').slots.countP (namesNode x) ≤ 1 := by
    rw [names, if_pos entry.1] at share
    omega
  exact Sums.place_unique counted found' found (namesNode_iff.mpr ⟨entry'.2.2, hit', named'⟩)
    (namesNode_iff.mpr ⟨entry.2.2, hit, named⟩)

/-- The directories form a tree. -/
theorem DiskInv.treeShaped : TreeShaped nodes := by
  constructor
  · intro x reached other
    have below := fromRoot_below inv reached
    cases below with
    | root => exact absurd rfl other
    | @entry d de above entry named directory =>
      obtain ⟨k, found⟩ := List.getElem?_of_mem entry.2.1
      have here : NamedAt nodes de.inum d k :=
        ⟨above.fromRoot, de, entry, found, named, rfl⟩
      exact ⟨d, k, here, fun d' k' there => named_once inv directory here there,
        (inv.child d de entry named directory).first_two⟩
  · intro d directory
    exact pairwise_names.mpr (inv.distinct d directory)

end Tree

section Links

theorem live_iff (inv : DiskInv n nodes pend) (directory : (nodes d).type = .dir) :
    Live nodes d ↔ (nodes d).nlink ≠ 0 := by
  have small := inv.small d (by rw [directory]; exact nofun)
  have same : (nodes d).nlink.toInt = (nodes d).nlink.toNat := by
    rw [BitVec.toInt_eq_toNat_cond, if_pos (by omega)]
  constructor
  · rintro ⟨-, positive⟩ zero
    rw [zero] at positive
    exact absurd positive (by decide)
  · intro links
    refine ⟨directory, ?_⟩
    rw [same]
    exact_mod_cast Nat.pos_of_ne_zero fun zero => links (BitVec.eq_of_toNat_eq zero)

variable (inv : DiskInv n nodes fun _ => 0) (linked : Linked n nodes fun _ => 0)

include inv linked

/-- With exact links and none pending, the directories with links have one name each. -/
theorem linked_rooted : Rooted n nodes := by
  have outside : ∀ {d i}, 0 < names nodes d i → d < n := by
    intro d i positive
    obtain ⟨de, entry, -⟩ := names_pos.mp positive
    exact inv.inside_dir entry.1
  have share : ∀ d i, names nodes d i ≤ total n nodes i := by
    intro d i
    by_cases positive : 0 < names nodes d i
    · exact single_le_sum (f := fun d => names nodes d i) (fun _ _ => Nat.zero_le _)
        (mem_range.mpr (outside positive))
    · omega
  constructor
  · exact inv.range
  · exact ⟨inv.root, (live_iff inv inv.root.1).mpr inv.root_linked⟩
  · intro d
    have none := share d ROOTINO
    rw [inv.unnamed] at none
    omega
  · intro d live
    rcases inv.shape d live.1 with - | proper
    · -- a directory with links has a name, and so is complete
      by_cases root : d = ROOTINO
      · exact ⟨ROOTINO, root ▸ inv.root⟩
      · have named := linked.named live.1 ((live_iff inv live.1).mp live) rfl root
        obtain ⟨e, de, entry, -, rfl⟩ := exists_name named
        exact (inv.targets e de entry).2 live.1
    · exact proper
  · exact inv.parents
  · intro d directory dead
    have unlinked : (nodes d).nlink = 0 := not_not.mp fun links =>
      dead ((live_iff inv directory).mpr links)
    have counted := linked.exact d (by rw [directory]; exact nofun)
    rw [toNat_zero unlinked, owed] at counted
    have other : d ≠ ROOTINO := by
      rintro rfl
      exact inv.root_linked unlinked
    refine ⟨linked.bare d directory other (by omega), fun e => ?_⟩
    have none := share e d
    omega
  · intro x parent live other proper d
    have named := linked.named live.1 ((live_iff inv live.1).mp live) rfl other
    have once := inv.once x live.1
    have only : ∀ e, 0 < names nodes e x → e = parent := by
      intro e positive
      obtain ⟨de, entry, plain, rfl⟩ := names_pos.mp positive
      exact (inv.child e de entry plain live.1).parent_unique proper
    by_cases hit : d = parent
    · obtain ⟨e, de, entry, plain, same⟩ := exists_name named
      have positive : 0 < names nodes e x := names_pos.mpr ⟨de, entry, plain, same⟩
      have here := only e positive
      have few := share d x
      rw [if_pos hit]
      rw [here, ← hit] at positive
      omega
    · rw [if_neg hit]
      by_contra some
      exact hit (only d (Nat.pos_of_ne_zero some))

/-- Every link count is the number of entries that it counts. -/
theorem linked_exact : LinksExact n nodes := by
  intro i allocated
  have small := inv.small i allocated
  have counted := linked.exact i allocated
  rw [liveLinks_eq (linked_rooted inv linked), BitVec.toInt_eq_toNat_cond, if_pos (by omega),
    counted, owed]
  rfl

/-- An inode is leaked only if it has no links. -/
theorem noneLeaked_iff : NoneLeaked nodes ↔ ∀ i, (nodes i).type ≠ .free → (nodes i).nlink ≠ 0 := by
  constructor
  · intro named i allocated
    by_cases root : i = ROOTINO
    · rw [root]
      exact inv.root_linked
    · obtain ⟨d, k, -, de, entry, -, plain, rfl⟩ := named i allocated root
      exact fun unlinked => inv.no_name unlinked entry plain rfl
  · intro links i allocated other
    have named : 0 < total n nodes i := by
      by_cases directory : (nodes i).type = .dir
      · exact linked.named directory (links i allocated) rfl other
      · have counted := linked.exact i allocated
        have positive : 0 < (nodes i).nlink.toNat :=
          Nat.pos_of_ne_zero fun zero => links i allocated (BitVec.eq_of_toNat_eq zero)
        rw [owed, subdirs, if_neg directory, if_neg other] at counted
        omega
    obtain ⟨d, de, entry, plain, same⟩ := exists_name named
    obtain ⟨k, found⟩ := List.getElem?_of_mem entry.2.1
    have below := linked.below entry.1 (links d (by simp [entry.1])) rfl
    exact ⟨d, k, below.fromRoot, de, entry, found, plain, same⟩

end Links

end Xv6Cos.Verif

namespace Xv6Cos.Spec.Consistent

open Kernel Verif Finset

variable {n : ℕ} {nodes : Nodes} (image : Consistent n nodes)

include image

theorem root_dir : (nodes ROOTINO).type = .dir := image.rooted.1

theorem fromRoot_dir (reached : FromRoot nodes d) : (nodes d).type = .dir := by
  cases reached with
  | root => exact image.root_dir
  | entry _ _ directory => exact directory

theorem positive (directory : (nodes d).type = .dir) : d ≠ 0 :=
  (image.range d (by rw [directory]; exact nofun)).1.ne'

theorem reached (directory : (nodes d).type = .dir) : FromRoot nodes d := by
  by_cases root : d = ROOTINO
  · rw [root]
    exact .root
  · obtain ⟨e, k, above, de, entry, -, -, rfl⟩ :=
      image.linked d (by rw [directory]; exact nofun) root
    exact .entry above entry directory

theorem root_proper : Proper nodes ROOTINO ROOTINO := by
  obtain ⟨directory, one, two, -⟩ := image.rooted
  have positive := image.positive directory
  exact proper_of_two directory positive positive one two (image.tree.distinct _ directory)

section

variable (directory : (nodes d).type = .dir)

include directory

/-- A directory other than the root is complete, and its parent has its name. -/
theorem proper_named (other : d ≠ ROOTINO) :
    ∃ parent k, NamedAt nodes d parent k ∧
      (∀ e j, NamedAt nodes d e j → e = parent ∧ j = k) ∧ Proper nodes d parent := by
  obtain ⟨parent, k, named, unique, one, two⟩ :=
    image.tree.named d (image.reached directory) other
  have positive := image.positive (image.fromRoot_dir named.1)
  exact ⟨parent, k, named, unique, proper_of_two directory (image.positive directory) positive one
    two (image.tree.distinct d directory)⟩

theorem proper : ∃ parent, Proper nodes d parent := by
  by_cases root : d = ROOTINO
  · exact ⟨ROOTINO, root ▸ image.root_proper⟩
  · obtain ⟨parent, -, -, -, proper⟩ := image.proper_named directory root
    exact ⟨parent, proper⟩

/-- Every directory has links. -/
theorem live : Live nodes d := by
  have reached := image.reached directory
  induction reached with
  | root => exact ⟨directory, image.rooted.2.2.2⟩
  | @entry d de above entry _ ih =>
    have isDir := image.fromRoot_dir above
    obtain ⟨parent, proper⟩ := image.proper isDir
    by_cases dot : de.name = Dirent.dot
    · -- `.` is the directory itself
      rcases proper.entry entry with rfl | rfl | named
      · exact ih isDir
      · exact absurd dot (show Dirent.dotdot ≠ Dirent.dot by decide)
      · exact absurd dot (plain_iff.mp named).1
    · have live := ih isDir
      have here : 0 < linksIn nodes d de.inum := by
        rw [linksIn, if_pos ⟨isDir, live.2⟩]
        refine List.countP_pos_iff.mpr ⟨de, entry.2.1, ?_⟩
        simp [entry.2.2, dot]
      have inside := (image.range d (by simp [isDir])).2
      have share : linksIn nodes d de.inum ≤ liveLinks n nodes de.inum :=
        single_le_sum (f := fun d => linksIn nodes d de.inum) (fun _ _ => Nat.zero_le _)
          (mem_range.mpr inside)
      refine ⟨directory, ?_⟩
      rw [image.exact de.inum (by simp [directory])]
      exact_mod_cast lt_of_lt_of_le here share

end

theorem rooted' : Rooted n nodes := by
  have named : ∀ {d i}, 0 < names nodes d i → ∃ k, NamedAt nodes i d k := by
    intro d i positive
    obtain ⟨de, entry, plain, same⟩ := names_pos.mp positive
    obtain ⟨k, found⟩ := List.getElem?_of_mem entry.2.1
    exact ⟨k, image.reached entry.1, de, entry, found, plain, same⟩
  constructor
  · exact image.range
  · exact ⟨image.root_proper, image.live image.root_dir⟩
  · intro d
    by_contra some
    obtain ⟨k, here⟩ := named (Nat.pos_of_ne_zero some)
    exact image.unnamed d k here
  · exact fun d live => image.proper live.1
  · intro d parent proper
    by_cases root : d = ROOTINO
    · subst root
      rw [proper.parent_unique image.root_proper]
      exact image.root_dir
    · obtain ⟨e, k, here, -, proper'⟩ := image.proper_named proper.1 root
      rw [proper.parent_unique proper']
      exact image.fromRoot_dir here.1
  · exact fun d directory dead => absurd (image.live directory) dead
  · intro x parent live other proper d
    obtain ⟨e, k, here, unique, proper'⟩ := image.proper_named live.1 other
    obtain rfl := proper.parent_unique proper'
    by_cases hit : d = parent
    · subst hit
      obtain ⟨-, de, entry, found, plain, same⟩ := here
      have positive : 0 < names nodes d x := names_pos.mpr ⟨de, entry, plain, same⟩
      have counted : (nodes d).slots.countP (namesNode x) ≤ 1 := by
        apply Sums.countP_le_one
        intro i j a b one two meant meant'
        have places : ∀ m c, (nodes d).slots[m]? = some c → namesNode x c → m = k := by
          intro m c found hit
          obtain ⟨used, same, plain⟩ := namesNode_iff.mp hit
          exact (unique d m ⟨image.reached entry.1, c,
            ⟨entry.1, List.mem_of_getElem? found, used⟩, found, plain, same⟩).2
        rw [places i a one meant, places j b two meant']
      rw [names, if_pos entry.1] at positive ⊢
      rw [if_pos rfl]
      omega
    · rw [if_neg hit]
      by_contra some
      obtain ⟨j, there⟩ := named (Nat.pos_of_ne_zero some)
      exact hit (unique d j there).1

/-- The counts of a consistent image are those of the invariant. -/
theorem counts (allocated : (nodes i).type ≠ .free) :
    (nodes i).nlink.toNat < 2 ^ 15 ∧ (nodes i).nlink.toNat = owed n nodes (fun _ => 0) i := by
  have counted := image.exact i allocated
  have nonneg : 0 ≤ (nodes i).nlink.toInt := by
    rw [counted]
    exact Int.natCast_nonneg _
  have small := toInt_nonneg.mp nonneg
  rw [BitVec.toInt_eq_toNat_cond, if_pos (by omega), liveLinks_eq image.rooted'] at counted
  refine ⟨small, ?_⟩
  rw [owed, add_zero]
  exact_mod_cast counted

/-- The names of a directory other than the root. -/
theorem total_dir (directory : (nodes x).type = .dir) (other : x ≠ ROOTINO) :
    total n nodes x = 1 := by
  have rooted := image.rooted'
  obtain ⟨parent, k, here, -, proper⟩ := image.proper_named directory other
  have inside := (image.range parent (by rw [image.fromRoot_dir here.1]; exact nofun)).2
  rw [total, sum_congr rfl fun d _ => rooted.once x parent (image.live directory) other proper d,
    sum_ite_eq' (Finset.range n) parent, if_pos (mem_range.mpr inside)]

theorem total_root : total n nodes ROOTINO = 0 :=
  sum_eq_zero fun d _ => image.rooted'.unnamed d

/-- A consistent image meets the invariant of the inodes. -/
theorem diskInv : DiskInv n nodes fun _ => 0 := by
  have rooted := image.rooted'
  constructor
  · exact image.numbers
  · exact image.range
  · exact fun i allocated => (image.counts allocated).1
  · exact image.root_proper
  · intro d de entry
    exact ⟨image.entries d de entry, image.proper⟩
  · exact fun d directory => .inr (image.proper directory)
  · exact rooted.parents
  · exact fun d directory => pairwise_names.mp (image.tree.distinct d directory)
  · intro d de entry named directory
    have here : 0 < names nodes d de.inum := names_pos.mpr ⟨de, entry, named, rfl⟩
    have other : de.inum ≠ ROOTINO := by
      intro root
      rw [root, rooted.unnamed d] at here
      exact absurd here (lt_irrefl 0)
    obtain ⟨parent, proper⟩ := image.proper directory
    rw [rooted.once de.inum parent (image.live directory) other proper d] at here
    by_cases hit : d = parent
    · exact hit ▸ proper
    · rw [if_neg hit] at here
      exact absurd here (lt_irrefl 0)
  · intro i directory
    by_cases root : i = ROOTINO
    · rw [root, image.total_root]
      exact Nat.zero_le 1
    · rw [image.total_dir directory root]
  · exact image.total_root
  · exact fun i allocated => (image.counts allocated).2.ge

/-- The links of a consistent image are exact. -/
theorem linked' : Linked n nodes fun _ => 0 := by
  constructor
  · exact fun i allocated => (image.counts allocated).2
  · intro d directory other none
    rw [image.total_dir directory other] at none
    contradiction
  · exact fun d directory _ => fromRoot_below image.diskInv (image.reached directory)

end Xv6Cos.Spec.Consistent
