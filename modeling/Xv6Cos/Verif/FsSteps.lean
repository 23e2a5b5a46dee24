import Xv6Cos.Spec.FsRun
import Xv6Cos.Verif.DirChange
import Xv6Cos.Verif.FsQuiet

/-!
# Steps that change inodes

Each step that changes inodes is one or two changes that keep the invariant of the inodes, and
leaves what the other processes hold as they expect it.
-/

namespace Xv6Cos.Verif

open Kernel Spec Function List Finset Dirent BitVec Nat

variable {n : ℕ} {strict : Prop} {s t : FsTree} {p : Fin NPROC} {new : FsPlace} {i : ℕ}
  {nodes' : Nodes} {pend pend' : ℕ → ℕ}

/-- What a step is assumed to keep to. -/
structure Allowed (n : ℕ) (strict : Prop) (s : FsTree) (p : Fin NPROC) : Prop where
  fits : ∀ i ∈ raising s (s.place p), (s.node i).nlink.toInt < 2 ^ 15 - 1
  stays : ∀ ip next, s.place p = .drop ip next → s.ref ip = 1 → s.valid ip →
    (s.node ip).nlink = 0 → ∀ d < n, d ≠ ip → (s.node d).type = .dir →
    ⟨ip, Dirent.dotdot⟩ ∉ (s.node d).slots
  live : strict → ∀ d ∈ naming s (s.place p), (s.node d).nlink ≠ 0

section Counts

variable {x : BitVec 16}

theorem toInt_nonneg : 0 ≤ x.toInt ↔ x.toNat < 2 ^ 15 := by
  rw [toInt_eq_toNat_cond]
  have bound := x.isLt
  split
  case isTrue => omega
  case isFalse => omega

theorem toNat_succ (small : x.toNat < 2 ^ 15) : (x + 1).toNat = x.toNat + 1 := by
  rw [toNat_add]
  exact mod_eq_of_lt (by simp; omega)

/-- A count that has room can be incremented. -/
theorem succ_small (small : x.toNat < 2 ^ 15) (room : x.toInt < 2 ^ 15 - 1) :
    (x + 1).toNat < 2 ^ 15 := by
  rw [toInt_eq_toNat_cond, if_pos (by omega)] at room
  rw [toNat_succ small]
  omega

theorem toNat_pred (positive : 0 < x.toNat) : (x - 1).toNat + 1 = x.toNat := by
  have bound := x.isLt
  rw [toNat_sub]
  simp
  omega

theorem toNat_pos (positive : 1 ≤ x.toInt) : 0 < x.toNat := by
  rw [toInt_eq_toNat_cond] at positive
  have bound := x.isLt
  split at positive
  case isTrue => omega
  case isFalse => omega

theorem toNat_zero (zero : x = 0) : x.toNat = 0 := by
  rw [zero]
  rfl

end Counts

/-- There are no pending links to free inodes and to directories. -/
theorem FsInv.pending_zero (inv : FsInv n s)
    (other : (s.node i).type = .free ∨ (s.node i).type = .dir) : pending s i = 0 := by
  apply Finset.sum_eq_zero
  intro q _
  by_contra pends
  obtain ⟨allocated, file⟩ := inv.pended q i (pos_of_ne_zero pends)
  rcases other with free | directory
  · exact allocated free
  · exact file directory

section Links

variable {ip : ℕ}

/-- A change of one link count leaves types and entries. -/
theorem relinked_same {nodes : Nodes} {nlink : BitVec 16}
    (changed : nodes' = update nodes ip { nodes ip with nlink := nlink }) (d : ℕ) :
    (nodes' d).type = (nodes d).type ∧ (nodes' d).slots = (nodes d).slots := by
  rw [changed]
  by_cases hit : d = ip
  · rw [hit, update_self]
    exact ⟨rfl, rfl⟩
  · rw [update_of_ne hit]
    exact ⟨rfl, rfl⟩

/-- The link count of one inode changes with its pending links. -/
theorem relink_change {nodes : Nodes} {nlink : BitVec 16} (inv : DiskInv n nodes pend)
    (changed : nodes' = update nodes ip { nodes ip with nlink := nlink })
    (small : (nodes ip).type ≠ .free → nlink.toNat < 2 ^ 15)
    (links : nlink.toNat + pend ip = (nodes ip).nlink.toNat + pend' ip)
    (others : ∀ y, y ≠ ip → pend' y = pend y) : Change n strict nodes pend nodes' pend' := by
  refine .relink (fun d => (relinked_same changed d).1) (fun d => (relinked_same changed d).2)
    (fun d allocated => ?_) fun x _ => ?_
  · rw [changed]
    by_cases hit : d = ip
    · rw [hit] at allocated ⊢
      rw [update_self]
      exact small allocated
    · rw [update_of_ne hit]
      exact inv.small d allocated
  · rw [changed]
    by_cases hit : x = ip
    · rw [hit, update_self]
      exact links
    · rw [update_of_ne hit, others x hit]

/-- Only the link count of the inode changes. -/
theorem FsInv.relinked (inv : FsInv n s) {nlink : BitVec 16} (shifts : Shifts s t p new)
    (disk : DiskInv n t.node (pending t))
    (nodes : t.node = update s.node ip { s.node ip with nlink := nlink })
    (mine : ip ∈ procKeeps s p) (files : t.files = s.files)
    (refs : ∀ i, t.ref i + (placeRefs (s.place p)).count i = s.ref i + (placeRefs new).count i)
    (keeps : ∀ i ∈ placeKeeps new,
      i ∈ placeKeeps (s.place p) ∨ (¬MadeElsewhere s p i ∧ (s.node i).type ≠ .free))
    (handles : ∀ i ∈ placeHandles new, i ∈ placeHandles (s.place p) ∨ Good s.node i)
    (pended : ∀ i, 0 < placePend i new → (s.node i).type ≠ .free ∧ (s.node i).type ≠ .dir)
    (making : placeMaking new = none) : FsInv n t := by
  refine inv.shift shifts disk (fun i => ?_) (fun i hidden => ?_)
    (fun i _ => (relinked_same nodes i).1)
    (fun i good => good.congr (relinked_same nodes i).1 (relinked_same nodes i).2) keeps handles
    pended making fun i mem => .inl (files ▸ mem)
  · have change := refs i
    rw [files]
    omega
  · rw [nodes, update_of_ne]
    rintro rfl
    exact inv.visible mine hidden

section Counted

variable {path : Path} {start : ℕ} (inv : FsInv n s) (here : s.place p = .target (.linkOld path) ip)
  (shifts : Shifts s t p (.walk (.linkNew ip) start path))
  (nodes : t.node = update s.node ip { s.node ip with nlink := (s.node ip).nlink + 1 })
  (file : (s.node ip).type ≠ .dir) (allowed : Allowed n strict s p)

include inv here shifts nodes file allowed

/-- `link` counts a link. -/
theorem counted_change :
    Change n strict s.node (pending s) t.node (pending t) := by
  have allocated := inv.alive p ip <| by
    rw [procKeeps, here]
    exact List.mem_cons_self
  have moved : ∀ y, pending t y = pending s y + if ip == y then 1 else 0 := by
    intro y
    have change := shifts.pending y
    rw [here] at change
    simpa [placePend, callRefs, count_singleton] using change
  apply relink_change inv.disk nodes
  · intro _
    have raises : raising s (s.place p) = some ip := by
      rw [here]
      exact if_neg file
    exact succ_small (inv.disk.small ip allocated) (allowed.fits ip raises)
  · rw [toNat_succ (inv.disk.small ip allocated), moved, beq_self_eq_true, if_pos rfl]
    omega
  · intro y other
    have apart : ¬(ip == y) = true := by simpa using Ne.symm other
    rw [moved, if_neg apart, add_zero]

theorem FsInv.counts (known : Known s p start)
    (refs : t.ref = update s.ref start (s.ref start + 1)) (files : t.files = s.files) :
    FsInv n t := by
  have mine : ip ∈ placeKeeps (s.place p) := by
    rw [here]
    exact List.mem_cons_self
  have held : ip ∈ placeHandles (s.place p) := by
    rw [here]
    exact List.mem_cons_self
  obtain ⟨visible, good⟩ := inv.known known
  apply inv.relinked shifts
    (inv.disk.change (counted_change inv here shifts nodes file allowed)) nodes
    (mem_append_left _ mine) files
  · intro i
    rw [refs, ref_get, here]
    simp only [placeRefs, callRefs, count_cons, count_nil]
    omega
  · intro i mem
    rcases List.mem_cons.mp mem with rfl | mem
    · exact .inr ⟨visible, good.1⟩
    · obtain rfl := List.mem_singleton.mp mem
      exact .inl mine
  · intro i mem
    rcases List.mem_cons.mp mem with rfl | mem
    · exact .inr good
    · obtain rfl := List.mem_singleton.mp mem
      exact .inl held
  · intro i pends
    obtain rfl := List.mem_singleton.mp (count_pos_iff.mp pends)
    exact ⟨inv.alive p i (mem_append_left _ mine), file⟩
  · rfl

end Counted

section Undone

variable (inv : FsInv n s) (here : s.place p = .undo ip) (shifts : Shifts s t p (.drop ip .finish))
  (nodes : t.node = update s.node ip { s.node ip with nlink := (s.node ip).nlink - 1 })

include inv here shifts nodes

/-- `link` takes its count back. -/
theorem undone_change : Change n strict s.node (pending s) t.node (pending t) := by
  have allocated := inv.alive p ip <| by
    rw [procKeeps, here]
    exact List.mem_cons_self
  have moved : ∀ y, pending t y + (if ip = y then 1 else 0) = pending s y := by
    intro y
    have change := shifts.pending y
    rw [here] at change
    simpa [placePend] using change
  have one := moved ip
  rw [if_pos rfl] at one
  have positive : 0 < (s.node ip).nlink.toNat := by
    have counted := inv.disk.counts ip allocated
    rw [owed] at counted
    omega
  have less := toNat_pred positive
  apply relink_change inv.disk nodes
  · intro _
    have before := inv.disk.small ip allocated
    omega
  · omega
  · intro y other
    have same := moved y
    rwa [if_neg (Ne.symm other), add_zero] at same

theorem FsInv.undone (refs : t.ref = s.ref) (files : t.files = s.files) : FsInv n t := by
  have mine : ip ∈ placeKeeps (s.place p) := by
    rw [here]
    exact List.mem_cons_self
  have change : Change n True s.node (pending s) t.node (pending t) :=
    undone_change inv here shifts nodes
  apply inv.relinked shifts (inv.disk.change change) nodes (mem_append_left _ mine) files
  · intro i
    rw [refs, here]
    rfl
  · intro i mem
    obtain rfl := List.mem_singleton.mp mem
    exact .inl mine
  · exact fun i mem => absurd mem not_mem_nil
  · exact fun i pends => absurd pends (lt_irrefl 0)
  · rfl

end Undone

end Links

section Alloc

variable {make : NewNode} {dp j : ℕ} {name : Path} (inv : FsInv n s)
  (here : s.place p = .parent (.create make) dp name) (positive : 0 < j) (inside : j < n)
  (free : (s.node j).type = .free) (shifts : Shifts s t p (.alloc make dp name j))
  (nodes : t.node = update s.node j { Node.zero with type := make.type })

include inv here positive inside free shifts nodes

theorem alloc_change : Change n strict s.node (pending s) t.node (pending t) := by
  have after : t.node j = { Node.zero with type := make.type } := by
    rw [nodes, update_self]
  have empty : (t.node j).slots = [] := by
    rw [after]
    rfl
  have moved : ∀ y, pending t y = pending s y := by
    intro y
    have change := shifts.pending y
    rw [here] at change
    simpa [placePend, callRefs] using change
  have none : ∀ {de}, ¬HasEntry t.node j de := by
    intro de entry
    rw [HasEntry, empty] at entry
    exact absurd entry.2.1 not_mem_nil
  apply Change.swaps j
  · constructor
    · intro d other
      rw [nodes, update_of_ne other]
    · intro d de _ entry hit
      exact (inv.disk.targets d de entry).1 (hit ▸ free)
    · exact fun de entry => absurd entry none
  · exact ⟨positive, inside⟩
  · rintro rfl
    rw [inv.disk.root.1] at free
    contradiction
  · exact .inl free
  · rw [after]
    exact show (0 : BitVec 16).toNat < 2 ^ 15 by decide
  · exact fun de entry => absurd entry none
  · exact fun _ => .inl empty
  · exact fun parent proper => absurd empty proper.ne_nil
  · intro other
    rw [empty]
    exact zero_le 1
  · exact fun y _ => moved y
  · intro _
    rw [moved, inv.pending_zero (.inl free), after]
    rfl

theorem FsInv.alloc (directory : (s.node dp).type = .dir) (refs : t.ref = s.ref)
    (files : t.files = s.files) : FsInv n t := by
  have change : Change n True s.node (pending s) t.node (pending t) :=
    alloc_change inv here positive inside free shifts nodes
  have after : t.node j = { Node.zero with type := make.type } := by
    rw [nodes, update_self]
  have there : ∀ i, (s.node i).type ≠ .free → t.node i = s.node i := by
    intro i allocated
    rw [nodes, update_of_ne]
    rintro rfl
    exact allocated free
  have absent : ∀ q, j ∉ procKeeps s q := fun q mem => inv.alive q j mem free
  have kept : ∀ i ∈ procKeeps s p, ¬MadeElsewhere s p i ∧ (t.node i).type ≠ .free := by
    intro i mem
    have allocated := inv.alive p i mem
    rw [there i allocated]
    exact ⟨inv.visible mem, allocated⟩
  have good : ∀ i, Good s.node i → Good t.node i := by
    intro i before
    have same := there i before.1
    exact before.congr (by rw [same]) (by rw [same])
  apply inv.frame p 0 (inv.disk.change change)
  · rw [shifts.saved]
    exact inv.saved
  · exact shifts.others
  · intro i
    rw [refs, files, procRefs, procRefs, shifts.here, here, shifts.cwd]
    rfl
  · intro i hidden
    rw [nodes, update_of_ne]
    rintro rfl
    exact inv.visible_free free hidden
  · intro i _ allocated
    rw [there i allocated]
  · exact fun i _ => good i
  · exact fun q _ => inv.zero_unused q
  · intro i mem
    rw [shifts.keeps] at mem
    rcases mem_append.mp mem with found | current
    · rcases List.mem_cons.mp found with rfl | found
      · apply kept
        rw [procKeeps, here]
        exact List.mem_cons_self
      · obtain rfl := List.mem_singleton.mp found
        refine ⟨inv.visible_free free, ?_⟩
        rw [after]
        cases make with
        | _ => rintro ⟨⟩
    · exact kept i (mem_append_right _ current)
  · intro i mem
    rw [shifts.handles] at mem
    apply good
    apply inv.handled p
    rw [procHandles, here]
    exact mem
  · intro i pends
    rw [shifts.here] at pends
    exact absurd pends (lt_irrefl 0)
  · intro make' dp' ip' making
    rw [shifts.here] at making
    cases making
    refine ⟨⟨?_, ?_, ?_, ?_⟩, fun q _ => absent q, ?_, ?_⟩
    · rw [after]
    · rw [after]
      rfl
    · rw [after]
      rfl
    · rw [there dp (by simp [directory])]
      exact directory
    · intro current
      rw [shifts.cwd] at current
      exact absent p (mem_append_right _ (Option.mem_toList.mpr current))
    · rw [files]
      exact fun mem => inv.opened j mem free
  · intro drops
    rw [shifts.here] at drops
    contradiction
  · intro i mem
    rw [files] at mem
    exact .inl ⟨mem, inv.file_ne_zero mem⟩

end Alloc

section LinkedName

theorem Adds.good_new {nodes : Nodes} {dp x : ℕ} {name : Path}
    (adds : Adds n nodes pend nodes' pend' dp x name) (inv : DiskInv n nodes pend)
    (good : Good nodes i) : Good nodes' i := by
  unfold Good
  simp only [adds.types, adds.proper_iff inv]
  exact good

variable {ip dp : ℕ} {name : Path} {slots : List Dirent} {room : Bool} (inv : FsInv n s)
  (here : s.place p = .parent (.linkNew ip) dp name) (directory : (s.node dp).type = .dir)
  (added : dirlink (s.node dp).slots name ip room = some slots)
  (shifts : Shifts s t p (.drop dp (.drop ip .finish)))
  (nodes : t.node = update s.node dp { s.node dp with slots := slots })

include inv here directory added shifts nodes

/-- `link` writes the entry. -/
theorem linked_adds : Adds n s.node (pending s) t.node (pending t) dp ip name := by
  have after : t.node dp = { s.node dp with slots := slots } := by
    rw [nodes, update_self]
  have pends : 0 < placePend ip (s.place p) := by
    rw [here]
    simp [placePend, callRefs]
  have file := (inv.pended p ip pends).2
  have handles : ∀ i, i = dp ∨ i = ip → i ∈ procHandles s p := by
    intro i which
    rw [procHandles, here]
    rcases which with rfl | rfl
    · exact List.mem_cons_self
    · exact List.mem_cons_of_mem _ List.mem_cons_self
  constructor
  · intro d other
    rw [nodes, update_of_ne other]
  · rw [after]
    exact directory
  · exact (inv.handled p dp (handles dp (.inl rfl))).2 directory
  · rw [after]
    exact ⟨room, added⟩
  · rw [after, if_neg file]
    rfl
  · rw [after]
    exact inv.disk.small dp (by simp [directory])
  · exact inv.handled p ip (handles ip (.inr rfl))
  · rintro rfl
    exact file directory
  · exact fun isDir => absurd isDir file
  · intro y
    have change := shifts.pending y
    rw [here] at change
    simp only [placePend, callRefs, count_singleton, beq_iff_eq] at change
    simp only [eq_comm (a := y)]
    omega

theorem linked_change (allowed : Allowed n strict s p) :
    Change n strict s.node (pending s) t.node (pending t) := by
  have adds := linked_adds inv here directory added shifts nodes
  refine .adds dp ip name adds (inv.pending_zero (.inr directory)) fun holds => ?_
  apply allowed.live holds
  rw [here]
  exact if_pos (dirlink_split added).1

theorem FsInv.linkedName (refs : t.ref = s.ref) (files : t.files = s.files) : FsInv n t := by
  have adds := linked_adds inv here directory added shifts nodes
  have mine : ∀ i, i = dp ∨ i = ip → i ∈ placeKeeps (s.place p) := by
    intro i which
    rw [here]
    rcases which with rfl | rfl
    · exact List.mem_cons_self
    · exact List.mem_cons_of_mem _ List.mem_cons_self
  apply inv.shift shifts (adds.diskInv inv.disk)
  · intro i
    rw [refs, files, here]
    rfl
  · intro i hidden
    apply adds.others
    rintro rfl
    exact inv.visible (mem_append_left _ (mine i (.inl rfl))) hidden
  · exact fun i _ => adds.types i
  · exact fun i => adds.good_new inv.disk
  · intro i mem
    simp only [placeKeeps, List.mem_cons, not_mem_nil, or_false] at mem
    exact .inl (mine i mem)
  · exact fun i mem => absurd mem not_mem_nil
  · exact fun i pends => absurd pends (lt_irrefl 0)
  · rfl
  · intro i mem
    rw [files] at mem
    exact .inl mem

end LinkedName

section Freed

variable {ip : ℕ} {next : FsPlace} (inv : FsInv n s) (here : s.place p = .drop ip next)
  (last : s.ref ip = 1)

include inv here last

/-- The last reference: nobody else has the inode, and the process has it nowhere else. -/
theorem freed_alone : (∀ q, q ≠ p → ip ∉ procKeeps s q) ∧ ip ∉ placeKeeps next ∧
    s.cwd p ≠ some ip ∧ ip ∉ s.files := by
  have mine : ip ∈ procKeeps s p := by
    rw [procKeeps, here]
    exact List.mem_cons_self
  have making : placeMaking next = none := by
    have settled := inv.settled p
    rw [here] at settled
    exact settled rfl
  have counted := inv.counted ip
  rw [last, holders] at counted
  have share : (procRefs s p).count ip =
      1 + (placeRefs next).count ip + (s.cwd p).toList.count ip := by
    rw [procRefs, here, count_append, placeRefs, count_cons_self]
    omega
  have own : (procRefs s p).count ip ≤ ∑ q, (procRefs s q).count ip :=
    Finset.single_le_sum (f := fun q => (procRefs s q).count ip) (fun _ _ => zero_le _)
      (mem_univ p)
  have others : ∀ q, q ≠ p → ip ∉ procRefs s q := by
    intro q other
    have both : (procRefs s p).count ip + (procRefs s q).count ip ≤ ∑ q, (procRefs s q).count ip :=
      add_le_sum (f := fun q => (procRefs s q).count ip) (fun _ _ => zero_le _)
        (mem_univ p) (mem_univ q) (Ne.symm other)
    rw [← List.count_eq_zero]
    omega
  have rest : (placeRefs next).count ip = 0 ∧ (s.cwd p).toList.count ip = 0 ∧
      s.files.count ip = 0 := by
    omega
  refine ⟨fun q other mem => ?_, fun mem => ?_, fun current => ?_, fun mem => ?_⟩
  · rcases mem_append.mp mem with found | current
    · rcases keeps_refs found with held | ⟨make, dp, busy⟩
      · exact others q other (mem_append_left _ held)
      · exact (inv.made q make dp ip busy).2.1 p (Ne.symm other) mine
    · exact others q other (mem_append_right _ current)
  · rcases keeps_refs mem with held | ⟨make, dp, found⟩
    · exact List.count_eq_zero.mp rest.1 held
    · exact absurd (making.symm.trans found) (by simp)
  · exact List.count_eq_zero.mp rest.2.1 (Option.mem_toList.mpr current)
  · exact List.count_eq_zero.mp rest.2.2 mem

variable (unlinked : (s.node ip).nlink = 0) (shifts : Shifts s t p (.release ip next))
  (nodes : t.node = update s.node ip { s.node ip with type := .free, slots := [] })

include unlinked shifts nodes

/-- `iput` frees the inode. -/
theorem freed_change (kept : ∀ d < n, d ≠ ip → (s.node d).type = .dir →
      ⟨ip, dotdot⟩ ∉ (s.node d).slots) :
    Change n strict s.node (pending s) t.node (pending t) := by
  have allocated := inv.alive p ip <| by
    rw [procKeeps, here]
    exact List.mem_cons_self
  have after : t.node ip = { s.node ip with type := .free, slots := [] } := by
    rw [nodes, update_self]
  have free : (t.node ip).type = .free := by
    rw [after]
  have none : ∀ {de}, ¬HasEntry t.node ip de := by
    intro de entry
    rw [HasEntry, free] at entry
    exact absurd entry.1 (by simp)
  apply Change.swaps ip
  · constructor
    · intro d other
      rw [nodes, update_of_ne other]
    · intro d de other entry
      obtain ⟨parent, proper⟩ := inv.disk.proper_of_entry entry
      rcases proper.entry entry with rfl | rfl | named
      · exact other
      · rintro rfl
        exact kept d (inv.disk.inside_dir entry.1) other entry.1 entry.2.1
      · exact inv.disk.no_name unlinked entry named
    · exact fun de entry => absurd entry none
  · exact inv.disk.range ip allocated
  · rintro rfl
    exact inv.disk.root_linked unlinked
  · exact .inr unlinked
  · rw [after]
    exact inv.disk.small ip allocated
  · exact fun de entry => absurd entry none
  · intro directory
    rw [free] at directory
    contradiction
  · intro parent proper
    rw [Proper, free] at proper
    exact absurd proper.1 (by simp)
  · intro name
    rw [after]
    exact zero_le 1
  · intro y _
    have change := shifts.pending y
    rw [here] at change
    simp only [placePend] at change
    omega
  · exact fun used => absurd free used

theorem FsInv.freed (disk : DiskInv n t.node (pending t)) (refs : t.ref = s.ref)
    (files : t.files = s.files) : FsInv n t := by
  obtain ⟨left, later, current, closed⟩ := freed_alone inv here last
  have there : ∀ i, i ≠ ip → t.node i = s.node i := fun i other => by
    rw [nodes, update_of_ne other]
  have making : placeMaking (.release ip next) = none := by
    have settled := inv.settled p
    rw [here] at settled
    exact settled rfl
  have kept : ∀ i ∈ procKeeps t p, i ∈ procKeeps s p ∧ i ≠ ip := by
    intro i mem
    rw [shifts.keeps] at mem
    rw [procKeeps, here]
    rcases mem_append.mp mem with held | cwd
    · refine ⟨mem_append_left _ (List.mem_cons_of_mem _ held), ?_⟩
      rintro rfl
      exact later held
    · refine ⟨mem_append_right _ cwd, ?_⟩
      rintro rfl
      exact current (Option.mem_toList.mp cwd)
  have good : ∀ i, i ≠ ip → Good s.node i → Good t.node i := by
    intro i other before
    exact before.congr (by rw [there i other]) (by rw [there i other])
  apply inv.frame p ip disk
  · rw [shifts.saved]
    exact inv.saved
  · exact shifts.others
  · intro i
    rw [refs, files, procRefs, procRefs, shifts.here, here, shifts.cwd]
    rfl
  · intro i hidden
    apply there
    rintro rfl
    refine inv.visible ?_ hidden
    rw [procKeeps, here]
    exact List.mem_cons_self
  · intro i other _
    rw [there i other]
  · exact good
  · exact left
  · intro i mem
    obtain ⟨old, other⟩ := kept i mem
    rw [there i other]
    exact ⟨inv.visible old, inv.alive p i old⟩
  · intro i mem
    have held : i ∈ procKeeps t p := by
      rcases mem_append.mp mem with found | cwd
      · exact mem_append_left _ (handles_subset found)
      · exact mem_append_right _ cwd
    apply good i (kept i held).2
    apply inv.handled p
    rw [shifts.handles] at mem
    rw [procHandles, here]
    exact mem
  · intro i pends
    have held : i ∈ procKeeps t p := mem_append_left _ (pend_keeps pends)
    rw [there i (kept i held).2]
    apply inv.pended p
    rw [shifts.here] at pends
    rw [here]
    exact pends
  · intro make dp i found
    rw [shifts.here, making] at found
    contradiction
  · intro _
    rw [shifts.here]
    exact making
  · intro i mem
    rw [files] at mem
    refine .inl ⟨mem, ?_⟩
    rintro rfl
    exact closed mem

end Freed

section Unlinked

/-- An empty directory has no names in it. -/
theorem bare_of_isdirempty {nodes : Nodes} {d parent : ℕ} (proper : Proper nodes d parent)
    (empty : isdirempty (nodes d).slots) : Bare nodes d := by
  obtain ⟨-, rest, slots, -⟩ := proper
  intro de entry
  obtain ⟨-, mem, used⟩ := entry
  rw [slots] at mem empty
  rcases List.mem_cons.mp mem with rfl | mem
  · exact show ¬plain ⟨d, dot⟩ by simp [plain]
  · rcases List.mem_cons.mp mem with rfl | mem
    · exact show ¬plain ⟨parent, dotdot⟩ by simp [plain]
    · have unused := all_eq_true.mp empty de mem
      exact absurd (of_decide_eq_true unused) used

theorem Removes.good_new {nodes : Nodes} {dp x : ℕ} {name : Path}
    (removes : Removes nodes pend nodes' pend' dp x name) (good : Good nodes i) :
    Good nodes' i := by
  unfold Good
  simp only [removes.types, removes.proper_iff]
  exact good

/-- The pending links with one more. -/
def pendMore (s : FsTree) (x y : ℕ) : ℕ := pending s y + if y = x then 1 else 0

variable {dp x : ℕ} {name : Path} {cleared : Nodes} (inv : FsInv n s)
  (here : s.place p = .parent .unlink dp name) (one : name ≠ dot)
  (two : name ≠ dotdot) (directory : (s.node dp).type = .dir)
  (found : dirlookup (s.node dp).slots name = some x)
  (clears : cleared = update s.node dp { s.node dp with
    slots := clearEntry name (s.node dp).slots
    nlink := if (s.node x).type = .dir then (s.node dp).nlink - 1 else (s.node dp).nlink })

include inv here one two directory found clears

/-- `unlink` clears the entry. -/
theorem unlinked_removes : Removes s.node (pending s) cleared (pendMore s x) dp x name := by
  have after : cleared dp = { s.node dp with
      slots := clearEntry name (s.node dp).slots
      nlink := if (s.node x).type = .dir then (s.node dp).nlink - 1 else (s.node dp).nlink } := by
    rw [clears, update_self]
  obtain ⟨de, first, mem, used, rfl⟩ := dirlookup_some found
  have entry : HasEntry s.node dp ⟨x, name⟩ := ⟨directory, mem, used⟩
  have named : plain ⟨x, name⟩ := plain_iff.mpr ⟨one, two⟩
  have held : dp ∈ procHandles s p := by
    rw [procHandles, here]
    exact List.mem_cons_self
  constructor
  · intro d other
    rw [clears, update_of_ne other]
  · rw [after]
    exact directory
  · exact (inv.handled p dp held).2 directory
  · exact first
  · exact named
  · rw [after]
  · rw [after]
    dsimp only
    split
    case isFalse => rfl
    case isTrue isDir =>
      -- the entry is one of the directories that the count includes
      have inner : 0 < subdirs s.node dp := by
        rw [subdirs, if_pos directory]
        exact countP_pos_iff.mpr ⟨_, mem, namesDir_iff.mpr ⟨used, isDir, named⟩⟩
      have counted := inv.disk.counts dp (by simp [directory])
      rw [owed] at counted
      exact toNat_pred (by omega)
  · exact fun y => rfl

variable (apart : x ≠ dp) (counted : 1 ≤ (s.node x).nlink.toInt)
  (shifts : Shifts s t p (.drop dp (.drop x .finish)))
  (nodes : t.node = update cleared x { cleared x with nlink := (cleared x).nlink - 1 })

include apart counted shifts nodes

/-- `unlink` subtracts the link. -/
theorem unlinked_relink : Change n strict cleared (pendMore s x) t.node (pending t) := by
  have removes := unlinked_removes inv here one two directory found clears
  have middle := removes.diskInv inv.disk
  have allocated : (cleared x).type ≠ .free := by
    rw [removes.types]
    exact (inv.disk.targets dp _ removes.entry).1
  have positive : 0 < (cleared x).nlink.toNat := by
    rw [removes.others x apart]
    exact toNat_pos counted
  have less := toNat_pred positive
  have moved : ∀ y, pending t y = pending s y := by
    intro y
    have change := shifts.pending y
    rw [here] at change
    simpa [placePend, callRefs] using change
  apply relink_change middle nodes
  · intro used
    have before := middle.small x used
    omega
  · rw [moved, pendMore, if_pos rfl]
    omega
  · intro y other
    rw [moved, pendMore, if_neg other, add_zero]

theorem FsInv.unlinks (refs : t.ref = update s.ref x (s.ref x + 1))
    (files : t.files = s.files) : FsInv n t := by
  have removes := unlinked_removes inv here one two directory found clears
  have change : Change n True cleared (pendMore s x) t.node (pending t) :=
    unlinked_relink inv here one two directory found clears apart counted shifts nodes
  have mine : dp ∈ placeKeeps (s.place p) := by
    rw [here]
    exact List.mem_cons_self
  have same := relinked_same nodes
  apply inv.shift shifts ((removes.diskInv inv.disk).change change)
  · intro i
    rw [refs, ref_get, files, here]
    simp only [placeRefs, callRefs, count_cons, count_nil]
    omega
  · intro i hidden
    have notHeld : i ≠ dp := by
      rintro rfl
      exact inv.visible (mem_append_left _ mine) hidden
    have notNamed : i ≠ x := by
      rintro rfl
      exact inv.visible_entry removes.entry hidden
    rw [nodes, update_of_ne notNamed, removes.others i notHeld]
  · intro i _
    rw [(same i).1, removes.types]
  · exact fun i before => (removes.good_new before).congr (same i).1 (same i).2
  · intro i mem
    simp only [placeKeeps, List.mem_cons, not_mem_nil, or_false] at mem
    rcases mem with rfl | rfl
    · exact .inl mine
    · exact .inr ⟨inv.visible_entry removes.entry, (inv.disk.targets dp _ removes.entry).1⟩
  · exact fun i mem => absurd mem not_mem_nil
  · exact fun i pends => absurd pends (lt_irrefl 0)
  · rfl
  · intro i mem
    rw [files] at mem
    exact .inl mem

end Unlinked

end Xv6Cos.Verif
