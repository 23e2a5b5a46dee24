import Xv6Cos.Verif.FsCreate
import Xv6Cos.Verif.FsImage

/-!
# What every run of the file system calls keeps

Every step keeps the invariant of the system, and the exactness of the link counts if directories
without links get no names.
-/

namespace Xv6Cos.Verif

open Kernel Spec Transition Function Option

variable {n : ℕ} {strict : Prop} {s t : FsTree} {p : Fin NPROC} {nodes nodes' : Nodes}
  {pend pend' : ℕ → ℕ} {choice : FsChoice}

/-- One or two changes. -/
def Changes (n : ℕ) (strict : Prop) (nodes : Nodes) (pend : ℕ → ℕ) (nodes' : Nodes)
    (pend' : ℕ → ℕ) : Prop :=
  ∃ middle between, Change n strict nodes pend middle between ∧
    Change n strict middle between nodes' pend'

section Steps

/-- Nothing changes. -/
theorem Change.same (inv : DiskInv n nodes pend)
    (nodes_eq : nodes' = nodes) (pend_eq : pend' = pend) :
    Change n strict nodes pend nodes' pend' := by
  subst nodes_eq pend_eq
  exact .relink (fun _ => rfl) (fun _ => rfl) inv.small fun _ _ => rfl

/-- One change. -/
theorem Change.once (inv : DiskInv n nodes pend)
    (change : Change n strict nodes pend nodes' pend') :
    Changes n strict nodes pend nodes' pend' :=
  ⟨nodes, pend, .same inv rfl rfl, change⟩

/-- The inodes after a step, as changes. -/
theorem move_changes (inv : FsInv n s) (move : FsMove n s p t) (allowed : Allowed n strict s p) :
    Changes n strict s.node (pending s) t.node (pending t) := by
  have quiet : t.node = s.node → (∀ q, q ≠ p → t.place q = s.place q) →
      (∀ i, placePend i (t.place p) = placePend i (s.place p)) →
      Changes n strict s.node (pending s) t.node (pending t) := fun nodes others pends =>
    Change.once inv.disk (.same inv.disk nodes (pending_same others pends))
  have shifted : ∀ {new}, Shifts s t p new → t.node = s.node →
      (∀ i, placePend i new = placePend i (s.place p)) →
      Changes n strict s.node (pending s) t.node (pending t) := fun shifts nodes pends =>
    quiet nodes (fun q other => (shifts.others q other).1) fun i => by
      rw [shifts.here]
      exact pends i
  cases move with
  | stay new shifts nodes _ _ retains | get new x shifts nodes _ _ retains =>
    exact shifted shifts nodes retains.pends
  | alloc make dp name j here _ positive inside free shifts nodes =>
    exact Change.once inv.disk (alloc_change inv here positive inside free shifts nodes)
  | hold make dp name ip here shifts nodes =>
    refine shifted shifts nodes fun i => ?_
    rw [here]
    rfl
  | made make dp name ip slots entries room opened filled here fills fill added shifts nodes =>
    exact ⟨filled, _, filled_change inv here fills fill,
      made_change inv here fills fill added shifts nodes allowed⟩
  | failed make dp name ip slots major minor here which shifts nodes =>
    exact Change.once inv.disk (failed_change inv here which shifts nodes)
  | unlinked dp name x cleared here one two directory found apart counted empty clears shifts
      nodes =>
    have removes := unlinked_removes inv here one two directory found clears
    refine ⟨cleared, _, .removes dp x name removes fun isDir => ?_,
      unlinked_relink inv here one two directory found clears apart counted shifts nodes⟩
    obtain ⟨parent, proper⟩ := (inv.disk.targets dp _ removes.entry).2 isDir
    exact bare_of_isdirempty proper (empty isDir)
  | counted ip path start here file _ shifts nodes =>
    exact Change.once inv.disk (counted_change inv here shifts nodes file allowed)
  | linked ip dp name slots room here directory added shifts nodes =>
    exact Change.once inv.disk (linked_change inv here directory added shifts nodes allowed)
  | undone ip here shifts nodes =>
    exact Change.once inv.disk (undone_change inv here shifts nodes)
  | freed ip next here last valid unlinked shifts nodes =>
    exact Change.once inv.disk (freed_change inv here last unlinked shifts nodes
      (allowed.stays ip next here last valid unlinked))
  | dropped ip next here shifts nodes =>
    refine shifted shifts nodes fun i => ?_
    rcases here with here | here
    · rw [here]
      rfl
    · rw [here]
      rfl
  | opened call ip here none shifts nodes =>
    refine shifted shifts nodes fun i => ?_
    rw [here]
    simp [placePend, none]
  | chdir ip old here _ place _ _ nodes | ended here place _ _ nodes =>
    refine quiet nodes (fun q other => by rw [place, update_of_ne other]) fun i => ?_
    rw [place, here, update_self]
    rfl

/-- Changes keep the disk intact. -/
theorem DiskInv.changes (inv : DiskInv n nodes pend)
    (changes : Changes n strict nodes pend nodes' pend') : DiskInv n nodes' pend' := by
  obtain ⟨middle, between, first, second⟩ := changes
  exact (inv.change first).change second

/-- Changes keep the links exact. -/
theorem Linked.changes (linked : Linked n nodes pend)
    (inv : DiskInv n nodes pend) (changes : Changes n True nodes pend nodes' pend') :
    Linked n nodes' pend' := by
  obtain ⟨middle, between, first, second⟩ := changes
  exact (linked.change inv first).change (inv.change first) second

/-- A step of a call keeps the invariant. -/
theorem move_inv (inv : FsInv n s) (move : FsMove n s p t) (allowed : Allowed n strict s p) :
    FsInv n t := by
  have disk := inv.disk.changes (move_changes inv move allowed)
  cases move with
  | stay new shifts nodes refs files retains =>
    exact inv.carry shifts nodes files (fun i => by rw [refs]; rfl) retains
      fun x mem => absurd mem List.not_mem_nil
  | get new x shifts nodes refs files retains known =>
    refine inv.carry shifts nodes files (fun i => ?_) retains fun y mem => ?_
    · rw [refs, ref_get, List.count_singleton]
    · obtain rfl := List.mem_singleton.mp mem
      exact known
  | alloc make dp name j here directory positive inside free shifts nodes refs files =>
    exact inv.alloc here positive inside free shifts nodes directory refs files
  | hold make dp name ip here shifts nodes refs files => exact inv.hold here shifts nodes files refs
  | made make dp name ip slots entries room opened filled here fills fill added shifts nodes refs
      files =>
    exact inv.makes here fills fill added shifts nodes allowed refs files
  | failed make dp name ip slots major minor here which shifts nodes refs files =>
    exact inv.fails here which shifts nodes refs files
  | unlinked dp name x cleared here one two directory found apart counted empty clears shifts
      nodes refs files =>
    exact inv.unlinks here one two directory found clears apart counted shifts nodes refs files
  | counted ip path start here file known shifts nodes refs files =>
    exact inv.counts here shifts nodes file allowed known refs files
  | linked ip dp name slots room here directory added shifts nodes refs files =>
    exact inv.linkedName here directory added shifts nodes refs files
  | undone ip here shifts nodes refs files => exact inv.undone here shifts nodes refs files
  | freed ip next here last valid unlinked shifts nodes refs files =>
    exact inv.freed here last unlinked shifts nodes disk refs files
  | dropped ip next here shifts nodes refs files => exact inv.dropped here shifts nodes files refs
  | opened call ip here none shifts nodes refs files =>
    exact inv.openedFile here none shifts nodes refs files
  | chdir ip old here current place saved cwd nodes refs files =>
    exact inv.chdir here current place saved cwd nodes refs files
  | ended here place saved cwd nodes refs files =>
    exact inv.ended here place saved cwd nodes refs files

/-- The log commits only when no call is under way. -/
theorem move_saved (move : FsMove n s p t) :
    t.committed = s.committed ∨ (t.committed = t.node ∧ ∀ q, t.place q = .idle) := by
  cases move with
  | chdir ip old _ _ _ saved => exact .inl saved
  | ended _ _ saved _ nodes =>
    rw [nodes]
    exact saved
  | stay _ shifts | get _ _ shifts | alloc _ _ _ _ _ _ _ _ _ shifts | hold _ _ _ _ _ shifts
  | made _ _ _ _ _ _ _ _ _ _ _ _ _ shifts | failed _ _ _ _ _ _ _ _ _ shifts
  | unlinked _ _ _ _ _ _ _ _ _ _ _ _ _ shifts | counted _ _ _ _ _ _ shifts
  | linked _ _ _ _ _ _ _ _ shifts | undone _ _ shifts | freed _ _ _ _ _ _ shifts
  | dropped _ _ _ shifts | opened _ _ _ _ shifts => exact .inl shifts.saved

end Steps

/-- The links of the inodes are exact, now and after recovery. -/
def FsLinked (n : ℕ) (s : FsTree) : Prop :=
  Linked n s.node (pending s) ∧ Linked n s.committed fun _ => 0

section Actions

variable {action : FsAction}

/-- What a step of a call is assumed to keep to. -/
theorem step_allowed (parents : ParentsStay n s action) (room : HasRoom s action)
    (live : strict → NamesLinked s action) (advances : action = .advance p choice) :
    Allowed n strict s p := by
  subst advances
  refine ⟨room, fun ip next here last valid unlinked => parents ip ?_, live⟩
  show freeing s (.advance p choice) = some ip
  rw [freeing, here]
  exact if_pos ⟨last, valid, unlinked⟩

/-- What `fork` does. -/
theorem fork_some {child : Fin NPROC} (stepped : s.next n (.fork p child) = some t) :
    ∃ c, s.cwd p = some c ∧ s.place child = .idle ∧ s.cwd child = none ∧ t = { s with
      ref := update s.ref c (s.ref c + 1)
      cwd := update s.cwd child (some c) } := by
  dsimp only [FsTree.next] at stepped
  split at stepped
  case h_1 => contradiction
  case h_2 c current =>
    obtain ⟨⟨-, idle, unused⟩, moved⟩ := ite_none_right_eq_some.mp stepped
    exact ⟨c, current, idle, unused, (some.inj moved).symm⟩

/-- What `exit` does. -/
theorem exit_some (stepped : s.next n (.exit p) = some t) :
    ∃ c, s.cwd p = some c ∧ s.place p = .idle ∧
      t = { s.goto p (.drop c .finish) with cwd := update s.cwd p none } := by
  dsimp only [FsTree.next] at stepped
  split at stepped
  case h_1 => contradiction
  case h_2 c current =>
    obtain ⟨idle, moved⟩ := ite_none_right_eq_some.mp stepped
    exact ⟨c, current, idle, (some.inj moved).symm⟩

/-- Every step keeps the invariant of the system. -/
theorem next_fsInv (inv : FsInv n s)
    (allowed : ∀ {p choice}, action = .advance p choice → Allowed n strict s p)
    (stepped : s.next n action = some t) : FsInv n t := by
  cases action with
  | start p call path =>
    obtain ⟨⟨idle, -, -, -, starts⟩, moved⟩ := ite_none_right_eq_some.mp stepped
    obtain ⟨⟨ip, u⟩, first, rfl⟩ := map_eq_some_iff.mp moved
    exact inv.started idle starts first
  | advance p choice => exact move_inv inv (fs_advance_move stepped) (allowed rfl)
  | close p ip =>
    obtain ⟨⟨idle, -, mem⟩, moved⟩ := ite_none_right_eq_some.mp stepped
    cases moved
    exact inv.closed idle mem ⟨rfl, rfl, rfl⟩ rfl rfl rfl
  | fork p child =>
    obtain ⟨c, current, idle, unused, rfl⟩ := fork_some stepped
    exact inv.forked current idle unused rfl rfl rfl rfl rfl rfl
  | exit p =>
    obtain ⟨c, current, idle, rfl⟩ := exit_some stepped
    exact inv.exited current idle rfl rfl rfl rfl rfl rfl
  | crash =>
    cases stepped
    exact fs_boot_inv inv.saved

/-- A step that is not part of a call changes no inode, unless it is a crash. -/
theorem next_quiet (stepped : s.next n action = some t) :
    (∃ p choice, action = .advance p choice) ∨ action = .crash ∨
      (t.node = s.node ∧ t.committed = s.committed ∧ pending t = pending s) := by
  cases action with
  | start p call path =>
    obtain ⟨⟨idle, -, -, -, starts⟩, moved⟩ := ite_none_right_eq_some.mp stepped
    obtain ⟨⟨ip, u⟩, first, rfl⟩ := map_eq_some_iff.mp moved
    obtain ⟨-, nodes, places, -, saved, -⟩ := namexStart_some first
    refine .inr (.inr ⟨nodes, saved, pending_same (p := p) (fun q other => ?_) fun i => ?_⟩)
    · show update u.place p _ q = s.place q
      rw [places, update_of_ne other]
    · have there : (u.goto p (.walk call ip path)).place p = .walk call ip path :=
        update_self _ _ _
      rw [there, idle]
      cases call with
      | linkNew => contradiction
      | _ => rfl
  | advance p choice => exact .inl ⟨p, choice, rfl⟩
  | close p ip =>
    obtain ⟨⟨idle, -⟩, moved⟩ := ite_none_right_eq_some.mp stepped
    cases moved
    refine .inr (.inr ⟨rfl, rfl, pending_same (p := p) (fun q other => ?_) fun i => ?_⟩)
    · exact update_of_ne other _ _
    · simp [FsTree.goto, idle, placePend]
  | fork p child =>
    obtain ⟨c, -, -, -, rfl⟩ := fork_some stepped
    exact .inr (.inr ⟨rfl, rfl, rfl⟩)
  | exit p =>
    obtain ⟨c, -, idle, rfl⟩ := exit_some stepped
    refine .inr (.inr ⟨rfl, rfl, pending_same (p := p) (fun q other => ?_) fun i => ?_⟩)
    · exact update_of_ne other _ _
    · simp [FsTree.goto, idle, placePend]
  | crash => exact .inr (.inl rfl)

/-- Every step keeps the links exact, if directories without links get no names. -/
theorem next_linked (inv : FsInv n s) (linked : FsLinked n s)
    (allowed : ∀ {p choice}, action = .advance p choice → Allowed n True s p)
    (stepped : s.next n action = some t) : FsLinked n t := by
  rcases next_quiet stepped with ⟨p, choice, rfl⟩ | rfl | ⟨nodes, saved, pends⟩
  · have move : FsMove n s p t := fs_advance_move stepped
    have after := linked.1.changes inv.disk (move_changes inv move (allowed rfl))
    refine ⟨after, ?_⟩
    rcases move_saved move with kept | ⟨written, idle⟩
    · rw [kept]
      exact linked.2
    · rw [written, ← pending_idle idle]
      exact after
  · cases stepped
    refine ⟨?_, linked.2⟩
    rw [pending_idle fun _ => rfl]
    exact linked.2
  · rw [FsLinked, nodes, saved, pends]
    exact linked

end Actions

section Runs

variable {trace : List FsAction}

/-- The invariant holds in every state of an orderly run. -/
theorem orderly_inv (run : (orderlyFs n).Exec trace s) : FsInv n s := by
  refine run.invariant (fun _ => FsInv n) ?_ ?_
  · rintro s ⟨nodes, image, rfl⟩
    exact fs_boot_inv image.diskInv
  · rintro _ s action t inv ⟨stepped, parents, room⟩
    have allowed : ∀ {p choice}, action = .advance p choice → Allowed n False s p :=
      step_allowed parents room False.elim
    exact next_fsInv inv allowed stepped

/-- If directories without links get no names, the links are exact in every state of a run. -/
theorem linked_inv (run : (linkedFs n).Exec trace s) : FsInv n s ∧ FsLinked n s := by
  refine run.invariant (fun _ s => FsInv n s ∧ FsLinked n s) ?_ ?_
  · rintro s ⟨nodes, image, rfl⟩
    refine ⟨fs_boot_inv image.diskInv, ?_, image.linked'⟩
    rw [pending_idle fun _ => rfl]
    exact image.linked'
  · rintro _ s action t ⟨inv, linked⟩ ⟨stepped, parents, room, named⟩
    have allowed : ∀ {p choice}, action = .advance p choice → Allowed n True s p :=
      step_allowed parents room fun _ => named
    exact ⟨next_fsInv inv allowed stepped, next_linked inv linked allowed stepped⟩

end Runs

end Xv6Cos.Verif
