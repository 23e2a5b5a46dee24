import Xv6Cos.Verif.FsSteps

/-!
# `create` with its new inode

The new inode is prepared while nobody else has it, and then gets its name; or it is left without
links for `iput` to free.
-/

namespace Xv6Cos.Verif

open Kernel Spec Function List Dirent

variable {n : ℕ} {strict : Prop} {s t : FsTree} {p : Fin NPROC} {make : NewNode} {dp ip : ℕ}
  {name : Path} {slots : List Dirent}

/-- The entries of a new inode: none, or those of an empty directory. -/
def Fresh (make : NewNode) (dp ip : ℕ) (slots : List Dirent) : Prop :=
  slots = [] ∨ (make.type = .dir ∧ slots = [⟨ip, Dirent.dot⟩, ⟨dp, Dirent.dotdot⟩])

section Entries

variable (positive : ip ≠ 0) (small : ip < 2 ^ 16) (small' : dp < 2 ^ 16)

include small

theorem dirlink_dot {room : Bool} {first : List Dirent}
    (linked : dirlink [] dot ip room = some first) : first = [⟨ip, dot⟩] := by
  have result := dirlink_full (fun de mem => absurd mem not_mem_nil) linked
  rwa [Nat.mod_eq_of_lt small] at result

include positive small'

/-- What `create` writes into a new directory. -/
theorem fills_dir (fills : Fills make dp ip [] slots) (isDir : make.type = .dir) :
    slots = [⟨ip, dot⟩, ⟨dp, dotdot⟩] := by
  cases fills with
  | other file => exact absurd isDir file
  | dir _ dot dotdot =>
    obtain rfl := dirlink_dot small dot
    have result := dirlink_full (fun de mem => by
      obtain rfl := mem_singleton.mp mem
      exact positive) dotdot
    rwa [Nat.mod_eq_of_lt small'] at result

theorem fills_fresh (fills : Fills make dp ip [] slots) : Fresh make dp ip slots := by
  by_cases isDir : make.type = .dir
  · exact .inr ⟨isDir, fills_dir positive small small' fills isDir⟩
  · cases fills with
    | other => exact .inl rfl
    | dir directory => exact absurd directory isDir

end Entries

section Making

variable (inv : FsInv n s) (here : s.place p = .fill make dp name ip)

include inv here

/-- What `create` knows of its inodes. -/
theorem fill_facts : Made s make dp ip ∧ (∃ above, Proper s.node dp above) ∧ dp ≠ ip ∧
    (s.node ip).type ≠ .free ∧ ip ∈ procKeeps s p ∧ dp ∈ procKeeps s p := by
  have making : placeMaking (s.place p) = some (make, dp, ip) := by
    rw [here]
    rfl
  have made := (inv.made p make dp ip making).1
  have handle : dp ∈ procHandles s p := by
    rw [procHandles, here]
    exact mem_cons_self
  have proper := (inv.handled p dp handle).2 made.parent
  have mine : ip ∈ procKeeps s p := by
    rw [procKeeps, here]
    exact mem_cons_of_mem _ mem_cons_self
  refine ⟨made, proper, ?_, inv.alive p ip mine, mine, ?_⟩
  · rintro rfl
    obtain ⟨above, proper⟩ := proper
    exact proper.ne_nil made.slots
  · rw [procKeeps, here]
    exact mem_cons_self

/-- The numbers of the inodes fit into entries. -/
theorem fill_numbers : ip ≠ 0 ∧ ip < 2 ^ 16 ∧ dp < 2 ^ 16 := by
  obtain ⟨made, -, -, allocated, -⟩ := fill_facts inv here
  have numbers := inv.disk.numbers
  have range := inv.disk.range ip allocated
  have inside := inv.disk.inside_dir made.parent
  exact ⟨range.1.ne', by omega, by omega⟩

theorem fill_fresh (fills : Fills make dp ip (s.node ip).slots slots) : Fresh make dp ip slots := by
  obtain ⟨made, -⟩ := fill_facts inv here
  obtain ⟨positive, small, small'⟩ := fill_numbers inv here
  rw [made.slots] at fills
  exact fills_fresh positive small small' fills

variable {nodes' : Nodes} {pend' : ℕ → ℕ} {major minor nlink : BitVec 16}
  (fresh : Fresh make dp ip slots)
  (prepared : nodes' = update s.node ip { s.node ip with
    major := major, minor := minor, nlink := nlink, slots := slots })

include prepared

omit inv here in
theorem prepared_self : nodes' ip = { s.node ip with
    major := major, minor := minor, nlink := nlink, slots := slots } := by
  rw [prepared, update_self]

include fresh

/-- The new directory is complete. -/
theorem prepared_proper (isDir : make.type = .dir) (filled : slots ≠ []) : Proper nodes' ip dp := by
  obtain ⟨made, -⟩ := fill_facts inv here
  have after := prepared_self prepared
  rcases fresh with empty | ⟨-, full⟩
  · exact absurd empty filled
  · refine ⟨?_, [], ?_, fun de mem => absurd mem not_mem_nil⟩
    · rw [after]
      exact made.type.trans isDir
    · rw [after]
      exact full

theorem prepared_swaps : Swaps s.node nodes' ip := by
  obtain ⟨made, -⟩ := fill_facts inv here
  have after := prepared_self prepared
  constructor
  · intro d other
    rw [prepared, update_of_ne other]
  · exact fun d de _ entry => inv.new_unnamed made entry
  · intro de entry
    rw [HasEntry, after] at entry
    obtain ⟨-, mem, -⟩ := entry
    rcases fresh with rfl | ⟨-, rfl⟩
    · exact absurd mem not_mem_nil
    · simp only [mem_cons, not_mem_nil, or_false] at mem
      rcases mem with rfl | rfl
      · simp [plain]
      · simp [plain]

/-- The new inode is prepared. -/
theorem prepared_change (small : nlink.toNat < 2 ^ 15) (pends : ∀ y, y ≠ ip → pend' y = pending s y)
    (counts : nlink.toNat = pend' ip) : Change n strict s.node (pending s) nodes' pend' := by
  obtain ⟨made, ⟨above, complete⟩, apart, allocated, -⟩ := fill_facts inv here
  have swaps := prepared_swaps inv here fresh prepared
  have after := prepared_self prepared
  have parent : Good nodes' dp := by
    rw [swaps.good_old apart]
    exact ⟨by rw [made.parent]; exact nofun, fun _ => ⟨above, complete⟩⟩
  apply Change.swaps ip swaps (inv.disk.range ip allocated)
  · rintro rfl
    exact inv.disk.root.ne_nil made.slots
  · exact .inr made.nlink
  · rw [after]
    exact small
  · intro de entry
    have mem := entry.2.1
    rw [after] at mem
    rcases fresh with rfl | ⟨isDir, rfl⟩
    · exact absurd mem not_mem_nil
    · have proper := prepared_proper inv here (.inr ⟨isDir, rfl⟩) prepared isDir nofun
      simp only [mem_cons, not_mem_nil, or_false] at mem
      rcases mem with rfl | rfl
      · exact ⟨by rw [entry.1]; exact nofun, fun _ => ⟨dp, proper⟩⟩
      · exact parent
  · intro _
    rcases fresh with empty | ⟨isDir, full⟩
    · left
      rw [after]
      exact empty
    · right
      exact ⟨dp, prepared_proper inv here (.inr ⟨isDir, full⟩) prepared isDir
        (by rw [full]; exact nofun)⟩
  · intro other proper
    rcases fresh with empty | ⟨isDir, full⟩
    · refine absurd ?_ proper.ne_nil
      rw [after]
      exact empty
    · have mine := prepared_proper inv here (.inr ⟨isDir, full⟩) prepared isDir
        (by rw [full]; exact nofun)
      rw [proper.parent_unique mine, swaps.others dp apart]
      exact made.parent
  · intro other
    rw [after]
    rcases fresh with rfl | ⟨-, rfl⟩
    · exact Nat.zero_le 1
    · by_cases dot : dot = other
      · have differ : ¬dotdot = other := by
          rintro rfl
          exact absurd dot (by decide)
        simp [countP_cons, hits, differ]
        split <;> omega
      · simp [countP_cons, hits, dot]
        split <;> omega
  · exact pends
  · intro _
    rw [after]
    exact counts

end Making

section Prepared

theorem prepared_types {nodes' : Nodes} {major minor nlink : BitVec 16}
    (prepared : nodes' = update s.node ip { s.node ip with
      major := major, minor := minor, nlink := nlink, slots := slots }) (i : ℕ) :
    (nodes' i).type = (s.node i).type := by
  by_cases hit : i = ip
  · rw [prepared, hit, update_self]
  · rw [prepared, update_of_ne hit]

variable (inv : FsInv n s) (here : s.place p = .fill make dp name ip)

include inv here

/-- A new inode has no pending links. -/
theorem fill_pending : pending s ip = 0 := by
  obtain ⟨made, -, -, allocated, -⟩ := fill_facts inv here
  have counted := inv.disk.counts ip allocated
  rw [toNat_zero made.nlink, owed] at counted
  omega

/-- Preparing an inode keeps what paths may lead to. -/
theorem prepared_good {nodes' : Nodes} (swaps : Swaps s.node nodes' ip)
    (types : (nodes' ip).type = (s.node ip).type) {i : ℕ} (good : Good s.node i) :
    Good nodes' i := by
  obtain ⟨made, -⟩ := fill_facts inv here
  by_cases hit : i = ip
  · subst hit
    refine ⟨by rw [types]; exact good.1, fun directory => ?_⟩
    rw [types] at directory
    obtain ⟨above, proper⟩ := good.2 directory
    exact absurd made.slots proper.ne_nil
  · exact (swaps.good_old hit).mpr good

end Prepared

section Failed

variable {major minor : BitVec 16} (inv : FsInv n s) (here : s.place p = .fill make dp name ip)
  (which : slots = (s.node ip).slots ∨ Fills make dp ip (s.node ip).slots slots ∨
    ∃ room room', dirlink (s.node ip).slots dot ip room = some slots ∧
      dirlink slots dotdot dp room' = none)
  (shifts : Shifts s t p (.drop ip (.drop dp .finish)))
  (nodes : t.node = update s.node ip { s.node ip with
    major := major, minor := minor, nlink := 0, slots := slots })

include inv here which

/-- The entries of the inode that `create` gives up. -/
theorem failed_fresh : Fresh make dp ip slots := by
  obtain ⟨made, -⟩ := fill_facts inv here
  obtain ⟨-, small, -⟩ := fill_numbers inv here
  rcases which with rfl | fills | ⟨room, room', dot, dotdot⟩
  · exact .inl made.slots
  · exact fill_fresh inv here fills
  · rw [made.slots] at dot
    obtain rfl := dirlink_dot small dot
    exact absurd dotdot (dirlink_dotdot ip)

include shifts nodes

theorem failed_change : Change n strict s.node (pending s) t.node (pending t) := by
  have moved : ∀ y, pending t y = pending s y := by
    intro y
    have change := shifts.pending y
    rw [here] at change
    simpa [placePend] using change
  apply prepared_change inv here (failed_fresh inv here which) nodes
  · decide
  · exact fun y _ => moved y
  · rw [moved, fill_pending inv here]
    rfl

theorem FsInv.fails (refs : t.ref = s.ref) (files : t.files = s.files) : FsInv n t := by
  obtain ⟨made, -, -, -, mine, mine'⟩ := fill_facts inv here
  have fresh := failed_fresh inv here which
  have swaps := prepared_swaps inv here fresh nodes
  have change : Change n True s.node (pending s) t.node (pending t) :=
    failed_change inv here which shifts nodes
  have types := prepared_types nodes
  apply inv.shift shifts (inv.disk.change change)
  · intro i
    rw [refs, files, here]
    simp only [placeRefs, count_cons, count_nil]
    omega
  · intro i hidden
    apply swaps.others
    rintro rfl
    exact inv.visible mine hidden
  · exact fun i _ => types i
  · exact fun i => prepared_good inv here swaps (types ip)
  · intro i mem
    rw [here]
    simp only [placeKeeps, mem_cons, not_mem_nil, or_false] at mem ⊢
    exact .inl mem.symm
  · exact fun i mem => absurd mem not_mem_nil
  · exact fun i pends => absurd pends (lt_irrefl 0)
  · rfl
  · intro i mem
    rw [files] at mem
    exact .inl mem

end Failed

section Made

variable {entries : List Dirent} {room opened : Bool} {filled : Nodes} (inv : FsInv n s)
  (here : s.place p = .fill make dp name ip)
  (fills : Fills make dp ip (s.node ip).slots slots)
  (fill : filled = update s.node ip { s.node ip with
    major := make.major, minor := make.minor, nlink := 1, slots := slots })

include inv here fills fill

/-- `create` prepares the inode, with a link that is not yet written. -/
theorem filled_change : Change n strict s.node (pending s) filled (pendMore s ip) := by
  apply prepared_change inv here (fill_fresh inv here fills) fill
  · decide
  · intro y other
    rw [pendMore, if_neg other, add_zero]
  · rw [pendMore, if_pos rfl, fill_pending inv here]
    rfl

variable (added : dirlink (filled dp).slots name ip room = some entries)
  (shifts : Shifts s t p (.drop dp (if opened then .finish else .drop ip .finish)))
  (nodes : t.node = update filled dp { filled dp with
    slots := entries
    nlink := if make.type = .dir then (filled dp).nlink + 1 else (filled dp).nlink })
  (allowed : Allowed n strict s p)

include added shifts nodes allowed

/-- `create` gives the inode its name. -/
theorem filled_adds : Adds n filled (pendMore s ip) t.node (pending t) dp ip name := by
  obtain ⟨made, ⟨above, complete⟩, apart, allocated, -⟩ := fill_facts inv here
  obtain ⟨positive, small, small'⟩ := fill_numbers inv here
  have fresh := fill_fresh inv here fills
  have swaps := prepared_swaps inv here fresh fill
  have types := prepared_types fill
  have isDir : (filled dp).type = .dir := by
    rw [types]
    exact made.parent
  have after : t.node dp = { filled dp with
      slots := entries
      nlink := if make.type = .dir then (filled dp).nlink + 1 else (filled dp).nlink } := by
    rw [nodes, update_self]
  have proper : make.type = .dir → Proper filled ip dp := by
    intro directory
    apply prepared_proper inv here fresh fill directory
    rw [made.slots] at fills
    rw [fills_dir positive small small' fills directory]
    exact nofun
  have kind : (filled ip).type = make.type := (types ip).trans made.type
  have used : (s.node dp).type ≠ .free := by
    rw [made.parent]
    exact nofun
  have same : filled dp = s.node dp := swaps.others dp apart
  have fits : (t.node dp).nlink.toNat < 2 ^ 15 := by
    by_cases directory : make.type = .dir
    · have raises : raising s (s.place p) = some dp := by
        rw [here]
        exact if_pos directory
      rw [after, if_pos directory, same]
      exact succ_small (inv.disk.small dp used) (allowed.fits dp raises)
    · rw [after, if_neg directory, same]
      exact inv.disk.small dp used
  constructor
  · intro d other
    rw [nodes, update_of_ne other]
  · rw [after]
    exact isDir
  · exact ⟨above, (swaps.proper_old apart).mpr complete⟩
  · rw [after]
    exact ⟨room, added⟩
  · rw [after, kind]
    dsimp only
    split
    case isTrue =>
      apply toNat_succ
      rw [same]
      exact inv.disk.small dp used
    case isFalse => rfl
  · exact fits
  · refine ⟨by rw [types]; exact allocated, fun directory => ⟨dp, proper ?_⟩⟩
    exact kind.symm.trans directory
  · exact Ne.symm apart
  · intro directory
    refine ⟨proper (kind.symm.trans directory), swaps.total_new n, ?_⟩
    rintro rfl
    exact inv.disk.root.ne_nil made.slots
  · intro y
    have change := shifts.pending y
    rw [here] at change
    have none : placePend y (.drop dp (if opened then .finish else .drop ip .finish)) = 0 := by
      cases opened with
      | _ => rfl
    rw [none] at change
    simp only [placePend, add_zero] at change
    rw [pendMore, change]

theorem made_change : Change n strict filled (pendMore s ip) t.node (pending t) := by
  obtain ⟨made, -, apart, -⟩ := fill_facts inv here
  have adds := filled_adds inv here fills fill added shifts nodes allowed
  have change : Change n strict s.node (pending s) filled (pendMore s ip) :=
    filled_change inv here fills fill
  have same : filled dp = s.node dp := by
    rw [fill, update_of_ne apart]
  refine .adds dp ip name adds ?_ fun holds => ?_
  · rw [pendMore, if_neg apart, inv.pending_zero (.inr made.parent)]
  · rw [same] at added ⊢
    apply allowed.live holds
    rw [here]
    exact if_pos (dirlink_split added).1

theorem FsInv.makes (refs : t.ref = s.ref)
    (files : t.files = if opened then ip :: s.files else s.files) : FsInv n t := by
  obtain ⟨made, -, apart, -, mine, mine'⟩ := fill_facts inv here
  have adds := filled_adds inv here fills fill added shifts nodes allowed
  have change : Change n strict s.node (pending s) filled (pendMore s ip) :=
    filled_change inv here fills fill
  have middle := inv.disk.change change
  have swaps := prepared_swaps inv here (fill_fresh inv here fills) fill
  have types := prepared_types fill
  apply inv.shift shifts (adds.diskInv middle)
  · intro i
    rw [refs, files, here]
    cases opened with
    | true =>
      simp only [placeRefs, count_cons, count_nil, if_true]
      omega
    | false =>
      simp only [placeRefs, count_cons, count_nil, Bool.false_eq_true, if_false]
  · intro i hidden
    have notDir : i ≠ dp := by
      rintro rfl
      exact inv.visible mine' hidden
    have notNew : i ≠ ip := by
      rintro rfl
      exact inv.visible mine hidden
    rw [adds.others i notDir, swaps.others i notNew]
  · intro i _
    rw [adds.types, types]
  · exact fun i before => adds.good_new middle (prepared_good inv here swaps (types ip) before)
  · intro i mem
    rw [here]
    left
    cases opened with
    | true =>
      simp only [placeKeeps, if_true, mem_cons, not_mem_nil, or_false] at mem ⊢
      exact .inl mem
    | false => exact mem
  · intro i mem
    cases opened with
    | _ => contradiction
  · intro i pends
    cases opened with
    | _ => exact absurd pends (lt_irrefl 0)
  · cases opened with
    | _ => rfl
  · intro i mem
    rw [files] at mem
    cases opened with
    | true =>
      rcases mem_cons.mp mem with rfl | old
      · exact .inr mine
      · exact .inl old
    | false => exact .inl mem

end Made

end Xv6Cos.Verif
