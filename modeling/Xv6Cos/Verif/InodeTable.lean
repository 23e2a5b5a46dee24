import Xv6Cos.Spec.InodeTable

/-!
# The inode table keeps one exact entry for each inode in use

The invariant links the count of an entry, its sleep-lock, the copy of the inode and the inode on
disk at every point between two sections, the gap in `iput` included.
-/

namespace Xv6Cos.Verif

open Kernel Spec Transition Function Option Prod InodeTable Dinode

section References

variable {ι : Type} {handed : List (ι × Fin NINODE)} {p q : ι} {e : Fin NINODE}

/-- The references to an entry, after one of them is gone. -/
theorem count_erase [DecidableEq ι] (held : (p, e) ∈ handed) (e' : Fin NINODE) :
    ((handed.erase (p, e)).map snd).count e' =
      (handed.map snd).count e' - if e' = e then 1 else 0 := by
  have same := ((List.perm_cons_erase held).map snd).count_eq e'
  rw [same, List.map_cons, List.count_cons]
  by_cases hit : e' = e
  · simp [hit]
  · simp [hit, Ne.symm hit]

theorem handed_count_pos (held : (p, e) ∈ handed) : 0 < (handed.map snd).count e :=
  List.count_pos_iff.mpr (List.mem_map_of_mem held)

/-- The only reference to an entry has one holder. -/
theorem sole_holder (single : (handed.map snd).count e = 1) (mine : (p, e) ∈ handed)
    (other : (q, e) ∈ handed) : q = p := by
  classical
  by_contra differ
  have left : (q, e) ∈ handed.erase (p, e) :=
    (List.mem_erase_of_ne fun same => differ (mk.inj same).1).mpr other
  have counted := count_erase mine e
  have positive := handed_count_pos left
  rw [if_pos rfl, single] at counted
  omega

end References

section Search

variable {table table' : Itable} {dev inum : ℕ} {e : Fin NINODE}

/-- The entry that `iget` returns was in use for the inode, or was empty while no entry was in use
for it. -/
theorem iget_cases (got : table.iget dev inum = some (e, table')) :
    (0 < (table e).ref ∧ (table e).dev = dev ∧ (table e).inum = inum ∧
      table' = update table e { table e with ref := (table e).ref + 1 }) ∨
    ((table e).ref = 0 ∧
      (∀ other, 0 < (table other).ref → ¬((table other).dev = dev ∧ (table other).inum = inum)) ∧
      table' = update table e
        { table e with dev := dev, inum := inum, ref := 1, valid := false }) := by
  unfold Itable.iget at got
  split at got
  case h_1 found present =>
    cases got
    have facts := List.find?_some present
    simp only [Inode.is, Bool.and_eq_true, decide_eq_true_eq] at facts
    exact .inl ⟨facts.1, facts.2.1, facts.2.2, rfl⟩
  case h_2 absent =>
    split at got
    case h_1 => contradiction
    case h_2 found empty =>
      cases got
      have free := List.find?_some empty
      simp only [decide_eq_true_eq] at free
      refine .inr ⟨free, fun other used same => ?_, rfl⟩
      have missed := List.find?_eq_none.mp absent other (List.mem_finRange other)
      simp only [Inode.is, Bool.and_eq_true, decide_eq_true_eq] at missed
      exact missed ⟨used, same⟩

end Search

variable {ι : Type}

/-- What a section can do, with what the process has found when it does it. -/
inductive InodeMove [DecidableEq ι] (s : InodeTable ι) : InodeAction ι → InodeTable ι → Prop
  /-- `iget` finds the inode in the table. -/
  | share (p : ι) (dev inum : ℕ) (e : Fin NINODE) :
      s.call p = .idle ∨ s.call p = .getting dev inum → 0 < (s.inode e).ref →
      (s.inode e).dev = dev → (s.inode e).inum = inum →
      InodeMove s (.iget p dev inum) { s.setCall p .idle with
        inode := update s.inode e { s.inode e with ref := (s.inode e).ref + 1 }
        handed := (p, e) :: s.handed }
  /-- `iget` recycles an entry. -/
  | recycle (p : ι) (dev inum : ℕ) (e : Fin NINODE) :
      s.call p = .idle ∨ s.call p = .getting dev inum → (s.inode e).ref = 0 →
      (∀ other, 0 < (s.inode other).ref →
        ¬((s.inode other).dev = dev ∧ (s.inode other).inum = inum)) →
      InodeMove s (.iget p dev inum) { s.setCall p .idle with
        inode := update s.inode e
          { s.inode e with dev := dev, inum := inum, ref := 1, valid := false }
        handed := (p, e) :: s.handed }
  | dup (p : ι) (e : Fin NINODE) (holder : ι) : s.call p = .idle → (p, e) ∈ s.handed →
      InodeMove s (.idup p e holder)
      { s.setInode e { s.inode e with ref := (s.inode e).ref + 1 } with
        handed := (holder, e) :: s.handed }
  | lock (p : ι) (e : Fin NINODE) : s.call p = .idle → (p, e) ∈ s.handed → s.lock e = none →
      (s.loaded e).copy.type ≠ 0 →
      InodeMove s (.ilock p e) ((s.setLock e (some p)).setInode e (s.loaded e))
  | update (p : ι) (e : Fin NINODE) (fields : Dinode) : s.call p = .idle → s.lock e = some p →
      fields.type = (s.inode e).copy.type →
      InodeMove s (.iupdate p e fields) ((s.setInode e { s.inode e with copy := fields }).setDisk
        (s.inode e).dev (s.inode e).inum fields)
  | unlock (p : ι) (e : Fin NINODE) : s.call p = .idle → s.lock e = some p →
      InodeMove s (.iunlock p e) (s.setLock e none)
  /-- `iput` finds the last reference to an inode without links. -/
  | last (p : ι) (e : Fin NINODE) : s.call p = .idle → (p, e) ∈ s.handed → s.lock e = none →
      (s.inode e).ref = 1 → (s.inode e).valid → (s.inode e).copy.nlink = 0 →
      InodeMove s (.iput p e) ((s.setLock e (some p)).setCall p (.freeing e))
  /-- `iput` drops a reference at once. -/
  | put (p : ι) (e : Fin NINODE) : s.call p = .idle → (p, e) ∈ s.handed → s.lock e ≠ some p →
      InodeMove s (.iput p e) (s.dropRef p e)
  | free (p : ι) (e : Fin NINODE) (fields : Dinode) : s.call p = .freeing e →
      fields = { (s.inode e).copy.truncated with type := 0 } →
      InodeMove s (.free p)
        ((((s.setInode e { s.inode e with copy := fields, valid := false }).setDisk
        (s.inode e).dev (s.inode e).inum fields).setLock e none).setCall p (.dropping e))
  | drop (p : ι) (e : Fin NINODE) : s.call p = .dropping e →
      InodeMove s (.drop p) ((s.dropRef p e).setCall p .idle)
  | alloc (p : ι) (dev inum : ℕ) (type : BitVec 16) : s.call p = .idle →
      (s.disk dev inum).type = 0 → type ≠ 0 →
      InodeMove s (.ialloc p dev inum type)
        ((s.setDisk dev inum { Dinode.zero with type := type }).setCall p (.getting dev inum))

/-- Every section is one of these. -/
theorem next_inodeMove [DecidableEq ι] {s t : InodeTable ι} {action : InodeAction ι}
    (stepped : s.next action = some t) : InodeMove s action t := by
  cases action with
  | iget p dev inum =>
    obtain ⟨ready, stepped⟩ := ite_none_right_eq_some.mp stepped
    obtain ⟨⟨e, inode⟩, got, rfl⟩ := map_eq_some_iff.mp stepped
    obtain ⟨used, devs, inums, rfl⟩ | ⟨empty, fresh, rfl⟩ := iget_cases got
    · exact .share p dev inum e ready used devs inums
    · exact .recycle p dev inum e ready empty fresh
  | idup p e holder =>
    obtain ⟨⟨idle, held⟩, ⟨⟩⟩ := ite_none_right_eq_some.mp stepped
    exact .dup p e holder idle held
  | ilock p e =>
    obtain ⟨⟨idle, held, unlocked, typed⟩, ⟨⟩⟩ := ite_none_right_eq_some.mp stepped
    exact .lock p e idle held unlocked typed
  | iupdate p e fields =>
    obtain ⟨⟨idle, lock, typed⟩, ⟨⟩⟩ := ite_none_right_eq_some.mp stepped
    exact .update p e fields idle lock typed
  | iunlock p e =>
    obtain ⟨⟨idle, lock⟩, ⟨⟩⟩ := ite_none_right_eq_some.mp stepped
    exact .unlock p e idle lock
  | iput p e =>
    obtain ⟨⟨idle, held, unlocked⟩, stepped⟩ := ite_none_right_eq_some.mp stepped
    split at stepped
    case isTrue found =>
      obtain ⟨free, ⟨⟩⟩ := ite_none_right_eq_some.mp stepped
      exact .last p e idle held free found.1 found.2.1 found.2.2
    case isFalse =>
      cases stepped
      exact .put p e idle held unlocked
  | free p =>
    simp only [next] at stepped
    split at stepped
    case h_1 e called => exact Option.some.inj stepped ▸ .free p e _ called rfl
    case h_2 => contradiction
  | drop p =>
    simp only [next] at stepped
    split at stepped
    case h_1 e called => exact Option.some.inj stepped ▸ .drop p e called
    case h_2 => contradiction
  | ialloc p dev inum type =>
    obtain ⟨⟨idle, free, typed⟩, ⟨⟩⟩ := ite_none_right_eq_some.mp stepped
    exact .alloc p dev inum type idle free typed

/-- What holds between two sections. -/
structure TableInv (s : InodeTable ι) : Prop where
  one : OneEntry s
  counts : CountsHanded s
  /-- The holder of a lock has a reference, and the inode has been read. -/
  locked : ∀ e p, s.lock e = some p → (p, e) ∈ s.handed ∧ (s.inode e).valid
  /-- A valid entry in use has the fields that are on disk, of an allocated inode. -/
  coherent : ∀ e, 0 < (s.inode e).ref → (s.inode e).valid →
    s.disk (s.inode e).dev (s.inode e).inum = (s.inode e).copy ∧ (s.inode e).copy.type ≠ 0
  /-- A process in the gap of `iput` has the lock, its reference, and an inode without links. -/
  freeing : ∀ p e, s.call p = .freeing e → s.lock e = some p ∧ (s.inode e).valid ∧
    (s.inode e).copy.nlink = 0
  /-- A process at the end of `iput` still has its reference, and not the lock. -/
  dropping : ∀ p e, s.call p = .dropping e → (p, e) ∈ s.handed ∧ s.lock e ≠ some p

namespace TableInv

variable {s t : InodeTable ι} {p q : ι} {e : Fin NINODE} {dev inum : ℕ}

section

variable (inv : TableInv s)

include inv

theorem ref_pos (held : (p, e) ∈ s.handed) : 0 < (s.inode e).ref := by
  rw [inv.counts e]
  exact handed_count_pos held

/-- Another entry in use is for another inode. -/
theorem apart {e' : Fin NINODE} (used : 0 < (s.inode e).ref)
    (used' : 0 < (s.inode e').ref) (differ : e' ≠ e) :
    ¬((s.inode e').dev = (s.inode e).dev ∧ (s.inode e').inum = (s.inode e).inum) :=
  fun same => differ (inv.one e' e used' used same.1 same.2)

/-- A section that changes one entry in use, its lock, what is on disk for it, and references to
it. -/
theorem touch (used : 0 < (s.inode e).ref) {ip : Inode} {holder : Option ι}
    (entries : t.inode = update s.inode e ip) (locks : t.lock = update s.lock e holder)
    (same : ip.dev = (s.inode e).dev ∧ ip.inum = (s.inode e).inum)
    (handed : ∀ e', e' ≠ e → (t.handed.map snd).count e' = (s.handed.map snd).count e' ∧
      ∀ p, (p, e') ∈ s.handed → (p, e') ∈ t.handed)
    (calls : ∀ p e', e' ≠ e → (t.call p = .freeing e' → s.call p = .freeing e') ∧
      (t.call p = .dropping e' → s.call p = .dropping e'))
    (disks : ∀ dev inum, ¬(dev = (s.inode e).dev ∧ inum = (s.inode e).inum) →
      t.disk dev inum = s.disk dev inum)
    (counts : ip.ref = (t.handed.map snd).count e)
    (locked : ∀ p, holder = some p → (p, e) ∈ t.handed ∧ ip.valid)
    (coherent : ip.valid → t.disk (s.inode e).dev (s.inode e).inum = ip.copy ∧ ip.copy.type ≠ 0)
    (freeing : ∀ p, t.call p = .freeing e → holder = some p ∧ ip.valid ∧ ip.copy.nlink = 0)
    (dropping : ∀ p, t.call p = .dropping e → (p, e) ∈ t.handed ∧ holder ≠ some p) :
    TableInv t := by
  have mine : t.inode e = ip ∧ t.lock e = holder := by
    rw [entries, locks, update_self, update_self]
    exact ⟨rfl, rfl⟩
  have others : ∀ e', e' ≠ e → t.inode e' = s.inode e' ∧ t.lock e' = s.lock e' := by
    intro e' other
    rw [entries, locks, update_of_ne other, update_of_ne other]
    exact ⟨rfl, rfl⟩
  have names : ∀ e', (t.inode e').dev = (s.inode e').dev ∧ (t.inode e').inum = (s.inode e').inum ∧
      (0 < (t.inode e').ref → 0 < (s.inode e').ref) := by
    intro e'
    by_cases hit : e' = e
    · rw [hit, mine.1]
      exact ⟨same.1, same.2, fun _ => used⟩
    · rw [(others e' hit).1]
      exact ⟨rfl, rfl, id⟩
  constructor
  · intro a b usedA usedB
    rw [(names a).1, (names b).1, (names a).2.1, (names b).2.1]
    exact inv.one a b ((names a).2.2 usedA) ((names b).2.2 usedB)
  · intro e'
    by_cases hit : e' = e
    · rw [hit, mine.1]
      exact counts
    · rw [(others e' hit).1, (handed e' hit).1]
      exact inv.counts e'
  · intro e' p held
    by_cases hit : e' = e
    · rw [hit, mine.2] at held
      rw [hit, mine.1]
      exact locked p held
    · rw [(others e' hit).2] at held
      rw [(others e' hit).1]
      obtain ⟨mem, valid⟩ := inv.locked e' p held
      exact ⟨(handed e' hit).2 p mem, valid⟩
  · intro e' used' valid
    rw [(names e').1, (names e').2.1]
    by_cases hit : e' = e
    · rw [hit, mine.1] at valid ⊢
      exact coherent valid
    · have apart := inv.apart used ((names e').2.2 used') hit
      rw [disks _ _ apart, (others e' hit).1]
      rw [(others e' hit).1] at used' valid
      exact inv.coherent e' used' valid
  · intro p e' called
    by_cases hit : e' = e
    · rw [hit] at called ⊢
      rw [mine.1, mine.2]
      exact freeing p called
    · rw [(others e' hit).1, (others e' hit).2]
      exact inv.freeing p e' ((calls p e' hit).1 called)
  · intro p e' called
    by_cases hit : e' = e
    · rw [hit] at called ⊢
      rw [mine.2]
      exact dropping p called
    · obtain ⟨held, unlocked⟩ := inv.dropping p e' ((calls p e' hit).2 called)
      rw [(others e' hit).2]
      exact ⟨(handed e' hit).2 p held, unlocked⟩

variable (calls : ∀ p e, (t.call p = .freeing e → s.call p = .freeing e) ∧
    (t.call p = .dropping e → s.call p = .dropping e))
  (same : t.lock = s.lock ∧ t.disk = s.disk) (handed : t.handed = (q, e) :: s.handed)

include calls same handed

/-- One more reference to an entry in use. -/
theorem more (used : 0 < (s.inode e).ref) (entries : t.inode =
      update s.inode e { s.inode e with ref := (s.inode e).ref + 1 }) : TableInv t := by
  obtain ⟨locks, disks⟩ := same
  refine inv.touch used entries (locks.trans (update_eq_self e _).symm) ⟨rfl, rfl⟩ ?_
    (fun p e' _ => calls p e') (fun dev inum _ => by rw [disks]) ?_ ?_ ?_
    (fun p called => inv.freeing p e ((calls p e).1 called)) ?_
  · intro e' other
    rw [handed]
    exact ⟨by simp [Ne.symm other], fun p held => List.mem_cons_of_mem _ held⟩
  · rw [handed, List.map_cons, List.count_cons_self, ← inv.counts e]
  · intro p held
    obtain ⟨mem, valid⟩ := inv.locked e p held
    rw [handed]
    exact ⟨List.mem_cons_of_mem _ mem, valid⟩
  · rw [disks]
    exact inv.coherent e used
  · intro p called
    obtain ⟨held, unlocked⟩ := inv.dropping p e ((calls p e).2 called)
    rw [handed]
    exact ⟨List.mem_cons_of_mem _ held, unlocked⟩

/-- An entry is recycled for an inode that no entry in use is for. -/
theorem recycle (empty : (s.inode e).ref = 0)
    (fresh : ∀ other, 0 < (s.inode other).ref →
      ¬((s.inode other).dev = dev ∧ (s.inode other).inum = inum))
    (entries : t.inode = update s.inode e
      { s.inode e with dev := dev, inum := inum, ref := 1, valid := false }) : TableInv t := by
  obtain ⟨locks, disks⟩ := same
  have unheld : ∀ p', (p', e) ∉ s.handed := fun p' held => by
    have positive := inv.ref_pos held
    omega
  have kept : ∀ e', e' ≠ e → t.inode e' = s.inode e' := fun e' other => by
    rw [entries, update_of_ne other]
  have mine : t.inode e =
      { s.inode e with dev := dev, inum := inum, ref := 1, valid := false } := by
    rw [entries, update_self]
  constructor
  · intro a b usedA usedB
    by_cases hitA : a = e <;> by_cases hitB : b = e
    · exact fun _ _ => hitA.trans hitB.symm
    · rw [kept b hitB] at usedB ⊢
      rw [hitA, mine]
      exact fun devs inums => absurd ⟨devs.symm, inums.symm⟩ (fresh b usedB)
    · rw [kept a hitA] at usedA ⊢
      rw [hitB, mine]
      exact fun devs inums => absurd ⟨devs, inums⟩ (fresh a usedA)
    · rw [kept a hitA] at usedA ⊢
      rw [kept b hitB] at usedB ⊢
      exact inv.one a b usedA usedB
  · intro e'
    have before := inv.counts e'
    rw [handed, List.map_cons, List.count_cons, ← before]
    by_cases hit : e' = e
    · rw [hit, mine, empty]
      simp
    · rw [kept e' hit]
      simp [Ne.symm hit]
  · intro e' p' lock
    obtain ⟨held, valid⟩ := inv.locked e' p' (locks ▸ lock)
    have other : e' ≠ e := fun hit => unheld p' (hit ▸ held)
    rw [handed, kept e' other]
    exact ⟨List.mem_cons_of_mem _ held, valid⟩
  · intro e' used' valid
    by_cases hit : e' = e
    · rw [hit, mine] at valid
      contradiction
    · rw [kept e' hit] at used' valid ⊢
      rw [disks]
      exact inv.coherent e' used' valid
  · intro p' e' called
    have before := inv.freeing p' e' ((calls p' e').1 called)
    have other : e' ≠ e := fun hit => unheld p' (hit ▸ (inv.locked e' p' before.1).1)
    rw [locks, kept e' other]
    exact before
  · intro p' e' called
    obtain ⟨held, unlocked⟩ := inv.dropping p' e' ((calls p' e').2 called)
    rw [handed, locks]
    exact ⟨List.mem_cons_of_mem _ held, unlocked⟩

end

end TableInv

section Steps

variable [DecidableEq ι] {s t : InodeTable ι} {p q : ι} {e : Fin NINODE} {dev inum : ℕ}
  {action : InodeAction ι}

omit [DecidableEq ι] in
/-- A change on disk leaves the other inodes. -/
theorem setDisk_other {d : Dinode} {dev' inum' : ℕ} (other : ¬(dev' = dev ∧ inum' = inum)) :
    (s.setDisk dev inum d).disk dev' inum' = s.disk dev' inum' := by
  by_cases same : dev' = dev
  · have apart : inum' ≠ inum := fun hit => other ⟨same, hit⟩
    simp [setDisk, same, apart]
  · simp [setDisk, same]

/-- A process that is not in the gap of `iput` after an action was not there before. -/
theorem calls_idle (e : Fin NINODE) (other : ι) :
    ((s.setCall p .idle).call other = .freeing e → s.call other = .freeing e) ∧
      ((s.setCall p .idle).call other = .dropping e → s.call other = .dropping e) := by
  simp only [setCall, update_apply]
  split <;> simp

omit [DecidableEq ι] in
/-- The inode that a process locks has the fields that are on disk. -/
theorem loaded_facts (inv : TableInv s) (used : 0 < (s.inode e).ref) :
    (s.loaded e).dev = (s.inode e).dev ∧ (s.loaded e).inum = (s.inode e).inum ∧
      (s.loaded e).ref = (s.inode e).ref ∧
      s.disk (s.inode e).dev (s.inode e).inum = (s.loaded e).copy ∧ (s.loaded e).valid := by
  unfold loaded
  split
  case isTrue valid => exact ⟨rfl, rfl, rfl, (inv.coherent e used valid).1, valid⟩
  case isFalse => exact ⟨rfl, rfl, rfl, rfl, rfl⟩

omit [DecidableEq ι] in
theorem table_lock_inv (inv : TableInv s) (idle : s.call p = .idle) (held : (p, e) ∈ s.handed)
    (unlocked : s.lock e = none) (typed : (s.loaded e).copy.type ≠ 0) :
    TableInv ((s.setLock e (some p)).setInode e (s.loaded e)) := by
  have used := inv.ref_pos held
  obtain ⟨devs, inums, refs, disks, valids⟩ := loaded_facts inv used
  refine inv.touch used rfl rfl ⟨devs, inums⟩ (fun _ _ => ⟨rfl, fun _ => id⟩)
    (fun _ _ _ => ⟨id, id⟩) (fun _ _ _ => rfl) (refs.trans (inv.counts e)) ?_
    (fun _ => ⟨disks, typed⟩) (fun p' called => ?_) fun p' called => ?_
  · rintro p' ⟨⟩
    exact ⟨held, valids⟩
  · have before := (inv.freeing p' e called).1
    rw [unlocked] at before
    contradiction
  · refine ⟨(inv.dropping p' e called).1, ?_⟩
    rintro ⟨⟩
    exact absurd (called.symm.trans idle) nofun

omit [DecidableEq ι] in
/-- The holder of a lock that is in no call is not in the gap of `iput`. -/
theorem not_freeing (inv : TableInv s) (idle : s.call p = .idle) (lock : s.lock e = some p)
    (q : ι) (called : s.call q = .freeing e) : False := by
  have mine : p = q := Option.some.inj (lock.symm.trans (inv.freeing q e called).1)
  exact absurd ((mine ▸ called).symm.trans idle) nofun

omit [DecidableEq ι] in
theorem table_update_inv {fields : Dinode} (inv : TableInv s) (idle : s.call p = .idle)
    (lock : s.lock e = some p) (typed : fields.type = (s.inode e).copy.type) :
    TableInv ((s.setInode e { s.inode e with copy := fields }).setDisk
      (s.inode e).dev (s.inode e).inum fields) := by
  have used := inv.ref_pos (inv.locked e p lock).1
  refine inv.touch used rfl (update_eq_self e _).symm ⟨rfl, rfl⟩ (fun _ _ => ⟨rfl, fun _ => id⟩)
    (fun _ _ _ => ⟨id, id⟩) (fun _ _ other => setDisk_other other) (inv.counts e) (inv.locked e)
    (fun valid => ?_) (fun q called => (not_freeing inv idle lock q called).elim)
    fun p' => inv.dropping p' e
  refine ⟨?_, typed ▸ (inv.coherent e used valid).2⟩
  simp [setDisk]

omit [DecidableEq ι] in
theorem table_unlock_inv (inv : TableInv s) (idle : s.call p = .idle) (lock : s.lock e = some p) :
    TableInv (s.setLock e none) := by
  have used := inv.ref_pos (inv.locked e p lock).1
  exact inv.touch used (update_eq_self e _).symm rfl ⟨rfl, rfl⟩ (fun _ _ => ⟨rfl, fun _ => id⟩)
    (fun _ _ _ => ⟨id, id⟩) (fun _ _ _ => rfl) (inv.counts e) nofun (inv.coherent e used)
    (fun q called => (not_freeing inv idle lock q called).elim)
    fun p' called => ⟨(inv.dropping p' e called).1, nofun⟩

/-- A process drops a reference to an entry that it has not locked. -/
theorem table_dropRef_inv (inv : TableInv s) (held : (p, e) ∈ s.handed)
    (unlocked : s.lock e ≠ some p)
    (calls : ∀ q e', (t.call q = .freeing e' → s.call q = .freeing e') ∧
      (t.call q = .dropping e' → s.call q = .dropping e' ∧ q ≠ p))
    (same : t.lock = s.lock ∧ t.disk = s.disk)
    (entries : t.inode =
      update s.inode e { s.inode e with ref := (s.inode e).ref - 1 })
    (handed : t.handed = s.handed.erase (p, e)) : TableInv t := by
  have used := inv.ref_pos held
  have others : ∀ q e', (q, e') ≠ (p, e) → (q, e') ∈ s.handed → (q, e') ∈ t.handed := by
    intro q e' other mem
    rw [handed]
    exact (List.mem_erase_of_ne other).mpr mem
  refine inv.touch used entries (same.1.trans (update_eq_self e _).symm) ⟨rfl, rfl⟩ ?_
    (fun q e' _ => ⟨(calls q e').1, fun called => ((calls q e').2 called).1⟩)
    (fun dev inum _ => by rw [same.2]) ?_ (fun q lock => ?_) ?_
    (fun q called => inv.freeing q e ((calls q e).1 called)) fun q called => ?_
  · intro e' other
    refine ⟨?_, fun q mem => others q e' (fun pair => other (mk.inj pair).2) mem⟩
    rw [handed, count_erase held, if_neg other]
    rfl
  · rw [handed, count_erase held, if_pos rfl, ← inv.counts e]
  · have apart : q ≠ p := fun hit => unlocked (hit ▸ lock)
    obtain ⟨mem, valid⟩ := inv.locked e q lock
    exact ⟨others q e (fun pair => apart (mk.inj pair).1) mem, valid⟩
  · rw [same.2]
    exact inv.coherent e used
  · obtain ⟨before, apart⟩ := (calls q e).2 called
    obtain ⟨held', unlocked'⟩ := inv.dropping q e before
    exact ⟨others q e (fun pair => apart (mk.inj pair).1) held', unlocked'⟩

/-- The calls after one process has moved on. -/
theorem setCall_cases {call call' : InodeCall} (called : update s.call p call q = call') :
    q = p ∧ call = call' ∨ q ≠ p ∧ s.call q = call' := by
  rw [update_apply] at called
  split at called
  case isTrue hit => exact .inl ⟨hit, called⟩
  case isFalse other => exact .inr ⟨other, called⟩

section

variable (inv : TableInv s)

include inv

theorem table_last_inv (held : (p, e) ∈ s.handed) (free : s.lock e = none)
    (valid : (s.inode e).valid) (unlinked : (s.inode e).copy.nlink = 0) :
    TableInv ((s.setLock e (some p)).setCall p (.freeing e)) := by
  have used := inv.ref_pos held
  refine inv.touch used (update_eq_self e _).symm rfl ⟨rfl, rfl⟩ (fun _ _ => ⟨rfl, fun _ => id⟩)
    (fun q e' other => ⟨fun called => ?_, fun called => ?_⟩) (fun _ _ _ => rfl) (inv.counts e) ?_
    (inv.coherent e used) (fun q called => ?_) fun q called => ?_
  · rcases setCall_cases called with ⟨-, ⟨⟩⟩ | ⟨-, before⟩
    · exact absurd rfl other
    · exact before
  · rcases setCall_cases called with ⟨-, ⟨⟩⟩ | ⟨-, before⟩
    exact before
  · rintro q ⟨⟩
    exact ⟨held, valid⟩
  · rcases setCall_cases called with ⟨rfl, -⟩ | ⟨-, before⟩
    · exact ⟨rfl, valid, unlinked⟩
    · exact absurd ((inv.freeing q e before).1.symm.trans free) nofun
  · rcases setCall_cases called with ⟨-, ⟨⟩⟩ | ⟨other, before⟩
    exact ⟨(inv.dropping q e before).1, fun lock => other (Option.some.inj lock).symm⟩

theorem table_free_inv (called : s.call p = .freeing e) (fields : Dinode) :
    TableInv ((((s.setInode e { s.inode e with copy := fields, valid := false }).setDisk
      (s.inode e).dev (s.inode e).inum fields).setLock e none).setCall p (.dropping e)) := by
  obtain ⟨lock, valid, unlinked⟩ := inv.freeing p e called
  have held := (inv.locked e p lock).1
  refine inv.touch (inv.ref_pos held) rfl rfl ⟨rfl, rfl⟩ (fun _ _ => ⟨rfl, fun _ => id⟩)
    (fun q e' other => ⟨fun called' => ?_, fun called' => ?_⟩)
    (fun _ _ other => setDisk_other other)
    (inv.counts e) nofun nofun (fun q called' => ?_) fun q called' => ⟨?_, nofun⟩
  · rcases setCall_cases called' with ⟨-, ⟨⟩⟩ | ⟨-, before⟩
    exact before
  · rcases setCall_cases called' with ⟨-, ⟨⟩⟩ | ⟨-, before⟩
    · exact absurd rfl other
    · exact before
  · rcases setCall_cases called' with ⟨-, ⟨⟩⟩ | ⟨other, before⟩
    exact absurd (Option.some.inj ((inv.freeing q e before).1.symm.trans lock)) other
  · rcases setCall_cases called' with ⟨rfl, -⟩ | ⟨-, before⟩
    · exact held
    · exact (inv.dropping q e before).1

theorem table_alloc_inv (free : (s.disk dev inum).type = 0) (fields : Dinode) :
    TableInv ((s.setDisk dev inum fields).setCall p (.getting dev inum)) := by
  refine ⟨inv.one, inv.counts, inv.locked, fun e used valid => ?_, fun q e called => ?_,
    fun q e called => ?_⟩
  · -- a free inode has no valid entry in use
    obtain ⟨disks, allocated⟩ := inv.coherent e used valid
    have other : ¬((s.inode e).dev = dev ∧ (s.inode e).inum = inum) := by
      rintro ⟨rfl, rfl⟩
      exact allocated (disks ▸ free)
    exact ⟨(setDisk_other other).trans disks, allocated⟩
  · rcases setCall_cases called with ⟨-, ⟨⟩⟩ | ⟨-, before⟩
    exact inv.freeing q e before
  · rcases setCall_cases called with ⟨-, ⟨⟩⟩ | ⟨-, before⟩
    exact inv.dropping q e before

section

variable (move : InodeMove s action t)

include move

/-- Every section keeps the invariant. -/
theorem inodeMove_inv : TableInv t := by
  cases move with
  | share p dev inum e _ used =>
    exact inv.more (fun other e => calls_idle e other) ⟨rfl, rfl⟩ rfl used rfl
  | recycle p dev inum e _ empty fresh =>
    exact inv.recycle (fun other e => calls_idle e other) ⟨rfl, rfl⟩ rfl empty fresh rfl
  | dup p e holder _ held =>
    exact inv.more (fun _ _ => ⟨id, id⟩) ⟨rfl, rfl⟩ rfl (inv.ref_pos held) rfl
  | lock p e idle held unlocked typed => exact table_lock_inv inv idle held unlocked typed
  | update p e fields idle lock typed => exact table_update_inv inv idle lock typed
  | unlock p e idle lock => exact table_unlock_inv inv idle lock
  | last p e _ held free _ valid unlinked => exact table_last_inv inv held free valid unlinked
  | put p e idle held unlocked =>
    refine table_dropRef_inv inv held unlocked
      (fun q e' => ⟨id, fun called => ⟨called, fun hit => ?_⟩⟩)
      ⟨rfl, rfl⟩ rfl rfl
    rw [hit] at called
    exact absurd (called.symm.trans idle) nofun
  | free p e fields called _ => exact table_free_inv inv called fields
  | drop p e called =>
    obtain ⟨held, unlocked⟩ := inv.dropping p e called
    refine table_dropRef_inv inv held unlocked (fun q e' => ?_) ⟨rfl, rfl⟩ rfl rfl
    refine ⟨fun called' => ?_, fun called' => ?_⟩
    · rcases setCall_cases called' with ⟨-, ⟨⟩⟩ | ⟨-, before⟩
      exact before
    · rcases setCall_cases called' with ⟨-, ⟨⟩⟩ | ⟨other, before⟩
      exact ⟨before, other⟩
  | alloc p dev inum type _ free _ => exact table_alloc_inv inv free _

/-- No section changes what a reference names. -/
theorem move_names : NamesStay s t := by
  intro r held
  have used : 0 < (s.inode r.2).ref := inv.ref_pos held
  have changed : ∀ (e : Fin NINODE) (ip : Inode), ip.dev = (s.inode e).dev →
      ip.inum = (s.inode e).inum → (update s.inode e ip r.2).dev = (s.inode r.2).dev ∧
        (update s.inode e ip r.2).inum = (s.inode r.2).inum := by
    intro e ip devs inums
    by_cases hit : r.2 = e
    · rw [hit, update_self]
      exact ⟨devs, inums⟩
    · rw [update_of_ne hit]
      exact ⟨rfl, rfl⟩
  cases move with
  | share p dev inum e | dup p e | put p e | drop p e =>
    exact changed e { s.inode e with ref := _ } rfl rfl
  | recycle p dev inum e _ empty _ =>
    have other : r.2 ≠ e := fun hit => by
      rw [hit, empty] at used
      exact absurd used (lt_irrefl 0)
    simp [Names, other]
  | lock p e _ mine =>
    have facts := loaded_facts inv (inv.ref_pos mine)
    exact changed e (s.loaded e) facts.1 facts.2.1
  | update p e fields => exact changed e { s.inode e with copy := _ } rfl rfl
  | free p e fields => exact changed e { s.inode e with copy := _, valid := _ } rfl rfl
  | unlock | last | alloc => exact ⟨rfl, rfl⟩

/-- Only `iput` frees an inode on disk, after it has found it without links. -/
theorem move_freed (used : (s.disk dev inum).type ≠ 0) (freed : (t.disk dev inum).type = 0) :
    ∃ p e, action = .free p ∧ s.call p = .freeing e ∧ (s.inode e).dev = dev ∧
      (s.inode e).inum = inum ∧
      t.disk dev inum = { (s.disk dev inum).truncated with type := 0 } := by
  cases move with
  | share | recycle | dup | lock | unlock | last | put | drop => exact absurd freed used
  | update p e fields _ lock typed =>
    obtain ⟨held, valid⟩ := inv.locked e p lock
    obtain ⟨-, allocated⟩ := inv.coherent e (inv.ref_pos held) valid
    by_cases hit : dev = (s.inode e).dev ∧ inum = (s.inode e).inum
    · obtain ⟨rfl, rfl⟩ := hit
      simp only [setDisk, update_self] at freed
      exact absurd (typed.symm.trans freed) allocated
    · rw [setDisk_other hit] at freed
      exact absurd freed used
  | free p e fields called same =>
    obtain ⟨lock, valid, -⟩ := inv.freeing p e called
    obtain ⟨disks, -⟩ := inv.coherent e (inv.ref_pos (inv.locked e p lock).1) valid
    by_cases hit : dev = (s.inode e).dev ∧ inum = (s.inode e).inum
    · obtain ⟨rfl, rfl⟩ := hit
      refine ⟨p, e, rfl, called, rfl, rfl, ?_⟩
      rw [disks, ← same]
      simp [setCall, setLock, setDisk]
    · have kept := setDisk_other
        (s := s.setInode e { s.inode e with copy := fields, valid := false })
        (d := fields) hit
      exact absurd ((congrArg Dinode.type kept).symm.trans freed) used
  | alloc p dev' inum' type _ _ typed =>
    by_cases hit : dev = dev' ∧ inum = inum'
    · obtain ⟨rfl, rfl⟩ := hit
      simp only [setCall, setDisk, update_self] at freed
      exact absurd freed typed
    · have kept := setDisk_other (s := s) (d := { zero with type := type }) hit
      exact absurd ((congrArg Dinode.type kept).symm.trans freed) used

/-- An inode that is freed on disk has no links. -/
theorem move_unlinked : FreedUnlinked s t := by
  intro dev inum used freed
  obtain ⟨p, e, -, called, rfl, rfl, -⟩ := move_freed inv move used freed
  obtain ⟨lock, valid, unlinked⟩ := inv.freeing p e called
  obtain ⟨disks, -⟩ := inv.coherent e (inv.ref_pos (inv.locked e p lock).1) valid
  rw [disks]
  exact unlinked

end

/-- If nobody else uses the inodes that are being freed, nobody else uses one when it is. -/
theorem move_freedAlone (alone : FreersAlone s)
    (move : InodeMove s action t) : FreedAlone s action t := by
  intro dev inum used freed
  obtain ⟨p, e, rfl, called, rfl, rfl, left⟩ := move_freed inv move used freed
  refine ⟨move_unlinked inv move _ _ used freed, left, p, rfl, fun r held names => ?_⟩
  have busy := inv.ref_pos (inv.locked e p (inv.freeing p e called).1).1
  have entry : r.2 = e := inv.one r.2 e (inv.ref_pos held) busy names.1 names.2
  exact alone p e called r held entry

/-- A process that starts to free an inode has the only reference to it. -/
theorem move_startsAlone (move : InodeMove s action t) : StartsAlone s t := by
  intro q e before after r held entry
  have stays : t.call q = s.call q → r.1 = q := fun same => absurd (same ▸ after) before
  have moved : ∀ p call, t.call = update s.call p call → call ≠ .freeing e → r.1 = q := by
    intro p call calls other
    rw [calls] at after
    rcases setCall_cases after with ⟨-, same⟩ | ⟨-, still⟩
    · exact absurd same other
    · exact absurd still before
  cases move with
  | share p | recycle p | drop p => exact moved p .idle rfl nofun
  | dup | lock | update | unlock | put => exact stays rfl
  | last p e' _ mine _ single =>
    rcases setCall_cases after with ⟨rfl, ⟨⟩⟩ | ⟨-, still⟩
    · exact sole_holder ((inv.counts e).symm.trans single) mine (entry ▸ held)
    · exact absurd still before
  | free p e' => exact moved p (.dropping e') rfl nofun
  | alloc p dev inum => exact moved p (.getting dev inum) rfl nofun

end

omit [DecidableEq ι] in
/-- Processes stay alone with the inodes they free if nobody starts to free one and every new
reference is to an entry that nobody frees. -/
theorem freers_kept (alone : FreersAlone s)
    (calls : ∀ p e, t.call p = .freeing e → s.call p = .freeing e)
    (refs : ∀ r ∈ t.handed, r ∉ s.handed → ∀ p, s.call p ≠ .freeing r.2) : FreersAlone t := by
  intro p e called r held entry
  have before := calls p e called
  by_cases old : r ∈ s.handed
  · exact alone p e before r old entry
  · exact absurd (entry ▸ before) (refs r held old p)

/-- A section leaves the processes that free inodes alone with them exactly if it does not get
such an inode. -/
theorem move_alone (inv : TableInv s) (alone : FreersAlone s)
    (move : InodeMove s action t) : FreersAlone t ↔ ¬Intrudes s action := by
  have shrinks : (∀ p e, t.call p = .freeing e → s.call p = .freeing e) →
      (∀ r ∈ t.handed, r ∈ s.handed) → FreersAlone t := fun calls refs =>
    freers_kept alone calls fun r held new => absurd (refs r held) new
  cases move with
  | share p dev inum e ready used devs inums =>
    constructor
    · rintro after ⟨q, e', called, devs', inums'⟩
      obtain ⟨lock, -⟩ := inv.freeing q e' called
      have same : e = e' := inv.one e e' used (inv.ref_pos (inv.locked e' q lock).1)
        (devs.trans devs'.symm) (inums.trans inums'.symm)
      subst same
      have apart : q ≠ p := by
        rintro rfl
        rcases ready with idle | getting
        · exact absurd (called.symm.trans idle) nofun
        · exact absurd (called.symm.trans getting) nofun
      have still : (s.setCall p .idle).call q = .freeing e := by
        simpa [setCall, apart] using called
      exact apart (after q e still (p, e) List.mem_cons_self rfl).symm
    · intro quiet
      refine freers_kept alone (fun other e => (calls_idle e other).1) ?_
      intro r held new q called
      have entry : r = (p, e) := (List.mem_cons.mp held).resolve_right new
      subst entry
      exact quiet ⟨q, e, called, devs, inums⟩
  | recycle p dev inum e ready empty fresh =>
    constructor
    · rintro - ⟨q, e', called, devs', inums'⟩
      obtain ⟨lock, -⟩ := inv.freeing q e' called
      exact fresh e' (inv.ref_pos (inv.locked e' q lock).1) ⟨devs', inums'⟩
    · intro _
      refine freers_kept alone (fun other e => (calls_idle e other).1) ?_
      intro r held new q called
      have entry : r = (p, e) := (List.mem_cons.mp held).resolve_right new
      subst entry
      obtain ⟨lock, -⟩ := inv.freeing q e called
      have positive := inv.ref_pos (inv.locked e q lock).1
      omega
  | dup p e holder idle mine =>
    refine iff_of_true (freers_kept alone (fun _ _ => id) fun r held new q called => ?_) id
    have entry : r = (holder, e) := (List.mem_cons.mp held).resolve_right new
    subst entry
    -- the process that duplicates its reference would be the one that frees
    have same : p = q := alone q e called (p, e) mine rfl
    exact absurd ((same ▸ called).symm.trans idle) nofun
  | last p e idle mine free single =>
    refine iff_of_true (fun q e' called r held entry => ?_) id
    rcases setCall_cases called with ⟨rfl, ⟨⟩⟩ | ⟨-, before⟩
    · exact sole_holder ((inv.counts e).symm.trans single) mine (entry ▸ held)
    · exact alone q e' before r held entry
  | lock | update | unlock => exact iff_of_true (shrinks (fun _ _ => id) fun _ => id) id
  | put p e => exact iff_of_true (shrinks (fun _ _ => id) fun _ => List.mem_of_mem_erase) id
  | free | alloc =>
    refine iff_of_true (shrinks (fun q e' called => ?_) fun _ => id) id
    rcases setCall_cases called with ⟨-, ⟨⟩⟩ | ⟨-, before⟩
    exact before
  | drop p e =>
    refine iff_of_true (shrinks (fun q e' => ?_) fun _ => List.mem_of_mem_erase) id
    exact (calls_idle e' q).1

/-- The empty table is as it should be. -/
theorem table_empty_inv (empty : (inodeSystem ι).init s) : TableInv s ∧ FreersAlone s := by
  obtain ⟨refs, locks, calls, none⟩ := empty
  have idle : ∀ p call, call ≠ .idle → s.call p ≠ call := fun p call busy called =>
    busy (called.symm.trans (calls p))
  refine ⟨⟨?_, ?_, ?_, ?_, ?_, ?_⟩, ?_⟩
  · intro e e' used
    rw [refs e] at used
    contradiction
  · intro e
    rw [refs e, none]
    rfl
  · intro e p lock
    rw [locks e] at lock
    contradiction
  · intro e used
    rw [refs e] at used
    contradiction
  · exact fun p e called => absurd called (idle p _ nofun)
  · exact fun p e called => absurd called (idle p _ nofun)
  · exact fun p e called => absurd called (idle p _ nofun)

/-- In every interleaving the table keeps its invariant. -/
theorem inodes_run {trace : List (InodeAction ι)} (run : (inodeSystem ι).Exec trace s) :
    TableInv s := by
  apply run.invariant fun _ s => TableInv s
  · exact fun s empty => (table_empty_inv empty).1
  · exact fun _ s _ t inv stepped => inodeMove_inv inv (next_inodeMove stepped)

end Steps

/-- In the interleavings in which nobody gets an inode that is being freed, the processes that
free inodes are alone with them. -/
theorem quiet_alone {ι : Type} [DecidableEq ι] {trace : List (InodeAction ι)} {s : InodeTable ι}
    (run : (quietInodes ι).Exec trace s) : FreersAlone s := by
  have both : TableInv s ∧ FreersAlone s := by
    apply run.invariant fun _ s => TableInv s ∧ FreersAlone s
    · exact fun s empty => table_empty_inv empty
    · intro _ s action t before stepped
      have move := next_inodeMove stepped.1
      exact ⟨inodeMove_inv before.1 move, (move_alone before.1 before.2 move).mpr stepped.2⟩
  exact both.2

/-- In every interleaving each inode in use has one entry, with the exact number of references; no
section changes what a reference names; `iput` starts to free an inode only if nobody else has a
reference; and an inode is freed only with no links. In the interleavings in which nobody gets an
inode that is being freed, an inode is truncated and freed on disk only if no other process has a
reference; a further section leaves it so exactly if it gets no such inode. -/
theorem inode_table {ι : Type} [DecidableEq ι] {trace : List (InodeAction ι)} {s : InodeTable ι}
    (run : (inodeSystem ι).Exec trace s) :
    OneEntry s ∧ CountsHanded s ∧
      (∀ action t, s.next action = some t → NamesStay s t ∧ StartsAlone s t ∧ FreedUnlinked s t) ∧
      ((quietInodes ι).Exec trace s → FreersAlone s ∧ ∀ action t, s.next action = some t →
        FreedAlone s action t ∧ (FreersAlone t ↔ ¬Intrudes s action)) := by
  have inv := inodes_run run
  refine ⟨inv.one, inv.counts, fun action t stepped => ?_, fun quiet => ?_⟩
  · have move := next_inodeMove stepped
    exact ⟨move_names inv move, move_startsAlone inv move, move_unlinked inv move⟩
  · have alone := quiet_alone quiet
    refine ⟨alone, fun action t stepped => ?_⟩
    have move := next_inodeMove stepped
    exact ⟨move_freedAlone inv alone move, move_alone inv alone move⟩

section Examples

/-- An empty table, and one file with one link on the disk. -/
def oneFile : InodeTable Bool where
  inode _ := ⟨0, 0, 0, false, .zero⟩
  lock _ := none
  disk dev inum :=
    if dev = 1 ∧ inum = 5 then { Dinode.zero with type := T_FILE, nlink := 1 } else .zero
  call _ := .idle
  handed := []

theorem oneFile_init : (inodeSystem Bool).init oneFile :=
  ⟨fun _ => rfl, fun _ => rfl, fun _ => rfl, rfl⟩

/-- A process removes the last link of the file and puts the inode, up to the gap in `iput`. -/
def removeFile : List (InodeAction Bool) :=
  [.iget false 1 5, .ilock false ⟨0, by decide⟩,
    .iupdate false ⟨0, by decide⟩ { Dinode.zero with type := T_FILE },
      .iunlock false ⟨0, by decide⟩,
    .iput false ⟨0, by decide⟩]

instance (s : InodeTable Bool) : (action : InodeAction Bool) → Decidable (Intrudes s action)
  | .iget _ dev inum => inferInstanceAs (Decidable (∃ p e, s.call p = .freeing e ∧
      (s.inode e).dev = dev ∧ (s.inode e).inum = inum))
  | .idup .. | .ilock .. | .iupdate .. | .iunlock .. | .iput .. | .free .. | .drop .. |
    .ialloc .. => .isFalse id

/-- The file is freed by the process that removed its last link, alone. -/
theorem inode_table_removed : ∃ trace s t, (quietInodes Bool).Exec trace s ∧
    s.next (.free false) = some t ∧ (s.disk 1 5).type ≠ 0 ∧ (t.disk 1 5).type = 0 ∧
    (s.disk 1 5).nlink = 0 ∧ ∀ r ∈ s.handed, Names s r 1 5 → r.1 = false := by
  obtain ⟨s, run, checked⟩ := StepSystem.exists_actions next
    (fun s action => ¬Intrudes s action) oneFile_init removeFile
    (fun s => (s.disk 1 5).type ≠ 0 &&
      (s.next (.free false)).any fun t => (t.disk 1 5).type = 0) (by decide +kernel)
  simp only [Bool.and_eq_true, decide_eq_true_eq, any_eq_true] at checked
  obtain ⟨used, t, stepped, freed⟩ := checked
  obtain ⟨-, -, -, quiet⟩ := inode_table run.unrestrict
  obtain ⟨-, steps⟩ := quiet run
  obtain ⟨alone, -⟩ := steps _ t stepped
  obtain ⟨unlinked, -, p, same, others⟩ := alone 1 5 used freed
  cases same
  exact ⟨_, s, t, run, stepped, used, freed, unlinked, others⟩

/-- Another process gets the inode in the gap of `iput`: it has a reference when the inode is
truncated and freed. -/
theorem inode_freed_in_use : ∃ trace s t, (inodeSystem Bool).Exec trace s ∧
    s.next (.free false) = some t ∧ (s.disk 1 5).type ≠ 0 ∧ (t.disk 1 5).type = 0 ∧
    (∃ r ∈ s.handed, Names s r 1 5 ∧ r.1 = true) ∧ ¬FreedAlone s (.free false) t := by
  obtain ⟨s, run, checked⟩ := StepSystem.exists_actions next (fun _ _ => True)
    oneFile_init (removeFile ++ [.iget true 1 5])
    (fun s => (s.disk 1 5).type ≠ 0 && (s.next (.free false)).any
    (fun t => (t.disk 1 5).type = 0) &&
      s.handed.any fun r => (s.inode r.2).dev = 1 && (s.inode r.2).inum = 5 && r.1)
    (by decide +kernel)
  simp only [Bool.and_eq_true, decide_eq_true_eq, any_eq_true, List.any_eq_true] at checked
  obtain ⟨⟨used, t, stepped, freed⟩, r, held, ⟨devs, inums⟩, other⟩ := checked
  refine ⟨_, s, t, run.unrestrict, stepped, used, freed, ⟨r, held, ⟨devs, inums⟩, other⟩, ?_⟩
  intro alone
  obtain ⟨-, -, p, same, sole⟩ := alone 1 5 used freed
  cases same
  exact absurd (other.symm.trans (sole r held ⟨devs, inums⟩)) nofun

end Examples

end Xv6Cos.Verif
