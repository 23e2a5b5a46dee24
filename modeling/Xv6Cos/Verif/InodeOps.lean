import Xv6Cos.Verif.Intact

/-!
# Calls of the inode layer within a system call

A system call gets and drops references, and locks and unlocks inodes, through the functions of this
module. Each of them is a rule about a `Session`: what the call holds before and after.
-/

namespace Xv6Cos.Verif

open Kernel Spec Bytes Program Function Disk List

variable {sb : Superblock} {s₀ s t : Disk} {i j b : ℕ} {held held' locked locked' : List ℕ}
  {good : Disk → Bool} {e : FsPanic} {back : List ℕ}

/-- The program ends as `post` says, or with a panic that is not about blocks. -/
abbrev Keeps {α : Type} (m : DiskProg α) (s : Disk) (post : α → Disk → Prop) : Prop :=
  SafeOr Benign m s post

theorem keeps_check (post : Unit → Disk → Prop) (fine : Benign e)
    (rest : good s = true → post () s) : Keeps (check good e) s post := by
  by_cases holds : good s = true
  · exact .of_ok (by rw [check, if_pos holds]) (rest holds)
  · exact .of_error (by rw [check, if_neg holds]) fine

theorem keeps_check_bind {α : Type} {next : Unit → DiskProg α}
    {post : α → Disk → Prop} (fine : Benign e) (rest : good s = true → Keeps (next ()) s post) :
    Keeps (check good e >>= next) s post :=
  .bind (keeps_check (fun _ u => s = u ∧ good s = true) fine fun holds => ⟨rfl, holds⟩)
    fun _ _ ⟨same, holds⟩ => same ▸ rest holds

/-- A system call on the way. It started at `s₀`, has references to the inodes `held`, and has the
inodes `locked` locked. -/
structure Session (sb : Superblock) (s₀ : Disk) (held locked : List ℕ) (s : Disk) : Prop where
  intact : Intact sb s
  outstanding : s.outstanding = s₀.outstanding
  refs : ∀ j, (s.icache j).ref = (s₀.icache j).ref + held.count j
  /-- What others have references to keeps its type. -/
  types : ∀ j, 0 < (s₀.icache j).ref → (node sb s₀ j).type ≠ 0 →
    (node sb s j).type = (node sb s₀ j).type
  locks : ∀ j, (s.icache j).locked = true ↔ j ∈ locked
  nodup : locked.Nodup

namespace Session

variable (session : Session sb s₀ held locked s)

include session

theorem live (mem : i ∈ locked) : Loaded s i := session.intact.locks i ((session.locks i).mpr mem)

/-- A locked inode, as it is on the disk. -/
theorem node_locked (mem : i ∈ locked) : node sb s i = (s.icache i).copy :=
  node_live (session.live mem)

theorem known (mem : i ∈ locked) : i < sb.ninodes ∧ (s.icache i).copy.type ≠ 0 :=
  known_of_live session.intact.ok (session.live mem)

theorem whole (mem : i ∈ locked) : HoleFree s.image (s.icache i).copy := by
  have known := session.known mem
  have whole := session.intact.whole i known.1
  rw [session.node_locked mem] at whole
  exact whole known.2

/-- What others have references to is an inode. -/
theorem shared (referenced : 0 < (s₀.icache j).ref) : j < sb.ninodes := by
  refine (session.intact.ok.entries j ?_).1
  rw [session.refs j]
  omega

/-- The order of what is held does not matter. -/
theorem perm (same : held.Perm held') (same' : locked.Perm locked') :
    Session sb s₀ held' locked' s where
  intact := session.intact
  outstanding := session.outstanding
  refs j := by rw [session.refs j, same.count_eq]
  types := session.types
  locks j := (session.locks j).trans same'.mem_iff
  nodup := same'.nodup_iff.mp session.nodup

/-- One entry of the table has changed. -/
theorem cached {e : Icopy} (buf : t.buf = s.buf) (running : t.outstanding = s.outstanding)
    (icache : t.icache = update s.icache i e)
    (entry : 0 < e.ref → i < sb.ninodes ∧ (e.valid = true →
      e.copy = s.dinode sb i ∧ e.copy.type ≠ 0))
    (lock : e.locked = true → 0 < e.ref ∧ e.valid = true)
    (ref : e.ref = (s₀.icache i).ref + held'.count i)
    (count : ∀ j, j ≠ i → held'.count j = held.count j)
    (here : e.locked = true ↔ i ∈ locked') (there : ∀ j, j ≠ i → (j ∈ locked' ↔ j ∈ locked))
    (nodup : locked'.Nodup) : Session sb s₀ held' locked' t := by
  have intact := intact_setCopy session.intact buf icache entry lock
  refine ⟨intact, running.trans session.outstanding, fun j => ?_, fun j referenced typed => ?_,
    fun j => ?_, nodup⟩
  · rw [icache]
    by_cases same : j = i
    · rw [same, update_self, ref]
    · rw [update_of_ne same, session.refs j, count j same]
  · have same : node sb t j = node sb s j := by
      rw [node_disk (intact.written j), node_disk (session.intact.written j), dinode, image,
        buf, dinode, image]
    rw [same]
    exact session.types j referenced typed
  · rw [icache]
    by_cases same : j = i
    · rw [same, update_self]
      exact here
    · rw [update_of_ne same, there j same]
      exact session.locks j

/-- The call that started at `s₀` as one that started now, when the references `front` are not its
own. -/
def rebased (s₀ s : Disk) (front : List ℕ) : Disk :=
  { s with icache := fun j => { s.icache j with ref := (s₀.icache j).ref + front.count j } }

omit session in
theorem node_rebased {front : List ℕ} (session : Session sb s₀ (front ++ back) locked s)
    (referenced : 0 < ((rebased s₀ s front).icache j).ref) :
    node sb (rebased s₀ s front) j = node sb s j := by
  have more : 0 < (s.icache j).ref := by
    rw [session.refs j, count_append]
    change 0 < (s₀.icache j).ref + front.count j at referenced
    omega
  by_cases valid : (s.icache j).valid = true
  · rw [node_live ⟨referenced, valid⟩, node_live ⟨more, valid⟩]
    rfl
  · unfold node
    rw [if_neg fun live => valid live.2, if_neg fun live => valid live.2]
    rfl

omit session in
/-- Leave some references to others. -/
theorem rebase (front : List ℕ) (session : Session sb s₀ (front ++ back) locked s) :
    Session sb (rebased s₀ s front) back locked s where
  intact := session.intact
  outstanding := rfl
  refs j := by
    rw [session.refs j, count_append]
    exact (Nat.add_assoc _ _ _).symm
  types j referenced _ := by rw [session.node_rebased referenced]
  locks := session.locks
  nodup := session.nodup

omit session in
/-- Take them back; their inodes have kept their types. -/
theorem unbase (front : List ℕ) (session : Session sb s₀ (front ++ back) locked s)
    (inner : Session sb (rebased s₀ s front) held' locked' t) :
    Session sb s₀ (front ++ held') locked' t ∧ ∀ j ∈ front, (node sb s j).type ≠ 0 →
      (node sb t j).type = (node sb s j).type := by
  have kept : ∀ j, 0 < (s₀.icache j).ref + front.count j → (node sb s j).type ≠ 0 →
      (node sb t j).type = (node sb s j).type := by
    intro j referenced typed
    have same := session.node_rebased (j := j) referenced
    have kept := inner.types j referenced
    rw [same] at kept
    exact kept typed
  refine ⟨⟨inner.intact, inner.outstanding.trans session.outstanding, fun j => ?_,
    fun j referenced typed => ?_, inner.locks, inner.nodup⟩, fun j mem typed => ?_⟩
  · rw [inner.refs j, count_append]
    exact Nat.add_assoc _ _ _
  · have old := session.types j referenced typed
    rw [kept j (by omega) (by rwa [old]), old]
  · have some := count_pos_iff.mpr mem
    exact kept j (by omega) typed

end Session

section References

theorem iget_session (session : Session sb s₀ held locked s) (known : i < sb.ninodes) :
    Keeps (iget i) s fun _ t => Session sb s₀ (i :: held) locked t ∧ t.buf = s.buf := by
  let e : Icopy := if 0 < (s.icache i).ref then { s.icache i with ref := (s.icache i).ref + 1 }
    else { s.icache i with ref := 1, valid := false }
  have ran : iget i s = .ok ((), s.setCopy i e) := rfl
  have ref : e.ref = (s.icache i).ref + 1 := by
    change (if _ then _ else _ : Icopy).ref = _
    split
    · rfl
    · rename_i none
      change 1 = _
      omega
  have lock : e.locked = (s.icache i).locked := by
    change (if _ then _ else _ : Icopy).locked = _
    split <;> rfl
  have copy : e.copy = (s.icache i).copy := by
    change (if _ then _ else _ : Icopy).copy = _
    split <;> rfl
  have used : e.valid = true → 0 < (s.icache i).ref ∧ (s.icache i).valid = true := by
    change (if _ then _ else _ : Icopy).valid = true → _
    split
    · exact fun valid => ⟨by assumption, valid⟩
    · nofun
  have held : ∀ j, j ≠ i → (i :: held).count j = held.count j := fun j other =>
    count_cons_of_ne other.symm
  refine .of_ok ran ⟨session.cached rfl rfl rfl (fun _ => ⟨known, fun valid => ?_⟩)
    (fun locked => ?_)
    ?_ held ?_ (fun _ _ => Iff.rfl) session.nodup, rfl⟩
  · rw [copy]
    exact (intact_entry session.intact (used valid).1).2 (used valid).2
  · rw [lock] at locked
    obtain ⟨referenced, valid⟩ := session.intact.locks i locked
    refine ⟨by rw [ref]; omega, ?_⟩
    change (if _ then _ else _ : Icopy).valid = true
    rw [if_pos referenced]
    exact valid
  · rw [ref, session.refs i, count_cons_self]
    omega
  · rw [lock]
    exact session.locks i

theorem idup_session (session : Session sb s₀ held locked s) (referenced : 0 < (s.icache i).ref) :
    Keeps (idup i) s fun _ t => Session sb s₀ (i :: held) locked t := by
  refine .of_ok (t := s.setCopy i { s.icache i with ref := (s.icache i).ref + 1 }) rfl
    (session.cached rfl rfl rfl (fun _ => ?_) (fun locked => ?_) ?_ (fun j other => ?_) ?_
      (fun _ _ => Iff.rfl) session.nodup)
  · exact intact_entry session.intact referenced
  · exact ⟨Nat.succ_pos _, (session.intact.locks i locked).2⟩
  · change (s.icache i).ref + 1 = _
    rw [session.refs i, count_cons_self]
    omega
  · exact count_cons_of_ne other.symm
  · exact session.locks i

end References

section Locks

/-- The entry of an inode that has been locked. -/
def lockedEntry (sb : Superblock) (s : Disk) (i : ℕ) : Icopy :=
  ⟨(s.icache i).ref, true, true, node sb s i⟩

theorem loadInode_keeps (ok : DiskOk sb s) (referenced : 0 < (s.icache i).ref) :
    Keeps (loadInode sb i) (s.setCopy i { s.icache i with locked := true }) fun _ t =>
      t = s.setCopy i (lockedEntry sb s i) ∧ (node sb s i).type ≠ 0 := by
  let s' := s.setCopy i { s.icache i with locked := true }
  have entry : s'.icache i = { s.icache i with locked := true } := update_self i _ _
  by_cases valid : (s.icache i).valid = true
  · have live : node sb s i = (s.icache i).copy := node_live ⟨referenced, valid⟩
    have same : { s.icache i with locked := true } = lockedEntry sb s i := by
      rw [lockedEntry, live, ← valid]
    have ran : loadInode sb i s' = .ok ((), s') := by
      have read : (reads fun s : Disk => (s.icache i).valid : DiskProg Bool) s' =
        .ok (true, s') := by
        rw [reads, entry]
        exact congrArg (fun v => Except.ok (v, s')) valid
      rw [loadInode, bind_of_ok read, if_pos rfl]
      rfl
    refine .of_ok ran ⟨congrArg (s.setCopy i) same, ?_⟩
    rw [live]
    exact (ok.entries i referenced).2 valid
  · have disk : node sb s i = s.dinode sb i := by
      unfold node
      exact if_neg fun live => valid live.2
    let t := s'.setCopy i { s'.icache i with valid := true, copy := s'.dinode sb i }
    have shape : t = s.setCopy i (lockedEntry sb s i) := by
      change { s with icache := update (update s.icache i _) i _ } =
        { s with icache := update s.icache i _ }
      rw [update_idem, entry, lockedEntry, disk]
      rfl
    have read : (reads fun s : Disk => (s.icache i).valid : DiskProg Bool) s' =
      .ok (false, s') := by
      rw [reads, entry]
      exact congrArg (fun v => Except.ok (v, s')) (by simpa using valid)
    have ran : loadInode sb i s' =
        check (fun s => (s.icache i).copy.type ≠ 0) .ilockNoType t := by
      rw [loadInode, bind_of_ok read, if_neg (by nofun)]
      rfl
    have copy : (t.icache i).copy = node sb s i := by
      rw [shape]
      change (update s.icache i (lockedEntry sb s i) i).copy = _
      rw [update_self, lockedEntry]
    rw [Keeps, SafeOr, ran]
    refine keeps_check (fun _ t => t = s.setCopy i (lockedEntry sb s i) ∧ _) True.intro
      fun typed => ⟨shape, ?_⟩
    rw [copy] at typed
    simpa using typed

theorem acquiresleep_keeps (session : Session sb s₀ held locked s) (i : ℕ) :
    Keeps (acquiresleep i) s fun _ t =>
      s.setCopy i { s.icache i with locked := true } = t ∧ i ∉ locked := by
  refine keeps_check_bind True.intro fun free => .of_ok rfl ⟨rfl, fun mem => ?_⟩
  rw [(session.locks i).mpr mem] at free
  contradiction

theorem ilock_session (session : Session sb s₀ held locked s) (i : ℕ) :
    Keeps (ilock sb i) s fun _ t => Session sb s₀ held (i :: locked) t ∧
      t.icache = update s.icache i (lockedEntry sb s i) := by
  refine keeps_check_bind True.intro fun counted => ?_
  have referenced : 0 < (s.icache i).ref := of_decide_eq_true counted
  refine (acquiresleep_keeps session i).bind ?_
  rintro - - ⟨rfl, free⟩
  refine (loadInode_keeps session.intact.ok referenced).mono ?_
  rintro - t ⟨rfl, typed⟩
  refine ⟨session.cached rfl rfl rfl (fun _ => ?_) (fun _ => ⟨referenced, rfl⟩) (session.refs i)
    (fun _ _ => rfl) ?_ (fun j other => ?_) (nodup_cons.mpr ⟨free, session.nodup⟩), rfl⟩
  · refine ⟨(session.intact.ok.entries i referenced).1, fun _ => ⟨?_, typed⟩⟩
    exact node_disk (session.intact.written i)
  · simp [lockedEntry]
  · simp [other]

theorem iunlock_session (session : Session sb s₀ held (i :: locked) s) :
    Keeps (iunlock i) s fun _ t => Session sb s₀ held locked t ∧ t.buf = s.buf := by
  have fresh := nodup_cons.mp session.nodup
  refine keeps_check_bind True.intro fun _ => .of_ok rfl ⟨session.cached rfl rfl rfl
    (intact_entry session.intact) nofun (session.refs i)
    (fun _ _ => rfl) ?_ (fun j other => ?_) fresh.2, rfl⟩
  · simp [fresh.1]
  · simp [other]

end Locks

end Xv6Cos.Verif
