import Xv6Cos.Verif.LogReader

/-!
# Steps of running operations

While an operation runs, nobody commits: the entries of the log are exactly the pinned
blocks, and the home blocks on disk are the committed ones.
-/

namespace Xv6Cos.Verif

open Kernel Spec Function List LogState

variable {ι : Type} {s t : LogState ι} {store : Store} {log : Log} {p : ι} {b : Fin NBUF}

/-- With nobody in `commit` or `initlog`, the entries are the pinned blocks. -/
theorem pinned_of_users (users : ∀ q, s.stage q = .user) (blockno : ℕ) :
    Pinned s blockno ↔ blockno ∈ entries s.log.lh := by
  rw [mem_entries]
  constructor
  · rintro ⟨i, inside, here, -⟩
    exact ⟨i, inside, here⟩
  · rintro ⟨i, inside, here⟩
    refine ⟨i, inside, here, fun q => ?_⟩
    rw [users q]
    rfl

/-- `log_write` extends a header that has room by a home block it did not name. -/
theorem HeaderOk.append {blocks : List ℕ} {blockno : ℕ} (ok : HeaderOk log blocks)
    (room : blocks.length < LOGSIZE ∧ blocks.length + 1 < log.size) (fresh : blockno ∉ blocks)
    (home : log.home blockno) : HeaderOk log (blocks ++ [blockno]) where
  fits := by
    rw [length_append, length_singleton]
    omega
  inside := by
    rw [length_append, length_singleton]
    omega
  distinct := by
    rw [nodup_append]
    refine ⟨ok.distinct, nodup_singleton _, ?_⟩
    intro other member last single
    rw [mem_singleton.mp single]
    rintro rfl
    exact fresh member
  home other member := by
    rcases mem_append.mp member with old | new
    · exact ok.home other old
    · rwa [mem_singleton.mp new]

variable [Fintype ι] [DecidableEq ι]

section Holder

variable (inv : LogInv store s) (ready : s.Ready p) (running : s.inOp p = true)
  (held : (s.cache.buf b).lock = some p) (home : s.log.home (s.cache.buf b).blockno)

include inv ready running held home

/-- A holder modifies its buffer. -/
theorem modify_inv (data : Block) :
    LogInv store (s.setBuf b { s.cache.buf b with
      data := data, edit := if (s.cache.buf b).edit = .logged then .logged else .unlogged }) := by
  have users := inv.control.running running
  refine inv.reader rfl rfl rfl rfl rfl inv.control.asked ?_ ?_ ?_ ?_
  · exact inv.cache.edit _ ready.2.2 held rfl rfl rfl ⟨rfl, rfl, rfl, rfl⟩ (fun _ _ => Iff.rfl) rfl
  · refine ⟨fun b' dirty => ?_, fun b' logged => ?_⟩ <;>
      simp only [setBuf] at * <;> by_cases same : b' = b
    · subst same
      rw [buf_self]
      exact ⟨p, held, running, home⟩
    · rw [buf_other same] at dirty ⊢
      exact inv.edits.owner b' dirty
    · subst same
      rw [buf_self] at logged ⊢
      refine inv.edits.logged b' ?_
      by_contra unlogged
      rw [if_neg unlogged] at logged
      contradiction
    · rw [buf_other same] at logged ⊢
      exact inv.edits.logged b' logged
  · intro b' other caches full clean
    simp only [setBuf, Caches] at caches full clean ⊢
    by_cases same : b' = b
    · subst same
      rw [buf_self] at clean
      simp only at clean
      split at clean <;> contradiction
    · rw [buf_other same] at caches full clean ⊢
      exact inv.data.cached b' other caches full clean
  · exact fun q busy => absurd (users q) busy

/-- `log_write`, which pins the buffer if its block is new to the log. -/
theorem logWrite_inv {pin : Bool}
    (written : s.log.logWrite (s.cache.buf b).blockno = .ok (log, pin)) :
    LogInv store { s.setBuf b { s.cache.buf b with
      refcnt := if pin then (s.cache.buf b).refcnt + 1 else (s.cache.buf b).refcnt,
      edit := .logged } with log := log } := by
  have users := inv.control.running running
  obtain ⟨room, inside, _, frame, outcome⟩ := logWrite_ok written
  obtain ⟨lh, rfl⟩ : ∃ lh, log = { s.log with lh := lh } := ⟨_, frame⟩
  have members : ∀ x, x ∈ entries lh ↔
      x ∈ entries s.log.lh ∨ x = (s.cache.buf b).blockno := by
    intro x
    rcases outcome with ⟨-, logged, same⟩ | ⟨-, -, grown, -⟩
    · simp only at same
      rw [same]
      exact ⟨.inl, fun h => h.elim id (fun here => here ▸ logged)⟩
    · simp only at grown
      rw [grown, mem_append, mem_singleton]
  have header : HeaderOk s.log (entries lh) := by
    rcases outcome with ⟨-, -, same⟩ | ⟨-, fresh, grown, -⟩
    · simp only at same
      rw [same]
      exact inv.control.header
    · simp only at grown
      rw [grown]
      exact inv.control.header.append (by simpa using ⟨room, inside⟩) fresh home
  have mounted := inv.cache.mounted (inv.cache.held_used held)
  refine ⟨?_, ?_, ?_, ?_, ?_, inv.quiet⟩
  · exact { inv.control with header := { header with }, asked := fun q _ _ _ => .inl (users q) }
  · refine ⟨fun b' dirty => ?_, fun b' logged => ?_⟩ <;>
      simp only [setBuf] at * <;> by_cases same : b' = b
    · subst same
      rw [buf_self]
      exact ⟨p, held, running, home⟩
    · rw [buf_other same] at dirty ⊢
      exact inv.edits.owner b' dirty
    · subst same
      rw [buf_self, members]
      exact .inr rfl
    · rw [buf_other same] at logged ⊢
      rw [members]
      exact .inl (inv.edits.logged b' logged)
  · have counted : pinRefs s (· ∈ entries lh) b = 1 :=
      pinRefs_pos ⟨mounted, rfl⟩ ((members _).mpr (.inr rfl))
    have pinned : CacheInv { s.setBuf b { s.cache.buf b with
        refcnt := if pin then (s.cache.buf b).refcnt + 1 else (s.cache.buf b).refcnt,
        edit := .logged } with log := { s.log with lh := lh } } (· ∈ entries lh) := by
      refine inv.cache.edit _ ready.2.2 held rfl rfl rfl ⟨rfl, rfl, rfl, rfl⟩ ?_ ?_
      · intro x ne
        rw [pinned_of_users users, members]
        exact or_iff_left ne
      · rw [counted]
        rcases outcome with ⟨rfl, logged, -⟩ | ⟨rfl, fresh, -⟩
        · rw [pinRefs_pos ⟨mounted, rfl⟩ ((pinned_of_users users _).mpr logged)]
          rfl
        · rw [pinRefs_zero]
          · rfl
          · rintro _ ⟨-, rfl⟩ old
            exact fresh ((pinned_of_users users _).mp old)
    exact pinned.congr rfl rfl rfl (pinned_of_users users)
  · obtain ⟨cached, stored, durable, ok, group⟩ := inv.data
    refine ⟨?_, ?_, durable, { ok with }, group⟩
    · intro b' other caches full clean
      simp only [setBuf, Caches] at caches full clean ⊢
      by_cases same : b' = b
      · subst same
        rw [buf_self] at clean
        contradiction
      · rw [buf_other same] at caches full clean ⊢
        exact cached b' other caches full clean
    · intro x absent
      exact stored x fun booted old => absent booted ((members x).mpr (.inl old))
  · intro q
    simp only [setBuf, users q]
    trivial

end Holder

omit [DecidableEq ι] in
/-- Without a committer nobody is in `commit`. -/
theorem ControlInv.users (control : ControlInv s) (booted : s.booted = true)
    (free : s.log.committing = false) (q : ι) : s.stage q = .user := by
  by_contra busy
  have committing := control.committing.mpr ⟨booted, q, busy⟩
  rw [free] at committing
  contradiction

section

variable (inv : LogInv store s) (ready : s.Ready p)

include inv ready

theorem beginOp_inv (outside : s.inOp p = false) (begun : s.log.beginOp = some log) :
    LogInv store { s with log := log, inOp := update s.inOp p true } := by
  obtain ⟨free, room, rfl⟩ := beginOp_some begun
  have users := inv.control.users ready.1 free
  have sum := sum_update Bool.toNat s.inOp p true
  rw [outside] at sum
  refine ⟨?_, ?_, inv.cache.congr rfl rfl rfl fun _ => Iff.rfl, ?_, ?_, inv.quiet⟩
  · obtain ⟨device, area, outstanding, reserved, single, idle, committing, mode, header, asked⟩ :=
      inv.control
    refine ⟨device, area, ?_, ?_, single, ?_, committing, mode,
      { header with }, fun q _ _ _ => .inl (users q)⟩
    · simp only [Bool.toNat_true, Bool.toNat_false] at sum ⊢
      rw [outstanding]
      omega
    · simp only [LOGSIZE, MAXOPBLOCKS] at room ⊢
      omega
    · exact fun q _ busy => absurd (users q) busy
  · refine ⟨fun b dirty => ?_, inv.edits.logged⟩
    obtain ⟨q, held, running, home⟩ := inv.edits.owner b dirty
    refine ⟨q, held, ?_, home⟩
    by_cases mine : q = p
    · rw [mine]
      exact update_self ..
    · rw [← running]
      exact update_of_ne mine ..
  · exact { inv.data with header := { inv.data.header with } }
  · intro q
    simp only [users q]
    trivial

/-- `end_op`, which starts a commit if this was the last operation. -/
theorem endOp_inv {commit : Bool}
    (running : s.inOp p = true)
    (released : ∀ b, (s.cache.buf b).lock = some p → (s.cache.buf b).edit = .clean)
    (ended : s.log.endOp = .ok (log, commit)) :
    LogInv store ({ s with log := log, inOp := update s.inOp p false }.setStage p
      (if commit then .commit else .user)) := by
  obtain ⟨free, rfl, last⟩ := endOp_ok ended
  have users := inv.control.running running
  have sum := sum_update Bool.toNat s.inOp p false
  rw [running] at sum
  simp only [Bool.toNat_true, Bool.toNat_false] at sum
  have count := inv.control.outstanding
  have self : update s.stage p (if commit then Stage.commit else .user) p =
      if commit then .commit else .user := update_self ..
  have other : ∀ q ≠ p, update s.stage p (if commit then Stage.commit else .user) q =
      .user := fun q ne => (update_of_ne ne ..).trans (users q)
  have worker : ∀ q, update s.stage p (if commit then Stage.commit else .user) q ≠ .user ↔
      q = p ∧ commit = true := by
    intro q
    by_cases mine : q = p
    · subst mine
      rw [self]
      cases commit <;> simp
    · rw [other q mine]
      simp [mine]
  have asIs : ∀ q i, keepsPin i (update s.stage p
      (if commit then Stage.commit else .user) q) = true := by
    intro q i
    by_cases mine : q = p
    · subst mine
      rw [self]
      cases commit <;> rfl
    · rw [other q mine]
      rfl
  refine ⟨?_, ?_, ?_, ?_, ?_, fun _ => inv.quiet users⟩
  · obtain ⟨device, area, outstanding, reserved, single, idle, committing, mode, header, asked⟩ :=
      inv.control
    refine ⟨device, area, ?_, ?_, ?_, ?_, ?_, ?_,
      { header with }, ?_⟩ <;>
      simp only [setStage]
    · omega
    · omega
    · intro q r first second
      rw [((worker q).mp first).1, ((worker r).mp second).1]
    · intro q r busy
      have alone := last.mp ((worker q).mp busy).2
      have none : ∑ q, (update s.inOp p false q).toNat = 0 := by omega
      have zero := (Finset.sum_eq_zero_iff.mp none) r (Finset.mem_univ r)
      simpa using zero
    · simp only [worker, ready.1, true_and]
      exact ⟨fun commits => ⟨p, rfl, commits⟩, by
        rintro ⟨_, _, commits⟩
        exact commits⟩
    · intro q busy
      obtain ⟨rfl, rfl⟩ := (worker q).mp busy
      rw [self]
      exact iff_of_true rfl ready.1
    · intro q b blockno waiting
      by_cases mine : q = p
      · subst mine
        rw [ready.2.2] at waiting
        simp at waiting
      · exact .inl (other q mine)
  · refine ⟨fun b dirty => ?_, inv.edits.logged⟩
    obtain ⟨q, held, running, home⟩ := inv.edits.owner b dirty
    have mine : q ≠ p := by
      rintro rfl
      exact dirty (released b held)
    exact ⟨q, held, (update_of_ne mine ..).trans running, home⟩
  · refine inv.cache.congr rfl rfl rfl fun blockno => ?_
    rw [pinned_of_users users, mem_entries]
    constructor
    · rintro ⟨i, inside, here, -⟩
      exact ⟨i, inside, here⟩
    · rintro ⟨i, inside, here⟩
      exact ⟨i, inside, here, fun q => asIs q i⟩
  · exact { inv.data with header := { inv.data.header with } }
  · intro q
    simp only [setStage]
    by_cases mine : q = p
    · subst mine
      rw [self]
      cases commit
      · trivial
      · exact ⟨inv.quiet users, Nat.zero_le _, by simp⟩
    · rw [other q mine]
      trivial

/-- A user releases a buffer, which makes its modification current. -/
theorem userRelease_inv (held : (s.cache.buf b).lock = some p)
    (logged : (s.cache.buf b).edit ≠ .unlogged) :
    LogInv (store.after (if (s.cache.buf b).edit = .clean then .silent
        else .released (s.cache.buf b).blockno (s.cache.buf b).data))
      ((s.setBuf b { s.cache.buf b with lock := none, edit := .clean }).setWait p
        (.releasing b)) := by
  have asked : ∀ q b' blockno, update s.wait p (.releasing b) q = .acquiring b' blockno ∨
      update s.wait p (.releasing b) q = .filling b' blockno →
      s.stage q = .user ∨ s.op (s.stage q) = some (.bread blockno) := by
    intro q b' blockno waiting
    by_cases mine : q = p
    · exact .inl (mine ▸ ready.2.1)
    · rw [update_of_ne mine] at waiting
      exact inv.control.asked q b' blockno waiting
  have edits : EditInv ((s.setBuf b { s.cache.buf b with lock := none, edit := .clean }).setWait p
      (.releasing b)) := by
    refine inv.edits.frame rfl rfl fun b' => ?_
    simp only [setWait, setBuf]
    by_cases same : b' = b
    · subst same
      rw [buf_self]
      exact .inl rfl
    · rw [buf_other same]
      exact .inr .rfl
  have stages : ∀ q, s.stage q ≠ .user →
      StageOk store ((s.setBuf b { s.cache.buf b with lock := none, edit := .clean }).setWait p
        (.releasing b)) q (s.stage q) := by
    refine fun q busy => (inv.stages q).mono rfl rfl fun b' blockno mine => ?_
    have same : b' ≠ b := by
      rintro rfl
      obtain rfl := Option.some.inj (held.symm.trans mine.1)
      exact busy ready.2.1
    simp only [setWait, setBuf, Holds, Caches, buf_other same]
    exact mine
  have full : (s.cache.buf b).valid = true := by
    rcases inv.cache.held p b held with full | ⟨_, waiting⟩
    · exact full
    · rw [ready.2.2] at waiting
      contradiction
  have mounted := inv.cache.mounted (inv.cache.held_used held)
  have cache := inv.cache.release ready.2.2 held
  by_cases clean : (s.cache.buf b).edit = .clean
  · rw [if_pos clean]
    refine inv.reader rfl rfl rfl rfl rfl asked cache edits ?_ stages
    intro b' other caches valid unedited
    simp only [setWait, setBuf, Caches] at caches valid unedited ⊢
    by_cases same : b' = b
    · subst same
      rw [buf_self] at caches ⊢
      exact inv.data.cached b' other caches full clean
    · rw [buf_other same] at caches valid unedited ⊢
      exact inv.data.cached b' other caches valid unedited
  · rw [if_neg clean]
    have member : (s.cache.buf b).blockno ∈ entries s.log.lh := by
      refine inv.edits.logged b ?_
      cases edit : (s.cache.buf b).edit with
      | clean => exact absurd edit clean
      | unlogged => exact absurd edit logged
      | logged => rfl
    obtain ⟨q, theirs, running, home⟩ := inv.edits.owner b clean
    have users := inv.control.running running
    refine ⟨?_, edits, cache.congr rfl rfl rfl fun _ => Iff.rfl, ?_, ?_, inv.quiet⟩
    · exact { inv.control with asked := fun r _ _ _ => .inl (users r) }
    · refine { inv.data with cached := ?_, stored := ?_, group := ?_ }
      · intro b' other caches valid unedited
        simp only [setWait, setBuf, Caches] at caches valid unedited ⊢
        simp only [Store.after]
        by_cases same : b' = b
        · subst same
          rw [buf_self] at caches ⊢
          rw [← caches.2, update_self]
        · rw [buf_other same] at caches valid unedited ⊢
          rw [update_of_ne]
          · exact inv.data.cached b' other caches valid unedited
          · rintro rfl
            exact same (inv.cache.unique _ _ _ caches ⟨mounted, rfl⟩)
      · intro x absent
        simp only [Store.after]
        rw [update_of_ne]
        · exact inv.data.stored x absent
        · rintro rfl
          exact absent ready.1 member
      · intro booted x inHome
        simp only [Store.after, applyGroup, foldl_append, foldl_cons, foldl_nil]
        by_cases same : x = (s.cache.buf b).blockno
        · rw [same, update_self, update_self]
        · rw [update_of_ne same, update_of_ne same]
          exact inv.data.group booted x inHome
    · intro r
      simp only [setWait, setBuf, users r]
      trivial

end

end Xv6Cos.Verif
