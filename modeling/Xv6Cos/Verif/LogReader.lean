import Xv6Cos.Verif.LogInv

/-!
# Steps inside `bread` and `brelse`

These steps change neither the log nor the disk. What has to be shown is that a buffer is
filled with the current contents of its block, and that nobody's held buffers change.
-/

namespace Xv6Cos.Verif

open Kernel Spec Function LogState

variable {ι : Type} [Fintype ι] {s t : LogState ι} {store : Store} {stage after : Stage}
  {blockno : ℕ} {p : ι} {b : Fin NBUF} {cache : Bcache ι}

omit [Fintype ι] in
/-- Which block a stage reads depends on the log alone. -/
theorem op_bread_congr (log : t.log = s.log)
    (op : s.op stage = some (.bread blockno)) : t.op stage = some (.bread blockno) := by
  cases stage with
  | writeLog | writeLogFrom | writeHead | install | installDst | readHead =>
    simpa only [LogState.op, log] using op
  | installUnpin mode tail lbuf dbuf => cases mode <;> simp [LogState.op] at op
  | _ => simp [LogState.op] at op

omit [Fintype ι] in
/-- The progress of a stage depends on the log, the disk, the store and the held buffers. -/
theorem StageOk.mono (ok : StageOk store s p stage) (log : t.log = s.log)
    (disk : t.disk = s.disk) (holds : ∀ b blockno, Holds s p b blockno → Holds t p b blockno) :
    StageOk store t p stage := by
  have logged : ∀ tail, Logged store t tail ↔ Logged store s tail := fun tail => by
    rw [Logged, Logged, log, disk]
  have installed : ∀ tail, Installed store t tail ↔ Installed store s tail := fun tail => by
    rw [Installed, Installed, log, disk]
  have erasing : Erasing store t ↔ Erasing store s := by rw [Erasing, Erasing, log, disk]
  have erased : Erased t ↔ Erased s := by rw [Erased, Erased, log, disk]
  cases stage with
  | user => trivial
  | writeHead head => cases head <;> simpa only [StageOk, logged, erasing, log] using ok
  | writeHeadFill head buf =>
    cases head <;> simp only [StageOk, logged, erasing, log] at ok ⊢ <;>
      exact ⟨ok.1, holds _ _ ok.2⟩
  | writeHeadRel head buf =>
    cases head
    · simp only [StageOk, installed, log] at ok ⊢
      exact ⟨ok.1, holds _ _ ok.2⟩
    · simp only [StageOk, erased, log] at ok ⊢
      exact ⟨ok.1, ok.2.1, holds _ _ ok.2.2⟩
  | writeLogFrom tail tobuf | installDst mode tail tobuf =>
    simp only [StageOk, logged, installed, log] at ok ⊢
    exact ⟨ok.1, ok.2.1, holds _ _ ok.2.2⟩
  | writeLogCopy tail tobuf frombuf | installCopy mode tail tobuf frombuf =>
    simp only [StageOk, logged, installed, log] at ok ⊢
    exact ⟨ok.1, ok.2.1, holds _ _ ok.2.2.1, holds _ _ ok.2.2.2⟩
  | writeLogRelFrom tail tobuf frombuf | installUnpin mode tail tobuf frombuf
  | installRelLog mode tail tobuf frombuf =>
    simp only [StageOk, logged, installed, log] at ok ⊢
    exact ⟨ok.1, holds _ _ ok.2.1, holds _ _ ok.2.2⟩
  | writeLogRelTo tail tobuf | installRelDst mode tail tobuf | readHeadRel tobuf =>
    simp only [StageOk, logged, installed, log] at ok ⊢
    exact ⟨ok.1, holds _ _ ok.2⟩
  | readHeadCopy buf =>
    simp only [StageOk, log] at ok ⊢
    exact ⟨ok.1, ok.2.1, holds _ _ ok.2.2⟩
  | _ => simpa only [StageOk, logged, installed, erased, log] using ok

/-- Nobody else is in `commit` or `initlog`. -/
theorem ControlInv.alone (control : ControlInv s) {q : ι} (working : s.stage p ≠ .user)
    (other : q ≠ p) : s.stage q = .user := by
  by_contra busy
  exact other (control.single q p busy working)

/-- Nobody is in `commit` or `initlog` while an operation runs. -/
theorem ControlInv.running (control : ControlInv s) (running : s.inOp p = true) (q : ι) :
    s.stage q = .user := by
  by_contra busy
  have stopped := control.idle q p busy
  rw [running] at stopped
  contradiction

omit [Fintype ι] in
/-- Pins depend on the entries and the stages alone. -/
theorem pinned_congr (log : t.log = s.log) (stage : t.stage = s.stage) (blockno : ℕ) :
    Pinned t blockno ↔ Pinned s blockno := by
  rw [Pinned, Pinned, log, stage]

/-- A step that changes only buffers and waits. -/
theorem LogInv.reader (inv : LogInv store s) (log : t.log = s.log) (disk : t.disk = s.disk)
    (inOp : t.inOp = s.inOp) (booted : t.booted = s.booted) (stage : t.stage = s.stage)
    (asked : ∀ p b blockno, t.wait p = .acquiring b blockno ∨ t.wait p = .filling b blockno →
      s.stage p = .user ∨ s.op (s.stage p) = some (.bread blockno))
    (cache : CacheInv t (Pinned s)) (edits : EditInv t)
    (cached : ∀ b blockno, Caches t b blockno → (t.cache.buf b).valid = true →
      (t.cache.buf b).edit = .clean → (t.cache.buf b).data = store.contents blockno)
    (stages : ∀ p, s.stage p ≠ .user → StageOk store t p (s.stage p)) : LogInv store t where
  control := by
    obtain ⟨device, area, outstanding, reserved, single, idle, committing, mode, header, _⟩ :=
      inv.control
    refine ⟨?_, ?_, ?_, ?_, ?_, ?_, ?_, ?_, ?_, ?_⟩ <;> simp only [log, inOp, booted, stage] <;>
      try assumption
    intro p b blockno waiting
    exact (asked p b blockno waiting).imp id (op_bread_congr log)
  edits := edits
  cache := cache.congr rfl rfl rfl (pinned_congr log stage)
  data := by
    obtain ⟨_, stored, durable, header, group⟩ := inv.data
    refine ⟨cached, ?_, ?_, ?_, ?_⟩ <;> simp only [log, disk, booted] <;> assumption
  stages p := by
    rw [stage]
    by_cases user : s.stage p = .user
    · rw [user]
      trivial
    · exact stages p user
  quiet user := by
    rw [log, disk]
    exact inv.quiet fun p => stage ▸ user p

/-- The buffers agree in all but the reference count. -/
structure SameBuf (x y : Buf ι) : Prop where
  valid : y.valid = x.valid
  dev : y.dev = x.dev
  blockno : y.blockno = x.blockno
  lock : y.lock = x.lock
  data : y.data = x.data
  edit : y.edit = x.edit

omit [Fintype ι] in
theorem SameBuf.rfl {x : Buf ι} : SameBuf x x :=
  ⟨.refl _, .refl _, .refl _, .refl _, .refl _, .refl _⟩

omit [Fintype ι] in
/-- A buffer that only lost or gained references is still held. -/
theorem Holds.frame (holds : Holds s p b blockno)
    (same : SameBuf (s.cache.buf b) (t.cache.buf b)) (dev : t.log.dev = s.log.dev) :
    Holds t p b blockno := by
  unfold Holds Caches
  rw [same.lock, same.dev, same.blockno, same.valid, same.edit, dev]
  exact holds

omit [Fintype ι] in
/-- Buffers that are clean, or were modified before in the same way, are accounted for. -/
theorem EditInv.frame (edits : EditInv s) (log : t.log = s.log) (inOp : t.inOp = s.inOp)
    (kept : ∀ b, (t.cache.buf b).edit = .clean ∨ SameBuf (s.cache.buf b) (t.cache.buf b)) :
    EditInv t where
  owner b dirty := by
    rcases kept b with clean | same
    · exact absurd clean dirty
    · rw [same.lock, same.blockno, log, inOp]
      exact edits.owner b (same.edit ▸ dirty)
  logged b logged := by
    rcases kept b with clean | same
    · rw [clean] at logged
      contradiction
    · rw [same.blockno, log]
      exact edits.logged b (same.edit ▸ logged)

/-- After `bget` every buffer is as before, or is an unused one that lost its contents. -/
theorem bget_sameBuf {pins : ℕ → Prop} (inv : CacheInv s pins)
    (got : s.cache.bget s.log.dev blockno = some (b, cache)) (b' : Fin NBUF) :
    SameBuf (s.cache.buf b') (cache.buf b') ∨
      ((s.cache.buf b').lock = none ∧ (cache.buf b').valid = false ∧
        (cache.buf b').edit = .clean) := by
  by_cases touched : b' = b
  · subst touched
    rcases bget_some inv.ring got with ⟨_, _, rfl⟩ | ⟨_, zero, rfl⟩
    · refine .inl ?_
      simp only [Bcache.set, update_self]
      exact ⟨rfl, rfl, rfl, rfl, rfl, rfl⟩
    · refine .inr ⟨(inv.unused zero).1, ?_⟩
      simp only [Bcache.set, update_self, true_and]
      exact inv.clean _ (inv.unused zero).1
  · refine .inl ?_
    have same : cache.buf b' = s.cache.buf b' := by
      rcases bget_some inv.ring got with ⟨_, _, rfl⟩ | ⟨_, _, rfl⟩ <;>
        exact update_of_ne touched ..
    rw [same]
    exact .rfl

variable [DecidableEq ι]

/-- `bget` by a user or by the log. -/
theorem startRead_inv (inv : LogInv store s) (idle : s.wait p = .run)
    (asked : s.stage p = .user ∨ s.op (s.stage p) = some (.bread blockno))
    (got : s.cache.bget s.log.dev blockno = some (b, cache)) :
    LogInv store ({ s with cache := cache }.setWait p (.acquiring b blockno)) := by
  have kept := bget_sameBuf inv.cache got
  refine inv.reader rfl rfl rfl rfl rfl ?_ (inv.cache.startRead idle got) ?_ ?_ ?_
  · intro q b' other waiting
    by_cases mine : q = p
    · subst mine
      simp only [setWait, update_self, reduceCtorEq, or_false] at waiting
      cases waiting
      exact asked
    · simp only [setWait, update_of_ne mine] at waiting
      exact inv.control.asked q b' other waiting
  · exact inv.edits.frame rfl rfl fun b' => (kept b').symm.imp (fun fresh => fresh.2.2) id
  · intro b' other caches full clean
    rcases kept b' with same | ⟨_, empty, _⟩
    · refine same.data.trans (inv.data.cached b' other ?_ ?_ ?_)
      · exact ⟨same.dev ▸ caches.1, same.blockno ▸ caches.2⟩
      · exact same.valid ▸ full
      · exact same.edit ▸ clean
    · exact absurd (empty.symm.trans full) (by simp)
  · refine fun q _ => (inv.stages q).mono rfl rfl fun b' other holds => ?_
    rcases kept b' with same | ⟨free, _, _⟩
    · exact holds.frame same rfl
    · exact absurd (free.symm.trans holds.1) (by simp)

/-- `acquiresleep` in `bget`. -/
theorem lock_inv (inv : LogInv store s)
    (waiting : s.wait p = .acquiring b blockno) (free : (s.cache.buf b).lock = none) :
    LogInv store
      ((s.setBuf b { s.cache.buf b with lock := some p }).setWait p (.filling b blockno)) := by
  refine inv.reader rfl rfl rfl rfl rfl ?_ (inv.cache.lock waiting free) ?_ ?_ ?_
  · intro q b' other now
    by_cases mine : q = p
    · subst mine
      simp only [setWait, update_self, reduceCtorEq, false_or] at now
      cases now
      exact inv.control.asked q b blockno (.inl waiting)
    · simp only [setWait, update_of_ne mine] at now
      exact inv.control.asked q b' other now
  · refine inv.edits.frame rfl rfl fun b' => ?_
    simp only [setWait, setBuf]
    by_cases same : b' = b
    · subst same
      rw [buf_self]
      exact .inl (inv.cache.clean _ free)
    · rw [buf_other same]
      exact .inr .rfl
  · intro b' other caches full clean
    simp only [setWait, setBuf, Caches] at caches full clean ⊢
    by_cases same : b' = b
    · subst same
      rw [buf_self] at caches full clean ⊢
      exact inv.data.cached b' other caches full clean
    · rw [buf_other same] at caches full clean ⊢
      exact inv.data.cached b' other caches full clean
  · refine fun q _ => (inv.stages q).mono rfl rfl fun b' other holds => ?_
    simp only [setWait, setBuf, Holds, Caches]
    have same : b' ≠ b := by
      rintro rfl
      exact absurd (free.symm.trans holds.1) (by simp)
    rw [buf_other same]
    exact holds

/-- The rest of `brelse`. -/
theorem finish_inv (inv : LogInv store s) (waiting : s.wait p = .releasing b) :
    LogInv store ({ s with cache := s.cache.brelse b }.setWait p .run) := by
  have kept : ∀ b', SameBuf (s.cache.buf b') ((s.cache.brelse b).buf b') := by
    intro b'
    rw [brelse_buf]
    by_cases same : b' = b
    · subst same
      rw [update_self]
      exact ⟨rfl, rfl, rfl, rfl, rfl, rfl⟩
    · rw [update_of_ne same]
      exact .rfl
  refine inv.reader rfl rfl rfl rfl rfl ?_ (inv.cache.finish waiting) ?_ ?_ ?_
  · intro q b' other now
    by_cases mine : q = p
    · subst mine
      simp [setWait] at now
    · simp only [setWait, update_of_ne mine] at now
      exact inv.control.asked q b' other now
  · exact inv.edits.frame rfl rfl fun b' => .inr (kept b')
  · intro b' other caches full clean
    refine (kept b').data.trans (inv.data.cached b' other ?_ ?_ ?_)
    · exact ⟨(kept b').dev ▸ caches.1, (kept b').blockno ▸ caches.2⟩
    · exact (kept b').valid ▸ full
    · exact (kept b').edit ▸ clean
  · exact fun q _ => (inv.stages q).mono rfl rfl fun b' _ holds => holds.frame (kept b') rfl

omit [Fintype ι] [DecidableEq ι] in
/-- A block whose pin `commit` has dropped is installed. -/
theorem installed_of_unpinned {i : ℕ} (ok : StageOk store s p stage)
    (dropped : keepsPin i stage = false) (commits : stageMode stage = .commit)
    (inside : i < s.log.lh.n) : s.disk (s.log.lh.block i) = store.committed (s.log.lh.block i) ∧
      store.pending = [] := by
  cases stage with
  | install mode tail | installDst mode tail _ | installCopy mode tail _ _
  | installUnpin mode tail _ _ | installRelLog mode tail _ _ | installRelDst mode tail _
  | clear mode =>
    cases mode with
    | recover => contradiction
    | commit =>
      simp only [StageOk, Installed, keepsPin, decide_eq_false_iff_not] at ok dropped
      first
        | exact ⟨ok.1.2.2.2 i (by omega), ok.1.2.2.1⟩
        | exact ⟨ok.2.2.2 i (by omega), ok.2.2.1⟩
  | writeHead head =>
    cases head with
    | log => contradiction
    | erase mode =>
      have empty : s.log.lh.n = 0 := ok.1
      omega
  | writeHeadFill head | writeHeadRel head =>
    cases head with
    | log => contradiction
    | erase mode =>
      have empty : s.log.lh.n = 0 := ok.1.1
      omega
  | commitDone =>
    have empty : s.log.lh.n = 0 := ok.1
    omega
  | _ => contradiction

omit [DecidableEq ι] in
/-- A block that no buffer has the contents of is current on disk. -/
theorem LogInv.disk_current (inv : LogInv store s)
    (caches : Caches s b blockno) (empty : (s.cache.buf b).valid = false) :
    s.disk blockno = store.contents blockno := by
  by_cases logged : s.booted = true ∧ blockno ∈ entries s.log.lh
  · obtain ⟨booted, member⟩ := logged
    obtain ⟨i, inside, rfl⟩ := mem_entries.mp member
    have home := inv.control.header.home _ member
    by_cases kept : ∀ q, keepsPin i (s.stage q) = true
    · obtain ⟨b', other, full⟩ := inv.cache.cached _ ⟨i, inside, rfl, kept⟩
      rw [inv.cache.unique b' b _ other caches, empty] at full
      contradiction
    · simp only [not_forall, Bool.not_eq_true] at kept
      obtain ⟨q, dropped⟩ := kept
      have working : s.stage q ≠ .user := by
        intro user
        rw [user] at dropped
        contradiction
      have mode := (inv.control.mode q working).mpr booted
      obtain ⟨current, closed⟩ := installed_of_unpinned (inv.stages q) dropped mode inside
      rw [current, inv.data.group booted _ home, closed]
      rfl
  · exact inv.data.stored blockno fun booted member => logged ⟨booted, member⟩

omit [Fintype ι] in
/-- Moving on within the same pins. -/
theorem pinned_advance (log : t.log = s.log) (stage : t.stage = update s.stage p after)
    (pins : ∀ i < s.log.lh.n, keepsPin i after = keepsPin i (s.stage p)) (blockno : ℕ) :
    Pinned t blockno ↔ Pinned s blockno := by
  unfold Pinned
  rw [log, stage]
  refine exists_congr fun i => and_congr_right fun inside => and_congr_right fun _ => ?_
  refine forall_congr' fun q => ?_
  by_cases mine : q = p
  · rw [mine, update_self, pins i inside]
  · rw [update_of_ne mine]

omit [DecidableEq ι] in
/-- Nobody has a modified buffer while `commit` or `initlog` runs. -/
theorem LogInv.all_clean (inv : LogInv store s) (working : s.stage p ≠ .user)
    (b : Fin NBUF) : (s.cache.buf b).edit = .clean := by
  by_contra dirty
  obtain ⟨q, _, running, _⟩ := inv.edits.owner b dirty
  rw [inv.control.idle p q working] at running
  contradiction

omit [Fintype ι] [DecidableEq ι] in
/-- A cache without modified buffers. -/
theorem editInv_of_clean (clean : ∀ b, (t.cache.buf b).edit = .clean) : EditInv t where
  owner b dirty := absurd (clean b) dirty
  logged b logged := by
    rw [clean b] at logged
    contradiction

section Advance

variable {store' : Store} (after : Stage) (working : s.stage p ≠ .user)
  (idle : s.wait p = .run) (onward : after ≠ .user) (mode : stageMode after = stageMode (s.stage p))

include working idle onward mode

section

variable (log : t.log = { s.log with lh := t.log.lh }) (header : HeaderOk s.log (entries t.log.lh))
  (moves : t.stage = update s.stage p after) (wait : t.wait = s.wait) (inOp : t.inOp = s.inOp)
  (booted : t.booted = s.booted)

include log header moves wait inOp booted

/-- A step of the log that moves on and may replace the header in memory. -/
theorem ControlInv.advance (control : ControlInv s) : ControlInv t := by
  have self : t.stage p = after := by rw [moves, update_self]
  have other : ∀ q ≠ p, t.stage q = .user := fun q ne => by
    rw [moves, update_of_ne ne, control.alone working ne]
  have worker : ∀ q, t.stage q ≠ .user ↔ q = p := by
    intro q
    by_cases mine : q = p
    · subst mine
      rw [self]
      exact iff_of_true onward rfl
    · rw [other q mine]
      exact iff_of_false (fun busy => busy rfl) mine
  obtain ⟨device, area, outstanding, reserved, single, quiet, committing, modes, _, _⟩ := control
  refine ⟨?_, ?_, ?_, ?_, ?_, ?_, ?_, ?_, ?_, ?_⟩
  · rw [log]
    exact device
  · rw [log]
    exact area
  · rw [log, inOp]
    exact outstanding
  · rw [log]
    exact reserved
  · intro q r first second
    rw [(worker q).mp first, (worker r).mp second]
  · intro q r busy
    rw [inOp]
    exact quiet p r working
  · rw [log, booted]
    refine committing.trans (and_congr_right fun _ => ?_)
    exact iff_of_true ⟨p, working⟩ ⟨p, (worker p).mpr rfl⟩
  · intro q busy
    obtain rfl := (worker q).mp busy
    rw [self, mode, booted]
    exact modes q working
  · rw [log]
    exact { header with }
  · intro q b blockno waiting
    refine .inl (other q ?_)
    rintro rfl
    rw [wait, idle] at waiting
    simp at waiting

/-- A step of the log on what it holds: the stage moves on, the rest is left to show. -/
theorem LogInv.work (inv : LogInv store s)
    (edits : ∀ b, (t.cache.buf b).edit = (s.cache.buf b).edit) (cache : CacheInv t (Pinned t))
    (data : DataInv store' t) (ok : StageOk store' t p after) : LogInv store' t where
  control := inv.control.advance after working idle onward mode log header moves wait inOp booted
  edits := editInv_of_clean fun b => (edits b).trans (inv.all_clean working b)
  cache := cache
  data := data
  stages q := by
    rw [moves]
    by_cases mine : q = p
    · subst mine
      rw [update_self]
      exact ok
    · rw [update_of_ne mine, inv.control.alone working mine]
      trivial
  quiet users := by
    have user := users p
    rw [moves, update_self] at user
    exact absurd user onward

end

/-- A step of the log that only moves on. -/
theorem LogInv.advance (inv : LogInv store s)
    (pins : ∀ i < s.log.lh.n, keepsPin i after = keepsPin i (s.stage p))
    (ok : StageOk store s p after) : LogInv store (s.setStage p after) := by
  refine inv.work after working idle onward mode rfl inv.control.header rfl rfl rfl
    rfl (fun _ => rfl)
    ?_ ?_ (ok.mono rfl rfl fun _ _ holds => holds)
  · exact inv.cache.congr rfl rfl rfl (pinned_advance rfl rfl pins)
  · exact { inv.data with }

end Advance

omit [Fintype ι] [DecidableEq ι] in
/-- The buffer a stage has asked for is the one its next stage works on. -/
theorem got_ok (ok : StageOk store s p (s.stage p)) (op : s.op (s.stage p) = some (.bread blockno))
    (holds : Holds s p b blockno) :
    (s.stage p).got b ≠ .user ∧ stageMode ((s.stage p).got b) = stageMode (s.stage p) ∧
      (∀ i, keepsPin i ((s.stage p).got b) = keepsPin i (s.stage p)) ∧
      StageOk store s p ((s.stage p).got b) := by
  generalize s.stage p = stage at ok op ⊢
  cases stage with
  | writeLog tail =>
    simp only [LogState.op] at op
    split at op
    · rename_i inside
      cases op
      exact ⟨nofun, rfl, fun _ => rfl, ok, inside, holds⟩
    · simp at op
  | writeLogFrom tail tobuf =>
    cases op
    exact ⟨nofun, rfl, fun _ => rfl, ok.1, ok.2.1, ok.2.2, holds⟩
  | writeHead head =>
    cases op
    cases head <;> exact ⟨nofun, rfl, fun _ => rfl, ok, holds⟩
  | install mode tail =>
    simp only [LogState.op] at op
    split at op
    · rename_i inside
      cases op
      cases mode <;> exact ⟨nofun, rfl, fun _ => rfl, ok, inside, holds⟩
    · simp at op
  | installDst mode tail lbuf =>
    cases op
    cases mode <;> exact ⟨nofun, rfl, fun _ => rfl, ok.1, ok.2.1, ok.2.2, holds⟩
  | readHead =>
    cases op
    exact ⟨nofun, rfl, fun _ => rfl, ok.1, ok.2, holds⟩
  | _ => grind [LogState.op, cases Mode, cases Head]

/-- The transfer in `bread` and its return, which delivers the current contents. -/
theorem fill_inv (inv : LogInv store s) {data : Block} (waiting : s.wait p = .filling b blockno)
    (transferred : data =
      if (s.cache.buf b).valid then (s.cache.buf b).data else s.disk (s.cache.buf b).blockno) :
    data = store.contents blockno ∧
      LogInv store (((s.setBuf b { s.cache.buf b with valid := true, data := data }).setWait p
        .run).setStage p ((s.stage p).got b)) := by
  obtain ⟨caches, locked, clean⟩ := inv.cache.filling p b blockno waiting
  have current : data = store.contents blockno := by
    rw [transferred]
    split
    · rename_i full
      exact inv.data.cached b blockno caches full clean
    · rename_i empty
      rw [caches.2]
      exact inv.disk_current caches (Bool.eq_false_iff.mpr empty)
  refine ⟨current, ?_⟩
  have filled : LogInv store
      ((s.setBuf b { s.cache.buf b with valid := true, data := data }).setWait p .run) := by
    refine inv.reader rfl rfl rfl rfl rfl ?_ (inv.cache.fill data waiting) ?_ ?_ ?_
    · intro q b' other now
      by_cases mine : q = p
      · subst mine
        simp [setWait] at now
      · simp only [setWait, update_of_ne mine] at now
        exact inv.control.asked q b' other now
    · refine inv.edits.frame rfl rfl fun b' => ?_
      simp only [setWait, setBuf]
      by_cases same : b' = b
      · subst same
        rw [buf_self]
        exact .inl clean
      · rw [buf_other same]
        exact .inr .rfl
    · intro b' other named full unedited
      simp only [setWait, setBuf, Caches] at named full unedited ⊢
      by_cases same : b' = b
      · subst same
        rw [buf_self] at named ⊢
        rw [← named.2, caches.2]
        exact current
      · rw [buf_other same] at named full unedited ⊢
        exact inv.data.cached b' other named full unedited
    · refine fun q _ => (inv.stages q).mono rfl rfl fun b' other holds => ?_
      simp only [setWait, setBuf, Holds, Caches]
      by_cases same : b' = b
      · subst same
        rw [buf_self]
        exact ⟨holds.1, holds.2.1, rfl, holds.2.2.2⟩
      · rw [buf_other same]
        exact holds
  by_cases user : s.stage p = .user
  · have same : ((s.setBuf b { s.cache.buf b with valid := true, data := data }).setWait p
        .run).setStage p ((s.stage p).got b) =
        (s.setBuf b { s.cache.buf b with valid := true, data := data }).setWait p .run := by
      rw [user]
      simp only [setStage, setWait, setBuf, Stage.got]
      rw [← user, update_eq_self]
    rw [same]
    exact filled
  · have op := (inv.control.asked p b blockno (.inr waiting)).resolve_left user
    have holds : Holds ((s.setBuf b { s.cache.buf b with
        valid := true, data := data }).setWait p .run) p b blockno := by
      simp only [setWait, setBuf, Holds, Caches, buf_self]
      exact ⟨locked, caches, trivial, clean⟩
    obtain ⟨onward, mode, pins, ok⟩ := got_ok (filled.stages p)
      (op_bread_congr (s := s) rfl op) holds
    exact filled.advance _ user (update_self ..) onward mode (fun i _ => pins i) ok

end Xv6Cos.Verif
