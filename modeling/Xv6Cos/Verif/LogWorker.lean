import Xv6Cos.Verif.LogReader

/-!
# Steps of `commit` and `initlog`

The writes of a commit fall into three parts. Until the header is written, recovery sees the
previous transactions; the header makes it see the new one; installing and erasing keep what
it sees. Recovery repeats the last part, so it may be interrupted and repeated.
-/

namespace Xv6Cos.Verif

open Kernel Spec Function LogState Nat List

variable {ι : Type} {s t : LogState ι} {store : Store} {log : Log} {blockno i tail : ℕ} {p : ι}
  {b b' buf : Fin NBUF} {disk : ℕ → Block} {lh : Logheader} {stage after : Stage} {data : Block}
  {mode : Mode}

theorem home_ne_logBlock (home : log.home blockno)
    (inside : i < log.size - 1) : blockno ≠ log.start + i + 1 := by
  have outside := home.1
  omega

/-- The header block is not a home block. -/
theorem home_ne_start (home : log.home blockno) (area : 1 ≤ log.size) : blockno ≠ log.start := by
  have outside := home.1
  omega

/-- Different blocks are held in different buffers. -/
theorem Holds.ne {blockno' : ℕ} (first : Holds s p b blockno)
    (second : Holds s p b' blockno') (apart : blockno ≠ blockno') : b ≠ b' := by
  rintro rfl
  exact apart (first.2.1.2.symm.trans second.2.1.2)

/-- Only the header block decides what recovery installs. -/
theorem onDisk_congr {disk' : ℕ → Block} (header : disk' log.start = disk log.start) :
    onDisk log disk' = onDisk log disk := by
  rw [onDisk, onDisk, header]

/-- With an empty header, recovery leaves the disk as it is. -/
theorem recovered_of_empty (empty : onDisk log disk = [])
    (blockno : ℕ) : recovered log disk blockno = disk blockno := by
  rw [recovered, empty, if_neg not_mem_nil]

/-- Entry `i` is recovered from block `i` of the log. -/
theorem recovered_entry (names : onDisk log disk = entries lh) (distinct : (entries lh).Nodup)
    (inside : i < lh.n) :
    recovered log disk (lh.block i) = disk (log.start + i + 1) := by
  rw [recovered, names, if_pos (mem_entries.mpr ⟨i, inside, rfl⟩), idxOf_entries distinct inside]

/-- A block that the header does not name is left as it is. -/
theorem recovered_other
    (unnamed : blockno ∉ onDisk log disk) : recovered log disk blockno = disk blockno :=
  if_neg unnamed

/-- What a stage that goes on without a call has established. -/
theorem goto_ok (ok : StageOk store s p stage) (op : s.op stage = some (.goto after)) :
    after ≠ .user ∧ stageMode after = stageMode stage ∧
      (∀ i < s.log.lh.n, keepsPin i after = keepsPin i stage) ∧ StageOk store s p after := by
  cases stage with
  | commit =>
    simp only [LogState.op, Option.some.injEq, Op.goto.injEq] at op
    split at op
    · subst op
      exact ⟨by simp, rfl, fun _ _ => rfl, ok⟩
    · rename_i empty
      subst op
      exact ⟨by simp, rfl, fun i inside => absurd inside (by omega), by omega, ok.1⟩
  | writeLog tail =>
    simp only [LogState.op] at op
    split at op
    · simp at op
    · cases op
      have all : tail = s.log.lh.n := by
        have bound := ok.2.1
        omega
      subst all
      exact ⟨by simp, rfl, fun _ _ => rfl, ok⟩
  | install mode tail =>
    simp only [LogState.op] at op
    split at op
    · simp at op
    · cases op
      have all : tail = s.log.lh.n := by
        have bound := ok.2.1
        omega
      subst all
      refine ⟨by simp, rfl, fun i inside => ?_, ok⟩
      cases mode with
      | recover => rfl
      | commit => simpa [keepsPin] using inside
  | installUnpin mode tail lbuf dbuf =>
    cases mode with
    | commit => simp [LogState.op] at op
    | recover =>
      simp only [LogState.op, Option.some.injEq, Op.goto.injEq] at op
      subst op
      exact ⟨by simp, rfl, fun _ _ => rfl, ok⟩
  | _ => simp [LogState.op] at op

variable [Fintype ι] [DecidableEq ι]

/-- A stage goes on without a call. -/
theorem goto_inv (inv : LogInv store s) (idle : s.wait p = .run)
    (op : s.op (s.stage p) = some (.goto after)) : LogInv store (s.setStage p after) := by
  have working : s.stage p ≠ .user := by
    intro user
    simp [user, LogState.op] at op
  obtain ⟨onward, mode, pins, ok⟩ := goto_ok (inv.stages p) op
  exact inv.advance _ working idle onward mode pins ok

omit [Fintype ι] [DecidableEq ι] in
/-- The buffer that a stage releases is held, and its next stage does not need it. -/
theorem release_ok (header : HeaderOk s.log (entries s.log.lh)) (ok : StageOk store s p stage)
    (op : s.op stage = some (.brelse b after)) (log : t.log = s.log) (disk : t.disk = s.disk)
    (keep : ∀ b' blockno, b' ≠ b → Holds s p b' blockno → Holds t p b' blockno) :
    after ≠ .user ∧ stageMode after = stageMode stage ∧
      (∀ i < s.log.lh.n, keepsPin i after = keepsPin i stage) ∧ StageOk store t p after := by
  have logged : ∀ tail, Logged store t tail ↔ Logged store s tail := fun tail => by
    rw [Logged, Logged, log, disk]
  have installed : ∀ tail, Installed store t tail ↔ Installed store s tail := fun tail => by
    rw [Installed, Installed, log, disk]
  have erased : Erased t ↔ Erased s := by rw [Erased, Erased, log, disk]
  -- the two blocks that a copy loop holds are different
  have apart : ∀ tail, tail + 1 ≤ s.log.lh.n →
      s.log.lh.block tail ≠ s.log.start + tail + 1 := by
    intro tail inside
    have bound := header.inside
    rw [length_entries] at bound
    exact home_ne_logBlock (header.home _ (mem_entries.mpr ⟨tail, inside, rfl⟩)) (by omega)
  cases stage with
  | writeLogRelFrom tail tobuf frombuf =>
    cases op
    obtain ⟨copied, toHeld, fromHeld⟩ := ok
    refine ⟨by simp, rfl, fun _ _ => rfl, (logged _).mpr copied, ?_⟩
    rw [log]
    exact keep _ _ (toHeld.ne fromHeld (apart tail copied.2.1).symm) toHeld
  | writeLogRelTo tail tobuf =>
    cases op
    exact ⟨by simp, rfl, fun _ _ => rfl, (logged _).mpr ok.1⟩
  | writeHeadRel head buf =>
    cases op
    cases head with
    | log =>
      exact ⟨by rintro ⟨⟩, rfl, fun _ _ => by simp [keepsPin, Head.after], (installed _).mpr ok.1⟩
    | erase mode =>
      cases mode with
      | commit => exact ⟨by rintro ⟨⟩, rfl, fun _ _ => rfl, erased.mpr ok.1⟩
      | recover => exact ⟨by rintro ⟨⟩, rfl, fun _ _ => rfl, erased.mpr ok.1, ok.2.1⟩
  | installRelLog mode tail lbuf dbuf =>
    cases op
    obtain ⟨done, logHeld, dstHeld⟩ := ok
    refine ⟨by simp, rfl, fun _ _ => by cases mode <;> rfl, (installed _).mpr done, ?_⟩
    rw [log]
    exact keep _ _ (dstHeld.ne logHeld (apart tail done.2.1)) dstHeld
  | installRelDst mode tail dbuf =>
    cases op
    exact ⟨by simp, rfl, fun _ _ => by cases mode <;> rfl, (installed _).mpr ok.1⟩
  | readHeadRel buf =>
    cases op
    exact ⟨by simp, rfl, fun _ _ => rfl, (installed _).mpr ok.1⟩
  | _ => grind [LogState.op, cases Mode, cases Head]

/-- The log releases a buffer, which it has not left modified. -/
theorem release_inv (inv : LogInv store s)
    (idle : s.wait p = .run) (op : s.op (s.stage p) = some (.brelse b after))
    (held : (s.cache.buf b).lock = some p) :
    LogInv (store.after (if (s.cache.buf b).edit = .clean then .silent
        else .released (s.cache.buf b).blockno (s.cache.buf b).data))
      (((s.setStage p after).setBuf b { s.cache.buf b with lock := none, edit := .clean }).setWait p
        (.releasing b)) := by
  have working : s.stage p ≠ .user := by
    intro user
    simp [user, LogState.op] at op
  rw [if_pos (inv.all_clean working b)]
  obtain ⟨onward, mode, pins, ok⟩ := release_ok (t := s) inv.control.header
    (inv.stages p) op rfl rfl fun _ _ _ holds => holds
  have moved := inv.advance _ working idle onward mode pins ok
  refine moved.reader rfl rfl rfl rfl rfl ?_ (moved.cache.release idle held) ?_ ?_ ?_
  · intro q b' blockno waiting
    by_cases mine : q = p
    · subst mine
      simp [setWait] at waiting
    · simp only [setWait, setBuf, update_of_ne mine] at waiting
      exact moved.control.asked q b' blockno waiting
  · refine editInv_of_clean fun b' => ?_
    simp only [setWait, setBuf, setStage]
    by_cases same : b' = b
    · subst same
      rw [buf_self]
    · rw [buf_other same]
      exact inv.all_clean working b'
  · intro b' other caches full clean
    simp only [setWait, setBuf, setStage, Caches] at caches full clean ⊢
    by_cases same : b' = b
    · subst same
      rw [buf_self] at caches full ⊢
      exact inv.data.cached b' other caches full (inv.all_clean working b')
    · rw [buf_other same] at caches full clean ⊢
      exact inv.data.cached b' other caches full clean
  · intro q busy
    by_cases mine : q = p
    · subst mine
      have same : (s.setStage q after).stage q = after := update_self ..
      rw [same]
      have progress (t : LogState ι) (log : t.log = s.log) (disk : t.disk = s.disk) keep :
          StageOk store t q after :=
        (release_ok inv.control.header (inv.stages q) op log disk keep).2.2.2
      refine progress _ rfl rfl fun b' blockno ne holds => ?_
      simp only [setWait, setBuf, setStage, Holds, Caches, buf_other ne]
      exact holds
    · have user := inv.control.alone working mine
      have same : (s.setStage p after).stage q = s.stage q := update_of_ne mine ..
      exact absurd (same.trans user) busy

/-- The state after the log has written a buffer and moved on. -/
def written (s : LogState ι) (p : ι) (b : Fin NBUF) (data : Block) (after : Stage) : LogState ι :=
  { s.setBuf b { s.cache.buf b with data := data } with
    disk := update s.disk (s.cache.buf b).blockno data }.setStage p after

omit [Fintype ι] in
/-- Writing a buffer changes nothing but its data. -/
theorem written_buf {q : ι} :
    Holds (written s p b data after) q b' blockno ↔ Holds s q b' blockno := by
  simp only [written, setStage, setBuf, Holds, Caches, Bcache.set]
  by_cases same : b' = b
  · subst same
    simp only [update_self]
  · simp only [update_of_ne same]

/-- A write of the log to a block it holds. -/
theorem LogInv.write (inv : LogInv store s) {store' : Store}
    (working : s.stage p ≠ .user) (idle : s.wait p = .run)
    (holds : Holds s p b blockno) (onward : after ≠ .user)
    (mode : stageMode after = stageMode (s.stage p))
    (pins : ∀ i < s.log.lh.n, keepsPin i after = keepsPin i (s.stage p))
    (contents : store'.contents = update store.contents blockno data)
    (durable : ∀ other, s.log.home other →
      recovered s.log (update s.disk blockno data) other = store'.committed other)
    (header : HeaderOk s.log (onDisk s.log (update s.disk blockno data)))
    (group : s.booted = true → ∀ other, s.log.home other →
      store'.contents other = applyGroup store'.committed store'.pending other)
    (ok : StageOk store' (written s p b data after) p after) :
    LogInv store' (written s p b data after) := by
  have disk : (written s p b data after).disk = update s.disk blockno data := by
    simp only [written, setStage, holds.2.1.2]
  refine inv.work after working idle onward mode rfl inv.control.header rfl rfl rfl rfl ?_ ?_ ?_ ok
  · intro b'
    simp only [written, setStage, setBuf]
    by_cases same : b' = b
    · subst same
      rw [buf_self]
    · rw [buf_other same]
  · have edited := inv.cache.edit (t := written s p b data after)
      (Pinned s) idle holds.1 rfl rfl rfl
      ⟨rfl, rfl, rfl, rfl⟩ (fun _ _ => Iff.rfl) rfl
    exact edited.congr rfl rfl rfl (pinned_advance rfl rfl pins)
  · refine ⟨?_, ?_, ?_, ?_, group⟩
    · intro b' other caches full clean
      simp only [written, setStage, setBuf, Caches] at caches full clean ⊢
      rw [contents]
      by_cases same : b' = b
      · subst same
        rw [buf_self] at caches ⊢
        rw [← caches.2, holds.2.1.2, update_self]
      · rw [buf_other same] at caches full clean ⊢
        rw [update_of_ne]
        · exact inv.data.cached b' other caches full clean
        · rintro rfl
          exact same (inv.cache.unique _ _ _ caches holds.2.1)
    · intro other absent
      rw [contents, disk]
      by_cases same : other = blockno
      · rw [same, update_self, update_self]
      · rw [update_of_ne same, update_of_ne same]
        exact inv.data.stored other absent
    · rw [disk]
      exact durable
    · rw [disk]
      exact header

omit [Fintype ι] [DecidableEq ι] in
/-- The entries are home blocks. -/
theorem HeaderOk.entry (ok : HeaderOk log (entries lh))
    (inside : i < lh.n) : log.home (lh.block i) ∧ i < log.size - 1 := by
  refine ⟨ok.home _ (mem_entries.mpr ⟨i, inside, rfl⟩), ?_⟩
  have bound := ok.inside
  rw [length_entries] at bound
  omega

section

variable (inv : LogInv store s)

include inv

section Idle

variable (idle : s.wait p = .run)

include idle

/-- `write_log` copies the next block. -/
theorem writeLogCopy_inv {tobuf frombuf : Fin NBUF}
    (stage : s.stage p = .writeLogCopy tail tobuf frombuf) :
    LogInv (store.after (.wrote (s.cache.buf tobuf).blockno (s.cache.buf frombuf).data))
      (written s p tobuf (s.cache.buf frombuf).data (.writeLogRelFrom tail tobuf frombuf)) := by
  have ok := inv.stages p
  rw [stage] at ok
  obtain ⟨⟨empty, bound, copied⟩, inside, toHeld, fromHeld⟩ := ok
  obtain ⟨home, fits⟩ := inv.control.header.entry inside
  have copy := inv.data.cached _ _ fromHeld.2.1 fromHeld.2.2.1 fromHeld.2.2.2
  rw [toHeld.2.1.2]
  have notHome : ∀ other, s.log.home other → other ≠ s.log.start + tail + 1 := fun other h =>
    home_ne_logBlock h fits
  have header : update s.disk (s.log.start + tail + 1) (s.cache.buf frombuf).data
      s.log.start = s.disk s.log.start := update_of_ne (by omega) ..
  have stillEmpty := (onDisk_congr header).trans empty
  refine inv.write (by rw [stage]; nofun) idle toHeld nofun (by rw [stage]; rfl)
    (fun _ _ => by rw [stage]; rfl) rfl ?_ ?_ ?_ ?_
  · intro other inHome
    rw [recovered_of_empty stillEmpty, update_of_ne (notHome other inHome),
      ← recovered_of_empty empty]
    exact inv.data.durable other inHome
  · rw [stillEmpty, ← empty]
    exact inv.data.header
  · intro booted other inHome
    simp only [Store.after]
    rw [update_of_ne (notHome other inHome)]
    exact inv.data.group booted other inHome
  · refine ⟨⟨?_, inside, ?_⟩, written_buf.mpr toHeld, written_buf.mpr fromHeld⟩
    · simp only [written, setStage, setBuf, toHeld.2.1.2]
      exact stillEmpty
    · intro i before
      simp only [written, setStage, setBuf, toHeld.2.1.2, Store.after]
      have entry := inv.control.header.entry (i := i) (by omega)
      rw [update_of_ne (notHome _ entry.1)]
      by_cases last : i = tail
      · rw [last, update_self]
        exact copy
      · rw [update_of_ne (by omega)]
        exact copied i (by omega)

/-- `write_head` writes the transaction, which commits it. -/
theorem writeHeadFill_log_inv (stage : s.stage p = .writeHeadFill .log buf) :
    LogInv (store.after (.committed (s.cache.buf buf).blockno
        (s.log.lh.fillHead (s.cache.buf buf).data)))
      (written s p buf (s.log.lh.fillHead (s.cache.buf buf).data) (.writeHeadRel .log buf)) := by
  have ok := inv.stages p
  rw [stage] at ok
  obtain ⟨⟨empty, _, copied⟩, held⟩ := ok
  have working : s.stage p ≠ .user := by simp [stage]
  have booted : s.booted = true := (inv.control.mode p working).mp (by rw [stage]; rfl)
  rw [held.2.1.2]
  have notHome : ∀ other, s.log.home other → other ≠ s.log.start := fun other h =>
    home_ne_start h inv.control.area
  have names : onDisk s.log (update s.disk s.log.start
      (s.log.lh.fillHead (s.cache.buf buf).data)) = entries s.log.lh := by
    rw [onDisk, update_self]
    exact entries_readHead_fillHead inv.control.header _
  refine inv.write working idle held (by simp) (by rw [stage]; rfl) (fun _ _ => by rw [stage]; rfl)
    rfl ?_ ?_ ?_ ?_
  · intro other inHome
    simp only [Store.after]
    rw [← inv.data.group booted other inHome]
    by_cases member : other ∈ entries s.log.lh
    · obtain ⟨i, inside, rfl⟩ := mem_entries.mp member
      rw [recovered_entry names inv.control.header.distinct inside, update_of_ne (by omega)]
      exact copied i inside
    · rw [recovered_other (by rwa [names]), update_of_ne (notHome other inHome)]
      exact inv.data.stored other fun _ => member
  · rw [names]
    exact inv.control.header
  · intro _ other inHome
    simp only [Store.after]
    rw [update_of_ne (notHome other inHome)]
    exact inv.data.group booted other inHome
  · refine ⟨⟨?_, zero_le _, rfl, by simp⟩, written_buf.mpr held⟩
    simp only [written, setStage, setBuf, held.2.1.2]
    exact names

theorem writeHeadFill_erase_inv (stage : s.stage p = .writeHeadFill (.erase mode) buf) :
    LogInv (store.after (.wrote (s.cache.buf buf).blockno
        (s.log.lh.fillHead (s.cache.buf buf).data)))
      (written s p buf (s.log.lh.fillHead (s.cache.buf buf).data)
        (.writeHeadRel (.erase mode) buf)) := by
  have ok := inv.stages p
  rw [stage] at ok
  obtain ⟨⟨none, closed, installed⟩, held⟩ := ok
  rw [held.2.1.2]
  have notHome : ∀ other, s.log.home other → other ≠ s.log.start := fun other h =>
    home_ne_start h inv.control.area
  have nothing : entries s.log.lh = [] := by
    rw [← length_eq_zero_iff, length_entries, none]
  have names : onDisk s.log (update s.disk s.log.start
      (s.log.lh.fillHead (s.cache.buf buf).data)) = [] := by
    rw [onDisk, update_self, entries_readHead_fillHead inv.control.header, nothing]
  refine inv.write (by rw [stage]; nofun) idle held nofun (by rw [stage]; rfl)
    (fun _ _ => by rw [stage]; rfl) rfl ?_ ?_ ?_ ?_
  · intro other inHome
    rw [recovered_of_empty names, update_of_ne (notHome other inHome)]
    exact installed other inHome
  · rw [names, ← nothing]
    exact inv.control.header
  · intro booted other inHome
    simp only [Store.after]
    rw [update_of_ne (notHome other inHome)]
    exact inv.data.group booted other inHome
  · refine ⟨⟨none, ?_⟩, closed, written_buf.mpr held⟩
    simp only [written, setStage, setBuf, held.2.1.2]
    exact names

/-- `install_trans` writes the next home block, in a commit or in recovery. -/
theorem installCopy_inv {lbuf dbuf : Fin NBUF}
    (stage : s.stage p = .installCopy mode tail lbuf dbuf) :
    LogInv (store.after (match mode with
        | .commit => .installed
        | .recover => .wrote (s.cache.buf dbuf).blockno (s.cache.buf lbuf).data))
      (written s p dbuf (s.cache.buf lbuf).data (.installUnpin mode tail lbuf dbuf)) := by
  have ok := inv.stages p
  rw [stage] at ok
  obtain ⟨⟨names, _, closed, installed⟩, inside, logHeld, dstHeld⟩ := ok
  have working : s.stage p ≠ .user := by simp [stage]
  have modeOf : mode = .commit ↔ s.booted = true := by
    have modes := inv.control.mode p working
    rwa [stage] at modes
  obtain ⟨home, fits⟩ := inv.control.header.entry inside
  have notLog : ∀ i < s.log.lh.n, s.log.lh.block tail ≠ s.log.start + i + 1 := fun i h =>
    home_ne_logBlock home (inv.control.header.entry h).2
  -- the log block carries the committed contents
  have copy : (s.cache.buf lbuf).data = store.committed (s.log.lh.block tail) := by
    rw [inv.data.cached _ _ logHeld.2.1 logHeld.2.2.1 logHeld.2.2.2,
      ← inv.data.durable _ home, recovered_entry names inv.control.header.distinct inside]
    refine (inv.data.stored _ fun _ member => ?_).symm
    exact home_ne_logBlock (inv.control.header.home _ member) fits rfl
  have header : update s.disk (s.log.lh.block tail) (s.cache.buf lbuf).data
      s.log.start = s.disk s.log.start :=
    update_of_ne (home_ne_start home inv.control.area).symm ..
  have named := (onDisk_congr header).trans names
  have durable : ∀ other, s.log.home other → recovered s.log (update s.disk
      (s.log.lh.block tail) (s.cache.buf lbuf).data) other = store.committed other := by
    intro other inHome
    rw [← inv.data.durable other inHome]
    by_cases member : other ∈ entries s.log.lh
    · obtain ⟨i, below, rfl⟩ := mem_entries.mp member
      rw [recovered_entry named inv.control.header.distinct below,
        recovered_entry names inv.control.header.distinct below,
        update_of_ne (notLog i below).symm]
    · rw [recovered_other (by rwa [named]), recovered_other (by rwa [names]),
        update_of_ne]
      rintro rfl
      exact member (mem_entries.mpr ⟨tail, inside, rfl⟩)
  have wellFormed : HeaderOk s.log (onDisk s.log (update s.disk (s.log.lh.block tail)
      (s.cache.buf lbuf).data)) := by
    rw [named]
    exact inv.control.header
  have progress : ∀ store' : Store, store'.committed = store.committed →
      store'.pending = store.pending →
      StageOk store' (written s p dbuf (s.cache.buf lbuf).data (.installUnpin mode tail lbuf dbuf))
        p (.installUnpin mode tail lbuf dbuf) := by
    intro store' committed pending
    refine ⟨⟨?_, inside, pending.trans closed, ?_⟩, written_buf.mpr logHeld,
      written_buf.mpr dstHeld⟩
    · simp only [written, setStage, setBuf, dstHeld.2.1.2]
      exact named
    · intro i before
      simp only [written, setStage, setBuf, dstHeld.2.1.2, committed]
      by_cases same : s.log.lh.block i = s.log.lh.block tail
      · rw [same, update_self]
        exact copy
      · rw [update_of_ne same]
        refine installed i ?_
        have earlier : i ≠ tail := fun last => same (by rw [last])
        omega
  cases mode with
  | commit =>
    have booted := modeOf.mp rfl
    refine inv.write working idle dstHeld (by simp) (by rw [stage]; rfl)
      (fun _ _ => by rw [stage]; rfl)
      ?_ durable wellFormed inv.data.group (progress _ rfl rfl)
    refine (update_eq_self_iff.mpr ?_).symm
    have current := inv.data.group booted _ home
    rw [closed] at current
    exact copy.trans current.symm
  | recover =>
    rw [dstHeld.2.1.2]
    refine inv.write working idle dstHeld (by simp) (by rw [stage]; rfl)
      (fun _ _ => by rw [stage]; rfl)
      rfl durable wellFormed ?_ (progress _ rfl rfl)
    intro booted
    exact absurd (modeOf.mpr booted) (by simp)

/-- A write of the log, whatever it writes, is neither a read nor the end of `initlog`. -/
theorem bwrite_inv {event : LogEvent}
    (op : s.op (s.stage p) = some (.bwrite b data event after)) :
    LogInv (store.after event) (written s p b data after) ∧
      (∀ blockno value, event ≠ .read blockno value) ∧ event ≠ .booted := by
  cases stage : s.stage p with
  | writeLogCopy tail tobuf frombuf =>
    rw [stage] at op
    cases op
    exact ⟨writeLogCopy_inv inv idle stage, nofun, nofun⟩
  | writeHeadFill head buf =>
    rw [stage] at op
    cases op
    cases head with
    | log => exact ⟨writeHeadFill_log_inv inv idle stage, nofun, nofun⟩
    | erase mode => exact ⟨writeHeadFill_erase_inv inv idle stage, nofun, nofun⟩
  | installCopy mode tail lbuf dbuf =>
    rw [stage] at op
    cases op
    cases mode <;> exact ⟨installCopy_inv inv idle stage, nofun, nofun⟩
  | _ => grind [LogState.op, cases Mode, cases Head]

/-- `install_trans` drops the pin of the block it has installed. -/
theorem bunpin_inv (op : s.op (s.stage p) = some (.bunpin b after)) :
    LogInv store ((s.setBuf b { s.cache.buf b with
      refcnt := (s.cache.buf b).refcnt - 1 }).setStage p after) := by
  obtain ⟨tail, lbuf, stage, rfl⟩ : ∃ tail lbuf,
      s.stage p = .installUnpin .commit tail lbuf b ∧
        after = .installRelLog .commit tail lbuf b := by
    cases stage : s.stage p with
    | installUnpin mode tail lbuf dbuf =>
      cases mode with
      | commit =>
        rw [stage] at op
        cases op
        exact ⟨tail, lbuf, rfl, rfl⟩
      | recover => simp [stage, LogState.op] at op
    | _ => grind [LogState.op, cases Mode, cases Head]
  have ok := inv.stages p
  rw [stage] at ok
  obtain ⟨done, logHeld, dstHeld⟩ := ok
  have inside : tail < s.log.lh.n := done.2.1
  have working : s.stage p ≠ .user := by simp [stage]
  have named : (s.cache.buf b).blockno = s.log.lh.block tail := dstHeld.2.1.2
  have injective : ∀ i < s.log.lh.n, s.log.lh.block i = s.log.lh.block tail → i = tail := by
    intro i below same
    rw [← idxOf_entries inv.control.header.distinct below, same,
      idxOf_entries inv.control.header.distinct inside]
  have others : ∀ q ≠ p, s.stage q = .user := fun q ne => inv.control.alone working ne
  have before : Pinned s (s.log.lh.block tail) := by
    refine ⟨tail, inside, rfl, fun q => ?_⟩
    by_cases mine : q = p
    · rw [mine, stage]
      simp [keepsPin]
    · rw [others q mine]
      rfl
  have now : ∀ x, (∃ i < s.log.lh.n, s.log.lh.block i = x ∧ tail < i) ↔
      Pinned s x ∧ x ≠ s.log.lh.block tail := by
    intro x
    constructor
    · rintro ⟨i, below, rfl, later⟩
      refine ⟨⟨i, below, rfl, fun q => ?_⟩, fun same => ?_⟩
      · by_cases mine : q = p
        · rw [mine, stage]
          simpa [keepsPin] using later.le
        · rw [others q mine]
          rfl
      · exact absurd (injective i below same) (by omega)
    · rintro ⟨⟨i, below, rfl, kept⟩, ne⟩
      refine ⟨i, below, rfl, ?_⟩
      have bound := kept p
      rw [stage] at bound
      have notLast : i ≠ tail := fun same => ne (by rw [same])
      simp only [keepsPin, decide_eq_true_eq] at bound
      omega
  have kept : ∀ b', SameBuf (s.cache.buf b') ((s.cache.set b { s.cache.buf b with
      refcnt := (s.cache.buf b).refcnt - 1 }).buf b') := by
    intro b'
    simp only [Bcache.set]
    by_cases same : b' = b
    · subst same
      rw [update_self]
      exact ⟨rfl, rfl, rfl, rfl, rfl, rfl⟩
    · rw [update_of_ne same]
      exact .rfl
  refine inv.work (.installRelLog .commit tail lbuf b) working idle (by simp)
    (by rw [stage]; rfl) rfl inv.control.header rfl rfl rfl rfl (fun b' => (kept b').edit) ?_ ?_ ?_
  · have counted : pinRefs s (Pinned s) b = 1 := pinRefs_pos dstHeld.2.1 before
    have uncounted : pinRefs s (fun x => Pinned s x ∧ x ≠ s.log.lh.block tail) b = 0 := by
      refine pinRefs_zero fun x caches => ?_
      rintro ⟨-, ne⟩
      exact ne (caches.2.symm.trans named)
    have dropped := inv.cache.edit (t := (s.setBuf b { s.cache.buf b with
      refcnt := (s.cache.buf b).refcnt - 1 }).setStage p (.installRelLog .commit tail lbuf b))
      (fun x => Pinned s x ∧ x ≠ s.log.lh.block tail) idle dstHeld.1 rfl rfl rfl
      ⟨rfl, rfl, rfl, rfl⟩ (fun x ne => and_iff_left (by rwa [← named])) (by
        have count := inv.cache.count b
        rw [counted] at count ⊢
        rw [uncounted]
        simp only
        omega)
    refine dropped.congr rfl rfl rfl fun x => ?_
    rw [← now]
    refine exists_congr fun i => and_congr_right fun _ => and_congr_right fun _ => ?_
    constructor
    · intro all
      have bound := all p
      simpa [setStage, keepsPin] using bound
    · intro later q
      by_cases mine : q = p
      · subst mine
        simpa [setStage, keepsPin] using later
      · simp only [setStage, setBuf, update_of_ne mine, others q mine]
        rfl
  · refine { inv.data with cached := ?_ }
    intro b' other caches full clean
    refine (kept b').data.trans (inv.data.cached b' other ?_ ?_ ?_)
    · exact ⟨(kept b').dev ▸ caches.1, (kept b').blockno ▸ caches.2⟩
    · exact (kept b').valid ▸ full
    · exact (kept b').edit ▸ clean
  · exact ⟨done, logHeld.frame (kept _) rfl, dstHeld.frame (kept _) rfl⟩

/-- `log.lh.n = 0` after everything is installed. -/
theorem clear_inv (stage : s.stage p = .clear mode) :
    LogInv store ({ s with log := { s.log with lh := { s.log.lh with n := 0 } } }.setStage p
      (.writeHead (.erase mode))) := by
  have ok := inv.stages p
  rw [stage] at ok
  obtain ⟨names, _, closed, installed⟩ := ok
  have working : s.stage p ≠ .user := by rw [stage]; nofun
  have modes := inv.control.mode p working
  rw [stage] at modes
  have empty : entries { s.log.lh with n := 0 } = [] := rfl
  have done : ∀ x, s.log.home x → s.disk x = store.committed x := by
    intro x home
    by_cases member : x ∈ entries s.log.lh
    · obtain ⟨i, inside, rfl⟩ := mem_entries.mp member
      exact installed i inside
    · rw [← inv.data.durable x home, recovered_other (by rwa [names])]
  refine inv.work (.writeHead (.erase mode)) working idle nofun (by rw [stage]; rfl) rfl ?_ rfl rfl
    rfl rfl (fun _ => rfl) ?_ ?_ ⟨rfl, closed, done⟩
  · exact ⟨zero_le _, zero_le _, nodup_nil, nofun⟩
  · refine inv.cache.congr rfl rfl rfl fun x => iff_of_false ?_ ?_
    · rintro ⟨i, inside, -⟩
      exact absurd inside (not_lt_zero _)
    · rintro ⟨i, -, -, kept⟩
      have pin := kept p
      rw [stage] at pin
      contradiction
  · refine { inv.data with stored := fun x _ => ?_, header := { inv.data.header with } }
    by_cases logged : s.booted = true ∧ x ∈ entries s.log.lh
    · have home := inv.control.header.home x logged.2
      refine (done x home).trans ?_
      rw [inv.data.group logged.1 x home, closed]
      rfl
    · exact inv.data.stored x fun booted member => logged ⟨booted, member⟩

theorem readHeadCopy_inv (stage : s.stage p = .readHeadCopy buf) :
    LogInv store ({ s with log := { s.log with
      lh := s.log.lh.readHead (s.cache.buf buf).data } }.setStage p (.readHeadRel buf)) := by
  have ok := inv.stages p
  rw [stage] at ok
  obtain ⟨none, closed, held⟩ := ok
  have working : s.stage p ≠ .user := by rw [stage]; nofun
  have fresh : s.booted ≠ true := by
    intro booted
    have modes := (inv.control.mode p working).mpr booted
    rw [stage] at modes
    contradiction
  have current : (s.cache.buf buf).data = s.disk s.log.start := by
    rw [inv.data.cached _ _ held.2.1 held.2.2.1 held.2.2.2]
    exact (inv.data.stored _ fun booted => absurd booted fresh).symm
  have names : onDisk s.log s.disk = entries (s.log.lh.readHead (s.cache.buf buf).data) := by
    rw [onDisk, current]
    exact entries_readHead ..
  refine inv.work (.readHeadRel buf) working idle nofun (by rw [stage]; rfl) rfl ?_ rfl rfl rfl rfl
    (fun _ => rfl) ?_ ?_ ⟨⟨names, zero_le _, closed, nofun⟩, held⟩
  · simp only [setStage, ← names]
    exact inv.data.header
  · refine inv.cache.congr rfl rfl rfl fun x => iff_of_false ?_ ?_
    · rintro ⟨i, -, -, kept⟩
      have pin := kept p
      simp [setStage, keepsPin] at pin
    · rintro ⟨i, inside, -⟩
      omega
  · exact { inv.data with
      stored := fun x _ => inv.data.stored x fun booted => absurd booted fresh
      header := { inv.data.header with } }

/-- The log replaces the header in memory. -/
theorem setHead_inv (op : s.op (s.stage p) = some (.setHead lh after)) :
    LogInv store ({ s with log := { s.log with lh := lh } }.setStage p after) := by
  cases stage : s.stage p with
  | clear mode =>
    rw [stage] at op
    cases op
    exact clear_inv inv idle stage
  | readHeadCopy buf =>
    rw [stage] at op
    cases op
    exact readHeadCopy_inv inv idle stage
  | _ => grind [LogState.op, cases Mode, cases Head]

end Idle

/-- The last process leaves `commit` or `initlog`, with an empty log. -/
theorem LogInv.leave (working : s.stage p ≠ .user) (erased : Erased s)
    (log : t.log = { s.log with committing := false })
    (stage : t.stage = update s.stage p .user) (cache : t.cache = s.cache)
    (disk : t.disk = s.disk) (wait : t.wait = s.wait) (inOp : t.inOp = s.inOp)
    (group : t.booted = true → ∀ x, s.log.home x →
      store.contents x = applyGroup store.committed store.pending x) : LogInv store t := by
  have users : ∀ q, t.stage q = .user := by
    intro q
    rw [stage]
    by_cases mine : q = p
    · rw [mine, update_self]
    · rw [update_of_ne mine, inv.control.alone working mine]
  have nothing : entries s.log.lh = [] := by
    rw [← length_eq_zero_iff, length_entries, erased.1]
  obtain ⟨tdisk, tcache, tlog, tstage, twait, tinOp, tbooted⟩ := t
  simp only at log stage cache disk wait inOp group users
  subst log cache disk wait inOp
  refine ⟨?_, ?_, ?_, ?_, ?_, fun _ => erased.2⟩
  · exact { inv.control with
      single := fun q _ busy => absurd (users q) busy
      idle := fun q _ busy => absurd (users q) busy
      committing := iff_of_false nofun fun ⟨_, q, busy⟩ => busy (users q)
      mode := fun q busy => absurd (users q) busy
      header := { inv.control.header with }
      asked := fun q _ _ _ => .inl (users q) }
  · exact { inv.edits with }
  · refine inv.cache.congr rfl rfl rfl fun x => iff_of_false ?_ ?_ <;>
    · rintro ⟨i, inside, -⟩
      rw [erased.1] at inside
      exact absurd inside (not_lt_zero _)
  · obtain ⟨cached, stored, durable, header, _⟩ := inv.data
    refine ⟨cached, fun x _ => stored x fun _ => ?_, durable, { header with }, group⟩
    rw [nothing]
    exact not_mem_nil
  · intro q
    simp only [users q]
    trivial

theorem endCommit_inv (op : s.op (s.stage p) = some .endCommit) :
    LogInv store ({ s with log := s.log.endCommit }.setStage p .user) := by
  have stage : s.stage p = .commitDone := by
    cases stage : s.stage p with
    | commitDone => rfl
    | _ => grind [LogState.op, cases Mode, cases Head]
  have ok := inv.stages p
  rw [stage] at ok
  have working : s.stage p ≠ .user := by simp [stage]
  exact inv.leave working ok rfl rfl rfl rfl rfl rfl inv.data.group

theorem initDone_inv (op : s.op (s.stage p) = some .initDone) :
    (∀ x, s.log.home x → s.disk x = store.committed x) ∧
      LogInv store ({ s with booted := true }.setStage p .user) := by
  have stage : s.stage p = .initDone := by
    cases stage : s.stage p with
    | initDone => rfl
    | _ => grind [LogState.op, cases Mode, cases Head]
  have ok := inv.stages p
  rw [stage] at ok
  obtain ⟨erased, closed⟩ := ok
  have working : s.stage p ≠ .user := by simp [stage]
  have fresh : s.booted ≠ true := by
    intro booted
    have modes := (inv.control.mode p working).mpr booted
    rw [stage] at modes
    contradiction
  have free : s.log.committing = false := by
    refine Bool.eq_false_iff.mpr fun committing => ?_
    exact fresh (inv.control.committing.mp committing).1
  have home : ∀ x, s.log.home x → s.disk x = store.committed x := by
    intro x inHome
    rw [← inv.data.durable x inHome, recovered_of_empty erased.2]
  refine ⟨home, inv.leave working erased ?_ rfl rfl rfl rfl rfl ?_⟩
  · simp only [setStage, ← free]
  · intro _ x inHome
    rw [closed, ← inv.data.stored x fun booted => absurd booted fresh]
    exact home x inHome

end

end Xv6Cos.Verif
