import Xv6Cos.Verif.LogUser
import Xv6Cos.Verif.LogWorker

/-!
# Runs of the log machine

The invariant holds along every run, crashes included. From it follow the state machine of
the log, the transparency of the cache, and the atomicity of transactions.
-/

namespace Xv6Cos.Verif

open Kernel Spec Transition LogState Nat

variable {ι : Type} [Fintype ι] [DecidableEq ι] {s t : LogState ι} {store : Store}
  {disk : ℕ → Block} {log : Log} {why : LogPanic} {p : ι}

/-- The start of `initlog` on a disk that recovery turns into the committed store. -/
theorem boot_inv {dev logstart nlog : ℕ} (p : ι) (device : 1 ≤ dev)
    (area : 1 ≤ nlog) (contents : store.contents = disk) (closed : store.pending = [])
    (durable : ∀ blockno, (Log.initlog dev logstart nlog).home blockno →
      recovered (Log.initlog dev logstart nlog) disk blockno = store.committed blockno)
    (header : HeaderOk (Log.initlog dev logstart nlog)
      (onDisk (Log.initlog dev logstart nlog) disk)) :
    LogInv store (boot dev logstart nlog disk p) := by
  have self : (boot dev logstart nlog disk p).stage p = .readHead := by
    simp [LogState.boot]
  have other : ∀ q ≠ p, (boot dev logstart nlog disk p).stage q = .user := by
    intro q ne
    simp [LogState.boot, ne]
  have worker : ∀ q, (boot dev logstart nlog disk p).stage q ≠ .user → q = p := by
    intro q busy
    by_contra ne
    exact busy (other q ne)
  refine ⟨?_, editInv_of_clean fun _ => rfl, ?_, ?_, ?_, ?_⟩
  · refine ⟨device, area, ?_, ?_, ?_, fun _ _ _ => rfl, ?_, ?_, ?_,
      by rintro _ _ _ (waits | waits) <;> cases waits⟩
    · simp [LogState.boot, Log.initlog]
    · exact Int.natCast_nonneg _
    · intro q r first second
      rw [worker q first, worker r second]
    · exact iff_of_false (by rintro ⟨⟩) (by rintro ⟨⟨⟩, -⟩)
    · intro q busy
      rw [worker q busy, self]
      exact iff_of_false (by rintro ⟨⟩) (by rintro ⟨⟩)
    · exact ⟨zero_le _, zero_le _, List.nodup_nil, by rintro _ ⟨⟩⟩
  · refine (boot_cacheInv dev logstart nlog disk p device).congr rfl rfl rfl fun _ => ?_
    refine iff_of_false ?_ id
    rintro ⟨i, inside, -⟩
    exact absurd inside (not_lt_zero _)
  · exact ⟨by rintro _ _ - ⟨⟩, fun blockno _ => (congrFun contents blockno).symm, durable, header,
      by rintro ⟨⟩⟩
  · intro q
    by_cases mine : q = p
    · rw [mine, self]
      exact ⟨rfl, closed⟩
    · rw [other q mine]
      trivial
  · intro users
    exact absurd (self.symm.trans (users p)) (by simp)

/-- A crash keeps what recovery will produce. -/
theorem crash_inv (inv : LogInv store s) (p : ι) :
    LogInv (store.after (.crashed s.disk))
      (boot s.log.dev s.log.start s.log.size s.disk p) := by
  have header := inv.data.header
  exact boot_inv p inv.control.device inv.control.area rfl rfl inv.data.durable
    { header with }

/-- Every step keeps the invariant; a read returns the contents of the store, and `initlog`
completes with the committed store on disk. -/
theorem step_inv {event : LogEvent} (inv : LogInv store s) (step : LogStep s event t) :
    LogInv (store.after event) t ∧
      (∀ blockno data, event = .read blockno data → data = store.contents blockno) ∧
      (event = .booted → ∀ blockno, t.log.home blockno →
        t.disk blockno = store.committed blockno) := by
  cases step with
  | startRead p blockno b cache idle asked got =>
    exact ⟨startRead_inv inv idle asked got, nofun, nofun⟩
  | lock p b blockno waiting free => exact ⟨lock_inv inv waiting free, nofun, nofun⟩
  | fill p b blockno data waiting transferred =>
    obtain ⟨current, kept⟩ := fill_inv inv waiting transferred
    refine ⟨kept, fun other value same => ?_, nofun⟩
    cases same
    exact current
  | userRelease p b ready held logged =>
    refine ⟨userRelease_inv inv ready held logged, ?_⟩
    split <;> exact ⟨nofun, nofun⟩
  | release p b after idle op held =>
    refine ⟨release_inv inv idle op held, ?_⟩
    split <;> exact ⟨nofun, nofun⟩
  | finish p b waiting => exact ⟨finish_inv inv waiting, nofun, nofun⟩
  | modify p b data ready running held home =>
    exact ⟨modify_inv inv ready running held home data, nofun, nofun⟩
  | logWrite p b log pin ready running held home written =>
    exact ⟨logWrite_inv inv ready running held home written, nofun, nofun⟩
  | beginOp p log ready outside begun => exact ⟨beginOp_inv inv ready outside begun, nofun, nofun⟩
  | endOp p log commit ready running released ended =>
    exact ⟨endOp_inv inv ready running released ended, nofun, nofun⟩
  | bwrite p b data event after idle op held =>
    obtain ⟨kept, notRead, notBooted⟩ := bwrite_inv inv idle op
    exact ⟨kept, fun blockno value same => absurd same (notRead blockno value),
      fun same => absurd same notBooted⟩
  | bunpin p b after idle op => exact ⟨bunpin_inv inv idle op, nofun, nofun⟩
  | setHead p lh after idle op => exact ⟨setHead_inv inv idle op, nofun, nofun⟩
  | goto p after idle op => exact ⟨goto_inv inv idle op, nofun, nofun⟩
  | endCommit p idle op => exact ⟨endCommit_inv inv op, nofun, nofun⟩
  | initDone p idle op =>
    obtain ⟨installed, kept⟩ := initDone_inv inv op
    exact ⟨kept, nofun, fun _ => installed⟩
  | crash p => exact ⟨crash_inv inv p, nofun, nofun⟩

/-- After every run the machine implements the block store of its trace, and every read of
the trace was current. -/
theorem exec_inv {trace : List LogEvent} (run : (logMachine ι disk).Exec trace s) :
    LogInv (blockStore disk trace) s ∧ ReadsCurrent disk trace := by
  refine run.invariant
    (fun trace s => LogInv (blockStore disk trace) s ∧ ReadsCurrent disk trace) ?_ ?_
  · rintro s ⟨dev, logstart, nlog, p, device, area, count, rfl⟩
    have empty : onDisk (Log.initlog dev logstart nlog) disk = [] := by
      rw [← List.length_eq_zero_iff, onDisk, length_entries]
      exact count
    refine ⟨boot_inv p device area rfl rfl ?_ ?_, by simp [ReadsCurrent]⟩
    · exact fun blockno _ => recovered_of_empty empty blockno
    · rw [empty]
      exact ⟨zero_le _, zero_le _, List.nodup_nil, by simp⟩
  · rintro trace s event t ⟨inv, current⟩ ⟨action, stepped⟩
    obtain ⟨kept, last, -⟩ := step_inv inv (next_step stepped)
    rw [blockStore_append]
    exact ⟨kept, current.append last⟩

section ConcreteRun

/-- An action that succeeds. -/
def tryLog (s : LogState Unit) (action : LogAction Unit) : Option (LogState Unit × LogEvent) :=
  match s.next action with
  | .ok t event => some (t, event)
  | _ => none

/-- An action that succeeds is a step. -/
theorem step_of_tryLog (s : LogState Unit) (action : LogAction Unit) (t : LogState Unit)
    (event : LogEvent) (tried : tryLog s action = some (t, event)) :
    (logMachine Unit disk).step s event t := by
  unfold tryLog at tried
  split at tried
  · rename_i stepped
    cases tried
    exact ⟨action, stepped⟩
  · contradiction

/-- A disk of zeros, with an empty log at block 2. -/
def blankDisk : ℕ → Block := fun _ _ => 0

/-- The machine about to recover from the blank disk. -/
def blankBoot : LogState Unit := .boot 1 2 30 blankDisk ()

/-- The machine starts. -/
theorem blankBoot_init : (logMachine Unit blankDisk).Exec [] blankBoot :=
  .start ⟨1, 2, 30, (), by decide, by decide, by decide, rfl⟩

/-- An operation that changes block 46, its commit up to the write of the header, a crash at
that point, and recovery from it. -/
def crashAfterCommit : List (LogAction Unit) :=
  .replicate 15 (.run ()) ++
    [.beginOp (), .bread () 46, .run (), .run (), .modify () 1 (fun _ => 7), .logWrite () 1,
      .brelse () 1, .run (), .endOp ()] ++
    .replicate 17 (.run ()) ++ [.crash ()] ++ .replicate 27 (.run ())

/-- Is this the write of the header of a transaction? -/
def isCommit : LogEvent → Bool
  | .committed .. => true
  | _ => false

/-- The header of a transaction was written in the run. -/
def HasCommit (trace : List LogEvent) : Prop := ∃ event ∈ trace, isCommit event = true

/-- The actions succeed, with a commit, end with the end of `initlog`, and leave 7 in the home
block 46. -/
def bootsWithSeven (actions : List (LogAction Unit)) : Bool :=
  match StepSystem.replay tryLog blankBoot actions with
  | some (s, events) =>
    (match events.getLast? with
      | some .booted => true
      | _ => false) && decide (s.log.home 46) && s.disk 46 0 == 7 && events.dropLast.any isCommit
  | none => false

/-- Such actions make such a run. -/
theorem exists_boot {actions : List (LogAction Unit)} (boots : bootsWithSeven actions = true) :
    ∃ (trace : List LogEvent) (s : LogState Unit),
      (logMachine Unit blankDisk).Exec (trace ++ [.booted]) s ∧ s.log.home 46 ∧
        s.disk 46 0 = 7 ∧ HasCommit trace := by
  unfold bootsWithSeven at boots
  split at boots
  · rename_i s events replayed
    simp only [Bool.and_eq_true, decide_eq_true_eq, beq_iff_eq] at boots
    obtain ⟨⟨⟨ends, home⟩, seven⟩, commits⟩ := boots
    split at ends
    · rename_i last
      have run := blankBoot_init.replay step_of_tryLog replayed
      obtain ⟨trace, rfl⟩ := List.getLast?_eq_some_iff.mp last
      rw [List.dropLast_concat] at commits
      exact ⟨trace, s, run, home, seven, List.any_eq_true.mp commits⟩
    · contradiction
  · contradiction

/-- The actions succeed. -/
theorem crashAfterCommit_boots : bootsWithSeven crashAfterCommit = true := by decide +kernel

end ConcreteRun

section StateMachine

omit [Fintype ι] [DecidableEq ι] in
/-- `end_op` panics only during a commit. -/
theorem endOp_error (failed : log.endOp = .error why) : log.committing = true := by
  simp only [Log.endOp] at failed
  split at failed
  · assumption
  · split at failed <;> contradiction

omit [Fintype ι] [DecidableEq ι] in
/-- `log_write` complains about its caller only when no operation runs. -/
theorem logWrite_error {blockno : ℕ} (failed : log.logWrite blockno = .error why) :
    why = .tooBig ∨ why = .outsideTrans ∧ log.outstanding < 1 := by
  simp only [Log.logWrite] at failed
  split at failed
  · exact .inl (Except.error.inj failed).symm
  · split at failed
    · rename_i idle
      exact .inr ⟨(Except.error.inj failed).symm, idle⟩
    · split at failed <;> contradiction

omit [DecidableEq ι] in
/-- A running operation is counted. -/
theorem ControlInv.outstanding_pos (control : ControlInv s) (running : s.inOp p = true) :
    1 ≤ s.log.outstanding := by
  have one : (s.inOp p).toNat ≤ ∑ q, (s.inOp q).toNat :=
    Finset.single_le_sum_of_canonicallyOrdered (f := fun q => (s.inOp q).toNat)
      (Finset.mem_univ p)
  rw [running, Bool.toNat_true] at one
  rw [control.outstanding]
  omega

omit [Fintype ι] in
/-- Continuing a `bread` or `brelse` never panics. -/
theorem resume_ne_panic (p : ι) (wait : Wait) (why : LogPanic) : s.resume p wait ≠ .panic why := by
  cases wait with
  | acquiring b blockno =>
    simp only [LogState.resume]
    split <;> simp
  | _ => simp [LogState.resume]

omit [Fintype ι] in
/-- Inside `commit`, `bread` and `brelse` only the cache can panic. -/
theorem run_panic (panicked : s.next (.run p) = .panic why) :
    why = .noBuffers ∨ why = .bwrite ∨ why = .brelse := by
  simp only [next] at panicked
  split at panicked
  · split at panicked
    · rename_i op _
      cases op <;> simp only [perform, LogState.startRead, startRelease,
        reduceCtorEq] at panicked <;> split at panicked <;> simp_all
    · contradiction
  · exact absurd panicked (resume_ne_panic p _ why)

/-- No action of a process that follows the protocol reaches the panics about callers. -/
theorem LogInv.no_caller_panic (inv : LogInv store s) (action : LogAction ι) (why : LogPanic)
    (panicked : s.next action = .panic why) : why ≠ .committing ∧ why ≠ .outsideTrans := by
  cases action with
  | bread p blockno =>
    simp only [next, LogState.startRead] at panicked
    split at panicked
    · split at panicked
      · contradiction
      · cases panicked
        decide
    · contradiction
  | modify p b data =>
    simp only [next] at panicked
    split at panicked <;> contradiction
  | logWrite p b =>
    simp only [next] at panicked
    split at panicked
    · rename_i guard
      split at panicked
      · rename_i failed
        cases panicked
        have running := inv.control.outstanding_pos guard.2.1
        rcases logWrite_error failed with rfl | ⟨rfl, idle⟩
        · decide
        · omega
      · contradiction
    · contradiction
  | brelse p b =>
    simp only [next, startRelease] at panicked
    split at panicked
    · split at panicked
      · contradiction
      · cases panicked
        decide
    · contradiction
  | beginOp p =>
    simp only [next] at panicked
    split at panicked
    · split at panicked <;> contradiction
    · contradiction
  | endOp p =>
    simp only [next] at panicked
    split at panicked
    · rename_i guard
      split at panicked
      · rename_i failed
        obtain ⟨-, q, busy⟩ := inv.control.committing.mp (endOp_error failed)
        exact absurd (inv.control.running guard.2.1 q) busy
      · contradiction
    · contradiction
  | run p =>
    rcases run_panic panicked with rfl | rfl | rfl <;> decide
  | crash p => contradiction

/-- The state of the log in every reachable state: `committing` and `outstanding` exclude each
other and are bounded, the entries are distinct, and each is cached with exactly one pin until
`install_trans` drops it. After a commit the log is empty and nothing is pinned. The panics
about callers are unreachable. -/
theorem log_state_machine (disk : ℕ → Block) (trace : List LogEvent) (s : LogState ι)
    (run : (logMachine ι disk).Exec trace s) :
    (s.log.committing = true → s.log.outstanding = 0) ∧
    0 ≤ s.log.outstanding ∧ s.log.outstanding ≤ (LOGSIZE / MAXOPBLOCKS : ℕ) ∧
    s.log.lh.n ≤ LOGSIZE ∧ (entries s.log.lh).Nodup ∧
    (∀ i < s.log.lh.n, (∀ p, keepsPin i (s.stage p) = true) →
      ∃ b, Caches s b (s.log.lh.block i) ∧ (s.cache.buf b).refcnt = refs s b + 1) ∧
    (∀ b, (∀ i < s.log.lh.n, (∀ p, keepsPin i (s.stage p) = true) →
      ¬Caches s b (s.log.lh.block i)) → (s.cache.buf b).refcnt = refs s b) ∧
    (∀ p, s.stage p = .commitDone →
      s.log.lh.n = 0 ∧ ∀ b, (s.cache.buf b).refcnt = refs s b) ∧
    ∀ action, s.next action ≠ .panic .committing ∧ s.next action ≠ .panic .outsideTrans := by
  obtain ⟨inv, -⟩ := exec_inv run
  have unpinned : ∀ b, (∀ i < s.log.lh.n, (∀ p, keepsPin i (s.stage p) = true) →
      ¬Caches s b (s.log.lh.block i)) → (s.cache.buf b).refcnt = refs s b := by
    intro b free
    rw [inv.cache.count b, pinRefs_zero, add_zero]
    rintro blockno caches ⟨i, inside, rfl, kept⟩
    exact free i inside kept caches
  refine ⟨?_, ?_, inv.control.reserved, ?_, inv.control.header.distinct, ?_, unpinned, ?_, ?_⟩
  · intro committing
    obtain ⟨-, p, busy⟩ := inv.control.committing.mp committing
    rw [inv.control.outstanding]
    simp [inv.control.idle p _ busy]
  · rw [inv.control.outstanding]
    exact Int.natCast_nonneg _
  · have fits := inv.control.header.fits
    rwa [length_entries] at fits
  · intro i inside kept
    have pinned : Pinned s (s.log.lh.block i) := ⟨i, inside, rfl, kept⟩
    obtain ⟨b, caches, -⟩ := inv.cache.cached _ pinned
    exact ⟨b, caches, by rw [inv.cache.count b, pinRefs_pos caches pinned]⟩
  · intro p done
    have ok := inv.stages p
    rw [done] at ok
    refine ⟨ok.1, fun b => unpinned b fun i inside => ?_⟩
    exact absurd inside (by rw [ok.1]; omega)
  · intro action
    exact ⟨fun panicked => (inv.no_caller_panic action _ panicked).1 rfl,
      fun panicked => (inv.no_caller_panic action _ panicked).2 rfl⟩

end StateMachine

/-- The state machine along a commit, a crash and a recovery that installs what was committed. -/
theorem log_state_machine_committed : ∃ (trace : List LogEvent) (s : LogState Unit),
    (logMachine Unit blankDisk).Exec (trace ++ [.booted]) s ∧ HasCommit trace ∧ s.disk 46 0 = 7 ∧
      (s.log.committing = true → s.log.outstanding = 0) ∧ (entries s.log.lh).Nodup ∧
      ∀ action, s.next action ≠ .panic .committing ∧ s.next action ≠ .panic .outsideTrans := by
  obtain ⟨trace, s, run, -, seven, commits⟩ := exists_boot crashAfterCommit_boots
  have holds := log_state_machine blankDisk _ s run
  exact ⟨_, s, run, commits, seven, holds.1, holds.2.2.2.2.1, holds.2.2.2.2.2.2.2.2⟩

/-- The cache and the log together are a transparent block store: every `bread` of every run
returned what was last released into the block, at most one buffer is assigned to a block of
a device, and the buffers stay on one circular list. -/
theorem transparent_block_store (disk : ℕ → Block) (trace : List LogEvent) (s : LogState ι)
    (run : (logMachine ι disk).Exec trace s) :
    ReadsCurrent disk trace ∧
    (∀ dev ≥ 1, ∀ blockno b b',
      (s.cache.buf b).dev = dev ∧ (s.cache.buf b).blockno = blockno →
      (s.cache.buf b').dev = dev ∧ (s.cache.buf b').blockno = blockno → b = b') ∧
    RingOk s.cache := by
  obtain ⟨inv, current⟩ := exec_inv run
  refine ⟨current, ?_, inv.cache.ring⟩
  rintro dev positive blockno b b' ⟨rfl, first⟩ second
  by_cases mounted : (s.cache.buf b).dev = s.log.dev
  · rw [mounted] at second
    exact inv.cache.unique b b' blockno ⟨mounted, first⟩ second
  · rw [(inv.cache.spare b mounted).1] at positive
    contradiction

/-- The reads of a commit, a crash and a recovery that installs what was committed. -/
theorem transparent_block_store_committed : ∃ (trace : List LogEvent) (s : LogState Unit),
    (logMachine Unit blankDisk).Exec (trace ++ [.booted]) s ∧ HasCommit trace ∧ s.disk 46 0 = 7 ∧
      ReadsCurrent blankDisk (trace ++ [.booted]) ∧ RingOk s.cache := by
  obtain ⟨trace, s, run, -, seven, commits⟩ := exists_boot crashAfterCommit_boots
  have holds := transparent_block_store blankDisk _ s run
  exact ⟨_, s, run, commits, seven, holds.1, holds.2.2⟩

/-- Transactions are atomic across crashes: whenever `initlog` completes, after any run with
any number of crashes at any points, every home block holds exactly what the committed groups
made of the first disk. -/
theorem crash_atomicity (disk : ℕ → Block) (trace : List LogEvent) (s : LogState ι)
    (run : (logMachine ι disk).Exec (trace ++ [.booted]) s) (blockno : ℕ)
    (home : s.log.home blockno) :
    s.disk blockno = applyGroups disk (committedGroups trace) blockno := by
  obtain ⟨before, earlier, action, stepped⟩ := run.last
  obtain ⟨inv, -⟩ := exec_inv earlier
  obtain ⟨-, -, installed⟩ := step_inv inv (next_step stepped)
  rw [installed rfl blockno home, (blockStore_groups disk trace).1]

/-- The committed change survives the crash. -/
theorem crash_atomicity_committed : ∃ (trace : List LogEvent) (s : LogState Unit),
    (logMachine Unit blankDisk).Exec (trace ++ [.booted]) s ∧
      s.disk 46 = applyGroups blankDisk (committedGroups trace) 46 ∧ s.disk 46 0 = 7 := by
  obtain ⟨trace, s, run, home, seven, -⟩ := exists_boot crashAfterCommit_boots
  exact ⟨trace, s, run, crash_atomicity blankDisk trace s run 46 home, seven⟩

end Xv6Cos.Verif
