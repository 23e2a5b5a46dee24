import Xv6Cos.Kernel.LogMachine

/-!
# What one step of the log machine does

Every action that succeeds is one of the transitions below, with the guard it passed. The
invariants are proved by cases on these.
-/

namespace Xv6Cos.Verif

open Kernel LogState Function

variable {ι : Type} [DecidableEq ι] {p : ι}

/-- The successful transitions of the machine. -/
inductive LogStep (s : LogState ι) : LogEvent → LogState ι → Prop
  | startRead (p : ι) (blockno : ℕ) (b : Fin NBUF) (cache : Bcache ι)
      (idle : s.wait p = .run)
      (asked : s.stage p = .user ∨ s.op (s.stage p) = some (.bread blockno))
      (got : s.cache.bget s.log.dev blockno = some (b, cache)) :
      LogStep s .silent ({ s with cache := cache }.setWait p (.acquiring b blockno))
  | lock (p : ι) (b : Fin NBUF) (blockno : ℕ) (waiting : s.wait p = .acquiring b blockno)
      (free : (s.cache.buf b).lock = none) :
      LogStep s .silent
        ((s.setBuf b { s.cache.buf b with lock := some p }).setWait p (.filling b blockno))
  | fill (p : ι) (b : Fin NBUF) (blockno : ℕ) (data : Block)
      (waiting : s.wait p = .filling b blockno)
      (transferred : data =
        if (s.cache.buf b).valid then (s.cache.buf b).data else s.disk (s.cache.buf b).blockno) :
      LogStep s (.read blockno data)
        (((s.setBuf b { s.cache.buf b with valid := true, data := data }).setWait p
          .run).setStage p ((s.stage p).got b))
  | userRelease (p : ι) (b : Fin NBUF) (ready : s.Ready p)
      (held : (s.cache.buf b).lock = some p) (logged : (s.cache.buf b).edit ≠ .unlogged) :
      LogStep s
        (if (s.cache.buf b).edit = .clean then .silent
          else .released (s.cache.buf b).blockno (s.cache.buf b).data)
        ((s.setBuf b { s.cache.buf b with lock := none, edit := .clean }).setWait p (.releasing b))
  | release (p : ι) (b : Fin NBUF) (after : Stage) (idle : s.wait p = .run)
      (op : s.op (s.stage p) = some (.brelse b after)) (held : (s.cache.buf b).lock = some p) :
      LogStep s
        (if (s.cache.buf b).edit = .clean then .silent
          else .released (s.cache.buf b).blockno (s.cache.buf b).data)
        (((s.setStage p after).setBuf b
          { s.cache.buf b with lock := none, edit := .clean }).setWait p (.releasing b))
  | finish (p : ι) (b : Fin NBUF) (waiting : s.wait p = .releasing b) :
      LogStep s .silent ({ s with cache := s.cache.brelse b }.setWait p .run)
  | modify (p : ι) (b : Fin NBUF) (data : Block) (ready : s.Ready p) (running : s.inOp p = true)
      (held : (s.cache.buf b).lock = some p) (home : s.log.home (s.cache.buf b).blockno) :
      LogStep s .silent (s.setBuf b { s.cache.buf b with
        data := data, edit := if (s.cache.buf b).edit = .logged then .logged else .unlogged })
  | logWrite (p : ι) (b : Fin NBUF) (log : Log) (pin : Bool) (ready : s.Ready p)
      (running : s.inOp p = true) (held : (s.cache.buf b).lock = some p)
      (home : s.log.home (s.cache.buf b).blockno)
      (written : s.log.logWrite (s.cache.buf b).blockno = .ok (log, pin)) :
      LogStep s .silent { s.setBuf b { s.cache.buf b with
        refcnt := if pin then (s.cache.buf b).refcnt + 1 else (s.cache.buf b).refcnt,
        edit := .logged } with log := log }
  | beginOp (p : ι) (log : Log) (ready : s.Ready p) (outside : s.inOp p = false)
      (begun : s.log.beginOp = some log) :
      LogStep s .silent { s with log := log, inOp := Function.update s.inOp p true }
  | endOp (p : ι) (log : Log) (commit : Bool) (ready : s.Ready p) (running : s.inOp p = true)
      (released : ∀ b, (s.cache.buf b).lock = some p → (s.cache.buf b).edit = .clean)
      (ended : s.log.endOp = .ok (log, commit)) :
      LogStep s .silent
        ({ s with log := log, inOp := Function.update s.inOp p false }.setStage p
          (if commit then .commit else .user))
  | bwrite (p : ι) (b : Fin NBUF) (data : Block) (event : LogEvent) (after : Stage)
      (idle : s.wait p = .run) (op : s.op (s.stage p) = some (.bwrite b data event after))
      (held : (s.cache.buf b).lock = some p) :
      LogStep s event
        ({ s.setBuf b { s.cache.buf b with data := data } with
          disk := Function.update s.disk (s.cache.buf b).blockno data }.setStage p after)
  | bunpin (p : ι) (b : Fin NBUF) (after : Stage) (idle : s.wait p = .run)
      (op : s.op (s.stage p) = some (.bunpin b after)) :
      LogStep s .silent
        ((s.setBuf b { s.cache.buf b with refcnt := (s.cache.buf b).refcnt - 1 }).setStage p after)
  | setHead (p : ι) (lh : Logheader) (after : Stage) (idle : s.wait p = .run)
      (op : s.op (s.stage p) = some (.setHead lh after)) :
      LogStep s .silent ({ s with log := { s.log with lh := lh } }.setStage p after)
  | goto (p : ι) (after : Stage) (idle : s.wait p = .run)
      (op : s.op (s.stage p) = some (.goto after)) : LogStep s .silent (s.setStage p after)
  | endCommit (p : ι) (idle : s.wait p = .run) (op : s.op (s.stage p) = some .endCommit) :
      LogStep s .silent ({ s with log := s.log.endCommit }.setStage p .user)
  | initDone (p : ι) (idle : s.wait p = .run) (op : s.op (s.stage p) = some .initDone) :
      LogStep s .booted ({ s with booted := true }.setStage p .user)
  | crash (p : ι) :
      LogStep s (.crashed s.disk) (.boot s.log.dev s.log.start s.log.size s.disk p)

variable {s t : LogState ι} {event : LogEvent}

/-- Start of a `bread` by a user or by the log. -/
theorem startRead_step {blockno : ℕ} (idle : s.wait p = .run)
    (asked : s.stage p = .user ∨ s.op (s.stage p) = some (.bread blockno))
    (read : s.startRead p blockno = .ok t event) : LogStep s event t := by
  unfold LogState.startRead at read
  split at read
  · rename_i b cache got
    cases read
    exact .startRead p blockno b cache idle asked got
  · contradiction

/-- Continuation of a `bread` or `brelse`. -/
theorem resume_step (resumed : s.resume p (s.wait p) = .ok t event) : LogStep s event t := by
  cases waiting : s.wait p with
  | run => simp [waiting, LogState.resume] at resumed
  | acquiring b blockno =>
    simp only [waiting, LogState.resume] at resumed
    split at resumed
    · rename_i free
      cases resumed
      exact .lock p b blockno waiting free
    · contradiction
  | filling b blockno =>
    simp only [waiting, LogState.resume] at resumed
    cases resumed
    exact .fill p b blockno _ waiting rfl
  | releasing b =>
    simp only [waiting, LogState.resume] at resumed
    cases resumed
    exact .finish p b waiting

/-- One step of `commit` or `initlog`. -/
theorem perform_step {op : Op} (idle : s.wait p = .run)
    (next : s.op (s.stage p) = some op) (performed : s.perform p op = .ok t event) :
    LogStep s event t := by
  cases op with
  | bread blockno => exact startRead_step idle (.inr next) performed
  | bwrite b data written after =>
    simp only [perform] at performed
    split at performed
    · rename_i held
      obtain ⟨rfl, rfl⟩ := Outcome.ok.inj performed
      exact .bwrite p b data written after idle next held
    · contradiction
  | brelse b after =>
    simp only [perform, startRelease] at performed
    split at performed
    · rename_i held
      cases performed
      exact .release p b after idle next held
    · contradiction
  | bunpin b after =>
    cases performed
    exact .bunpin p b after idle next
  | setHead lh after =>
    cases performed
    exact .setHead p lh after idle next
  | goto after =>
    cases performed
    exact .goto p after idle next
  | endCommit =>
    cases performed
    exact .endCommit p idle next
  | initDone =>
    cases performed
    exact .initDone p idle next

/-- Every successful action is one of the transitions. -/
theorem next_step {action : LogAction ι} (stepped : s.next action = .ok t event) :
    LogStep s event t := by
  cases action with
  | bread p blockno =>
    simp only [LogState.next] at stepped
    split at stepped
    · rename_i ready
      exact startRead_step ready.2.2 (.inl ready.2.1) stepped
    · contradiction
  | modify p b data =>
    simp only [LogState.next] at stepped
    split at stepped
    · rename_i guard
      cases stepped
      exact .modify p b data guard.1 guard.2.1 guard.2.2.1 guard.2.2.2
    · contradiction
  | logWrite p b =>
    simp only [LogState.next] at stepped
    split at stepped
    · rename_i guard
      split at stepped
      · contradiction
      · rename_i log pin written
        cases stepped
        have step := LogStep.logWrite p b log pin guard.1 guard.2.1 guard.2.2.1 guard.2.2.2 written
        cases pin <;> simpa [setBuf, Bcache.bpin, Bcache.set] using step
    · contradiction
  | brelse p b =>
    simp only [LogState.next, startRelease] at stepped
    split at stepped
    · rename_i guard
      split at stepped
      · rename_i held
        cases stepped
        exact .userRelease p b guard.1 held guard.2
      · contradiction
    · contradiction
  | beginOp p =>
    simp only [LogState.next] at stepped
    split at stepped
    · rename_i guard
      split at stepped
      · rename_i log begun
        cases stepped
        exact .beginOp p log guard.1 guard.2 begun
      · contradiction
    · contradiction
  | endOp p =>
    simp only [LogState.next] at stepped
    split at stepped
    · rename_i guard
      split at stepped
      · contradiction
      · rename_i log commit ended
        cases stepped
        exact .endOp p log commit guard.1 guard.2.1 guard.2.2 ended
    · contradiction
  | run p =>
    simp only [LogState.next] at stepped
    split at stepped
    · rename_i idle
      split at stepped
      · rename_i op next
        exact perform_step idle next stepped
      · contradiction
    · rename_i wait busy
      exact resume_step stepped
  | crash p =>
    cases stepped
    exact .crash p

end Xv6Cos.Verif
