import Xv6Cos.Kernel.Alarm

/-!
# Alarms that have not returned

Records, kept beside a run, of the trapframe that the last alarm of each process saved and that
no `sigreturn` has restored yet, with two disciplines for the use of alarms in terms of it, and of
the timer interrupts that count for the next alarm.
-/

namespace Xv6Cos.Spec

open Kernel Transition

/-- A trapframe that an alarm saved: the page and its contents. -/
structure SavedFrame where
  page : ℕ
  contents : Page

/-- The alarm of each process that has not returned. -/
abbrev Pending := Fin NPROC → Option SavedFrame

/-- The alarms that have not returned after an operation. -/
def trackPending (pending : Pending) : AlarmEvent → Pending
  | .delivered p page contents => Function.update pending p (some ⟨page, contents⟩)
  | .returned p _ => Function.update pending p none
  | .user (.waited _ _ (.reaped pp _ _)) => Function.update pending pp none
  | _ => pending

/-- A process returns from an alarm that was delivered to it. Before, no other one is due when a
timer interrupt comes, and it does not exit. -/
def Orderly (s : AlarmSys) (pending : Pending) : AlarmEvent → Prop
  | .ticked p | .delivered p _ _ =>
    (s.slot p).alarmFlag = false ∧ (s.slot p).alarmTicksLeft = 1 → pending p = none
  | .returned p _ => pending p ≠ none
  | .user (.exited p) => pending p = none
  | .user (.storeKilled p _) => pending p = none
  | .user (.loadKilled p _) => pending p = none
  | _ => True

/-- A process returns from an alarm that was delivered to it, and does not call `sigalarm`
before. -/
def Patient (pending : Pending) : AlarmEvent → Prop
  | .armed p _ _ => pending p = none
  | .returned p _ => pending p ≠ none
  | _ => True

/-- Runs with the record of alarms, all of whose steps meet a condition. -/
def alarmsUnder (layout : Layout) (condition : Pending → AlarmEvent → Prop) :
    StepSystem (AlarmSys × Pending) AlarmEvent :=
  (alarmSystem layout).recorded (fun _ => none) (fun _ => trackPending) fun _ => condition

/-- Orderly runs with the record of alarms. -/
def orderlyRuns (layout : Layout) : StepSystem (AlarmSys × Pending) AlarmEvent :=
  (alarmSystem layout).recorded (fun _ => none) (fun _ => trackPending) Orderly

/-- The trapframe of the process holds the saved registers. -/
def Restored (s : AlarmSys) (p : Fin NPROC) (contents : Page) : Prop :=
  ∃ trapframe, (s.sys.proc p).trapframe = some trapframe ∧
    ∀ k < TRAPFRAMESIZE, s.sys.vm.mem trapframe k = contents k

/-- How far a process is with the alarm that it set last. -/
structure Beat where
  handler : ℕ
  period : BitVec 32
  /-- The timer interrupts taken outside the handler since `sigalarm` or the last delivery. -/
  count : ℕ
  /-- The alarm has been delivered and has not returned. -/
  handling : Bool

/-- The alarm of each process that has called `sigalarm` and has not been reaped. -/
abbrev Beats := Fin NPROC → Option Beat

/-- The alarms after an operation. -/
def trackBeats (beats : Beats) : AlarmEvent → Beats
  | .armed p ticks handler => Function.update beats p (some ⟨handler, ticks, 0, false⟩)
  | .ticked p => Function.update beats p ((beats p).map fun b =>
      if b.handling then b else { b with count := b.count + 1 })
  | .delivered p _ _ => Function.update beats p ((beats p).map fun b =>
      { b with count := 0, handling := true })
  | .returned p _ => Function.update beats p ((beats p).map fun b => { b with handling := false })
  | .user (.waited _ _ (.reaped pp _ _)) => Function.update beats pp none
  | _ => beats

/-- The next timer interrupt completes the period. -/
def Beat.Due (b : Beat) : Prop :=
  b.handling = false ∧ b.count + 1 = b.period.toNat

instance (b : Beat) : Decidable b.Due :=
  inferInstanceAs (Decidable (_ ∧ _))

/-- The process goes on at the handler: its program counter, in the trapframe, is set to it. -/
def Enters (s : AlarmSys) (p : Fin NPROC) (handler : ℕ) : Prop :=
  ∃ trapframe page, (s.sys.proc p).trapframe = some trapframe ∧
    s.sys.vm.mem trapframe = Bytes.writeLE page 24 handler 8

end Xv6Cos.Spec
