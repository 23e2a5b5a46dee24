import Xv6Cos.Kernel.Registers

/-!
# The registers that an alarm interrupts

A record, kept beside a run, of the registers that the last alarm of each process found and that
no `sigreturn` has been called for yet.
-/

namespace Xv6Cos.Spec

open Kernel Transition

/-- The registers of each process that an alarm has interrupted. -/
abbrev Interrupted := Fin NPROC → Option Registers

/-- The record after an operation that found these registers. -/
def trackAlarm (interrupted : Interrupted) (before : Option Registers) : AlarmEvent → Interrupted
  | .delivered p _ _ => Function.update interrupted p before
  | .returned p _ => Function.update interrupted p none
  | .user (.waited _ _ (.reaped pp _ _)) => Function.update interrupted pp none
  | _ => interrupted

/-- The record after a step. -/
def trackInterrupted (interrupted : Interrupted) : RegEvent → Interrupted
  | .accessed _ event => trackAlarm interrupted none event
  | .trapped _ before (some event) _ => trackAlarm interrupted (some before) event
  | _ => interrupted

/-- A handler does not call `sigalarm`, and only handlers call `sigreturn`. -/
def PatientHandlers (interrupted : Interrupted) : RegEvent → Prop
  | .trapped _ _ (some (.armed p _ _)) _ => interrupted p = none
  | .trapped _ _ (some (.returned p _)) _ => interrupted p ≠ none
  | _ => True

/-- Runs with the record, with such handlers. -/
def interruptedRuns (layout : Layout) : StepSystem (RegSys × Interrupted) RegEvent :=
  (registerSystem layout).recorded (fun _ => none) (fun _ => trackInterrupted)
    fun _ => PatientHandlers

/-- The value of the register survives a conversion to `int` and back. -/
def FitsInt (value : BitVec 64) : Prop := ofInt32 (value.setWidth 32) = value

instance (value : BitVec 64) : Decidable (FitsInt value) :=
  inferInstanceAs (Decidable (ofInt32 (value.setWidth 32) = value))

end Xv6Cos.Spec
