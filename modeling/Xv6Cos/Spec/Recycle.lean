import Xv6Cos.Kernel.Alarm

/-!
# The history of a process

A record, kept beside a run, of what has happened to each process since it was created. It is
computed from the labels and the pids of processes, apart from the countdown that the last occupant
left in the entry, which only the condition on runs uses.
-/

namespace Xv6Cos.Spec

open Kernel Transition Function

/-- The alarm that a process set. -/
structure Alarm where
  handler : ℕ
  period : BitVec 32
  left : BitVec 32
  /-- The alarm has been delivered and has not returned. -/
  busy : Bool

/-- The alarm after a timer interrupt. -/
def Alarm.tick (a : Alarm) : Alarm :=
  if a.busy then a
  else if a.left = 1 then { a with left := a.period, busy := true }
  else { a with left := a.left - 1 }

/-- The next timer interrupt delivers the alarm. -/
def Alarm.Due (a : Alarm) : Prop := a.busy = false ∧ a.left = 1

/-- What has happened to a process since it was created. -/
structure Life where
  killed : Bool
  traceMask : BitVec 32
  /-- The alarm it set, if it called `sigalarm`. -/
  alarm : Option Alarm
  /-- The timer interrupts it took. -/
  ticks : ℕ
  /-- The countdown that was left in the entry. -/
  stale : BitVec 32

/-- The record of a process for each entry of the table. -/
abbrev Lives := Fin NPROC → Life

/-- A new process with this mask, in an entry with this countdown. -/
def Life.new (traceMask stale : BitVec 32) : Life := ⟨false, traceMask, none, 0, stale⟩

/-- The record after an operation. -/
def trackLife (s : AlarmSys) (lives : Lives) : AlarmEvent → Lives
  | .user (.forked p np) =>
    update lives np (.new (lives p).traceMask (s.slot np).alarmTicksLeft)
  | .user (.storeKilled p _) => update lives p { lives p with killed := true }
  | .user (.loadKilled p _) => update lives p { lives p with killed := true }
  | .ticked p => update lives p
      { lives p with alarm := (lives p).alarm.map .tick, ticks := (lives p).ticks + 1 }
  | .delivered p _ _ => update lives p
      { lives p with alarm := (lives p).alarm.map .tick, ticks := (lives p).ticks + 1 }
  | .armed p ticks handler =>
    update lives p { lives p with alarm := some ⟨handler, ticks, ticks, false⟩ }
  | .returned p _ => update lives p
      { lives p with alarm := (lives p).alarm.map fun a => { a with busy := false } }
  | .traced p mask => update lives p { lives p with traceMask := mask }
  | .killed _ pid _ =>
    match s.named pid with
    | some q => update lives q { lives q with killed := true }
    | none => lives
  | _ => lives

/-- How many timer interrupts bring a countdown to zero. -/
def fuse (countdown : BitVec 32) : ℕ := if countdown = 0 then 2 ^ 32 else countdown.toNat

/-- No `kill` has the pid of an entry that is not in use, and a process that has not called
`sigalarm` takes fewer timer interrupts than the countdown left in its entry would. -/
def Tidy (s : AlarmSys) (lives : Lives) : AlarmEvent → Prop
  | .killed _ pid _ => ∀ q, ((s.sys.proc q).pid : Int) = pid → (s.sys.proc q).state ≠ .unused
  | .ticked p => (lives p).alarm = none → (lives p).ticks + 1 < fuse (lives p).stale
  | .delivered p _ _ => (lives p).alarm = none → (lives p).ticks + 1 < fuse (lives p).stale
  | _ => True

/-- The fields of a process say what has happened to it, and nothing else. -/
structure OwnFields (slot : Slot) (life : Life) : Prop where
  killed : slot.killed = life.killed
  traceMask : slot.traceMask = life.traceMask
  alarm : ∀ a, life.alarm = some a → slot.alarmHandler = a.handler ∧ slot.alarmTicks = a.period ∧
    slot.alarmTicksLeft = a.left ∧ slot.alarmFlag = a.busy

end Xv6Cos.Spec
