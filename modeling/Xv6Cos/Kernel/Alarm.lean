import Xv6Cos.Kernel.UserMachine

/-!
# Alarms, kill and trace (`kernel/trap.c`, `kernel/sysproc.c`)

The remaining fields of a process, the timer part of `usertrap`, and the system calls
`sigalarm`, `sigreturn`, `trace` and `kill`, beside the operations on memory.
-/

namespace Xv6Cos.Kernel

open Program Transition Function

/-- The fields of `struct proc` that signals and tracing use. -/
structure Slot where
  killed : Bool
  traceMask : BitVec 32
  alarmHandler : ℕ
  alarmFlag : Bool
  alarmTicks : BitVec 32
  alarmTicksLeft : BitVec 32
  /-- The page that the trapframe was saved in, if the pointer is not null. -/
  alarmSavedTf : Option ℕ

/-- A process slot that has never been used. -/
def Slot.zero : Slot := ⟨false, 0, 0, false, 0, 0, none⟩

/-- The kernel's state with the process fields above. -/
structure AlarmSys where
  sys : Sys
  slot : Fin NPROC → Slot
  /-- The pages that hold saved trapframes and have not been freed. -/
  frames : List ℕ

/-- A program over this state. -/
abbrev AlarmM (α : Type) := Prog AlarmSys VmPanic α

/-- A program over the kernel's state, as one with the process fields. -/
def kernel {α : Type} (m : SysM α) : AlarmM α :=
  within AlarmSys.sys (fun s sys => { s with sys := sys }) m

/-- Overwrite the fields of a process. -/
def setSlot (p : Fin NPROC) (slot : Slot) : AlarmM Unit :=
  modifies fun s => { s with slot := update s.slot p slot }

/-- The trapframe of a process. -/
def trapframeOf (p : Fin NPROC) : AlarmM ℕ := do
  match ← reads fun s => (s.sys.proc p).trapframe with
  | none => fail .nullPointer
  | some trapframe => pure trapframe

/-- The trampoline saves the user's registers in the trapframe. -/
def saveRegisters (p : Fin NPROC) (registers : List UInt8) : AlarmM Unit := do
  let trapframe ← trapframeOf p
  kernel (memory (modifies fun vm =>
    vm.setPage trapframe (Page.store (vm.mem trapframe) 0 (registers.take TRAPFRAMESIZE))))

/-- The alarm part of `usertrap` for a timer interrupt: the page that the trapframe is saved in
if the alarm is delivered. -/
def alarmTick (p : Fin NPROC) : AlarmM (Option ℕ) := do
  let slot ← reads fun s => s.slot p
  if slot.alarmFlag then pure none
  else do
    setSlot p { slot with alarmTicksLeft := slot.alarmTicksLeft - 1 }
    if slot.alarmTicksLeft - 1 ≠ 0 then pure none
    else do
      -- the result of `kalloc` is used without a check
      match ← kernel (memory kalloc) with
      | none => fail .nullPointer
      | some page => do
        let trapframe ← trapframeOf p
        kernel (memory (copyTrapframe trapframe page))
        setSlot p { slot with
          alarmFlag := true, alarmSavedTf := some page, alarmTicksLeft := slot.alarmTicks }
        kernel (memory (setReg trapframe 24 slot.alarmHandler))
        modifies fun s => { s with
          sys := { s.sys with held := page :: s.sys.held }, frames := page :: s.frames }
        pure (some page)

/-- `sys_sigalarm`. -/
def sysSigalarm (p : Fin NPROC) (ticks : BitVec 32) (handler : ℕ) : AlarmM Unit := do
  let slot ← reads fun s => s.slot p
  setSlot p { slot with
    alarmHandler := handler, alarmTicks := ticks, alarmTicksLeft := ticks, alarmFlag := false }

/-- `sys_sigreturn`: the page that the trapframe is restored from. -/
def sysSigreturn (layout : Layout) (p : Fin NPROC) : AlarmM ℕ := do
  let slot ← reads fun s => s.slot p
  let trapframe ← trapframeOf p
  match slot.alarmSavedTf with
  | none => fail .nullPointer
  | some page => do
    kernel (memory (copyTrapframe page trapframe))
    kernel (memory (kfree layout page))
    setSlot p { slot with alarmFlag := false }
    -- the page is no longer one of the saved frames, if it was one
    modifies fun s =>
      if page ∈ s.frames then
        { s with
          sys := { s.sys with held := s.sys.held.erase page }, frames := s.frames.erase page }
      else s
    pure page

/-- `sys_trace`. -/
def sysTrace (p : Fin NPROC) (mask : BitVec 32) : AlarmM Unit := do
  let slot ← reads fun s => s.slot p
  setSlot p { slot with traceMask := mask }

/-- The first process with this pid, if any. An unused process has pid 0. -/
def AlarmSys.named (s : AlarmSys) (pid : Int) : Option (Fin NPROC) :=
  (List.finRange NPROC).find? fun p => ((s.sys.proc p).pid : Int) = pid

/-- `kill` marks the first entry with the pid. -/
def kill (pid : Int) : AlarmM (Option (Fin NPROC)) := do
  match ← reads fun s => s.named pid with
  | none => pure none
  | some p => do
    let slot ← reads fun s => s.slot p
    setSlot p { slot with killed := true }
    pure (some p)

/-- What the operations on memory do to the other fields: `allocproc` resets `alarm_flag`,
`fork` copies `trace_mask`, `freeproc` resets `killed` and `trace_mask`, and a fault that kills
sets `killed`. -/
def slotsAfter (s : AlarmSys) : UserEvent → Fin NPROC → Slot
  | .forked p np => update s.slot np
      { s.slot np with alarmFlag := false, traceMask := (s.slot p).traceMask }
  | .forkFailed _ copying =>
    match (List.finRange NPROC).find? fun p => (s.sys.proc p).state = .unused with
    | none => s.slot
    | some np => update s.slot np
        { s.slot np with
          killed := false, traceMask := 0, alarmFlag := !copying && (s.slot np).alarmFlag }
  | .waited _ _ (.reaped pp _ _) => update s.slot pp
      { s.slot pp with killed := false, traceMask := 0 }
  | .storeKilled p _ => update s.slot p { s.slot p with killed := true }
  | .loadKilled p _ => update s.slot p { s.slot p with killed := true }
  | _ => s.slot

/-- An operation, by the process that runs it. -/
inductive AlarmAction
  | user (action : UserAction)
  /-- The process enters the kernel with these registers. -/
  | trap (registers : List UInt8)
  /-- A timer interrupt. -/
  | timer
  | sigalarm (ticks : BitVec 32) (handler : ℕ)
  | sigreturn
  | trace (mask : BitVec 32)
  | kill (pid : Int)

/-- What an operation did. -/
inductive AlarmEvent
  | user (event : UserEvent)
  | trapped (p : Fin NPROC)
  /-- A timer interrupt delivered no alarm. -/
  | ticked (p : Fin NPROC)
  /-- A timer interrupt delivered an alarm: the trapframe was saved in this page, which then had
  these contents. -/
  | delivered (p : Fin NPROC) (page : ℕ) (frame : Page)
  | armed (p : Fin NPROC) (ticks : BitVec 32) (handler : ℕ)
  /-- `sigreturn` restored the trapframe from this page. -/
  | returned (p : Fin NPROC) (page : ℕ)
  | traced (p : Fin NPROC) (mask : BitVec 32)
  | killed (p : Fin NPROC) (pid : Int) (target : Option (Fin NPROC))

/-- Run one operation. -/
def AlarmAction.run (layout : Layout) (p : Fin NPROC) : AlarmAction → AlarmM AlarmEvent
  | .user action => do
    let before ← reads id
    let event ← kernel (action.run layout p)
    modifies fun s => { s with slot := slotsAfter before event }
    pure (.user event)
  | .trap registers => do
    saveRegisters p registers
    pure (.trapped p)
  | .timer => do
    match ← alarmTick p with
    | none => pure (.ticked p)
    | some page => reads fun s => .delivered p page (s.sys.vm.mem page)
  | .sigalarm ticks handler => do
    sysSigalarm p ticks handler
    pure (.armed p ticks handler)
  | .sigreturn => do
    let page ← sysSigreturn layout p
    pure (.returned p page)
  | .trace mask => do
    sysTrace p mask
    pure (.traced p mask)
  | .kill pid => do
    let target ← Kernel.kill pid
    pure (.killed p pid target)

/-- May the process run the operation? Other parts of the kernel do not free saved trapframes.
`usertrap` checks the `killed` flag before the system calls of this module and before the alarm;
an operation on memory may be under way when the flag is set. -/
def AlarmAction.enabled (s : AlarmSys) (p : Fin NPROC) : AlarmAction → Prop
  | .user (.release page) => (UserAction.release page).enabled s.sys p ∧ page ∉ s.frames
  | .user action => action.enabled s.sys p
  | .trap _ => (s.sys.proc p).state = .alive
  | _ => (s.sys.proc p).state = .alive ∧ (s.slot p).killed = false

/-- The runs of the kernel and its processes with alarms. -/
def alarmSystem (layout : Layout) : StepSystem AlarmSys AlarmEvent where
  init s := (userSystem layout).init s.sys ∧ (s.slot = fun _ => .zero) ∧ s.frames = []
  step s event t := ∃ p, ∃ action : AlarmAction, action.enabled s p ∧
    action.run layout p s = .ok (event, t)

end Xv6Cos.Kernel
