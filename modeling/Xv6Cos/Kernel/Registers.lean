import Xv6Cos.Kernel.Alarm

/-!
# Registers on the way into the kernel and back (`kernel/trampoline.S`, `kernel/syscall.c`)

A process runs on its own registers until it traps. `uservec` saves them in the trapframe,
`usertrap` serves the trap, and `userret` loads what the trapframe then has. A trap is served as a
whole.
-/

namespace Xv6Cos.Kernel

open Program Transition Bytes

/-- The general registers. -/
inductive Reg
  | ra | sp | gp | tp | t0 | t1 | t2 | s0 | s1
  | a0 | a1 | a2 | a3 | a4 | a5 | a6 | a7
  | s2 | s3 | s4 | s5 | s6 | s7 | s8 | s9 | s10 | s11
  | t3 | t4 | t5 | t6
  deriving DecidableEq

/-- Where `struct trapframe` has the register. -/
def Reg.offset : Reg → ℕ
  | .ra => 40 | .sp => 48 | .gp => 56 | .tp => 64
  | .t0 => 72 | .t1 => 80 | .t2 => 88 | .s0 => 96 | .s1 => 104
  | .a0 => 112 | .a1 => 120 | .a2 => 128 | .a3 => 136
  | .a4 => 144 | .a5 => 152 | .a6 => 160 | .a7 => 168
  | .s2 => 176 | .s3 => 184 | .s4 => 192 | .s5 => 200 | .s6 => 208
  | .s7 => 216 | .s8 => 224 | .s9 => 232 | .s10 => 240 | .s11 => 248
  | .t3 => 256 | .t4 => 264 | .t5 => 272 | .t6 => 280

/-- Where `struct trapframe` has `epc`. -/
def EPC : ℕ := 24

/-- The registers in the order in which `uservec` saves them: `a0` comes last, since it first
holds the address of the trapframe. -/
def Reg.saved : List Reg :=
  [.ra, .sp, .gp, .tp, .t0, .t1, .t2, .s0, .s1, .a1, .a2, .a3, .a4, .a5, .a6, .a7,
    .s2, .s3, .s4, .s5, .s6, .s7, .s8, .s9, .s10, .s11, .t3, .t4, .t5, .t6, .a0]

/-- The registers of a process in user mode. -/
@[ext] structure Registers where
  pc : BitVec 64
  x : Reg → BitVec 64

/-- Overwrite a register. -/
def Registers.set (r : Registers) (reg : Reg) (value : BitVec 64) : Registers :=
  { r with x := Function.update r.x reg value }

/-- Save registers in a trapframe, one after the other. -/
def storeRegs (trapframe : ℕ) (r : Registers) : List Reg → VmM Unit
  | [] => pure ()
  | reg :: rest => do
    setReg trapframe reg.offset (r.x reg).toNat
    storeRegs trapframe r rest

/-- `uservec`, and `usertrap`'s `p->trapframe->epc = r_sepc()`. -/
def uservec (p : Fin NPROC) (r : Registers) : AlarmM Unit := do
  let trapframe ← trapframeOf p
  kernel (memory (storeRegs trapframe r Reg.saved))
  kernel (memory (setReg trapframe EPC r.pc.toNat))

/-- The registers that a trapframe has. -/
def frameRegs (frame : Page) : Registers where
  pc := BitVec.ofNat 64 (readLE frame EPC 8)
  x reg := BitVec.ofNat 64 (readLE frame reg.offset 8)

/-- `usertrapret` and `userret`. -/
def userret (p : Fin NPROC) : AlarmM Registers := do
  let trapframe ← trapframeOf p
  reads fun s => frameRegs (s.sys.vm.mem trapframe)

/-- The 64-bit register that holds an `int`. -/
def ofInt32 (value : BitVec 32) : BitVec 64 := value.signExtend 64

/-- The number of `sigalarm`. -/
def SYS_sigalarm : BitVec 32 := 26

/-- The number of `sigreturn`. -/
def SYS_sigreturn : BitVec 32 := 27

/-- `p->trapframe->a0 = ...`, unless the process has exited in the call. -/
def setResult (p : Fin NPROC) (value : BitVec 64) : AlarmM Unit := do
  if ← reads fun s => decide ((s.sys.proc p).state = .alive) then do
    let trapframe ← trapframeOf p
    kernel (memory (setReg trapframe (Reg.offset .a0) value.toNat))
  else pure ()

/-- `syscall`. What the calls other than `sigalarm` and `sigreturn` do, and the value they return,
are given. -/
def syscall (layout : Layout) (p : Fin NPROC) (other : Option AlarmAction) (value : BitVec 64) :
    AlarmM (Option AlarmEvent) := do
  let r ← userret p
  let num := (r.x .a7).setWidth 32
  if num = SYS_sigalarm then do
    let event ← (AlarmAction.sigalarm ((r.x .a0).setWidth 32) (r.x .a1).toNat).run layout p
    setResult p 0
    pure (some event)
  else if num = SYS_sigreturn then do
    let event ← AlarmAction.sigreturn.run layout p
    -- `sys_sigreturn` is of type `int`, and `syscall` takes its result for a `uint64`
    let restored ← userret p
    setResult p (ofInt32 ((restored.x .a0).setWidth 32))
    pure (some event)
  else match other with
    | none => do
      setResult p value
      pure none
    | some action => do
      let event ← action.run layout p
      setResult p value
      pure (some event)

/-- Why a process enters the kernel. -/
inductive Trap
  /-- A system call. -/
  | ecall (other : Option AlarmAction) (value : BitVec 64)
  /-- A timer interrupt. -/
  | timer
  /-- A page fault of a load or a store. -/
  | fault (action : UserAction)
  /-- An interrupt of a device. -/
  | device

/-- `usertrap`, after `epc` has been saved. -/
def Trap.run (layout : Layout) (p : Fin NPROC) : Trap → AlarmM (Option AlarmEvent)
  | .ecall other value => do
    let trapframe ← trapframeOf p
    let r ← userret p
    -- return to the instruction after the `ecall`
    kernel (memory (setReg trapframe EPC (r.pc + 4).toNat))
    syscall layout p other value
  | .timer => do
    let event ← AlarmAction.timer.run layout p
    pure (some event)
  | .fault action => do
    let event ← (AlarmAction.user action).run layout p
    pure (some event)
  | .device => pure none

/-- The kernel's state and the registers of each process in user mode. -/
structure RegSys where
  alarms : AlarmSys
  regs : Fin NPROC → Registers

/-- A program over this state. -/
abbrev RegM (α : Type) := Prog RegSys VmPanic α

/-- A program over the kernel's state, as one with registers. -/
def inKernel {α : Type} (m : AlarmM α) : RegM α :=
  within RegSys.alarms (fun s alarms => { s with alarms := alarms }) m

/-- The process returns to user mode, if it has not exited. -/
def resume (p : Fin NPROC) : RegM Unit := do
  if ← reads fun s => decide ((s.alarms.sys.proc p).state = .alive) then do
    let r ← inKernel (userret p)
    modifies fun s => { s with regs := Function.update s.regs p r }
  else pure ()

/-- The processes that return to user mode after a trap: after `fork` the child does too. -/
def resumed (p : Fin NPROC) : Option AlarmEvent → List (Fin NPROC)
  | some (.user (.forked _ np)) => [p, np]
  | _ => [p]

/-- Return to user mode. -/
def resumeAll : List (Fin NPROC) → RegM Unit
  | [] => pure ()
  | p :: rest => do
    resume p
    resumeAll rest

/-- What a process does. -/
inductive RegAction
  /-- It runs instructions that change registers. -/
  | compute (r : Registers)
  /-- It accesses memory, or the kernel does so for a system call. -/
  | access (action : UserAction)
  | trap (cause : Trap)

/-- What happened, with the registers that a trap found and those it left. -/
inductive RegEvent
  | computed (p : Fin NPROC)
  | accessed (p : Fin NPROC) (event : AlarmEvent)
  | trapped (p : Fin NPROC) (before : Registers) (event : Option AlarmEvent) (after : Registers)

/-- Run one operation. -/
def RegAction.run (layout : Layout) (p : Fin NPROC) : RegAction → RegM RegEvent
  | .compute r => do
    modifies fun s => { s with regs := Function.update s.regs p r }
    pure (.computed p)
  | .access action => do
    let event ← inKernel ((AlarmAction.user action).run layout p)
    pure (.accessed p event)
  | .trap cause => do
    let before ← reads fun s => s.regs p
    inKernel (uservec p before)
    let event ← inKernel (cause.run layout p)
    resumeAll (resumed p event)
    reads fun s => .trapped p before event (s.regs p)

/-- What a system call other than `sigalarm` and `sigreturn` may do. -/
def otherCall (s : AlarmSys) (p : Fin NPROC) : Option AlarmAction → Prop
  | none => True
  | some (.user action) => (AlarmAction.user action).enabled s p
  | some (.trace _) | some (.kill _) => True
  | some _ => False

/-- May the process do it? `usertrap` checks the `killed` flag before system calls and alarms.
`fork` and `exec` use the trapframe and are system calls. -/
def RegAction.enabled (s : AlarmSys) (p : Fin NPROC) : RegAction → Prop
  | .compute _ => (s.sys.proc p).state = .alive
  | .access .fork | .access (.exec _ _) => False
  | .access action => (AlarmAction.user action).enabled s p
  | .trap (.ecall other _) => (s.sys.proc p).state = .alive ∧ (s.slot p).killed = false ∧
      otherCall s p other
  | .trap .timer => (s.sys.proc p).state = .alive ∧ (s.slot p).killed = false
  | .trap (.fault (.store va byte)) => (AlarmAction.user (.store va byte)).enabled s p
  | .trap (.fault (.load va)) => (AlarmAction.user (.load va)).enabled s p
  | .trap (.fault _) => False
  | .trap .device => (s.sys.proc p).state = .alive

/-- The runs of the kernel and its processes with registers. -/
def registerSystem (layout : Layout) : StepSystem RegSys RegEvent where
  init s := (alarmSystem layout).init s.alarms
  step s event t := ∃ p, ∃ action : RegAction, action.enabled s.alarms p ∧
    action.run layout p s = .ok (event, t)

end Xv6Cos.Kernel
