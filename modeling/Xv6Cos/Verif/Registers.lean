import Xv6Cos.Spec.Registers
import Xv6Cos.Verif.AlarmRun

/-!
# `sigreturn` and the registers of the interrupted program

The registers go through the trapframe, its copy, and the trapframe again. All of them come back
as they were, except that `syscall` then stores the result of `sys_sigreturn` over `a0`: an `int`.
-/

namespace Xv6Cos.Verif

open Kernel Spec Program Transition Bytes Function AlarmAction

variable {a b : Reg} {value : BitVec 64} {other : Option AlarmAction} {cause : Trap}
  {actions : List RegAction}

section Frame

variable {r : Registers} {m m' : Page} {reg : Reg}

theorem Reg.mem_saved (reg : Reg) : reg ∈ Reg.saved := by
  cases reg <;> decide

/-- Registers lie within the trapframe, after its first five words and at multiples of 8. -/
theorem Reg.offset_bounds (reg : Reg) :
    40 ≤ reg.offset ∧ reg.offset + 8 ≤ TRAPFRAMESIZE ∧ reg.offset % 8 = 0 := by
  cases reg <;> decide

theorem Reg.offset_inj (same : a.offset = b.offset) : a = b :=
  List.inj_on_of_nodup_map (by decide : (Reg.saved.map Reg.offset).Nodup) (Reg.mem_saved a)
    (Reg.mem_saved b) same

/-- Two registers do not overlap in the trapframe. -/
theorem Reg.offset_apart (other : a ≠ b) : a.offset + 8 ≤ b.offset ∨ b.offset + 8 ≤ a.offset := by
  have distinct : a.offset ≠ b.offset := fun same => other (Reg.offset_inj same)
  have := Reg.offset_bounds a
  have := Reg.offset_bounds b
  omega

/-- The registers depend on the bytes of the trapframe only. -/
theorem frameRegs_congr (same : ∀ k < TRAPFRAMESIZE, m k = m' k) : frameRegs m = frameRegs m' := by
  ext1
  · show BitVec.ofNat 64 _ = BitVec.ofNat 64 _
    rw [readLE_congr fun k _ high => same k (by unfold EPC at high; unfold TRAPFRAMESIZE; omega)]
  · funext reg
    show BitVec.ofNat 64 _ = BitVec.ofNat 64 _
    have := Reg.offset_bounds reg
    rw [readLE_congr fun k _ high => same k (by omega)]

theorem ofNat_readLE_writeLE (a : ℕ) (value : BitVec 64) :
    BitVec.ofNat 64 (readLE (writeLE m a value.toNat 8) a 8) = value := by
  rw [readLE_writeLE value.isLt, BitVec.ofNat_toNat, BitVec.setWidth_eq]

/-- Overwriting a register with its own value, and only that, changes nothing. -/
theorem Registers.set_eq_self : r.set reg value = r ↔ value = r.x reg := by
  constructor
  · intro same
    have there : update r.x reg value reg = r.x reg := congrArg (Registers.x · reg) same
    rwa [update_self] at there
  · rintro rfl
    rw [Registers.set, update_eq_self]

theorem frameRegs_store (value : BitVec 64) :
    frameRegs (writeLE m reg.offset value.toNat 8) = (frameRegs m).set reg value := by
  have bounds := Reg.offset_bounds reg
  ext1
  · show BitVec.ofNat 64 _ = BitVec.ofNat 64 _
    rw [readLE_writeLE_of_disjoint (by unfold EPC; omega)]
  · funext other
    by_cases here : other = reg
    · rw [here]
      simp only [frameRegs, Registers.set, update_self]
      exact ofNat_readLE_writeLE ..
    · simp only [frameRegs, Registers.set, update_of_ne here]
      rw [readLE_writeLE_of_disjoint (Reg.offset_apart here)]

/-- Storing the program counter in the trapframe. -/
theorem frameRegs_epc (value : BitVec 64) :
    frameRegs (writeLE m EPC value.toNat 8) = { frameRegs m with pc := value } := by
  ext1
  · exact ofNat_readLE_writeLE ..
  · funext reg
    have bounds := Reg.offset_bounds reg
    show BitVec.ofNat 64 _ = BitVec.ofNat 64 _
    rw [readLE_writeLE_of_disjoint (by unfold EPC; omega)]

/-- The trapframe page after registers have been saved in it. -/
def storedRegs (r : Registers) (m : Page) (regs : List Reg) : Page :=
  regs.foldl (fun m reg => writeLE m reg.offset (r.x reg).toNat 8) m

theorem frameRegs_stored {regs : List Reg} :
    (frameRegs (storedRegs r m regs)).x reg =
      if reg ∈ regs then r.x reg else (frameRegs m).x reg := by
  induction regs generalizing m with
  | nil => simp [storedRegs]
  | cons first rest ih =>
    have later : storedRegs r m (first :: rest) =
        storedRegs r (writeLE m first.offset (r.x first).toNat 8) rest := rfl
    rw [later, ih, frameRegs_store]
    by_cases here : reg = first
    · simp [here, Registers.set]
    · simp [here, Registers.set]

/-- After `uservec` the trapframe has the registers. -/
theorem frameRegs_saved : frameRegs (writeLE (storedRegs r m Reg.saved) EPC r.pc.toNat 8) = r := by
  rw [frameRegs_epc]
  ext1
  · rfl
  · funext reg
    show (frameRegs (storedRegs r m Reg.saved)).x reg = r.x reg
    rw [frameRegs_stored, if_pos (Reg.mem_saved reg)]

end Frame

section Programs

variable {layout : Layout} {s t : AlarmSys} {p : Fin NPROC} {tf : ℕ} {pending : Pending}

/-- The state with a changed page. -/
def putFrame (s : AlarmSys) (tf : ℕ) (page : Page) : AlarmSys :=
  { s with sys := { s.sys with vm := s.sys.vm.setPage tf page } }

@[simp] theorem putFrame_mem (page : Page) : (putFrame s tf page).sys.vm.mem tf = page :=
  update_self ..

theorem putFrame_again (page page' : Page) :
    putFrame (putFrame s tf page) tf page' = putFrame s tf page' := by
  simp [putFrame, Vm.setPage]

section

variable (inv : PatientInv layout s pending) (used : (s.sys.proc p).state ≠ .unused)

include inv used

/-- A write to the trapframe of a process in use keeps the saved frames. -/
theorem PatientInv.put_frame (frame : (s.sys.proc p).trapframe = some tf)
    (page : Page) : PatientInv layout (putFrame s tf page) pending := by
  obtain ⟨kept, w, frames⟩ := inv.frames
  obtain ⟨r, tf', owns⟩ := frames.sys.owns used
  obtain rfl := Option.some.inj (owns.trapframe.symm.trans frame)
  have written := frames.sys.write_frame owns (Updates.setPage frames.sys.rep page owns.kernel)
  exact ⟨⟨kept, w, frames.slots written rfl fun _ => rfl⟩, ⟨inv.pids.next, inv.pids.unused⟩,
    inv.busy⟩

/-- A process in use has a trapframe. -/
theorem PatientInv.trapframe :
    ∃ tf, (s.sys.proc p).trapframe = some tf := by
  obtain ⟨kept, w, frames⟩ := inv.frames
  obtain ⟨r, tf, owns⟩ := frames.sys.owns used
  exact ⟨tf, owns.trapframe⟩

end

theorem trapframeOf_eq (frame : (s.sys.proc p).trapframe = some tf) :
    trapframeOf p s = .ok (tf, s) := by
  unfold trapframeOf
  rw [bind_of_ok (a := some tf) (t := s) (by rw [reads, frame])]
  rfl

theorem setReg_eq (offset value : ℕ) : kernel (memory (setReg tf offset value)) s =
    .ok ((), putFrame s tf (writeLE (s.sys.vm.mem tf) offset value 8)) := rfl

theorem userret_eq (frame : (s.sys.proc p).trapframe = some tf) :
    userret p s = .ok (frameRegs (s.sys.vm.mem tf), s) := by
  unfold userret
  rw [bind_of_ok (trapframeOf_eq frame)]
  rfl

/-- `userret` only reads. -/
theorem userret_same : Ends (userret p) s fun _ t => s = t := by
  have there : Ends (trapframeOf p) s fun _ t => s = t := by
    apply Ends.bind_reads
    split
    · exact .fail _
    · exact .pure rfl
  refine .bind there ?_
  rintro tf _ rfl
  exact .reads rfl

theorem storeRegs_eq (r : Registers) (regs : List Reg) (vm : Vm) : storeRegs tf r regs vm =
    .ok ((), vm.setPage tf (storedRegs r (vm.mem tf) regs)) := by
  induction regs generalizing vm with
  | nil =>
    show Except.ok ((), vm) = _
    rw [storedRegs, List.foldl_nil, Vm.setPage, update_eq_self]
  | cons first rest ih =>
    unfold storeRegs
    rw [bind_of_ok (show setReg tf first.offset (r.x first).toNat vm = _ from rfl), ih]
    simp [Vm.setPage, storedRegs]

/-- `uservec` leaves the registers in the trapframe. -/
theorem uservec_eq (frame : (s.sys.proc p).trapframe = some tf) (r : Registers) :
    ∃ page, uservec p r s = .ok ((), putFrame s tf page) ∧ frameRegs page = r := by
  refine ⟨writeLE (storedRegs r (s.sys.vm.mem tf) Reg.saved) EPC r.pc.toNat 8, ?_, frameRegs_saved⟩
  unfold uservec
  rw [bind_of_ok (trapframeOf_eq frame)]
  have stored : kernel (memory (storeRegs tf r Reg.saved)) s =
      .ok ((), putFrame s tf (storedRegs r (s.sys.vm.mem tf) Reg.saved)) := by
    simp only [kernel, memory, within, storeRegs_eq]
    rfl
  rw [bind_of_ok stored, setReg_eq, putFrame_mem, putFrame_again]

/-- The result of a system call goes to `a0`. -/
theorem setResult_eq (frame : (s.sys.proc p).trapframe = some tf)
    (alive : (s.sys.proc p).state = .alive) (value : BitVec 64) :
    setResult p value s = .ok ((), putFrame s tf
      (writeLE (s.sys.vm.mem tf) (Reg.offset .a0) value.toNat 8)) := by
  unfold setResult
  rw [bind_of_ok (a := true) (t := s) (by rw [reads, alive]; rfl), if_pos rfl,
    bind_of_ok (trapframeOf_eq frame), setReg_eq]

end Programs

section Traps

variable {layout : Layout} {s t : AlarmSys} {p : Fin NPROC} {tf : ℕ} {pending : Pending}
  {event : AlarmEvent}

/-- The registers that the frames of the alarms hold. -/
def heldRegs (pending : Pending) : Interrupted := fun p =>
  (pending p).map fun f => frameRegs f.contents

theorem heldRegs_update (f : Option SavedFrame) :
    heldRegs (update pending p f) =
      update (heldRegs pending) p (f.map fun f => frameRegs f.contents) :=
  Function.comp_update (Option.map fun f : SavedFrame => frameRegs f.contents) pending p f

/-- The two records agree after an operation. -/
theorem trackAlarm_held {before : Option Registers}
    (found : ∀ q page contents, event = .delivered q page contents →
      before = some (frameRegs contents)) :
    trackAlarm (heldRegs pending) before event = heldRegs (trackPending pending event) := by
  cases event with
  | delivered q page contents =>
    rw [trackAlarm, trackPending, heldRegs_update, found q page contents rfl]
    rfl
  | returned q page =>
    rw [trackAlarm, trackPending, heldRegs_update]
    rfl
  | user e =>
    cases e with
    | waited q addr result =>
      cases result with
      | reaped pp pid xstate =>
        rw [trackAlarm, trackPending, heldRegs_update]
        rfl
      | _ => rfl
    | _ => rfl
  | _ => rfl

theorem heldRegs_eq_none : heldRegs pending p = none ↔ pending p = none := Option.map_eq_none_iff

/-- An operation on memory has no label of an alarm. -/
theorem user_event (action : UserAction) :
    Ends ((AlarmAction.user action).run layout p) s fun event _ => ∃ e, event = .user e := by
  apply Ends.bind_reads
  refine .bind .trivial fun e t _ => ?_
  apply Ends.bind_modifies
  exact .pure ⟨e, rfl⟩

/-- What a timer interrupt is labelled. -/
theorem timer_event : Ends (AlarmAction.timer.run layout p) s fun event _ =>
    event = .ticked p ∨ ∃ page contents, event = .delivered p page contents := by
  refine .bind .trivial fun saved t _ => ?_
  cases saved with
  | none => exact .pure (.inl rfl)
  | some page => exact .reads (.inr ⟨page, _, rfl⟩)

/-- The result of a system call does not touch saved frames. -/
theorem setResult_ends (inv : PatientInv layout s pending) (value : BitVec 64) :
    Ends (setResult p value) s fun _ t => PatientInv layout t pending := by
  by_cases alive : (s.sys.proc p).state = .alive
  · have used : (s.sys.proc p).state ≠ .unused := by rw [alive]; nofun
    obtain ⟨tf, frame⟩ := inv.trapframe used
    intro _ t ran
    rw [setResult_eq frame alive] at ran
    cases ran
    exact inv.put_frame used frame _
  · unfold setResult
    apply Ends.bind_reads
    rw [if_neg (by simpa using alive)]
    exact .pure inv

/-- What a trap does to the saved frames, if it finds the registers `r`. -/
structure Serves (layout : Layout) (p : Fin NPROC) (pending : Pending) (r : Registers)
    (event : AlarmEvent) (t : AlarmSys) : Prop where
  keeps : Patient pending event → PatientInv layout t (trackPending pending event)
  found : ∀ q page contents, event = .delivered q page contents → r = frameRegs contents
  restores : ∀ q page f, event = .returned q page → pending p = some f →
    (t.sys.proc p).state = .alive ∧ ∃ tf, (t.sys.proc p).trapframe = some tf ∧
      frameRegs (t.sys.vm.mem tf) = (frameRegs f.contents).set .a0
        (ofInt32 (((frameRegs f.contents).x .a0).setWidth 32))

/-- What a trap does, with or without an operation. -/
def ServesTrap (layout : Layout) (p : Fin NPROC) (pending : Pending) (r : Registers)
    (event : Option AlarmEvent) (t : AlarmSys) : Prop :=
  match event with
  | none => PatientInv layout t pending
  | some event => Serves layout p pending r event t

section

variable (inv : PatientInv layout s pending) (r : Registers) (alive : (s.sys.proc p).state = .alive)
  (unharmed : (s.slot p).killed = false)

include inv r alive unharmed

/-- A system call that is neither `sigalarm` nor `sigreturn`. -/
theorem other_serves {action : AlarmAction}
    (allowed : otherCall s p (some action)) (value : BitVec 64) :
    Ends (action.run layout p >>= fun event => do
      setResult p value
      pure (some event)) s (ServesTrap layout p pending r) := by
  have enabled : action.enabled s p := by
    cases action with
    | user action => exact allowed
    | trace mask | kill pid => exact ⟨alive, unharmed⟩
    | _ => exact absurd allowed not_false
  have label : Ends (action.run layout p) s fun event _ =>
      (∃ e, event = .user e) ∨ (∃ mask, event = .traced p mask) ∨
        ∃ pid target, event = .killed p pid target := by
    cases action with
    | user action => exact (user_event action).mono fun _ _ user => .inl user
    | trace mask => exact .bind .trivial fun _ _ _ => .pure (.inr (.inl ⟨mask, rfl⟩))
    | kill pid => exact .bind .trivial fun target _ _ => .pure (.inr (.inr ⟨pid, target, rfl⟩))
    | _ => exact absurd allowed not_false
  intro result u ran
  obtain ⟨event, t, acted, later⟩ := bind_eq_ok ran
  obtain ⟨_, t', stored, done⟩ := bind_eq_ok later
  cases done
  refine ⟨fun patient => ?_, ?_, ?_⟩
  · exact setResult_ends (inv.step ⟨p, action, enabled, acted⟩ patient) value _ _ stored
  · rintro q page contents rfl
    rcases label _ _ acted with ⟨_, other⟩ | ⟨_, other⟩ | ⟨_, _, other⟩ <;> cases other
  · rintro q page f rfl
    rcases label _ _ acted with ⟨_, other⟩ | ⟨_, other⟩ | ⟨_, _, other⟩ <;> cases other

/-- `sigreturn` restores the registers of the frame, but for `a0`. -/
theorem sigreturn_serves :
    Ends (sigreturn.run layout p >>= fun event => do
      let restored ← userret p
      setResult p (ofInt32 ((restored.x .a0).setWidth 32))
      pure (some event)) s (ServesTrap layout p pending r) := by
  intro result u ran
  obtain ⟨event, t, acted, later⟩ := bind_eq_ok ran
  obtain ⟨restored, t₁, loaded, later⟩ := bind_eq_ok later
  obtain ⟨_, t₂, stored, done⟩ := bind_eq_ok later
  cases done
  have step : (alarmSystem layout).step s event t := ⟨p, .sigreturn, ⟨alive, unharmed⟩, acted⟩
  have label : Ends (sigreturn.run layout p) s fun event _ =>
      ∃ page, event = .returned p page :=
    .bind .trivial fun page _ _ => .pure ⟨page, rfl⟩
  obtain ⟨page, rfl⟩ := label _ _ acted
  obtain rfl := userret_same _ _ loaded
  refine ⟨fun patient => ?_, nofun, ?_⟩
  · exact setResult_ends (inv.step step patient) _ _ _ stored
  · intro q page' f _ here
    obtain ⟨kept, w, frames⟩ := inv.frames
    obtain ⟨-, returned⟩ := step_effect frames step f here
    obtain ⟨tf, frame, bytes⟩ := returned.restored
    have alive' : (t.sys.proc p).state = .alive := by
      rw [show t.sys.proc = s.sys.proc from (step_fields inv.pids step).table]
      exact alive
    rw [userret_eq frame] at loaded
    obtain ⟨rfl, -⟩ := Prod.mk.inj (Except.ok.inj loaded)
    rw [setResult_eq frame alive'] at stored
    cases stored
    refine ⟨alive', tf, frame, ?_⟩
    rw [putFrame_mem, frameRegs_store, frameRegs_congr bytes]

/-- `sigalarm` from outside a handler. -/
theorem sigalarm_serves (ticks : BitVec 32) (handler : ℕ) :
    Ends ((sigalarm ticks handler).run layout p >>= fun event => do
      setResult p 0
      pure (some event)) s (ServesTrap layout p pending r) := by
  intro result u ran
  obtain ⟨event, t, acted, later⟩ := bind_eq_ok ran
  obtain ⟨_, t', stored, done⟩ := bind_eq_ok later
  cases done
  have label : Ends ((sigalarm ticks handler).run layout p) s fun event _ =>
      event = .armed p ticks handler := .bind .trivial fun _ _ _ => .pure rfl
  obtain rfl := label _ _ acted
  refine ⟨fun patient => ?_, nofun, nofun⟩
  exact setResult_ends (inv.step ⟨p, .sigalarm ticks handler, ⟨alive, unharmed⟩, acted⟩
    patient) 0 _ _ stored

end

/-- A system call. -/
theorem syscall_serves (inv : PatientInv layout s pending)
    (r : Registers) (frame : (s.sys.proc p).trapframe = some tf)
    (alive : (s.sys.proc p).state = .alive) (unharmed : (s.slot p).killed = false)
    (allowed : otherCall s p other) (value : BitVec 64) :
    Ends (syscall layout p other value) s (ServesTrap layout p pending r) := by
  intro result u ran
  unfold syscall at ran
  rw [bind_of_ok (userret_eq frame)] at ran
  split at ran
  · exact sigalarm_serves inv r alive unharmed _ _ _ _ ran
  · split at ran
    · exact sigreturn_serves inv r alive unharmed _ _ ran
    · cases other with
      | none =>
        obtain ⟨_, t, stored, done⟩ := bind_eq_ok ran
        cases done
        exact setResult_ends inv value _ _ stored
      | some action => exact other_serves inv r alive unharmed allowed value _ _ ran

/-- A write to the trapframe leaves to system calls what they may do. -/
theorem otherCall_put {page : Page} :
    otherCall (putFrame s tf page) p other ↔ otherCall s p other := by
  unfold otherCall
  split
  · rfl
  · rename_i action
    cases action <;> rfl
  · rfl
  · rfl
  · rfl

theorem trap_serves (inv : PatientInv layout s pending) (frame : (s.sys.proc p).trapframe = some tf)
    (enabled : (RegAction.trap cause).enabled s p) :
    Ends (cause.run layout p) s (ServesTrap layout p pending (frameRegs (s.sys.vm.mem tf))) := by
  cases cause with
  | ecall other value =>
    obtain ⟨alive, unharmed, allowed⟩ := enabled
    have used : (s.sys.proc p).state ≠ .unused := by rw [alive]; nofun
    intro result u ran
    rw [Trap.run, bind_of_ok (trapframeOf_eq frame), bind_of_ok (userret_eq frame),
      bind_of_ok (setReg_eq ..)] at ran
    generalize page : writeLE (s.sys.vm.mem tf) EPC
      ((frameRegs (s.sys.vm.mem tf)).pc + 4).toNat 8 = after at ran
    exact syscall_serves (inv.put_frame used frame after) _ frame alive unharmed
      (otherCall_put.mpr allowed) value _ _ ran
  | timer =>
    obtain ⟨alive, unharmed⟩ := enabled
    intro result u ran
    obtain ⟨event, t, acted, done⟩ := bind_eq_ok ran
    cases done
    have step : (alarmSystem layout).step s event u := ⟨p, .timer, ⟨alive, unharmed⟩, acted⟩
    refine ⟨inv.step step, ?_, ?_⟩
    · rintro q page contents rfl
      obtain ⟨kept, w, frames⟩ := inv.frames
      obtain ⟨rfl, delivered⟩ := step_effect frames step
      obtain rfl : q = p := by
        rcases timer_event _ _ acted with other | ⟨_, _, other⟩ <;> cases other
        rfl
      obtain ⟨tf', frame', bytes⟩ := delivered.copied
      obtain rfl := Option.some.inj (frame.symm.trans frame')
      exact frameRegs_congr bytes
    · rintro q page f rfl
      rcases timer_event _ _ acted with other | ⟨_, _, other⟩ <;> cases other
  | fault action =>
    have allowed : (AlarmAction.user action).enabled s p := by
      cases action with
      | store | load => exact enabled
      | _ => exact absurd enabled not_false
    intro result u ran
    obtain ⟨event, t, acted, done⟩ := bind_eq_ok ran
    cases done
    refine ⟨inv.step ⟨p, .user action, allowed, acted⟩, ?_, ?_⟩
    · rintro q page contents rfl
      obtain ⟨_, other⟩ := user_event action _ _ acted
      cases other
    · rintro q page f rfl
      obtain ⟨_, other⟩ := user_event action _ _ acted
      cases other
  | device => exact .pure inv

end Traps

section Runs

variable {layout : Layout} {s t : RegSys} {p : Fin NPROC} {interrupted : Interrupted}
  {trace : List RegEvent} {event : RegEvent}

/-- The frames of the alarms hold the registers that they interrupted. -/
def RegsKept (layout : Layout) (s : RegSys) (interrupted : Interrupted) : Prop :=
  ∃ pending, PatientInv layout s.alarms pending ∧ interrupted = heldRegs pending

/-- A process returns to user mode with the registers of its trapframe. -/
theorem resume_eq {tf : ℕ} (alive : (s.alarms.sys.proc p).state = .alive)
    (frame : (s.alarms.sys.proc p).trapframe = some tf) :
    resume p s = .ok ((), { s with
      regs := update s.regs p (frameRegs (s.alarms.sys.vm.mem tf)) }) := by
  unfold resume
  rw [bind_of_ok (a := true) (t := s) (by rw [reads, alive]; rfl), if_pos rfl]
  have loaded : inKernel (userret p) s = .ok (frameRegs (s.alarms.sys.vm.mem tf), s) := by
    rw [inKernel, within, userret_eq frame]
  rw [bind_of_ok loaded]
  rfl

/-- Returning to user mode changes registers only. -/
theorem resume_alarms : Ends (resume p) s fun _ t => t.alarms = s.alarms := by
  apply Ends.bind_reads
  split
  · have loads : Ends (inKernel (userret p)) s fun _ t => t.alarms = s.alarms := by
      exact Ends.within userret_same fun _ _ same => same.symm
    refine .bind loads fun r u same => ?_
    exact .modifies same
  · exact .pure rfl

theorem resumeAll_alarms (procs : List (Fin NPROC)) :
    Ends (resumeAll procs) s fun _ t => t.alarms = s.alarms := by
  induction procs generalizing s with
  | nil => exact .pure rfl
  | cons p rest ih =>
    refine .bind resume_alarms fun _ u same => ?_
    exact ih.mono fun _ t later => later.trans same

/-- A program in the kernel runs on the state of the kernel. -/
theorem inKernel_ok {α : Type} {m : AlarmM α} {a : α} (ran : inKernel m s = .ok (a, t)) :
    m s.alarms = .ok (a, t.alarms) := by
  have inner : Ends m s.alarms fun a alarms => m s.alarms = .ok (a, alarms) := fun _ _ ran => ran
  have here : Ends (inKernel m) s fun a t => m s.alarms = .ok (a, t.alarms) :=
    inner.within fun _ _ ran => ran
  exact here a t ran

/-- What a trap found and did. -/
theorem trap_result {pending : Pending} (inv : PatientInv layout s.alarms pending)
    (enabled : (RegAction.trap cause).enabled s.alarms p)
    (ran : (RegAction.trap cause).run layout p s = .ok (event, t)) :
    ∃ e u, event = .trapped p (s.regs p) e (t.regs p) ∧
      ServesTrap layout p pending (s.regs p) e u.alarms ∧
      resumeAll (resumed p e) u = .ok ((), t) := by
  have alive : (s.alarms.sys.proc p).state = .alive := by
    cases cause with
    | ecall | timer => exact enabled.1
    | fault action =>
      cases action with
      | store | load => exact enabled
      | _ => exact absurd enabled not_false
    | device => exact enabled
  have used : (s.alarms.sys.proc p).state ≠ .unused := by rw [alive]; nofun
  obtain ⟨tf, frame⟩ := inv.trapframe used
  obtain ⟨page, saved, held⟩ := uservec_eq frame (s.regs p)
  obtain ⟨_, s₁, entered, later⟩ := bind_eq_ok ran
  cases entered
  obtain ⟨_, s₂, stored, later⟩ := bind_eq_ok later
  have stored := inKernel_ok stored
  obtain ⟨e, u, served, later⟩ := bind_eq_ok later
  have served := inKernel_ok served
  obtain ⟨_, v, back, done⟩ := bind_eq_ok later
  cases done
  obtain ⟨-, there⟩ := Prod.mk.inj (Except.ok.inj (saved.symm.trans stored))
  refine ⟨e, u, rfl, ?_, back⟩
  have allowed : (RegAction.trap cause).enabled s₂.alarms p := by
    rw [← there]
    cases cause with
    | ecall other value => exact ⟨enabled.1, enabled.2.1, otherCall_put.mpr enabled.2.2⟩
    | timer => exact enabled
    | fault action =>
      cases action with
      | store | load => exact enabled
      | _ => exact absurd enabled not_false
    | device => exact enabled
  rw [← there] at allowed served
  have serves := trap_serves (inv.put_frame used frame page) frame allowed e u.alarms served
  rwa [putFrame_mem, held] at serves

/-- A step keeps the registers of interrupted programs. -/
theorem RegsKept.step (kept : RegsKept layout s interrupted)
    (step : (registerSystem layout).step s event t) (patient : PatientHandlers interrupted event) :
    RegsKept layout t (trackInterrupted interrupted event) := by
  obtain ⟨pending, inv, rfl⟩ := kept
  obtain ⟨p, action, enabled, ran⟩ := step
  cases action with
  | compute r =>
    cases ran
    exact ⟨pending, inv, rfl⟩
  | access action =>
    obtain ⟨e, u, acted, done⟩ := bind_eq_ok ran
    cases done
    have acted := inKernel_ok acted
    have allowed : (AlarmAction.user action).enabled s.alarms p := by
      cases action <;> first | exact enabled | exact absurd enabled not_false
    obtain ⟨e, rfl⟩ := user_event action _ _ acted
    refine ⟨_, inv.step ⟨p, .user action, allowed, acted⟩ trivial, ?_⟩
    exact trackAlarm_held nofun
  | trap cause =>
    obtain ⟨e, u, rfl, serves, back⟩ := trap_result inv enabled ran
    have same := resumeAll_alarms _ _ _ back
    cases e with
    | none => exact ⟨pending, same ▸ serves, rfl⟩
    | some e =>
      have calm : Patient pending e := by
        cases e with
        | armed q ticks handler => exact heldRegs_eq_none.mp patient
        | returned q page => exact fun idle => patient (heldRegs_eq_none.mpr idle)
        | _ => trivial
      refine ⟨_, same ▸ serves.keeps calm, trackAlarm_held fun q page contents delivered => ?_⟩
      rw [serves.found q page contents delivered]

/-- In every run the frames hold the registers. -/
theorem regs_kept (run : (interruptedRuns layout).Exec trace (s, interrupted)) :
    RegsKept layout s interrupted := by
  refine run.invariant (fun _ state => RegsKept layout state.1 state.2) ?_ ?_
  · rintro ⟨s, interrupted⟩ ⟨start, idle⟩
    obtain rfl : interrupted = fun _ => none := idle
    obtain ⟨w, frames⟩ := alarm_init start
    exact ⟨fun _ => none, ⟨⟨_, w, frames⟩, init_pids start.1, fun p waiting => absurd rfl waiting⟩,
      rfl⟩
  · rintro trace ⟨s, interrupted⟩ event ⟨t, interrupted'⟩ kept ⟨step, track, patient⟩
    rw [show interrupted' = _ from track]
    exact kept.step step patient

/-- After `sigreturn` the process has the registers and the program counter that the alarm
interrupted, except that `a0` has been converted to an `int` and back. -/
theorem sigreturn_registers {page : ℕ} {saved before after : Registers}
    (run : (interruptedRuns layout).Exec trace (s, interrupted))
    (waiting : interrupted p = some saved)
    (step : (registerSystem layout).step s (.trapped p before (some (.returned p page)) after) t) :
    t.regs p = after ∧ after = saved.set .a0 (ofInt32 ((saved.x .a0).setWidth 32)) ∧
      (after = saved ↔ FitsInt (saved.x .a0)) := by
  obtain ⟨pending, inv, rfl⟩ := regs_kept run
  obtain ⟨f, here, rfl⟩ := Option.map_eq_some_iff.mp waiting
  have restored : t.regs p = after ∧ after = (frameRegs f.contents).set .a0
      (ofInt32 (((frameRegs f.contents).x .a0).setWidth 32)) := by
    obtain ⟨q, action, enabled, ran⟩ := step
    cases action with
    | compute r => cases ran
    | access action =>
      obtain ⟨e, u, acted, done⟩ := bind_eq_ok ran
      cases done
    | trap cause =>
      obtain ⟨e, u, same, serves, back⟩ := trap_result inv enabled ran
      cases same
      obtain ⟨alive, tf, frame, regs⟩ := serves.restores p page f rfl here
      obtain ⟨_, v, resumed, done⟩ := bind_eq_ok back
      cases done
      rw [resume_eq alive frame] at resumed
      cases resumed
      simp only [update_self]
      exact ⟨trivial, regs⟩
  refine ⟨restored.1, restored.2, ?_⟩
  rw [restored.2]
  exact Registers.set_eq_self

section Replay

instance callAllowed : (other : Option AlarmAction) → Decidable (otherCall s.alarms p other)
  | none => isTrue trivial
  | some (.user action) =>
    inferInstanceAs (Decidable ((AlarmAction.user action).enabled s.alarms p))
  | some (.trace _) | some (.kill _) => isTrue trivial
  | some (.trap _) | some .timer | some (.sigalarm ..) | some .sigreturn => isFalse not_false

instance regEnabled : (action : RegAction) → Decidable (action.enabled s.alarms p)
  | .compute _ | .trap .device => inferInstanceAs (Decidable ((s.alarms.sys.proc p).state = .alive))
  | .access action => by
    unfold RegAction.enabled
    split <;> infer_instance
  | .trap (.ecall other _) => inferInstanceAs (Decidable (_ ∧ _ ∧ otherCall s.alarms p other))
  | .trap .timer => inferInstanceAs (Decidable (_ ∧ _))
  | .trap (.fault action) => by
    unfold RegAction.enabled
    split <;> infer_instance

instance patientHandlers : Decidable (PatientHandlers interrupted event) := by
  unfold PatientHandlers
  split <;> infer_instance

/-- An operation of a process that may run it and does not panic. -/
def tryReg (layout : Layout) (p : Fin NPROC) (s : RegSys) (action : RegAction) :
    Option (RegEvent × RegSys) :=
  if action.enabled s.alarms p then (action.run layout p s).toOption else none

theorem step_of_tryReg {action : RegAction} (tried : tryReg layout p s action = some (event, t)) :
    (registerSystem layout).step s event t := by
  obtain ⟨enabled, ran⟩ := ok_of_try tried
  exact ⟨p, action, enabled, ran⟩

/-- The registers with these values in `a0`, `a1` and `a7`. -/
def callRegs (a0 a1 a7 : BitVec 64) : Registers :=
  (((⟨0x40, fun _ => 7⟩ : Registers).set .a0 a0).set .a1 a1).set .a7 a7

/-- A program arms an alarm and goes on with a value in `a0`; the alarm is delivered; the handler
is about to call `sigreturn`. -/
def alarmProgram (value : BitVec 64) : List RegAction :=
  [.compute (callRegs 1 0x100 26), .trap (.ecall none 0), .compute (callRegs value 0 0),
    .trap .timer, .compute (callRegs 5 6 27)]

/-- In the state reached, an alarm has interrupted a program with this value in `a0`, and
`sigreturn` leaves registers that pass the check. -/
def returnsWith (layout : Layout) (value : BitVec 64) (check : Registers → Bool) :
    (RegSys × Interrupted) × List RegEvent → Bool := fun ((s, interrupted), _) =>
  (interrupted s.alarms.sys.initproc).any (fun saved => saved.x .a0 == value) &&
    match tryReg layout s.alarms.sys.initproc s (.trap (.ecall none 0)) with
    | some (.trapped p _ (some (.returned q _)) after, _) =>
      p == s.alarms.sys.initproc && q == p && check after
    | _ => false

theorem exists_return (layout : Layout) (actions : List RegAction) (value : BitVec 64)
    (check : Registers → Bool)
    (checked : bootsTo layout 0 [1, 2, 3] (fun u => (StepSystem.replay (StepSystem.recordNext
      (tryReg layout u.initproc) (fun _ => trackInterrupted) fun _ => PatientHandlers)
      (⟨⟨u, fun _ => .zero, []⟩, fun _ => ⟨0, fun _ => 0⟩⟩, fun _ => none) actions).any
      fun result => returnsWith layout value check (result.1, [])) = true) :
    ∃ trace s interrupted p saved before page after t,
    (interruptedRuns layout).Exec trace (s, interrupted) ∧ interrupted p = some saved ∧
    (registerSystem layout).step s (.trapped p before (some (.returned p page)) after) t ∧
    saved.x .a0 = value ∧ check after = true := by
  have initial : ∀ u, (userSystem layout).init u → (registerSystem layout).init
      ⟨⟨u, fun _ => .zero, []⟩, fun _ => ⟨0, fun _ => 0⟩⟩ := fun _ booted => ⟨booted, rfl, rfl⟩
  obtain ⟨trace, s, interrupted, run, checked⟩ := booted_replay _ initial (tryReg layout)
    (fun _ _ _ _ _ tried => step_of_tryReg tried) actions
    (fun state => returnsWith layout value check (state, [])) checked
  rw [returnsWith, Bool.and_eq_true] at checked
  obtain ⟨waiting, checked⟩ := checked
  cases here : interrupted s.alarms.sys.initproc with
  | none =>
    rw [here] at waiting
    contradiction
  | some saved =>
    rw [here] at waiting
    split at checked
    · rename_i p before q page after t tried
      simp only [Bool.and_eq_true, beq_iff_eq] at checked
      obtain ⟨⟨rfl, rfl⟩, good⟩ := checked
      exact ⟨trace, s, interrupted, _, saved, before, page, after, t, run, here,
        step_of_tryReg tried,
        eq_of_beq waiting, good⟩
    · contradiction

end Replay

/-- The first process returns from an alarm with all its registers. -/
theorem sigreturn_registers_small : ∃ trace s interrupted p saved before page after t,
    (interruptedRuns alarmLayout).Exec trace (s, interrupted) ∧ interrupted p = some saved ∧
    (registerSystem alarmLayout).step s (.trapped p before (some (.returned p page)) after) t ∧
    t.regs p = saved := by
  obtain ⟨trace, s, interrupted, p, saved, before, page, after, t, run, waiting, step, value, -⟩ :=
    exists_return alarmLayout (alarmProgram 0xac) 0xac (fun _ => true) (by decide +kernel)
  obtain ⟨here, -, exactly⟩ := sigreturn_registers run waiting step
  have fits : FitsInt (saved.x .a0) := by
    rw [value]
    decide
  exact ⟨trace, s, interrupted, p, saved, before, page, after, t, run, waiting, step,
    here.trans (exactly.mpr fits)⟩

/-- A program with `2 ^ 32` in `a0` has 0 there after the alarm. -/
theorem sigreturn_loses_bits : ∃ trace s interrupted p saved before page after t,
    (interruptedRuns alarmLayout).Exec trace (s, interrupted) ∧ interrupted p = some saved ∧
    (registerSystem alarmLayout).step s (.trapped p before (some (.returned p page)) after) t ∧
    saved.x .a0 = 0x100000000 ∧ after.x .a0 = 0 := by
  obtain ⟨trace, s, interrupted, p, saved, before, page, after, t, run, waiting,
    step, value, zero⟩ :=
    exists_return alarmLayout (alarmProgram 0x100000000) 0x100000000
      (fun after => after.x .a0 == 0) (by decide +kernel)
  exact ⟨trace, s, interrupted, p, saved, before, page, after, t, run, waiting, step, value,
    eq_of_beq zero⟩

end Runs

end Xv6Cos.Verif
