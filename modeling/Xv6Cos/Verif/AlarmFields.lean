import Xv6Cos.Verif.Boot
import Xv6Cos.Verif.ProcStates
import Xv6Cos.Spec.Alarm

/-!
# The fields of a process

What every operation does to the entries of the process table and to the fields that signals and
tracing use, whatever it does to memory; and what follows for the countdown of an alarm.
-/

namespace Xv6Cos.Verif

open Kernel Spec Program Transition Function Ends

variable {layout : Layout} {s t : AlarmSys} {p : Fin NPROC} {trace : List AlarmEvent}
  {event : AlarmEvent} {pending : Pending} {β : Type}

section Fields

/-- Nothing but memory has changed. -/
structure OnlyMemory (s t : AlarmSys) : Prop where
  proc : t.sys.proc = s.sys.proc
  nextpid : t.sys.nextpid = s.sys.nextpid
  slot : t.slot = s.slot

/-- The pids stay as they are. -/
theorem OnlyMemory.pids (only : OnlyMemory s t) (pids : PidsOk s.sys) : PidsOk t.sys := by
  constructor
  · rw [only.nextpid]
    exact pids.next
  · rw [only.proc]
    exact pids.unused

/-- A program over memory, then go on. -/
theorem bind_memory_only {α : Type} {m : VmM α} {next : α → AlarmM β}
    {last : β → AlarmSys → Prop} (rest : ∀ a u, OnlyMemory s u → Ends (next a) u last) :
    Ends (kernel (memory m) >>= next) s last := by
  have inside : Ends (memory m) s.sys fun _ sys =>
      sys.proc = s.sys.proc ∧ sys.nextpid = s.sys.nextpid :=
    within .trivial fun _ _ _ => ⟨rfl, rfl⟩
  have first : Ends (kernel (memory m)) s fun _ u => OnlyMemory s u :=
    within inside fun _ _ same => ⟨same.1, same.2, rfl⟩
  exact .bind first rest

/-- The trapframe of a process, then go on. -/
theorem bind_trapframe_same {next : ℕ → AlarmM β} {last : β → AlarmSys → Prop}
    (rest : ∀ tf, (s.sys.proc p).trapframe = some tf → Ends (next tf) s last) :
    Ends (trapframeOf p >>= next) s last := by
  have first : Ends (trapframeOf p) s fun tf u => (s.sys.proc p).trapframe = some tf ∧ u = s := by
    unfold trapframeOf
    apply bind_reads
    cases frame : (s.sys.proc p).trapframe with
    | none => exact .fail _
    | some tf => exact .pure ⟨rfl, rfl⟩
  refine .bind first ?_
  rintro tf u ⟨frame, rfl⟩
  exact rest tf frame

/-- `allocproc` finds an unused entry. -/
theorem first_unused {u : Sys} {np : Fin NPROC}
    (found : ((List.finRange NPROC).find? fun p => (u.proc p).state = .unused) = some np) :
    (u.proc np).state = .unused := by
  simpa using List.find?_some found

/-- The operations on memory leave the alarm of a process in use alone. -/
theorem slotsAfter_alarm (e : UserEvent) (q : Fin NPROC) : ∃ killed mask flag,
    slotsAfter s e q =
        { s.slot q with killed := killed, traceMask := mask, alarmFlag := flag } ∧
      ((s.sys.proc q).state ≠ .unused →
        (∀ p np, e = .forked p np → (s.sys.proc np).state = .unused) →
        flag = (s.slot q).alarmFlag) := by
  have one : ∀ (np : Fin NPROC) (killed : Bool) (mask : BitVec 32) (flag : Bool),
      ((s.sys.proc np).state ≠ .unused →
        (∀ p np, e = .forked p np → (s.sys.proc np).state = .unused) →
        flag = (s.slot np).alarmFlag) →
      ∃ killed' mask' flag', update s.slot np
          { s.slot np with killed := killed, traceMask := mask, alarmFlag := flag } q =
        { s.slot q with killed := killed', traceMask := mask', alarmFlag := flag' } ∧
      ((s.sys.proc q).state ≠ .unused →
        (∀ p np, e = .forked p np → (s.sys.proc np).state = .unused) →
        flag' = (s.slot q).alarmFlag) := by
    intro np killed mask flag same
    by_cases here : q = np
    · rw [here, update_self]
      exact ⟨killed, mask, flag, rfl, same⟩
    · rw [update_of_ne here]
      exact ⟨_, _, _, rfl, fun _ _ => rfl⟩
  unfold slotsAfter
  split
  · rename_i p np
    exact one np _ _ _ fun used fresh => absurd (fresh p np rfl) used
  · cases search : (List.finRange NPROC).find? fun p => (s.sys.proc p).state = .unused with
    | none => exact ⟨_, _, _, rfl, fun _ _ => rfl⟩
    | some np => exact one np _ _ _ fun used _ => absurd (first_unused search) used
  · exact one _ _ _ _ fun _ _ => rfl
  · exact one _ _ _ _ fun _ _ => rfl
  · exact one _ _ _ _ fun _ _ => rfl
  · exact ⟨_, _, _, rfl, fun _ _ => rfl⟩

/-- The process table after a step, by its label. -/
def TableAfter (s t : AlarmSys) : AlarmEvent → Prop
  | .user e => TableStep s.sys e t.sys
  | _ => t.sys.proc = s.sys.proc

/-- The fields after a step, by its label. -/
def FieldsAfter (s t : AlarmSys) : AlarmEvent → Prop
  | .user e => t.slot = slotsAfter s e
  | .trapped _ => t.slot = s.slot
  | .ticked p => (s.sys.proc p).state = .alive ∧
      ¬((s.slot p).alarmFlag = false ∧ (s.slot p).alarmTicksLeft = 1) ∧
      t.slot = update s.slot p { s.slot p with
        alarmTicksLeft := if (s.slot p).alarmFlag then (s.slot p).alarmTicksLeft
          else (s.slot p).alarmTicksLeft - 1 }
  | .delivered p page _ => (s.sys.proc p).state = .alive ∧
      ((s.slot p).alarmFlag = false ∧ (s.slot p).alarmTicksLeft = 1) ∧
      Enters t p (s.slot p).alarmHandler ∧ t.slot = update s.slot p { s.slot p with
        alarmFlag := true, alarmSavedTf := some page, alarmTicksLeft := (s.slot p).alarmTicks }
  | .armed p ticks handler =>
    (s.sys.proc p).state = .alive ∧ t.slot = update s.slot p { s.slot p with
      alarmHandler := handler, alarmTicks := ticks, alarmTicksLeft := ticks, alarmFlag := false }
  | .returned p _ => t.slot = update s.slot p { s.slot p with alarmFlag := false }
  | .traced p mask => t.slot = update s.slot p { s.slot p with traceMask := mask }
  | .killed _ pid _ => t.slot = match s.named pid with
    | none => s.slot
    | some q => update s.slot q { s.slot q with killed := true }

/-- The process table and the fields after a step. -/
structure FieldStep (s : AlarmSys) (event : AlarmEvent) (t : AlarmSys) : Prop where
  pids : PidsOk t.sys
  table : TableAfter s t event
  fields : FieldsAfter s t event

/-- Setting the program counter of the trapframe. -/
theorem setReg_enters (tf handler : ℕ) : Ends (kernel (memory (setReg tf 24 handler))) s fun _ u =>
    OnlyMemory s u ∧ ∃ page, u.sys.vm.mem tf = Bytes.writeLE page 24 handler 8 := by
  rintro _ u ⟨⟩
  exact ⟨⟨rfl, rfl, rfl⟩, _, update_self ..⟩

/-- The alarm part of a timer interrupt. -/
theorem alarmTick_fields (pids : PidsOk s.sys) (alive : (s.sys.proc p).state = .alive) :
    Ends (alarmTick p) s fun saved t => match saved with
    | none => FieldStep s (.ticked p) t
    | some page => ∀ contents, FieldStep s (.delivered p page contents) t := by
  unfold alarmTick
  apply bind_reads
  cases flag : (s.slot p).alarmFlag with
  | true =>
    refine .pure ⟨pids, rfl, alive, ?_, ?_⟩
    · rw [flag]
      exact fun due => Bool.noConfusion due.1
    · rw [if_pos flag]
      exact (update_eq_self p s.slot).symm
  | false =>
    simp only [Bool.false_eq_true, ↓reduceIte]
    apply bind_modifies
    by_cases due : (s.slot p).alarmTicksLeft = 1
    · have zero : (s.slot p).alarmTicksLeft - 1 = 0 := by rw [due]; rfl
      rw [if_neg (not_not.mpr zero)]
      apply bind_memory_only
      intro taken s₁ only₁
      cases taken with
      | none => exact .fail _
      | some page =>
        apply bind_trapframe_same
        intro tf frame
        apply bind_memory_only
        intro _ s₂ only₂
        apply bind_modifies
        refine .bind (setReg_enters tf _) ?_
        rintro _ s₃ ⟨only₃, page', enters⟩
        apply bind_modifies
        have proc : s₃.sys.proc = s.sys.proc := only₃.proc.trans (only₂.proc.trans only₁.proc)
        have pids₃ := only₃.pids (only₂.pids (only₁.pids pids))
        rw [only₁.proc] at frame
        refine .pure fun contents => ⟨⟨pids₃.next, pids₃.unused⟩, proc, alive, ⟨flag, due⟩,
          ⟨tf, page', (congrArg (fun procs => (procs p).trapframe) proc).trans frame, enters⟩, ?_⟩
        show s₃.slot = _
        rw [only₃.slot, only₂.slot, only₁.slot]
        exact update_idem ..
    · have more : (s.slot p).alarmTicksLeft - 1 ≠ 0 := fun zero => due (by bv_omega)
      rw [if_pos more]
      refine .pure ⟨pids, rfl, alive, fun both => due both.2, ?_⟩
      simp [flag]

/-- The fields after `sigreturn`. -/
theorem sysSigreturn_fields (pids : PidsOk s.sys) : Ends (sysSigreturn layout p) s fun page t =>
    FieldStep s (.returned p page) t := by
  unfold sysSigreturn
  apply bind_reads
  apply bind_trapframe_same
  rintro tf -
  cases saved : (s.slot p).alarmSavedTf with
  | none => exact .fail _
  | some page =>
    apply bind_memory_only
    intro _ s₁ only₁
    apply bind_memory_only
    intro _ s₂ only₂
    apply bind_modifies
    apply bind_modifies
    have proc : s₂.sys.proc = s.sys.proc := only₂.proc.trans only₁.proc
    have pids₂ := only₂.pids (only₁.pids pids)
    have slots : update s₂.slot p { s.slot p with alarmFlag := false } =
        update s.slot p { s.slot p with alarmFlag := false } := by
      rw [only₂.slot, only₁.slot]
    refine .pure ?_
    simp only
    rw [← saved]
    split
    · exact ⟨⟨pids₂.next, pids₂.unused⟩, proc, slots⟩
    · exact ⟨⟨pids₂.next, pids₂.unused⟩, proc, slots⟩

/-- What a step does to the process table and the fields. -/
theorem step_fields (pids : PidsOk s.sys) (step : (alarmSystem layout).step s event t) :
    FieldStep s event t := by
  obtain ⟨p, action, enabled, ran⟩ := step
  suffices ends : Ends (action.run layout p) s (FieldStep s) from ends event t ran
  cases action with
  | user action =>
    have allowed : action.enabled s.sys p := by
      cases action with
      | release page => exact enabled.1
      | _ => exact enabled
    apply bind_reads
    have first : Ends (kernel (action.run layout p)) s fun e u => TableStep s.sys e u.sys :=
      within (action_table pids action allowed) fun _ _ table => table
    refine .bind first fun e u table => ?_
    apply bind_modifies
    exact .pure ⟨table.pids, table, rfl⟩
  | trap registers =>
    simp only [AlarmAction.run, saveRegisters, bind_assoc]
    apply bind_trapframe_same
    rintro tf -
    apply bind_memory_only
    intro _ u only
    exact .pure ⟨only.pids pids, only.proc, only.slot⟩
  | timer =>
    refine .bind (alarmTick_fields pids enabled.1) fun saved u holds => ?_
    cases saved with
    | none => exact .pure holds
    | some page => exact .reads (holds _)
  | sigreturn => exact .bind (sysSigreturn_fields pids) fun _ _ holds => .pure holds
  | sigalarm ticks handler => exact .pure ⟨pids, rfl, enabled.1, rfl⟩
  | trace mask => exact .pure ⟨pids, rfl, rfl⟩
  | kill pid =>
    simp only [AlarmAction.run, kill, bind_assoc]
    apply bind_reads
    cases hit : s.named pid with
    | none | some => exact .pure ⟨pids, rfl, by rw [FieldsAfter, hit]⟩

/-- Only the delivery of an alarm changes where the trapframe of a process is saved. -/
theorem FieldStep.saved (after : FieldStep s event t)
    (other : ∀ p page contents, event ≠ .delivered p page contents) (q : Fin NPROC) :
    (t.slot q).alarmSavedTf = (s.slot q).alarmSavedTf := by
  have fields := after.fields
  have one : ∀ (p : Fin NPROC) (slot : Slot), t.slot = update s.slot p slot →
      slot.alarmSavedTf = (s.slot p).alarmSavedTf →
      (t.slot q).alarmSavedTf = (s.slot q).alarmSavedTf := by
    intro p slot slots same
    rw [slots]
    by_cases here : q = p
    · rw [here, update_self, same]
    · rw [update_of_ne here]
  cases event with
  | user e =>
    obtain ⟨killed, mask, flag, slot, -⟩ := slotsAfter_alarm (s := s) e q
    rw [show t.slot = slotsAfter s e from fields, slot]
  | trapped p => rw [show t.slot = s.slot from fields]
  | ticked p => exact one p _ fields.2.2 rfl
  | delivered p page contents => exact absurd rfl (other p page contents)
  | armed p ticks handler => exact one p _ fields.2 rfl
  | returned p | traced p => exact one p _ fields rfl
  | killed p pid target =>
    rw [FieldsAfter] at fields
    split at fields
    · rw [fields]
    · exact one _ _ fields rfl

end Fields

section Replay

instance : (action : AlarmAction) → Decidable (action.enabled s p)
  | .user (.release _) => inferInstanceAs (Decidable ((_ ∧ _) ∧ _))
  | .user .fork | .user (.exec ..) | .user (.growproc _) | .user (.store ..) | .user (.load _)
  | .user (.copyout ..) | .user (.copyin ..) | .user (.exit _) | .user (.wait _) | .user .hold
  | .trap _ => inferInstanceAs (Decidable ((s.sys.proc p).state = .alive))
  | .timer | .sigalarm .. | .sigreturn | .trace _ | .kill _ =>
    inferInstanceAs (Decidable ((s.sys.proc p).state = .alive ∧ (s.slot p).killed = false))

instance : Decidable (Orderly s pending event) := by
  unfold Orderly
  split <;> infer_instance

instance : Decidable (Patient pending event) := by
  unfold Patient
  split <;> infer_instance

/-- An operation of a process that may run it and does not panic. -/
def tryAlarm (layout : Layout) (p : Fin NPROC) (s : AlarmSys) (action : AlarmAction) :
    Option (AlarmEvent × AlarmSys) :=
  if action.enabled s p then (action.run layout p s).toOption else none

/-- An operation that succeeds is a step. -/
theorem step_of_try {action : AlarmAction} (tried : tryAlarm layout p s action = some (event, t)) :
    (alarmSystem layout).step s event t := by
  obtain ⟨enabled, ran⟩ := ok_of_try tried
  exact ⟨p, action, enabled, ran⟩

/-- The first process takes these actions, each of which meets the condition. -/
theorem exists_alarms {ρ : Type} (start : ρ) (track : AlarmSys → ρ → AlarmEvent → ρ)
    (condition : AlarmSys → ρ → AlarmEvent → Prop)
    [∀ s record event, Decidable (condition s record event)] (layout : Layout)
    (actions : List AlarmAction) (check : AlarmSys × ρ → Bool)
    (checked : bootsTo layout 0 [1, 2, 3] (fun u => (StepSystem.replay (StepSystem.recordNext
      (tryAlarm layout u.initproc) track condition) (⟨u, fun _ => .zero, []⟩, start) actions).any
      (check ·.1)) = true) :
    ∃ trace s record, ((alarmSystem layout).recorded start track condition).Exec trace (s, record) ∧
      check (s, record) = true := by
  have initial : ∀ u, (userSystem layout).init u →
      (alarmSystem layout).init ⟨u, fun _ => .zero, []⟩ := fun _ booted => ⟨booted, rfl, rfl⟩
  exact booted_replay _ initial (tryAlarm layout) (fun _ _ _ _ _ tried => step_of_try tried) actions
    check checked

/-- A machine with sixteen pages beside the kernel. -/
def alarmLayout : Layout := ⟨PHYSPAGES - 16, 0, by decide, by decide⟩

end Replay

section Period

variable {beats : Beats} {b : Beat}

/-- The fields of a process in use say how far its alarm is. -/
structure BeatOk (state : ProcState) (slot : Slot) (b : Beat) : Prop where
  used : state ≠ .unused
  handler : slot.alarmHandler = b.handler
  period : slot.alarmTicks = b.period
  flag : slot.alarmFlag = b.handling
  left : slot.alarmTicksLeft = b.period - BitVec.ofNat 32 b.count
  early : b.period ≠ 0 → b.count < b.period.toNat

/-- The fields of all processes do. -/
structure BeatInv (s : AlarmSys) (beats : Beats) : Prop where
  pids : PidsOk s.sys
  beat : ∀ p b, beats p = some b → BeatOk (s.sys.proc p).state (s.slot p) b

/-- A countdown is at one exactly if one more timer interrupt completes the period. -/
theorem left_eq_one (early : b.count < b.period.toNat) :
    b.period - BitVec.ofNat 32 b.count = 1 ↔ b.count + 1 = b.period.toNat := by
  bv_omega

/-- An operation on memory leaves the alarms alone. -/
theorem BeatInv.user {e : UserEvent} (inv : BeatInv s beats) (after : FieldStep s (.user e) t) :
    BeatInv t (trackBeats beats (.user e)) := by
  refine ⟨after.pids, fun q b here => ?_⟩
  have table : TableStep s.sys e t.sys := after.table
  obtain ⟨before, spared⟩ : beats q = some b ∧
      ∀ p addr pid xstate, e ≠ .waited p addr (.reaped q pid xstate) := by
    cases e with
    | waited p addr result =>
      cases result with
      | reaped pp pid xstate =>
        have other : q ≠ pp := by
          rintro rfl
          exact Option.some_ne_none b (here.symm.trans (update_self ..))
        refine ⟨(update_of_ne other ..).symm.trans here, ?_⟩
        rintro _ _ _ _ ⟨⟩
        exact other rfl
      | _ => exact ⟨here, nofun⟩
    | _ => exact ⟨here, nofun⟩
  have ok := inv.beat q b before
  obtain ⟨killed, mask, flag, slot, same⟩ := slotsAfter_alarm (s := s) e q
  rw [show t.slot = slotsAfter s e from after.fields, table.states q, slot]
  exact { ok with
    used := stateAfter_used ok.used spared, flag := (same ok.used table.fresh).trans ok.flag }

/-- A change of the fields and the record of one process. -/
theorem BeatInv.one {slot : Slot} {record : Option Beat} (inv : BeatInv s beats)
    (pids : PidsOk t.sys) (procs : t.sys.proc = s.sys.proc) (slots : t.slot = update s.slot p slot)
    (mine : ∀ b, record = some b → BeatOk (s.sys.proc p).state slot b) :
    BeatInv t (update beats p record) := by
  refine ⟨pids, fun q b here => ?_⟩
  rw [procs, slots]
  by_cases self : q = p
  · rw [self, update_self] at here ⊢
    exact mine b here
  · rw [update_of_ne self] at here ⊢
    exact inv.beat q b here

/-- A step keeps the fields and the record in agreement. -/
theorem BeatInv.step (inv : BeatInv s beats) (step : (alarmSystem layout).step s event t) :
    BeatInv t (trackBeats beats event) := by
  have after := step_fields inv.pids step
  have table := after.table
  have fields := after.fields
  have alike : t.sys.proc = s.sys.proc → t.slot = s.slot → BeatInv t beats := fun procs slots =>
    ⟨after.pids, fun q b here => procs ▸ slots ▸ inv.beat q b here⟩
  cases event with
  | user e => exact inv.user after
  | trapped p => exact alike table fields
  | ticked p =>
    obtain ⟨-, notDue, slots⟩ := fields
    refine inv.one after.pids table slots fun b' ticked => ?_
    obtain ⟨b, before, rfl⟩ := Option.map_eq_some_iff.mp ticked
    have ok := inv.beat p b before
    rw [ok.flag, ok.left] at notDue
    cases handling : b.handling with
    | true =>
      simp only [ok.flag, handling, if_true]
      exact { ok with flag := handling.symm }
    | false =>
      simp only [ok.flag, handling, Bool.false_eq_true, if_false]
      have more : b.period - BitVec.ofNat 32 b.count ≠ 1 := fun due => notDue ⟨handling, due⟩
      refine ⟨ok.used, ok.handler, ok.period, rfl, ?_, fun nonzero => ?_⟩
      · rw [ok.left]
        bv_omega
      · have early := ok.early nonzero
        have apart := mt (left_eq_one early).mpr more
        show b.count + 1 < b.period.toNat
        omega
  | delivered p page contents =>
    obtain ⟨-, -, -, slots⟩ := fields
    refine inv.one after.pids table slots fun b' delivered => ?_
    obtain ⟨b, before, rfl⟩ := Option.map_eq_some_iff.mp delivered
    have ok := inv.beat p b before
    refine ⟨ok.used, ok.handler, ok.period, rfl, ?_, fun nonzero => ?_⟩
    · exact ok.period.trans (BitVec.sub_zero _).symm
    · exact Nat.zero_lt_of_lt (ok.early nonzero)
  | armed p ticks handler =>
    obtain ⟨alive, slots⟩ := fields
    refine inv.one after.pids table slots ?_
    rintro b ⟨⟩
    refine ⟨by rw [alive]; nofun, rfl, rfl, rfl, (BitVec.sub_zero _).symm, fun nonzero => ?_⟩
    exact Nat.pos_of_ne_zero fun zero => nonzero (BitVec.eq_of_toNat_eq zero)
  | returned p page =>
    refine inv.one after.pids table fields fun b' back => ?_
    obtain ⟨b, before, rfl⟩ := Option.map_eq_some_iff.mp back
    have ok := inv.beat p b before
    exact ⟨ok.used, ok.handler, ok.period, rfl, ok.left, ok.early⟩
  | traced p mask =>
    rw [show trackBeats beats (.traced p mask) = update beats p (beats p) from
      (update_eq_self p beats).symm]
    exact inv.one after.pids table fields fun b here => { inv.beat p b here with }
  | killed p pid target =>
    rw [FieldsAfter] at fields
    split at fields
    · exact alike table fields
    · rename_i q hit
      rw [show trackBeats beats (.killed p pid target) = update beats q (beats q) from
        (update_eq_self q beats).symm]
      exact inv.one after.pids table fields fun b here => { inv.beat q b here with }

end Period

end Xv6Cos.Verif
