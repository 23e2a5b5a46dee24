import Xv6Cos.Verif.Alarm

/-!
# Runs with alarms

Nothing in the kernel checks that `sigreturn` answers an alarm, that there is memory to save the
trapframe in, or that a handler does not arm the next alarm. Runs in which processes respect this
keep every saved frame and free it once; runs in which they do not reach `kfree` with a page that
another part of the kernel uses.
-/

namespace Xv6Cos.Verif

open Kernel Spec Program Transition Function Option List Ends

variable {layout : Layout} {kept : ℕ → Option Page} {w : World} {s t : AlarmSys} {p : Fin NPROC}
  {pending : Pending} {trace : List AlarmEvent} {event : AlarmEvent} {e : UserEvent}

section Ownership

/-- Every saved frame that has not been freed belongs to a running process that has not returned
from its alarm. -/
structure OrderlyInv (layout : Layout) (s : AlarmSys) (pending : Pending) : Prop where
  frames : ∃ kept w, AlarmInv layout kept w s pending
  pids : PidsOk s.sys
  alive : ∀ p, pending p ≠ none → (s.sys.proc p).state = .alive
  owned : ∀ page ∈ s.frames, ∃ p f, pending p = some f ∧ f.page = page
  nodup : s.frames.Nodup

/-- An orderly step keeps the frames of alarms. -/
theorem orderly_tame (fields : FieldStep s event t) (orderly : Orderly s pending event) :
    Tame pending event := by
  constructor
  · rintro p page contents rfl
    exact orderly fields.fields.2.1
  · rintro p page rfl
    exact orderly

/-- A process that waits for an alarm to return after an operation on memory did so before, and was
not reaped. -/
theorem waiting_before {q : Fin NPROC} (waiting : trackPending pending (.user e) q ≠ none) :
    pending q ≠ none ∧ ∀ p addr pid xstate, e ≠ .waited p addr (.reaped q pid xstate) := by
  cases e with
  | waited p addr result =>
    cases result with
    | reaped pp pid xstate =>
      have other : q ≠ pp := by
        rintro rfl
        exact waiting (update_self ..)
      refine ⟨ne_of_eq_of_ne (update_of_ne other ..).symm waiting, ?_⟩
      rintro _ _ _ _ ⟨⟩
      exact other rfl
    | _ => exact ⟨waiting, nofun⟩
  | _ => exact ⟨waiting, nofun⟩

section

variable (inv : OrderlyInv layout s pending)

include inv

/-- An orderly operation on memory. -/
theorem OrderlyInv.user (table : TableStep s.sys e t.sys) (frames : t.frames = s.frames)
    (orderly : Orderly s pending (.user e))
    (after : ∃ kept w, AlarmInv layout kept w t (trackPending pending (.user e))) :
    OrderlyInv layout t (trackPending pending (.user e)) := by
  -- the alarms that are waited for are those from before, of processes that still run
  have stays : ∀ q, pending q ≠ none → trackPending pending (.user e) q = pending q ∧
      (t.sys.proc q).state = .alive := by
    intro q waiting
    have alive := inv.alive q waiting
    have state := table.states q
    rw [alive] at state
    cases e with
    | waited p addr result =>
      cases result with
      | reaped pp pid xstate =>
        have other : q ≠ pp := by
          rintro rfl
          rw [table.zombie _ _ _ _ _ rfl] at alive
          contradiction
        refine ⟨update_of_ne other .., ?_⟩
        rw [state]
        exact if_neg other
      | _ => exact ⟨rfl, state⟩
    | forked p np =>
      refine ⟨rfl, ?_⟩
      rw [state, stateAfter]
      split <;> rfl
    | storeKilled p | loadKilled p | exited p =>
      have other : q ≠ p := fun same => waiting (same ▸ orderly)
      exact ⟨rfl, state.trans (if_neg other)⟩
    | _ => exact ⟨rfl, state⟩
  refine ⟨after, table.pids, fun q waiting => (stays q (waiting_before waiting).1).2, ?_, ?_⟩
  · intro page mem
    rw [frames] at mem
    obtain ⟨q, f, waiting, same⟩ := inv.owned page mem
    have some : pending q ≠ none := by simp [waiting]
    exact ⟨q, f, (stays q some).1.trans waiting, same⟩
  · rw [frames]
    exact inv.nodup

/-- A step that leaves processes, frames and alarms alone. -/
theorem OrderlyInv.quiet (frames : t.frames = s.frames)
    (table : t.sys.proc = s.sys.proc ∧ PidsOk t.sys)
    (after : ∃ kept w, AlarmInv layout kept w t pending) : OrderlyInv layout t pending where
  frames := after
  pids := table.2
  alive p waiting := by
    rw [table.1]
    exact inv.alive p waiting
  owned page mem := inv.owned page (frames ▸ mem)
  nodup := frames ▸ inv.nodup

/-- An orderly step keeps ownership. -/
theorem OrderlyInv.step (step : (alarmSystem layout).step s event t)
    (orderly : Orderly s pending event) :
    OrderlyInv layout t (trackPending pending event) := by
  obtain ⟨kept, w, frames⟩ := inv.frames
  have effect := step_effect frames step
  have fields := step_fields inv.pids step
  have after := effect.keeps frames fields (orderly_tame fields orderly)
  have procs := fields.table
  have pids := fields.pids
  cases event with
  | user e => exact inv.user fields.table effect.2 orderly after
  | delivered p page contents =>
    obtain ⟨-, delivered⟩ := effect
    have running := fields.fields.1
    have idle : pending p = none := orderly fields.fields.2.1
    have free : page ∉ s.frames := by
      intro mem
      obtain ⟨q, f, waiting, rfl⟩ := inv.owned page mem
      have held := (frames.sys.keep _ _ ((frames.kept _ _).mpr ⟨q, waiting⟩)).1
      have kernel := (frames.sys.held _ held).1
      rw [delivered.free] at kernel
      contradiction
    refine ⟨after, pids, fun q waiting => ?_, fun page' mem => ?_, ?_⟩
    · rw [show t.sys.proc = s.sys.proc from procs]
      by_cases self : q = p
      · rw [self]
        exact running
      · exact inv.alive q (ne_of_eq_of_ne (update_of_ne self ..).symm waiting)
    · rw [delivered.frames] at mem
      rcases mem_cons.mp mem with rfl | old
      · exact ⟨p, _, update_self .., rfl⟩
      · obtain ⟨q, f, waiting, same⟩ := inv.owned page' old
        have other : q ≠ p := by
          rintro rfl
          rw [idle] at waiting
          contradiction
        exact ⟨q, f, (update_of_ne other ..).trans waiting, same⟩
    · rw [delivered.frames]
      exact nodup_cons.mpr ⟨free, inv.nodup⟩
  | returned p page =>
    obtain ⟨f, here⟩ := ne_none_iff_exists'.mp (show pending p ≠ none from orderly)
    obtain ⟨-, returned⟩ := effect f here
    refine ⟨after, pids, fun q waiting => ?_, fun page' mem => ?_, ?_⟩
    · rw [show t.sys.proc = s.sys.proc from procs]
      obtain ⟨g, waiting'⟩ := ne_none_iff_exists'.mp waiting
      exact inv.alive q (by rw [(waiting_others.mp waiting').2]; nofun)
    · rw [returned.frames, inv.nodup.mem_erase_iff] at mem
      obtain ⟨q, g, waiting, same⟩ := inv.owned page' mem.2
      have other : q ≠ p := by
        rintro rfl
        obtain rfl := some.inj (here.symm.trans waiting)
        exact mem.1 same.symm
      exact ⟨q, g, waiting_others.mpr ⟨other, waiting⟩, same⟩
    · rw [returned.frames]
      exact inv.nodup.erase _
  | trapped | ticked | armed | traced | killed => exact inv.quiet effect.2 ⟨procs, pids⟩ after

end

/-- Ownership holds in every state of an orderly run. -/
theorem orderly_run (run : (orderlyRuns layout).Exec trace (s, pending)) :
    OrderlyInv layout s pending := by
  refine run.invariant (fun _ state => OrderlyInv layout state.1 state.2) ?_ ?_
  · rintro ⟨s, pending⟩ ⟨start, idle⟩
    obtain rfl : pending = fun _ => none := idle
    obtain ⟨w, frames⟩ := alarm_init start
    have empty : s.frames = [] := start.2.2
    refine ⟨⟨_, w, frames⟩, init_pids start.1, nofun, ?_, ?_⟩
    · rw [empty]
      nofun
    · rw [empty]
      exact nodup_nil
  · rintro trace ⟨s, pending⟩ event ⟨t, pending'⟩ inv ⟨step, track, orderly⟩
    rw [show pending' = _ from track]
    exact inv.step step orderly

/-- `sigreturn` always gives a reference away. -/
theorem sigreturn_drops : Ends (AlarmAction.sigreturn.run layout p) s fun _ t =>
    t.sys.vm.refcnt ≠ s.sys.vm.refcnt := by
  have drops : ∀ (vm : Vm) (page : ℕ), Ends (kfree layout page) vm fun _ vm' =>
      vm'.refcnt ≠ vm.refcnt := by
    intro vm page _ vm' ran same
    unfold kfree at ran
    split at ran
    · contradiction
    · split at ran
      · contradiction
      · rename_i counted
        obtain ⟨-, rfl⟩ := Prod.mk.inj (Except.ok.inj ran)
        have here : (vm.drop page).refcnt page = vm.refcnt page - 1 := by
          unfold Vm.drop
          simp only
          split <;> exact update_self ..
        rw [congrFun same page] at here
        omega
  have lifted : ∀ (u : AlarmSys) (m : VmM Unit) (post : Vm → Prop),
    Ends m u.sys.vm (fun _ => post) →
      Ends (kernel (memory m)) u fun _ t => post t.sys.vm := fun u m post ends =>
    within (within ends fun _ _ holds => holds) fun _ _ holds => holds
  suffices returns : Ends (sysSigreturn layout p) s fun _ t =>
      t.sys.vm.refcnt ≠ s.sys.vm.refcnt from .bind returns fun _ _ changed => .pure changed
  unfold sysSigreturn
  apply bind_reads
  apply bind_trapframe_same
  rintro trapframe -
  split
  · exact .fail _
  · rename_i page saved
    refine .bind (lifted s _ (fun vm => vm.refcnt = s.sys.vm.refcnt) (.modifies rfl)) ?_
    intro _ s₁ same
    refine .bind (lifted s₁ _ (fun vm => vm.refcnt ≠ s₁.sys.vm.refcnt) (drops _ page)) ?_
    intro _ s₂ changed
    apply bind_modifies
    apply bind_modifies
    rw [same] at changed
    refine .pure ?_
    simp only
    split
    · exact changed
    · exact changed

/-- Why an operation of a running process can panic. -/
def AlarmPanic (pending : Pending) (s : AlarmSys) (p : Fin NPROC) (action : AlarmAction)
    (panic : VmPanic) : Prop :=
  (panic = .initExiting ∧ ∃ a, action = .user a) ∨ (action = .sigreturn ∧ pending p = none) ∨
    action = .timer ∧ (s.slot p).alarmFlag = false ∧ (s.slot p).alarmTicksLeft = 1 ∧
      s.sys.vm.freelist = [] ∧ panic = .nullPointer

/-- Nothing else panics. -/
theorem alarm_panics {action : AlarmAction} {panic : VmPanic}
    (inv : AlarmInv layout kept w s pending) (enabled : action.enabled s p)
    (failed : action.run layout p s = .error panic) : AlarmPanic pending s p action panic := by
  have only := fun fields => (@fields_spec layout kept w s p pending action fields).ne_error panic
  cases action with
  | user action => exact .inl ⟨(user_spec inv enabled).error_eq failed, action, rfl⟩
  | trap registers =>
    have saves : Safe ((AlarmAction.trap registers).run layout p) s fun _ _ => True :=
      .bind (saveRegisters_spec registers inv.sys (used_of_alive enabled))
        fun _ _ _ => .pure trivial
    exact absurd failed (saves.ne_error panic)
  | timer =>
    by_cases room : (s.slot p).alarmFlag = false → (s.slot p).alarmTicksLeft = 1 →
        s.sys.vm.freelist ≠ []
    · have ticks : Safe (AlarmAction.timer.run layout p) s fun event t =>
          AlarmEffect layout kept w pending s t event :=
        timer_spec inv.sys (used_of_alive enabled.1) room
      exact absurd failed (ticks.ne_error panic)
    · simp only [not_forall, not_not, exists_prop] at room
      obtain ⟨flag, due, empty⟩ := room
      have short : AlarmAction.timer.run layout p s = .error .nullPointer :=
        bind_of_error (alarmTick_short flag due empty)
      exact .inr (.inr ⟨rfl, flag, due, empty, Except.error.inj (failed.symm.trans short)⟩)
  | sigreturn =>
    cases here : pending p with
    | none => exact .inr (.inl ⟨rfl, here⟩)
    | some f =>
      have back : Safe (AlarmAction.sigreturn.run layout p) s fun _ _ => True :=
        .bind (sysSigreturn_spec inv (used_of_alive enabled.1) here) fun _ _ _ => .pure trivial
      exact absurd failed (back.ne_error panic)
  | sigalarm | trace | kill => exact absurd failed (only trivial)

/-- In an orderly run the saved frames that have not been freed are those of the alarms that have
not returned, one for each such process, and their contents are those of the trapframe at the
delivery. `sigreturn` restores and frees the frame of the caller's alarm; without one it panics or
gives away a reference. A timer interrupt panics exactly if an alarm is due and there is no free
page; nothing else panics but `initproc` exiting. -/
theorem alarm_frames (run : (orderlyRuns layout).Exec trace (s, pending)) :
    (∀ page, page ∈ s.frames ↔ ∃ p contents, pending p = some ⟨page, contents⟩) ∧
    (∀ p f, pending p = some f → (s.sys.proc p).state = .alive ∧
      (s.slot p).alarmSavedTf = some f.page ∧ s.sys.vm.mem f.page = f.contents ∧
      ∀ q g, pending q = some g → g.page = f.page → q = p) ∧
    (∀ p page contents t, (alarmSystem layout).step s (.delivered p page contents) t →
      Restored s p contents) ∧
    (∀ p, AlarmAction.sigreturn.enabled s p →
      (∀ f, pending p = some f → ∃ t,
        AlarmAction.sigreturn.run layout p s = .ok (.returned p f.page, t) ∧
        Restored t p f.contents ∧ f.page ∈ t.sys.vm.freelist ∧ f.page ∉ t.frames) ∧
      (pending p = none → ∀ event t, AlarmAction.sigreturn.run layout p s = .ok (event, t) →
        t.sys.vm.refcnt ≠ s.sys.vm.refcnt)) ∧
    ∀ p (action : AlarmAction), action.enabled s p →
      (∀ panic, action.run layout p s = .error panic → AlarmPanic pending s p action panic) ∧
      (action = .timer → ((s.slot p).alarmFlag = false ∧ (s.slot p).alarmTicksLeft = 1 ∧
        s.sys.vm.freelist = [] ↔ action.run layout p s = .error .nullPointer)) := by
  have inv := orderly_run run
  obtain ⟨kept, w, frames⟩ := inv.frames
  refine ⟨fun page => ⟨fun mem => ?_, ?_⟩, fun p f here => ?_, fun p page contents t step => ?_,
    fun p enabled => ⟨fun f here => ?_, fun _ event t ran => sigreturn_drops event t ran⟩,
    fun p action enabled => ⟨fun panic failed => alarm_panics frames enabled failed, ?_⟩⟩
  · obtain ⟨p, f, here, rfl⟩ := inv.owned page mem
    exact ⟨p, f.contents, here⟩
  · rintro ⟨p, contents, here⟩
    exact (frames.saved p _ here).2
  · have keep := frames.sys.keep _ _ ((frames.kept _ _).mpr ⟨p, here⟩)
    exact ⟨inv.alive p (by rw [here]; nofun), (frames.saved p f here).1, keep.2,
      fun q g there same => frames.once q p g f there here same⟩
  · obtain ⟨rfl, delivered⟩ := step_effect frames step
    exact delivered.copied
  · obtain ⟨_, t, ran, rfl, returned⟩ := sysSigreturn_spec frames (used_of_alive enabled.1) here
    refine ⟨t, bind_of_ok ran, returned.restored, returned.freed, ?_⟩
    rw [returned.frames]
    exact inv.nodup.not_mem_erase
  · rintro rfl
    constructor
    · rintro ⟨flag, due, empty⟩
      exact bind_of_error (alarmTick_short flag due empty)
    · intro failed
      rcases alarm_panics frames enabled failed
        with ⟨none, -⟩ | ⟨none, -⟩ | ⟨-, flag, due, empty, -⟩
      · contradiction
      · contradiction
      · exact ⟨flag, due, empty⟩

/-- The first process gets an alarm after one tick: its frame is the only one. -/
theorem alarm_frames_first : ∃ trace s pending p f,
    (orderlyRuns alarmLayout).Exec trace (s, pending) ∧ pending p = some f ∧
    (s.slot p).alarmSavedTf = some f.page ∧ s.sys.vm.mem f.page = f.contents ∧
    f.page ∈ s.frames := by
  obtain ⟨trace, s, pending, run, waits⟩ :=
    exists_alarms (fun _ => none) (fun _ => trackPending) Orderly alarmLayout
      [.sigalarm 1 0x100, .timer]
      (fun state => (state.2 state.1.sys.initproc).isSome) (by decide +kernel)
  obtain ⟨f, here⟩ := isSome_iff_exists.mp waits
  obtain ⟨owned, saved, -⟩ := alarm_frames run
  obtain ⟨-, pointer, contents, -⟩ := saved _ f here
  exact ⟨trace, s, pending, _, f, run, here, pointer, contents, (owned f.page).mpr ⟨_, _, here⟩⟩

/-- The first process may free a held page with a `sigreturn` that answers no alarm. -/
def freesHeld : AlarmSys × Pending → Bool
  | (s, pending) => (pending s.sys.initproc).isNone &&
    match tryAlarm alarmLayout s.sys.initproc s .sigreturn with
    | some (.returned p page, t) => p = s.sys.initproc && page ∈ s.sys.held &&
        page ∉ s.frames && page ∈ t.sys.held && page ∈ t.sys.vm.freelist
    | _ => false

/-- After an alarm and its `sigreturn`, another part of the kernel gets the page that the frame was
in. A second `sigreturn` frees that page. -/
theorem sigreturn_frees_held : ∃ trace s pending p page t,
    (alarmsUnder alarmLayout fun _ _ => True).Exec trace (s, pending) ∧
    pending p = none ∧ page ∈ s.sys.held ∧ page ∉ s.frames ∧
    (alarmSystem alarmLayout).step s (.returned p page) t ∧
    page ∈ t.sys.held ∧ page ∈ t.sys.vm.freelist := by
  obtain ⟨trace, s, pending, run, checked⟩ :=
    exists_alarms (fun _ => none) (fun _ => trackPending) (fun _ _ _ => True) alarmLayout
      [.sigalarm 1 0x100, .timer, .sigreturn, .user .hold] freesHeld (by decide +kernel)
  simp only [freesHeld, Bool.and_eq_true, isNone_iff_eq_none] at checked
  obtain ⟨idle, checked⟩ := checked
  split at checked
  · rename_i p page t tried
    simp only [Bool.and_eq_true, decide_eq_true_eq] at checked
    obtain ⟨⟨⟨⟨rfl, held⟩, gone⟩, still⟩, free⟩ := checked
    exact ⟨trace, s, pending, _, page, t, run, idle, held, gone, step_of_try tried, still, free⟩
  · contradiction

end Ownership

section Reentry

/-- A process that has not returned from its alarm has its flag set. -/
structure PatientInv (layout : Layout) (s : AlarmSys) (pending : Pending) : Prop where
  frames : ∃ kept w, AlarmInv layout kept w s pending
  pids : PidsOk s.sys
  busy : ∀ p, pending p ≠ none → (s.sys.proc p).state ≠ .unused ∧ (s.slot p).alarmFlag = true

/-- It is still in use, too. -/
theorem user_waiting {q : Fin NPROC} (table : TableStep s.sys e t.sys)
    (used : pending q ≠ none → (s.sys.proc q).state ≠ .unused)
    (waiting : trackPending pending (.user e) q ≠ none) :
    pending q ≠ none ∧ (t.sys.proc q).state ≠ .unused := by
  obtain ⟨before, spared⟩ := waiting_before waiting
  refine ⟨before, ?_⟩
  rw [table.states q]
  exact stateAfter_used (used before) spared

/-- A patient step is tame: the flag keeps alarms away. -/
theorem PatientInv.tame (inv : PatientInv layout s pending) (fields : FieldStep s event t)
    (patient : Patient pending event) : Tame pending event := by
  constructor
  · rintro p page contents rfl
    by_contra waiting
    have clear := fields.fields.2.1.1
    rw [(inv.busy p waiting).2] at clear
    contradiction
  · rintro p page rfl
    exact patient

/-- A patient step keeps the flags. -/
theorem PatientInv.step (inv : PatientInv layout s pending)
    (step : (alarmSystem layout).step s event t) (patient : Patient pending event) :
    PatientInv layout t (trackPending pending event) := by
  obtain ⟨kept, w, frames⟩ := inv.frames
  have fields := step_fields inv.pids step
  have after := (step_effect frames step).keeps frames fields (inv.tame fields patient)
  have table := fields.table
  have slots := fields.fields
  refine ⟨after, fields.pids, fun q waiting => ?_⟩
  -- a step of one process `p` that is no operation on memory
  have one : ∀ (p : Fin NPROC) (slot : Slot), t.sys.proc = s.sys.proc →
      t.slot = update s.slot p slot →
      (q ≠ p → pending q ≠ none) →
      (q = p → (s.sys.proc p).state ≠ .unused ∧ slot.alarmFlag = true) →
      (t.sys.proc q).state ≠ .unused ∧ (t.slot q).alarmFlag = true := by
    intro p slot table slots others mine
    rw [table, slots]
    by_cases self : q = p
    · rw [self, update_self]
      exact mine self
    · rw [update_of_ne self]
      exact inv.busy q (others self)
  cases event with
  | user e =>
    obtain ⟨before, used⟩ := user_waiting table (fun before => (inv.busy q before).1) waiting
    obtain ⟨used₀, flag₀⟩ := inv.busy q before
    obtain ⟨killed, mask, flag, slot, same⟩ := slotsAfter_alarm (s := s) e q
    refine ⟨used, ?_⟩
    rw [show t.slot = slotsAfter s e from slots, slot]
    exact (same used₀ table.fresh).trans flag₀
  | trapped p =>
    rw [show t.sys.proc = s.sys.proc from table, show t.slot = s.slot from slots]
    exact inv.busy q waiting
  | ticked p =>
    exact one p _ table slots.2.2 (fun _ => waiting) fun same => same ▸ inv.busy q waiting
  | delivered p page contents =>
    refine one p _ table slots.2.2.2 (fun other => ?_) fun _ => ⟨used_of_alive slots.1, rfl⟩
    exact ne_of_eq_of_ne (update_of_ne other ..).symm waiting
  | armed p ticks handler =>
    refine one p _ table slots.2 (fun _ => waiting) fun same => absurd ?_ waiting
    rw [same]
    exact patient
  | returned p page =>
    refine one p _ table slots (fun other => ?_) fun same => absurd ?_ waiting
    · exact ne_of_eq_of_ne (update_of_ne other ..).symm waiting
    · rw [same]
      exact update_self ..
  | traced p mask =>
    exact one p _ table slots (fun _ => waiting) fun same => same ▸ inv.busy q waiting
  | killed p pid target =>
    rw [FieldsAfter] at slots
    split at slots
    · rw [show t.sys.proc = s.sys.proc from table, slots]
      exact inv.busy q waiting
    · exact one _ _ table slots (fun _ => waiting) fun same => same ▸ inv.busy q waiting

/-- Nobody waits at first. -/
theorem patient_init (start : (alarmSystem layout).init s) :
    PatientInv layout s fun _ => none := by
  obtain ⟨w, frames⟩ := alarm_init start
  exact ⟨⟨_, w, frames⟩, init_pids start.1, fun p waiting => absurd rfl waiting⟩

/-- The flags are right in every state of a patient run. -/
theorem patient_run (run : (alarmsUnder layout Patient).Exec trace (s, pending)) :
    PatientInv layout s pending := by
  refine run.invariant (fun _ state => PatientInv layout state.1 state.2) ?_ ?_
  · rintro ⟨s, pending⟩ ⟨start, rfl⟩
    exact patient_init start
  · rintro trace ⟨s, pending⟩ event ⟨t, pending'⟩ inv ⟨step, track, patient⟩
    rw [show pending' = _ from track]
    exact inv.step step patient

/-- In a patient run no alarm is delivered to a process that has not returned from one, and
`sigreturn` restores the trapframe that was saved at the delivery. -/
theorem alarm_not_reentered (run : (alarmsUnder layout Patient).Exec trace (s, pending)) :
    (∀ p page contents t, (alarmSystem layout).step s (.delivered p page contents) t →
      pending p = none ∧ Restored s p contents) ∧
    ∀ p f page t, pending p = some f → (alarmSystem layout).step s (.returned p page) t →
      page = f.page ∧ Restored t p f.contents := by
  have inv := patient_run run
  obtain ⟨kept, w, frames⟩ := inv.frames
  refine ⟨fun p page contents t step => ?_, fun p f page t here step => ?_⟩
  · have idle := (inv.tame (step_fields inv.pids step) trivial).1 p page contents rfl
    obtain ⟨rfl, delivered⟩ := step_effect frames step
    exact ⟨idle, delivered.copied⟩
  · obtain ⟨same, returned⟩ := step_effect frames step f here
    exact ⟨same, returned.restored⟩

/-- The first process may return from an alarm. -/
def mayReturn : AlarmSys × Pending → Bool
  | (s, pending) => (pending s.sys.initproc).isSome &&
    match tryAlarm alarmLayout s.sys.initproc s .sigreturn with
    | some (.returned p _, _) => p = s.sys.initproc
    | _ => false

/-- The first process returns from its first alarm to where it was. -/
theorem alarm_not_reentered_first : ∃ trace s pending p f t,
    (alarmsUnder alarmLayout Patient).Exec trace (s, pending) ∧ pending p = some f ∧
    (alarmSystem alarmLayout).step s (.returned p f.page) t ∧ Restored t p f.contents := by
  obtain ⟨trace, s, pending, run, checked⟩ :=
    exists_alarms (fun _ => none) (fun _ => trackPending) (fun _ => Patient) alarmLayout
      [.sigalarm 1 0x100, .timer] mayReturn (by decide +kernel)
  rw [mayReturn, Bool.and_eq_true] at checked
  obtain ⟨waits, checked⟩ := checked
  obtain ⟨f, here⟩ := isSome_iff_exists.mp waits
  split at checked
  · rename_i p page t tried
    obtain rfl := of_decide_eq_true checked
    have step := step_of_try tried
    obtain ⟨rfl, restored⟩ := (alarm_not_reentered run).2 _ f page t here step
    exact ⟨trace, s, pending, _, f, t, run, here, step, restored⟩
  · contradiction

/-- The first process gets an alarm in its handler. -/
def reenters : AlarmSys × Pending → Bool
  | (s, pending) =>
    match pending s.sys.initproc, tryAlarm alarmLayout s.sys.initproc s .timer with
    | some f, some (.delivered p page _, t) => p = s.sys.initproc && page ≠ f.page &&
        (t.slot p).alarmSavedTf = some page
    | _, _ => false

/-- A handler that calls `sigalarm` is entered again before it returns, and the frame that was
saved first is lost. -/
theorem alarm_reentered : ∃ trace s pending p f page contents t,
    (alarmsUnder alarmLayout fun _ _ => True).Exec trace (s, pending) ∧ pending p = some f ∧
    (alarmSystem alarmLayout).step s (.delivered p page contents) t ∧ page ≠ f.page ∧
    (t.slot p).alarmSavedTf = some page := by
  obtain ⟨trace, s, pending, run, checked⟩ :=
    exists_alarms (fun _ => none) (fun _ => trackPending) (fun _ _ _ => True) alarmLayout
      [.sigalarm 1 0x100, .timer, .sigalarm 1 0x100] reenters (by decide +kernel)
  dsimp only [reenters] at checked
  split at checked
  · rename_i f p page contents t here tried
    simp only [Bool.and_eq_true, decide_eq_true_eq] at checked
    obtain ⟨⟨rfl, other⟩, saved⟩ := checked
    exact ⟨trace, s, pending, _, f, page, contents, t, run, here, step_of_try tried, other, saved⟩
  · contradiction

end Reentry

section Period

variable {beats : Beats} {b : Beat}

end Period

end Xv6Cos.Verif
