import Xv6Cos.Verif.UserRun
import Xv6Cos.Verif.AlarmFields

/-!
# Saved trapframes

The page that an alarm saves the trapframe in belongs to the process until `sigreturn` frees it:
nobody else writes or frees it, as long as `sigreturn` is called only with an alarm that has not
returned and no second alarm comes before.
-/

namespace Xv6Cos.Verif

open Kernel Spec Program Transition Function List Set

variable {layout : Layout} {kept : ℕ → Option Page} {w : World} {s : AlarmSys} {p : Fin NPROC}
  {pending : Pending} {α β : Type} {vm : Vm} {w' : World} {f : SavedFrame}

section Programs

variable {last : β → AlarmSys → Prop}

/-- Run a program over the kernel's state, then go on. -/
theorem bind_kernel {m : SysM α} {next : α → AlarmM β} {post : α → Sys → Prop}
    (safe : Safe m s.sys post)
    (rest : ∀ a sys, post a sys → Safe (next a) { s with sys := sys } last) :
    Safe (kernel m >>= next) s last := by
  have first : Safe (kernel m) s fun a t => ∃ sys, post a sys ∧ t = { s with sys := sys } :=
    Safe.within safe fun _ sys holds => ⟨sys, holds, rfl⟩
  refine .bind first ?_
  rintro a t ⟨sys, holds, rfl⟩
  exact rest a sys holds

/-- Run a program over memory, then go on. -/
theorem bind_kernel_memory {m : VmM α} {next : α → AlarmM β} {post : α → Vm → Prop}
    (safe : Safe m s.sys.vm post)
    (rest : ∀ a vm, post a vm →
      Safe (next a) { s with sys := { s.sys with vm := vm } } last) :
    Safe (kernel (memory m) >>= next) s last := by
  refine bind_kernel (memory_safe safe) ?_
  rintro a sys ⟨vm, holds, rfl⟩
  exact rest a vm holds

/-- The trapframe of a process that has one. -/
theorem bind_trapframe {tf : ℕ} {next : ℕ → AlarmM β}
    (frame : (s.sys.proc p).trapframe = some tf) (rest : Safe (next tf) s last) :
    Safe (trapframeOf p >>= next) s last := by
  refine .bind_ok (a := tf) (t := s) ?_ rest
  unfold trapframeOf
  rw [bind_of_ok (a := some tf) (t := s) (by rw [reads, frame])]
  rfl

/-- Copying a trapframe copies its bytes. -/
theorem copyTrapframe_bytes {tf : ℕ} (source : ℕ) (rep : Rep layout w vm)
    (kernel : w.owner tf = .kernel) :
    Safe (copyTrapframe source tf) vm fun _ vm' => Updates layout ∅ ∅ {tf} w vm w vm' ∧
      ∀ k < TRAPFRAMESIZE, vm'.mem tf k = vm.mem source k := by
  refine .modifies ⟨Updates.setPage rep _ kernel, fun k low => ?_⟩
  simp only [Vm.setPage, update_self]
  rw [if_pos low]

end Programs

section Frames

variable {u : Sys} {r tf page : ℕ} {vm' : Vm} {contents : Page}

/-- Writing the trapframe of a process keeps the invariant. -/
theorem SysInv.write_frame (inv : SysInv layout kept w u) (owns : Owns layout w (u.proc p) r tf)
    (updates : Updates layout ∅ ∅ {tf} w u.vm w vm') :
    SysInv layout kept w { u with vm := vm' } :=
  (inv.touch (t := { u with vm := vm' }) owns updates.rep
    (updates.frame.mono (empty_subset _) (empty_subset _) le_rfl) rfl
    (empty_subset _) le_rfl { owns with } (fun _ _ => rfl) rfl).1

/-- A page is kept if it is held as it is to be kept. -/
theorem SysInv.set_kept (inv : SysInv layout kept w u) {new : Option Page}
    (held : ∀ contents, new = some contents → page ∈ u.held ∧ u.vm.mem page = contents) :
    SysInv layout (Function.update kept page new) w u :=
  { inv with
    keep := by
      intro page' contents' kept'
      by_cases same : page' = page
      · subst same
        rw [update_self] at kept'
        exact held contents' kept'
      · rw [update_of_ne same] at kept'
        exact inv.keep page' contents' kept' }

/-- A page of the kernel is not private to any page table. -/
theorem kernel_page_same {K : Set ℕ} (kernel : w.owner page = .kernel)
    (outside : page ∉ K) (updates : Updates layout ∅ ∅ K w vm w' vm') :
    vm'.mem page = vm.mem page ∧ w'.owner page = .kernel := by
  obtain ⟨same, owner⟩ := updates.frame.pages page outside (not_private_kernel kernel)
  exact ⟨same, owner.trans kernel⟩

end Frames

/-- The pages of the alarms that have not returned are saved frames of their processes, each of
one process only, and have not been written since. -/
structure AlarmInv (layout : Layout) (kept : ℕ → Option Page) (w : World) (s : AlarmSys)
    (pending : Pending) : Prop where
  sys : SysInv layout kept w s.sys
  kept : ∀ page contents, kept page = some contents ↔ ∃ p, pending p = some ⟨page, contents⟩
  saved : ∀ p f, pending p = some f → (s.slot p).alarmSavedTf = some f.page ∧ f.page ∈ s.frames
  once : ∀ p q f g, pending p = some f → pending q = some g → f.page = g.page → p = q

section Operations

/-- An alarm is delivered, with the trapframe saved in a page that was free. -/
structure Delivered (layout : Layout) (kept : ℕ → Option Page) (w : World) (s : AlarmSys)
    (p : Fin NPROC) (page : ℕ) (t : AlarmSys) : Prop where
  free : w.owner page = .free
  sys : ∃ w', SysInv layout (update kept page (some (t.sys.vm.mem page))) w' t.sys
  frames : t.frames = page :: s.frames
  copied : Restored s p (t.sys.vm.mem page)

/-- The alarm part of a timer interrupt, if there is memory for the alarm. -/
theorem alarmTick_spec (inv : SysInv layout kept w s.sys) (used : (s.sys.proc p).state ≠ .unused)
    (room : (s.slot p).alarmFlag = false → (s.slot p).alarmTicksLeft = 1 →
      s.sys.vm.freelist ≠ []) :
    Safe (alarmTick p) s fun saved t => (saved = none ∧ t.sys = s.sys ∧ t.frames = s.frames) ∨
      ∃ page, saved = some page ∧ Delivered layout kept w s p page t := by
  obtain ⟨r, tf, owns⟩ := inv.owns used
  unfold alarmTick
  apply Safe.bind_reads
  cases flag : (s.slot p).alarmFlag with
  | true => exact .pure (.inl ⟨rfl, rfl, rfl⟩)
  | false =>
    simp only [Bool.false_eq_true, ↓reduceIte]
    apply Safe.bind_modifies
    by_cases due : (s.slot p).alarmTicksLeft = 1
    · have zero : (s.slot p).alarmTicksLeft - 1 = 0 := by rw [due]; rfl
      rw [if_neg (not_not.mpr zero)]
      refine bind_kernel_memory (kalloc_spec inv.rep) ?_
      rintro _ vm₁ (⟨-, -, empty⟩ | ⟨page, rfl, free, taken⟩)
      · exact absurd empty (room flag due)
      refine bind_trapframe owns.trapframe ?_
      have kernel : (w.setOwner page .kernel).owner page = .kernel := World.setOwner_self ..
      have apart : tf ≠ page := by
        rintro rfl
        rw [owns.kernel] at free
        contradiction
      refine bind_kernel_memory (copyTrapframe_bytes tf taken.rep kernel) ?_
      rintro _ vm₂ ⟨copied, bytes⟩
      apply Safe.bind_modifies
      obtain ⟨inv₂, -⟩ := inv.hold free (taken.trans copied)
      have owns₂ : Owns layout (w.setOwner page .kernel) (s.sys.proc p) r tf :=
        owns.frame taken.frame (notMem_empty _) apart
      refine bind_kernel_memory (setReg_spec 24 _ copied.rep owns₂.kernel) fun _ vm₃ stored => ?_
      apply Safe.bind_modifies
      have inv₃ := inv₂.write_frame owns₂ stored
      have page₃ : vm₃.mem page = vm₂.mem page :=
        (kernel_page_same kernel (fun named => apart (mem_singleton_iff.mp named).symm) stored).1
      have frame₁ : vm₁.mem tf = s.sys.vm.mem tf :=
        (kernel_page_same owns.kernel apart taken).1
      refine .pure (.inr ⟨page, rfl, free,
        ⟨_, inv₃.set_kept fun _ kept' => ⟨?_, Option.some.inj kept'⟩⟩,
        rfl, ?_⟩)
      · exact mem_cons_self ..
      · refine ⟨tf, owns.trapframe, fun k low => ?_⟩
        show s.sys.vm.mem tf k = vm₃.mem page k
        rw [page₃, bytes k low, frame₁]
    · have more : (s.slot p).alarmTicksLeft - 1 ≠ 0 := fun zero => due (by bv_omega)
      rw [if_pos more]
      exact .pure (.inl ⟨rfl, rfl, rfl⟩)

/-- `sigreturn` restores and frees a page that is kept. -/
structure Returned (layout : Layout) (kept : ℕ → Option Page) (s : AlarmSys) (p : Fin NPROC)
    (f : SavedFrame) (t : AlarmSys) : Prop where
  sys : ∃ w', SysInv layout (update kept f.page none) w' t.sys
  frames : t.frames = s.frames.erase f.page
  restored : Restored t p f.contents
  freed : f.page ∈ t.sys.vm.freelist

/-- `sigreturn` after an alarm that has not returned. -/
theorem sysSigreturn_spec (inv : AlarmInv layout kept w s pending)
    (used : (s.sys.proc p).state ≠ .unused) (here : pending p = some f) :
    Safe (sysSigreturn layout p) s fun page t =>
      page = f.page ∧ Returned layout kept s p f t := by
  obtain ⟨r, tf, owns⟩ := inv.sys.owns used
  obtain ⟨saved, framed⟩ := inv.saved p f here
  obtain ⟨held, contents⟩ := inv.sys.keep f.page f.contents ((inv.kept ..).mpr ⟨p, here⟩)
  obtain ⟨kernel, notFrame⟩ := inv.sys.held f.page held
  have apart : f.page ≠ tf := fun same => notFrame p (same ▸ owns.trapframe)
  unfold sysSigreturn
  apply Safe.bind_reads
  refine bind_trapframe owns.trapframe ?_
  simp only [saved]
  refine bind_kernel_memory (copyTrapframe_bytes f.page inv.sys.rep owns.kernel) ?_
  rintro _ vm₁ ⟨copied, bytes⟩
  have inv₁ := inv.sys.write_frame owns copied
  have refs := copied.rep.pages f.page
  simp only [kernel, PageRefs] at refs
  have freed : Safe (kfree layout f.page) vm₁ fun _ vm' =>
      Updates layout ∅ ∅ {f.page} w vm₁ (w.setOwner f.page .free) vm' ∧
        f.page ∈ vm'.freelist := by
    refine ⟨(), _, kfree_ok (copied.rep.inside f.page (by simp [kernel])) (by omega),
      ⟨copied.rep.freeKernel kernel, drop_frame, rfl, rfl⟩, ?_⟩
    rw [drop_last refs.2.1]
    exact mem_cons_self ..
  refine bind_kernel_memory freed ?_
  rintro _ vm₂ ⟨dropped, listed⟩
  apply Safe.bind_modifies
  apply Safe.bind_modifies
  rw [if_pos framed]
  have unkept : SysInv layout (update kept f.page none) w { s.sys with vm := vm₁ } :=
    inv₁.set_kept (by simp)
  have inv₂ := unkept.release held (update_self ..) dropped
  have frame₂ : vm₂.mem tf = vm₁.mem tf :=
    (kernel_page_same owns.kernel (fun named => apart (mem_singleton_iff.mp named).symm)
      dropped).1
  refine .pure ⟨rfl, ⟨_, inv₂.1⟩, rfl, ⟨tf, owns.trapframe, fun k low => ?_⟩, listed⟩
  show vm₂.mem tf k = f.contents k
  rw [frame₂, bytes k low, contents]

/-- Entering the kernel writes the trapframe only. -/
theorem saveRegisters_spec (registers : List UInt8) (inv : SysInv layout kept w s.sys)
    (used : (s.sys.proc p).state ≠ .unused) :
    Safe (saveRegisters p registers) s fun _ t => SysInv layout kept w t.sys ∧
      t.frames = s.frames := by
  obtain ⟨r, tf, owns⟩ := inv.owns used
  unfold saveRegisters
  refine bind_trapframe owns.trapframe ?_
  have stored : Safe (kernel (memory (modifies fun vm => vm.setPage tf
      (Page.store (vm.mem tf) 0 (registers.take TRAPFRAMESIZE))))) s fun _ t =>
      SysInv layout kept w t.sys ∧ t.frames = s.frames :=
    ⟨(), _, rfl, inv.write_frame owns (Updates.setPage inv.rep _ owns.kernel), rfl⟩
  exact stored

/-- A timer interrupt that is due for an alarm needs a page. -/
theorem alarmTick_short (flag : (s.slot p).alarmFlag = false)
    (due : (s.slot p).alarmTicksLeft = 1) (empty : s.sys.vm.freelist = []) :
    alarmTick p s = .error .nullPointer := by
  have zero : (s.slot p).alarmTicksLeft - 1 = 0 := by rw [due]; rfl
  have none : Safe kalloc s.sys.vm fun page vm => page = none ∧ vm = s.sys.vm := by
    unfold kalloc
    exact ⟨none, s.sys.vm, by simp only [empty], rfl, rfl⟩
  obtain ⟨page, vm, ran, rfl, rfl⟩ := none
  unfold alarmTick
  rw [bind_of_ok (a := s.slot p) (t := s) rfl]
  simp only [flag, Bool.false_eq_true, ↓reduceIte]
  rw [bind_of_ok rfl, if_neg (not_not.mpr zero)]
  have kalloced : kernel (memory kalloc) { s with
      slot := update s.slot p { s.slot p with
        alarmFlag := false, alarmTicksLeft := (s.slot p).alarmTicksLeft - 1 } } =
      .ok (none, { s with
        slot := update s.slot p { s.slot p with
          alarmFlag := false, alarmTicksLeft := (s.slot p).alarmTicksLeft - 1 } }) := by
    simp only [kernel, memory, within, ran]
  rw [bind_of_ok kalloced]
  rfl

/-- An operation on memory. -/
theorem user_spec {action : UserAction} (inv : AlarmInv layout kept w s pending)
    (enabled : (AlarmAction.user action).enabled s p) :
    SafeUnless .initExiting ((AlarmAction.user action).run layout p) s fun event t =>
      ∃ e, event = .user e ∧ Performs layout kept w s.sys e t.sys ∧ t.frames = s.frames := by
  have allowed : action.enabled s.sys p := by
    cases action with
    | release page => exact enabled.1
    | _ => exact enabled
  have spared : ∀ page, action = .release page → kept page = none := by
    rintro page rfl
    by_contra some
    obtain ⟨contents, here⟩ := Option.ne_none_iff_exists'.mp some
    obtain ⟨q, waiting⟩ := (inv.kept page contents).mp here
    exact enabled.2 (inv.saved q _ waiting).2
  rcases action_spec action inv.sys allowed spared with failed | ⟨e, sys, ran, performs⟩
  · left
    simp only [AlarmAction.run]
    rw [bind_of_ok (a := s) (t := s) rfl]
    apply bind_of_error
    simp only [kernel, within, failed]
  · right
    simp only [AlarmAction.run]
    apply Safe.bind_reads
    have known : Safe (action.run layout p) s.sys fun found after => found = e ∧ after = sys :=
      ⟨e, sys, ran, rfl, rfl⟩
    refine bind_kernel known ?_
    rintro _ _ ⟨rfl, rfl⟩
    apply Safe.bind_modifies
    exact .pure ⟨_, rfl, performs, rfl⟩

end Operations

section Steps

variable {t : AlarmSys} {event : AlarmEvent}

/-- A change of other fields. -/
theorem AlarmInv.slots (inv : AlarmInv layout kept w s pending)
    (sys : SysInv layout kept w' t.sys) (frames : t.frames = s.frames)
    (saved : ∀ q, (t.slot q).alarmSavedTf = (s.slot q).alarmSavedTf) :
    AlarmInv layout kept w' t pending where
  sys := sys
  kept := inv.kept
  saved q f here := by
    rw [saved q, frames]
    exact inv.saved q f here
  once := inv.once

/-- The other processes that wait for an alarm to return. -/
theorem waiting_others {p q : Fin NPROC} {g : SavedFrame} :
    update pending p none q = some g ↔ q ≠ p ∧ pending q = some g := by
  by_cases same : q = p
  · simp [same]
  · simp [same]

section

variable (inv : AlarmInv layout kept w s pending)

include inv

/-- The pages that are kept for the other processes. -/
theorem AlarmInv.kept_without (here : pending p = some f) (page : ℕ) (contents : Page) :
    update kept f.page none page = some contents ↔
      ∃ q, update pending p none q = some ⟨page, contents⟩ := by
  by_cases mine : page = f.page
  · subst mine
    rw [update_self]
    refine ⟨nofun, ?_⟩
    rintro ⟨q, waiting⟩
    obtain ⟨other, waiting'⟩ := waiting_others.mp waiting
    exact absurd (inv.once q p _ f waiting' here rfl) other
  · rw [update_of_ne mine, inv.kept]
    refine exists_congr fun q => ?_
    rw [waiting_others]
    refine ⟨fun waiting => ⟨?_, waiting⟩, And.right⟩
    rintro rfl
    rw [here] at waiting
    exact mine (congrArg SavedFrame.page (Option.some.inj waiting)).symm

/-- Other frames stay apart. -/
theorem AlarmInv.once_without (p q q' : Fin NPROC)
    (f g : SavedFrame) (waiting : update pending p none q = some f)
    (waiting' : update pending p none q' = some g) (same : f.page = g.page) : q = q' :=
  inv.once q q' f g (waiting_others.mp waiting).2 (waiting_others.mp waiting').2 same

/-- An alarm that nobody will return from is forgotten. -/
theorem AlarmInv.forget (pp : Fin NPROC) :
    ∃ kept', AlarmInv layout kept' w s (update pending pp none) := by
  cases here : pending pp with
  | none =>
    refine ⟨kept, ?_⟩
    rw [← here, update_eq_self]
    exact inv
  | some f =>
    refine ⟨update kept f.page none, inv.sys.set_kept nofun, inv.kept_without here, ?_,
      inv.once_without pp⟩
    exact fun q g waiting => inv.saved q g (waiting_others.mp waiting).2

/-- A page that is not kept by anyone holds no saved frame that is waited for. -/
theorem AlarmInv.unkept {page : ℕ}
    (none : kept page = none) (q : Fin NPROC) (g : SavedFrame) (waiting : pending q = some g) :
    g.page ≠ page := by
  rintro rfl
  have here := (inv.kept g.page g.contents).mpr ⟨q, waiting⟩
  rw [none] at here
  contradiction

/-- An alarm is delivered to a process that waits for none. -/
theorem AlarmInv.deliver {page : ℕ} {contents : Page}
    (delivered : Delivered layout kept w s p page t)
    (after : FieldStep s (.delivered p page contents) t) (idle : pending p = none) :
    ∃ kept' w', AlarmInv layout kept' w' t
      (update pending p (some ⟨page, t.sys.vm.mem page⟩)) := by
  obtain ⟨w', sys⟩ := delivered.sys
  obtain ⟨-, -, -, slots⟩ := after.fields
  have unkept : kept page = none := by
    by_contra some
    obtain ⟨contents, here⟩ := Option.ne_none_iff_exists'.mp some
    have kernel := (inv.sys.held page (inv.sys.keep page contents here).1).1
    rw [delivered.free] at kernel
    contradiction
  have apart := inv.unkept unkept
  refine ⟨_, w', sys, fun page' contents => ?_, fun q f waiting => ?_, ?_⟩
  · by_cases mine : page' = page
    · subst mine
      rw [update_self]
      constructor
      · intro here
        cases here
        exact ⟨p, update_self ..⟩
      · rintro ⟨q, waiting⟩
        by_cases self : q = p
        · subst self
          rw [update_self] at waiting
          have same := Option.some.inj waiting
          rw [SavedFrame.mk.injEq] at same
          rw [same.2]
        · rw [update_of_ne self] at waiting
          exact absurd rfl (apart q _ waiting)
    · rw [update_of_ne mine, inv.kept]
      refine exists_congr fun q => ?_
      by_cases self : q = p
      · subst self
        rw [update_self, idle]
        refine ⟨nofun, fun same => ?_⟩
        have pages := congrArg SavedFrame.page (Option.some.inj same)
        exact absurd pages.symm mine
      · rw [update_of_ne self]
  · rw [slots, delivered.frames]
    by_cases self : q = p
    · subst self
      rw [update_self] at waiting ⊢
      cases waiting
      exact ⟨rfl, mem_cons_self ..⟩
    · rw [update_of_ne self] at waiting ⊢
      obtain ⟨saved, framed⟩ := inv.saved q f waiting
      exact ⟨saved, mem_cons_of_mem _ framed⟩
  · intro q q' f g waiting waiting' same
    by_cases self : q = p <;> by_cases self' : q' = p
    · rw [self, self']
    · subst self
      rw [update_self] at waiting
      rw [update_of_ne self'] at waiting'
      cases waiting
      exact absurd same.symm (apart q' g waiting')
    · subst self'
      rw [update_self] at waiting'
      rw [update_of_ne self] at waiting
      cases waiting'
      exact absurd same (apart q f waiting)
    · rw [update_of_ne self] at waiting
      rw [update_of_ne self'] at waiting'
      exact inv.once q q' f g waiting waiting' same

/-- `sigreturn` gives the frame back. -/
theorem AlarmInv.give_back
    (returned : Returned layout kept s p f t) (after : FieldStep s (.returned p f.page) t)
    (here : pending p = some f) :
    ∃ kept' w', AlarmInv layout kept' w' t (update pending p none) := by
  obtain ⟨w', sys⟩ := returned.sys
  refine ⟨_, w', sys, inv.kept_without here, fun q g waiting => ?_, inv.once_without p⟩
  obtain ⟨other, waiting'⟩ := waiting_others.mp waiting
  obtain ⟨saved, framed⟩ := inv.saved q g waiting'
  rw [after.saved nofun, returned.frames]
  refine ⟨saved, (mem_erase_of_ne fun same => other ?_).mpr framed⟩
  exact inv.once q p g f waiting' here same

end

/-- What a step does to memory and to the saved frames, by its label; `sigreturn` is only described
for a process with an alarm that has not returned. -/
def AlarmEffect (layout : Layout) (kept : ℕ → Option Page) (w : World) (pending : Pending)
    (s t : AlarmSys) : AlarmEvent → Prop
  | .user e => Performs layout kept w s.sys e t.sys ∧ t.frames = s.frames
  | .trapped _ => SysInv layout kept w t.sys ∧ t.frames = s.frames
  | .delivered p page contents => contents = t.sys.vm.mem page ∧ Delivered layout kept w s p page t
  | .returned p page => ∀ f, pending p = some f → page = f.page ∧ Returned layout kept s p f t
  | _ => t.sys = s.sys ∧ t.frames = s.frames

/-- A timer interrupt, if there is memory for the alarm. -/
theorem timer_spec (inv : SysInv layout kept w s.sys) (used : (s.sys.proc p).state ≠ .unused)
    (room : (s.slot p).alarmFlag = false → (s.slot p).alarmTicksLeft = 1 →
      s.sys.vm.freelist ≠ []) :
    Safe (AlarmAction.timer.run layout p) s fun event t =>
      AlarmEffect layout kept w pending s t event := by
  refine .bind (alarmTick_spec inv used room) ?_
  rintro saved t (⟨rfl, same⟩ | ⟨page, rfl, delivered⟩)
  · exact .pure same
  · exact .reads ⟨rfl, delivered⟩

/-- `sigalarm`, `trace` and `kill` change fields only. -/
theorem fields_spec {action : AlarmAction} (only : match action with
      | .sigalarm _ _ => True
      | .trace _ => True
      | .kill _ => True
      | _ => False) :
    Safe (action.run layout p) s fun event t => AlarmEffect layout kept w pending s t event := by
  cases action with
  | sigalarm | trace => exact ⟨_, _, rfl, rfl, rfl⟩
  | kill pid =>
    simp only [AlarmAction.run, kill, bind_assoc]
    apply Safe.bind_reads
    cases s.named pid with
    | none | some => exact ⟨_, _, rfl, rfl, rfl⟩
  | _ => exact only.elim

/-- A running process is in use. -/
theorem used_of_alive (alive : (s.sys.proc p).state = .alive) : (s.sys.proc p).state ≠ .unused := by
  rw [alive]
  nofun

/-- Every step does what its label says. -/
theorem step_effect (inv : AlarmInv layout kept w s pending)
    (step : (alarmSystem layout).step s event t) : AlarmEffect layout kept w pending s t event := by
  obtain ⟨p, action, enabled, ran⟩ := step
  cases action with
  | user action =>
    obtain ⟨e, rfl, performs, frames⟩ := (user_spec inv enabled).result ran
    exact ⟨performs, frames⟩
  | trap registers =>
    have saves : Safe ((AlarmAction.trap registers).run layout p) s fun event t =>
        AlarmEffect layout kept w pending s t event :=
      .bind (saveRegisters_spec registers inv.sys (used_of_alive enabled)) fun _ t saved =>
        .pure saved
    exact saves.result ran
  | timer =>
    by_cases room : (s.slot p).alarmFlag = false → (s.slot p).alarmTicksLeft = 1 →
        s.sys.vm.freelist ≠ []
    · exact (timer_spec inv.sys (used_of_alive enabled.1) room).result ran
    · simp only [not_forall, not_not, exists_prop] at room
      obtain ⟨flag, due, empty⟩ := room
      have failed : AlarmAction.timer.run layout p s = .error .nullPointer :=
        bind_of_error (alarmTick_short flag due empty)
      rw [failed] at ran
      contradiction
  | sigreturn =>
    have returns : Ends (AlarmAction.sigreturn.run layout p) s fun event _ =>
        ∃ page, event = .returned p page :=
      .bind .trivial fun page _ _ => .pure ⟨page, rfl⟩
    obtain ⟨page, rfl⟩ := returns event t ran
    intro f here
    have back : Safe (AlarmAction.sigreturn.run layout p) s fun event t =>
        event = .returned p f.page ∧ Returned layout kept s p f t := by
      refine .bind (sysSigreturn_spec inv (used_of_alive enabled.1) here) ?_
      rintro _ t ⟨rfl, returned⟩
      exact .pure ⟨rfl, returned⟩
    obtain ⟨same, returned⟩ := back.result ran
    cases same
    exact ⟨rfl, returned⟩
  | sigalarm | trace | kill => exact (fields_spec trivial).result ran

/-- An alarm is delivered to processes that wait for none, and `sigreturn` is called by
processes that do. -/
def Tame (pending : Pending) (event : AlarmEvent) : Prop :=
  (∀ p page contents, event = .delivered p page contents → pending p = none) ∧
  ∀ p page, event = .returned p page → pending p ≠ none

/-- A tame step keeps the saved frames. -/
theorem AlarmEffect.keeps (inv : AlarmInv layout kept w s pending)
    (effect : AlarmEffect layout kept w pending s t event) (after : FieldStep s event t)
    (tame : Tame pending event) :
    ∃ kept' w', AlarmInv layout kept' w' t (trackPending pending event) := by
  have quiet : (∀ p page contents, event ≠ .delivered p page contents) → t.sys = s.sys →
      t.frames = s.frames → ∃ kept' w', AlarmInv layout kept' w' t pending :=
    fun other sys frames => ⟨kept, w, inv.slots (sys ▸ inv.sys) frames (after.saved other)⟩
  cases event with
  | user e =>
    obtain ⟨⟨w', sys, -⟩, frames⟩ := effect
    have same : AlarmInv layout kept w' t pending := inv.slots sys frames (after.saved nofun)
    unfold trackPending
    split
    · contradiction
    · contradiction
    · rename_i p' addr pp pid xstate _
      obtain ⟨kept', forgot⟩ := same.forget pp
      exact ⟨kept', w', forgot⟩
    · exact ⟨kept, w', same⟩
  | trapped p => exact ⟨kept, w, inv.slots effect.1 effect.2 (after.saved nofun)⟩
  | delivered p page contents =>
    obtain ⟨rfl, delivered⟩ := effect
    exact inv.deliver delivered after (tame.1 p page _ rfl)
  | returned p page =>
    obtain ⟨f, here⟩ := Option.ne_none_iff_exists'.mp (tame.2 p page rfl)
    obtain ⟨rfl, returned⟩ := effect f here
    exact inv.give_back returned after here
  | ticked | armed | traced | killed => exact quiet nofun effect.1 effect.2

/-- At boot no alarm is waited for. -/
theorem alarm_init (start : (alarmSystem layout).init s) :
    ∃ w, AlarmInv layout noPages w s fun _ => none := by
  obtain ⟨w, sys, -⟩ := init_inv start.1
  refine ⟨w, sys, fun page contents => ?_, nofun, nofun⟩
  simp [noPages]

end Steps

end Xv6Cos.Verif
