import Xv6Cos.Verif.UserRun
import Xv6Cos.Spec.ReadOnly

/-!
# Read-only pages

`cowfault` does not distinguish a page that `fork` has shared from one that was never writable.
A run keeps its read-only pages as long as no store and no copy reaches one while there is free
memory; a store or copy that does so makes the page writable.
-/

namespace Xv6Cos.Verif

open Kernel Spec Program Transition Function List Bool UserAction UserMemory Option

variable {layout : Layout} {w : World} {s t : Sys} {p : Fin NPROC} {ro : ReadOnlyBytes}
  {trace : List UserEvent} {found : UserByte} {dst n : ℕ} {src : List UInt8} {byte : UInt8}

section Rights

/-- The copy is writable. -/
theorem cowFlags_writes : cowFlags &&& PTE_W ≠ 0 := by decide

/-- Read-only, by the flags. -/
theorem isReadOnly_iff : isReadOnly found = true ↔
    found.flags &&& PTE_U ≠ 0 ∧ found.flags &&& PTE_W = 0 := by
  simp [isReadOnly]

/-- A byte that may not be written loses nothing when its page is shared. -/
theorem dropWrite_readOnly (fixed : isReadOnly found = true) : dropWrite found = found := by
  have clear := (isReadOnly_iff.mp fixed).2
  have same : found.flags &&& ~~~PTE_W = found.flags := by
    generalize found.flags = flags at clear ⊢
    revert clear
    revert flags
    decide
  unfold dropWrite
  rw [same]

/-- A byte that may not be written cannot be stored to. -/
theorem not_allows_readOnly (fixed : isReadOnly found = true) :
    allows found.flags PTE_W = false := by
  simp [allows, (isReadOnly_iff.mp fixed).2]

end Rights

section Steps

/-- A copy that arrives in part touches no page that the whole copy misses. -/
theorem touched_mono {m v : ℕ} (le : n ≤ m) (touched : Touched dst n v) : Touched dst m v := by
  unfold Touched at *
  omega

/-- An access to one byte touches its page. -/
theorem touched_self (va : ℕ) : Touched va 1 (va / PGSIZE) := by
  simp only [Touched, PGSIZE]
  omega

/-- A copy that spares read-only pages keeps them. -/
theorem copied_keeps {va : ℕ} (copied : Copied s t p dst n src)
    (spares : s.vm.freelist = [] ∨ Misses (ro p) dst src.length) (mem : ro p va = some found) :
    userMemory t p va = userMemory s p va := by
  obtain ⟨bound, none, memory⟩ := copied
  have untouched : ¬Touched dst n (va / PGSIZE) := by
    intro touched
    rcases spares with empty | misses
    · have zero := none.mpr (.inr (.inr empty))
      exact absurd touched.1 (by omega)
    · rw [misses va (touched_mono bound touched)] at mem
      contradiction
  rw [memory, UserMemory.copy, if_neg untouched]

/-- An operation that spares read-only pages keeps them. -/
theorem effect_keeps {event : UserEvent} (effect : Effect s t event) (spares : Spares s ro event)
    (kept : ReadOnlyKept s ro) : ReadOnlyKept t (trackReadOnly ro event) := by
  -- a process whose record and memory are the old ones
  have unmoved : ∀ q va found, ro q va = some found → userMemory t q va = userMemory s q va →
      isReadOnly found = true ∧ userMemory t q va = some found := fun q va found mem same =>
    ⟨(kept q va found mem).1, same.trans (kept q va found mem).2⟩
  have quiet : Unchanged s t → ReadOnlyKept t ro := fun same q va found mem =>
    unmoved q va found mem (congrFun (same q) va)
  have shared : ∀ q q' va found, ro q va = some found →
    userMemory t q' va = (userMemory s q).share va →
      isReadOnly found = true ∧ userMemory t q' va = some found := by
    intro q q' va found mem same
    obtain ⟨fixed, here⟩ := kept q va found mem
    refine ⟨fixed, ?_⟩
    rw [same, share, here, map_some, dropWrite_readOnly fixed]
  -- a process other than the one that the operation is about
  have away : ∀ p, OnlyChanges p s t → (∀ va found, ro p va = some found →
      userMemory t p va = userMemory s p va) → ReadOnlyKept t ro := by
    intro p only here q va found mem
    by_cases self : q = p
    · subst self
      exact unmoved q va found mem (here va found mem)
    · exact unmoved q va found mem (congrFun (only q self) va)
  cases event with
  | forked p np =>
    obtain ⟨distinct, others, parent, child⟩ := effect
    intro q va found mem
    simp only [trackReadOnly] at mem
    by_cases new : q = np
    · subst new
      rw [update_self] at mem
      exact shared p q va found mem (congrFun child va)
    · rw [update_of_ne new] at mem
      by_cases old : q = p
      · subst old
        exact shared q q va found mem (congrFun parent va)
      · exact unmoved q va found mem (congrFun (others q old new) va)
  | forkFailed p copying =>
    obtain ⟨only, here⟩ := effect
    intro q va found mem
    by_cases self : q = p
    · subst self
      rcases here va with same | ⟨-, same⟩
      · exact unmoved q va found mem same
      · exact shared q q va found mem same
    · exact unmoved q va found mem (congrFun (only q self) va)
  | execed p sz image =>
    obtain ⟨only, -, rfl⟩ := effect
    intro q va found mem
    simp only [trackReadOnly] at mem
    by_cases self : q = p
    · subst self
      rw [update_self, readOnlyPart] at mem
      by_cases low : va < TRAPFRAME
      · rw [if_pos low, filter_eq_some_iff] at mem
        exact ⟨mem.2, by rw [userMemory, if_pos low, mem.1]⟩
      · rw [if_neg low] at mem
        contradiction
    · rw [update_of_ne self] at mem
      exact unmoved q va found mem (congrFun (only q self) va)
  | grew p sz =>
    obtain ⟨only, here⟩ := effect
    intro q va found mem
    simp only [trackReadOnly] at mem
    by_cases self : q = p
    · subst self
      rw [update_self] at mem
      by_cases below : va < pgroundup sz
      · rw [if_pos below] at mem
        obtain ⟨fixed, before⟩ := kept q va found mem
        exact ⟨fixed, by rw [here, resize, if_pos below, before, getD_some]⟩
      · rw [if_neg below] at mem
        contradiction
    · rw [update_of_ne self] at mem
      exact unmoved q va found mem (congrFun (only q self) va)
  | stored p va byte =>
    obtain ⟨only, ⟨writable, there, allowed⟩, here⟩ := effect
    apply away p only
    intro a found mem
    -- the byte that is stored to may be written, so it is not in the record
    have other : a ≠ va := by
      rintro rfl
      obtain ⟨fixed, before⟩ := kept p a found mem
      obtain rfl := Option.some.inj (there.symm.trans before)
      rw [not_allows_readOnly fixed] at allowed
      contradiction
    rw [here, UserMemory.store, update_of_ne other]
  | faulted p va =>
    obtain ⟨only, free, -, here⟩ := effect
    apply away p only
    intro a found mem
    have other : ¬a / PGSIZE = va / PGSIZE := by
      intro same
      rw [spares.resolve_left free a (same ▸ touched_self va)] at mem
      contradiction
    rw [here, own, if_neg other]
  | copiedOut p dst src ok =>
    obtain ⟨only, n, -, copied⟩ := effect
    exact away p only fun va found mem => copied_keeps copied spares mem
  | waited p addr result =>
    cases result with
    | reaped pp pid xstate =>
      obtain ⟨distinct, others, gone, here⟩ := effect
      intro q va found mem
      simp only [trackReadOnly] at mem
      by_cases child : q = pp
      · subst child
        rw [update_self] at mem
        contradiction
      · rw [update_of_ne child] at mem
        apply unmoved q va found mem
        by_cases self : q = p
        · subst self
          by_cases null : addr = 0
          · rw [if_pos null] at here
            rw [here]
          · rw [if_neg null] at here
            refine copied_keeps here ?_ mem
            rw [length_intBytes]
            exact spares.resolve_left null
        · rw [others q self child]
    | noCopy xstate =>
      obtain ⟨only, -, n, -, copied⟩ := effect
      have spared : s.vm.freelist = [] ∨ Misses (ro p) addr (intBytes xstate).length := by
        rw [length_intBytes]
        exact spares
      exact away p only fun va found mem => copied_keeps copied spared mem
    | noChildren => exact quiet effect
    | asleep => exact quiet effect
  | storeKilled | loaded | copiedIn => exact quiet effect.1
  | execFailed | growFailed | loadKilled | exited | held | released => exact quiet effect

end Steps

/-- Such runs are runs. -/
theorem run_of_sparing {state : Sys × ReadOnlyBytes}
    (run : (sparingSystem layout).Exec trace state) :
    (readOnlySystem layout).Exec trace state := by
  refine run.invariant (readOnlySystem layout).Exec ?_ ?_
  · exact fun _ start => .start start
  · rintro trace before event after earlier ⟨step, -⟩
    exact earlier.next step

/-- A run that spares its read-only pages keeps them. -/
theorem run_keeps (run : (sparingSystem layout).Exec trace (s, ro)) :
    (∃ w, SysInv layout noPages w s) ∧ ReadOnlyKept s ro := by
  refine run.invariant (fun _ state => (∃ w, SysInv layout noPages w state.1) ∧
    ReadOnlyKept state.1 state.2) ?_ ?_
  · rintro ⟨s, ro⟩ ⟨start, none⟩
    obtain ⟨w, inv, -⟩ := init_inv start
    refine ⟨⟨w, inv⟩, fun p va found mem => ?_⟩
    rw [show ro = _ from none] at mem
    contradiction
  · rintro trace ⟨s, ro⟩ event ⟨t, ro'⟩ ⟨⟨w, inv⟩, kept⟩ ⟨⟨step, track⟩, spares⟩
    obtain ⟨w', inv', effect, -⟩ := step_performs inv step
    rw [show ro' = _ from track]
    exact ⟨⟨w', inv'⟩, effect_keeps effect spares kept⟩

/-- What a copy to user memory comes to. -/
theorem copyout_event {va : ℕ} :
    Ends ((copyout va src).run layout p) s fun event _ =>
      ∃ ok, event = .copiedOut p va src ok := by
  unfold UserAction.run
  apply Ends.bind_reads
  split
  · exact .fail _
  · exact .bind (fun _ _ _ => trivial) fun ok _ (_ : True) => .pure ⟨ok, rfl⟩

section Accesses

variable {va : ℕ} {event : UserEvent}

section Fixed

variable (inv : SysInv layout noPages w s) (alive : (s.proc p).state = .alive)
  (fixed : isReadOnly found = true) (here : userMemory s p va = some found)

include inv alive fixed here

/-- A store to a byte that the user may not write faults, and kills the process only if there is no
free page. -/
theorem store_faults (ran : (store va byte).run layout p s = .ok (event, t)) :
    (event = .faulted p va ∧ s.vm.freelist ≠ [] ∧ OnlyChanges p s t ∧
      userMemory t p = (userMemory s p).own va) ∨
    (event = .storeKilled p va ∧ Unchanged s t ∧ s.vm.freelist = []) := by
  obtain ⟨w', -, effect, -⟩ := (action_spec (.store va byte) inv alive nofun).result ran
  rcases userStore_event event t ran with rfl | rfl | rfl
  · obtain ⟨-, ⟨writable, there, allowed⟩, -⟩ := effect
    obtain rfl := Option.some.inj (there.symm.trans here)
    rw [not_allows_readOnly fixed] at allowed
    contradiction
  · exact .inl ⟨rfl, effect.2.1, effect.1, effect.2.2.2⟩
  · refine .inr ⟨rfl, effect.1, effect.2.2.resolve_left fun cannot => ?_⟩
    exact cannot ⟨found, here, (isReadOnly_iff.mp fixed).1⟩

/-- A store to a read-only byte kills the process exactly if there is no free page. -/
theorem store_readOnly (ran : (store va byte).run layout p s = .ok (event, t)) :
    (event = .storeKilled p va ∧ Unchanged s t) ↔ s.vm.freelist = [] := by
  rcases store_faults inv alive fixed here ran with ⟨rfl, free, -⟩ | ⟨rfl, same, empty⟩
  · exact iff_of_false (fun killed => nomatch killed.1) free
  · exact iff_of_true ⟨rfl, same⟩ empty

/-- A store to a read-only byte, with free memory, makes its page writable. -/
theorem store_grants (byte : UInt8) (free : s.vm.freelist ≠ []) :
    ∃ t, (store va byte).run layout p s = .ok (.faulted p va, t) ∧ OnlyChanges p s t ∧
      userMemory t p = (userMemory s p).own va := by
  have used : (s.proc p).state ≠ .unused := by rw [alive]; nofun
  have can : UserCan (userMemory s p) va := ⟨found, here, (isReadOnly_iff.mp fixed).1⟩
  obtain ⟨event, t, ran, -⟩ := userStore_survives byte inv used can free
  rcases store_faults inv alive fixed here ran with ⟨rfl, -, memory⟩ | ⟨-, -, empty⟩
  · exact ⟨t, ran, memory⟩
  · exact absurd empty free

/-- A copy to a read-only byte fails and changes nothing exactly if there is no free page. -/
theorem copyout_readOnly (nonempty : src ≠ [])
    (ran : (copyout va src).run layout p s = .ok (event, t)) :
    (event = .copiedOut p va src false ∧ Unchanged s t) ↔ s.vm.freelist = [] := by
  obtain ⟨w', -, effect, -⟩ := (action_spec (.copyout va src) inv alive nofun).result ran
  obtain ⟨ok, rfl⟩ := copyout_event event t ran
  obtain ⟨only, n, all, bound, none, memory⟩ := effect
  have length : 0 < src.length := length_pos_iff.mpr nonempty
  constructor
  · rintro ⟨-, same⟩
    by_contra free
    have some : 0 < n := by
      apply Nat.pos_of_ne_zero
      intro zero
      rcases none.mp zero with empty | cannot | full
      · exact nonempty empty
      · exact cannot ⟨found, here, (isReadOnly_iff.mp fixed).1⟩
      · exact free full
    -- the first byte of the copy has arrived, on a page that is now writable
    have arrived := congrFun memory va
    have page := Nat.div_add_mod' va PGSIZE
    have offset := Nat.mod_lt va (show 0 < PGSIZE by decide)
    have touched : Touched va n (va / PGSIZE) := by
      refine ⟨some, ?_, by omega⟩
      rw [Nat.add_mul]
      omega
    rw [same p, here, UserMemory.copy, if_pos touched, if_pos (by omega)] at arrived
    have flags := congrArg UserByte.flags (Option.some.inj arrived)
    apply cowFlags_writes
    rw [← (isReadOnly_iff.mp fixed).2, flags]
  · intro empty
    obtain rfl := none.mpr (.inr (.inr empty))
    refine ⟨?_, fun q => ?_⟩
    · cases ok with
      | true => exact absurd (all.mp rfl) (by omega)
      | false => rfl
    · by_cases self : q = p
      · subst self
        rw [memory]
        funext a
        exact if_neg fun touched => absurd touched.1 (lt_irrefl 0)
      · exact only q self

end Fixed

end Accesses

/-- In a run that spares its read-only pages they keep contents and rights. A further store to
such a page kills the process, and a copy to it fails, exactly if there is no free page. -/
theorem readonly_pages (run : (sparingSystem layout).Exec trace (s, ro)) :
    (∀ p va found, ro p va = some found →
      found.flags &&& PTE_W = 0 ∧ userMemory s p va = some found) ∧
    ∀ p va, ro p va ≠ none → (s.proc p).state = .alive →
      (∀ byte event t, (UserAction.store va byte).run layout p s = .ok (event, t) →
        (event = .storeKilled p va ∧ Unchanged s t ↔ s.vm.freelist = [])) ∧
      ∀ src event t, src ≠ [] → (UserAction.copyout va src).run layout p s = .ok (event, t) →
        (event = .copiedOut p va src false ∧ Unchanged s t ↔ s.vm.freelist = []) := by
  obtain ⟨⟨w, inv⟩, kept⟩ := run_keeps run
  refine ⟨fun p va found mem => ?_, fun p va mem alive => ?_⟩
  · obtain ⟨fixed, here⟩ := kept p va found mem
    exact ⟨(isReadOnly_iff.mp fixed).2, here⟩
  · obtain ⟨found, recorded⟩ := ne_none_iff_exists'.mp mem
    obtain ⟨fixed, here⟩ := kept p va found recorded
    exact ⟨fun byte event t ran => store_readOnly inv alive fixed here ran,
      fun src event t nonempty ran => copyout_readOnly inv alive fixed here nonempty ran⟩

/-- A program of one segment that may be read and executed. -/
def textFile : List UInt8 :=
  -- the file header: one program header, at 64
  [0x7F, 0x45, 0x4C, 0x46] ++ List.replicate 28 0 ++ [64] ++ List.replicate 23 0 ++ [1] ++
    List.replicate 7 0 ++
  -- the program header: a loaded segment at 120, of one byte
  [1, 0, 0, 0, 5, 0, 0, 0, 120] ++ List.replicate 23 0 ++ [1] ++ List.replicate 7 0 ++ [1] ++
    List.replicate 15 0 ++
  [0x13]

/-- A process with another page table. -/
def withImage (s : Sys) (p : Fin NPROC) (image : ExecImage) (vm : Vm) : Sys :=
  { s with vm := vm }.setProc p { s.proc p with pagetable := some image.pagetable }

/-- Does the machine boot, and could its first process then load the program? -/
def textBoot : Bool :=
  match boot textLayout 1 [1, 2, 3] (.reset fun _ _ => 0) with
  | .ok (_, s) => (s.read s.initproc 0).isSome && (s.proc s.initproc).state = .alive &&
      !s.held.isEmpty &&
      match (s.proc s.initproc).trapframe with
      | some tf =>
        match execImage textLayout tf textFile [] s.vm with
        | .ok (some image, vm) =>
          ((withImage s s.initproc image vm).read s.initproc 0).any isReadOnly
        | _ => false
      | none => false
  | .error _ => false

/-- The machine boots, and its first process can load the program. -/
theorem text_boots : ∃ s tf image vm found, (userSystem textLayout).init s ∧
    (s.proc s.initproc).state = .alive ∧ s.held ≠ [] ∧
    (s.proc s.initproc).trapframe = some tf ∧
    execImage textLayout tf textFile [] s.vm = .ok (some image, vm) ∧
    (withImage s s.initproc image vm).read s.initproc 0 = some found ∧ isReadOnly found = true := by
  have checked : textBoot = true := by decide +kernel
  unfold textBoot at checked
  split at checked
  · rename_i s booted
    rw [and_eq_true] at checked
    obtain ⟨state, loads⟩ := checked
    simp only [and_eq_true, decide_eq_true_eq, not_eq_true', isEmpty_eq_false_iff]
      at state
    split at loads
    · rename_i tf frame
      split at loads
      · rename_i image vm ran
        cases here : (withImage s s.initproc image vm).read s.initproc 0 with
        | none =>
          rw [here] at loads
          exact absurd loads false_ne_true
        | some found =>
          rw [here] at loads
          exact ⟨s, tf, image, vm, found, ⟨_, _, _, booted, state.1.1⟩, state.1.2, state.2, frame,
            ran, here, loads⟩
      · exact absurd loads false_ne_true
    · exact absurd loads false_ne_true
  · exact absurd checked false_ne_true

/-- The first process loads the program, whose only segment is read-only, and another part of
the kernel frees a page. -/
theorem text_loaded : ∃ trace s ro p found, (sparingSystem textLayout).Exec trace (s, ro) ∧
    ro p 0 = some found ∧ (s.proc p).state = .alive ∧ s.vm.freelist ≠ [] := by
  obtain ⟨s, tf, image, vm, found, start, alive, held, frame, ran, here, fixed⟩ := text_boots
  obtain ⟨w, inv, -⟩ := init_inv start
  obtain ⟨page, mem⟩ := exists_mem_of_ne_nil _ held
  have used : (s.proc s.initproc).state ≠ .unused := by rw [alive]; nofun
  obtain ⟨old, tf', owns⟩ := inv.owns used
  obtain rfl := Option.some.inj (owns.trapframe.symm.trans frame)
  obtain ⟨result, s₁, execed, positive, ⟨w₁, inv₁⟩, held₁, state₁, memory₁⟩ :=
    exec_of_image inv owns ran
  have image₁ := memory₁ (withImage s s.initproc image vm) rfl
    (by rw [withImage, setProc_self])
  have alive₁ : (s₁.proc s.initproc).state = .alive := state₁.trans alive
  have loaded : (userSystem textLayout).step s
      (.execed s.initproc (s₁.proc s.initproc).sz (s₁.read s.initproc)) s₁ := by
    refine ⟨s.initproc, .exec (some textFile) [], alive, ?_⟩
    show (exec textLayout s.initproc (some textFile) [] >>= _) s = _
    rw [bind_of_ok execed]
    simp only [if_pos positive]
    rfl
  have mem₁ : page ∈ s₁.held := by rwa [held₁]
  obtain ⟨event, s₂, released, rfl, free, procs⟩ :=
    release_fills (p := s.initproc) inv₁ mem₁
  have freed : (userSystem textLayout).step s₁ (.released page) s₂ :=
    ⟨s.initproc, .release page, ⟨alive₁, mem₁⟩, released⟩
  have recorded : readOnlyPart (s₁.read s.initproc) 0 = some found := by
    have low : 0 < TRAPFRAME := by decide
    have same := congrFun image₁ 0
    rw [userMemory, userMemory, if_pos low, if_pos low, here] at same
    rw [readOnlyPart, if_pos low, same, filter_some, if_pos fixed]
  let ro : ReadOnlyBytes :=
    update (fun _ _ => none) s.initproc (readOnlyPart (s₁.read s.initproc))
  have run : (sparingSystem textLayout).Exec [] (s, fun _ _ => none) := .start ⟨start, rfl⟩
  have run₁ := run.next (t := (s₁, ro)) ⟨⟨loaded, rfl⟩, trivial⟩
  have run₂ := run₁.next (t := (s₂, ro)) ⟨⟨freed, rfl⟩, trivial⟩
  refine ⟨_, s₂, ro, s.initproc, found, run₂, ?_, ?_, free⟩
  · rw [show ro s.initproc = _ from update_self ..]
    exact recorded
  · rw [procs]
    exact alive₁

/-- The text of the program is where it was loaded. -/
theorem readonly_pages_text : ∃ trace s ro p found,
    (sparingSystem textLayout).Exec trace (s, ro) ∧ ro p 0 = some found ∧
    found.flags &&& PTE_W = 0 ∧ userMemory s p 0 = some found := by
  obtain ⟨trace, s, ro, p, found, run, recorded, -⟩ := text_loaded
  exact ⟨trace, s, ro, p, found, run, recorded, (readonly_pages run).1 p 0 found recorded⟩

/-- A store to the text of the program does not kill the process: the page becomes writable. -/
theorem readonly_text_written : ∃ trace s ro p found t found',
    (readOnlySystem textLayout).Exec trace (s, ro) ∧ ro p 0 = some found ∧
    found.flags &&& PTE_W = 0 ∧ (userSystem textLayout).step s (.faulted p 0) t ∧
    userMemory t p 0 = some found' ∧ found'.flags &&& PTE_W ≠ 0 := by
  obtain ⟨trace, s, ro, p, found, run, recorded, alive, free⟩ := text_loaded
  obtain ⟨⟨w, inv⟩, kept⟩ := run_keeps run
  obtain ⟨fixed, here⟩ := kept p 0 found recorded
  obtain ⟨t, ran, -, memory⟩ := store_grants inv alive fixed here 0xFF free
  have after : userMemory t p 0 = some (setFlags cowFlags found) := by
    rw [memory, own, if_pos rfl, here]
    rfl
  exact ⟨trace, s, ro, p, found, t, _, run_of_sparing run, recorded, (isReadOnly_iff.mp fixed).2,
    ⟨p, .store 0 0xFF, alive, ran⟩, after, cowFlags_writes⟩

end Xv6Cos.Verif
