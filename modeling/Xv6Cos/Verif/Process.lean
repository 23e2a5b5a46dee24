import Xv6Cos.Verif.ExecImage

/-!
# The process table and memory

`SysInv` ties the process table to the world: every process in use owns one live page table
of the right shape and one trapframe, and nothing is owned twice. The lemmas say which
changes of memory keep it, and which user memories such a change leaves alone.
-/

namespace Xv6Cos.Verif

open Kernel Spec Program Set Option Safe

variable {va : ℕ} {S S' : Space} {α β : Type}

section Bytes

variable {layout : Layout} {kept : ℕ → Option Page} {w : World} {vm : Vm}

/-- The user memory that a page table gives. -/
def Space.bytes (S : Space) (vm : Vm) : UserMemory := fun va =>
  if va < TRAPFRAME then
    (S.leaf (va / PGSIZE)).map fun pte => ⟨pte.flags, vm.mem pte.pn (va % PGSIZE)⟩
  else none

theorem lt_TRAPFRAME : va < TRAPFRAME ↔ va / PGSIZE < UPAGES := by
  rw [TRAPFRAME_eq, Nat.div_lt_iff_lt_mul (by decide)]

theorem bytes_eq (low : va / PGSIZE < UPAGES) : S.bytes vm va =
    (S.leaf (va / PGSIZE)).map fun pte => ⟨pte.flags, vm.mem pte.pn (va % PGSIZE)⟩ :=
  if_pos (lt_TRAPFRAME.mpr low)

theorem bytes_high (high : ¬va / PGSIZE < UPAGES) : S.bytes vm va = none :=
  if_neg fun below => high (lt_TRAPFRAME.mp below)

/-- The same entry gives the same byte. -/
theorem bytes_same {vm' : Vm} (leaf : S'.leaf (va / PGSIZE) = S.leaf (va / PGSIZE))
    (contents : ∀ v < UPAGES, ∀ pte, S.leaf v = some pte → vm'.mem pte.pn = vm.mem pte.pn) :
    S'.bytes vm' va = S.bytes vm va := by
  by_cases low : va / PGSIZE < UPAGES
  · rw [bytes_eq low, bytes_eq low, leaf]
    cases entry : S.leaf (va / PGSIZE) with
    | none => rfl
    | some pte => simp [contents _ low pte entry]
  · rw [bytes_high low, bytes_high low]

/-- Page tables with the same user pages give the same user memory. -/
theorem bytes_congr {vm' : Vm} (leaves : ∀ v < UPAGES, S'.leaf v = S.leaf v)
    (contents : ∀ v < UPAGES, ∀ pte, S.leaf v = some pte → vm'.mem pte.pn = vm.mem pte.pn) :
    S'.bytes vm' = S.bytes vm := by
  funext va
  by_cases low : va / PGSIZE < UPAGES
  · exact bytes_same (leaves _ low) contents
  · rw [bytes_high low, bytes_high low]

/-- The memory of a process, by its page table. -/
theorem userMemory_eq {s : Sys} {p : Fin NPROC} {r : ℕ} {owner : ℕ → Owner}
    (root : (s.proc p).pagetable = some r) (ok : TableOk owner s.vm r S) :
    userMemory s p = S.bytes s.vm := by
  funext va
  unfold userMemory Space.bytes
  by_cases low : va < TRAPFRAME
  · have bound : va < 2 ^ 38 := by
      simp only [TRAPFRAME, TRAMPOLINE, MAXVA] at low
      omega
    have legal : canonical va = true := by
      simp only [canonical, bound, decide_true, Bool.true_or]
    have page : vpage va = va / PGSIZE := vpage_of_lt (by simpa [MAXVA] using bound)
    rw [if_pos low, if_pos low, Sys.read, root]
    simp only [bind_eq_bind, bind_some, translate_eq ok legal, page, bind_map]
    cases S.leaf (va / PGSIZE) with
    | none => rfl
    | some pte => simp [physPage, Nat.mod_one]
  · rw [if_neg low, if_neg low]

theorem userMemory_none {s : Sys} {p : Fin NPROC} (root : (s.proc p).pagetable = none) :
    userMemory s p = fun _ => none := by
  funext va
  simp [userMemory, Sys.read, root]

end Bytes

/-- An entry of the process table that is not in use. -/
structure Idle (pr : Proc) : Prop where
  unused : pr.state = .unused
  pagetable : pr.pagetable = none
  trapframe : pr.trapframe = none
  size : pr.sz = 0

/-- A process in use owns a page table and a trapframe. -/
structure Owns (layout : Layout) (w : World) (pr : Proc) (r tf : ℕ) : Prop where
  used : pr.state ≠ .unused
  pagetable : pr.pagetable = some r
  trapframe : pr.trapframe = some tf
  live : r ∈ w.live
  kernel : w.owner tf = .kernel
  shape : Shape layout (w.space r) tf pr.sz

/-- An entry of the process table is in order. -/
def ProcOk (layout : Layout) (w : World) (pr : Proc) : Prop :=
  Idle pr ∨ ∃ r tf, Owns layout w pr r tf

/-- No page is kept. -/
def noPages : ℕ → Option Page := fun _ => none

/-- The process table and memory fit together, and the pages of other parts of the kernel in
`kept` have these contents. -/
structure SysInv (layout : Layout) (kept : ℕ → Option Page) (w : World) (s : Sys) : Prop where
  rep : Rep layout w s.vm
  procs : ∀ p, ProcOk layout w (s.proc p)
  roots : ∀ r ∈ w.live, ∃ p, (s.proc p).pagetable = some r
  tables : ∀ p q r, (s.proc p).pagetable = some r → (s.proc q).pagetable = some r → p = q
  frames : ∀ p q tf, (s.proc p).trapframe = some tf → (s.proc q).trapframe = some tf → p = q
  held : ∀ page ∈ s.held, w.owner page = .kernel ∧ ∀ p, (s.proc p).trapframe ≠ some page
  nodup : s.held.Nodup
  keep : ∀ page contents, kept page = some contents → page ∈ s.held ∧ s.vm.mem page = contents
  /-- No page of the kernel is lost. -/
  accounted : ∀ page, w.owner page = .kernel → page ∈ s.held ∨ ∃ p, (s.proc p).trapframe = some page
  managed : ∀ q, layout.kend ≤ q → q < PHYSPAGES → w.owner q ≠ .outside

section Invariant

variable {layout : Layout} {kept : ℕ → Option Page} {w w' : World} {s t : Sys} {p q : Fin NPROC}
  {r tf : ℕ} {pr : Proc}
  {vm vm' : Vm} {R : Set ℕ} {M : Set (ℕ × ℕ)} {K : Set ℕ}

section

variable (inv : SysInv layout kept w s)

include inv

/-- What a process in use owns. -/
theorem SysInv.owns (used : (s.proc p).state ≠ .unused) :
    ∃ r tf, Owns layout w (s.proc p) r tf := by
  rcases inv.procs p with idle | owns
  · exact absurd idle.unused used
  · exact owns

/-- The owner of a page table. -/
theorem SysInv.owns_root (root : (s.proc p).pagetable = some r) :
    ∃ tf, Owns layout w (s.proc p) r tf := by
  rcases inv.procs p with idle | ⟨r', tf, owns⟩
  · rw [idle.pagetable] at root
    contradiction
  · obtain rfl := some.inj (owns.pagetable.symm.trans root)
    exact ⟨tf, owns⟩

theorem SysInv.owns_frame (frame : (s.proc p).trapframe = some tf) : w.owner tf = .kernel := by
  rcases inv.procs p with idle | ⟨r, tf', owns⟩
  · rw [idle.trapframe] at frame
    contradiction
  · obtain rfl := some.inj (owns.trapframe.symm.trans frame)
    exact owns.kernel

theorem SysInv.unused (unused : (s.proc p).state = .unused) : Idle (s.proc p) := by
  rcases inv.procs p with idle | ⟨r, tf, owns⟩
  · exact idle
  · exact absurd unused owns.used

end

/-- A process keeps what it owns when only other page tables change. -/
theorem Owns.frame (owns : Owns layout w pr r tf) (frame : Frame R M K w vm w' vm') (other : r ∉ R)
    (outside : tf ∉ K) : Owns layout w' pr r tf where
  used := owns.used
  pagetable := owns.pagetable
  trapframe := owns.trapframe
  live := frame.live r owns.live other
  kernel := (frame.pages tf outside (not_private_kernel owns.kernel)).2.trans owns.kernel
  shape := by
    rw [frame.space r owns.live other]
    exact owns.shape

theorem ProcOk.frame (ok : ProcOk layout w pr) (frame : Frame R M K w vm w' vm')
    (other : ∀ r, pr.pagetable = some r → r ∉ R) (outside : ∀ tf, pr.trapframe = some tf → tf ∉ K) :
    ProcOk layout w' pr := by
  rcases ok with idle | ⟨r, tf, owns⟩
  · exact .inl idle
  · exact .inr ⟨r, tf, owns.frame frame (other r owns.pagetable) (outside tf owns.trapframe)⟩

/-- The user memory of a page table that an operation leaves alone. -/
theorem bytes_frame (rep : Rep layout w vm) (live : r ∈ w.live) (frame : Frame R M K w vm w' vm')
    (notUser : ∀ q ∈ K, w.owner q ≠ .user) (other : r ∉ R) (unmoved : ∀ v, (r, v) ∉ M) :
    (w'.space r).bytes vm' = (w.space r).bytes vm := by
  rw [frame.space r live other]
  refine bytes_congr (fun _ _ => rfl) fun v low pte leaf => ?_
  have user := rep.targets r live v low pte leaf
  exact (frame.mapped_page live low leaf user (unmoved v) fun mem => notUser _ mem user).1

section

variable (inv : SysInv layout kept w s)

include inv

/-- The pages of other parts of the kernel that an operation leaves alone. -/
theorem SysInv.keep_frame (frame : Frame R M K w s.vm w' t.vm)
    (notHeld : ∀ q ∈ K, q ∉ s.held) (held : t.held = s.held) (page : ℕ) (contents : Page)
    (here : kept page = some contents) : page ∈ t.held ∧ t.vm.mem page = contents := by
  obtain ⟨mem, same⟩ := inv.keep page contents here
  have kernel := (inv.held page mem).1
  rw [held]
  exact ⟨mem, (frame.pages page (fun named => notHeld page named mem)
    (not_private_kernel kernel)).1.trans same⟩

/-- The memory of a process that an operation leaves alone. -/
theorem SysInv.memory_frame (rep : Rep layout w' t.vm)
    (frame : Frame R M K w s.vm w' t.vm) (notUser : ∀ q ∈ K, w.owner q ≠ .user)
    (same : (t.proc q).pagetable = (s.proc q).pagetable)
    (other : ∀ r, (s.proc q).pagetable = some r → r ∉ R ∧ ∀ v, (r, v) ∉ M) :
    userMemory t q = userMemory s q := by
  cases root : (s.proc q).pagetable with
  | none => rw [userMemory_none root, userMemory_none (same.trans root)]
  | some r =>
    obtain ⟨tf, owns⟩ := inv.owns_root root
    obtain ⟨untouched, unmoved⟩ := other r root
    have live' := frame.live r owns.live untouched
    rw [userMemory_eq root (inv.rep.tables r owns.live),
      userMemory_eq (same.trans root) (rep.tables r live')]
    exact bytes_frame inv.rep owns.live frame notUser untouched unmoved

/-- An operation that gives no page to the kernel takes none out of the allocator's care. -/
theorem SysInv.managed_frame (frame : Frame R M K w s.vm w' vm')
    (named : ∀ q ∈ K, w'.owner q ≠ .outside) :
    ∀ q, layout.kend ≤ q → q < PHYSPAGES → w'.owner q ≠ .outside := by
  intro q above below gone
  by_cases mem : q ∈ K
  · exact named q mem gone
  · exact inv.managed q above below ((frame.settled q mem (.inr gone)).trans gone)

/-- The pages of the kernel that an operation leaves behind. -/
theorem SysInv.accounted_frame (frame : Frame R M K w s.vm w' vm')
    (named : ∀ q ∈ K, w'.owner q = .kernel → w.owner q = .kernel) (page : ℕ)
    (kernel : w'.owner page = .kernel) : page ∈ s.held ∨ ∃ p, (s.proc p).trapframe = some page := by
  apply inv.accounted page
  by_cases mem : page ∈ K
  · exact named page mem kernel
  · exact (frame.settled page mem (.inl kernel)).trans kernel

end

/-- An operation that changes the page tables of some processes keeps the invariant, if it
leaves these processes in order. -/
theorem SysInv.change (P : Fin NPROC → Prop) (inv : SysInv layout kept w s)
    (rep : Rep layout w' t.vm)
    (frame : Frame R M K w s.vm w' t.vm) (live : w'.live = w.live)
    (others : ∀ q, ¬P q → t.proc q = s.proc q ∧
      (∀ r, (s.proc q).pagetable = some r → r ∉ R ∧ ∀ v, (r, v) ∉ M) ∧
      ∀ tf, (s.proc q).trapframe = some tf → tf ∉ K)
    (changed : ∀ q, P q → ProcOk layout w' (t.proc q) ∧
      (t.proc q).pagetable = (s.proc q).pagetable ∧ (t.proc q).trapframe = (s.proc q).trapframe)
    (notUser : ∀ q ∈ K, w.owner q ≠ .user) (notHeld : ∀ q ∈ K, q ∉ s.held) (held : t.held = s.held)
    (named : ∀ q ∈ K, Retained (w'.owner q) → w.owner q = .kernel ∧ w'.owner q = .kernel) :
    SysInv layout kept w' t ∧ ∀ q, ¬P q → userMemory t q = userMemory s q := by
  have pagetables : ∀ q, (t.proc q).pagetable = (s.proc q).pagetable := by
    intro q
    by_cases mine : P q
    · exact (changed q mine).2.1
    · rw [(others q mine).1]
  have trapframes : ∀ q, (t.proc q).trapframe = (s.proc q).trapframe := by
    intro q
    by_cases mine : P q
    · exact (changed q mine).2.2
    · rw [(others q mine).1]
  refine ⟨⟨rep, fun q => ?_, fun r mem => ?_, fun p q r => ?_, fun p q tf => ?_,
    fun page mem => ?_, held ▸ inv.nodup, inv.keep_frame frame notHeld held, fun page kernel => ?_,
    inv.managed_frame frame fun q mem gone => ?_⟩, fun q mine => ?_⟩
  · by_cases mine : P q
    · exact (changed q mine).1
    · obtain ⟨same, roots, tfs⟩ := others q mine
      rw [same]
      exact (inv.procs q).frame frame (fun r root => (roots r root).1) tfs
  · obtain ⟨q, root⟩ := inv.roots r (live ▸ mem)
    exact ⟨q, (pagetables q).trans root⟩
  · rw [pagetables, pagetables]
    exact inv.tables p q r
  · rw [trapframes, trapframes]
    exact inv.frames p q tf
  · rw [held] at mem
    obtain ⟨kernel, apart⟩ := inv.held page mem
    refine ⟨(frame.pages page (fun named => notHeld page named mem)
      (not_private_kernel kernel)).2.trans kernel, fun q => ?_⟩
    rw [trapframes]
    exact apart q
  · rw [held]
    simp only [trapframes]
    exact inv.accounted_frame frame (fun q mem kernel => (named q mem (.inl kernel)).1) page kernel
  · have kernel := (named q mem (.inr gone)).2
    rw [gone] at kernel
    contradiction
  · exact inv.memory_frame rep frame notUser (pagetables q) (others q mine).2.1

section

variable (inv : SysInv layout kept w s)

include inv

/-- The invariant depends only on memory and on what the process table says about it. -/
theorem SysInv.of_fields (vm : t.vm = s.vm) (held : t.held = s.held)
    (same : ∀ q, (t.proc q).pagetable = (s.proc q).pagetable ∧
      (t.proc q).trapframe = (s.proc q).trapframe ∧ (t.proc q).sz = (s.proc q).sz ∧
      ((t.proc q).state = .unused ↔ (s.proc q).state = .unused)) :
    SysInv layout kept w t ∧ Unchanged s t := by
  have rep : Rep layout w t.vm := vm ▸ inv.rep
  have frame : Frame ∅ ∅ ∅ w s.vm w t.vm := vm ▸ .refl
  have kept := inv.change (fun _ => True) rep frame rfl (fun q none => absurd trivial none)
    (fun q _ => ⟨?_, (same q).1, (same q).2.1⟩) (fun q mem => absurd mem (notMem_empty q))
    (fun q mem => absurd mem (notMem_empty q)) held fun q mem => absurd mem (notMem_empty q)
  · exact ⟨kept.1, fun q => inv.memory_frame rep frame (fun q mem => absurd mem (notMem_empty q))
      (same q).1 fun r _ => ⟨notMem_empty r, fun v => notMem_empty _⟩⟩
  · obtain ⟨pagetable, trapframe, size, unused⟩ := same q
    rcases inv.procs q with idle | ⟨r, tf, owns⟩
    · exact .inl ⟨unused.mpr idle.unused, pagetable.trans idle.pagetable,
        trapframe.trans idle.trapframe, size.trans idle.size⟩
    · exact .inr ⟨r, tf, fun free => owns.used (unused.mp free), pagetable.trans owns.pagetable,
        trapframe.trans owns.trapframe, owns.live, owns.kernel, size ▸ owns.shape⟩

section

variable (owns : Owns layout w (s.proc p) r tf)

include owns

/-- The other processes own other page tables and trapframes. -/
theorem SysInv.apart (mine : M ⊆ {m | m.1 = r}) (frames : K ⊆ {tf}) : ∀ q ≠ p,
    (∀ r', (s.proc q).pagetable = some r' → r' ∉ ({r} : Set ℕ) ∧ ∀ v, (r', v) ∉ M) ∧
      ∀ tf', (s.proc q).trapframe = some tf' → tf' ∉ K := by
  refine fun q other => ⟨fun r' root => ?_, fun tf' frame mem => ?_⟩
  · have apart : r' ≠ r := fun same => other (inv.tables q p r (same ▸ root) owns.pagetable)
    exact ⟨apart, fun v mem => apart (mine mem)⟩
  · have same : tf' = tf := frames mem
    exact other (inv.frames q p tf (same ▸ frame) owns.trapframe)

/-- A trapframe is no user page, and no other part of the kernel holds it. -/
theorem SysInv.frame_apart (frames : K ⊆ {tf}) : (∀ q ∈ K, w.owner q ≠ .user) ∧
    ∀ q ∈ K, q ∉ s.held := by
  refine ⟨fun q mem => ?_, fun q mem holds => ?_⟩
  · rw [show q = tf from frames mem, owns.kernel]
    nofun
  · rw [show q = tf from frames mem] at holds
    exact (inv.held tf holds).2 p owns.trapframe

/-- An operation on the page table and the trapframe of one process keeps the invariant and
the memories of the others. -/
theorem SysInv.touch (rep : Rep layout w' t.vm) (frame : Frame {r} M K w s.vm w' t.vm)
    (live : w'.live = w.live)
    (mine : M ⊆ {m | m.1 = r}) (frames : K ⊆ {tf}) (owns' : Owns layout w' (t.proc p) r tf)
    (others : ∀ q ≠ p, t.proc q = s.proc q) (held : t.held = s.held) :
    SysInv layout kept w' t ∧ OnlyChanges p s t := by
  obtain ⟨notUser, notHeld⟩ := inv.frame_apart owns frames
  refine inv.change (· = p) rep frame live
    (fun q other => ⟨others q other, inv.apart owns mine frames q other⟩) ?_ notUser notHeld held
    fun q mem _ => ?_
  · rintro q rfl
    exact ⟨.inr ⟨r, tf, owns'⟩, owns'.pagetable.trans owns.pagetable.symm,
      owns'.trapframe.trans owns.trapframe.symm⟩
  · rw [show q = tf from frames mem]
    exact ⟨owns.kernel, owns'.kernel⟩

end

end

end Invariant

section Table

variable {layout : Layout} {kept : ℕ → Option Page} {w w₁ : World} {s t : Sys}
  {p : Fin NPROC} {r tf : ℕ}
  {R : Set ℕ} {M : Set (ℕ × ℕ)} {K : Set ℕ}
  {m : VmM α} {next : α → SysM β} {post : α → Vm → Prop} {last : β → Sys → Prop}

@[simp] theorem setProc_self (pr : Proc) : (s.setProc p pr).proc p = pr := Function.update_self ..

theorem setProc_of_ne {pr : Proc} {q : Fin NPROC} (other : q ≠ p) :
    (s.setProc p pr).proc q = s.proc q := Function.update_of_ne other ..

/-- A program over memory, as one over the kernel's state. -/
theorem memory_safe (safe : Safe m s.vm post) :
    Safe (memory m) s fun a t => ∃ vm, post a vm ∧ t = { s with vm := vm } :=
  within safe fun _ vm holds => ⟨vm, holds, rfl⟩

/-- Run a program over memory, then go on. -/
theorem bind_memory (safe : Safe m s.vm post)
    (rest : ∀ a vm, post a vm → Safe (next a) { s with vm := vm } last) :
    Safe (memory m >>= next) s last := by
  refine .bind (memory_safe safe) ?_
  rintro a t ⟨vm, holds, rfl⟩
  exact rest a vm holds

/-- Change memory, then go on. -/
theorem bind_memory_modifies {f : Vm → Vm} {next : Unit → SysM β}
    (rest : Safe (next ()) { s with vm := f s.vm } last) :
    Safe (memory (modifies f) >>= next) s last := rest

/-- Run a program over memory, then go on, if it ends. -/
theorem bind_memory_ends (ends : Ends m s.vm post)
    (rest : ∀ a vm, post a vm → Ends (next a) { s with vm := vm } last) :
    Ends (memory m >>= next) s last := by
  have first : Ends (memory m) s fun a t => ∃ vm, post a vm ∧ t = { s with vm := vm } :=
    Ends.within ends fun _ vm holds => ⟨vm, holds, rfl⟩
  refine .bind first ?_
  rintro a t ⟨vm, holds, rfl⟩
  exact rest a vm holds

/-- Run a program over memory, then go on, perhaps to fail. -/
theorem bind_memory_unless {e : VmPanic} (safe : Safe m s.vm post)
    (rest : ∀ a vm, post a vm → SafeUnless e (next a) { s with vm := vm } last) :
    SafeUnless e (memory m >>= next) s last := by
  refine .bind (.inr (memory_safe safe)) ?_
  rintro a t ⟨vm, holds, rfl⟩
  exact rest a vm holds

/-- What each process owns for itself stays so when one of them gets something new. -/
theorem owned_once {before after : Fin NPROC → Option ℕ}
    (once : ∀ a b x, before a = some x → before b = some x → a = b)
    (others : ∀ q ≠ p, after q = before q)
    (new : ∀ q ≠ p, ∀ x, after p = some x → before q ≠ some x) :
    ∀ a b x, after a = some x → after b = some x → a = b := by
  intro a b x mineA mineB
  by_cases hereA : a = p <;> by_cases hereB : b = p
  · rw [hereA, hereB]
  · rw [others b hereB] at mineB
    exact absurd mineB (new b hereB x (hereA ▸ mineA))
  · rw [others a hereA] at mineA
    exact absurd mineA (new a hereA x (hereB ▸ mineB))
  · rw [others a hereA] at mineA
    rw [others b hereB] at mineB
    exact once a b x mineA mineB

section

variable (inv : SysInv layout kept w s)

include inv

/-- One process gets another page table or trapframe, or gives them up. -/
theorem SysInv.replace (rep : Rep layout w₁ t.vm) (frame : Frame R M K w s.vm w₁ t.vm)
    (others : ∀ q ≠ p, t.proc q = s.proc q ∧
      (∀ r, (s.proc q).pagetable = some r → r ∉ R ∧ ∀ v, (r, v) ∉ M) ∧
      ∀ tf, (s.proc q).trapframe = some tf → tf ∉ K)
    (notUser : ∀ q ∈ K, w.owner q ≠ .user) (notHeld : ∀ q ∈ K, q ∉ s.held) (held : t.held = s.held)
    (ok : ProcOk layout w₁ (t.proc p))
    (roots : ∀ r ∈ w₁.live, (t.proc p).pagetable = some r ∨
      r ∈ w.live ∧ (s.proc p).pagetable ≠ some r)
    (newRoot : ∀ q ≠ p, ∀ r, (t.proc p).pagetable = some r → (s.proc q).pagetable ≠ some r)
    (newFrame : ∀ q ≠ p, ∀ tf, (t.proc p).trapframe = some tf → (s.proc q).trapframe ≠ some tf)
    (newHeld : ∀ page ∈ s.held, (t.proc p).trapframe ≠ some page)
    (named : ∀ q ∈ K, Retained (w₁.owner q) → w₁.owner q = .kernel ∧ (t.proc p).trapframe = some q)
    (oldFrame : ∀ tf, (s.proc p).trapframe = some tf → w₁.owner tf = .kernel →
      (t.proc p).trapframe = some tf) :
    SysInv layout kept w₁ t ∧ OnlyChanges p s t := by
  have same : ∀ q ≠ p, t.proc q = s.proc q := fun q other => (others q other).1
  refine ⟨⟨rep, fun q => ?_, fun r mem => ?_,
    owned_once inv.tables (fun q other => by rw [same q other]) newRoot,
    owned_once inv.frames (fun q other => by rw [same q other]) newFrame,
    fun page mem => ?_, held ▸ inv.nodup, inv.keep_frame frame notHeld held, fun page kernel => ?_,
    inv.managed_frame frame fun q mem gone => ?_⟩, fun q other => ?_⟩
  · by_cases here : q = p
    · exact here ▸ ok
    · obtain ⟨entry, untouched, outside⟩ := others q here
      rw [entry]
      exact (inv.procs q).frame frame (fun r root => (untouched r root).1) outside
  · rcases roots r mem with mine | ⟨old, notMine⟩
    · exact ⟨p, mine⟩
    · obtain ⟨q, root⟩ := inv.roots r old
      have other : q ≠ p := fun here => notMine (here ▸ root)
      exact ⟨q, same q other ▸ root⟩
  · rw [held] at mem
    obtain ⟨kernel, apart⟩ := inv.held page mem
    refine ⟨(frame.pages page (fun named => notHeld page named mem)
      (not_private_kernel kernel)).2.trans kernel, fun q => ?_⟩
    by_cases here : q = p
    · exact here ▸ newHeld page mem
    · rw [same q here]
      exact apart q
  · by_cases mem : page ∈ K
    · exact .inr ⟨p, (named page mem (.inl kernel)).2⟩
    · rw [held]
      refine (inv.accounted page ((frame.settled page mem (.inl kernel)).trans kernel)).imp_right ?_
      rintro ⟨q, taken⟩
      by_cases here : q = p
      · exact ⟨p, oldFrame page (here ▸ taken) kernel⟩
      · exact ⟨q, by rw [same q here, taken]⟩
  · have kernel := (named q mem (.inr gone)).1
    rw [gone] at kernel
    contradiction
  · exact inv.memory_frame rep frame notUser (by rw [same q other]) (others q other).2.1

/-- An unused entry becomes a process of size 0 with a new page table and a new trapframe. -/
theorem SysInv.create (idle : Idle (s.proc p)) (rep : Rep layout w₁ t.vm)
    (frame : Frame ∅ ∅ {tf} w s.vm w₁ t.vm) (live : w₁.live = insert r w.live) (dead : r ∉ w.live)
    (free : w.owner tf = .free) (owns : Owns layout w₁ (t.proc p) r tf) (size : (t.proc p).sz = 0)
    (others : ∀ q ≠ p, t.proc q = s.proc q) (held : t.held = s.held) :
    SysInv layout kept w₁ t ∧ Unchanged s t := by
  have replaced : SysInv layout kept w₁ t ∧ OnlyChanges p s t := by
    refine inv.replace rep frame (fun q other => ⟨others q other, fun r' _ =>
      ⟨notMem_empty r', fun v => notMem_empty _⟩, fun tf' taken mem => ?_⟩)
      (fun q mem user => ?_) (fun q mem holds => ?_)
      held (.inr ⟨r, tf, owns⟩) (fun r' mem => ?_) (fun q other r' mine root => ?_)
      (fun q other tf' mine taken => ?_) (fun page mem mine => ?_) (fun q mem _ => ?_)
      fun tf' taken => ?_
    · rw [mem_singleton_iff.mp mem] at taken
      rw [inv.owns_frame taken] at free
      contradiction
    · rw [mem_singleton_iff.mp mem, free] at user
      contradiction
    · rw [mem_singleton_iff.mp mem] at holds
      rw [(inv.held tf holds).1] at free
      contradiction
    · rw [live, Finset.mem_insert] at mem
      rcases mem with rfl | mem
      · exact .inl owns.pagetable
      · exact .inr ⟨mem, by rw [idle.pagetable]; nofun⟩
    · obtain ⟨tf', owner⟩ := inv.owns_root root
      obtain rfl := some.inj (owns.pagetable.symm.trans mine)
      exact dead owner.live
    · obtain rfl := some.inj (owns.trapframe.symm.trans mine)
      rw [inv.owns_frame taken] at free
      contradiction
    · obtain rfl := some.inj (owns.trapframe.symm.trans mine)
      rw [(inv.held tf mem).1] at free
      contradiction
    · rw [mem_singleton_iff.mp mem]
      exact ⟨owns.kernel, owns.trapframe⟩
    · rw [idle.trapframe] at taken
      contradiction
  refine ⟨replaced.1, fun q => ?_⟩
  by_cases here : q = p
  · rw [here, userMemory_none idle.pagetable, userMemory_eq owns.pagetable
      (rep.tables r owns.live)]
    funext va
    by_cases low : va / PGSIZE < UPAGES
    · rw [bytes_eq low, owns.shape.unmapped _ (by rw [size, npages_zero]; exact Nat.zero_le _) low]
      rfl
    · exact bytes_high low
  · exact replaced.2 q here

/-- `freeproc` of a process in use gives up its memory. -/
theorem freeproc_spec (owns : Owns layout w (s.proc p) r tf) :
    Safe (freeproc layout p) s fun _ t => ∃ w', SysInv layout kept w' t ∧ OnlyChanges p s t ∧
      userMemory t p = (fun _ => none) ∧ w'.extra = w.extra ∧
      ∀ q ≠ p, t.proc q = s.proc q ∧
        ∀ r', (s.proc q).pagetable = some r' → w'.space r' = w.space r' := by
  unfold freeproc
  apply bind_reads
  simp only [owns.trapframe, owns.pagetable]
  refine bind_memory (kfree_kernel inv.rep owns.kernel) fun _ vm₁ freed => ?_
  refine bind_memory (procFreepagetable_spec freed.rep owns.live owns.shape) ?_
  rintro _ vm₂ ⟨w₂, frees⟩
  have frame : Frame {r} (vpages r 0 (npages (s.proc p).sz)) {tf} w s.vm w₂ vm₂ :=
    (freed.frame.mono (empty_subset _) (empty_subset _) le_rfl).trans
      (frees.frame.mono le_rfl le_rfl (empty_subset _))
  obtain ⟨notUser, notHeld⟩ := inv.frame_apart owns le_rfl
  have gone : ¬Retained (w₂.owner tf) := by
    intro keeps
    have before := frees.frame.settled tf (notMem_empty _) keeps
    rw [World.setOwner_self] at before
    exact not_retained_free (before ▸ keeps)
  have replaced : SysInv layout kept w₂ ({ s with vm := vm₂ }.setProc p .cleared) ∧
      OnlyChanges p s ({ s with vm := vm₂ }.setProc p .cleared) := by
    refine inv.replace frees.rep frame
      (fun q other => ⟨setProc_of_ne other, inv.apart owns (fun m mem => mem.1) le_rfl q other⟩)
      notUser notHeld rfl (.inl ?_) (fun r' mem => .inr ?_) ?_ ?_ ?_
      (fun q mem keeps => absurd keeps (by rwa [mem_singleton_iff.mp mem]))
      fun tf' taken kernel => ?_
    · rw [setProc_self]
      exact ⟨rfl, rfl, rfl, rfl⟩
    · rw [frees.live, Finset.mem_erase] at mem
      exact ⟨mem.2, fun root => mem.1 (some.inj (root.symm.trans owns.pagetable))⟩
    · rw [setProc_self]
      nofun
    · rw [setProc_self]
      nofun
    · rw [setProc_self]
      nofun
    · obtain rfl := some.inj (owns.trapframe.symm.trans taken)
      exact absurd (.inl kernel) gone
  refine .modifies ⟨w₂, replaced.1, replaced.2, userMemory_none (by rw [setProc_self]; rfl),
    frees.extra, fun q other => ⟨setProc_of_ne other, fun r' root => ?_⟩⟩
  obtain ⟨tf', owns'⟩ := inv.owns_root root
  exact frame.space r' owns'.live fun mine =>
    other (inv.tables q p r (mem_singleton_iff.mp mine ▸ root) owns.pagetable)

/-- An operation that leaves page tables and process table alone keeps everything. -/
theorem SysInv.quiet {w' : World}
    (updates : Updates layout ∅ ∅ ∅ w s.vm w' t.vm) (proc : t.proc = s.proc)
    (held : t.held = s.held) : SysInv layout kept w' t ∧ Unchanged s t := by
  have kept := inv.change (fun _ => False) updates.rep updates.frame updates.live
    (fun q _ => ⟨by rw [proc], fun r _ => ⟨notMem_empty r, fun v => notMem_empty _⟩,
      fun tf _ => notMem_empty tf⟩) (fun q never => never.elim)
    (fun q mem => absurd mem (notMem_empty q)) (fun q mem => absurd mem (notMem_empty q)) held
    fun q mem => absurd mem (notMem_empty q)
  exact ⟨kept.1, fun q => kept.2 q not_false⟩

/-- Clearing an unused entry changes nothing that matters. -/
theorem SysInv.clear (idle : Idle (s.proc p)) (vm : t.vm = s.vm)
    (held : t.held = s.held) (cleared : t.proc p = .cleared)
    (others : ∀ q ≠ p, t.proc q = s.proc q) : SysInv layout kept w t ∧ Unchanged s t := by
  refine inv.of_fields vm held fun q => ?_
  by_cases here : q = p
  · rw [here, cleared, idle.pagetable, idle.trapframe, idle.size, idle.unused]
    exact ⟨rfl, rfl, rfl, Iff.rfl⟩
  · rw [others q here]
    exact ⟨rfl, rfl, rfl, Iff.rfl⟩

end

/-- `freeproc` of an entry that has nothing yet. -/
theorem freeproc_nothing (frame : (s.proc p).trapframe = none)
    (root : (s.proc p).pagetable = none) :
    freeproc layout p s = .ok ((), s.setProc p .cleared) := by
  unfold freeproc
  rw [bind_of_ok (a := s.proc p) (t := s) rfl]
  simp only [frame, root]
  rfl

/-- `freeproc` of an entry that has a trapframe only. -/
theorem freeproc_frame (rep : Rep layout w s.vm) (kernel : w.owner tf = .kernel)
    (frame : (s.proc p).trapframe = some tf) (root : (s.proc p).pagetable = none) :
    Safe (freeproc layout p) s fun _ t =>
      Updates layout ∅ ∅ {tf} w s.vm (w.setOwner tf .free) t.vm ∧
        t = { s with vm := t.vm }.setProc p .cleared := by
  unfold freeproc
  apply bind_reads
  simp only [frame, root]
  refine bind_memory (kfree_kernel rep kernel) fun _ vm₁ freed => ?_
  exact .modifies ⟨freed, rfl⟩

/-- `allocproc` makes a process of size 0, or leaves no trace. -/
theorem allocproc_spec (inv : SysInv layout kept w s) : Safe (allocproc layout) s fun found t =>
    ∃ w', SysInv layout kept w' t ∧ Unchanged s t ∧ w'.extra = w.extra ∧
      (found = none ∨ ∃ p r tf, found = some p ∧ (s.proc p).state = .unused ∧
        Owns layout w' (t.proc p) r tf ∧ (t.proc p).sz = 0 ∧ ∀ q ≠ p, t.proc q = s.proc q) := by
  unfold allocproc
  apply bind_reads
  cases search : (List.finRange NPROC).find? fun p => (s.proc p).state = .unused with
  | none => exact .pure ⟨w, inv, fun _ => rfl, rfl, .inl rfl⟩
  | some p =>
    have unused : (s.proc p).state = .unused := by simpa using List.find?_some search
    have idle := inv.unused unused
    have failed : ∀ {w' : World} {t : Sys}, SysInv layout kept w' t ∧ Unchanged s t →
        w'.extra = w.extra → ∃ w', SysInv layout kept w' t ∧ Unchanged s t ∧ w'.extra = w.extra ∧
          ((none : Option (Fin NPROC)) = none ∨ ∃ p r tf, none = some p ∧
            (s.proc p).state = .unused ∧ Owns layout w' (t.proc p) r tf ∧ (t.proc p).sz = 0 ∧
              ∀ q ≠ p, t.proc q = s.proc q) :=
      fun kept extra => ⟨_, kept.1, kept.2, extra, .inl rfl⟩
    apply bind_reads
    apply bind_modifies
    apply bind_reads
    refine bind_memory (kalloc_spec inv.rep) ?_
    rintro page vm₁ (⟨rfl, rfl, -⟩ | ⟨tf, rfl, free, taken⟩)
    · apply bind_modifies
      apply bind_ok (freeproc_nothing (by rw [setProc_self])
        (by rw [setProc_self]; exact idle.pagetable))
      refine .pure (failed (inv.clear idle rfl rfl (setProc_self _) fun q other => ?_) rfl)
      rw [setProc_of_ne other, setProc_of_ne other]
    · apply bind_modifies
      have kernel : (w.setOwner tf .kernel).owner tf = .kernel := World.setOwner_self ..
      have fits := (taken.rep.inside tf (by rw [kernel]; nofun)).2
      refine bind_memory (procPagetable_spec taken.rep fits) ?_
      rintro root vm₂ (⟨rfl, w₂, gone⟩ | ⟨r, w₂, rfl, dead, rep₂, frame₂, live₂, extra₂, shape₂⟩)
      · apply bind_modifies
        have kernel₂ : w₂.owner tf = .kernel := (gone.frame.pages tf (notMem_empty _)
          (not_private_kernel kernel)).2.trans kernel
        refine .bind (freeproc_frame gone.rep kernel₂ (by rw [setProc_self])
          (by rw [setProc_self])) ?_
        rintro _ t ⟨freed, same⟩
        have updates : Updates layout ∅ ∅ ∅ w s.vm (w₂.setOwner tf .free) t.vm :=
          ((taken.trans (gone.mono le_rfl le_rfl (empty_subset _))).trans freed).absorb
            (.inl free) (by rw [World.setOwner_self]; exact not_retained_free)
        obtain ⟨inv₂, same₂⟩ := inv.quiet (t := { s with vm := t.vm }) updates rfl rfl
        obtain ⟨inv₃, same₃⟩ := inv₂.clear (t := t) (p := p) idle rfl (by rw [same]; rfl)
          (by rw [same, setProc_self]) fun q other => by
            rw [same, setProc_of_ne other]
            exact (setProc_of_ne other).trans (setProc_of_ne other)
        exact .pure (failed ⟨inv₃, fun q => (same₃ q).trans (same₂ q)⟩ updates.extra)
      · apply bind_modifies
        have frame : Frame ∅ ∅ {tf} w s.vm w₂ vm₂ :=
          taken.frame.trans (frame₂.mono le_rfl le_rfl (empty_subset _))
        have kernel₂ : w₂.owner tf = .kernel := (frame₂.pages tf (notMem_empty _)
          (not_private_kernel kernel)).2.trans kernel
        have live : r ∈ w₂.live := by rw [live₂]; exact Finset.mem_insert_self ..
        have owns : Owns layout w₂ { s.proc p with
            pid := s.nextpid, trapframe := some tf, pagetable := some r, state := .alive } r tf :=
          ⟨nofun, rfl, rfl, live, kernel₂, by rw [idle.size]; exact shape₂⟩
        have created : ∀ t : Sys, t.vm = vm₂ → t.held = s.held → Owns layout w₂ (t.proc p) r tf →
            (t.proc p).sz = 0 → (∀ q ≠ p, t.proc q = s.proc q) →
            ∃ w', SysInv layout kept w' t ∧ Unchanged s t ∧ w'.extra = w.extra ∧
              (some p = none ∨ ∃ p' r tf, some p = some p' ∧ (s.proc p').state = .unused ∧
                Owns layout w' (t.proc p') r tf ∧ (t.proc p').sz = 0 ∧
                  ∀ q ≠ p', t.proc q = s.proc q) := by
          rintro t rfl held owns size others
          obtain ⟨inv', same⟩ := inv.create idle rep₂ frame live₂ dead free owns size others held
          exact ⟨w₂, inv', same, extra₂, .inr ⟨p, r, tf, rfl, unused, owns, size, others⟩⟩
        refine .pure (created _ rfl rfl ?_ ?_ fun q other => ?_)
        · rw [setProc_self]
          exact owns
        · rw [setProc_self]
          exact idle.size
        · exact (setProc_of_ne other).trans (setProc_of_ne other)

end Table

/-- The label of a `fork`. -/
def forkEvent (p : Fin NPROC) : ForkResult → UserEvent
  | .noProc => .forkFailed p false
  | .noCopy => .forkFailed p true
  | .child np _ => .forked p np

end Xv6Cos.Verif
