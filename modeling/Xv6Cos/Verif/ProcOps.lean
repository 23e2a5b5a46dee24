import Xv6Cos.Verif.MemoryOps
import Xv6Cos.Spec.ExecCall

/-!
# Processes come and go

`fork`, `exec` and `wait`. A `fork` that fails inside `uvmcopy` leaves one reference too many;
otherwise each operation keeps the invariant and does to user memory what `Effect` says.
-/

namespace Xv6Cos.Verif

open Kernel Spec Program Set Safe Option Updates Function

variable {layout : Layout} {kept : ℕ → Option Page} {w : World} {s : Sys} {p : Fin NPROC}
  {S S' : Space} {vm vm' vm₁ : Vm} {sz : ℕ} {w₁ : World} {image : ExecImage}
  {file : List UInt8} {old tf : ℕ}
  {argv : List (List UInt8)}

/-- The read-only copy of an entry gives the same byte, without the right to write. -/
theorem bytes_share {va : ℕ} (leaf : S'.leaf (va / PGSIZE) = (S.leaf (va / PGSIZE)).map readonly)
    (contents : ∀ v < UPAGES, ∀ pte, S.leaf v = some pte → vm'.mem pte.pn = vm.mem pte.pn) :
    S'.bytes vm' va = (S.bytes vm).share va := by
  unfold UserMemory.share
  by_cases low : va / PGSIZE < UPAGES
  · rw [bytes_eq low, bytes_eq low, leaf]
    cases entry : S.leaf (va / PGSIZE) with
    | none => rfl
    | some pte => simp [contents _ low pte entry, readonly, dropWrite]
  · rw [bytes_high low, bytes_high low]
    rfl

/-- User memory of a page table whose entries are read-only copies of another's. -/
theorem bytes_share_all (leaves : ∀ v < UPAGES, S'.leaf v = (S.leaf v).map readonly)
    (contents : ∀ v < UPAGES, ∀ pte, S.leaf v = some pte → vm'.mem pte.pn = vm.mem pte.pn) :
    S'.bytes vm' = (S.bytes vm).share := by
  funext va
  by_cases low : va / PGSIZE < UPAGES
  · exact bytes_share (leaves _ low) contents
  · rw [UserMemory.share, bytes_high low, bytes_high low]
    rfl

/-- Storing a register in a trapframe. -/
theorem setReg_spec {tf : ℕ} (offset value : ℕ) (rep : Rep layout w vm)
    (kernel : w.owner tf = .kernel) :
    Safe (setReg tf offset value) vm fun _ vm' => Updates layout ∅ ∅ {tf} w vm w vm' :=
  .modifies (setPage rep _ kernel)

theorem copyTrapframe_spec {tf : ℕ} (source : ℕ) (rep : Rep layout w vm)
    (kernel : w.owner tf = .kernel) :
    Safe (copyTrapframe source tf) vm fun _ vm' => Updates layout ∅ ∅ {tf} w vm w vm' :=
  .modifies (setPage rep _ kernel)

section Fork

variable {t : Sys} {np : Fin NPROC} {old tf new newtf : ℕ} {w' : World} {K : Set ℕ}

/-- An operation on the page tables of parent and child. -/
theorem SysInv.touchBoth (inv : SysInv layout kept w s) (parent : Owns layout w (s.proc p) old tf)
    (child : Owns layout w (s.proc np) new newtf) (rep : Rep layout w' t.vm)
    (frame : Frame {old, new} ∅ K w s.vm w' t.vm) (live : w'.live = w.live) (frames : K ⊆ {newtf})
    (parent' : Owns layout w' (t.proc p) old tf) (child' : Owns layout w' (t.proc np) new newtf)
    (others : ∀ q, q ≠ p → q ≠ np → t.proc q = s.proc q) (held : t.held = s.held) :
    SysInv layout kept w' t ∧ ∀ q, q ≠ p → q ≠ np → userMemory t q = userMemory s q := by
  obtain ⟨notUser, notHeld⟩ := inv.frame_apart child frames
  have kept := inv.change (fun q => q = p ∨ q = np) rep frame live (fun q other => ?_) ?_ notUser
    notHeld held fun q mem _ => ?_
  · exact ⟨kept.1, fun q notParent notChild => kept.2 q (by simp [notParent, notChild])⟩
  · obtain ⟨notParent, notChild⟩ := not_or.mp other
    refine ⟨others q notParent notChild, fun r root => ⟨?_, fun v => notMem_empty _⟩,
      (inv.apart child (empty_subset _) frames q notChild).2⟩
    rintro (rfl | rfl)
    · exact notParent (inv.tables q p _ root parent.pagetable)
    · exact notChild (inv.tables q np _ root child.pagetable)
  · rintro q (rfl | rfl)
    · exact ⟨.inr ⟨old, tf, parent'⟩, parent'.pagetable.trans parent.pagetable.symm,
        parent'.trapframe.trans parent.trapframe.symm⟩
    · exact ⟨.inr ⟨new, newtf, child'⟩, child'.pagetable.trans child.pagetable.symm,
        child'.trapframe.trans child.trapframe.symm⟩
  · rw [show q = newtf from frames mem]
    exact ⟨child.kernel, child'.kernel⟩

/-- A page table whose user entries are as before or read-only keeps its shape. -/
theorem Shape.shared (shape : Shape layout S tf sz)
    (leaves : ∀ u, S'.leaf u = S.leaf u ∨ u < UPAGES ∧ S'.leaf u = (S.leaf u).map readonly) :
    Shape layout S' tf sz := by
  refine shape.of_user shape.low (fun v low => ?_) fun v above => ?_
  · rcases leaves v with same | ⟨-, same⟩
    · rw [same]
      exact shape.user v low
    · rw [same, ← shape.user v low]
      simp
  · rcases leaves v with same | ⟨low, -⟩
    · exact same
    · omega

/-- The entry of a process after a change of its page table. -/
theorem Owns.keep {pr pr' : Proc} {r : ℕ} {R : Set ℕ} {M : Set (ℕ × ℕ)}
    (owns : Owns layout w pr r tf) (frame : Frame R M ∅ w vm w' vm') (live : w'.live = w.live)
    (used : pr'.state ≠ .unused) (pagetable : pr'.pagetable = pr.pagetable)
    (trapframe : pr'.trapframe = pr.trapframe) (shape : Shape layout (w'.space r) tf pr'.sz) :
    Owns layout w' pr' r tf where
  used := used
  pagetable := pagetable.trans owns.pagetable
  trapframe := trapframe.trans owns.trapframe
  live := live ▸ owns.live
  kernel := (frame.pages tf (notMem_empty _) (not_private_kernel owns.kernel)).2.trans owns.kernel
  shape := shape

/-- After `uvmcopy` has succeeded, parent and child have the parent's memory. -/
theorem SysInv.forked {s₁ : Sys} (inv : SysInv layout kept w₁ s₁) (same : Unchanged s s₁)
    (apart : p ≠ np) (parent : Owns layout w₁ (s₁.proc p) old tf)
    (child : Owns layout w₁ (s₁.proc np) new newtf) (rep : Rep layout w' t.vm)
    (frame : Frame {old, new} ∅ {newtf} w₁ s₁.vm w' t.vm) (live : w'.live = w₁.live)
    (parentLeaves : ∀ v < UPAGES, (w'.space old).leaf v = ((w₁.space old).leaf v).map readonly)
    (childLeaves : ∀ v < UPAGES, (w'.space new).leaf v = ((w₁.space old).leaf v).map readonly)
    (parent' : Owns layout w' (t.proc p) old tf) (child' : Owns layout w' (t.proc np) new newtf)
    (others : ∀ q, q ≠ p → q ≠ np → t.proc q = s₁.proc q) (held : t.held = s₁.held) :
    SysInv layout kept w' t ∧ Effect s t (.forked p np) := by
  obtain ⟨inv', rest⟩ := inv.touchBoth parent child rep frame live le_rfl parent' child' others held
  have root := userMemory_eq parent.pagetable (inv.rep.tables old parent.live)
  have contents : ∀ v < UPAGES, ∀ pte, (w₁.space old).leaf v = some pte →
      t.vm.mem pte.pn = s₁.vm.mem pte.pn := by
    intro v low pte leaf
    have user := inv.rep.targets old parent.live v low pte leaf
    refine (frame.mapped_page parent.live low leaf user (notMem_empty _) fun named => ?_).1
    rw [mem_singleton_iff.mp named, child.kernel] at user
    contradiction
  refine ⟨inv', apart.symm, fun q notParent notChild =>
    (rest q notParent notChild).trans (same q), ?_, ?_⟩
  · rw [userMemory_eq parent'.pagetable (rep.tables old parent'.live), ← same p, root]
    exact bytes_share_all parentLeaves contents
  · rw [userMemory_eq child'.pagetable (rep.tables new child'.live), ← same p, root]
    exact bytes_share_all childLeaves contents

end Fork

/-- `fork` by a process in use. -/
theorem fork_spec (inv : SysInv layout kept w s) (used : (s.proc p).state ≠ .unused) :
    Safe (fork layout p) s fun result t => Performs layout kept w s (forkEvent p result) t := by
  unfold fork
  refine .bind (allocproc_spec inv) ?_
  rintro found s₁ ⟨w₁, inv₁, same₁, extra₁,
    rfl | ⟨np, new, newtf, rfl, unused, child, size, others⟩⟩
  · exact .pure ⟨w₁, inv₁, ⟨fun q _ => same₁ q, fun va => .inl (by rw [same₁])⟩, extra₁⟩
  have apart : p ≠ np := by
    rintro rfl
    exact used unused
  have used₁ : (s₁.proc p).state ≠ .unused := by rwa [others p apart]
  obtain ⟨old, tf, parent⟩ := inv₁.owns used₁
  have tables : new ≠ old := fun same =>
    apart (inv₁.tables p np new (same ▸ parent.pagetable) child.pagetable)
  have root := userMemory_eq parent.pagetable (inv₁.rep.tables old parent.live)
  apply bind_reads
  apply bind_reads
  simp only [parent.pagetable, child.pagetable, parent.trapframe, child.trapframe]
  refine bind_memory (uvmcopy_spec (s₁.proc p).sz inv₁.rep tables parent.live child.live
    parent.shape.low parent.shape.mapped fun u low => child.shape.unmapped u
      (by rw [size, npages_zero]; exact Nat.zero_le _) low) ?_
  rintro ok vm₂ ⟨w₂, rep₂, live₂, frame₂, ⟨rfl, extra₂, parentLeaves, childLeaves⟩ |
    ⟨rfl, ⟨u, pte, below, leaf, leak⟩, parentLeaves, childLeaves⟩⟩
  · have kernel : w₂.owner newtf = .kernel := (frame₂.pages newtf (notMem_empty _)
      (not_private_kernel child.kernel)).2.trans child.kernel
    refine bind_memory (copyTrapframe_spec tf rep₂ kernel) fun _ vm₃ copied => ?_
    refine bind_memory (setReg_spec 112 0 copied.rep kernel) fun _ vm₄ stored => ?_
    have frame : Frame {old, new} ∅ {newtf} w₁ s₁.vm w₂ vm₄ :=
      (frame₂.mono le_rfl le_rfl (empty_subset _)).trans
        ((copied.trans stored).frame.mono (empty_subset _) le_rfl le_rfl)
    have parentShared : ∀ v < UPAGES,
        (w₂.space old).leaf v = ((w₁.space old).leaf v).map readonly := by
      intro v low
      rw [parentLeaves]
      by_cases inside : v < npages (s₁.proc p).sz
      · rw [if_pos inside]
      · rw [if_neg inside, parent.shape.unmapped v (Nat.le_of_not_lt inside) low]
        rfl
    have childShared : ∀ v < UPAGES,
        (w₂.space new).leaf v = ((w₁.space old).leaf v).map readonly := by
      intro v low
      rw [childLeaves]
      by_cases inside : v < npages (s₁.proc p).sz
      · rw [if_pos inside]
      · rw [if_neg inside, parent.shape.unmapped v (Nat.le_of_not_lt inside) low,
          child.shape.unmapped v (by rw [size, npages_zero]; exact Nat.zero_le _) low]
        rfl
    have parentShape : Shape layout (w₂.space old) tf (s₁.proc p).sz := by
      refine parent.shape.shared fun u => ?_
      by_cases low : u < UPAGES
      · exact .inr ⟨low, parentShared u low⟩
      · rw [parentLeaves, if_neg fun inside => low (lt_of_lt_of_le inside parent.shape.low)]
        exact .inl rfl
    have childShape : Shape layout (w₂.space new) newtf (s₁.proc p).sz := by
      refine child.shape.of_user parent.shape.low (fun v low => ?_) fun v above => ?_
      · rw [childShared v low, ← parent.shape.user v low]
        simp
      · rw [childLeaves, if_neg fun inside => absurd (lt_of_lt_of_le inside parent.shape.low)
          (Nat.not_lt_of_le above)]
    have done : ∀ t : Sys, t.vm = vm₄ → t.held = s₁.held → t.proc p = s₁.proc p →
        t.proc np = { s₁.proc np with sz := (s₁.proc p).sz, parent := some p, state := .alive } →
        (∀ q ≠ np, t.proc q = s₁.proc q) → Performs layout kept w s (.forked p np) t := by
      rintro t rfl held parentEntry childEntry rest
      have parent' : Owns layout w₂ (t.proc p) old tf := by
        rw [parentEntry]
        exact parent.keep frame₂ live₂ used₁ rfl rfl parentShape
      have child' : Owns layout w₂ (t.proc np) new newtf := by
        rw [childEntry]
        exact child.keep frame₂ live₂ nofun rfl rfl childShape
      obtain ⟨inv₂, effect⟩ := inv₁.forked same₁ apart parent child stored.rep frame live₂
        parentShared childShared parent' child' (fun q _ notChild => rest q notChild) held
      exact ⟨w₂, inv₂, effect, extra₂.trans extra₁⟩
    apply bind_modifies
    refine .pure (done _ rfl rfl (setProc_of_ne apart) ?_ fun q other => setProc_of_ne other)
    rw [setProc_self]
    simp only [child.pagetable, child.trapframe]
  · -- the error exit: the child's page table is empty again, and the process goes
    have parentShape : Shape layout (w₂.space old) tf (s₁.proc p).sz := by
      refine parent.shape.shared fun u => ?_
      exact (parentLeaves u).imp_right fun changed =>
        ⟨lt_of_lt_of_le changed.1 parent.shape.low, changed.2⟩
    have parent₂ : Owns layout w₂ (s₁.proc p) old tf :=
      parent.keep frame₂ live₂ used₁ rfl rfl parentShape
    have child₂ : Owns layout w₂ (s₁.proc np) new newtf :=
      child.keep frame₂ live₂ child.used rfl rfl
        (child.shape.of_user child.shape.low (fun v low => by
        rw [childLeaves]; exact child.shape.user v low) fun v _ => by rw [childLeaves])
    obtain ⟨inv₂, rest⟩ := inv₁.touchBoth (t := { s₁ with vm := vm₂ }) parent
      child rep₂ frame₂ live₂
      (empty_subset _) parent₂ child₂ (fun _ _ _ => rfl) rfl
    refine .bind (freeproc_spec inv₂ child₂) ?_
    rintro _ t ⟨w₃, inv₃, only, cleared, extra₃, kept⟩
    obtain ⟨entry, space⟩ := kept p apart
    have low : u < UPAGES := lt_of_lt_of_le below parent.shape.low
    refine .pure ⟨w₃, inv₃, ⟨fun q notParent => ?_, fun va => ?_⟩, ?_⟩
    · by_cases here : q = np
      · rw [here, cleared]
        exact (userMemory_none (inv.unused unused).pagetable).symm
      · rw [only q here, rest q notParent here, same₁ q]
    · have after := userMemory_eq (s := { s₁ with vm := vm₂ }) parent.pagetable
        (rep₂.tables old parent₂.live)
      have contents : ∀ v < UPAGES, ∀ pte, (w₁.space old).leaf v = some pte →
          vm₂.mem pte.pn = s₁.vm.mem pte.pn := fun v low pte leaf =>
        (frame₂.mapped_page parent.live low leaf (inv₁.rep.targets old parent.live v low pte leaf)
          (notMem_empty _) (notMem_empty _)).1
      rw [only p apart, after, ← same₁ p, root]
      exact (parentLeaves (va / PGSIZE)).imp (fun leaf => bytes_same leaf contents)
        fun changed => ⟨rfl, bytes_share changed.2 contents⟩
    · obtain ⟨-, pte', leaf', page⟩ := frame₂.maps old parent.live u low (notMem_empty _) pte leaf
      refine ⟨old, u, pte', by rw [entry]; exact parent.pagetable, low, ?_, ?_⟩
      · rw [space old parent.pagetable]
        exact leaf'
      · rw [extra₃, leak, page, update_self, extra₁]

/-- The end of `exec`: the trapframe gets its registers and the old page table goes. -/
theorem exec_commit (image : ExecImage) (rep : Rep layout w vm)
    (live : old ∈ w.live) (kernel : w.owner tf = .kernel)
    (shape : Shape layout (w.space old) tf sz) :
    Safe (do
      setReg tf 120 image.sp
      setReg tf 24 image.entry
      setReg tf 48 image.sp
      procFreepagetable layout old sz) vm fun _ vm' => ∃ w₁ vm₁,
        Updates layout ∅ ∅ {tf} w vm w vm₁ ∧
        Frees layout old (vpages old 0 (npages sz)) w vm₁ w₁ vm' ∧
        vm'.mem tf = execFrame (vm.mem tf) image := by
  have first := setPage rep (Bytes.writeLE (vm.mem tf) 120 image.sp 8) kernel
  have second := setPage first.rep
    (Bytes.writeLE (Bytes.writeLE (vm.mem tf) 120 image.sp 8) 24 image.entry 8) kernel
  have third := setPage second.rep (execFrame (vm.mem tf) image) kernel
  have stored := (first.trans second).trans third
  apply bind_modifies
  apply bind_modifies
  apply bind_modifies
  simp only [Vm.setPage_self]
  refine .mono (procFreepagetable_spec third.rep live shape) ?_
  rintro _ vm' ⟨w₁, frees⟩
  refine ⟨w₁, _, stored, frees, ?_⟩
  rw [(frees.frame.pages tf (notMem_empty _) (not_private_kernel kernel)).1]
  exact Vm.setPage_self ..

/-- `exec` has given the process the image, with this memory. -/
structure Executed (layout : Layout) (kept : ℕ → Option Page) (w : World) (s t : Sys)
    (p : Fin NPROC) (image : ExecImage) (m : UserMemory) : Prop where
  inv : ∃ w', SysInv layout kept w' t ∧ w'.extra = w.extra
  others : OnlyChanges p s t
  memory : userMemory t p = m
  table : t = { s with vm := t.vm, proc := Function.update s.proc p { s.proc p with
    pagetable := some image.pagetable, sz := image.sz } }
  frame : ∀ tf, (s.proc p).trapframe = some tf → t.vm.mem tf = execFrame (s.vm.mem tf) image
  frames : ∀ q ≠ p, ∀ tf, (s.proc q).trapframe = some tf → t.vm.mem tf = s.vm.mem tf

section

variable (inv : SysInv layout kept w s) (owns : Owns layout w (s.proc p) old tf)

include inv owns

/-- The end of `exec`, once the new image is built. -/
theorem exec_built (b : Building layout image.pagetable tf image.sz w s.vm w₁ vm₁) :
    Safe (do
      setProc p { s.proc p with pagetable := some image.pagetable, sz := image.sz }
      memory do
        setReg tf 120 image.sp
        setReg tf 24 image.entry
        setReg tf 48 image.sp
        procFreepagetable layout old (s.proc p).sz
      pure (image.argc : Int)) { s with vm := vm₁ } fun result t => result = image.argc ∧
        Executed layout kept w s t p image ((w₁.space image.pagetable).bytes vm₁) := by
  have same : ∀ tf', w.owner tf' = .kernel → vm₁.mem tf' = s.vm.mem tf' ∧
    w₁.owner tf' = .kernel := by
    intro tf' kernel
    obtain ⟨contents, owner⟩ := b.frame.pages tf' (notMem_empty _) (not_private_kernel kernel)
    exact ⟨contents, owner.trans kernel⟩
  have kernel : w₁.owner tf = .kernel := (same tf owns.kernel).2
  have live : old ∈ w₁.live := b.frame.live old owns.live (notMem_empty _)
  have shape : Shape layout (w₁.space old) tf (s.proc p).sz := by
    rw [b.frame.space old owns.live (notMem_empty _)]
    exact owns.shape
  have other : image.pagetable ≠ old := fun same => b.dead (same ▸ owns.live)
  apply bind_modifies
  refine bind_memory (exec_commit image b.rep live kernel shape) ?_
  rintro _ vm₃ ⟨w₂, vm₂, stored, frees, registers⟩
  have later : Frame {old} (vpages old 0 (npages (s.proc p).sz)) {tf} w₁ vm₁ w₂ vm₃ :=
    (stored.frame.mono (empty_subset _) (empty_subset _) le_rfl).trans
      (frees.frame.mono le_rfl le_rfl (empty_subset _))
  have frame : Frame {old} (vpages old 0 (npages (s.proc p).sz)) {tf} w s.vm w₂ vm₃ :=
    (b.frame.mono (empty_subset _) (empty_subset _) (empty_subset _)).trans later
  have live' : image.pagetable ∈ w₂.live := by
    rw [frees.live, Finset.mem_erase]
    exact ⟨other, b.mem⟩
  have mine : Owns layout w₂ { s.proc p with pagetable := some image.pagetable, sz := image.sz }
      image.pagetable tf := by
    refine ⟨owns.used, rfl, owns.trapframe, live', ?_, ?_⟩
    · exact (frees.frame.pages tf (notMem_empty _) (not_private_kernel kernel)).2.trans kernel
    · rw [frees.frame.space _ b.mem other]
      exact b.shape
  obtain ⟨notUser, notHeld⟩ := inv.frame_apart owns le_rfl
  have done : ∀ t : Sys, t.vm = vm₃ → t.held = s.held → t.proc p = { s.proc p with
      pagetable := some image.pagetable, sz := image.sz } →
      (∀ q ≠ p, t.proc q = s.proc q) → SysInv layout kept w₂ t ∧ OnlyChanges p s t ∧
        userMemory t p = (w₁.space image.pagetable).bytes vm₁ := by
    rintro t rfl held entry others
    rw [← entry] at mine
    suffices kept : SysInv layout kept w₂ t ∧ OnlyChanges p s t by
      refine ⟨kept.1, kept.2, ?_⟩
      rw [userMemory_eq mine.pagetable (frees.rep.tables _ live')]
      refine bytes_frame b.rep b.mem later (fun q named => ?_) other fun v mem => other mem.1
      rw [mem_singleton_iff.mp named, kernel]
      nofun
    refine inv.replace frees.rep frame
      (fun q notMe => ⟨others q notMe, inv.apart owns (fun m mem => mem.1) le_rfl q notMe⟩)
      notUser notHeld held (.inr ⟨_, tf, mine⟩) (fun r mem => ?_) (fun q notMe r new root => ?_)
      (fun q notMe tf' frame taken => ?_) (fun page mem frame => ?_) (fun q mem _ => ?_)
      fun tf' taken _ => mine.trapframe.trans (owns.trapframe.symm.trans taken)
    · rw [frees.live, b.live, Finset.mem_erase, Finset.mem_insert] at mem
      rcases mem with ⟨notOld, rfl | kept⟩
      · exact .inl mine.pagetable
      · exact .inr ⟨kept, fun root => notOld (some.inj (root.symm.trans owns.pagetable))⟩
    · obtain ⟨tf', owner⟩ := inv.owns_root root
      obtain rfl := some.inj (mine.pagetable.symm.trans new)
      exact b.dead owner.live
    · obtain rfl := some.inj (mine.trapframe.symm.trans frame)
      exact notMe (inv.frames q p tf taken owns.trapframe)
    · obtain rfl := some.inj (mine.trapframe.symm.trans frame)
      exact (inv.held tf mem).2 p owns.trapframe
    · rw [mem_singleton_iff.mp mem]
      exact ⟨mine.kernel, mine.trapframe⟩
  obtain ⟨inv', others, bytes⟩ := done ({ s with vm := vm₃ }.setProc p { s.proc p with
    pagetable := some image.pagetable, sz := image.sz }) rfl rfl (setProc_self ..)
    fun q notMe => setProc_of_ne notMe
  refine .pure ⟨rfl, ⟨w₂, inv', frees.extra.trans b.extra⟩, others, bytes, rfl, ?_, ?_⟩
  · intro tf' taken
    obtain rfl := some.inj (owns.trapframe.symm.trans taken)
    rw [← (same tf owns.kernel).1]
    exact registers
  · intro q notMe tf' taken
    have apart : tf' ≠ tf := fun eq => notMe (inv.frames q p tf' taken (eq ▸ owns.trapframe))
    exact (frame.pages tf' apart (not_private_kernel (inv.owns_frame taken))).1

/-- `exec` of a file leaves no trace, or gives the process the image that it has built. The
arguments of the image are as pushing them leaves them. -/
theorem exec_outcome {Q : ExecImage → UserMemory → Prop}
    (push : ∀ r sz w' vm', Building layout r tf sz w s.vm w' vm' → sz % PGSIZE = 0 →
      2 * PGSIZE ≤ sz → Safe (pushArgs layout r sz argv) vm' fun res vm'' => ∃ w'',
        Building layout r tf sz w s.vm w'' vm'' ∧ ∀ sp argc entry, res = some (sp, argc) →
          Q ⟨r, sz, sp, entry, argc⟩ ((w''.space r).bytes vm'')) :
    Safe (exec layout p (some file) argv) s fun result t =>
      (result = -1 ∧ execImage layout tf file argv s.vm = .ok (none, t.vm) ∧
        t = { s with vm := t.vm } ∧ ∃ w', Updates layout ∅ ∅ ∅ w s.vm w' t.vm) ∨
      ∃ image vm₁ m, execImage layout tf file argv s.vm = .ok (some image, vm₁) ∧
        result = image.argc ∧ Executed layout kept w s t p image m ∧ Q image m ∧
        ∀ u : Sys, u.vm = vm₁ → (u.proc p).pagetable = some image.pagetable →
          m = userMemory u p := by
  have fits := (inv.rep.inside tf (by rw [owns.kernel]; nofun)).2
  obtain ⟨image, vm₁, ran, outcome⟩ :=
    execImage_pushed (Q := fun image w' vm' => Q image ((w'.space image.pagetable).bytes vm'))
      file argv inv.rep fits push
  unfold exec
  apply bind_reads
  simp only [owns.trapframe, owns.pagetable]
  have known : Safe (execImage layout tf file argv) s.vm fun found vm => found = image ∧ vm = vm₁ :=
    ⟨_, _, ran, rfl, rfl⟩
  refine bind_memory known ?_
  rintro _ _ ⟨rfl, rfl⟩
  rcases outcome with ⟨rfl, gone⟩ | ⟨built, w₁, rfl, b, pushed⟩
  · exact .pure (.inl ⟨rfl, ran, rfl, gone⟩)
  · have commit := exec_built inv owns b
    simp only [owns.trapframe] at commit
    refine .mono commit ?_
    rintro result t ⟨argc, executed⟩
    refine .inr ⟨built, _, _, ran, argc, executed, pushed, ?_⟩
    rintro u rfl root
    rw [userMemory_eq root (b.rep.tables _ b.mem)]

end

/-- `exec` of a file, whatever its arguments. -/
theorem exec_file (file : List UInt8) (argv : List (List UInt8))
    (inv : SysInv layout kept w s) (owns : Owns layout w (s.proc p) old tf) :
    Safe (exec layout p (some file) argv) s fun result t =>
      (result = -1 ∧ execImage layout tf file argv s.vm = .ok (none, t.vm) ∧
        t = { s with vm := t.vm } ∧ ∃ w', Updates layout ∅ ∅ ∅ w s.vm w' t.vm) ∨
      ∃ image vm₁ m, execImage layout tf file argv s.vm = .ok (some image, vm₁) ∧
        result = image.argc ∧ Executed layout kept w s t p image m ∧
        ∀ u : Sys, u.vm = vm₁ → (u.proc p).pagetable = some image.pagetable →
          m = userMemory u p := by
  refine .mono (exec_outcome (Q := fun _ _ => True) inv owns ?_) ?_
  · intro r sz w' vm' b _ _
    refine .mono (pushArgs_spec argv b) ?_
    rintro res vm'' ⟨w'', b'⟩
    exact ⟨w'', b', fun _ _ _ _ => trivial⟩
  · rintro result t (undone | ⟨image, vm₁, m, ran, argc, executed, -, bytes⟩)
    · exact .inl undone
    · exact .inr ⟨image, vm₁, m, ran, argc, executed, bytes⟩

/-- `exec` by a process in use. -/
theorem exec_spec (file : Option (List UInt8)) (argv : List (List UInt8))
    (inv : SysInv layout kept w s)
    (used : (s.proc p).state ≠ .unused) :
    Safe (exec layout p file argv) s fun result t => ∃ w', SysInv layout kept w' t ∧
      w'.extra = w.extra ∧ if 0 ≤ result then OnlyChanges p s t else Unchanged s t := by
  obtain ⟨old, tf, owns⟩ := inv.owns used
  cases file with
  | none => exact .pure ⟨w, inv, rfl, fun _ => rfl⟩
  | some file =>
    refine .mono (exec_file file argv inv owns) ?_
    rintro result t (⟨rfl, -, same, w₁, gone⟩ | ⟨image, vm₁, m, -, rfl, executed, -⟩)
    · obtain ⟨inv₁, unchanged⟩ := inv.quiet (t := t) gone (by rw [same]) (by rw [same])
      exact ⟨w₁, inv₁, gone.extra, unchanged⟩
    · obtain ⟨w', inv', extra⟩ := executed.inv
      rw [if_pos (Int.natCast_nonneg _)]
      exact ⟨w', inv', extra, executed.others⟩

/-- `exec` of a file whose image can be built. -/
theorem exec_of_image (inv : SysInv layout kept w s) (owns : Owns layout w (s.proc p) old tf)
    (ran : execImage layout tf file argv s.vm = .ok (some image, vm₁)) :
    Safe (exec layout p (some file) argv) s fun result t => 0 ≤ result ∧
      (∃ w', SysInv layout kept w' t) ∧ t.held = s.held ∧ (t.proc p).state = (s.proc p).state ∧
      ∀ u : Sys, u.vm = vm₁ → (u.proc p).pagetable = some image.pagetable →
        userMemory t p = userMemory u p := by
  refine .mono (exec_file file argv inv owns) ?_
  rintro result t (⟨-, absent, -⟩ | ⟨built, vm', m, ran', rfl, executed, bytes⟩)
  · exact nomatch (Prod.mk.inj (Except.ok.inj (ran.symm.trans absent))).1
  · obtain ⟨rfl, rfl⟩ : image = built ∧ vm₁ = vm' := by
      rw [ran] at ran'
      simpa using ran'
    obtain ⟨w', inv', -⟩ := executed.inv
    refine ⟨Int.natCast_nonneg _, ⟨w', inv'⟩, by rw [executed.table], ?_, fun u same root => ?_⟩
    · rw [executed.table]
      simp only [update_self]
    · rw [executed.memory, bytes u same root]

/-- `wait` by a process that is running. -/
theorem wait_spec (addr : ℕ) (inv : SysInv layout kept w s) (alive : (s.proc p).state = .alive) :
    Safe (wait layout p addr) s fun result t =>
      Performs layout kept w s (.waited p addr result) t := by
  obtain ⟨r, tf, owns⟩ := inv.owns (p := p) (by rw [alive]; nofun)
  unfold wait
  apply bind_reads
  apply bind_reads
  apply bind_reads
  cases search : (List.finRange NPROC).find? fun pp =>
    (s.proc pp).parent = some p && (s.proc pp).state = .zombie with
  | none =>
    simp only
    split
    · exact .pure ⟨w, inv, fun _ => rfl, rfl⟩
    · exact .pure ⟨w, inv, fun _ => rfl, rfl⟩
  | some pp =>
    have zombie : (s.proc pp).state = .zombie := by
      have found := List.find?_some search
      simp only [Bool.and_eq_true, decide_eq_true_eq] at found
      exact found.2
    have apart : pp ≠ p := by
      rintro rfl
      rw [alive] at zombie
      contradiction
    have usedChild : (s.proc pp).state ≠ .unused := by rw [zombie]; nofun
    apply bind_reads
    simp only [owns.pagetable]
    -- the child goes, after its status has been copied out
    have reap : ∀ (s₁ : Sys) (w₁ : World), SysInv layout kept w₁ s₁ → s₁.proc = s.proc →
        OnlyChanges p s s₁ → w₁.extra = w.extra →
        (if addr = 0 then userMemory s₁ p = userMemory s p
          else Copied s s₁ p addr 4 (intBytes (s.proc pp).xstate)) →
        Safe (do
          freeproc layout pp
          pure (.reaped pp (s.proc pp).pid (s.proc pp).xstate)) s₁ fun result t =>
            Performs layout kept w s (.waited p addr result) t := by
      intro s₁ w₁ inv₁ table only extra copied
      obtain ⟨r', tf', child⟩ := inv₁.owns (p := pp) (by rw [table]; exact usedChild)
      refine .bind (freeproc_spec inv₁ child) ?_
      rintro _ t ⟨w₂, inv₂, onlyChild, cleared, extra₂, -⟩
      refine .pure ⟨w₂, inv₂, ⟨apart, fun q notMe notChild => ?_, cleared, ?_⟩, extra₂.trans extra⟩
      · rw [onlyChild q notChild, only q notMe]
      · have kept := onlyChild p apart.symm
        by_cases none : addr = 0
        · rw [if_pos none] at copied ⊢
          rw [kept, copied]
        · rw [if_neg none] at copied ⊢
          exact ⟨copied.1, copied.2.1, kept.trans copied.2.2⟩
    by_cases none : addr = 0
    · rw [if_neg (by rw [none]; nofun)]
      exact reap s w inv rfl (fun _ _ => rfl) rfl (by rw [if_pos none])
    · rw [if_pos none]
      refine bind_memory (copyout_effect addr _ inv owns) ?_
      rintro ok vm₁ ⟨n, w₁, all, inv₁, only, copied, extra⟩
      cases ok with
      | true =>
        obtain rfl := all.mp rfl
        exact reap _ w₁ inv₁ rfl only extra (by rw [if_neg none]; exact copied)
      | false =>
        have short : n < 4 := lt_of_le_of_ne copied.1 fun full => Bool.noConfusion (all.mpr full)
        exact .pure ⟨w₁, inv₁, ⟨only, none, n, short, copied⟩, extra⟩

end Xv6Cos.Verif
