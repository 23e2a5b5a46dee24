import Xv6Cos.Verif.Shape

/-!
# The image that `exec` builds

`Building` is the state between `proc_pagetable` and the commit: a new page table of the right
shape, whose pages no other page table maps, beside a memory that is otherwise as `exec`
found it. Every step keeps it, and every error exit gives the page table back.
-/

namespace Xv6Cos.Verif

open Kernel Spec Program Function Option Set Nat

variable {v : ℕ} {pte : Pte}

/-- A page table under construction, since the world `w₀`. -/
structure Building (layout : Layout) (r tf sz : ℕ) (w₀ : World) (vm₀ : Vm) (w : World) (vm : Vm) :
    Prop where
  rep : Rep layout w vm
  frame : Frame ∅ ∅ ∅ w₀ vm₀ w vm
  dead : r ∉ w₀.live
  live : w.live = insert r w₀.live
  extra : w.extra = w₀.extra
  shape : Shape layout (w.space r) tf sz
  sole : ∀ v < UPAGES, ∀ pte, (w.space r).leaf v = some pte → Apart w r pte.pn

/-- The user may access all pages of user memory. -/
def AllUser (S : Space) : Prop := ∀ v < UPAGES, ∀ pte, S.leaf v = some pte → pte.has PTE_U = true

variable {layout : Layout} {r tf sz : ℕ} {w₀ w : World} {vm₀ vm : Vm}

section

variable (b : Building layout r tf sz w₀ vm₀ w vm)

include b

theorem Building.mem : r ∈ w.live := by
  rw [b.live]
  exact Finset.mem_insert_self ..

/-- An operation on the new page table goes on building. -/
theorem Building.update {w' : World} {vm' : Vm} {M : Set (ℕ × ℕ)} {sz' : ℕ}
    (updates : Updates layout {r} M ∅ w vm w' vm')
    (mine : M ⊆ {m | m.1 = r}) (shape : Shape layout (w'.space r) tf sz')
    (sole : ∀ v < UPAGES, ∀ pte, (w'.space r).leaf v = some pte → Apart w r pte.pn) :
    Building layout r tf sz' w₀ vm₀ w' vm' where
  rep := updates.rep
  frame := by
    have first : Frame {r} ∅ ∅ w₀ vm₀ w vm := b.frame.mono (empty_subset _) le_rfl le_rfl
    refine (first.trans_new updates.frame ?_).absorb_only_root b.dead
    intro r' live v _ _ mem
    have root : r' = r := mine mem
    exact absurd (root ▸ live) b.dead
  dead := b.dead
  live := updates.live.trans b.live
  extra := updates.extra.trans b.extra
  shape := shape
  sole v low pte leaf := updates.apart_iff.mpr (sole v low pte leaf)

/-- The pages of the new page table were nobody's before. -/
theorem Building.private_page
    (low : v < UPAGES) (leaf : (w.space r).leaf v = some pte) : Private w₀ ∅ ∅ pte.pn := by
  by_contra shared
  have owner := (b.frame.pages pte.pn (notMem_empty _) shared).2
  have user := b.rep.targets r b.mem v low pte leaf
  apply shared
  refine .inr (.inr ⟨owner.symm.trans user, fun r' live v' low' pte' leaf' same => ?_⟩)
  obtain ⟨live₁, pte₁, leaf₁, page⟩ := b.frame.maps r' live v' low' (notMem_empty _) pte' leaf'
  have other : r' ≠ r := fun root => b.dead (root ▸ live)
  exact absurd (page.trans same) (b.sole v low pte leaf r' live₁ other v' low' pte₁ leaf₁)

/-- The new page table's pages may be overwritten. -/
theorem Building.setPage (page : Page) (low : v < UPAGES) (leaf : (w.space r).leaf v = some pte) :
    Building layout r tf sz w₀ vm₀ w (vm.setPage pte.pn page) where
  rep := b.rep.setPage page fun _ _ _ => by
    rw [b.rep.targets r b.mem v low pte leaf]
    nofun
  frame := by
    have last : Frame ∅ ∅ {pte.pn} w vm w (vm.setPage pte.pn page) :=
      .of_same_space rfl rfl (fun q outside _ => ⟨update_of_ne outside .., rfl⟩)
        fun _ _ _ => rfl
    exact ((b.frame.mono le_rfl le_rfl (empty_subset _)).trans last).absorb
      (b.private_page low leaf) (by
        rw [b.rep.targets r b.mem v low pte leaf]
        exact not_retained_user)
  dead := b.dead
  live := b.live
  extra := b.extra
  shape := b.shape
  sole := b.sole

/-- `uvmalloc` of a page table under construction. -/
theorem Building.uvmalloc {xperm : BitVec 10} (users : AllUser (w.space r)) (newsz : ℕ)
    (leafFlags : LeafFlags (PTE_R ||| PTE_U ||| xperm ||| PTE_V))
    (userFlags : (PTE_R ||| PTE_U ||| xperm ||| PTE_V) &&& PTE_U ≠ 0) :
    Safe (uvmalloc layout r sz newsz xperm) vm fun sz' vm' => ∃ w', AllUser (w'.space r) ∧
      ((sz' = 0 ∧ Building layout r tf sz w₀ vm₀ w' vm') ∨
        (sz' = max sz newsz ∧ Building layout r tf sz' w₀ vm₀ w' vm')) := by
  refine .mono (uvmalloc_spec sz newsz leafFlags b.rep b.mem b.shape.low b.shape.mapped
    b.shape.unmapped) ?_
  rintro sz' vm' ⟨w', updates, ⟨rfl, leaves⟩ | ⟨rfl, fits, same, new⟩⟩
  · refine ⟨w', fun v low pte leaf => users v low pte (by rwa [leaves] at leaf), .inl ⟨rfl, ?_⟩⟩
    refine b.update updates (empty_subset _) (b.shape.of_user b.shape.low (fun v low => ?_)
      fun v _ => by rw [leaves]) fun v low pte leaf => b.sole v low pte (by rwa [leaves] at leaf)
    rw [leaves]
    exact b.shape.user v low
  · have grows : npages sz ≤ npages (max sz newsz) := Nat.div_le_div_right (by omega)
    have cases : ∀ v < UPAGES, ∀ pte, (w'.space r).leaf v = some pte →
        (w.space r).leaf v = some pte ∨
          (pte.has PTE_U = true ∧ Apart w r pte.pn) := by
      intro v low pte leaf
      by_cases fresh : npages sz ≤ v ∧ v < npages (max sz newsz)
      · obtain ⟨q, entry, -, apart⟩ := new v fresh.1 fresh.2
        obtain rfl := some.inj (entry.symm.trans leaf)
        exact .inr ⟨by simpa [Pte.has] using userFlags, apart⟩
      · exact .inl ((same v fresh).symm.trans leaf)
    refine ⟨w', fun v low pte leaf => ?_, .inr ⟨rfl, ?_⟩⟩
    · rcases cases v low pte leaf with old | ⟨user, -⟩
      · exact users v low pte old
      · exact user
    · refine b.update updates (empty_subset _) (b.shape.of_user fits (fun v low => ?_)
        fun v above => same v (by omega)) fun v low pte leaf => ?_
      · by_cases fresh : npages sz ≤ v ∧ v < npages (max sz newsz)
        · obtain ⟨q, entry, -⟩ := new v fresh.1 fresh.2
          simp [entry, fresh.2]
        · rw [same v fresh, b.shape.user v low]
          omega
      · rcases cases v low pte leaf with old | ⟨-, apart⟩
        · exact b.sole v low pte old
        · exact apart

/-- `copyout` to a page table under construction. -/
theorem Building.copyout (dst : ℕ) (src : List UInt8) :
    Safe (copyout layout r dst src) vm fun ok vm' => ∃ n w', (ok = true ↔ n = src.length) ∧
      CopiedOut layout r dst n src w vm w' vm' ∧ Building layout r tf sz w₀ vm₀ w' vm' := by
  refine .mono (copyout_spec dst src b.rep b.mem b.shape.high) ?_
  rintro ok vm' ⟨n, w', all, -, copied⟩
  have live' : r ∈ w'.live := by rw [copied.live]; exact b.mem
  refine ⟨n, w', all, copied, b.update copied.toUpdates (fun m mem => mem.1)
    (b.shape.copied copied) fun v low pte leaf => ?_⟩
  by_cases touched : Touched dst n v
  · obtain ⟨-, pte', q, -, -, after, -⟩ := copied.copied v touched
    obtain rfl := some.inj (after.symm.trans leaf)
    apply copied.toUpdates.apart_iff.mp
    intro r' live other v' low' pte' leaf' same
    exact other (copied.rep.writable_unique live' live low low' after leaf' same (cow_writes q)).1
  · rw [copied.untouched v touched] at leaf
    exact b.sole v low pte leaf

/-- `proc_freepagetable` of a page table under construction leaves no trace. -/
theorem Building.free :
    Safe (procFreepagetable layout r sz) vm fun _ vm' => ∃ w', Updates layout ∅ ∅ ∅
      w₀ vm₀ w' vm' := by
  refine .mono (procFreepagetable_spec b.rep b.mem b.shape) ?_
  rintro _ vm' ⟨w', frees⟩
  exact ⟨w', freed_again b.dead b.frame b.live b.extra (fun m mem => mem.1) frees⟩

/-- `uvmclear` of a page of a page table under construction. -/
theorem Building.uvmclear (below : v < npages sz) :
    Safe (uvmclear r (v * PGSIZE)) vm fun _ vm' => ∃ w', Building layout r tf sz w₀ vm₀ w' vm' := by
  have low : v < UPAGES := lt_of_lt_of_le below b.shape.low
  obtain ⟨pte, leaf⟩ := ne_none_iff_exists'.mp (b.shape.mapped v below)
  obtain ⟨a, node, ran, read, flags⟩ := b.rep.find b.mem (upages_lt_maxva low) leaf
  unfold Kernel.uvmclear
  apply Safe.bind_ok ran
  apply Safe.bind_reads
  rw [read]
  have leafFlags : LeafFlags (pte.flags &&& ~~~PTE_U) := by
    refine ⟨?_, ?_⟩
    · rw [BitVec.and_assoc, show ~~~PTE_U &&& PTE_V = PTE_V by decide]
      exact flags.1
    · rw [BitVec.and_assoc, show ~~~PTE_U &&& PTE_R = PTE_R by decide]
      exact flags.2
  have updates : Updates layout {r} ∅ ∅ w vm _ _ :=
    ⟨b.rep.setFlags b.mem node (pte.flags &&& ~~~PTE_U) low leaf leafFlags (fun writes => by
      simpa only [Pte.has, BitVec.and_assoc, show ~~~PTE_U &&& PTE_W = PTE_W by decide]
        using writes),
      b.rep.setFlags_frame b.mem node _ leaf, rfl, rfl⟩
  have leaves : ((w.setSpace r ((w.space r).setLeaf v
      (some ⟨pte.pn, pte.flags &&& ~~~PTE_U⟩))).space r).leaf =
        Function.update (w.space r).leaf v (some ⟨pte.pn, pte.flags &&& ~~~PTE_U⟩) := by
    rw [World.setSpace_self]
    rfl
  refine .modifies ⟨_, b.update updates (empty_subset _) (b.shape.set low leaf leaves)
    fun u lowU pteU leafU => ?_⟩
  rw [leaves] at leafU
  by_cases here : u = v
  · rw [here, update_self] at leafU
    obtain rfl := some.inj leafU
    exact b.sole v low pte leaf
  · rw [update_of_ne here] at leafU
    exact b.sole u lowU pteU leafU

end

section Load

variable {file : List UInt8}

/-- Overwriting a page of user memory keeps the page table, and so what the user may access. -/
theorem loadsegGo_spec {va : ℕ} (offset len : ℕ) (users : AllUser (w.space r))
    (aligned : va % PGSIZE = 0) : ∀ left i vm, i % PGSIZE = 0 →
    (va + i) / PGSIZE + left ≤ npages sz → Building layout r tf sz w₀ vm₀ w vm →
    Safe (loadsegGo r va file offset len i left) vm fun _ vm' =>
      Building layout r tf sz w₀ vm₀ w vm' := by
  intro left
  induction left with
  | zero => exact fun i vm _ _ b => .pure b
  | succ left ih =>
    intro i vm step fits b
    have below : (va + i) / PGSIZE < npages sz := by omega
    have low : (va + i) / PGSIZE < UPAGES := lt_of_lt_of_le below b.shape.low
    obtain ⟨pte, leaf⟩ := ne_none_iff_exists'.mp (b.shape.mapped _ below)
    have legal : ¬MAXVA ≤ va + i := by
      have bound := upages_lt_maxva low
      simp only [PGSIZE, MAXVA] at bound aligned step low ⊢
      omega
    have found : walkaddr r (va + i) vm = .ok (some pte.pn, vm) := by
      rw [walkaddr_eq _ (b.rep.tables r b.mem), if_neg legal, userPage, leaf]
      simp [users _ low pte leaf]
    have next : (va + (i + PGSIZE)) / PGSIZE + left ≤ npages sz := by
      rw [← add_assoc, add_div_right _ (by decide)]
      omega
    unfold loadsegGo
    apply Safe.bind_ok found
    apply Safe.bind_modifies
    split
    · exact .pure (b.setPage _ low leaf)
    · exact ih _ _ (by rwa [add_mod_right]) next (b.setPage _ low leaf)

/-- The permissions of a segment. -/
theorem flags2perm_leaf (flags : ℕ) : LeafFlags (PTE_R ||| PTE_U ||| flags2perm flags ||| PTE_V) ∧
    (PTE_R ||| PTE_U ||| flags2perm flags ||| PTE_V) &&& PTE_U ≠ 0 := by
  unfold flags2perm
  split <;> split <;> decide

/-- The sizes and addresses of a program header are 64-bit words. -/
theorem field_lt (bytes : List UInt8) (off : ℕ) : field bytes off 8 < 2 ^ 64 := Bytes.readLE_lt

/-- Loading one segment goes on building. -/
theorem loadProgram_spec {ph : ProgHdr} (start : ph.vaddr < 2 ^ 64) (size : ph.memsz < 2 ^ 64)
    (users : AllUser (w.space r)) (b : Building layout r tf sz w₀ vm₀ w vm) :
    Safe (loadProgram layout r file ph sz) vm fun res vm' => ∃ w', AllUser (w'.space r) ∧
      Building layout r tf res.2 w₀ vm₀ w' vm' := by
  unfold loadProgram
  by_cases type : ph.type ≠ ELF_PROG_LOAD
  · rw [if_pos type]
    exact .pure ⟨w, users, b⟩
  rw [if_neg type]
  by_cases short : ph.memsz < ph.filesz
  · rw [if_pos short]
    exact .pure ⟨w, users, b⟩
  rw [if_neg short]
  by_cases wraps : (ph.vaddr + ph.memsz) % 2 ^ 64 < ph.vaddr
  · rw [if_pos wraps]
    exact .pure ⟨w, users, b⟩
  rw [if_neg wraps]
  by_cases aligned : ph.vaddr % PGSIZE ≠ 0
  · rw [if_pos aligned]
    exact .pure ⟨w, users, b⟩
  rw [if_neg aligned, ne_eq, not_not] at *
  have total : (ph.vaddr + ph.memsz) % 2 ^ 64 = ph.vaddr + ph.memsz := by omega
  rw [total]
  obtain ⟨leafFlags, userFlags⟩ := flags2perm_leaf ph.flags
  refine .bind (b.uvmalloc users _ leafFlags userFlags) ?_
  rintro sz₁ vm₁ ⟨w₁, users₁, ⟨rfl, b₁⟩ | ⟨size₁, b₁⟩⟩
  · exact .pure ⟨w₁, users₁, b₁⟩
  by_cases failed : sz₁ = 0
  · rw [if_pos failed]
    have same : sz₁ = sz := by omega
    exact .pure ⟨w₁, users₁, same ▸ b₁⟩
  rw [if_neg failed]
  have filesz : ph.filesz % 2 ^ 32 ≤ ph.memsz := (mod_le _ _).trans (Nat.le_of_not_lt short)
  have pages : (ph.vaddr + 0) / PGSIZE + (ph.filesz % 2 ^ 32 + PGSIZE - 1) /
    PGSIZE ≤ npages sz₁ := by
    simp only [npages, PGSIZE] at aligned ⊢
    omega
  refine .bind (loadsegGo_spec _ _ users₁ aligned _ 0 vm₁ rfl pages b₁) ?_
  exact fun loaded vm' b' => .pure ⟨w₁, users₁, b'⟩

/-- Loading all segments goes on building. -/
theorem loadPrograms_spec : ∀ left off sz w vm, AllUser (w.space r) →
    Building layout r tf sz w₀ vm₀ w vm →
    Safe (loadPrograms layout r file off sz left) vm fun res vm' => ∃ w', AllUser (w'.space r) ∧
      Building layout r tf res.2 w₀ vm₀ w' vm' := by
  intro left
  induction left with
  | zero => exact fun off sz w vm users b => .pure ⟨w, users, b⟩
  | succ left ih =>
    intro off sz w vm users b
    unfold loadPrograms
    simp only
    split
    · exact .pure ⟨w, users, b⟩
    · refine .bind (loadProgram_spec (field_lt _ _) (field_lt _ _) users b) ?_
      rintro ⟨ok, sz₁⟩ vm₁ ⟨w₁, users₁, b₁⟩
      cases ok with
      | false => exact .pure ⟨w₁, users₁, b₁⟩
      | true => exact ih _ sz₁ w₁ vm₁ users₁ b₁

end Load

section Arguments

/-- Pushing the argument strings goes on building. -/
theorem pushStrings_spec (base : ℕ) : ∀ (argv : List (List UInt8)) sp ustack w vm,
    Building layout r tf sz w₀ vm₀ w vm →
    Safe (pushStrings layout r base sp ustack argv) vm fun _ vm' => ∃ w',
      Building layout r tf sz w₀ vm₀ w' vm' := by
  intro argv
  induction argv with
  | nil => exact fun sp ustack w vm b => .pure ⟨w, b⟩
  | cons arg argv ih =>
    intro sp ustack w vm b
    unfold pushStrings
    split
    · exact .pure ⟨w, b⟩
    simp only
    split
    · exact .pure ⟨w, b⟩
    refine .bind (b.copyout _ _) ?_
    rintro ok vm₁ ⟨-, w₁, -, -, b₁⟩
    cases ok with
    | false => exact .pure ⟨w₁, b₁⟩
    | true => exact ih _ _ w₁ vm₁ b₁

/-- Pushing the arguments of `main` goes on building. -/
theorem pushArgs_spec (argv : List (List UInt8)) (b : Building layout r tf sz w₀ vm₀ w vm) :
    Safe (pushArgs layout r sz argv) vm fun _ vm' => ∃ w',
      Building layout r tf sz w₀ vm₀ w' vm' := by
  unfold pushArgs
  refine .bind (pushStrings_spec _ argv _ _ w vm b) ?_
  rintro (_ | ⟨sp, ustack⟩) vm₁ ⟨w₁, b₁⟩
  · exact .pure ⟨w₁, b₁⟩
  simp only
  split
  · exact .pure ⟨w₁, b₁⟩
  refine .bind (b₁.copyout _ _) ?_
  rintro ok vm₂ ⟨-, w₂, -, -, b₂⟩
  cases ok with
  | false | true => exact .pure ⟨w₂, b₂⟩

end Arguments

/-- Building with a size rounded up to whole pages. -/
theorem Building.pgroundup (b : Building layout r tf sz w₀ vm₀ w vm) :
    Building layout r tf (pgroundup sz) w₀ vm₀ w vm := by
  have same : npages (Kernel.pgroundup sz) = npages sz := by rw [pgroundup_eq, npages_mul]
  refine { b with shape := b.shape.of_user (same ▸ b.shape.low) (fun v low => ?_) fun _ _ => rfl }
  rw [same]
  exact b.shape.user v low

/-- `exec` up to its commit has built an image, or leaves no trace. The arguments of the image are
as pushing them leaves them. -/
theorem execImage_pushed {Q : ExecImage → World → Vm → Prop} (file : List UInt8)
    (argv : List (List UInt8)) (rep : Rep layout w vm) (fits : tf < PHYSPAGES)
    (push : ∀ r sz w' vm', Building layout r tf sz w vm w' vm' → sz % PGSIZE = 0 →
      2 * PGSIZE ≤ sz → Safe (pushArgs layout r sz argv) vm' fun res vm'' => ∃ w'',
        Building layout r tf sz w vm w'' vm'' ∧ ∀ sp argc entry, res = some (sp, argc) →
          Q ⟨r, sz, sp, entry, argc⟩ w'' vm'') :
    Safe (execImage layout tf file argv) vm fun image vm' =>
      (image = none ∧ ∃ w', Updates layout ∅ ∅ ∅ w vm w' vm') ∨
      ∃ built w', image = some built ∧
        Building layout built.pagetable tf built.sz w vm w' vm' ∧ Q built w' vm' := by
  unfold execImage
  simp only
  split
  · exact .pure (.inl ⟨rfl, w, .refl rep⟩)
  split
  · exact .pure (.inl ⟨rfl, w, .refl rep⟩)
  refine .bind (procPagetable_spec rep fits) ?_
  rintro root vm₁ (⟨rfl, gone⟩ | ⟨r, w₁, rfl, dead, rep₁, frame₁, live₁, extra₁, shape₁⟩)
  · exact .pure (.inl ⟨rfl, gone⟩)
  have empty : ∀ v < UPAGES, (w₁.space r).leaf v = none :=
    fun v low => shape₁.unmapped v (by rw [npages_zero]; omega) low
  have b₁ : Building layout r tf 0 w vm w₁ vm₁ :=
    ⟨rep₁, frame₁, dead, live₁, extra₁, shape₁, fun v low pte leaf => by
      rw [empty v low] at leaf
      contradiction⟩
  have users₁ : AllUser (w₁.space r) := fun v low pte leaf => by
    rw [empty v low] at leaf
    contradiction
  -- the exit `bad`
  have bad : ∀ sz w' vm', Building layout r tf sz w vm w' vm' →
      Safe (do procFreepagetable layout r sz; pure none) vm' fun image vm'' =>
        (image = none ∧ ∃ w'', Updates layout ∅ ∅ ∅ w vm w'' vm'') ∨
        ∃ (built : ExecImage) (w'' : World), image = some built ∧
          Building layout built.pagetable tf built.sz w vm w'' vm'' ∧ Q built w'' vm'' := by
    intro sz w' vm' b
    exact .bind b.free fun _ vm'' gone => .pure (.inl ⟨rfl, gone⟩)
  refine .bind (loadPrograms_spec _ _ 0 w₁ vm₁ users₁ b₁) ?_
  rintro ⟨ok, sz⟩ vm₂ ⟨w₂, users₂, b₂⟩
  cases ok with
  | false => exact bad sz w₂ vm₂ b₂
  | true =>
    refine .bind (b₂.pgroundup.uvmalloc users₂ _ (show LeafFlags _ by decide) (by decide)) ?_
    rintro sz₁ vm₃ ⟨w₃, -, ⟨rfl, b₃⟩ | ⟨size, b₃⟩⟩
    · exact bad _ w₃ vm₃ b₃
    have larger : sz₁ = (npages sz + 2) * PGSIZE := by
      rw [size, show pgroundup (true, sz).2 = npages sz * PGSIZE from rfl, add_mul]
      omega
    have guard : sz₁ - 2 * PGSIZE = npages sz * PGSIZE := by rw [larger, add_mul]; omega
    have positive : ¬sz₁ = 0 := by simp only [larger, PGSIZE]; omega
    simp only [if_neg positive]
    rw [guard]
    refine .bind (b₃.uvmclear (by rw [larger, npages_mul]; omega)) ?_
    rintro _ vm₄ ⟨w₄, b₄⟩
    refine .bind (push r sz₁ w₄ vm₄ b₄ (by rw [larger, mul_mod_left])
      (by rw [larger, add_mul]; omega)) ?_
    rintro (_ | ⟨sp, argc⟩) vm₅ ⟨w₅, b₅, pushed⟩
    · exact bad _ w₅ vm₅ b₅
    · exact .pure (.inr ⟨_, w₅, rfl, b₅, pushed sp argc _ rfl⟩)

end Xv6Cos.Verif
