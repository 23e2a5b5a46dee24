import Xv6Cos.Verif.Process

/-!
# Operations on the memory of one process

`growproc`, the machine's loads and stores with their faults, `copyout`, `copyin`, and the
pages of other parts of the kernel. Each keeps the invariant and does to user memory what
`Effect` says.
-/

namespace Xv6Cos.Verif

open Kernel Spec Program Function List Option Set Nat Safe UserMemory

variable {sz q n src page : ℕ} {M : Set (ℕ × ℕ)} {pte : Pte} {owner : ℕ → Owner}

/-- The references to user pages beside page tables: a `fork` that fails in `uvmcopy` adds one
to a page that stays mapped, and nothing else changes them. -/
def Accounts (w w' : World) (t : Sys) : UserEvent → Prop
  | .forkFailed p true => ∃ r v pte, (t.proc p).pagetable = some r ∧ v < UPAGES ∧
      (w'.space r).leaf v = some pte ∧ w'.extra pte.pn = w.extra pte.pn + 1
  | _ => w'.extra = w.extra

/-- The operation keeps the invariant, and its label says what it did. -/
def Performs (layout : Layout) (kept : ℕ → Option Page) (w : World) (s : Sys) (event : UserEvent)
    (t : Sys) : Prop :=
  ∃ w', SysInv layout kept w' t ∧ Effect s t event ∧ Accounts w w' t event

variable {layout : Layout} {kept : ℕ → Option Page} {w w' : World} {s t : Sys} {p : Fin NPROC}
  {r tf : ℕ} {vm vm' : Vm}
  {S S' : Space}

theorem lt_pgroundup {va : ℕ} : va < pgroundup sz ↔ va / PGSIZE < npages sz := by
  rw [pgroundup_eq, Nat.div_lt_iff_lt_mul (by decide)]

/-- User memory after a change of size. -/
theorem bytes_resize (low : npages sz ≤ UPAGES)
    (kept : ∀ v < npages sz, ∀ pte, S.leaf v = some pte →
      S'.leaf v = some pte ∧ vm'.mem pte.pn = vm.mem pte.pn)
    (new : ∀ v < npages sz, S.leaf v = none →
      ∃ q, S'.leaf v = some ⟨q, grownByte.flags⟩ ∧ vm'.mem q = fun _ => 0)
    (gone : ∀ v < UPAGES, npages sz ≤ v → S'.leaf v = none) :
    S'.bytes vm' = (S.bytes vm).resize sz := by
  funext va
  unfold resize
  by_cases inside : va / PGSIZE < npages sz
  · have below : va / PGSIZE < UPAGES := lt_of_lt_of_le inside low
    rw [if_pos (lt_pgroundup.mpr inside), bytes_eq below, bytes_eq below]
    cases leaf : S.leaf (va / PGSIZE) with
    | none =>
      obtain ⟨q, entry, zero⟩ := new _ inside leaf
      simp [entry, zero, grownByte]
    | some pte =>
      obtain ⟨entry, same⟩ := kept _ inside pte leaf
      simp [entry, same]
  · rw [if_neg fun below => inside (lt_pgroundup.mp below)]
    by_cases below : va / PGSIZE < UPAGES
    · rw [bytes_eq below, gone _ below (Nat.le_of_not_lt inside)]
      rfl
    · exact bytes_high below

/-- An operation on the user memory of one process. -/
theorem SysInv.update (inv : SysInv layout kept w s)
    (owns : Owns layout w (s.proc p) r tf) (updates : Updates layout {r} M ∅ w s.vm w' t.vm)
    (mine : M ⊆ {m | m.1 = r}) (shape : Shape layout (w'.space r) tf (t.proc p).sz)
    (entry : t.proc p = { s.proc p with sz := (t.proc p).sz })
    (others : ∀ q ≠ p, t.proc q = s.proc q) (held : t.held = s.held) :
    SysInv layout kept w' t ∧ OnlyChanges p s t ∧ userMemory t p = (w'.space r).bytes t.vm := by
  have live : r ∈ w'.live := by rw [updates.live]; exact owns.live
  have kernel := (updates.frame.pages tf (notMem_empty _) (not_private_kernel owns.kernel)).2
  have pagetable : (t.proc p).pagetable = some r := by rw [entry]; exact owns.pagetable
  have owns' : Owns layout w' (t.proc p) r tf :=
    ⟨by rw [entry]; exact owns.used, pagetable, by rw [entry]; exact owns.trapframe, live,
      kernel.trans owns.kernel, shape⟩
  obtain ⟨inv', others'⟩ := inv.touch owns updates.rep updates.frame updates.live mine
    (empty_subset _) owns' others held
  exact ⟨inv', others', userMemory_eq pagetable (updates.rep.tables r live)⟩

/-- The contents of the pages that an operation on one page table does not name. -/
theorem Owns.contents {pr : Proc} {v : ℕ} (owns : Owns layout w pr r tf)
    (rep : Rep layout w vm) (updates : Updates layout {r} M ∅ w vm w' vm') (low : v < UPAGES)
    (leaf : (w.space r).leaf v = some pte) (unnamed : (r, v) ∉ M) :
    vm'.mem pte.pn = vm.mem pte.pn :=
  (updates.frame.mapped_page owns.live low leaf (rep.targets r owns.live v low pte leaf) unnamed
    (notMem_empty _)).1

/-- `growproc` of a process in use. -/
theorem growproc_spec (n : Int) (inv : SysInv layout kept w s) (used : (s.proc p).state ≠ .unused) :
    Safe (growproc layout p n) s fun ok t =>
      Performs layout kept w s (if ok then .grew p (t.proc p).sz else .growFailed p) t := by
  obtain ⟨r, tf, owns⟩ := inv.owns used
  have root := userMemory_eq owns.pagetable (inv.rep.tables r owns.live)
  -- the page table has changed as for the size `sz`
  have grew : ∀ {sz : ℕ} {w' : World} {vm' : Vm} {M : Set (ℕ × ℕ)},
      Updates layout {r} M ∅ w s.vm w' vm' → M ⊆ {m | m.1 = r} →
      Shape layout (w'.space r) tf sz →
      (w'.space r).bytes vm' = ((w.space r).bytes s.vm).resize sz →
      ∀ t : Sys, t.vm = vm' → t.held = s.held → t.proc p = { s.proc p with sz := sz } →
      (∀ q ≠ p, t.proc q = s.proc q) → Performs layout kept w s (.grew p (t.proc p).sz) t := by
    rintro sz w' vm' M updates mine shape bytes t rfl held entry others
    have size : (t.proc p).sz = sz := by rw [entry]
    obtain ⟨inv', others', mine'⟩ := inv.update owns updates mine (size ▸ shape)
      (by rw [size]; exact entry) others held
    refine ⟨w', inv', ⟨others', ?_⟩, updates.extra⟩
    rw [mine', root, size]
    exact bytes
  -- the page table is as before
  have failed : ∀ {w' : World} {vm' : Vm}, Updates layout {r} ∅ ∅ w s.vm w' vm' →
      (w'.space r).leaf = (w.space r).leaf →
      Performs layout kept w s (.growFailed p) { s with vm := vm' } := by
    intro w' vm' updates leaves
    obtain ⟨inv', others, mine⟩ := inv.update owns (t := { s with vm := vm' }) updates
      (empty_subset _) (owns.shape.of_user owns.shape.low (fun v low => by
        rw [leaves]; exact owns.shape.user v low) fun v _ => by rw [leaves]) rfl
          (fun _ _ => rfl) rfl
    refine ⟨w', inv', fun q => ?_, updates.extra⟩
    by_cases here : q = p
    · rw [here, mine, root]
      exact bytes_congr (fun v _ => by rw [leaves]) fun v low pte leaf =>
        owns.contents inv.rep updates low leaf (notMem_empty _)
    · exact others q here
  unfold growproc
  apply bind_reads
  simp only [owns.pagetable]
  generalize ((((s.proc p).sz : Int) + n) % 2 ^ 64).toNat = newsz
  by_cases grows : 0 < n
  · rw [if_pos grows]
    refine bind_memory (uvmalloc_spec _ _ (show LeafFlags _ by decide) inv.rep owns.live
      owns.shape.low owns.shape.mapped owns.shape.unmapped) ?_
    rintro sz vm' ⟨w', updates, ⟨rfl, leaves⟩ | ⟨size, fits, same, new⟩⟩
    · exact .pure (failed updates leaves)
    have more : npages (s.proc p).sz ≤ npages sz := Nat.div_le_div_right (by omega)
    by_cases zero : sz = 0
    · rw [if_pos zero]
      refine .pure (failed updates (funext fun u => same u ?_))
      rw [zero, npages_zero]
      omega
    · rw [if_neg zero]
      apply bind_modifies
      refine .pure (grew updates (empty_subset _) (owns.shape.of_user fits (fun v low => ?_)
        fun v above => same v (by omega)) (bytes_resize fits (fun v below pte leaf => ?_)
          (fun v below leaf => ?_) fun v low above => ?_) _ rfl rfl
          (by rw [setProc_self]; simp only [owns.pagetable]) fun q other => setProc_of_ne other)
      · by_cases fresh : npages (s.proc p).sz ≤ v ∧ v < npages sz
        · obtain ⟨q, entry, -⟩ := new v fresh.1 fresh.2
          simp [entry, fresh.2]
        · rw [same v fresh, owns.shape.user v low]
          omega
      · have low := lt_of_lt_of_le below fits
        have old : v < npages (s.proc p).sz := (owns.shape.user v low).mp (by rw [leaf]; nofun)
        exact ⟨(same v (by omega)).trans leaf,
          owns.contents inv.rep updates low leaf (notMem_empty _)⟩
      · have low := lt_of_lt_of_le below fits
        have fresh : npages (s.proc p).sz ≤ v := by
          by_contra old
          exact owns.shape.mapped v (by omega) leaf
        obtain ⟨q, entry, zeros, -⟩ := new v fresh below
        exact ⟨q, entry, zeros⟩
      · rw [same v (by omega)]
        exact owns.shape.unmapped v (by omega) low
  rw [if_neg grows]
  by_cases shrinks : n < 0
  · rw [if_pos shrinks]
    refine bind_memory (uvmdealloc_spec _ _ inv.rep owns.live owns.shape.low owns.shape.mapped) ?_
    rintro sz vm' ⟨size, w', updates, leaves⟩
    apply bind_modifies
    have pages : npages sz = min (npages (s.proc p).sz) (npages newsz) := by
      rw [size]
      exact Monotone.map_min (fun a b le => Nat.div_le_div_right (by omega))
    have fits : npages sz ≤ UPAGES := by
      have low := owns.shape.low
      omega
    have inside : ∀ v < npages sz, (w'.space r).leaf v = (w.space r).leaf v ∧
        (w.space r).leaf v ≠ none := by
      intro v below
      refine ⟨?_, owns.shape.mapped v (by omega)⟩
      rw [leaves, if_neg (by omega)]
    refine .pure (grew updates (fun m mem => mem.1) (owns.shape.of_user fits (fun v low => ?_)
      fun v above => ?_) (bytes_resize fits (fun v below pte leaf => ?_) (fun v below leaf => ?_)
        fun v low above => ?_) _ rfl rfl (by rw [setProc_self]; simp only [owns.pagetable])
        fun q other => setProc_of_ne other)
    · rw [leaves]
      by_cases dropped : npages newsz ≤ v ∧ v < npages (s.proc p).sz
      · simp [dropped]
        omega
      · rw [if_neg dropped, owns.shape.user v low]
        omega
    · have low := owns.shape.low
      rw [leaves, if_neg (by omega)]
    · have low := lt_of_lt_of_le below fits
      refine ⟨(inside v below).1.trans leaf, owns.contents inv.rep updates low leaf ?_⟩
      intro named
      have above := named.2.1
      simp only at above
      omega
    · exact absurd leaf (inside v below).2
    · rw [leaves]
      by_cases dropped : npages newsz ≤ v ∧ v < npages (s.proc p).sz
      · rw [if_pos dropped]
      · rw [if_neg dropped]
        exact owns.shape.unmapped v (by omega) low
  · rw [if_neg shrinks]
    refine .pure (grew (.refl inv.rep) (empty_subset _) owns.shape (bytes_resize owns.shape.low
      (fun v _ pte leaf => ⟨leaf, rfl⟩)
      (fun v below leaf => ?_) fun v low above => ?_) s rfl rfl rfl
      fun _ _ => rfl)
    · exact absurd leaf (owns.shape.mapped v below)
    · exact owns.shape.unmapped v above low

section Access

/-- The user may access an address exactly if the kernel finds a user page for it. -/
theorem userCan_iff (high : HighPrivate S) {va : ℕ} :
    UserCan (S.bytes vm) va ↔ userPage S (va / PGSIZE) ≠ none := by
  unfold UserCan userPage
  by_cases low : va / PGSIZE < UPAGES
  · rw [bytes_eq low]
    cases leaf : S.leaf (va / PGSIZE) with
    | none => simp
    | some pte => simp [Pte.has]
  · rw [bytes_high low]
    have none := high.userPage_none (Nat.le_of_not_lt low)
    rw [userPage] at none
    simp [none]

/-- A leaf that the machine finds for the user. -/
theorem translate_user {va : ℕ} {found : ℕ × Pte} (ok : TableOk owner vm r S)
    (high : HighPrivate S) (translated : vm.translate r va = some found)
    (user : found.2.flags &&& PTE_U ≠ 0) :
    found.1 = 0 ∧ va / PGSIZE < UPAGES ∧ S.leaf (va / PGSIZE) = some found.2 := by
  have legal : canonical va = true := by
    by_contra illegal
    rw [Vm.translate, if_neg illegal] at translated
    contradiction
  rw [translate_eq ok legal, map_eq_some_iff] at translated
  obtain ⟨pte, leaf, rfl⟩ := translated
  have low : vpage va < UPAGES := by
    by_contra above
    have hidden := high _ pte (Nat.le_of_not_lt above) leaf
    simp only [Pte.has, bne_eq_false_iff_eq] at hidden
    exact user hidden
  have page : vpage va = va / PGSIZE := by
    rw [UPAGES_eq] at low
    simp only [canonical, Bool.or_eq_true, Bool.and_eq_true, decide_eq_true_eq] at legal
    simp only [vpage, PGSIZE] at low ⊢
    omega
  rw [page] at low leaf
  exact ⟨rfl, low, leaf⟩

theorem allows_user {flags wanted : BitVec 10} (allowed : allows flags wanted = true) :
    flags &&& PTE_U ≠ 0 ∧ flags &&& wanted ≠ 0 := by
  simp only [allows, Bool.and_eq_true, bne_iff_ne, ne_eq] at allowed
  exact ⟨allowed.1.2, allowed.2⟩

/-- User memory after a store to a page that is mapped once. -/
theorem bytes_store {va : ℕ} (byte : UInt8) (low : va / PGSIZE < UPAGES)
    (leaf : S.leaf (va / PGSIZE) = some pte)
    (distinct : ∀ v < UPAGES, ∀ pte', S.leaf v = some pte' → pte'.pn = pte.pn → v = va / PGSIZE) :
    S.bytes (vm.setPage pte.pn (Page.store (vm.mem pte.pn) (va % PGSIZE) [byte])) =
      (S.bytes vm).store va byte := by
  funext a
  unfold store
  by_cases here : a = va
  · rw [here, update_self, bytes_eq low, bytes_eq low, leaf]
    simp [Vm.setPage_self, Page.store]
  · rw [update_of_ne here]
    by_cases below : a / PGSIZE < UPAGES
    · rw [bytes_eq below, bytes_eq below]
      cases other : S.leaf (a / PGSIZE) with
      | none => rfl
      | some pte' =>
        by_cases same : pte'.pn = pte.pn
        · have page := distinct _ below pte' other same
          have offset : a % PGSIZE ≠ va % PGSIZE := by
            intro equal
            apply here
            rw [← div_add_mod a PGSIZE, ← div_add_mod va PGSIZE, page, equal]
          simp only [map_some, same, Vm.setPage_self, Page.store]
          by_cases after : va % PGSIZE ≤ a % PGSIZE
          · have outside : ([byte] : List UInt8).length ≤ a % PGSIZE - va % PGSIZE := by
              simp only [length_singleton]
              omega
            rw [if_pos after, List.getElem?_eq_none outside]
            rfl
          · rw [if_neg after]
        · simp [Vm.setPage, update_of_ne same]
    · rw [bytes_high below, bytes_high below]

/-- User memory after `cowfault`. -/
theorem bytes_own {va : ℕ} (leaf : S.leaf (va / PGSIZE) = some pte)
    (leaves : S'.leaf = update S.leaf (va / PGSIZE) (some ⟨q, cowFlags⟩))
    (copied : vm'.mem q = vm.mem pte.pn)
    (others : ∀ v < UPAGES, v ≠ va / PGSIZE → ∀ pte', S.leaf v = some pte' →
      vm'.mem pte'.pn = vm.mem pte'.pn) : S'.bytes vm' = (S.bytes vm).own va := by
  funext a
  unfold own
  by_cases low : a / PGSIZE < UPAGES
  · rw [bytes_eq low, bytes_eq low, leaves]
    by_cases here : a / PGSIZE = va / PGSIZE
    · rw [if_pos here, here, update_self, leaf]
      simp [copied, setFlags]
    · rw [if_neg here, update_of_ne here]
      cases other : S.leaf (a / PGSIZE) with
      | none => rfl
      | some pte' => simp [others _ low here pte' other]
  · rw [bytes_high low, bytes_high low]
    split <;> rfl

/-- User memory after `copyout`. -/
theorem bytes_copy {dst : ℕ} {src : List UInt8} (rep : Rep layout w vm) (live : r ∈ w.live)
    (copied : CopiedOut layout r dst n src w vm w' vm') :
    (w'.space r).bytes vm' = ((w.space r).bytes vm).copy dst n src := by
  funext a
  unfold copy
  have split := div_add_mod' a PGSIZE
  by_cases touched : Touched dst n (a / PGSIZE)
  · obtain ⟨low, pte, q, before, -, after, overwrites⟩ := copied.copied _ touched
    have byte := overwrites (a % PGSIZE) (mod_lt _ (by decide))
    rw [split] at byte
    rw [if_pos touched, bytes_eq low, bytes_eq low, before, after]
    simp only [map_some, byte]
    split <;> rfl
  · rw [if_neg touched]
    by_cases low : a / PGSIZE < UPAGES
    · rw [bytes_eq low, bytes_eq low, copied.untouched _ touched]
      cases leaf : (w.space r).leaf (a / PGSIZE) with
      | none => rfl
      | some pte =>
        have user := rep.targets r live _ low pte leaf
        have same := (copied.frame.mapped_page live low leaf user (fun mem => touched mem.2)
          (notMem_empty _)).1
        simp [same]
    · rw [bytes_high low, bytes_high low]

end Access

/-- `exit` of a process in use: it becomes a zombie and keeps its memory. -/
theorem exit_spec (status : Int) (inv : SysInv layout kept w s)
    (used : (s.proc p).state ≠ .unused) :
    SafeUnless .initExiting (exit p status) s fun _ t => SysInv layout kept w t ∧ Unchanged s t ∧
      (t.proc p).state = .zombie := by
  unfold exit
  by_cases init : p = s.initproc
  · left
    rw [bind_of_ok (a := s.initproc) (t := s) rfl, if_pos init]
    rfl
  · right
    apply bind_reads
    rw [if_neg init]
    apply bind_modifies
    apply bind_reads
    have orphans : ∀ q, ((s.reparent p).proc q).pagetable = (s.proc q).pagetable ∧
        ((s.reparent p).proc q).trapframe = (s.proc q).trapframe ∧
        ((s.reparent p).proc q).sz = (s.proc q).sz ∧
        (((s.reparent p).proc q).state = .unused ↔ (s.proc q).state = .unused) := by
      intro q
      simp only [Sys.reparent]
      split <;> exact ⟨rfl, rfl, rfl, Iff.rfl⟩
    obtain ⟨inv₁, same₁⟩ := inv.of_fields (t := s.reparent p) rfl rfl orphans
    have used₁ : ((s.reparent p).proc p).state ≠ .unused :=
      fun free => used ((orphans p).2.2.2.mp free)
    obtain ⟨inv₂, same₂⟩ := inv₁.of_fields (t := (s.reparent p).setProc p
      { (s.reparent p).proc p with xstate := status, state := .zombie }) rfl rfl fun q => by
        by_cases here : q = p
        · rw [here, setProc_self]
          exact ⟨rfl, rfl, rfl, ⟨nofun, fun free => absurd free used₁⟩⟩
        · rw [setProc_of_ne here]
          exact ⟨rfl, rfl, rfl, Iff.rfl⟩
    exact .modifies ⟨inv₂, fun q => (same₂ q).trans (same₁ q), by rw [setProc_self]⟩

section Access

variable {va : ℕ}

theorem userStore_spec (va : ℕ) (byte : UInt8) (inv : SysInv layout kept w s)
    (used : (s.proc p).state ≠ .unused) :
    SafeUnless .initExiting (userStore layout p va byte) s (Performs layout kept w s) := by
  obtain ⟨r, tf, owns⟩ := inv.owns used
  have ok := inv.rep.tables r owns.live
  have root := userMemory_eq owns.pagetable ok
  unfold userStore
  apply SafeUnless.bind_reads
  simp only [owns.pagetable]
  apply SafeUnless.bind_reads
  cases found : (s.vm.translate r va).filter fun leaf => allows leaf.2.flags PTE_W with
  | some leaf =>
    obtain ⟨translated, allowed⟩ := filter_eq_some_iff.mp found
    obtain ⟨user, writes⟩ := allows_user allowed
    obtain ⟨level, low, entry⟩ := translate_user ok owns.shape.high translated user
    obtain ⟨lvl, pte⟩ := leaf
    simp only at level entry allowed writes
    have page : physPage (lvl, pte) va = pte.pn := by simp [physPage, level, mod_one]
    right
    apply bind_memory_modifies
    rw [page]
    have updates := Updates.store inv.rep (Page.store (s.vm.mem pte.pn) (va % PGSIZE) [byte])
      owns.live low entry (by simpa [Pte.has] using writes)
    generalize result : s.vm.setPage pte.pn _ = vm' at updates ⊢
    obtain ⟨inv', others, mine⟩ := inv.update owns (t := { s with vm := vm' }) updates
      (fun m mem => by rw [mem_singleton_iff.mp mem]; rfl) owns.shape rfl (fun _ _ => rfl) rfl
    refine .pure ⟨w, inv', ⟨others, ⟨⟨pte.flags, s.vm.mem pte.pn (va % PGSIZE)⟩, ?_, allowed⟩,
      ?_⟩, rfl⟩
    · rw [root, bytes_eq low, entry]
      rfl
    · rw [mine, root, ← result]
      exact bytes_store byte low entry fun v lowV pte' leaf' same =>
        inv.rep.distinct r owns.live v lowV _ low pte' pte leaf' entry same
  | none =>
    refine bind_memory_unless (cowfault_spec inv.rep owns.live owns.shape.high) ?_
    rintro ok vm' (⟨rfl, rfl, reason⟩ | ⟨rfl, below, low, free, pte, q, w', leaf, userBit, updates,
      leaves, contents⟩)
    · refine .bind (exit_spec (-1) inv used) ?_
      rintro _ t ⟨inv', same, zombie⟩
      refine .inr (.pure ⟨w, inv', ⟨same, zombie, ?_⟩, rfl⟩)
      rw [root, userCan_iff owns.shape.high, not_not]
      exact reason
    · obtain ⟨inv', others, mine⟩ := inv.update owns (t := { s with vm := vm' }) updates
        (fun m mem => by rw [mem_singleton_iff.mp mem]; rfl) (owns.shape.set low leaf leaves) rfl
        (fun _ _ => rfl) rfl
      refine .inr (.pure ⟨w', inv', ⟨others, free, ?_, ?_⟩, updates.extra⟩)
      · rw [root, userCan_iff owns.shape.high]
        simp [userPage, leaf, userBit]
      · rw [mine, root]
        refine bytes_own leaf leaves contents fun v lowV other pte' leaf' => ?_
        exact owns.contents inv.rep updates lowV leaf' fun mem =>
          other (Prod.mk.inj (mem_singleton_iff.mp mem)).2

/-- A store where the user may access does not kill the process while there is free memory. -/
theorem userStore_survives (byte : UInt8) (inv : SysInv layout kept w s)
    (used : (s.proc p).state ≠ .unused) (can : UserCan (userMemory s p) va)
    (free : s.vm.freelist ≠ []) : Safe (userStore layout p va byte) s fun _ _ => True := by
  obtain ⟨r, tf, owns⟩ := inv.owns used
  rw [userMemory_eq owns.pagetable (inv.rep.tables r owns.live), userCan_iff owns.shape.high] at can
  unfold userStore
  apply bind_reads
  simp only [owns.pagetable]
  apply bind_reads
  cases (s.vm.translate r va).filter fun leaf => allows leaf.2.flags PTE_W with
  | some leaf =>
    apply bind_memory_modifies
    exact .pure trivial
  | none =>
    refine bind_memory (cowfault_spec inv.rep owns.live owns.shape.high) ?_
    rintro ok vm' (⟨-, -, absent | empty⟩ | ⟨rfl, -⟩)
    · exact absurd absent can
    · exact absurd empty free
    · exact .pure trivial

theorem userLoad_spec (va : ℕ) (inv : SysInv layout kept w s) (used : (s.proc p).state ≠ .unused) :
    SafeUnless .initExiting (userLoad p va) s (Performs layout kept w s) := by
  obtain ⟨r, tf, owns⟩ := inv.owns used
  have ok := inv.rep.tables r owns.live
  unfold userLoad
  apply SafeUnless.bind_reads
  cases found : (s.read p va).filter fun found => allows found.flags PTE_R with
  | some byte =>
    obtain ⟨read, allowed⟩ := filter_eq_some_iff.mp found
    refine .inr (.pure ⟨w, inv, ⟨fun _ => rfl, byte, ?_, allowed, rfl⟩, rfl⟩)
    have low : va < TRAPFRAME := by
      have present := read
      simp only [Sys.read, owns.pagetable, bind_eq_bind, bind_some,
        bind_eq_some_iff, Option.some.injEq] at present
      obtain ⟨leaf, translated, rfl⟩ := present
      exact lt_TRAPFRAME.mpr
        (translate_user ok owns.shape.high translated (allows_user allowed).1).2.1
    rw [userMemory, if_pos low]
    exact read
  | none =>
    refine .bind (exit_spec (-1) inv used) ?_
    rintro _ t ⟨inv', same, -⟩
    exact .inr (.pure ⟨w, inv', same, rfl⟩)

/-- `copyout` to a process in use. -/
theorem copyout_effect (dst : ℕ) (src : List UInt8) (inv : SysInv layout kept w s)
    (owns : Owns layout w (s.proc p) r tf) :
    Safe (copyout layout r dst src) s.vm fun ok vm' => ∃ n w', (ok = true ↔ n = src.length) ∧
      SysInv layout kept w' { s with vm := vm' } ∧ OnlyChanges p s { s with vm := vm' } ∧
      Copied s { s with vm := vm' } p dst n src ∧ w'.extra = w.extra := by
  have root := userMemory_eq owns.pagetable (inv.rep.tables r owns.live)
  refine .mono (copyout_spec dst src inv.rep owns.live owns.shape.high) ?_
  rintro ok vm' ⟨n, w', all, none, copied⟩
  obtain ⟨inv', others, mine⟩ := inv.update owns (t := { s with vm := vm' }) copied.toUpdates
    (fun m mem => mem.1) (owns.shape.copied copied) rfl (fun _ _ => rfl) rfl
  refine ⟨n, w', all, inv', others, ⟨copied.fits, ?_, ?_⟩, copied.extra⟩
  · rw [none, root, userCan_iff owns.shape.high, not_not]
  · rw [mine, root]
    exact bytes_copy inv.rep owns.live copied

theorem reads_nil (m : UserMemory) (src : ℕ) : Reads m src [] := by
  intro k byte found
  simp at found

theorem reads_append {m : UserMemory} {first rest : List UInt8} (start : Reads m src first)
    (next : Reads m (src + first.length) rest) : Reads m src (first ++ rest) := by
  intro k byte found
  by_cases early : k < first.length
  · rw [List.getElem?_append_left early] at found
    exact start k byte found
  · rw [List.getElem?_append_right (by omega)] at found
    have late := next _ byte found
    rwa [show src + first.length + (k - first.length) = src + k by omega] at late

/-- The bytes of one user page. -/
theorem reads_page (vm : Vm) (low : src / PGSIZE < UPAGES)
    (leaf : S.leaf (src / PGSIZE) = some pte) (fits : n ≤ PGSIZE - src % PGSIZE) :
    Reads (S.bytes vm) src ((List.range n).map fun k => vm.mem pte.pn (src % PGSIZE + k)) := by
  intro k byte found
  obtain ⟨bound, rfl⟩ := List.getElem?_eq_some_iff.mp found
  rw [length_map, length_range] at bound
  have split := div_add_mod' src PGSIZE
  have offset : src % PGSIZE + k < PGSIZE := by omega
  have address : src + k = src % PGSIZE + k + PGSIZE * (src / PGSIZE) := by
    rw [Nat.mul_comm]
    omega
  have page : (src + k) / PGSIZE = src / PGSIZE := by
    rw [address, add_mul_div_left _ _ (by decide), div_eq_of_lt offset, Nat.zero_add]
  have within : (src + k) % PGSIZE = src % PGSIZE + k := by
    rw [address, add_mul_mod_self_left, mod_eq_of_lt offset]
  rw [bytes_eq (by rwa [page]), page, within, leaf]
  simp

/-- The bytes that the loop of `copyin` finds. -/
theorem copyinGo_spec (ok : TableOk owner vm r S) (high : HighPrivate S) :
    ∀ fuel src len, len ≤ fuel → Safe (copyinGo r fuel src len) vm fun bytes vm' => vm' = vm ∧
      ∀ list, bytes = some list → list.length = len ∧ Reads (S.bytes vm) src list := by
  have empty : ∀ src, ∀ list, some ([] : List UInt8) = some list →
      list.length = 0 ∧ Reads (S.bytes vm) src list := by
    intro src list same
    cases same
    exact ⟨rfl, reads_nil _ src⟩
  intro fuel
  induction fuel with
  | zero =>
    intro src len enough
    obtain rfl : len = 0 := by omega
    exact .pure ⟨rfl, empty src⟩
  | succ fuel ih =>
    intro src len enough
    cases len with
    | zero => exact .pure ⟨rfl, empty src⟩
    | succ len =>
      unfold copyinGo
      simp only
      have page : pgrounddown src / PGSIZE = src / PGSIZE := mul_PGSIZE_div _
      have split := div_add_mod' src PGSIZE
      have inside := mod_lt src (show 0 < PGSIZE by decide)
      have offset : src - pgrounddown src = src % PGSIZE := by
        rw [pgrounddown]
        omega
      apply bind_ok (walkaddr_eq (pgrounddown src) ok)
      rw [page, offset]
      by_cases beyond : MAXVA ≤ pgrounddown src
      · rw [if_pos beyond]
        exact .pure ⟨rfl, by simp⟩
      rw [if_neg beyond]
      cases leaf : S.leaf (src / PGSIZE) with
      | none =>
        simp only [userPage, leaf, bind_none]
        exact .pure ⟨rfl, by simp⟩
      | some pte =>
        cases userBit : pte.has PTE_U with
        | false =>
          simp only [userPage, leaf, bind_some, userBit, Bool.false_eq_true, if_false]
          exact .pure ⟨rfl, by simp⟩
        | true =>
          simp only [userPage, leaf, bind_some, userBit, if_true]
          have low : src / PGSIZE < UPAGES := by
            by_contra above
            rw [high _ pte (Nat.le_of_not_lt above) leaf] at userBit
            contradiction
          apply bind_reads
          refine .bind (ih _ _ (by omega)) ?_
          rintro bytes vm' ⟨rfl, rest⟩
          cases bytes with
          | none => exact .pure ⟨rfl, by simp⟩
          | some later =>
            obtain ⟨length, reads⟩ := rest later rfl
            refine .pure ⟨rfl, fun list same => ?_⟩
            cases same
            have first := reads_page vm' low leaf (Nat.min_le_left _ (len + 1))
            refine ⟨?_, reads_append first ?_⟩
            · simp only [length_append, length_map, length_range, length]
              omega
            · rw [length_map, length_range]
              by_cases whole : PGSIZE - src % PGSIZE ≤ len + 1
              · rw [Nat.min_eq_left whole]
                rwa [show pgrounddown src + PGSIZE = src + (PGSIZE - src % PGSIZE) by
                  rw [pgrounddown]; omega] at reads
              · obtain rfl := length_eq_zero_iff.mp (by omega : later.length = 0)
                exact reads_nil _ _

section

variable (inv : SysInv layout kept w s)

include inv

/-- A page that no process uses passes between the allocator and another part of the kernel. -/
theorem SysInv.handOver {owner : Owner} {held : List ℕ}
    (updates : Updates layout ∅ ∅ {q} w s.vm (w.setOwner q owner) vm')
    (notUser : w.owner q ≠ .user) (apart : ∀ p, (s.proc p).trapframe ≠ some q)
    (spared : kept q = none) (nodup : held.Nodup)
    (same : ∀ page ≠ q, page ∈ held ↔ page ∈ s.held)
    (taken : owner = .kernel ∧ q ∈ held ∨ owner = .free ∧ q ∉ held) :
    SysInv layout kept (w.setOwner q owner) { s with vm := vm', held := held } ∧
      Unchanged s { s with vm := vm', held := held } := by
  have self : (w.setOwner q owner).owner q = owner := World.setOwner_self ..
  have roots : ∀ r, r ∉ (∅ : Set ℕ) ∧ ∀ v, (r, v) ∉ (∅ : Set (ℕ × ℕ)) :=
    fun r => ⟨notMem_empty r, fun _ => notMem_empty _⟩
  have kernels : ∀ page ≠ q, w.owner page = .kernel →
      vm'.mem page = s.vm.mem page ∧ (w.setOwner q owner).owner page = .kernel := by
    intro page other kernel
    obtain ⟨contents, owners⟩ := updates.frame.pages page other (not_private_kernel kernel)
    exact ⟨contents, owners.trans kernel⟩
  refine ⟨⟨updates.rep, fun p => ?_, inv.roots, inv.tables, inv.frames, fun page mem => ?_, nodup,
    fun page contents here => ?_, fun page kernel => ?_, inv.managed_frame updates.frame ?_⟩,
    fun p => ?_⟩
  · refine (inv.procs p).frame updates.frame (fun r _ => (roots r).1) ?_
    rintro tf frame rfl
    exact apart p frame
  · by_cases here : page = q
    · rcases taken with ⟨rfl, -⟩ | ⟨-, gone⟩
      · rw [here]
        exact ⟨self, apart⟩
      · exact absurd (here ▸ mem) gone
    · obtain ⟨kernel, others⟩ := inv.held page ((same page here).mp mem)
      exact ⟨(kernels page here kernel).2, others⟩
  · obtain ⟨mem, contents'⟩ := inv.keep page contents here
    have other : page ≠ q := by
      rintro rfl
      rw [here] at spared
      contradiction
    exact ⟨(same page other).mpr mem, (kernels page other (inv.held page mem).1).1.trans contents'⟩
  · by_cases here : page = q
    · rcases taken with ⟨-, mem⟩ | ⟨rfl, -⟩
      · exact .inl (here ▸ mem)
      · rw [here, self] at kernel
        contradiction
    · rw [World.setOwner_of_ne here] at kernel
      exact (inv.accounted page kernel).imp_left (same page here).mpr
  · intro q' named
    rw [mem_singleton_iff.mp named, self]
    rcases taken with ⟨rfl, -⟩ | ⟨rfl, -⟩ <;> nofun
  · refine inv.memory_frame updates.rep updates.frame (fun q' named => ?_) rfl fun r _ => roots r
    rwa [mem_singleton_iff.mp named]

/-- A page just allocated is held by another part of the kernel. -/
theorem SysInv.hold (free : w.owner q = .free)
    (taken : Updates layout ∅ ∅ {q} w s.vm (w.setOwner q .kernel) vm') :
    SysInv layout kept (w.setOwner q .kernel) { s with vm := vm', held := q :: s.held } ∧
      Unchanged s { s with vm := vm', held := q :: s.held } := by
  have new : q ∉ s.held := by
    intro mem
    rw [(inv.held q mem).1] at free
    contradiction
  refine inv.handOver taken (by rw [free]; nofun) (fun p' frame => ?_) ?_
    (nodup_cons.mpr ⟨new, inv.nodup⟩) (fun page other => by simp [other])
    (.inl ⟨rfl, mem_cons_self ..⟩)
  · rw [inv.owns_frame frame] at free
    contradiction
  · by_contra here
    obtain ⟨contents, here⟩ := ne_none_iff_exists'.mp here
    exact new (inv.keep q contents here).1

/-- Another part of the kernel allocates a page. -/
theorem hold_spec : Safe (UserAction.hold.run layout p) s (Performs layout kept w s) := by
  refine bind_memory (kalloc_spec inv.rep) ?_
  rintro page vm' (⟨rfl, rfl, -⟩ | ⟨q, rfl, free, taken⟩)
  · apply bind_modifies
    exact .pure ⟨w, inv, fun _ => rfl, rfl⟩
  · obtain ⟨inv', same⟩ := inv.hold free taken
    apply bind_modifies
    exact .pure ⟨_, inv', same, taken.extra⟩

/-- A page that another part of the kernel held is free. -/
theorem SysInv.release (mem : page ∈ s.held) (spared : kept page = none)
    (freed : Updates layout ∅ ∅ {page} w s.vm (w.setOwner page .free) vm') :
    SysInv layout kept (w.setOwner page .free)
        { s with vm := vm', held := s.held.erase page } ∧
      Unchanged s { s with vm := vm', held := s.held.erase page } := by
  obtain ⟨kernel, apart⟩ := inv.held page mem
  exact inv.handOver freed (by rw [kernel]; nofun) apart spared (inv.nodup.erase page)
    (fun _ other => mem_erase_of_ne other) (.inr ⟨rfl, inv.nodup.not_mem_erase⟩)

/-- Another part of the kernel frees a page that it holds. -/
theorem release_spec (mem : page ∈ s.held) (spared : kept page = none) :
    Safe ((UserAction.release page).run layout p) s (Performs layout kept w s) := by
  refine bind_memory (kfree_kernel inv.rep (inv.held page mem).1) fun _ vm' freed => ?_
  apply bind_modifies
  obtain ⟨inv', same⟩ := inv.release mem spared freed
  exact .pure ⟨_, inv', same, rfl⟩

/-- A page that is freed is on the free list. -/
theorem release_fills (mem : page ∈ s.held) :
    Safe ((UserAction.release page).run layout p) s fun event t =>
      event = .released page ∧ t.vm.freelist ≠ [] ∧ t.proc = s.proc := by
  obtain ⟨kernel, -⟩ := inv.held page mem
  have refs := inv.rep.pages page
  simp only [kernel, PageRefs] at refs
  have freed : Safe (kfree layout page) s.vm fun _ vm' => vm'.freelist ≠ [] := by
    refine ⟨(), _, kfree_ok (inv.rep.inside page (by simp [kernel])) (by omega), ?_⟩
    rw [drop_last refs.2.1]
    exact cons_ne_nil _ _
  refine bind_memory freed fun _ vm' nonempty => ?_
  apply bind_modifies
  exact .pure ⟨rfl, nonempty, rfl⟩

end

end Access

end Xv6Cos.Verif
