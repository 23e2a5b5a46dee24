import Xv6Cos.Verif.Mappings

/-!
# Walking and filling page tables

What `kalloc`, `walk` and `mappages` do to a represented memory. `Updates` collects what an
operation on the page tables `R` guarantees; each later statement adds what it did to the
entries.
-/

namespace Xv6Cos.Verif

open Kernel Program World Function Nat

/-- An operation that keeps the set of live page tables and the references beside them. -/
structure Updates (layout : Layout) (R : Set ℕ) (M : Set (ℕ × ℕ)) (K : Set ℕ) (w : World)
    (vm : Vm) (w' : World) (vm' : Vm) : Prop where
  rep : Rep layout w' vm'
  frame : Frame R M K w vm w' vm'
  live : w'.live = w.live
  extra : w'.extra = w.extra

section Composition

variable {layout : Layout} {R R' : Set ℕ} {M M' : Set (ℕ × ℕ)} {K K' : Set ℕ} {w w₁ w₂ : World}
  {vm vm₁ vm₂ : Vm} {q : ℕ}

theorem Updates.refl (rep : Rep layout w vm) : Updates layout R M K w vm w vm :=
  ⟨rep, .refl, rfl, rfl⟩

theorem Updates.trans_new (first : Updates layout R M K w vm w₁ vm₁)
    (second : Updates layout R M' K w₁ vm₁ w₂ vm₂)
    (fresh : ∀ r ∈ w.live, ∀ v < UPAGES, (w.space r).leaf v ≠ none → (r, v) ∈ M' → (r, v) ∈ M) :
    Updates layout R M K w vm w₂ vm₂ :=
  ⟨second.rep, first.frame.trans_new second.frame fresh, second.live.trans first.live,
    second.extra.trans first.extra⟩

theorem Updates.trans (first : Updates layout R M K w vm w₁ vm₁)
    (second : Updates layout R M K w₁ vm₁ w₂ vm₂) : Updates layout R M K w vm w₂ vm₂ :=
  first.trans_new second fun _ _ _ _ _ mem => mem

theorem Updates.mono (updates : Updates layout R M K w vm w₁ vm₁) (subR : R ⊆ R') (subM : M ⊆ M')
    (subK : K ⊆ K') : Updates layout R' M' K' w vm w₁ vm₁ :=
  ⟨updates.rep, updates.frame.mono subR subM subK, updates.live, updates.extra⟩

theorem Updates.absorb (updates : Updates layout R M {q} w vm w₁ vm₁)
    (mine : Private w R M q) (given : ¬Retained (w₁.owner q)) : Updates layout R M ∅ w vm w₁ vm₁ :=
  ⟨updates.rep, updates.frame.absorb mine given, updates.live, updates.extra⟩

end Composition

section Pages

variable {layout : Layout} {w : World} {vm : Vm} {q : ℕ}

/-- `kalloc` fails only on an empty free list, and hands out a free page. -/
theorem kalloc_spec (rep : Rep layout w vm) : Safe kalloc vm fun page vm' =>
    (page = none ∧ vm' = vm ∧ vm.freelist = []) ∨ ∃ q, page = some q ∧ w.owner q = .free ∧
      Updates layout ∅ ∅ {q} w vm (w.setOwner q .kernel) vm' := by
  unfold kalloc
  cases list : vm.freelist with
  | nil => exact ⟨none, vm, by simp only [list], .inl ⟨rfl, rfl, rfl⟩⟩
  | cons q rest =>
    have free : w.owner q = .free := rep.owner_of_mem (by simp [list])
    have refs := rep.pages q
    simp only [free, PageRefs] at refs
    refine ⟨some q, _, by simp only [list, refs.2.1, ne_eq, not_true_eq_false, ↓reduceIte],
      .inr ⟨q, rfl, free, rep.alloc list, ?_, rfl, rfl⟩⟩
    refine .of_same_space rfl rfl (fun q' outside _ => ?_) fun q' outside _ => ?_
    · exact ⟨update_of_ne outside .., setOwner_of_ne outside⟩
    · exact (setOwner_of_ne outside).symm

/-- A page of the kernel is overwritten. -/
theorem Updates.setPage (rep : Rep layout w vm) (page : Page) (kernel : w.owner q = .kernel) :
    Updates layout ∅ ∅ {q} w vm w (vm.setPage q page) := by
  refine ⟨rep.setPage page fun _ _ _ => by rw [kernel]; nofun, ?_, rfl, rfl⟩
  exact .of_same_space rfl rfl (fun q' outside _ => ⟨update_of_ne outside .., rfl⟩)
    fun _ _ _ => rfl

/-- `kfree` of a page with a reference. -/
theorem kfree_ok (inside : layout.kend ≤ q ∧ q < PHYSPAGES) (counted : 0 < vm.refcnt q) :
    kfree layout q vm = .ok ((), vm.drop q) := by
  unfold kfree
  rw [if_neg (by omega), if_neg (by omega)]

/-- `kfree` frees a page of the kernel. -/
theorem kfree_kernel (rep : Rep layout w vm) (kernel : w.owner q = .kernel) :
    Safe (kfree layout q) vm fun _ vm' =>
      Updates layout ∅ ∅ {q} w vm (w.setOwner q .free) vm' := by
  have refs := rep.pages q
  simp only [kernel, PageRefs] at refs
  exact ⟨(), _, kfree_ok (rep.inside q (by simp [kernel])) (by omega), rep.freeKernel kernel,
    drop_frame, rfl, rfl⟩

end Pages

section Indices

/-- The index, at this level, of the page-table page for a virtual page. -/
def nodeIndex (v level : ℕ) : ℕ := v / 512 ^ (level + 1)

theorem nodeIndex_zero (v : ℕ) : nodeIndex v 0 = v / 512 := by simp [nodeIndex]

theorem nodeIndex_succ (v level : ℕ) : nodeIndex v (level + 1) = nodeIndex v level / 512 := by
  rw [nodeIndex, nodeIndex, Nat.div_div_eq_div_mul, ← pow_succ]

/-- Every virtual page below `MAXVA` hangs off the root. -/
theorem nodeIndex_two {v : ℕ} (low : v < MAXVA / PGSIZE) : nodeIndex v 2 = 0 := by
  simp only [MAXVA, PGSIZE] at low
  simp only [nodeIndex]
  omega

theorem PX_zero (va : ℕ) : PX 0 va = va / PGSIZE % 512 := rfl

theorem PX_succ (level va : ℕ) : PX (level + 1) va = nodeIndex (va / PGSIZE) level % 512 := by
  have power : 2 ^ (12 + 9 * (level + 1)) = PGSIZE * 512 ^ (level + 1) := by
    rw [pow_add, pow_mul]
    rfl
  rw [PX, nodeIndex, power, Nat.div_div_eq_div_mul]

end Indices

section Walk

variable {owner : ℕ → Owner} {layout : Layout} {w : World} {vm : Vm} {r va level q : ℕ} {S : Space}

section

variable (ok : TableOk owner vm r S)

include ok

/-- The entry that `walk` reads at one level. -/
theorem TableOk.step (here : S.node (level + 1) (nodeIndex (va / PGSIZE) (level + 1)) = some q) :
    vm.pte q (PX (level + 1) va) = linkEntry (S.node level (nodeIndex (va / PGSIZE) level)) := by
  rw [ok.slots _ _ _ here _ (by rw [PX]; omega), Space.slot, PX_succ, nodeIndex_succ, div_mod_512]

/-- Below a missing page-table page there is none. -/
theorem TableOk.missing {v : ℕ} (low : level < 2)
    (absent : S.node level (nodeIndex v level) = none) : S.node 0 (v / 512) = none := by
  have up : ∀ level, level < 2 → ∀ q, S.node 0 (v / 512) = some q →
      ∃ q', S.node level (nodeIndex v level) = some q' := by
    intro level
    induction level with
    | zero =>
      intro _ q here
      rw [nodeIndex_zero]
      exact ⟨q, here⟩
    | succ level ih =>
      intro low q here
      obtain ⟨q', below⟩ := ih (by omega) q here
      rw [nodeIndex_succ]
      exact ok.up level _ q' below (by omega)
  by_contra some
  obtain ⟨q, here⟩ := Option.ne_none_iff_exists'.mp some
  obtain ⟨q', found⟩ := up level low q here
  rw [absent] at found
  contradiction

/-- The loop of `walk` without allocation finds the page-table page at level 0. -/
theorem walkGo_find : ∀ level ≤ 2, ∀ q,
    S.node level (nodeIndex (va / PGSIZE) level) = some q →
    Safe (walkGo va false level q) vm fun page vm' =>
      vm' = vm ∧ page = S.node 0 (va / PGSIZE / 512) := by
  intro level
  induction level with
  | zero =>
    intro _ q here
    rw [nodeIndex_zero] at here
    exact .pure ⟨rfl, here.symm⟩
  | succ level ih =>
    intro low q here
    unfold walkGo
    apply Safe.bind_reads
    rw [ok.step here]
    cases next : S.node level (nodeIndex (va / PGSIZE) level) with
    | some q' =>
      rw [if_pos (linkEntry_some_valid q')]
      exact ih (by omega) q' next
    | none => exact .pure ⟨rfl, (ok.missing (by omega) next).symm⟩

/-- `walk` without allocation. -/
theorem walk_find (low : va < MAXVA) :
    Safe (walk r va false) vm fun found vm' => vm' = vm ∧
      found = (S.node 0 (va / PGSIZE / 512)).map fun page => (page, va / PGSIZE % 512) := by
  have root : S.node 2 (nodeIndex (va / PGSIZE) 2) = some r := by
    rw [nodeIndex_two (div_lt_div_of_lt_of_dvd (by decide) low)]
    exact ok.root
  unfold walk
  rw [if_neg (by omega)]
  refine .bind (walkGo_find ok 2 le_rfl r root) ?_
  rintro page _ ⟨rfl, rfl⟩
  exact .pure ⟨rfl, rfl⟩

end

/-- What `walk` with allocation does to a page table: it adds pages and no entry. -/
structure Grows (layout : Layout) (r : ℕ) (K : Set ℕ) (w : World) (vm : Vm) (w' : World)
    (vm' : Vm) : Prop extends Updates layout {r} ∅ K w vm w' vm' where
  leaf : (w'.space r).leaf = (w.space r).leaf

/-- `walk` links a page that `kalloc` handed out and `memset` cleared. -/
theorem Grows.link {vm₁ : Vm} {a : ℕ} (free : w.owner q = .free)
    (allocated : Updates layout ∅ ∅ {q} w vm (w.setOwner q .kernel) vm₁) (live : r ∈ w.live)
    (absent : (w.space r).node level (nodeIndex (va / PGSIZE) level) = none) (low : level < 2)
    (parent : (w.space r).node (level + 1) (nodeIndex (va / PGSIZE) (level + 1)) = some a) :
    ∃ w', Grows layout r ∅ w vm w'
        (((vm₁.setPage q fun _ => 0)).setPte a (PX (level + 1) va) ⟨q, PTE_V⟩) ∧
      (w'.space r).node level (nodeIndex (va / PGSIZE) level) = some q := by
  have kernel : (w.setOwner q .kernel).owner q = .kernel := setOwner_self ..
  have cleared := Updates.setPage allocated.rep (fun _ => 0) kernel
  rw [nodeIndex_succ] at parent
  have zero : (vm₁.setPage q fun _ => 0).mem q = fun _ => 0 := update_self ..
  have linked := cleared.rep.link live absent low parent zero kernel
  have frame : Frame {r} ∅ {q} _ _ _ _ := cleared.rep.setNode_frame (some q)
    (.table r level (nodeIndex (va / PGSIZE) level)) ⟨q, PTE_V⟩ live parent
  rw [PX_succ]
  have step : Updates layout {r} ∅ {q} _ _ _ _ := ⟨linked, frame, rfl, rfl⟩
  have whole := ((allocated.trans cleared).mono (Set.empty_subset {r}) le_rfl le_rfl).trans step
  refine ⟨_, ⟨whole.absorb (.inl free) ?_, ?_⟩, ?_⟩
  · rw [setOwner_self]
    exact not_retained_table _ _ _
  · rw [setOwner_space, setSpace_self]
    rfl
  · rw [setOwner_space, setSpace_self, Space.setNode_self]

theorem Grows.trans {K : Set ℕ} {w₁ w₂ : World} {vm₁ vm₂ : Vm}
    (first : Grows layout r K w vm w₁ vm₁)
    (second : Grows layout r K w₁ vm₁ w₂ vm₂) : Grows layout r K w vm w₂ vm₂ :=
  ⟨first.toUpdates.trans second.toUpdates, second.leaf.trans first.leaf⟩

theorem walkGo_alloc : ∀ level ≤ 2, ∀ w vm q, Rep layout w vm → r ∈ w.live →
    (w.space r).node level (nodeIndex (va / PGSIZE) level) = some q →
    Safe (walkGo va true level q) vm fun page vm' => ∃ w', Grows layout r ∅ w vm w' vm' ∧
      ∀ a, page = some a → (w'.space r).node 0 (va / PGSIZE / 512) = some a := by
  intro level
  induction level with
  | zero =>
    intro _ w vm q rep live here
    rw [nodeIndex_zero] at here
    refine .pure ⟨w, ⟨.refl rep, rfl⟩, ?_⟩
    rintro a ⟨⟩
    exact here
  | succ level ih =>
    intro low w vm q rep live here
    unfold walkGo
    apply Safe.bind_reads
    rw [(rep.tables r live).step here]
    cases next : (w.space r).node level (nodeIndex (va / PGSIZE) level) with
    | some q' =>
      rw [if_pos (linkEntry_some_valid q')]
      exact ih (by omega) w vm q' rep live next
    | none =>
      refine .bind (kalloc_spec rep) ?_
      rintro page vm₁ (⟨rfl, rfl, -⟩ | ⟨q', rfl, free, allocated⟩)
      · exact .pure ⟨w, ⟨.refl rep, rfl⟩, nofun⟩
      · apply Safe.bind_modifies
        apply Safe.bind_modifies
        obtain ⟨w₁, grown, node⟩ := Grows.link free allocated live next (by omega) here
        refine .mono (ih (by omega) w₁ _ q' grown.rep (by rwa [grown.live]) node) ?_
        rintro page vm₂ ⟨w₂, later, found⟩
        exact ⟨w₂, grown.trans later, found⟩

theorem walk_alloc (rep : Rep layout w vm) (live : r ∈ w.live) (low : va < MAXVA) :
    Safe (walk r va true) vm fun found vm' => ∃ w', Grows layout r ∅ w vm w' vm' ∧
      (found = none ∨ ∃ a, found = some (a, va / PGSIZE % 512) ∧
        (w'.space r).node 0 (va / PGSIZE / 512) = some a) := by
  have root : (w.space r).node 2 (nodeIndex (va / PGSIZE) 2) = some r := by
    rw [nodeIndex_two (div_lt_div_of_lt_of_dvd (by decide) low)]
    exact (rep.tables r live).root
  unfold walk
  rw [if_neg (by omega)]
  refine .bind (walkGo_alloc 2 le_rfl w vm r rep live root) ?_
  rintro page vm₁ ⟨w₁, grown, found⟩
  refine .pure ⟨w₁, grown, ?_⟩
  cases page with
  | none => exact .inl rfl
  | some a => exact .inr ⟨a, rfl, found a rfl⟩

end Walk

end Xv6Cos.Verif
