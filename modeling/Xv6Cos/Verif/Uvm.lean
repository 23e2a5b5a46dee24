import Xv6Cos.Verif.Walk

/-!
# Mapping, unmapping and growing user memory

What `mappages`, `uvmunmap`, `uvmdealloc` and `uvmalloc` do to the entries of a page table.
No call panics, and a failing call leaves the entries as they were.
-/

namespace Xv6Cos.Verif

open Kernel Program Function Finset Safe World

variable {pte : Pte} {perm : BitVec 10} {M : Set (ℕ × ℕ)}

/-- The number of pages of a process of this size. -/
def npages (sz : ℕ) : ℕ := (sz + PGSIZE - 1) / PGSIZE

/-- The mappings of a page table for the virtual pages from `lo` up to `hi`. -/
def vpages (r lo hi : ℕ) : Set (ℕ × ℕ) := {m | m.1 = r ∧ lo ≤ m.2 ∧ m.2 < hi}

theorem pgroundup_eq (sz : ℕ) : pgroundup sz = npages sz * PGSIZE := rfl

theorem UPAGES_eq : UPAGES = 2 ^ 26 - 2 := by
  unfold UPAGES
  decide

theorem physpages_lt_upages : PHYSPAGES < UPAGES := by
  rw [UPAGES_eq]
  decide

section Flags

variable {flags : BitVec 10}

theorem LeafFlags.ne_valid (leaf : LeafFlags flags) : flags ≠ PTE_V := by
  rintro rfl
  exact leaf.2 (by decide)

theorem LeafFlags.has_valid (leaf : LeafFlags pte.flags) : pte.has PTE_V = true := by
  simpa [Pte.has] using leaf.1

/-- `mappages` sets `PTE_V` in flags that may have it already. -/
theorem LeafFlags.or_valid (leaf : LeafFlags flags) : flags ||| PTE_V = flags := by
  have bit : flags &&& 1#10 ≠ 0 := leaf.1
  have low : flags.getLsbD 0 = true := by
    by_contra clear
    rw [BitVec.and_one_eq_setWidth_ofBool_getLsbD, Bool.eq_false_of_not_eq_true clear] at bit
    exact bit rfl
  show flags ||| 1#10 = flags
  ext i bound
  cases i with
  | zero => simpa [BitVec.getLsbD_eq_getElem] using low
  | succ i => simp

theorem leafEntry_none_valid : (leafEntry none).has PTE_V = false := by decide

end Flags

section Entries

variable {owner : ℕ → Owner} {layout : Layout} {w : World} {vm : Vm} {r v a q : ℕ} {S : Space}

/-- The entry of a virtual page, where `walk` finds it. -/
theorem TableOk.read (ok : TableOk owner vm r S) (here : S.node 0 (v / 512) = some a) :
    vm.pte a (v % 512) = leafEntry (S.leaf v) := by
  rw [ok.slots _ _ _ here _ (by omega), Space.slot, div_mod_512]

/-- The page number of an address within a page. -/
theorem mul_PGSIZE_div (v : ℕ) : v * PGSIZE / PGSIZE = v := Nat.mul_div_cancel v (by decide)

theorem mul_PGSIZE_lt (low : v < MAXVA / PGSIZE) : v * PGSIZE < MAXVA := by
  simp only [MAXVA, PGSIZE] at low ⊢
  omega

theorem upages_lt_maxva (low : v < UPAGES) : v < MAXVA / PGSIZE := by
  rw [UPAGES_eq] at low
  simp only [MAXVA, PGSIZE]
  omega

/-- The body of `mappages`, for a virtual page that is not mapped. -/
theorem mapPage_spec (rep : Rep layout w vm) (live : r ∈ w.live) (low : v < MAXVA / PGSIZE)
    (unmapped : (w.space r).leaf v = none) (perm : BitVec 10) :
    Safe (mapPage r (v * PGSIZE) q perm) vm fun ok vm' => ∃ w₁ vm₁, Grows layout r ∅ w vm w₁ vm₁ ∧
      ((ok = false ∧ vm' = vm₁) ∨ (ok = true ∧ ∃ a, (w₁.space r).node 0 (v / 512) = some a ∧
        vm' = vm₁.setPte a (v % 512) ⟨q, perm ||| PTE_V⟩)) := by
  unfold mapPage
  refine .bind (walk_alloc rep live (mul_PGSIZE_lt low)) ?_
  rintro found vm₁ ⟨w₁, grown, rfl | ⟨a, rfl, node⟩⟩
  · exact .pure ⟨w₁, vm₁, grown, .inl ⟨rfl, rfl⟩⟩
  · rw [mul_PGSIZE_div] at node ⊢
    apply bind_reads
    rw [(grown.rep.tables r (by rwa [grown.live])).read node, grown.leaf, unmapped,
      leafEntry_none_valid, if_neg (by decide)]
    apply bind_modifies
    exact .pure ⟨w₁, vm₁, grown, .inr ⟨rfl, a, node, rfl⟩⟩

theorem mappages_page (pagetable v pn : ℕ) (perm : BitVec 10) :
    mappages pagetable (v * PGSIZE) PGSIZE pn perm = mapPage pagetable (v * PGSIZE) pn perm := by
  have down : pgrounddown (v * PGSIZE) = v * PGSIZE := by rw [pgrounddown, mul_PGSIZE_div]
  have last : pgrounddown (v * PGSIZE + PGSIZE - 1) = v * PGSIZE := by
    simp only [pgrounddown, PGSIZE]
    omega
  unfold mappages
  rw [if_neg (by decide), down, last, Nat.sub_self, Nat.zero_div]
  rfl

/-- `mappages` makes a page of the kernel user memory. -/
theorem mappages_fresh (rep : Rep layout w vm) (live : r ∈ w.live) (low : v < UPAGES)
    (unmapped : (w.space r).leaf v = none) (kernel : w.owner q = .kernel)
    (leafFlags : LeafFlags (perm ||| PTE_V)) :
    Safe (mappages r (v * PGSIZE) PGSIZE q perm) vm fun ok vm' => ∃ w',
      Updates layout {r} ∅ {q} w vm w' vm' ∧ vm'.mem q = vm.mem q ∧
      ((ok = false ∧ w'.owner q = .kernel ∧ (w'.space r).leaf = (w.space r).leaf) ∨
        (ok = true ∧ (w'.space r).leaf =
          update (w.space r).leaf v (some ⟨q, perm ||| PTE_V⟩))) := by
  rw [mappages_page]
  refine .mono (mapPage_spec rep live (upages_lt_maxva low) unmapped perm) ?_
  rintro ok vm' ⟨w₁, vm₁, grown, ⟨rfl, rfl⟩ | ⟨rfl, a, node, rfl⟩⟩
  · obtain ⟨mem, owner⟩ := grown.frame.pages q (Set.notMem_empty q) (not_private_kernel kernel)
    exact ⟨w₁, grown.toUpdates.mono le_rfl le_rfl (Set.empty_subset _), mem,
      .inl ⟨rfl, owner.trans kernel, grown.leaf⟩⟩
  · obtain ⟨mem, owner⟩ := grown.frame.pages q (Set.notMem_empty q) (not_private_kernel kernel)
    have live₁ : r ∈ w₁.live := by rwa [grown.live]
    have kernel₁ := owner.trans kernel
    have mapped := grown.rep.mapFresh live₁ node low
      (by rw [grown.leaf, unmapped]) kernel₁ leafFlags
    have step : Updates layout {r} ∅ {q} _ _ _ _ :=
      ⟨mapped, grown.rep.mapFresh_frame live₁ node _ (by rw [grown.leaf, unmapped]), rfl, rfl⟩
    refine ⟨_, (grown.toUpdates.mono le_rfl le_rfl (Set.empty_subset _)).trans step, ?_,
      .inr ⟨rfl, ?_⟩⟩
    · rw [setPte_mem_of_ne, mem]
      rintro rfl
      rw [(grown.rep.tables r live₁).own _ _ _ node] at kernel₁
      contradiction
    · rw [setOwner_space, setSpace_self]
      exact congrArg (fun leaf => update leaf v _) grown.leaf

/-- `mappages` at or above the trapframe. -/
theorem mappages_high (rep : Rep layout w vm) (live : r ∈ w.live) (high : UPAGES ≤ v)
    (low : v < MAXVA / PGSIZE) (unmapped : (w.space r).leaf v = none) (fits : q < PHYSPAGES)
    (leafFlags : LeafFlags (perm ||| PTE_V)) :
    Safe (mappages r (v * PGSIZE) PGSIZE q perm) vm fun ok vm' => ∃ w',
      Updates layout {r} ∅ ∅ w vm w' vm' ∧
      ((ok = false ∧ (w'.space r).leaf = (w.space r).leaf) ∨ (ok = true ∧ (w'.space r).leaf =
          update (w.space r).leaf v (some ⟨q, perm ||| PTE_V⟩))) := by
  rw [mappages_page]
  refine .mono (mapPage_spec rep live low unmapped perm) ?_
  rintro ok vm' ⟨w₁, vm₁, grown, ⟨rfl, rfl⟩ | ⟨rfl, a, node, rfl⟩⟩
  · exact ⟨w₁, grown.toUpdates, .inl ⟨rfl, grown.leaf⟩⟩
  · have live₁ : r ∈ w₁.live := by rwa [grown.live]
    have mapped := grown.rep.mapHigh live₁ node (some ⟨q, perm ||| PTE_V⟩) high
      (by
        rintro pte ⟨⟩
        exact ⟨fits, leafFlags⟩)
    have step : Updates layout {r} ∅ ∅ _ _ _ _ :=
      ⟨mapped, grown.rep.mapHigh_frame live₁ node _ high, rfl, rfl⟩
    refine ⟨_, grown.toUpdates.trans step, .inr ⟨rfl, ?_⟩⟩
    rw [setSpace_self]
    exact congrArg (fun leaf => update leaf v _) grown.leaf

end Entries

section Unmap

variable {layout : Layout} {w : World} {vm : Vm} {r v a q : ℕ}

/-- Dropping a page and writing an entry of another page commute. -/
theorem drop_setPte {k : ℕ} (apart : a ≠ q) :
    (vm.drop q).setPte a k pte = (vm.setPte a k pte).drop q := by
  have same : (vm.drop q).mem a = vm.mem a := drop_mem_of_ne apart
  rw [Vm.setPte, Vm.setPte, same]
  unfold Vm.drop Vm.setPage
  simp only
  split
  · rfl
  · rw [update_comm apart]

/-- Unmap a user page and drop its reference. -/
theorem Updates.unmap (rep : Rep layout w vm) (live : r ∈ w.live)
    (here : (w.space r).node 0 (v / 512) = some a) (low : v < UPAGES)
    (mapped : (w.space r).leaf v = some pte) (mine : (r, v) ∈ M) :
    Updates layout {r} M ∅ w vm
      (((w.setSpace r ((w.space r).setLeaf v none)).setExtra pte.pn
        (w.extra pte.pn + 1)).release pte.pn)
      ((vm.drop pte.pn).setPte a (v % 512) ⟨0, 0⟩) := by
  have user := rep.targets r live v low pte mapped
  have apart : a ≠ pte.pn := by
    rintro rfl
    rw [(rep.tables r live).own _ _ _ here] at user
    contradiction
  have unmapped := rep.unmap live here low mapped
  have spare : 0 < ((w.setSpace r ((w.space r).setLeaf v none)).setExtra pte.pn
      (w.extra pte.pn + 1)).extra pte.pn := by
    rw [setExtra_self]
    omega
  rw [drop_setPte apart]
  refine ⟨unmapped.release user spare,
    (rep.unmap_frame live here _ _ mine).trans
    (unmapped.release_frame user spare), release_live, ?_⟩
  rw [release_extra, setExtra_self]
  show update (update w.extra pte.pn _) pte.pn _ = _
  rw [update_idem, Nat.add_sub_cancel, update_eq_self]

/-- A mapped page is found by `walk`, with its entry. -/
theorem Rep.find (rep : Rep layout w vm) (live : r ∈ w.live) (low : v < MAXVA / PGSIZE)
    (mapped : (w.space r).leaf v = some pte) : ∃ a, (w.space r).node 0 (v / 512) = some a ∧
      walk r (v * PGSIZE) false vm = .ok (some (a, v % 512), vm) ∧
      vm.pte a (v % 512) = pte ∧ LeafFlags pte.flags := by
  have ok := rep.tables r live
  obtain ⟨a, node⟩ := ok.leafUp v pte mapped
  obtain ⟨found, vm', ran, rfl, rfl⟩ := walk_find ok (mul_PGSIZE_lt low)
  rw [mul_PGSIZE_div, node] at ran
  exact ⟨a, node, ran, by rw [ok.read node, mapped]; rfl, (ok.leafOk v pte mapped).2⟩

/-- The loop of `uvmunmap` over user pages, freeing them. -/
theorem uvmunmapGo_spec : ∀ n v w vm, Rep layout w vm → r ∈ w.live → v + n ≤ UPAGES →
    (∀ u, v ≤ u → u < v + n → (w.space r).leaf u ≠ none) →
    Safe (uvmunmapGo layout r true (v * PGSIZE) n) vm fun _ vm' => ∃ w',
      Updates layout {r} (vpages r v (v + n)) ∅ w vm w' vm' ∧
      ∀ u, (w'.space r).leaf u = if v ≤ u ∧ u < v + n then none else (w.space r).leaf u := by
  intro n
  induction n with
  | zero =>
    intro v w vm rep live _ _
    refine .pure ⟨w, .refl rep, fun u => ?_⟩
    rw [if_neg (by omega)]
  | succ n ih =>
    intro v w vm rep live low mapped
    obtain ⟨pte, leaf⟩ := Option.ne_none_iff_exists'.mp (mapped v le_rfl (by omega))
    obtain ⟨a, node, ran, read, flags⟩ := rep.find live (upages_lt_maxva (by omega)) leaf
    have user := rep.targets r live v (by omega) pte leaf
    have refs := rep.pages pte.pn
    simp only [user, PageRefs] at refs
    have mine : (r, v) ∈ vpages r v (v + (n + 1)) := ⟨rfl, le_rfl, by simp⟩
    have step := Updates.unmap rep live node (by omega) leaf mine
    have leaves : ∀ u, ((((w.setSpace r ((w.space r).setLeaf v none)).setExtra pte.pn
        (w.extra pte.pn + 1)).release pte.pn).space r).leaf u =
          if u = v then none else (w.space r).leaf u := by
      intro u
      rw [release_space, setExtra_space, setSpace_self]
      exact update_apply ..
    unfold uvmunmapGo
    apply bind_ok ran
    apply bind_reads
    rw [read, flags.has_valid, if_neg (by decide), if_neg flags.ne_valid]
    apply bind_ok (kfree_ok (rep.inside _ (by simp [user])) refs.2.2)
    apply bind_modifies
    rw [show v * PGSIZE + PGSIZE = (v + 1) * PGSIZE from (Nat.succ_mul v PGSIZE).symm]
    refine .mono (ih (v + 1) _ _ step.rep (by rwa [step.live]) (by omega) ?_) ?_
    · intro u lower upper
      rw [leaves, if_neg (by omega)]
      exact mapped u (by omega) (by omega)
    · rintro _ vm' ⟨w', later, gone⟩
      refine ⟨w', step.trans (later.mono le_rfl ?_ le_rfl), fun u => ?_⟩
      · rintro ⟨r', u⟩ ⟨same, lower, upper⟩
        simp only at same lower upper
        exact ⟨same, by simp only; omega, by simp only; omega⟩
      · rw [gone, leaves]
        by_cases same : u = v
        · rw [if_neg (by omega), if_pos same, if_pos (by omega)]
        · rw [if_neg same]
          exact if_congr (by omega) rfl rfl

/-- `uvmunmap` of user pages, freeing them. -/
theorem uvmunmap_spec {n : ℕ} (rep : Rep layout w vm) (live : r ∈ w.live) (low : v + n ≤ UPAGES)
    (mapped : ∀ u, v ≤ u → u < v + n → (w.space r).leaf u ≠ none) :
    Safe (uvmunmap layout r (v * PGSIZE) n true) vm fun _ vm' => ∃ w',
      Updates layout {r} (vpages r v (v + n)) ∅ w vm w' vm' ∧
      ∀ u, (w'.space r).leaf u = if v ≤ u ∧ u < v + n then none else (w.space r).leaf u := by
  unfold uvmunmap
  rw [if_neg (by simp)]
  exact uvmunmapGo_spec n v w vm rep live low mapped

/-- `uvmunmap` of the trapframe or the trampoline. -/
theorem uvmunmap_high (rep : Rep layout w vm) (live : r ∈ w.live) (high : UPAGES ≤ v)
    (low : v < MAXVA / PGSIZE) (mapped : (w.space r).leaf v = some pte) :
    Safe (uvmunmap layout r (v * PGSIZE) 1 false) vm fun _ vm' => ∃ w',
      Updates layout {r} ∅ ∅ w vm w' vm' ∧
      (w'.space r).leaf = update (w.space r).leaf v none := by
  obtain ⟨a, node, ran, read, flags⟩ := rep.find live low mapped
  unfold uvmunmap
  rw [if_neg (by simp)]
  unfold uvmunmapGo
  apply bind_ok ran
  apply bind_reads
  rw [read, flags.has_valid, if_neg (by decide), if_neg flags.ne_valid]
  apply bind_modifies
  refine .pure ⟨_, ⟨rep.mapHigh live node none high nofun, rep.mapHigh_frame live node none high,
    rfl, rfl⟩, ?_⟩
  rw [setSpace_self]
  rfl

/-- `uvmdealloc` unmaps the pages beyond the new size. -/
theorem uvmdealloc_spec (oldsz newsz : ℕ) (rep : Rep layout w vm) (live : r ∈ w.live)
    (low : npages oldsz ≤ UPAGES) (mapped : ∀ u < npages oldsz, (w.space r).leaf u ≠ none) :
    Safe (uvmdealloc layout r oldsz newsz) vm fun sz vm' => sz = min oldsz newsz ∧ ∃ w',
      Updates layout {r} (vpages r (npages newsz) (npages oldsz)) ∅ w vm w' vm' ∧
      ∀ u, (w'.space r).leaf u =
        if npages newsz ≤ u ∧ u < npages oldsz then none else (w.space r).leaf u := by
  have mono : ∀ {a b}, a ≤ b → npages a ≤ npages b := fun le =>
    Nat.div_le_div_right (by omega)
  unfold uvmdealloc
  by_cases grows : oldsz ≤ newsz
  · have pages := mono grows
    rw [if_pos grows]
    refine .pure ⟨by omega, w, .refl rep, fun u => ?_⟩
    rw [if_neg (by omega)]
  · have pages := mono (show newsz ≤ oldsz by omega)
    rw [if_neg grows, pgroundup_eq, pgroundup_eq]
    by_cases fewer : npages newsz < npages oldsz
    · have order : npages newsz * PGSIZE < npages oldsz * PGSIZE :=
        Nat.mul_lt_mul_of_pos_right fewer (by decide)
      rw [if_pos order, ← Nat.sub_mul, mul_PGSIZE_div]
      have total : npages newsz + (npages oldsz - npages newsz) = npages oldsz := by omega
      have unmap := uvmunmap_spec (v := npages newsz) (n := npages oldsz - npages newsz) rep live
        (by omega) (fun u _ upper => mapped u (by omega))
      rw [total] at unmap
      refine .bind unmap ?_
      rintro _ vm' ⟨w', updates, leaves⟩
      exact .pure ⟨by omega, w', updates, leaves⟩
    · have same : npages newsz = npages oldsz := by omega
      rw [if_neg (by rw [same]; omega)]
      refine .pure ⟨by omega, w, .refl rep, fun u => ?_⟩
      rw [if_neg (by omega)]

end Unmap

/-- No other page table maps the page. -/
def Apart (w : World) (r q : ℕ) : Prop :=
  ∀ r' ∈ w.live, r' ≠ r → ∀ v < UPAGES, ∀ pte, (w.space r').leaf v = some pte → pte.pn ≠ q

theorem Updates.apart_iff {layout : Layout} {r q : ℕ} {K : Set ℕ} {w w' : World}
    {vm vm' : Vm} (updates : Updates layout {r} M K w vm w' vm') : Apart w' r q ↔ Apart w r q := by
  unfold Apart
  rw [updates.live]
  refine forall₃_congr fun r' live other => ?_
  rw [updates.frame.space r' live other]

theorem Rep.apart_of_not_user {layout : Layout} {r q : ℕ} {w : World} {vm : Vm}
    (rep : Rep layout w vm) (other : w.owner q ≠ .user) : Apart w r q := by
  rintro r' live - v low pte leaf rfl
  exact other (rep.targets r' live v low pte leaf)

section Grow

variable {layout : Layout} {w : World} {vm : Vm} {r v v₀ q : ℕ} {xperm : BitVec 10}

theorem npages_mul (v : ℕ) : npages (v * PGSIZE) = v := by
  simp only [npages, PGSIZE]
  omega

/-- A page table maps at most as many pages as there are. -/
theorem Rep.pages_le (rep : Rep layout w vm) (live : r ∈ w.live) (low : v ≤ UPAGES)
    (mapped : ∀ u < v, (w.space r).leaf u ≠ none) : v ≤ PHYSPAGES := by
  let page : ℕ → ℕ := fun u => (((w.space r).leaf u).map Pte.pn).getD 0
  have entry : ∀ u < v, ∃ pte, (w.space r).leaf u = some pte ∧ page u = pte.pn := by
    intro u below
    obtain ⟨pte, leaf⟩ := Option.ne_none_iff_exists'.mp (mapped u below)
    exact ⟨pte, leaf, by simp only [page, leaf]; rfl⟩
  have into : ∀ u ∈ range v, page u ∈ range PHYSPAGES := by
    intro u mem
    obtain ⟨pte, leaf, same⟩ := entry u (mem_range.mp mem)
    rw [same, mem_range]
    exact ((rep.tables r live).leafOk u pte leaf).1
  have injective : ∀ u ∈ range v, ∀ u' ∈ range v, page u = page u' → u = u' := by
    intro u mem u' mem' same
    have below := mem_range.mp mem
    have below' := mem_range.mp mem'
    obtain ⟨pte, leaf, eq⟩ := entry u below
    obtain ⟨pte', leaf', eq'⟩ := entry u' below'
    exact rep.distinct r live u (by omega) u' (by omega) pte pte' leaf leaf'
      (eq.symm.trans (same.trans eq'))
  have cards := card_le_card_of_injOn page into injective
  rwa [card_range, card_range] at cards

/-- A page of zeros is allocated and mapped, or nothing is mapped and the page is freed. -/
theorem mappages_zero {vm₁ : Vm} (live : r ∈ w.live)
    (low : v < UPAGES) (unmapped : (w.space r).leaf v = none)
    (leafFlags : LeafFlags (perm ||| PTE_V))
    (allocated : Updates layout ∅ ∅ {q} w vm (w.setOwner q .kernel) vm₁) :
    Safe (mappages r (v * PGSIZE) PGSIZE q perm) (vm₁.setPage q fun _ => 0) fun ok vm' => ∃ w',
      Updates layout {r} ∅ {q} w vm w' vm' ∧ vm'.mem q = (fun _ => 0) ∧
      ((ok = false ∧ w'.owner q = .kernel ∧ (w'.space r).leaf = (w.space r).leaf) ∨
        (ok = true ∧ (w'.space r).leaf =
          update (w.space r).leaf v (some ⟨q, perm ||| PTE_V⟩))) := by
  have kernel : (w.setOwner q .kernel).owner q = .kernel := setOwner_self ..
  have cleared := Updates.setPage allocated.rep (fun _ => 0) kernel
  refine .mono (mappages_fresh cleared.rep live low unmapped kernel leafFlags) ?_
  rintro ok vm' ⟨w', mapped, mem, outcome⟩
  exact ⟨w', ((allocated.trans cleared).mono (Set.empty_subset _) le_rfl le_rfl).trans mapped,
    mem.trans (update_self ..), outcome⟩

theorem uvmallocGo_spec (leafFlags : LeafFlags (PTE_R ||| PTE_U ||| xperm ||| PTE_V)) :
    ∀ left v w vm, Rep layout w vm → r ∈ w.live → v₀ ≤ v → v ≤ UPAGES →
    (∀ u < v, (w.space r).leaf u ≠ none) →
    (∀ u, v ≤ u → u < UPAGES → (w.space r).leaf u = none) →
    Safe (uvmallocGo layout r (v₀ * PGSIZE) xperm (v * PGSIZE) left) vm fun ok vm' =>
      (ok = false ∧ ∃ w', Updates layout {r} (vpages r v₀ v) ∅ w vm w' vm' ∧
        ∀ u, (w'.space r).leaf u = if v₀ ≤ u ∧ u < v then none else (w.space r).leaf u) ∨
      (ok = true ∧ v + left ≤ UPAGES ∧ ∃ w', Updates layout {r} ∅ ∅ w vm w' vm' ∧
        (∀ u, ¬(v ≤ u ∧ u < v + left) → (w'.space r).leaf u = (w.space r).leaf u) ∧
        ∀ u, v ≤ u → u < v + left → ∃ q,
          (w'.space r).leaf u = some ⟨q, PTE_R ||| PTE_U ||| xperm ||| PTE_V⟩ ∧
          (vm'.mem q = fun _ => 0) ∧ Apart w r q) := by
  intro left
  induction left with
  | zero =>
    intro v w vm rep live _ low _ _
    exact .pure (.inr ⟨rfl, low, w, .refl rep, fun _ _ => rfl, fun u _ _ => by omega⟩)
  | succ left ih =>
    intro v w vm rep live start low mapped unmapped
    have below : v < UPAGES := lt_of_le_of_lt (rep.pages_le live low mapped) physpages_lt_upages
    -- both error exits unmap what the loop has mapped so far
    have giveUp : ∀ w₁ vm₁, Updates layout {r} ∅ ∅ w vm w₁ vm₁ →
        (w₁.space r).leaf = (w.space r).leaf →
        Safe (uvmdealloc layout r (v * PGSIZE) (v₀ * PGSIZE)) vm₁ fun _ vm' => ∃ w',
          Updates layout {r} (vpages r v₀ v) ∅ w vm w' vm' ∧
          ∀ u, (w'.space r).leaf u = if v₀ ≤ u ∧ u < v then none else (w.space r).leaf u := by
      intro w₁ vm₁ before leaves
      have dealloc := uvmdealloc_spec (v * PGSIZE) (v₀ * PGSIZE) before.rep
        (by rwa [before.live]) (by rwa [npages_mul])
        (fun u upper => by
          rw [npages_mul] at upper
          rw [leaves]
          exact mapped u upper)
      rw [npages_mul, npages_mul] at dealloc
      refine .mono dealloc ?_
      rintro _ vm' ⟨-, w', updates, gone⟩
      refine ⟨w', (before.mono le_rfl (Set.empty_subset _) le_rfl).trans updates, fun u => ?_⟩
      rw [gone, leaves]
    unfold uvmallocGo
    refine .bind (kalloc_spec rep) ?_
    rintro page vm₁ (⟨rfl, rfl, -⟩ | ⟨q, rfl, free, allocated⟩)
    · refine .bind (giveUp w _ (.refl rep) rfl) ?_
      intro _ vm' gone
      exact .pure (.inl ⟨rfl, gone⟩)
    · apply bind_modifies
      refine .bind (mappages_zero live below (unmapped v le_rfl below) leafFlags allocated) ?_
      rintro ok vm₂ ⟨w₂, updates, zero, ⟨rfl, kernel, leaves⟩ | ⟨rfl, leaves⟩⟩
      · refine .bind (kfree_kernel updates.rep kernel) ?_
        intro _ vm₃ freed
        have back := updates.trans (freed.mono (Set.empty_subset _) le_rfl le_rfl)
        have given : ¬Retained ((w₂.setOwner q .free).owner q) := by
          rw [setOwner_self]
          exact not_retained_free
        refine .bind (giveUp _ _ (back.absorb (.inl free) given) leaves) ?_
        intro _ vm' gone
        exact .pure (.inl ⟨rfl, gone⟩)
      · have live₂ : r ∈ w₂.live := by rwa [updates.live]
        have mapped₂ : (w₂.space r).leaf v = some ⟨q, PTE_R ||| PTE_U ||| xperm ||| PTE_V⟩ := by
          rw [leaves, update_self]
        have given : ¬Retained (w₂.owner q) := by
          rw [updates.rep.targets r live₂ v below _ mapped₂]
          exact not_retained_user
        have step := updates.absorb (.inl free) given
        have leaf : ∀ u, (w₂.space r).leaf u = if u = v then
            some ⟨q, PTE_R ||| PTE_U ||| xperm ||| PTE_V⟩ else (w.space r).leaf u := by
          intro u
          rw [leaves]
          exact update_apply ..
        rw [show v * PGSIZE + PGSIZE = (v + 1) * PGSIZE from (Nat.succ_mul v PGSIZE).symm]
        refine .mono (ih (v + 1) w₂ vm₂ step.rep live₂ (by omega) below ?_ ?_) ?_
        · intro u upper
          rw [leaf]
          split
          · nofun
          · exact mapped u (by omega)
        · intro u lower upper
          rw [leaf, if_neg (by omega)]
          exact unmapped u (by omega) upper
        · rintro ok vm' (⟨rfl, w', later, gone⟩ | ⟨rfl, fits, w', later, same, new⟩)
          · refine .inl ⟨rfl, w', ?_, fun u => ?_⟩
            · refine (step.mono le_rfl (Set.empty_subset _) le_rfl).trans_new later ?_
              rintro r' live' u upper was ⟨rfl, lower, upper'⟩
              refine ⟨rfl, lower, ?_⟩
              by_contra above
              exact was (unmapped u (by simp only at above; omega) upper)
            · rw [gone, leaf]
              by_cases here : u = v
              · rw [if_pos (by omega), if_neg (by omega), here, unmapped v le_rfl below]
              · rw [if_neg here]
                exact if_congr (by omega) rfl rfl
          · refine .inr ⟨rfl, by omega, w', step.trans later, fun u outside => ?_,
              fun u lower upper => ?_⟩
            · rw [same u (by omega), leaf, if_neg (by omega)]
            · by_cases here : u = v
              · subst here
                have entry := (same u (by omega)).trans (leaf u)
                rw [if_pos rfl] at entry
                have entry₂ := leaf u
                rw [if_pos rfl] at entry₂
                refine ⟨q, entry, ?_, rep.apart_of_not_user (by rw [free]; nofun)⟩
                have kept := later.frame.mapped_page live₂ below entry₂
                  (step.rep.targets r live₂ u below _ entry₂) (Set.notMem_empty _)
                  (Set.notMem_empty _)
                exact kept.1.trans zero
              · obtain ⟨q', entry, bytes, apart⟩ := new u (by omega) (by omega)
                exact ⟨q', entry, bytes, step.apart_iff.mp apart⟩

/-- `uvmalloc` maps pages of zeros up to the new size, or nothing. -/
theorem uvmalloc_spec (oldsz newsz : ℕ)
    (leafFlags : LeafFlags (PTE_R ||| PTE_U ||| xperm ||| PTE_V)) (rep : Rep layout w vm)
    (live : r ∈ w.live) (low : npages oldsz ≤ UPAGES)
    (mapped : ∀ u < npages oldsz, (w.space r).leaf u ≠ none)
    (unmapped : ∀ u, npages oldsz ≤ u → u < UPAGES → (w.space r).leaf u = none) :
    Safe (uvmalloc layout r oldsz newsz xperm) vm fun sz vm' => ∃ w',
      Updates layout {r} ∅ ∅ w vm w' vm' ∧
      ((sz = 0 ∧ (w'.space r).leaf = (w.space r).leaf) ∨
        (sz = max oldsz newsz ∧ npages sz ≤ UPAGES ∧
          (∀ u, ¬(npages oldsz ≤ u ∧ u < npages sz) → (w'.space r).leaf u = (w.space r).leaf u) ∧
          ∀ u, npages oldsz ≤ u → u < npages sz → ∃ q,
            (w'.space r).leaf u = some ⟨q, PTE_R ||| PTE_U ||| xperm ||| PTE_V⟩ ∧
            (vm'.mem q = fun _ => 0) ∧ Apart w r q)) := by
  unfold uvmalloc
  by_cases shrinks : newsz < oldsz
  · rw [if_pos shrinks]
    exact .pure ⟨w, .refl rep, .inr ⟨by omega, low, fun _ _ => rfl, fun u _ _ => by omega⟩⟩
  · have total : npages oldsz + (newsz - pgroundup oldsz + PGSIZE - 1) / PGSIZE =
        npages newsz := by
      simp only [pgroundup, npages, PGSIZE]
      omega
    have larger : max oldsz newsz = newsz := by omega
    have loop := uvmallocGo_spec leafFlags ((newsz - pgroundup oldsz + PGSIZE - 1) / PGSIZE)
      (npages oldsz) w vm rep live le_rfl low mapped unmapped
    rw [total] at loop
    rw [if_neg shrinks, larger]
    refine .bind loop ?_
    rintro grown vm' (⟨rfl, w', updates, leaves⟩ | ⟨rfl, fits, w', updates, same, new⟩)
    · have nothing : vpages r (npages oldsz) (npages oldsz) = ∅ :=
        Set.eq_empty_of_forall_notMem fun m mem => by
          have lower := mem.2.1
          have upper := mem.2.2
          omega
      rw [nothing] at updates
      refine .pure ⟨w', updates, .inl ⟨rfl, funext fun u => ?_⟩⟩
      rw [leaves, if_neg (by omega)]
    · exact .pure ⟨w', updates, .inr ⟨rfl, fits, same, new⟩⟩

end Grow

end Xv6Cos.Verif
