import Xv6Cos.Verif.Uvm

/-!
# Creating and freeing page tables

`freewalk` gives back every page of a page table without entries, level by level from below,
and does not panic; `uvmfree` does so after unmapping the user pages.
-/

namespace Xv6Cos.Verif

open Kernel Program Space World Nat

variable {layout : Layout} {w : World} {vm : Vm} {r level n a q : ℕ} {w₁ : World} {vm₁ : Vm}

/-- A page-table page with nothing below it is unlinked and freed. -/
theorem Updates.unlink (rep : Rep layout w vm) {M : Set (ℕ × ℕ)} (live : r ∈ w.live)
    (here : (w.space r).node level n = some q) (low : level < 2)
    (parent : (w.space r).node (level + 1) (n / 512) = some a)
    (empty : ∀ k < 512, (w.space r).slot level n k = ⟨0, 0⟩) :
    Updates layout {r} M ∅ w vm
      (((w.setSpace r ((w.space r).setNode level n none)).setOwner q .kernel).setOwner q .free)
      ((vm.drop q).setPte a (n % 512) ⟨0, 0⟩) := by
  have table := (rep.tables r live).own _ _ _ here
  have apart : a ≠ q := by
    rintro rfl
    have place := (rep.tables r live).place here parent
    omega
  rw [drop_setPte apart]
  have unlinked := rep.unlink live here low parent empty
  have freed := unlinked.freeKernel (setOwner_self ..)
  have frame : Frame {r} M {q} w vm _ _ := rep.setNode_frame none .kernel ⟨0, 0⟩ live parent
  have whole := frame.trans drop_frame
  refine ⟨freed, whole.absorb (.inr (.inl ⟨r, level, n, .inl rfl, table⟩)) ?_, rfl, rfl⟩
  rw [setOwner_self]
  exact not_retained_free

/-- What freeing pages below this level does to a page table without entries. -/
structure Prunes (layout : Layout) (r level : ℕ) (w : World) (vm : Vm) (w' : World) (vm' : Vm) :
    Prop extends Updates layout {r} ∅ ∅ w vm w' vm' where
  leaf : (w'.space r).leaf = (w.space r).leaf
  above : ∀ l n, level ≤ l → (w'.space r).node l n = (w.space r).node l n
  fewer : ∀ l n, (w.space r).node l n = none → (w'.space r).node l n = none

theorem Prunes.trans {w₂ : World} {vm₂ : Vm} (first : Prunes layout r level w vm w₁ vm₁)
    (second : Prunes layout r level w₁ vm₁ w₂ vm₂) : Prunes layout r level w vm w₂ vm₂ where
  toUpdates := first.toUpdates.trans second.toUpdates
  leaf := second.leaf.trans first.leaf
  above l n high := (second.above l n high).trans (first.above l n high)
  fewer l n absent := second.fewer l n (first.fewer l n absent)

theorem Prunes.refl (rep : Rep layout w vm) : Prunes layout r level w vm w vm :=
  ⟨.refl rep, rfl, fun _ _ _ => rfl, fun _ _ absent => absent⟩

/-- Pruning keeps empty entries empty. -/
theorem Prunes.slot_zero {w' : World} {vm' : Vm} {level' k : ℕ}
    (prunes : Prunes layout r level' w vm w' vm') (empty : ∀ v, (w.space r).leaf v = none)
    (zero : (w.space r).slot level n k = ⟨0, 0⟩) : (w'.space r).slot level n k = ⟨0, 0⟩ := by
  cases level with
  | zero =>
    rw [slot, prunes.leaf, empty]
    rfl
  | succ level =>
    have absent : (w.space r).node level (512 * n + k) = none := by
      cases here : (w.space r).node level (512 * n + k) with
      | none => rfl
      | some q =>
        rw [slot, here] at zero
        exact absurd (congrArg Pte.flags zero) (show PTE_V ≠ 0 by decide)
    rw [slot, prunes.fewer _ _ absent]
    rfl

/-- A page of a page table has one reference, and `kfree` drops it. -/
theorem kfree_table (rep : Rep layout w vm) {r' : ℕ} (table : w.owner q = .table r' level n) :
    kfree layout q vm = .ok ((), vm.drop q) := by
  have refs := rep.pages q
  simp only [table, PageRefs] at refs
  exact kfree_ok (rep.inside q (by simp [table])) (by omega)

/-- A page whose entries have been cleared is freed, and then its own entry is cleared. -/
theorem Prunes.unlink {q' i : ℕ} (prunes : Prunes layout r level w vm w₁ vm₁) (live : r ∈ w.live)
    (here : (w.space r).node (level + 1) n = some q)
    (child : (w.space r).node level (512 * n + i) = some q') (low : level < 2) (bound : i < 512)
    (cleared : ∀ k < 512, (w₁.space r).slot level (512 * n + i) k = ⟨0, 0⟩) :
    ∃ w', Prunes layout r (level + 1) w vm w' ((vm₁.drop q').setPte q i ⟨0, 0⟩) ∧
      (w'.space r).node level (512 * n + i) = none := by
  have live₁ : r ∈ w₁.live := by rwa [prunes.live]
  have child₁ := (prunes.above level (512 * n + i) le_rfl).trans child
  have parent : (w₁.space r).node (level + 1) ((512 * n + i) / 512) = some q := by
    rw [show (512 * n + i) / 512 = n by omega]
    exact (prunes.above (level + 1) n (by omega)).trans here
  have unlinked := Updates.unlink (M := ∅) prunes.rep live₁ child₁ low parent cleared
  rw [show (512 * n + i) % 512 = i by omega] at unlinked
  have pruned : (((w₁.setSpace r ((w₁.space r).setNode level (512 * n + i)
      none)).setOwner q' .kernel).setOwner q' .free).space r =
        (w₁.space r).setNode level (512 * n + i) none := setSpace_self ..
  refine ⟨_, ⟨prunes.toUpdates.trans unlinked, ?_, fun l m high => ?_, fun l m absent => ?_⟩, ?_⟩
  · rw [pruned]
    exact prunes.leaf
  · rw [pruned, setNode_of_ne (.inl (by omega))]
    exact prunes.above l m (by omega)
  · rw [pruned]
    by_cases same : l = level ∧ m = 512 * n + i
    · rw [same.1, same.2, setNode_self]
    · rw [setNode_of_ne (not_and_or.mp same)]
      exact prunes.fewer l m absent
  · rw [pruned, setNode_self]

/-- The loop of `freewalk` over a page at this level clears its entries, given what the
recursive call does on the level below. -/
theorem freewalkGo_spec : ∀ level ≤ 2, ∀ left i w vm n q, i + left = 512 → Rep layout w vm →
    r ∈ w.live → (∀ v, (w.space r).leaf v = none) → (w.space r).node level n = some q →
    (∀ k < i, (w.space r).slot level n k = ⟨0, 0⟩) →
    Safe (freewalkGo (freewalk layout level) q i left) vm fun _ vm' => ∃ w',
      Prunes layout r level w vm w' vm' ∧ ∀ k < 512, (w'.space r).slot level n k = ⟨0, 0⟩ := by
  -- induction on the level, and within it on the entries left
  intro level
  induction level using Nat.strongRecOn with
  | ind level below =>
    intro low left
    induction left with
    | zero =>
      intro i w vm n q total rep live empty here done
      exact .pure ⟨w, .refl rep, fun k bound => done k (by omega)⟩
    | succ left ih =>
      intro i w vm n q total rep live empty here done
      unfold freewalkGo
      apply Safe.bind_reads
      rw [(rep.tables r live).slots _ n q here i (by omega)]
      by_cases zero : (w.space r).slot level n i = ⟨0, 0⟩
      · rw [zero]
        refine ih (i + 1) w vm n q (by omega) rep live empty here fun k bound => ?_
        by_cases same : k = i
        · rw [same, zero]
        · exact done k (by omega)
      · obtain ⟨level, q', rfl, child⟩ : ∃ level' q', level = level' + 1 ∧
            (w.space r).node level' (512 * n + i) = some q' := by
          cases level with
          | zero => exact absurd (by rw [slot, empty]; rfl) zero
          | succ level =>
            cases child : (w.space r).node level (512 * n + i) with
            | none => exact absurd (by rw [slot, child]; rfl) zero
            | some q' => exact ⟨level, q', rfl, child⟩
        have entry : (w.space r).slot (level + 1) n i = ⟨q', PTE_V⟩ := by
          rw [slot, child]
          rfl
        have link : ((⟨q', PTE_V⟩ : Pte).has PTE_V &&
            !(⟨q', PTE_V⟩ : Pte).has (PTE_R ||| PTE_W ||| PTE_X)) = true := by
          show ((PTE_V &&& PTE_V != 0) && !(PTE_V &&& (PTE_R ||| PTE_W ||| PTE_X) != 0)) = true
          decide
        -- the recursive call clears the child and frees it; then the entry is cleared
        have recursive : Safe (freewalk layout (level + 1) q') vm fun _ vm' => ∃ w₁ vm₁,
            Prunes layout r level w vm w₁ vm₁ ∧ vm' = vm₁.drop q' ∧
            ∀ k < 512, (w₁.space r).slot level (512 * n + i) k = ⟨0, 0⟩ := by
          unfold freewalk
          refine .bind (below level (by omega) (by omega) 512 0 w vm (512 * n + i) q'
            (by omega) rep live empty
            child fun k bound => by omega) ?_
          rintro _ vm₁ ⟨w₁, prunes, cleared⟩
          have live₁ : r ∈ w₁.live := by rwa [prunes.live]
          have child₁ := (prunes.above level (512 * n + i) le_rfl).trans child
          exact ⟨(), _, kfree_table prunes.rep ((prunes.rep.tables r live₁).own _ _ _ child₁),
            w₁, vm₁, prunes, rfl, cleared⟩
        rw [entry, if_pos link]
        refine .bind recursive ?_
        rintro _ _ ⟨w₁, vm₁, prunes, rfl, cleared⟩
        apply Safe.bind_modifies
        obtain ⟨w₂, step, gone⟩ := prunes.unlink live here child (by omega) (by omega) cleared
        have empty₂ := fun v => (congrFun step.leaf v).trans (empty v)
        refine .mono (ih (i + 1) w₂ _ n q (by omega) step.rep (by rwa [step.live]) empty₂
          ((step.above (level + 1) n le_rfl).trans here) fun k bound => ?_) ?_
        · by_cases same : k = i
          · rw [same, slot, gone]
            rfl
          · exact step.slot_zero empty (done k (by omega))
        · rintro _ vm' ⟨w', later, zero⟩
          exact ⟨w', step.trans later, zero⟩

/-- A page table leaves the live ones; the references beside the page tables stay. -/
structure Frees (layout : Layout) (r : ℕ) (M : Set (ℕ × ℕ)) (w : World) (vm : Vm) (w' : World)
    (vm' : Vm) : Prop where
  rep : Rep layout w' vm'
  frame : Frame {r} M ∅ w vm w' vm'
  live : w'.live = w.live.erase r
  extra : w'.extra = w.extra

/-- A root without entries is the only page of its table. -/
theorem TableOk.bare {owner : ℕ → Owner} {S : Space} (ok : TableOk owner vm r S)
    (cleared : ∀ k < 512, S.slot 2 0 k = ⟨0, 0⟩) :
    ∀ level n q, S.node level n = some q → q = r := by
  -- a page below the root hangs off an entry of the root
  have middle : ∀ n q, S.node 1 n ≠ some q := by
    intro n q here
    obtain ⟨above, parent⟩ := ok.up 1 n q here (by omega)
    have place := ok.top 2 (n / 512) above parent
    have zero := cleared n (by omega)
    rw [slot, mul_zero, zero_add, here] at zero
    exact absurd (congrArg Pte.flags zero) (show PTE_V ≠ 0 by decide)
  intro level n q here
  rcases ok.top level n q here with low | ⟨rfl, rfl⟩
  · rcases (show level = 0 ∨ level = 1 by omega) with rfl | rfl
    · obtain ⟨above, parent⟩ := ok.up 0 n q here (by omega)
      exact absurd parent (middle _ _)
    · exact absurd here (middle n q)
  · exact Option.some.inj (here.symm.trans ok.root)

/-- `freewalk` of a page table without entries. -/
theorem freewalk_spec (rep : Rep layout w vm) (live : r ∈ w.live)
    (empty : ∀ v, (w.space r).leaf v = none) :
    Safe (freewalk layout 3 r) vm fun _ vm' => ∃ w', Frees layout r ∅ w vm w' vm' := by
  unfold freewalk
  refine .bind (freewalkGo_spec 2 le_rfl 512 0 w vm 0 r rfl rep live empty
    (rep.tables r live).root fun k bound => by omega) ?_
  rintro _ vm₁ ⟨w₁, prunes, cleared⟩
  have live₁ : r ∈ w₁.live := by rwa [prunes.live]
  have bare := (prunes.rep.tables r live₁).bare cleared
  have empty₁ : ∀ v < UPAGES, (w₁.space r).leaf v = none := fun v _ => by
    rw [prunes.leaf]
    exact empty v
  have root := prunes.rep.root_owner live₁
  have freed := (prunes.rep.dropRoot live₁ empty₁ bare).freeKernel (setOwner_self ..)
  have whole : Frame {r} ∅ {r} w₁ vm₁ _ _ := (dropRoot_frame empty₁).trans drop_frame
  have given : ¬Retained (((w₁.dropRoot r).setOwner r .free).owner r) := by
    rw [setOwner_self]
    exact not_retained_free
  refine ⟨(), _, kfree_table prunes.rep root, _, freed, prunes.frame.trans
    (whole.absorb (.inr (.inl ⟨r, 2, 0, .inl rfl, root⟩)) given),
    congrArg (fun live => live.erase r) prunes.live, prunes.extra⟩

/-- `uvmfree` of a page table that maps the pages of a process and nothing else. -/
theorem uvmfree_spec (sz : ℕ) (rep : Rep layout w vm) (live : r ∈ w.live)
    (low : npages sz ≤ UPAGES) (mapped : ∀ u, (w.space r).leaf u ≠ none ↔ u < npages sz) :
    Safe (uvmfree layout r sz) vm fun _ vm' => ∃ w',
      Frees layout r (vpages r 0 (npages sz)) w vm w' vm' := by
  unfold uvmfree
  have finish : ∀ w₁ vm₁, Updates layout {r} (vpages r 0 (npages sz)) ∅ w vm w₁ vm₁ →
      (∀ u, (w₁.space r).leaf u = none) → Safe (freewalk layout 3 r) vm₁ fun _ vm' => ∃ w',
        Frees layout r (vpages r 0 (npages sz)) w vm w' vm' := by
    intro w₁ vm₁ updates empty
    refine .mono (freewalk_spec updates.rep (by rwa [updates.live]) empty) ?_
    rintro _ vm' ⟨w', frees⟩
    exact ⟨w', frees.rep, updates.frame.trans (frees.frame.mono le_rfl (Set.empty_subset _) le_rfl),
      by rw [frees.live, updates.live], frees.extra.trans updates.extra⟩
  by_cases some : 0 < sz
  · rw [if_pos some, pgroundup_eq, mul_PGSIZE_div]
    have unmap := uvmunmap_spec (v := 0) (n := npages sz) rep live (by omega)
      fun u _ upper => (mapped u).mpr (by omega)
    rw [zero_mul, zero_add] at unmap
    refine .bind unmap ?_
    rintro _ vm₁ ⟨w₁, updates, leaves⟩
    refine finish w₁ vm₁ updates fun u => ?_
    rw [leaves]
    split
    · rfl
    · by_contra here
      exact absurd ((mapped u).mp here) (by omega)
  · rw [if_neg some]
    have zero : npages sz = 0 := by
      simp only [npages, PGSIZE]
      omega
    refine finish w vm (.refl rep) fun u => ?_
    by_contra here
    have := (mapped u).mp here
    omega

/-- `uvmcreate` makes a new empty page table, or fails on an empty free list. -/
theorem uvmcreate_spec (rep : Rep layout w vm) : Safe uvmcreate vm fun root vm' =>
    (root = none ∧ vm' = vm) ∨ ∃ r w', root = some r ∧ r ∉ w.live ∧ Rep layout w' vm' ∧
      Frame ∅ ∅ ∅ w vm w' vm' ∧ w'.live = insert r w.live ∧ w'.extra = w.extra ∧
      w'.space r = .empty r := by
  unfold uvmcreate
  refine .bind (kalloc_spec rep) ?_
  rintro page vm₁ (⟨rfl, rfl, -⟩ | ⟨r, rfl, free, allocated⟩)
  · exact .pure (.inl ⟨rfl, rfl⟩)
  · have dead : r ∉ w.live := by
      intro live
      rw [rep.root_owner live] at free
      contradiction
    have kernel : (w.setOwner r .kernel).owner r = .kernel := setOwner_self ..
    have cleared := Updates.setPage allocated.rep (fun _ => 0) kernel
    have zero : (vm₁.setPage r fun _ => 0).mem r = fun _ => 0 := Function.update_self ..
    apply Safe.bind_modifies
    have frame : Frame ∅ ∅ {r} w vm ((w.setOwner r .kernel).addRoot r) (vm₁.setPage r fun _ => 0) :=
      (allocated.trans cleared).frame.trans (addRoot_frame dead)
    have given : ¬Retained (((w.setOwner r .kernel).addRoot r).owner r) := by
      rw [show ((w.setOwner r .kernel).addRoot r).owner r = .table r 2 0 from setOwner_self ..]
      exact not_retained_table _ _ _
    exact .pure (.inr ⟨r, (w.setOwner r .kernel).addRoot r, rfl, dead,
      cleared.rep.addRoot kernel zero, frame.absorb (.inl free) given, rfl, rfl,
      setSpace_self ..⟩)

end Xv6Cos.Verif
