import Xv6Cos.Verif.Teardown

/-!
# Copy-on-write

`uvmcopy` shares a parent's pages with a child, read-only; `cowfault` gives a process its own
copy. The invariant behind both is that a writable page is mapped once.
-/

namespace Xv6Cos.Verif

open Kernel Program Function World Set Space Nat

variable {layout : Layout} {w : World} {vm : Vm} {r r' v v' : ℕ} {pte pte' : Pte} {a : ℕ}

/-- A writable page has one mapping. -/
theorem Rep.writable_unique (rep : Rep layout w vm) (live : r ∈ w.live) (live' : r' ∈ w.live)
    (low : v < UPAGES) (low' : v' < UPAGES) (leaf : (w.space r).leaf v = some pte)
    (leaf' : (w.space r').leaf v' = some pte') (same : pte'.pn = pte.pn)
    (writes : pte.has PTE_W = true) : r' = r ∧ v' = v := by
  by_contra other
  have user := rep.targets r live v low pte leaf
  have refs := rep.pages pte.pn
  simp only [user, PageRefs] at refs
  have sole := rep.writable r live v low pte leaf writes
  -- without the writable mapping, the page is still counted
  have kept : ((w.setSpace r ((w.space r).setLeaf v none)).space r').leaf v' = some pte' := by
    by_cases root : r' = r
    · subst root
      have apart : v' ≠ v := fun eq => other ⟨rfl, eq⟩
      rw [setSpace_self, setLeaf_of_ne apart, leaf']
    · rw [setSpace_of_ne root, leaf']
  have counted := count_pos (w := w.setSpace r ((w.space r).setLeaf v none)) live' low' kept
  have balance := count_setLeaf (w := w) none live low pte.pn
  rw [leaf, refsOf_some, refsOf_none] at balance
  rw [same] at counted
  omega

/-- The entry without the right to write. -/
def readonly (pte : Pte) : Pte := ⟨pte.pn, pte.flags &&& ~~~PTE_W⟩

@[simp] theorem readonly_pn (pte : Pte) : (readonly pte).pn = pte.pn := rfl

theorem readonly_leafFlags (flags : LeafFlags pte.flags) : LeafFlags (readonly pte).flags := by
  refine ⟨?_, ?_⟩
  · rw [readonly, BitVec.and_assoc, show ~~~PTE_W &&& PTE_V = PTE_V by decide]
    exact flags.1
  · rw [readonly, BitVec.and_assoc, show ~~~PTE_W &&& PTE_R = PTE_R by decide]
    exact flags.2

theorem readonly_has_W (pte : Pte) : (readonly pte).has PTE_W = false := by
  rw [readonly, Pte.has, BitVec.and_assoc, show ~~~PTE_W &&& PTE_W = 0 by decide]
  simp

theorem readonly_idem (pte : Pte) : readonly (readonly pte) = readonly pte := by
  simp only [readonly, BitVec.and_assoc, BitVec.and_self]

section Copy

variable {old new : ℕ}

/-- `uvmcopy` takes one page of the parent: the right to write goes, and a reference is added. -/
theorem increse_spec (rep : Rep layout w vm) (live : old ∈ w.live) (low : v < UPAGES)
    (node : (w.space old).node 0 (v / 512) = some a) (leaf : (w.space old).leaf v = some pte) :
    Safe (increse pte.pn) (vm.setPte a (v % 512) (readonly pte)) fun _ vm' =>
      Rep layout ((w.setSpace old ((w.space old).setLeaf v (some (readonly pte)))).setExtra pte.pn
        (w.extra pte.pn + 1)) vm' ∧
      Frame {old} ∅ ∅ w vm ((w.setSpace old
      ((w.space old).setLeaf v (some (readonly pte)))).setExtra
        pte.pn (w.extra pte.pn + 1)) vm' := by
  have user := rep.targets old live v low pte leaf
  have flags := ((rep.tables old live).leafOk v pte leaf).2
  have cleared := rep.setFlags live node (readonly pte).flags low leaf
    (readonly_leafFlags flags) fun writes =>
    absurd writes (Bool.eq_false_iff.mp (readonly_has_W pte))
  have frame : Frame {old} ∅ ∅ w vm _ _ :=
    rep.setFlags_frame live node (readonly pte).flags leaf
  have refs := cleared.pages pte.pn
  rw [show (w.setSpace old ((w.space old).setLeaf v (some ⟨pte.pn, (readonly pte).flags⟩))).owner
    pte.pn = .user from user] at refs
  simp only [PageRefs] at refs
  have inside := rep.inside pte.pn (by simp [user])
  have counted : 0 < (vm.setPte a (v % 512) (readonly pte)).refcnt pte.pn := refs.2.2
  refine ⟨(), _, by rw [increse, if_neg (by omega)], ?_, ?_⟩
  · rw [show (vm.setPte a (v % 512) (readonly pte)).refcnt pte.pn + 1 =
      (w.setSpace old ((w.space old).setLeaf v (some (readonly pte)))).count pte.pn +
        (w.extra pte.pn + 1) by rw [← add_assoc]; exact congrArg (· + 1) refs.2.1]
    refine cleared.setRefs user (by omega) fun r live' v' low' pte' leaf' same => ?_
    by_contra writes
    have writes : pte'.has PTE_W = true := by simpa using writes
    -- another mapping of the page that could write would be the only one
    by_cases place : r = old ∧ v' = v
    · obtain ⟨rfl, rfl⟩ := place
      rw [setSpace_self, setLeaf_self] at leaf'
      cases leaf'
      exact absurd writes (Bool.eq_false_iff.mp (readonly_has_W pte))
    · have before : (w.space r).leaf v' = some pte' := by
        by_cases root : r = old
        · subst root
          have apart : v' ≠ v := fun eq => place ⟨rfl, eq⟩
          rwa [setSpace_self, setLeaf_of_ne apart] at leaf'
        · rwa [setSpace_of_ne root] at leaf'
      obtain ⟨rfl, rfl⟩ := rep.writable_unique live' live low' low before leaf same.symm writes
      exact place ⟨rfl, rfl⟩
  · exact frame.trans (.of_same_space rfl rfl (fun _ _ _ => ⟨rfl, rfl⟩) fun _ _ _ => rfl)

/-- `mappages` of a page that another page table maps, with a reference to spare. -/
theorem mappages_shared (rep : Rep layout w vm) (live : new ∈ w.live) (low : v < UPAGES)
    (unmapped : (w.space new).leaf v = none) (live' : r ∈ w.live) (low' : v' < UPAGES)
    (source : (w.space r).leaf v' = some pte) (spare : 0 < w.extra pte.pn)
    (writes : pte.has PTE_W = false)
    (fresh : ∀ u < UPAGES, ∀ pte', (w.space new).leaf u = some pte' → pte'.pn ≠ pte.pn) :
    Safe (mappages new (v * PGSIZE) PGSIZE pte.pn pte.flags) vm fun ok vm' => ∃ w',
      Rep layout w' vm' ∧ Frame {new} ∅ ∅ w vm w' vm' ∧ w'.live = w.live ∧
      ((ok = false ∧ w'.extra = w.extra ∧ (w'.space new).leaf = (w.space new).leaf) ∨
        (ok = true ∧ w'.extra = update w.extra pte.pn (w.extra pte.pn - 1) ∧
          (w'.space new).leaf = update (w.space new).leaf v (some pte))) := by
  have user := rep.targets r live' v' low' pte source
  have flags := ((rep.tables r live').leafOk v' pte source).2
  rw [mappages_page]
  refine .mono (mapPage_spec rep live (upages_lt_maxva low) unmapped _) ?_
  rintro ok vm' ⟨w₁, vm₁, grown, ⟨rfl, rfl⟩ | ⟨rfl, a, node, rfl⟩⟩
  · exact ⟨w₁, grown.rep, grown.frame, grown.live, .inl ⟨rfl, grown.extra, grown.leaf⟩⟩
  · have live₁ : new ∈ w₁.live := by rwa [grown.live]
    have unmapped₁ : (w₁.space new).leaf v = none := by rw [grown.leaf, unmapped]
    have user₁ : w₁.owner pte.pn = .user := (grown.frame.mapped_page live' low' source user
      (notMem_empty _) (notMem_empty _)).2.trans user
    have mapped := grown.rep.mapShared live₁ node low unmapped₁ user₁ (by rwa [grown.extra]) flags
      writes (by rwa [grown.leaf])
    have frame : Frame {new} ∅ ∅ w₁ vm₁ _ _ :=
      grown.rep.mapShared_frame live₁ node pte (w₁.extra pte.pn - 1) unmapped₁
    rw [flags.or_valid]
    refine ⟨_, mapped, grown.frame.trans frame, grown.live, .inr ⟨rfl, ?_, ?_⟩⟩
    · rw [← grown.extra]
      rfl
    · rw [setExtra_space, setSpace_self, ← grown.leaf]
      rfl

/-- One page of `uvmcopy`: the parent's entry loses the right to write, and the child gets the
same entry, or a reference is left over. -/
theorem uvmcopy_page (rep : Rep layout w vm) (apart : new ≠ old) (live : old ∈ w.live)
    (live' : new ∈ w.live) (low : v < UPAGES) (node : (w.space old).node 0 (v / 512) = some a)
    (leaf : (w.space old).leaf v = some pte) (unmapped : (w.space new).leaf v = none)
    (fresh : ∀ u < UPAGES, ∀ pte', (w.space new).leaf u = some pte' → pte'.pn ≠ pte.pn) :
    Safe (do
      increse pte.pn
      mappages new (v * PGSIZE) PGSIZE pte.pn (readonly pte).flags)
      (vm.setPte a (v % 512) (readonly pte)) fun ok vm' => ∃ w', Rep layout w' vm' ∧
        Frame {old, new} ∅ ∅ w vm w' vm' ∧ w'.live = w.live ∧
        (w'.space old).leaf = update (w.space old).leaf v (some (readonly pte)) ∧
        ((ok = false ∧ w'.extra = update w.extra pte.pn (w.extra pte.pn + 1) ∧
            (w'.space new).leaf = (w.space new).leaf) ∨
          (ok = true ∧ w'.extra = w.extra ∧ (w'.space new).leaf =
            update (w.space new).leaf v (some (readonly pte)))) := by
  refine .bind (increse_spec rep live low node leaf) ?_
  rintro _ vm₁ ⟨rep₁, frame₁⟩
  generalize same : (w.setSpace old ((w.space old).setLeaf v (some (readonly pte)))).setExtra pte.pn
    (w.extra pte.pn + 1) = w₁ at rep₁ frame₁
  have lives : w₁.live = w.live := by rw [← same]; rfl
  have extra : w₁.extra = update w.extra pte.pn (w.extra pte.pn + 1) := by rw [← same]; rfl
  have parent : (w₁.space old).leaf = update (w.space old).leaf v (some (readonly pte)) := by
    rw [← same, setExtra_space, setSpace_self]
    rfl
  have child : w₁.space new = w.space new := by
    rw [← same, setExtra_space, setSpace_of_ne apart]
  have source : (w₁.space old).leaf v = some (readonly pte) := by rw [parent, update_self]
  have mapping := mappages_shared rep₁ (by rwa [lives]) low
    (by rw [child, unmapped]) (by rwa [lives]) low source
    (by rw [extra, readonly_pn, update_self]; omega)
    (readonly_has_W pte) (by rw [child]; exact fresh)
  refine .mono mapping ?_
  rintro ok vm' ⟨w', rep', frame', lives', outcome⟩
  have parent' : (w'.space old).leaf = (w₁.space old).leaf := by
    rw [frame'.space old (by rwa [lives]) apart.symm]
  refine ⟨w', rep', (frame₁.mono (by simp) le_rfl le_rfl).trans
    (frame'.mono (by simp) le_rfl le_rfl), lives'.trans lives, parent'.trans parent, ?_⟩
  rcases outcome with ⟨rfl, extra', leaves⟩ | ⟨rfl, extra', leaves⟩
  · exact .inl ⟨rfl, extra'.trans extra, by rw [leaves, child]⟩
  · refine .inr ⟨rfl, ?_, by rw [leaves, child]⟩
    rw [extra', extra, readonly_pn, update_self, update_idem, Nat.add_sub_cancel, update_eq_self]

/-- The loop of `uvmcopy`. When it gives up at a page, it unmaps the earlier ones, but the
reference it has added for that page stays. -/
theorem uvmcopyGo_spec (apart : new ≠ old) : ∀ left v w vm, Rep layout w vm → old ∈ w.live →
    new ∈ w.live → v + left ≤ UPAGES →
    (∀ u, v ≤ u → u < v + left → (w.space old).leaf u ≠ none) →
    (∀ u, v ≤ u → u < UPAGES → (w.space new).leaf u = none) →
    (∀ u < v, ∃ pte pte', (w.space old).leaf u = some pte ∧ (w.space new).leaf u = some pte' ∧
      pte'.pn = pte.pn) →
    Safe (uvmcopyGo layout old new (v * PGSIZE) left) vm fun ok vm' => ∃ w', Rep layout w' vm' ∧
      w'.live = w.live ∧
      ((ok = true ∧ w'.extra = w.extra ∧ Frame {old, new} ∅ ∅ w vm w' vm' ∧
        (∀ u, (w'.space old).leaf u = if v ≤ u ∧ u < v + left then
          ((w.space old).leaf u).map readonly else (w.space old).leaf u) ∧
        (∀ u, (w'.space new).leaf u = if v ≤ u ∧ u < v + left then
          ((w.space old).leaf u).map readonly else (w.space new).leaf u)) ∨
      (ok = false ∧ (∃ u pte, v ≤ u ∧ u < v + left ∧ (w.space old).leaf u = some pte ∧
          w'.extra = update w.extra pte.pn (w.extra pte.pn + 1)) ∧
        Frame {old, new} (vpages new 0 v) ∅ w vm w' vm' ∧
        (∀ u, (w'.space old).leaf u = (w.space old).leaf u ∨ u < v + left ∧
          (w'.space old).leaf u = ((w.space old).leaf u).map readonly) ∧
        (∀ u, (w'.space new).leaf u = if u < v then none else (w.space new).leaf u))) := by
  intro left
  induction left with
  | zero =>
    intro v w vm rep _ _ _ _ _ _
    refine .pure ⟨w, rep, rfl, .inl ⟨rfl, rfl, .refl, fun u => ?_, fun u => ?_⟩⟩ <;>
      rw [if_neg (by omega)]
  | succ left ih =>
    intro v w vm rep live live' low mapped unmapped copied
    obtain ⟨pte, leaf⟩ := Option.ne_none_iff_exists'.mp (mapped v le_rfl (by omega))
    obtain ⟨a, node, ran, read, flags⟩ := rep.find live (upages_lt_maxva (by omega)) leaf
    have fresh : ∀ u < UPAGES, ∀ pte', (w.space new).leaf u = some pte' → pte'.pn ≠ pte.pn := by
      intro u upper pte' here same
      by_cases before : u < v
      · obtain ⟨pteOld, pteNew, oldLeaf, newLeaf, pages⟩ := copied u before
        obtain rfl := Option.some.inj (here.symm.trans newLeaf)
        have equal := rep.distinct old live u upper v (by omega) pteOld pte oldLeaf leaf
          (pages.symm.trans same)
        omega
      · rw [unmapped u (by omega) upper] at here
        contradiction
    have page := uvmcopy_page rep apart live live' (by omega) node leaf
      (unmapped v le_rfl (by omega)) fresh
    unfold uvmcopyGo
    apply Safe.bind_ok ran
    apply Safe.bind_reads
    rw [read, flags.has_valid, if_neg (by decide)]
    apply Safe.bind_modifies
    apply Safe.regroup
    refine .bind page ?_
    rintro ok vm₁ ⟨w₁, rep₁, frame₁, lives₁, parent₁, outcome⟩
    have oldLeaf : ∀ u, (w₁.space old).leaf u = if u = v then some (readonly pte) else
        (w.space old).leaf u := fun u => by
      rw [parent₁]
      exact update_apply ..
    rcases outcome with ⟨rfl, extra₁, child₁⟩ | ⟨rfl, extra₁, child₁⟩
    · have unmap := uvmunmap_spec (r := new) (v := 0) (n := v) rep₁ (by rwa [lives₁]) (by omega)
        fun u _ upper => by
          obtain ⟨-, pteNew, -, here, -⟩ := copied u (by omega)
          rw [child₁, here]
          nofun
      rw [zero_mul, zero_add] at unmap
      rw [mul_PGSIZE_div]
      refine .bind unmap ?_
      rintro _ vm' ⟨w', updates, gone⟩
      have kept : (w'.space old).leaf = (w₁.space old).leaf := by
        rw [updates.frame.space old (by rwa [lives₁]) apart.symm]
      refine .pure ⟨w', updates.rep, updates.live.trans lives₁, .inr ⟨rfl,
        ⟨v, pte, le_rfl, by omega, leaf, updates.extra.trans extra₁⟩,
        (frame₁.mono le_rfl (empty_subset _) le_rfl).trans
          (updates.frame.mono (by simp) le_rfl le_rfl), fun u => ?_, fun u => ?_⟩⟩
      · rw [kept, oldLeaf]
        split
        · rename_i here
          rw [here, leaf]
          exact .inr ⟨by omega, rfl⟩
        · exact .inl rfl
      · rw [gone, child₁]
        congr 1
        exact propext ⟨fun h => h.2, fun h => ⟨zero_le u, h⟩⟩
    · have newLeaf : ∀ u, (w₁.space new).leaf u = if u = v then some (readonly pte) else
          (w.space new).leaf u := fun u => by
        rw [child₁]
        exact update_apply ..
      rw [show v * PGSIZE + PGSIZE = (v + 1) * PGSIZE from (succ_mul v PGSIZE).symm]
      refine .mono (ih (v + 1) w₁ vm₁ rep₁ (by rwa [lives₁]) (by rwa [lives₁])
        (by omega) ?_ ?_ ?_) ?_
      · intro u lower upper
        rw [oldLeaf, if_neg (by omega)]
        exact mapped u (by omega) (by omega)
      · intro u lower upper
        rw [newLeaf, if_neg (by omega)]
        exact unmapped u (by omega) upper
      · intro u upper
        rw [oldLeaf, newLeaf]
        by_cases here : u = v
        · rw [if_pos here, if_pos here]
          exact ⟨_, _, rfl, rfl, rfl⟩
        · rw [if_neg here, if_neg here]
          exact copied u (by omega)
      · rintro ok vm' ⟨w', rep', lives', outcome⟩
        refine ⟨w', rep', lives'.trans lives₁, ?_⟩
        rcases outcome with ⟨rfl, extra', frame', parent', child'⟩ |
          ⟨rfl, ⟨u, pteU, lower, upper, leafU, extra'⟩, frame', parent', child'⟩
        · refine .inl ⟨rfl, extra'.trans extra₁, frame₁.trans frame', fun u => ?_, fun u => ?_⟩
          · rw [parent', oldLeaf]
            by_cases here : u = v
            · rw [if_neg (by omega), if_pos here, if_pos (by omega), here, leaf]
              rfl
            · rw [if_neg here]
              exact if_congr (by omega) rfl rfl
          · rw [child', oldLeaf, newLeaf]
            by_cases here : u = v
            · rw [if_neg (by omega), if_pos here, if_pos (by omega), here, leaf]
              rfl
            · rw [if_neg here, if_neg here]
              exact if_congr (by omega) rfl rfl
        · rw [oldLeaf, if_neg (by omega)] at leafU
          rw [extra₁] at extra'
          refine .inr ⟨rfl, ⟨u, pteU, by omega, by omega, leafU, extra'⟩, ?_,
            fun u => ?_, fun u => ?_⟩
          · refine (frame₁.mono le_rfl (empty_subset _) le_rfl).trans_new frame' ?_
            rintro r' live' u upper was ⟨rfl, lower, upper'⟩
            refine ⟨rfl, lower, ?_⟩
            by_contra above
            exact was (unmapped u (by simp only at above; omega) upper)
          · have later := parent' u
            rw [oldLeaf] at later
            by_cases here : u = v
            · rw [if_pos here] at later
              rw [here] at later ⊢
              rw [leaf]
              refine .inr ⟨by omega, ?_⟩
              rcases later with same | ⟨-, same⟩
              · exact same
              · rw [same]
                exact congrArg some (readonly_idem pte)
            · rw [if_neg here] at later
              exact later.imp_right fun changed => ⟨by omega, changed.2⟩
          · rw [child', newLeaf]
            by_cases here : u = v
            · rw [if_pos (by omega), if_neg (by omega), here, unmapped v le_rfl (by omega)]
            · rw [if_neg here]
              exact if_congr (by omega) rfl rfl

/-- `uvmcopy` shares all pages of the parent, or fails with one reference left over. -/
theorem uvmcopy_spec (sz : ℕ) (rep : Rep layout w vm) (apart : new ≠ old) (live : old ∈ w.live)
    (live' : new ∈ w.live) (low : npages sz ≤ UPAGES)
    (mapped : ∀ u < npages sz, (w.space old).leaf u ≠ none)
    (unmapped : ∀ u < UPAGES, (w.space new).leaf u = none) :
    Safe (uvmcopy layout old new sz) vm fun ok vm' => ∃ w', Rep layout w' vm' ∧
      w'.live = w.live ∧ Frame {old, new} ∅ ∅ w vm w' vm' ∧
      ((ok = true ∧ w'.extra = w.extra ∧
        (∀ u, (w'.space old).leaf u = if u < npages sz then
          ((w.space old).leaf u).map readonly else (w.space old).leaf u) ∧
        (∀ u, (w'.space new).leaf u = if u < npages sz then
          ((w.space old).leaf u).map readonly else (w.space new).leaf u)) ∨
      (ok = false ∧ (∃ u pte, u < npages sz ∧ (w.space old).leaf u = some pte ∧
          w'.extra = update w.extra pte.pn (w.extra pte.pn + 1)) ∧
        (∀ u, (w'.space old).leaf u = (w.space old).leaf u ∨ u < npages sz ∧
          (w'.space old).leaf u = ((w.space old).leaf u).map readonly) ∧
        (w'.space new).leaf = (w.space new).leaf)) := by
  have loop := uvmcopyGo_spec apart (npages sz) 0 w vm rep live live' (by omega)
    (fun u _ upper => mapped u (by omega)) (fun u _ upper => unmapped u upper)
    fun u upper => by omega
  rw [zero_mul] at loop
  refine .mono loop ?_
  simp only [zero_add, zero_le, true_and, not_lt_zero, if_false]
  rintro ok vm' ⟨w', rep', lives, ⟨rfl, extra, frame, parent, child⟩ |
    ⟨rfl, left, frame, parent, child⟩⟩
  · exact ⟨w', rep', lives, frame, .inl ⟨rfl, extra, parent, child⟩⟩
  · have nothing : vpages new 0 0 = ∅ := eq_empty_of_forall_notMem fun m mem => by
      have lower := mem.2.1
      have upper := mem.2.2
      omega
    rw [nothing] at frame
    exact ⟨w', rep', lives, frame, .inr ⟨rfl, left, parent, funext child⟩⟩

end Copy

section Fault

theorem setPte_setPte {k : ℕ} : (vm.setPte a k pte).setPte a k pte' = vm.setPte a k pte' := by
  simp only [Vm.setPte, Vm.setPage, update_self, update_idem, Bytes.writeLE_writeLE]

/-- A mapping moves from one page to a page of the kernel, and the old reference is dropped. -/
theorem Updates.remap (rep : Rep layout w vm) {q : ℕ} {flags : BitVec 10} (live : r ∈ w.live)
    (low : v < UPAGES) (node : (w.space r).node 0 (v / 512) = some a)
    (leaf : (w.space r).leaf v = some pte) (kernel : w.owner q = .kernel)
    (leafFlags : LeafFlags flags) :
    ∃ w', Updates layout {r} {(r, v)} {q} w vm w' ((vm.setPte a (v % 512) ⟨q, flags⟩).drop pte.pn) ∧
      kfree layout pte.pn (vm.setPte a (v % 512) ⟨q, flags⟩) =
        .ok ((), (vm.setPte a (v % 512) ⟨q, flags⟩).drop pte.pn) ∧
      (w'.space r).leaf = update (w.space r).leaf v (some ⟨q, flags⟩) := by
  have user := rep.targets r live v low pte leaf
  have unmapped := rep.unmap live node low leaf
  have frame₁ : Frame {r} {(r, v)} ∅ w vm _ _ :=
    rep.unmap_frame live node pte.pn (w.extra pte.pn + 1) rfl
  generalize same₁ : (w.setSpace r ((w.space r).setLeaf v none)).setExtra pte.pn
    (w.extra pte.pn + 1) = w₁ at unmapped frame₁
  have space₁ : w₁.space r = (w.space r).setLeaf v none := by
    rw [← same₁, setExtra_space, setSpace_self]
  have owner₁ : w₁.owner = w.owner := by rw [← same₁]; rfl
  have extra₁ : w₁.extra = update w.extra pte.pn (w.extra pte.pn + 1) := by
    rw [← same₁]; rfl
  have live₁ : r ∈ w₁.live := by rw [← same₁]; exact live
  have node₁ : (w₁.space r).node 0 (v / 512) = some a := by rw [space₁]; exact node
  have gone₁ : (w₁.space r).leaf v = none := by rw [space₁, setLeaf_self]
  have mapped := unmapped.mapFresh live₁ node₁ low gone₁ (by rw [owner₁, kernel]) leafFlags
  have frame₂ : Frame {r} {(r, v)} {q} w₁ _ _ _ :=
    unmapped.mapFresh_frame (q := q) live₁ node₁ flags gone₁
  rw [setPte_setPte] at mapped frame₂
  generalize same₂ : (w₁.setSpace r ((w₁.space r).setLeaf v (some ⟨q, flags⟩))).setOwner q .user =
    w₂ at mapped frame₂
  have apart : pte.pn ≠ q := by
    intro same
    rw [← same, user] at kernel
    contradiction
  have user₂ : w₂.owner pte.pn = .user := by
    rw [← same₂, setOwner_of_ne apart]
    exact (congrFun owner₁ _).trans user
  have extra₂ : w₂.extra = w₁.extra := by rw [← same₂]; rfl
  have spare : 0 < w₂.extra pte.pn := by
    rw [extra₂, extra₁, update_self]
    omega
  have refs := mapped.pages pte.pn
  simp only [user₂, PageRefs] at refs
  refine ⟨w₂.release pte.pn, ⟨mapped.release user₂ spare,
    ((frame₁.mono le_rfl le_rfl (empty_subset _)).trans frame₂).trans
      (mapped.release_frame user₂ spare), ?_, ?_⟩, ?_, ?_⟩
  · rw [release_live, ← same₂, ← same₁]
    rfl
  · rw [release_extra, extra₂, extra₁, update_self, update_idem, Nat.add_sub_cancel, update_eq_self]
  · exact kfree_ok (rep.inside pte.pn (by simp [user])) refs.2.2
  · rw [release_space, ← same₂, setOwner_space, setSpace_self, space₁]
    exact update_idem ..

end Fault

end Xv6Cos.Verif
