import Xv6Cos.Verif.Memory

/-!
# Updates of page tables

Each write of a page-table entry keeps the representation of memory, for a world changed in
the same place: an entry of a virtual page, a page-table page linked in or out, a page table
created or given up.
-/

namespace Xv6Cos.Verif

open Kernel Finset World Space

variable {M : Set (ℕ × ℕ)} {pte : Pte}

section Leaves

variable {layout : Layout} {w w' : World} {vm vm' : Vm} {r v a q : ℕ}

section

variable (rep : Rep layout w vm)

include rep

/-- The pages of different page tables differ. -/
theorem Rep.tables_apart {r' level n level' n' q' : ℕ} (live : r ∈ w.live)
    (live' : r' ∈ w.live) (other : r' ≠ r) (here : (w.space r).node level n = some q)
    (there : (w.space r').node level' n' = some q') : q' ≠ q := by
  rintro rfl
  have same := ((rep.tables r live).own _ _ _ here).symm.trans
    ((rep.tables r' live').own _ _ _ there)
  injection same with roots
  exact other roots.symm

section

variable (live : r ∈ w.live) (here : (w.space r).node 0 (v / 512) = some a)

include live here

/-- The kernel writes the entry of a virtual page; owners and references change to match. -/
theorem Rep.setLeaf (entry : Option Pte)
    (good : ∀ pte, entry = some pte → pte.pn < PHYSPAGES ∧ LeafFlags pte.flags)
    (lives : w'.live = w.live)
    (spaces : w'.space = (w.setSpace r ((w.space r).setLeaf v entry)).space)
    (tables : ∀ q r level n, w.owner q = .table r level n → w'.owner q = w.owner q)
    (linked : ∀ q r level n, w'.owner q = .table r level n → w.owner q = .table r level n)
    (users : ∀ q, w.owner q = .user → w'.owner q = .user)
    (inside : ∀ q, w'.owner q ≠ .outside → w.owner q ≠ .outside)
    (pages : ∀ q, PageRefs (w'.owner q) (q ∈ vm.freelist) (vm.refcnt q) (w'.count q) (w'.extra q))
    (target : v < UPAGES → ∀ pte, entry = some pte → w'.owner pte.pn = .user)
    (fresh : v < UPAGES → ∀ pte, entry = some pte → ∀ v' < UPAGES, v' ≠ v → ∀ pte',
      (w.space r).leaf v' = some pte' → pte'.pn ≠ pte.pn)
    (sole : v < UPAGES → ∀ pte, entry = some pte → pte.has PTE_W = true → vm.refcnt pte.pn = 1) :
    Rep layout w' (vm.setPte a (v % 512) (leafEntry entry)) := by
  have self : w'.space r = (w.space r).setLeaf v entry := by rw [spaces, setSpace_self]
  have others : ∀ r', r' ≠ r → w'.space r' = w.space r' := fun r' other => by
    rw [spaces, setSpace_of_ne other]
  -- an entry of the new world is the new one or an old one
  have cases : ∀ r' v' pte, (w'.space r').leaf v' = some pte →
      (r' = r ∧ v' = v ∧ entry = some pte) ∨
        ((r' ≠ r ∨ v' ≠ v) ∧ (w.space r').leaf v' = some pte) := by
    intro r' v' pte leaf
    by_cases same : r' = r
    · subst same
      rw [self] at leaf
      by_cases target : v' = v
      · subst target
        rw [setLeaf_self] at leaf
        exact .inl ⟨rfl, rfl, leaf⟩
      · rw [setLeaf_of_ne target] at leaf
        exact .inr ⟨.inr target, leaf⟩
    · rw [others r' same] at leaf
      exact .inr ⟨.inl same, leaf⟩
  refine ⟨rep.nodup, fun q managed => rep.inside q (inside q managed), pages, ?_, ?_, ?_, ?_, ?_⟩
  · intro r' live'
    rw [lives] at live'
    by_cases same : r' = r
    · subst same
      rw [self]
      have ok := (rep.tables r' live).setLeaf here good
      exact ok.frame (fun _ _ _ _ => rfl) fun level n q there => tables _ _ _ _ (ok.own _ _ _ there)
    · rw [others r' same]
      have ok := rep.tables r' live'
      refine ok.frame (fun level n q there => setPte_mem_of_ne ?_)
        fun level n q there => tables _ _ _ _ (ok.own _ _ _ there)
      exact rep.tables_apart live live' same here there
  · intro r' live' v' low pte leaf
    rw [lives] at live'
    rcases cases r' v' pte leaf with ⟨rfl, rfl, new⟩ | ⟨-, old⟩
    · exact target low pte new
    · exact users _ (rep.targets r' live' v' low pte old)
  · intro r' live' v₁ low₁ v₂ low₂ pte₁ pte₂ leaf₁ leaf₂ same
    rw [lives] at live'
    rcases cases r' v₁ pte₁ leaf₁ with ⟨rfl, rfl, new₁⟩ | ⟨apart₁, old₁⟩
    · rcases cases r' v₂ pte₂ leaf₂ with ⟨-, rfl, -⟩ | ⟨apart₂, old₂⟩
      · rfl
      · have other : v₂ ≠ v₁ := apart₂.resolve_left fun ne => ne rfl
        exact absurd same.symm (fresh low₁ pte₁ new₁ v₂ low₂ other pte₂ old₂)
    · rcases cases r' v₂ pte₂ leaf₂ with ⟨rfl, rfl, new₂⟩ | ⟨apart₂, old₂⟩
      · have other : v₁ ≠ v₂ := apart₁.resolve_left fun ne => ne rfl
        exact absurd same (fresh low₂ pte₂ new₂ v₁ low₁ other pte₁ old₁)
      · exact rep.distinct r' live' v₁ low₁ v₂ low₂ pte₁ pte₂ old₁ old₂ same
  · intro r' live' v' low pte leaf writes
    rw [lives] at live'
    rcases cases r' v' pte leaf with ⟨rfl, rfl, new⟩ | ⟨-, old⟩
    · exact sole low pte new writes
    · exact rep.writable r' live' v' low pte old writes
  · intro q r' level n table
    obtain ⟨live', node⟩ := rep.linked q r' level n (linked q r' level n table)
    refine ⟨by rwa [lives], ?_⟩
    by_cases same : r' = r
    · subst same
      rwa [self]
    · rwa [others r' same]

/-- What writing an entry leaves alone. -/
theorem Rep.setLeaf_frame (entry : Option Pte) {K : Set ℕ} (lives : w'.live = w.live)
    (spaces : w'.space = (w.setSpace r ((w.space r).setLeaf v entry)).space)
    (owners : ∀ q ∉ K, w'.owner q = w.owner q)
    (kept : v < UPAGES → (r, v) ∈ M ∨ ∀ pte, (w.space r).leaf v = some pte →
      ∃ pte', entry = some pte' ∧ pte'.pn = pte.pn) :
    Frame {r} M K w vm w' (vm.setPte a (v % 512) (leafEntry entry)) where
  live r' live' _ := by rwa [lives]
  space r' _ other := by rw [spaces, setSpace_of_ne other]
  maps r' live' v' low notMine pte leaf := by
    refine ⟨by rwa [lives], ?_⟩
    rw [spaces]
    by_cases same : r' = r
    · subst same
      rw [setSpace_self]
      by_cases target : v' = v
      · subst target
        rw [setLeaf_self]
        exact (kept low).resolve_left notMine pte leaf
      · rw [setLeaf_of_ne target]
        exact ⟨pte, leaf, rfl⟩
    · rw [setSpace_of_ne same]
      exact ⟨pte, leaf, rfl⟩
  pages q outside shared := by
    refine ⟨setPte_mem_of_ne ?_, owners q outside⟩
    rintro rfl
    exact shared (.inr (.inl ⟨r, _, _, .inl rfl, (rep.tables r live).own _ _ _ here⟩))
  settled q outside _ := (owners q outside).symm

/-- An entry at or above the trapframe. -/
theorem Rep.mapHigh (entry : Option Pte) (high : UPAGES ≤ v)
    (good : ∀ pte, entry = some pte → pte.pn < PHYSPAGES ∧ LeafFlags pte.flags) :
    Rep layout (w.setSpace r ((w.space r).setLeaf v entry))
      (vm.setPte a (v % 512) (leafEntry entry)) := by
  have never : ¬v < UPAGES := by omega
  refine rep.setLeaf live here entry good rfl rfl (fun _ _ _ _ _ => rfl)
    (fun _ _ _ _ table => table) (fun _ user => user) (fun _ managed => managed) ?_ ?_ ?_ ?_
  · intro q
    have counts : (w.setSpace r ((w.space r).setLeaf v entry)).count q = w.count q := by
      apply sum_congr rfl
      intro r' _
      by_cases same : r' = r
      · rw [same, setSpace_self]
        apply sum_congr rfl
        intro v' low
        rw [setLeaf_of_ne]
        rintro rfl
        exact never (mem_range.mp low)
      · rw [setSpace_of_ne same]
    rw [counts]
    exact rep.pages q
  · exact fun low => absurd low never
  · exact fun low => absurd low never
  · exact fun low => absurd low never

theorem Rep.mapHigh_frame (entry : Option Pte) (high : UPAGES ≤ v) :
    Frame {r} M ∅ w vm (w.setSpace r ((w.space r).setLeaf v entry))
      (vm.setPte a (v % 512) (leafEntry entry)) :=
  rep.setLeaf_frame live here entry rfl rfl (fun _ _ => rfl) fun low => absurd low (by omega)

/-- A page that the kernel has just allocated becomes user memory. -/
theorem Rep.mapFresh (low : v < UPAGES)
    (unmapped : (w.space r).leaf v = none) (kernel : w.owner q = .kernel) {flags : BitVec 10}
    (leafFlags : LeafFlags flags) :
    Rep layout ((w.setSpace r ((w.space r).setLeaf v (some ⟨q, flags⟩))).setOwner q .user)
      (vm.setPte a (v % 512) ⟨q, flags⟩) := by
  have notUser : w.owner q ≠ .user := by simp [kernel]
  have refs := rep.pages q
  simp only [kernel, PageRefs] at refs
  have apart : ∀ q', w.owner q' ≠ .kernel → q' ≠ q := by
    rintro q' other rfl
    exact other kernel
  have counts := count_setLeaf (w := w) (some ⟨q, flags⟩) live low
  rw [unmapped] at counts
  refine rep.setLeaf live here (some ⟨q, flags⟩) ?_ rfl rfl ?_ ?_ ?_ ?_ ?_ ?_ ?_ ?_
  · rintro pte ⟨⟩
    exact ⟨(rep.inside q (by simp [kernel])).2, leafFlags⟩
  · exact fun q' r' level n table =>
      setOwner_of_ne (apart q' (by simp [table]))
  · intro q' r' level n table
    by_cases same : q' = q
    · rw [same, setOwner_self] at table
      contradiction
    · rwa [setOwner_of_ne same] at table
  · exact fun q' user =>
      (setOwner_of_ne (apart q' (by simp [user]))).trans user
  · intro q' managed
    by_cases same : q' = q
    · rw [same, kernel]
      simp
    · rwa [setOwner_of_ne same] at managed
  · intro q'
    have count := counts q'
    have empty : refsOf none q' = 0 := refsOf_none q'
    rw [show ((w.setSpace r ((w.space r).setLeaf v (some ⟨q, flags⟩))).setOwner q .user).count q' =
      (w.setSpace r ((w.space r).setLeaf v (some ⟨q, flags⟩))).count q' from
        count_congr rfl rfl q']
    by_cases same : q' = q
    · subst same
      have none := rep.count_of_not_user notUser
      have one : refsOf (some (⟨q', flags⟩ : Pte)) q' = 1 := refsOf_some ⟨q', flags⟩
      rw [setOwner_self]
      exact ⟨refs.1, by
        show vm.refcnt q' = _ + w.extra q'
        omega, by omega⟩
    · have zero : refsOf (some (⟨q, flags⟩ : Pte)) q' = 0 := refsOf_of_ne same
      rw [setOwner_of_ne same]
      have equal : (w.setSpace r ((w.space r).setLeaf v (some ⟨q, flags⟩))).count q' =
        w.count q' := by omega
      rw [equal]
      exact rep.pages q'
  · rintro - pte ⟨⟩
    exact setOwner_self ..
  · rintro - pte ⟨⟩ v' low' - pte' leaf' same
    exact notUser ((congrArg w.owner same).symm.trans (rep.targets r live v' low' pte' leaf'))
  · rintro - pte ⟨⟩ -
    exact refs.2.1

theorem Rep.mapFresh_frame (flags : BitVec 10) (unmapped : (w.space r).leaf v = none) :
    Frame {r} M {q} w vm ((w.setSpace r ((w.space r).setLeaf v (some ⟨q, flags⟩))).setOwner q .user)
      (vm.setPte a (v % 512) ⟨q, flags⟩) :=
  rep.setLeaf_frame live here (some ⟨q, flags⟩) rfl rfl
    (fun _ outside => setOwner_of_ne outside) fun _ => .inr fun pte mapped => by
      rw [unmapped] at mapped
      contradiction

omit live here in
/-- A mapping and a spare reference of a user page change places. -/
theorem Rep.setExtra_pages {entry entry' : Option Pte} {space : Space} {extra : ℕ}
    (user : w.owner q = .user)
    (counts : ∀ q, (w.setSpace r space).count q + refsOf entry q = w.count q + refsOf entry' q)
    (moved : extra + refsOf entry' q = w.extra q + refsOf entry q)
    (others : ∀ q' ≠ q, refsOf entry q' = refsOf entry' q') (q' : ℕ) :
    PageRefs (w.owner q') (q' ∈ vm.freelist) (vm.refcnt q')
      (((w.setSpace r space).setExtra q extra).count q')
      (((w.setSpace r space).setExtra q extra).extra q') := by
  have refs := rep.pages q'
  have count := counts q'
  rw [show ((w.setSpace r space).setExtra q extra).count q' = (w.setSpace r space).count q' from
    count_congr rfl rfl q']
  by_cases same : q' = q
  · subst same
    rw [user] at refs ⊢
    rw [setExtra_self]
    exact ⟨refs.1, by have sum := refs.2.1; omega, refs.2.2⟩
  · rw [others q' same, Nat.add_right_cancel_iff] at count
    rwa [setExtra_of_ne same, count]

/-- A page with a reference to spare is mapped read-only. -/
theorem Rep.mapShared (low : v < UPAGES)
    (unmapped : (w.space r).leaf v = none) (user : w.owner pte.pn = .user)
    (spare : 0 < w.extra pte.pn) (leafFlags : LeafFlags pte.flags)
    (readonly : pte.has PTE_W = false)
    (fresh : ∀ v' < UPAGES, ∀ pte', (w.space r).leaf v' = some pte' → pte'.pn ≠ pte.pn) :
    Rep layout ((w.setSpace r ((w.space r).setLeaf v (some pte))).setExtra pte.pn
      (w.extra pte.pn - 1)) (vm.setPte a (v % 512) pte) := by
  have counts := count_setLeaf (w := w) (some pte) live low
  rw [unmapped] at counts
  refine rep.setLeaf live here (some pte) ?_ rfl rfl (fun _ _ _ _ _ => rfl)
    (fun _ _ _ _ table => table) (fun _ user => user) (fun _ managed => managed) ?_ ?_ ?_ ?_
  · rintro _ ⟨⟩
    exact ⟨(rep.inside pte.pn (by rw [user]; nofun)).2, leafFlags⟩
  · refine rep.setExtra_pages user counts ?_ fun q' other => ?_
    · rw [refsOf_none, refsOf_some]
      omega
    · rw [refsOf_none, refsOf_of_ne other]
  · rintro - _ ⟨⟩
    exact user
  · rintro - _ ⟨⟩ v' low' - pte' leaf'
    exact fresh v' low' pte' leaf'
  · rintro - _ ⟨⟩ writes
    rw [readonly] at writes
    contradiction

theorem Rep.mapShared_frame (pte : Pte) (extra : ℕ) (unmapped : (w.space r).leaf v = none) :
    Frame {r} M ∅ w vm ((w.setSpace r ((w.space r).setLeaf v (some pte))).setExtra pte.pn extra)
      (vm.setPte a (v % 512) pte) :=
  rep.setLeaf_frame live here (some pte) rfl rfl (fun _ _ => rfl)
    fun _ => .inr fun pte' mapped => by
      rw [unmapped] at mapped
      contradiction

/-- A page is unmapped; its reference is left over. -/
theorem Rep.unmap (low : v < UPAGES) (mapped : (w.space r).leaf v = some pte) :
    Rep layout ((w.setSpace r ((w.space r).setLeaf v none)).setExtra pte.pn
      (w.extra pte.pn + 1)) (vm.setPte a (v % 512) ⟨0, 0⟩) := by
  have user := rep.targets r live v low pte mapped
  have counts := count_setLeaf (w := w) none live low
  rw [mapped] at counts
  refine rep.setLeaf live here none nofun rfl rfl (fun _ _ _ _ _ => rfl)
    (fun _ _ _ _ table => table) (fun _ user => user)
    (fun _ managed => managed) ?_ nofun nofun nofun
  refine rep.setExtra_pages user counts ?_ fun q' other => ?_
  · rw [refsOf_none, refsOf_some]
  · rw [refsOf_none, refsOf_of_ne other]

theorem Rep.unmap_frame (q extra : ℕ) (mine : (r, v) ∈ M) :
    Frame {r} M ∅ w vm ((w.setSpace r ((w.space r).setLeaf v none)).setExtra q extra)
      (vm.setPte a (v % 512) ⟨0, 0⟩) :=
  rep.setLeaf_frame live here none rfl rfl (fun _ _ => rfl) fun _ => .inl mine

/-- The flags of a mapping change, without a new right to write. -/
theorem Rep.setFlags (flags : BitVec 10) (low : v < UPAGES)
    (mapped : (w.space r).leaf v = some pte) (leafFlags : LeafFlags flags)
    (readonly : (Pte.mk pte.pn flags).has PTE_W = true → pte.has PTE_W = true) :
    Rep layout (w.setSpace r ((w.space r).setLeaf v (some ⟨pte.pn, flags⟩)))
      (vm.setPte a (v % 512) ⟨pte.pn, flags⟩) := by
  have user := rep.targets r live v low pte mapped
  have counts := count_setLeaf (w := w) (some ⟨pte.pn, flags⟩) live low
  rw [mapped] at counts
  refine rep.setLeaf live here (some ⟨pte.pn, flags⟩) ?_ rfl rfl (fun _ _ _ _ _ => rfl)
    (fun _ _ _ _ table => table) (fun _ user => user) (fun _ managed => managed) ?_ ?_ ?_ ?_
  · rintro _ ⟨⟩
    exact ⟨(rep.inside pte.pn (by rw [user]; nofun)).2, leafFlags⟩
  · intro q'
    have count := counts q'
    have same : refsOf (some (⟨pte.pn, flags⟩ : Pte)) q' = refsOf (some pte) q' := rfl
    have equal : (w.setSpace r ((w.space r).setLeaf v (some ⟨pte.pn, flags⟩))).count q' =
      w.count q' := by omega
    rw [equal]
    exact rep.pages q'
  · rintro - _ ⟨⟩
    exact user
  · rintro - _ ⟨⟩ v' low' other pte' leaf' same
    exact other (rep.distinct r live v' low' v low pte' pte leaf' mapped same)
  · rintro - _ ⟨⟩ writes
    exact rep.writable r live v low pte mapped (readonly writes)

theorem Rep.setFlags_frame (flags : BitVec 10) (mapped : (w.space r).leaf v = some pte) :
    Frame {r} M ∅ w vm (w.setSpace r ((w.space r).setLeaf v (some ⟨pte.pn, flags⟩)))
      (vm.setPte a (v % 512) ⟨pte.pn, flags⟩) :=
  rep.setLeaf_frame live here (some ⟨pte.pn, flags⟩) rfl rfl (fun _ _ => rfl)
    fun _ => .inr fun pte' mapped' => by
      obtain rfl := Option.some.inj (mapped.symm.trans mapped')
      exact ⟨_, rfl, rfl⟩

end

end

end Leaves

section Tables

variable {layout : Layout} {w w' : World} {vm : Vm} {r level n a q : ℕ}

section

variable (rep : Rep layout w vm)

include rep

/-- A page of a page table is linked in or out: the other parts of the representation stay. -/
theorem Rep.setNode {page : Option ℕ} {owner : Owner}
    (live : r ∈ w.live) (parent : (w.space r).node (level + 1) (n / 512) = some a)
    (sole : w.owner q = .kernel ∨ w.owner q = .table r level n)
    (place : ∀ q', (w.space r).node level n = some q' → q' = q)
    (becomes : owner = .kernel ∨ owner = .table r level n ∧ page = some q)
    (table : TableOk (Function.update w.owner q owner) (vm.setPte a (n % 512) pte) r
      ((w.space r).setNode level n page)) :
    Rep layout ((w.setSpace r ((w.space r).setNode level n page)).setOwner q owner)
      (vm.setPte a (n % 512) pte) := by
  have notUser : ∀ q', w.owner q' = .user → q' ≠ q := by
    rintro q' user rfl
    rw [user] at sole
    rcases sole with h | h <;> contradiction
  have leaves : ∀ r', ((w.setSpace r ((w.space r).setNode level n page)).space r').leaf =
      (w.space r').leaf := by
    intro r'
    by_cases same : r' = r
    · rw [same, setSpace_self, setNode_leaf]
    · rw [setSpace_of_ne same]
  refine ⟨rep.nodup, ?_, ?_, ?_, ?_, ?_, ?_, ?_⟩
  · intro q' managed
    by_cases same : q' = q
    · apply rep.inside q'
      rw [same]
      rcases sole with h | h <;> rw [h] <;> nofun
    · rw [setOwner_of_ne same] at managed
      exact rep.inside q' managed
  · intro q'
    rw [show ((w.setSpace r ((w.space r).setNode level n page)).setOwner q owner).count q' =
      w.count q' from
        (count_congr (w := w.setSpace r ((w.space r).setNode level n page)) rfl rfl q').trans
          (count_setNode q')]
    by_cases same : q' = q
    · subst same
      have refs : q' ∉ vm.freelist ∧ vm.refcnt q' = 1 ∧ w.extra q' = 0 := by
        have refs := rep.pages q'
        rcases sole with h | h <;> simpa only [h, PageRefs] using refs
      rw [setOwner_self]
      rcases becomes with rfl | ⟨rfl, -⟩ <;> exact refs
    · rw [setOwner_of_ne same]
      exact rep.pages q'
  · intro r' live'
    by_cases same : r' = r
    · subst same
      show TableOk _ _ r' ((w.setSpace r' _).space r')
      rw [setSpace_self]
      exact table
    · show TableOk _ _ r' ((w.setSpace r _).space r')
      rw [setSpace_of_ne same]
      have ok := rep.tables r' live'
      refine ok.frame (fun level' n' q' there => setPte_mem_of_ne ?_) fun level' n' q' there =>
        setOwner_of_ne ?_
      · exact rep.tables_apart live live' same parent there
      · rintro rfl
        rw [ok.own _ _ _ there] at sole
        rcases sole with h | h
        · contradiction
        · injection h with roots
          exact same roots
  · intro r' live' v low pte' leaf
    have old : (w.space r').leaf v = some pte' := (congrFun (leaves r') v).symm.trans leaf
    have user := rep.targets r' live' v low pte' old
    rw [setOwner_of_ne (notUser _ user)]
    exact user
  · intro r' live' v low v' low' pte₁ pte₂ leaf₁ leaf₂ same
    exact rep.distinct r' live' v low v' low' pte₁ pte₂
      ((congrFun (leaves r') v).symm.trans leaf₁) ((congrFun (leaves r') v').symm.trans leaf₂) same
  · intro r' live' v low pte' leaf writes
    exact rep.writable r' live' v low pte' ((congrFun (leaves r') v).symm.trans leaf) writes
  · intro q' r' level' n' table'
    by_cases same : q' = q
    · rw [same, setOwner_self] at table'
      rcases becomes with rfl | ⟨rfl, linked⟩
      · contradiction
      · obtain ⟨rfl, rfl, rfl⟩ : r = r' ∧ level = level' ∧ n = n' := by
          injection table' with roots levels indices
          exact ⟨roots, levels, indices⟩
        refine ⟨live, ?_⟩
        show ((w.setSpace r _).space r).node level n = _
        rw [setSpace_self, setNode_self, linked, same]
    · rw [setOwner_of_ne same] at table'
      obtain ⟨live', node⟩ := rep.linked q' r' level' n' table'
      refine ⟨live', ?_⟩
      show ((w.setSpace r _).space r').node level' n' = _
      by_cases root : r' = r
      · subst root
        rw [setSpace_self, setNode_of_ne ?_, node]
        by_contra here
        rw [not_or, not_not, not_not] at here
        obtain ⟨rfl, rfl⟩ := here
        exact same (place q' node)
      · rw [setSpace_of_ne root, node]

/-- What linking a page in or out leaves alone. -/
theorem Rep.setNode_frame (page : Option ℕ) (owner : Owner) (pte : Pte) (live : r ∈ w.live)
    (parent : (w.space r).node (level + 1) (n / 512) = some a) :
    Frame {r} M {q} w vm ((w.setSpace r ((w.space r).setNode level n page)).setOwner q owner)
      (vm.setPte a (n % 512) pte) where
  live _ live' _ := live'
  space r' _ other := setSpace_of_ne other
  maps r' live' v _ _ pte leaf := by
    refine ⟨live', pte, ?_, rfl⟩
    show ((w.setSpace r _).space r').leaf v = _
    by_cases same : r' = r
    · subst same
      rw [setSpace_self, setNode_leaf, leaf]
    · rw [setSpace_of_ne same, leaf]
  pages q' outside shared := by
    refine ⟨setPte_mem_of_ne ?_, setOwner_of_ne outside⟩
    rintro rfl
    exact shared (.inr (.inl ⟨r, _, _, .inl rfl, (rep.tables r live).own _ _ _ parent⟩))
  settled q' outside _ := (setOwner_of_ne outside).symm

/-- `walk` links a new page of zeros. -/
theorem Rep.link (live : r ∈ w.live) (absent : (w.space r).node level n = none) (low : level < 2)
    (parent : (w.space r).node (level + 1) (n / 512) = some a) (zero : vm.mem q = fun _ => 0)
    (kernel : w.owner q = .kernel) :
    Rep layout ((w.setSpace r ((w.space r).setNode level n (some q))).setOwner q
      (.table r level n)) (vm.setPte a (n % 512) ⟨q, PTE_V⟩) := by
  have fits := (rep.inside q (by rw [kernel]; nofun)).2
  exact rep.setNode live parent (.inl kernel) (fun q' here => by
    rw [absent] at here
    contradiction) (.inr ⟨rfl, rfl⟩)
    ((rep.tables r live).link absent low parent zero kernel fits)

/-- `freewalk` unlinks a page with nothing below it. -/
theorem Rep.unlink (live : r ∈ w.live) (here : (w.space r).node level n = some q) (low : level < 2)
    (parent : (w.space r).node (level + 1) (n / 512) = some a)
    (empty : ∀ k < 512, (w.space r).slot level n k = ⟨0, 0⟩) :
    Rep layout ((w.setSpace r ((w.space r).setNode level n none)).setOwner q .kernel)
      (vm.setPte a (n % 512) ⟨0, 0⟩) :=
  rep.setNode live parent (.inr ((rep.tables r live).own _ _ _ here))
    (fun _ there => Option.some.inj (there.symm.trans here)) (.inl rfl)
    ((rep.tables r live).unlink here low parent empty)

end

/-- The page table with a root and nothing else. -/
def Space.empty (r : ℕ) : Space where
  node level n := if level = 2 ∧ n = 0 then some r else none
  leaf _ := none

/-- Memory holds an empty page table in a page of zeros. -/
theorem tableOk_empty {owner : ℕ → Owner} (zero : vm.mem r = fun _ => 0)
    (own : owner r = .table r 2 0) : TableOk owner vm r (.empty r) := by
  have only : ∀ level n q, (Space.empty r).node level n = some q →
      level = 2 ∧ n = 0 ∧ q = r := by
    intro level n q here
    obtain ⟨place, here⟩ := Option.ite_none_right_eq_some.mp here
    exact ⟨place.1, place.2, (Option.some.inj here).symm⟩
  refine ⟨rfl, ?_, ?_, ?_, ?_, nofun, nofun⟩
  · intro level n q here
    obtain ⟨rfl, rfl, -⟩ := only level n q here
    exact .inr ⟨rfl, rfl⟩
  · intro level n q here
    obtain ⟨rfl, rfl, rfl⟩ := only level n q here
    exact own
  · intro level n q here k _
    obtain ⟨rfl, rfl, rfl⟩ := only level n q here
    rw [pte_of_zero zero]
    rfl
  · intro level n q here low
    obtain ⟨rfl, -, -⟩ := only level n q here
    contradiction

/-- A new page table joins the live ones. -/
def World.addRoot (w : World) (r : ℕ) : World :=
  { (w.setSpace r (.empty r)).setOwner r (.table r 2 0) with live := insert r w.live }

/-- A page table leaves the live ones. -/
def World.dropRoot (w : World) (r : ℕ) : World :=
  { w.setOwner r .kernel with live := w.live.erase r }

/-- A root is a page of its own table. -/
theorem Rep.root_owner (rep : Rep layout w vm) (live : r ∈ w.live) : w.owner r = .table r 2 0 :=
  (rep.tables r live).own _ _ _ (rep.tables r live).root

/-- `uvmcreate` makes an empty page table of a page of zeros. -/
theorem Rep.addRoot (rep : Rep layout w vm) (kernel : w.owner r = .kernel)
    (zero : vm.mem r = fun _ => 0) : Rep layout (w.addRoot r) vm := by
  have dead : r ∉ w.live := by
    intro live
    rw [rep.root_owner live] at kernel
    contradiction
  have others : ∀ r' ∈ w.live, r' ≠ r := by
    rintro r' live rfl
    exact dead live
  have spaces : ∀ r' ∈ w.live, (w.addRoot r).space r' = w.space r' := fun r' live =>
    setSpace_of_ne (others r' live)
  have self : (w.addRoot r).space r = .empty r := setSpace_self ..
  have counts : ∀ q, (w.addRoot r).count q = w.count q := by
    intro q
    have new : ((w.addRoot r).space r).maps q = 0 := by
      rw [self]
      exact sum_eq_zero fun v _ => refsOf_eq_zero nofun
    calc (w.addRoot r).count q
      _ = ((w.addRoot r).space r).maps q + ∑ r' ∈ w.live, ((w.addRoot r).space r').maps q :=
        sum_insert dead
      _ = 0 + w.count q := by
        rw [new]
        exact congrArg _ (sum_congr rfl fun r' live => by rw [spaces r' live])
      _ = w.count q := Nat.zero_add _
  refine ⟨rep.nodup, ?_, ?_, ?_, ?_, ?_, ?_, ?_⟩
  · intro q managed
    by_cases same : q = r
    · exact rep.inside q (by rw [same, kernel]; nofun)
    · exact rep.inside q ((setOwner_of_ne same) ▸ managed)
  · intro q
    have refs := rep.pages q
    rw [counts]
    by_cases same : q = r
    · subst same
      rw [show (w.addRoot q).owner q = .table q 2 0 from setOwner_self ..]
      rwa [kernel] at refs
    · rw [show (w.addRoot r).owner q = w.owner q from setOwner_of_ne same]
      exact refs
  · intro r' live
    rcases mem_insert.mp live with rfl | old
    · rw [self]
      exact tableOk_empty zero (setOwner_self ..)
    · rw [spaces r' old]
      refine (rep.tables r' old).frame (fun _ _ _ _ => rfl) fun level n q there => ?_
      refine setOwner_of_ne ?_
      rintro rfl
      rw [(rep.tables r' old).own _ _ _ there] at kernel
      contradiction
  · intro r' live v low pte leaf
    rcases mem_insert.mp live with rfl | old
    · rw [self] at leaf
      contradiction
    · rw [spaces r' old] at leaf
      have user := rep.targets r' old v low pte leaf
      refine (setOwner_of_ne ?_).trans user
      intro same
      rw [same, kernel] at user
      contradiction
  · intro r' live v low v' low' pte pte' leaf leaf'
    rcases mem_insert.mp live with rfl | old
    · rw [self] at leaf
      contradiction
    · rw [spaces r' old] at leaf leaf'
      exact rep.distinct r' old v low v' low' pte pte' leaf leaf'
  · intro r' live v low pte leaf
    rcases mem_insert.mp live with rfl | old
    · rw [self] at leaf
      contradiction
    · rw [spaces r' old] at leaf
      exact rep.writable r' old v low pte leaf
  · intro q r' level n table
    by_cases same : q = r
    · subst same
      rw [show (w.addRoot q).owner q = .table q 2 0 from setOwner_self ..] at table
      injection table with roots levels indices
      subst roots levels indices
      exact ⟨mem_insert_self .., by rw [self]; rfl⟩
    · rw [show (w.addRoot r).owner q = w.owner q from setOwner_of_ne same] at table
      obtain ⟨old, node⟩ := rep.linked q r' level n table
      exact ⟨mem_insert_of_mem old, by rwa [spaces r' old]⟩

/-- `freewalk` gives up the root of a page table that maps nothing. -/
theorem Rep.dropRoot (rep : Rep layout w vm) (live : r ∈ w.live)
    (unmapped : ∀ v < UPAGES, (w.space r).leaf v = none)
    (bare : ∀ level n q, (w.space r).node level n = some q → q = r) :
    Rep layout (w.dropRoot r) vm := by
  have table := rep.root_owner live
  have counts : ∀ q, (w.dropRoot r).count q = w.count q := by
    intro q
    have gone : (w.space r).maps q = 0 := sum_eq_zero fun v low =>
      refsOf_eq_zero fun pte here => by
        rw [unmapped v (mem_range.mp low)] at here
        contradiction
    have erased := add_sum_erase w.live (fun r => (w.space r).maps q) live
    simp only [gone, Nat.zero_add] at erased
    exact erased
  refine ⟨rep.nodup, ?_, ?_, ?_, ?_, ?_, ?_, ?_⟩
  · intro q managed
    by_cases same : q = r
    · exact rep.inside q (by rw [same, table]; nofun)
    · exact rep.inside q ((setOwner_of_ne same) ▸ managed)
  · intro q
    have refs := rep.pages q
    rw [counts]
    by_cases same : q = r
    · subst same
      rw [show (w.dropRoot q).owner q = .kernel from setOwner_self ..]
      rwa [table] at refs
    · rw [show (w.dropRoot r).owner q = w.owner q from setOwner_of_ne same]
      exact refs
  · intro r' live'
    obtain ⟨other, live'⟩ := mem_erase.mp live'
    refine (rep.tables r' live').frame (fun _ _ _ _ => rfl) fun level n q there => ?_
    exact setOwner_of_ne (rep.tables_apart live live' other (rep.tables r live).root there)
  · intro r' live' v low pte leaf
    have user := rep.targets r' (mem_of_mem_erase live') v low pte leaf
    refine (setOwner_of_ne ?_).trans user
    intro same
    rw [same, table] at user
    contradiction
  · exact fun r' live' => rep.distinct r' (mem_of_mem_erase live')
  · exact fun r' live' => rep.writable r' (mem_of_mem_erase live')
  · intro q r' level n table'
    have other : q ≠ r := by
      rintro rfl
      rw [show (w.dropRoot q).owner q = .kernel from setOwner_self ..] at table'
      contradiction
    rw [show (w.dropRoot r).owner q = w.owner q from setOwner_of_ne other] at table'
    obtain ⟨live', node⟩ := rep.linked q r' level n table'
    refine ⟨mem_erase.mpr ⟨?_, live'⟩, node⟩
    rintro rfl
    exact other (bare level n q node)

/-- What a new page table leaves alone. -/
theorem addRoot_frame (dead : r ∉ w.live) : Frame ∅ M {r} w vm (w.addRoot r) vm := by
  have others : ∀ r' ∈ w.live, (w.addRoot r).space r' = w.space r' := fun r' live =>
    setSpace_of_ne fun same => dead (same ▸ live)
  refine ⟨fun r' live _ => mem_insert_of_mem live, fun r' live _ => others r' live, ?_,
    fun q outside _ => ⟨rfl, setOwner_of_ne outside⟩,
    fun q outside _ => (setOwner_of_ne outside).symm⟩
  intro r' live v _ _ pte leaf
  exact ⟨mem_insert_of_mem live, pte, by rw [others r' live, leaf], rfl⟩

/-- What giving up a page table leaves alone. -/
theorem dropRoot_frame (unmapped : ∀ v < UPAGES, (w.space r).leaf v = none) :
    Frame {r} M {r} w vm (w.dropRoot r) vm where
  live r' live other := mem_erase.mpr ⟨other, live⟩
  space _ _ _ := rfl
  maps r' live v low _ pte leaf := by
    have other : r' ≠ r := by
      rintro rfl
      rw [unmapped v low] at leaf
      contradiction
    exact ⟨mem_erase.mpr ⟨other, live⟩, pte, leaf, rfl⟩
  pages q outside _ := ⟨rfl, setOwner_of_ne outside⟩
  settled q outside _ := (setOwner_of_ne outside).symm

end Tables

end Xv6Cos.Verif
