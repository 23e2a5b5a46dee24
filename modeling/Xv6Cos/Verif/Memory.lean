import Xv6Cos.Verif.PageTable
import Xv6Cos.Lib.Sums
import Mathlib.Algebra.Order.BigOperators.Group.Finset

/-!
# Who owns physical memory

`World` says what the kernel's memory means: the live page tables, what each of them maps,
the owner of each page, and the references to user pages that no page table accounts for.
`Rep` says that memory, the free list and the reference counts represent it. The lemmas are
the allocator's updates; `Frame` says what an update of some page tables leaves alone.
-/

namespace Xv6Cos.Verif

open Kernel Function Finset

variable {owner : Owner} {q' n : ℕ} {pte : Pte}

/-- `TRAPFRAME / PGSIZE`: the number of virtual pages below the trapframe. -/
@[irreducible] def UPAGES : ℕ := TRAPFRAME / PGSIZE

/-- What memory is used for. -/
structure World where
  /-- The roots of the page tables in use. -/
  live : Finset ℕ
  space : ℕ → Space
  owner : ℕ → Owner
  /-- References to user pages held by no page table. -/
  extra : ℕ → ℕ

/-- One if the entry maps the page, else zero. -/
def refsOf (entry : Option Pte) (q : ℕ) : ℕ := if entry.map Pte.pn = some q then 1 else 0

/-- The number of user mappings of a page in one page table. -/
def Space.maps (S : Space) (q : ℕ) : ℕ := ∑ v ∈ Finset.range UPAGES, refsOf (S.leaf v) q

namespace World

/-- The number of user mappings of a page in all page tables. -/
def count (w : World) (q : ℕ) : ℕ := ∑ r ∈ w.live, (w.space r).maps q

/-- Hand a page to another owner. -/
def setOwner (w : World) (q : ℕ) (owner : Owner) : World :=
  { w with owner := update w.owner q owner }

/-- Another number of references beside the page tables. -/
def setExtra (w : World) (q n : ℕ) : World := { w with extra := update w.extra q n }

/-- Another meaning of one page table. -/
def setSpace (w : World) (r : ℕ) (S : Space) : World :=
  { w with space := update w.space r S }

variable {w : World} {q r r' : ℕ}

@[simp] theorem setOwner_space (owner : Owner) : (w.setOwner q owner).space = w.space := rfl

@[simp] theorem setExtra_space (n : ℕ) : (w.setExtra q n).space = w.space := rfl

theorem setSpace_self (S : Space) : (w.setSpace r S).space r = S := update_self ..

theorem setSpace_of_ne {S : Space} (other : r' ≠ r) : (w.setSpace r S).space r' = w.space r' :=
  update_of_ne other ..

theorem setOwner_self (owner : Owner) : (w.setOwner q owner).owner q = owner :=
  update_self ..

theorem setOwner_of_ne (other : q' ≠ q) :
    (w.setOwner q owner).owner q' = w.owner q' := update_of_ne other ..

theorem setExtra_self (n : ℕ) : (w.setExtra q n).extra q = n := update_self ..

theorem setExtra_of_ne (other : q' ≠ q) : (w.setExtra q n).extra q' = w.extra q' :=
  update_of_ne other ..

end World

/-- What the free list and the reference count say about a page, by its owner. -/
def PageRefs (owner : Owner) (listed : Prop) (refs count extra : ℕ) : Prop :=
  match owner with
  | .outside => ¬listed ∧ extra = 0
  | .free => listed ∧ refs = 0 ∧ extra = 0
  | .kernel => ¬listed ∧ refs = 1 ∧ extra = 0
  | .user => ¬listed ∧ refs = count + extra ∧ 0 < refs
  | .table .. => ¬listed ∧ refs = 1 ∧ extra = 0

/-- Memory, free list and reference counts represent a world. -/
structure Rep (layout : Layout) (w : World) (vm : Vm) : Prop where
  nodup : vm.freelist.Nodup
  inside : ∀ q, w.owner q ≠ .outside → layout.kend ≤ q ∧ q < PHYSPAGES
  pages : ∀ q, PageRefs (w.owner q) (q ∈ vm.freelist) (vm.refcnt q) (w.count q) (w.extra q)
  tables : ∀ r ∈ w.live, TableOk w.owner vm r (w.space r)
  targets : ∀ r ∈ w.live, ∀ v < UPAGES, ∀ pte, (w.space r).leaf v = some pte →
    w.owner pte.pn = .user
  distinct : ∀ r ∈ w.live, ∀ v < UPAGES, ∀ v' < UPAGES, ∀ pte pte',
    (w.space r).leaf v = some pte → (w.space r).leaf v' = some pte' → pte.pn = pte'.pn → v = v'
  writable : ∀ r ∈ w.live, ∀ v < UPAGES, ∀ pte, (w.space r).leaf v = some pte →
    pte.has PTE_W = true → vm.refcnt pte.pn = 1
  /-- No page of a page table is lost. -/
  linked : ∀ q r level n, w.owner q = .table r level n →
    r ∈ w.live ∧ (w.space r).node level n = some q

section Counting

variable {layout : Layout} {w : World} {vm : Vm} {r v q : ℕ}

theorem refsOf_eq_zero {entry : Option Pte} (other : ∀ pte, entry = some pte → pte.pn ≠ q) :
    refsOf entry q = 0 := by
  unfold refsOf
  rw [if_neg]
  intro same
  obtain ⟨pte, here, rfl⟩ := Option.map_eq_some_iff.mp same
  exact other pte here rfl

theorem refsOf_none (q : ℕ) : refsOf none q = 0 := refsOf_eq_zero nofun

theorem refsOf_some (pte : Pte) : refsOf (some pte) pte.pn = 1 := if_pos rfl

theorem refsOf_of_ne {pte : Pte} (other : q ≠ pte.pn) : refsOf (some pte) q = 0 :=
  refsOf_eq_zero fun _ here same => other (Option.some.inj here ▸ same.symm)

/-- A mapped page is counted. -/
theorem count_pos (live : r ∈ w.live) (low : v < UPAGES)
    (leaf : (w.space r).leaf v = some pte) : 0 < w.count pte.pn := by
  have inner : refsOf ((w.space r).leaf v) pte.pn ≤ (w.space r).maps pte.pn :=
    single_le_sum (f := fun v => refsOf ((w.space r).leaf v) pte.pn)
      (fun _ _ => Nat.zero_le _) (mem_range.mpr low)
  have outer : (w.space r).maps pte.pn ≤ w.count pte.pn :=
    single_le_sum (f := fun r => (w.space r).maps pte.pn) (fun _ _ => Nat.zero_le _) live
  rw [leaf, refsOf_some] at inner
  omega

/-- A page that no page table maps is not counted. -/
theorem count_eq_zero (unmapped : ∀ r ∈ w.live, ∀ v < UPAGES, ∀ pte,
    (w.space r).leaf v = some pte → pte.pn ≠ q) : w.count q = 0 := by
  apply sum_eq_zero
  intro r live
  apply sum_eq_zero
  intro v low
  exact refsOf_eq_zero (unmapped r live v (mem_range.mp low))

theorem Rep.count_of_not_user (rep : Rep layout w vm) (other : w.owner q ≠ .user) :
    w.count q = 0 := by
  apply count_eq_zero
  rintro r live v low pte leaf rfl
  exact other (rep.targets r live v low pte leaf)

/-- Counting depends on the page tables alone. -/
theorem count_congr {w w' : World} (live : w'.live = w.live) (space : w'.space = w.space) (q : ℕ) :
    w'.count q = w.count q := by
  rw [World.count, World.count, live, space]

/-- The count after a change of one page table's entry. -/
theorem count_setLeaf (entry : Option Pte) (live : r ∈ w.live) (low : v < UPAGES) (q : ℕ) :
    (w.setSpace r ((w.space r).setLeaf v entry)).count q + refsOf ((w.space r).leaf v) q =
      w.count q + refsOf entry q := by
  have inner : ((w.space r).setLeaf v entry).maps q + refsOf ((w.space r).leaf v) q =
      (w.space r).maps q + refsOf entry q := by
    have change := Sums.sum_change (f := fun v => refsOf ((w.space r).leaf v) q)
      (g := fun v' => refsOf (((w.space r).setLeaf v entry).leaf v') q)
      (mem_range.mpr low) fun v' _ other => by rw [Space.setLeaf_of_ne other]
    rwa [Space.setLeaf_self] at change
  have outer := Sums.sum_change (f := fun r => (w.space r).maps q)
    (g := fun r' => ((w.setSpace r ((w.space r).setLeaf v entry)).space r').maps q) live
    fun r' _ other => by rw [World.setSpace_of_ne other]
  rw [World.setSpace_self] at outer
  have same : (w.setSpace r ((w.space r).setLeaf v entry)).live = w.live := rfl
  rw [World.count, World.count, same]
  omega

/-- The count after a change of a page table's pages alone. -/
theorem count_setNode {level : ℕ} {page : Option ℕ} (q : ℕ) :
    (w.setSpace r ((w.space r).setNode level n page)).count q = w.count q := by
  apply sum_congr rfl
  intro r' _
  by_cases same : r' = r
  · rw [same, World.setSpace_self]
    rfl
  · rw [World.setSpace_of_ne same]

end Counting

section Frames

/-- A page that an operation on the page tables `R` may change: a free page, a page of those
tables or of none in use, or a user page that only the mappings `M` refer to. -/
def Private (w : World) (R : Set ℕ) (M : Set (ℕ × ℕ)) (q : ℕ) : Prop :=
  w.owner q = .free ∨ (∃ r level n, (r ∈ R ∨ r ∉ w.live) ∧ w.owner q = .table r level n) ∨
    (w.owner q = .user ∧ ∀ r ∈ w.live, ∀ v < UPAGES, ∀ pte, (w.space r).leaf v = some pte →
      pte.pn = q → (r, v) ∈ M)

/-- An owner that keeps a page until it gives it back by itself. -/
def Retained (owner : Owner) : Prop := owner = .kernel ∨ owner = .outside

/-- An operation changes, of the page tables in use, only `R`; it drops only the mappings `M`,
and touches only pages that are private to it or in `K`. It leaves no page with the kernel that
was not the kernel's before, except in `K`. -/
structure Frame (R : Set ℕ) (M : Set (ℕ × ℕ)) (K : Set ℕ) (w : World) (vm : Vm) (w' : World)
    (vm' : Vm) : Prop where
  live : ∀ r ∈ w.live, r ∉ R → r ∈ w'.live
  space : ∀ r ∈ w.live, r ∉ R → w'.space r = w.space r
  maps : ∀ r ∈ w.live, ∀ v < UPAGES, (r, v) ∉ M → ∀ pte, (w.space r).leaf v = some pte →
    r ∈ w'.live ∧ ∃ pte', (w'.space r).leaf v = some pte' ∧ pte'.pn = pte.pn
  pages : ∀ q ∉ K, ¬Private w R M q → vm'.mem q = vm.mem q ∧ w'.owner q = w.owner q
  settled : ∀ q ∉ K, Retained (w'.owner q) → w.owner q = w'.owner q

variable {R R' : Set ℕ} {M M' : Set (ℕ × ℕ)} {K K' : Set ℕ} {w w₁ w₂ : World} {vm vm₁ vm₂ : Vm}
  {q r : ℕ}

/-- Nothing changes. -/
theorem Frame.refl : Frame R M K w vm w vm where
  live _ live _ := live
  space _ _ _ := rfl
  maps _ live _ _ _ pte leaf := ⟨live, pte, leaf, rfl⟩
  pages _ _ _ := ⟨rfl, rfl⟩
  settled _ _ _ := rfl

/-- A page that is not private stays so. -/
theorem Frame.stays_shared (frame : Frame R M K w vm w₁ vm₁) (outside : q ∉ K)
    (fresh : ∀ r ∈ w.live, ∀ v < UPAGES, (w.space r).leaf v ≠ none → (r, v) ∈ M' → (r, v) ∈ M)
    (shared : ¬Private w R M q) : ¬Private w₁ R M' q := by
  have owner := (frame.pages q outside shared).2
  rintro (free | ⟨r, level, n, mine, table⟩ | ⟨user, all⟩)
  · exact shared (.inl (owner.symm.trans free))
  · apply shared
    refine .inr (.inl ⟨r, level, n, ?_, owner.symm.trans table⟩)
    by_contra other
    rw [not_or, not_not] at other
    exact mine.elim other.1 fun dead => dead (frame.live r other.2 other.1)
  · apply shared
    refine .inr (.inr ⟨owner.symm.trans user, fun r live v low pte leaf same => ?_⟩)
    by_contra notMine
    obtain ⟨live', pte', leaf', page⟩ := frame.maps r live v low notMine pte leaf
    exact notMine (fresh r live v low (by rw [leaf]; nofun)
      (all r live' v low pte' leaf' (page.trans same)))

/-- One operation after another; the second may drop mappings that the first one made. -/
theorem Frame.trans_new (first : Frame R M K w vm w₁ vm₁) (second : Frame R M' K w₁ vm₁ w₂ vm₂)
    (fresh : ∀ r ∈ w.live, ∀ v < UPAGES, (w.space r).leaf v ≠ none → (r, v) ∈ M' → (r, v) ∈ M) :
    Frame R M K w vm w₂ vm₂ where
  live r live other := second.live r (first.live r live other) other
  space r live other :=
    (second.space r (first.live r live other) other).trans (first.space r live other)
  maps r live v low other pte leaf := by
    obtain ⟨live₁, pte₁, leaf₁, page₁⟩ := first.maps r live v low other pte leaf
    have other' : (r, v) ∉ M' := fun mem => other (fresh r live v low (by rw [leaf]; nofun) mem)
    obtain ⟨live₂, pte₂, leaf₂, page₂⟩ := second.maps r live₁ v low other' pte₁ leaf₁
    exact ⟨live₂, pte₂, leaf₂, page₂.trans page₁⟩
  pages q outside shared := by
    obtain ⟨mem₁, owner₁⟩ := first.pages q outside shared
    obtain ⟨mem₂, owner₂⟩ := second.pages q outside (first.stays_shared outside fresh shared)
    exact ⟨mem₂.trans mem₁, owner₂.trans owner₁⟩
  settled q outside keeps := by
    have later := second.settled q outside keeps
    exact (first.settled q outside (later ▸ keeps)).trans later

/-- One operation after another. -/
theorem Frame.trans (first : Frame R M K w vm w₁ vm₁) (second : Frame R M K w₁ vm₁ w₂ vm₂) :
    Frame R M K w vm w₂ vm₂ := first.trans_new second fun _ _ _ _ _ mem => mem

theorem Private.mono (subR : R ⊆ R') (subM : M ⊆ M') (mine : Private w R M q) :
    Private w R' M' q := by
  rcases mine with free | ⟨r, level, n, mem, table⟩ | ⟨user, all⟩
  · exact .inl free
  · exact .inr (.inl ⟨r, level, n, mem.imp_left fun mem => subR mem, table⟩)
  · exact .inr (.inr ⟨user, fun r live v low pte leaf same =>
      subM (all r live v low pte leaf same)⟩)

/-- An operation may be allowed to change more. -/
theorem Frame.mono (frame : Frame R M K w vm w₁ vm₁) (subR : R ⊆ R') (subM : M ⊆ M')
    (subK : K ⊆ K') : Frame R' M' K' w vm w₁ vm₁ where
  live r live other := frame.live r live fun mem => other (subR mem)
  space r live other := frame.space r live fun mem => other (subR mem)
  maps r live v low other := frame.maps r live v low fun mem => other (subM mem)
  pages q outside shared :=
    frame.pages q (fun mem => outside (subK mem)) fun mine => shared (mine.mono subR subM)
  settled q outside := frame.settled q fun mem => outside (subK mem)

/-- A page that was private at the start need not be named. -/
theorem Frame.absorb (frame : Frame R M {q} w vm w₁ vm₁) (mine : Private w R M q)
    (given : ¬Retained (w₁.owner q)) : Frame R M ∅ w vm w₁ vm₁ where
  live := frame.live
  space := frame.space
  maps := frame.maps
  pages q' _ shared := by
    apply frame.pages q' ?_ shared
    rintro rfl
    exact shared mine
  settled q' _ keeps := by
    apply frame.settled q' ?_ keeps
    rintro rfl
    exact given keeps

/-- A page table that was not in use at the start need not be named. -/
theorem Frame.absorb_root (frame : Frame (insert r R) M K w vm w₁ vm₁) (dead : r ∉ w.live) :
    Frame R M K w vm w₁ vm₁ := by
  have others : ∀ r' ∈ w.live, r' ∉ R → r' ∉ insert r R := by
    rintro r' live other (rfl | mem)
    · exact dead live
    · exact other mem
  refine ⟨fun r' live other => frame.live r' live (others r' live other),
    fun r' live other => frame.space r' live (others r' live other), frame.maps, ?_,
    frame.settled⟩
  intro q outside shared
  apply frame.pages q outside
  rintro (free | ⟨r', level, n, mem, table⟩ | user)
  · exact shared (.inl free)
  · refine shared (.inr (.inl ⟨r', level, n, ?_, table⟩))
    rcases mem with (rfl | mem) | dead'
    · exact .inr dead
    · exact .inl mem
    · exact .inr dead'
  · exact shared (.inr (.inr user))

/-- The same for the only page table of an operation. -/
theorem Frame.absorb_only_root (frame : Frame {r} M K w vm w₁ vm₁) (dead : r ∉ w.live) :
    Frame ∅ M K w vm w₁ vm₁ := by
  rw [← LawfulSingleton.insert_empty_eq r] at frame
  exact frame.absorb_root dead

/-- A mapped page outside the operation's mappings keeps its contents and its owner. -/
theorem Frame.mapped_page (frame : Frame R M K w vm w₁ vm₁) {v : ℕ}
    (live : r ∈ w.live) (low : v < UPAGES) (leaf : (w.space r).leaf v = some pte)
    (user : w.owner pte.pn = .user) (notMine : (r, v) ∉ M) (outside : pte.pn ∉ K) :
    vm₁.mem pte.pn = vm.mem pte.pn ∧ w₁.owner pte.pn = w.owner pte.pn := by
  apply frame.pages pte.pn outside
  rintro (free | ⟨r', level, n, -, table⟩ | ⟨-, all⟩)
  · rw [user] at free
    contradiction
  · rw [user] at table
    contradiction
  · exact notMine (all r live v low pte leaf rfl)

/-- The kernel's own pages are not private to an operation. -/
theorem not_private_kernel (kernel : w.owner q = .kernel) : ¬Private w R M q := by
  rintro (free | ⟨r, level, n, -, table⟩ | ⟨user, -⟩)
  · rw [kernel] at free
    contradiction
  · rw [kernel] at table
    contradiction
  · rw [kernel] at user
    contradiction

/-- An operation that keeps the page tables. -/
theorem Frame.of_same_space (live : w₁.live = w.live) (space : w₁.space = w.space)
    (pages : ∀ q ∉ K, ¬Private w R M q → vm₁.mem q = vm.mem q ∧ w₁.owner q = w.owner q)
    (settled : ∀ q ∉ K, Retained (w₁.owner q) → w.owner q = w₁.owner q) :
    Frame R M K w vm w₁ vm₁ where
  live r live' _ := by rwa [live]
  space r _ _ := by rw [space]
  maps r live' v _ _ pte leaf := ⟨by rwa [live], pte, by rwa [space], rfl⟩
  pages := pages
  settled := settled

end Frames

section Allocator

variable {layout : Layout} {w : World} {vm vm' : Vm} {q : ℕ}

/-- Page tables survive what leaves table pages alone. -/
theorem Rep.tables_frame (rep : Rep layout w vm) {owner' : ℕ → Owner}
    (keep : ∀ q r level n, w.owner q = .table r level n →
      vm'.mem q = vm.mem q ∧ owner' q = w.owner q) :
    ∀ r ∈ w.live, TableOk owner' vm' r (w.space r) := by
  intro r live
  have ok := rep.tables r live
  exact ok.frame (fun level n q here => (keep q r level n (ok.own _ _ _ here)).1)
    fun level n q here => (keep q r level n (ok.own _ _ _ here)).2

/-- A page on the free list is free. -/
theorem Rep.owner_of_mem (rep : Rep layout w vm) (mem : q ∈ vm.freelist) : w.owner q = .free := by
  have refs := rep.pages q
  cases owner : w.owner q <;> simp only [owner, PageRefs] at refs <;> first | rfl | simp_all

/-- A page that goes to an owner other than a page table breaks no link. -/
theorem Rep.linked_setOwner (rep : Rep layout w vm)
    (notTable : ∀ r level n, owner ≠ .table r level n) :
    ∀ q' r level n, (w.setOwner q owner).owner q' = .table r level n →
      r ∈ w.live ∧ (w.space r).node level n = some q' := by
  intro q' r level n table
  by_cases same : q' = q
  · rw [same, World.setOwner_self] at table
    exact absurd table (notTable r level n)
  · rw [World.setOwner_of_ne same] at table
    exact rep.linked q' r level n table

/-- A page that goes to an owner that may give it away settles nothing. -/
theorem settled_setOwner (given : ¬Retained owner) (q' : ℕ)
    (keeps : Retained ((w.setOwner q owner).owner q')) :
    w.owner q' = (w.setOwner q owner).owner q' := by
  by_cases same : q' = q
  · rw [same, World.setOwner_self] at keeps
    exact absurd keeps given
  · exact (World.setOwner_of_ne same).symm

theorem not_retained_free : ¬Retained .free := by rintro (h | h) <;> contradiction

theorem not_retained_user : ¬Retained .user := by rintro (h | h) <;> contradiction

theorem not_retained_table (r level n : ℕ) : ¬Retained (.table r level n) := by
  rintro (h | h) <;> contradiction

/-- `kalloc` takes a page off the free list. -/
theorem Rep.alloc (rep : Rep layout w vm) {rest : List ℕ} (list : vm.freelist = q :: rest) :
    Rep layout (w.setOwner q .kernel)
      { mem := update vm.mem q (fun _ => 5)
        freelist := rest
        refcnt := update vm.refcnt q 1 } := by
  have free : w.owner q = .free := rep.owner_of_mem (by simp [list])
  have nodup : (q :: rest).Nodup := list ▸ rep.nodup
  have unlisted : q ∉ rest := (List.nodup_cons.mp nodup).1
  have notUser : ∀ r ∈ w.live, ∀ v < UPAGES, ∀ pte, (w.space r).leaf v = some pte →
      pte.pn ≠ q := by
    rintro r live v low pte leaf rfl
    rw [rep.targets r live v low pte leaf] at free
    contradiction
  refine ⟨(List.nodup_cons.mp nodup).2, ?_, ?_, ?_, ?_, rep.distinct, ?_, rep.linked_setOwner nofun⟩
  · intro q' managed
    by_cases same : q' = q
    · rw [same]
      exact rep.inside q (by rw [free]; nofun)
    · simp only [World.setOwner, update_of_ne same] at managed
      exact rep.inside q' managed
  · intro q'
    have refs := rep.pages q'
    rw [show (w.setOwner q .kernel).count q' = w.count q' from count_congr rfl rfl q']
    by_cases same : q' = q
    · subst same
      simp only [free, PageRefs] at refs
      simpa [World.setOwner, PageRefs] using ⟨unlisted, refs.2.2⟩
    · simp only [list, List.mem_cons, same, false_or] at refs
      simpa only [World.setOwner, update_of_ne same] using refs
  · apply rep.tables_frame
    intro q' r level n table
    have other : q' ≠ q := by
      rintro rfl
      rw [free] at table
      contradiction
    exact ⟨update_of_ne other .., update_of_ne other ..⟩
  · intro r live v low pte leaf
    simp only [World.setOwner, update_of_ne (notUser r live v low pte leaf)]
    exact rep.targets r live v low pte leaf
  · intro r live v low pte leaf writes
    simp only [update_of_ne (notUser r live v low pte leaf)]
    exact rep.writable r live v low pte leaf writes

/-- A page of no page table may be overwritten. -/
theorem Rep.setPage (rep : Rep layout w vm) (page : Page)
    (notTable : ∀ r level n, w.owner q ≠ .table r level n) : Rep layout w (vm.setPage q page) := by
  refine ⟨rep.nodup, rep.inside, rep.pages, ?_, rep.targets, rep.distinct, rep.writable, rep.linked⟩
  apply rep.tables_frame
  intro q' r level n table
  refine ⟨update_of_ne ?_ .., rfl⟩
  rintro rfl
  exact notTable _ _ _ table

/-- The last reference to a page is dropped. -/
theorem drop_last (last : vm.refcnt q = 1) : vm.drop q =
    { mem := update vm.mem q (fun _ => 1)
      freelist := q :: vm.freelist
      refcnt := update vm.refcnt q 0 } := by
  simp [Vm.drop, last]

/-- One of several references to a page is dropped. -/
theorem drop_more (more : 1 < vm.refcnt q) : vm.drop q =
    { vm with refcnt := update vm.refcnt q (vm.refcnt q - 1) } := by
  simp [Vm.drop, more]

/-- A page with one reference that no page table maps is freed. -/
theorem Rep.free (rep : Rep layout w vm) (managed : w.owner q ≠ .outside)
    (notTable : ∀ r level n, w.owner q ≠ .table r level n) (last : vm.refcnt q = 1)
    (unmapped : ∀ r ∈ w.live, ∀ v < UPAGES, ∀ pte, (w.space r).leaf v = some pte → pte.pn ≠ q) :
    Rep layout ((w.setOwner q .free).setExtra q 0) (vm.drop q) := by
  rw [drop_last last]
  have unlisted : q ∉ vm.freelist := by
    intro mem
    have refs := rep.pages q
    rw [rep.owner_of_mem mem] at refs
    simp only [PageRefs] at refs
    omega
  refine ⟨List.nodup_cons.mpr ⟨unlisted, rep.nodup⟩, ?_, ?_, ?_, ?_, rep.distinct, ?_,
    rep.linked_setOwner nofun⟩
  · intro q' inside
    by_cases same : q' = q
    · rw [same]
      exact rep.inside q managed
    · simp only [World.setExtra, World.setOwner, update_of_ne same] at inside
      exact rep.inside q' inside
  · intro q'
    have refs := rep.pages q'
    rw [show ((w.setOwner q .free).setExtra q 0).count q' = w.count q' from count_congr rfl rfl q']
    by_cases same : q' = q
    · subst same
      simp [World.setExtra, World.setOwner, PageRefs]
    · simpa only [World.setExtra, World.setOwner, update_of_ne same, List.mem_cons, same,
        false_or] using refs
  · apply rep.tables_frame
    intro q' r level n table
    have other : q' ≠ q := by
      rintro rfl
      exact notTable _ _ _ table
    exact ⟨update_of_ne other .., update_of_ne other ..⟩
  · intro r live v low pte leaf
    simp only [World.setExtra, World.setOwner, update_of_ne (unmapped r live v low pte leaf)]
    exact rep.targets r live v low pte leaf
  · intro r live v low pte leaf writes
    simp only [update_of_ne (unmapped r live v low pte leaf)]
    exact rep.writable r live v low pte leaf writes

/-- The number of references beside the page tables and the reference count change together. -/
theorem Rep.setRefs (rep : Rep layout w vm) {extra : ℕ} (user : w.owner q = .user)
    (positive : 0 < w.count q + extra)
    (readonly : ∀ r ∈ w.live, ∀ v < UPAGES, ∀ pte, (w.space r).leaf v = some pte →
      pte.pn = q → pte.has PTE_W = false) :
    Rep layout (w.setExtra q extra)
      { vm with refcnt := update vm.refcnt q (w.count q + extra) } := by
  refine ⟨rep.nodup, rep.inside, ?_, ?_, rep.targets, rep.distinct, ?_, rep.linked⟩
  · intro q'
    have refs := rep.pages q'
    rw [show (w.setExtra q extra).count q' = w.count q' from count_congr rfl rfl q']
    by_cases same : q' = q
    · subst same
      simp only [user, PageRefs] at refs
      rw [World.setExtra_self, show (w.setExtra q' extra).owner q' = .user from user]
      simpa only [PageRefs, update_self, true_and] using ⟨refs.1, positive⟩
    · simpa only [World.setExtra, update_of_ne same] using refs
  · exact rep.tables_frame fun _ _ _ _ _ => ⟨rfl, rfl⟩
  · intro r live v low pte leaf writes
    have other : pte.pn ≠ q := by
      intro same
      rw [readonly r live v low pte leaf same] at writes
      contradiction
    simp only [update_of_ne other]
    exact rep.writable r live v low pte leaf writes

/-- Give up a reference that no page table holds; the last one frees the page. -/
def World.release (w : World) (q : ℕ) : World :=
  (if w.count q + w.extra q = 1 then w.setOwner q .free else w).setExtra q (w.extra q - 1)

theorem release_live : (w.release q).live = w.live := by
  unfold World.release
  split <;> rfl

theorem release_space : (w.release q).space = w.space := by
  unfold World.release
  split <;> rfl

theorem release_extra : (w.release q).extra = update w.extra q (w.extra q - 1) := by
  unfold World.release
  split <;> rfl

section

variable (rep : Rep layout w vm) (user : w.owner q = .user) (spare : 0 < w.extra q)

include rep user spare

/-- `kfree` drops a reference that no page table holds. -/
theorem Rep.release :
    Rep layout (w.release q) (vm.drop q) := by
  have refs := rep.pages q
  simp only [user, PageRefs] at refs
  unfold World.release
  by_cases last : w.count q + w.extra q = 1
  · have none : w.extra q - 1 = 0 := by omega
    rw [if_pos last, none]
    refine rep.free (by rw [user]; nofun) (fun _ _ _ => by rw [user]; nofun) (by omega) ?_
    rintro r live v low pte leaf rfl
    have counted := count_pos live low leaf
    omega
  · rw [if_neg last, drop_more (by omega),
      show vm.refcnt q - 1 = w.count q + (w.extra q - 1) by omega]
    refine rep.setRefs user (by omega) ?_
    rintro r live v low pte leaf rfl
    by_contra writes
    have sole := rep.writable r live v low pte leaf (by simpa using writes)
    omega

/-- What dropping such a reference leaves alone. -/
theorem Rep.release_frame {R : Set ℕ} {M : Set (ℕ × ℕ)} {K : Set ℕ} :
    Frame R M K w vm (w.release q) (vm.drop q) := by
  have refs := rep.pages q
  simp only [user, PageRefs] at refs
  refine .of_same_space release_live release_space (fun q' _ shared => ?_) fun q' _ keeps => ?_
  · unfold World.release
    by_cases last : w.count q + w.extra q = 1
    · have other : q' ≠ q := by
        rintro rfl
        refine shared (.inr (.inr ⟨user, fun r live v low pte leaf same => ?_⟩))
        subst same
        have counted := count_pos live low leaf
        omega
      rw [if_pos last, drop_last (by omega)]
      exact ⟨update_of_ne other .., World.setOwner_of_ne other⟩
    · rw [if_neg last, drop_more (by omega)]
      exact ⟨rfl, rfl⟩
  · unfold World.release at keeps ⊢
    by_cases last : w.count q + w.extra q = 1
    · rw [if_pos last] at keeps ⊢
      exact settled_setOwner not_retained_free q' keeps
    · rw [if_neg last]
      rfl

end

theorem Rep.freeKernel (rep : Rep layout w vm) (kernel : w.owner q = .kernel) :
    Rep layout (w.setOwner q .free) (vm.drop q) := by
  have refs := rep.pages q
  simp only [kernel, PageRefs] at refs
  have freed := rep.free (by rw [kernel]; nofun) (fun _ _ _ => by rw [kernel]; nofun) refs.2.1
    (by
      rintro r live v low pte leaf rfl
      rw [rep.targets r live v low pte leaf] at kernel
      contradiction)
  have same : (w.setOwner q .free).setExtra q 0 = w.setOwner q .free := by
    have extra : update w.extra q 0 = w.extra := by rw [← refs.2.2, update_eq_self]
    simp only [World.setExtra, World.setOwner, extra]
  rwa [same] at freed

/-- Only its own page changes when a page is dropped. -/
theorem drop_mem_of_ne (other : q' ≠ q) : (vm.drop q).mem q' = vm.mem q' := by
  unfold Vm.drop
  simp only
  split
  · rfl
  · exact update_of_ne other ..

/-- What freeing a page leaves alone. -/
theorem drop_frame {R : Set ℕ} {M : Set (ℕ × ℕ)} :
    Frame R M {q} w vm (w.setOwner q .free) (vm.drop q) :=
  .of_same_space rfl rfl
    (fun _ outside _ => ⟨drop_mem_of_ne outside, World.setOwner_of_ne outside⟩)
    fun q' _ keeps => settled_setOwner not_retained_free q' keeps

end Allocator

end Xv6Cos.Verif
