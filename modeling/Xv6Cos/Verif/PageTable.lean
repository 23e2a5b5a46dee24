import Xv6Cos.Kernel.Vm

/-!
# Page tables in memory

`Space` is what a page table says: which page-table page stands at each level and index, and
which entry each virtual page has. `TableOk` says that memory holds it. The lemmas are the
three ways the kernel writes an entry: a leaf, a link to a new page-table page, and the
removal of a link.
-/

namespace Xv6Cos.Verif

open Kernel Function Option Bytes

variable {v level' n' a : ℕ} {entry : Option Pte}

section Entries

variable {vm vm' : Vm} {q q' k k' : ℕ} {pte : Pte}

/-- An entry survives its encoding. -/
theorem ofWord_word (pte : Pte) : Pte.ofWord pte.word = pte := by
  obtain ⟨pn, flags⟩ := pte
  have bound : flags.toNat < 1024 := flags.isLt
  have page : (pn * 1024 + flags.toNat) / 1024 = pn := by omega
  have bits : BitVec.ofNat 10 (pn * 1024 + flags.toNat) = flags := by
    apply BitVec.eq_of_toNat_eq
    rw [BitVec.toNat_ofNat]
    omega
  simp only [Pte.ofWord, Pte.word, page, bits]

/-- A stored entry is read back. -/
theorem pte_setPte_self (fits : pte.pn < PHYSPAGES) : (vm.setPte q k pte).pte q k = pte := by
  have small : pte.word < 256 ^ 8 := by
    have bound : pte.flags.toNat < 1024 := pte.flags.isLt
    simp only [Pte.word, PHYSPAGES, PGSIZE] at fits ⊢
    omega
  simp only [Vm.pte, Vm.setPte, Vm.setPage, update_self, readLE_writeLE small, ofWord_word]

/-- Entries depend on their page alone. -/
theorem pte_congr (same : vm'.mem q = vm.mem q) (k : ℕ) : vm'.pte q k = vm.pte q k := by
  rw [Vm.pte, Vm.pte, same]

/-- Storing an entry leaves the other pages alone. -/
theorem setPte_mem_of_ne (apart : q' ≠ q) : (vm.setPte q k pte).mem q' = vm.mem q' :=
  update_of_ne apart ..

/-- Storing an entry leaves the other entries alone. -/
theorem pte_setPte_of_ne (apart : q' ≠ q ∨ k' ≠ k) :
    (vm.setPte q k pte).pte q' k' = vm.pte q' k' := by
  by_cases same : q' = q
  · subst same
    have other : k' ≠ k := apart.resolve_left fun ne => ne rfl
    simp only [Vm.pte, Vm.setPte, Vm.setPage, update_self]
    rw [readLE_writeLE_of_disjoint (by omega)]
  · exact pte_congr (setPte_mem_of_ne same) k'

/-- The words of a page of zeros. -/
theorem readLE_zero (a len : ℕ) : readLE (fun _ => 0) a len = 0 := by
  induction len generalizing a with
  | zero => rfl
  | succ len ih => simp [readLE, ih]

/-- The entries of a page of zeros. -/
theorem pte_of_zero (zero : vm.mem q = fun _ => 0) (k : ℕ) : vm.pte q k = ⟨0, 0⟩ := by
  rw [Vm.pte, zero, readLE_zero]
  rfl

end Entries

/-- What a page table says: the page-table pages by level and index, and the entry of each
virtual page. The page at level `l` and index `n` covers the indices `512 * n + k` below. -/
structure Space where
  node : ℕ → ℕ → Option ℕ
  leaf : ℕ → Option Pte

/-- To whom a physical page belongs. -/
inductive Owner
  /-- Not managed by the allocator. -/
  | outside
  | free
  | kernel
  /-- User memory. -/
  | user
  /-- A page of the page table with this root. -/
  | table (root level index : ℕ)
  deriving DecidableEq

/-- The entry that links to a page-table page. -/
def linkEntry : Option ℕ → Pte
  | none => ⟨0, 0⟩
  | some q => ⟨q, PTE_V⟩

theorem linkEntry_some_valid (q : ℕ) : (linkEntry (some q)).has PTE_V = true := by
  show (PTE_V &&& PTE_V != 0) = true
  decide

/-- The entry of a virtual page. -/
def leafEntry : Option Pte → Pte
  | none => ⟨0, 0⟩
  | some pte => pte

namespace Space

/-- Entry `k` of the page at this level and index. -/
def slot (S : Space) : ℕ → ℕ → ℕ → Pte
  | 0, n, k => leafEntry (S.leaf (512 * n + k))
  | level + 1, n, k => linkEntry (S.node level (512 * n + k))

/-- Another entry for one virtual page. -/
def setLeaf (S : Space) (v : ℕ) (entry : Option Pte) : Space :=
  { S with leaf := update S.leaf v entry }

/-- Another page-table page at one place. -/
def setNode (S : Space) (level n : ℕ) (page : Option ℕ) : Space :=
  { S with node := update S.node level (update (S.node level) n page) }

variable {S : Space} {level n : ℕ} {page : Option ℕ}

@[simp] theorem setNode_leaf : (S.setNode level n page).leaf = S.leaf := rfl

theorem setLeaf_self (v : ℕ) (entry : Option Pte) : (S.setLeaf v entry).leaf v = entry :=
  update_self ..

theorem setLeaf_of_ne {v' : ℕ} (apart : v' ≠ v) :
    (S.setLeaf v entry).leaf v' = S.leaf v' := update_of_ne apart ..

theorem setNode_self : (S.setNode level n page).node level n = page := by
  simp [setNode]

theorem setNode_of_ne (apart : level' ≠ level ∨ n' ≠ n) :
    (S.setNode level n page).node level' n' = S.node level' n' := by
  unfold setNode
  by_cases same : level' = level
  · subst same
    have other : n' ≠ n := apart.resolve_left fun ne => ne rfl
    simp [other]
  · simp [same]

end Space

/-- Flags of a leaf: valid and readable. -/
def LeafFlags (flags : BitVec 10) : Prop := flags &&& PTE_V ≠ 0 ∧ flags &&& PTE_R ≠ 0

instance (flags : BitVec 10) : Decidable (LeafFlags flags) :=
  inferInstanceAs (Decidable (_ ∧ _))

/-- Memory holds the page table with this root. -/
structure TableOk (owner : ℕ → Owner) (vm : Vm) (r : ℕ) (S : Space) : Prop where
  root : S.node 2 0 = some r
  top : ∀ level n q, S.node level n = some q → level < 2 ∨ level = 2 ∧ n = 0
  own : ∀ level n q, S.node level n = some q → owner q = .table r level n
  slots : ∀ level n q, S.node level n = some q → ∀ k < 512, vm.pte q k = S.slot level n k
  up : ∀ level n q, S.node level n = some q → level < 2 →
    ∃ above, S.node (level + 1) (n / 512) = some above
  leafUp : ∀ v pte, S.leaf v = some pte → ∃ q, S.node 0 (v / 512) = some q
  leafOk : ∀ v pte, S.leaf v = some pte → pte.pn < PHYSPAGES ∧ LeafFlags pte.flags

section Updates

variable {owner owner' : ℕ → Owner} {vm vm' : Vm} {r : ℕ} {S : Space}

/-- A page table depends on its own pages alone. -/
theorem TableOk.frame (ok : TableOk owner vm r S)
    (mem : ∀ level n q, S.node level n = some q → vm'.mem q = vm.mem q)
    (own : ∀ level n q, S.node level n = some q → owner' q = owner q) :
    TableOk owner' vm' r S where
  root := ok.root
  top := ok.top
  own level n q here := (own level n q here).trans (ok.own level n q here)
  slots level n q here k bound :=
    (pte_congr (mem level n q here) k).trans (ok.slots level n q here k bound)
  up := ok.up
  leafUp := ok.leafUp
  leafOk := ok.leafOk

/-- Each page stands at one place of the table. -/
theorem TableOk.place (ok : TableOk owner vm r S) {level n q : ℕ}
    (here : S.node level n = some q) (there : S.node level' n' = some q) :
    level = level' ∧ n = n' := by
  have same := (ok.own _ _ _ here).symm.trans (ok.own _ _ _ there)
  injection same with _ levels indices
  exact ⟨levels, indices⟩

/-- The three indices of a virtual page. -/
theorem div_mod_512 (v : ℕ) : 512 * (v / 512) + v % 512 = v := Nat.div_add_mod v 512

/-- A missing page-table page has nothing below it. -/
theorem TableOk.below_none (ok : TableOk owner vm r S) {level n : ℕ}
    (absent : S.node level n = none) (low : level < 2) (k : ℕ) (bound : k < 512) :
    S.slot level n k = ⟨0, 0⟩ := by
  have parent : (512 * n + k) / 512 = n := by omega
  cases level with
  | zero =>
    have nothing : S.leaf (512 * n + k) = none := by
      by_contra some
      obtain ⟨pte, here⟩ := ne_none_iff_exists'.mp some
      obtain ⟨q, above⟩ := ok.leafUp _ _ here
      rw [parent, absent] at above
      contradiction
    rw [Space.slot, nothing]
    rfl
  | succ level =>
    have nothing : S.node level (512 * n + k) = none := by
      by_contra some
      obtain ⟨q, here⟩ := ne_none_iff_exists'.mp some
      obtain ⟨above, parents⟩ := ok.up _ _ _ here (by omega)
      rw [parent, absent] at parents
      contradiction
    rw [Space.slot, nothing]
    rfl

/-- The kernel writes the entry of a virtual page. -/
theorem TableOk.setLeaf (ok : TableOk owner vm r S) (here : S.node 0 (v / 512) = some a)
    (good : ∀ pte, entry = some pte → pte.pn < PHYSPAGES ∧ LeafFlags pte.flags) :
    TableOk owner (vm.setPte a (v % 512) (leafEntry entry)) r (S.setLeaf v entry) where
  root := ok.root
  top := ok.top
  own := ok.own
  slots level n q there k bound := by
    have fits : (leafEntry entry).pn < PHYSPAGES := by
      cases entry with
      | none => decide
      | some pte => exact (good pte rfl).1
    by_cases target : q = a ∧ k = v % 512
    · obtain ⟨rfl, rfl⟩ := target
      obtain ⟨rfl, rfl⟩ := ok.place there here
      rw [pte_setPte_self fits, Space.slot, div_mod_512, Space.setLeaf_self]
    · rw [pte_setPte_of_ne (not_and_or.mp target), ok.slots level n q there k bound]
      cases level with
      | succ level => rfl
      | zero =>
        have other : 512 * n + k ≠ v := by
          rintro rfl
          apply target
          have parent : (512 * n + k) / 512 = n := by omega
          rw [parent] at here
          exact ⟨some.inj (there.symm.trans here), by omega⟩
        rw [Space.slot, Space.slot, Space.setLeaf_of_ne other]
  up := ok.up
  leafUp w pte leaf := by
    by_cases same : w = v
    · rw [same]
      exact ⟨a, here⟩
    · rw [Space.setLeaf_of_ne same] at leaf
      exact ok.leafUp w pte leaf
  leafOk w pte leaf := by
    by_cases same : w = v
    · subst same
      rw [Space.setLeaf_self] at leaf
      exact good pte leaf
    · rw [Space.setLeaf_of_ne same] at leaf
      exact ok.leafOk w pte leaf

/-- The slots of a table after a change of one link. -/
theorem slot_setNode {level n : ℕ} {page : Option ℕ} (level' n' k : ℕ) (bound : k < 512) :
    (S.setNode level n page).slot level' n' k =
      if level' = level + 1 ∧ n' = n / 512 ∧ k = n % 512 then linkEntry page
      else S.slot level' n' k := by
  split
  · rename_i here
    obtain ⟨rfl, rfl, rfl⟩ := here
    rw [Space.slot, div_mod_512, Space.setNode_self]
  · rename_i there
    cases level' with
    | zero => rfl
    | succ level' =>
      rw [Space.slot, Space.slot, Space.setNode_of_ne]
      by_contra same
      simp only [not_or, not_not] at same
      obtain ⟨rfl, rfl⟩ := same
      exact there ⟨rfl, by omega, by omega⟩

/-- `walk` links a new page of zeros. -/
theorem TableOk.link (ok : TableOk owner vm r S) {level n q : ℕ}
    (absent : S.node level n = none) (low : level < 2)
    (parent : S.node (level + 1) (n / 512) = some a) (zero : vm.mem q = fun _ => 0)
    (fresh : owner q = .kernel) (fits : q < PHYSPAGES) :
    TableOk (update owner q (.table r level n)) (vm.setPte a (n % 512) ⟨q, PTE_V⟩) r
      (S.setNode level n (some q)) := by
  have nodes : ∀ level' n' q', S.node level' n' = some q' → q' ≠ q := by
    rintro level' n' q' there rfl
    have owned := ok.own _ _ _ there
    rw [fresh] at owned
    contradiction
  have elsewhere : ∀ level' n' q', S.node level' n' = some q' → level' ≠ level ∨ n' ≠ n := by
    intro level' n' q' there
    by_contra same
    simp only [not_or, not_not] at same
    obtain ⟨rfl, rfl⟩ := same
    rw [absent] at there
    contradiction
  have cases : ∀ level' n' q', (S.setNode level n (some q)).node level' n' = some q' →
      (level' = level ∧ n' = n ∧ q' = q) ∨ S.node level' n' = some q' := by
    intro level' n' q' there
    by_cases same : level' = level ∧ n' = n
    · obtain ⟨rfl, rfl⟩ := same
      rw [Space.setNode_self] at there
      exact .inl ⟨rfl, rfl, (some.inj there).symm⟩
    · rw [Space.setNode_of_ne (not_and_or.mp same)] at there
      exact .inr there
  have keep : ∀ level' n' q', S.node level' n' = some q' →
      (S.setNode level n (some q)).node level' n' = some q' := fun level' n' q' there => by
    rw [Space.setNode_of_ne (elsewhere _ _ _ there), there]
  refine ⟨keep _ _ _ ok.root, ?_, ?_, ?_, ?_, ?_, ok.leafOk⟩
  · intro level' n' q' there
    rcases cases _ _ _ there with ⟨rfl, rfl, rfl⟩ | old
    · exact .inl low
    · exact ok.top _ _ _ old
  · intro level' n' q' there
    rcases cases _ _ _ there with ⟨rfl, rfl, rfl⟩ | old
    · exact update_self ..
    · rw [update_of_ne (nodes _ _ _ old)]
      exact ok.own _ _ _ old
  · intro level' n' q' there k bound
    rw [slot_setNode level' n' k bound]
    rcases cases _ _ _ there with ⟨rfl, rfl, rfl⟩ | old
    · have apart : q' ≠ a := (nodes _ _ _ parent).symm
      rw [pte_setPte_of_ne (.inl apart), pte_of_zero zero, if_neg (by omega),
        ok.below_none absent low k bound]
    · by_cases target : q' = a ∧ k = n % 512
      · obtain ⟨rfl, rfl⟩ := target
        obtain ⟨rfl, rfl⟩ := ok.place old parent
        rw [pte_setPte_self fits, if_pos ⟨rfl, rfl, rfl⟩]
        rfl
      · rw [pte_setPte_of_ne (not_and_or.mp target), ok.slots _ _ _ old k bound, if_neg]
        rintro ⟨rfl, rfl, rfl⟩
        exact target ⟨some.inj (old.symm.trans parent), rfl⟩
  · intro level' n' q' there notTop
    rcases cases _ _ _ there with ⟨rfl, rfl, rfl⟩ | old
    · exact ⟨a, keep _ _ _ parent⟩
    · obtain ⟨above, parents⟩ := ok.up _ _ _ old notTop
      exact ⟨above, keep _ _ _ parents⟩
  · intro v pte leaf
    obtain ⟨above, parents⟩ := ok.leafUp v pte leaf
    exact ⟨above, keep _ _ _ parents⟩

/-- `freewalk` unlinks a page-table page with nothing below it. -/
theorem TableOk.unlink (ok : TableOk owner vm r S) {level n q : ℕ}
    (here : S.node level n = some q) (low : level < 2)
    (parent : S.node (level + 1) (n / 512) = some a)
    (empty : ∀ k < 512, S.slot level n k = ⟨0, 0⟩) :
    TableOk (update owner q .kernel) (vm.setPte a (n % 512) ⟨0, 0⟩) r
      (S.setNode level n none) := by
  have cases : ∀ level' n' q', (S.setNode level n none).node level' n' = some q' →
      (level' ≠ level ∨ n' ≠ n) ∧ S.node level' n' = some q' := by
    intro level' n' q' there
    by_cases same : level' = level ∧ n' = n
    · obtain ⟨rfl, rfl⟩ := same
      rw [Space.setNode_self] at there
      contradiction
    · rw [Space.setNode_of_ne (not_and_or.mp same)] at there
      exact ⟨not_and_or.mp same, there⟩
  have notHere : ∀ level' n' q', (level' ≠ level ∨ n' ≠ n) → S.node level' n' = some q' →
      q' ≠ q := by
    rintro level' n' q' apart there rfl
    obtain ⟨rfl, rfl⟩ := ok.place there here
    simp at apart
  -- nothing stands below the unlinked page
  have belowNode : ∀ level' n' q', S.node level' n' = some q' → level' + 1 = level →
      n' / 512 ≠ n := by
    rintro level' n' q' there rfl rfl
    have zero := empty (n' % 512) (by omega)
    rw [Space.slot, div_mod_512, there] at zero
    exact absurd (congrArg Pte.flags zero) (show PTE_V ≠ 0 by decide)
  have belowLeaf : ∀ v pte, S.leaf v = some pte → level = 0 → v / 512 ≠ n := by
    rintro v pte leaf rfl rfl
    have zero := empty (v % 512) (by omega)
    rw [Space.slot, div_mod_512, leaf] at zero
    have flags := (ok.leafOk v pte leaf).2
    simp only [leafEntry] at zero
    rw [zero] at flags
    exact absurd flags (by decide)
  refine ⟨?_, ?_, ?_, ?_, ?_, ?_, ok.leafOk⟩
  · rw [Space.setNode_of_ne (.inl (by omega))]
    exact ok.root
  · exact fun level' n' q' there => ok.top _ _ _ (cases _ _ _ there).2
  · intro level' n' q' there
    obtain ⟨apart, old⟩ := cases _ _ _ there
    rw [update_of_ne (notHere _ _ _ apart old)]
    exact ok.own _ _ _ old
  · intro level' n' q' there k bound
    obtain ⟨-, old⟩ := cases _ _ _ there
    rw [slot_setNode level' n' k bound]
    by_cases target : q' = a ∧ k = n % 512
    · obtain ⟨rfl, rfl⟩ := target
      obtain ⟨rfl, rfl⟩ := ok.place old parent
      rw [pte_setPte_self (by decide), if_pos ⟨rfl, rfl, rfl⟩]
      rfl
    · rw [pte_setPte_of_ne (not_and_or.mp target), ok.slots _ _ _ old k bound, if_neg]
      rintro ⟨rfl, rfl, rfl⟩
      exact target ⟨some.inj (old.symm.trans parent), rfl⟩
  · intro level' n' q' there notTop
    obtain ⟨-, old⟩ := cases _ _ _ there
    obtain ⟨above, parents⟩ := ok.up _ _ _ old notTop
    refine ⟨above, ?_⟩
    rw [Space.setNode_of_ne, parents]
    by_contra same
    simp only [not_or, not_not] at same
    exact belowNode _ _ _ old same.1 same.2
  · intro v pte leaf
    obtain ⟨above, parents⟩ := ok.leafUp v pte leaf
    refine ⟨above, ?_⟩
    rw [Space.setNode_of_ne, parents]
    by_contra same
    simp only [not_or, not_not] at same
    exact belowLeaf v pte leaf same.1.symm same.2

end Updates

end Xv6Cos.Verif
