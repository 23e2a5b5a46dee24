import Xv6Cos.Verif.UserCopy

/-!
# The shape of a user address space

`Shape` says which virtual pages a process's page table maps: those below its size, the
trapframe and the trampoline. `proc_pagetable` establishes it for size 0, and
`proc_freepagetable` needs nothing else.
-/

namespace Xv6Cos.Verif

open Kernel Spec Program Function

variable {S' : Space}

/-- A page table maps the pages of a process of this size, and nothing else. -/
structure Shape (layout : Layout) (S : Space) (trapframe sz : ℕ) : Prop where
  low : npages sz ≤ UPAGES
  user : ∀ v < UPAGES, S.leaf v ≠ none ↔ v < npages sz
  trapframe : S.leaf UPAGES = some ⟨trapframe, PTE_R ||| PTE_W ||| PTE_V⟩
  trampoline : S.leaf (UPAGES + 1) = some ⟨layout.trampoline, PTE_R ||| PTE_X ||| PTE_V⟩
  beyond : ∀ v, UPAGES + 1 < v → S.leaf v = none

theorem TRAMPOLINE_eq : TRAMPOLINE = (UPAGES + 1) * PGSIZE := by
  rw [UPAGES_eq]
  decide

theorem TRAPFRAME_eq : TRAPFRAME = UPAGES * PGSIZE := by
  rw [UPAGES_eq]
  decide

theorem upages_succ_lt : UPAGES + 1 < MAXVA / PGSIZE := by
  rw [UPAGES_eq]
  decide

theorem npages_zero : npages 0 = 0 := by decide

section Shape

variable {layout : Layout} {S : Space} {tf sz : ℕ}

section

variable (shape : Shape layout S tf sz)

include shape

/-- The pages above user memory are not for the user. -/
theorem Shape.high : HighPrivate S := by
  intro v pte above leaf
  by_cases frame : v = UPAGES
  · rw [frame, shape.trapframe] at leaf
    cases leaf
    show ((PTE_R ||| PTE_W ||| PTE_V) &&& PTE_U != 0) = false
    decide
  · by_cases code : v = UPAGES + 1
    · rw [code, shape.trampoline] at leaf
      cases leaf
      show ((PTE_R ||| PTE_X ||| PTE_V) &&& PTE_U != 0) = false
      decide
    · rw [shape.beyond v (by omega)] at leaf
      contradiction

/-- The user pages below the size are mapped. -/
theorem Shape.mapped : ∀ u < npages sz, S.leaf u ≠ none :=
  fun u below => (shape.user u (lt_of_lt_of_le below shape.low)).mpr below

/-- The user pages from the size on are not mapped. -/
theorem Shape.unmapped :
    ∀ u, npages sz ≤ u → u < UPAGES → S.leaf u = none := by
  intro u above low
  by_contra here
  exact absurd ((shape.user u low).mp here) (by omega)

/-- A change of user pages alone keeps the rest of the shape. -/
theorem Shape.of_user {sz' : ℕ}
    (low : npages sz' ≤ UPAGES) (user : ∀ v < UPAGES, S'.leaf v ≠ none ↔ v < npages sz')
    (high : ∀ v, UPAGES ≤ v → S'.leaf v = S.leaf v) : Shape layout S' tf sz' where
  low := low
  user := user
  trapframe := (high _ le_rfl).trans shape.trapframe
  trampoline := (high _ (by omega)).trans shape.trampoline
  beyond v above := (high v (by omega)).trans (shape.beyond v above)

end

/-- Writable copies of some user pages keep the shape. -/
theorem Shape.copied {w w' : World} {vm vm' : Vm} {r dst n : ℕ} {src : List UInt8}
    (shape : Shape layout (w.space r) tf sz) (copied : CopiedOut layout r dst n src w vm w' vm') :
    Shape layout (w'.space r) tf sz := by
  refine shape.of_user shape.low (fun v low => ?_) fun v above => copied.untouched v fun touched =>
    absurd (copied.copied v touched).1 (by omega)
  by_cases touched : Touched dst n v
  · obtain ⟨-, pte, q, before, -, after, -⟩ := copied.copied v touched
    rw [after, ← shape.user v low, before]
    simp
  · rw [copied.untouched v touched]
    exact shape.user v low

/-- Another entry for a mapped user page keeps the shape. -/
theorem Shape.set {v : ℕ} {pte pte' : Pte} (shape : Shape layout S tf sz)
    (low : v < UPAGES) (leaf : S.leaf v = some pte)
    (leaves : S'.leaf = update S.leaf v (some pte')) : Shape layout S' tf sz := by
  refine shape.of_user shape.low (fun u lowU => ?_) fun u above => ?_
  · rw [leaves]
    by_cases here : u = v
    · rw [here, update_self, ← shape.user v low, leaf]
      simp
    · rw [update_of_ne here]
      exact shape.user u lowU
  · rw [leaves, update_of_ne (by omega)]

end Shape

section Create

variable {layout : Layout} {w : World} {vm : Vm} {r tf sz : ℕ}

/-- `proc_freepagetable` gives up a page table of the right shape. -/
theorem procFreepagetable_spec (rep : Rep layout w vm) (live : r ∈ w.live)
    (shape : Shape layout (w.space r) tf sz) :
    Safe (procFreepagetable layout r sz) vm fun _ vm' => ∃ w',
      Frees layout r (vpages r 0 (npages sz)) w vm w' vm' := by
  unfold procFreepagetable
  rw [TRAMPOLINE_eq, TRAPFRAME_eq]
  refine .bind (uvmunmap_high rep live (by omega) upages_succ_lt shape.trampoline) ?_
  rintro _ vm₁ ⟨w₁, first, leaves₁⟩
  have live₁ : r ∈ w₁.live := by rwa [first.live]
  have frame₁ : (w₁.space r).leaf UPAGES = some ⟨tf, PTE_R ||| PTE_W ||| PTE_V⟩ := by
    rw [leaves₁, update_of_ne (by omega)]
    exact shape.trapframe
  refine .bind (uvmunmap_high first.rep live₁ le_rfl (lt_trans (Nat.lt_succ_self _) upages_succ_lt)
    frame₁) ?_
  rintro _ vm₂ ⟨w₂, second, leaves₂⟩
  have leaf : ∀ u, (w₂.space r).leaf u ≠ none ↔ u < npages sz := by
    intro u
    rw [leaves₂, leaves₁]
    by_cases low : u < UPAGES
    · rw [update_of_ne (by omega), update_of_ne (by omega)]
      exact shape.user u low
    · have above : ¬u < npages sz := fun below => low (lt_of_lt_of_le below shape.low)
      simp only [above, iff_false, not_not]
      by_cases frame : u = UPAGES
      · rw [frame, update_self]
      · rw [update_of_ne frame]
        by_cases code : u = UPAGES + 1
        · rw [code, update_self]
        · rw [update_of_ne code]
          exact shape.beyond u (by omega)
  refine .mono (uvmfree_spec sz second.rep (by rwa [second.live]) shape.low leaf) ?_
  rintro _ vm' ⟨w', frees⟩
  have before : Frame {r} (vpages r 0 (npages sz)) ∅ w vm w₂ vm₂ :=
    (first.trans second).frame.mono le_rfl (Set.empty_subset _) le_rfl
  exact ⟨w', frees.rep, before.trans frees.frame, by rw [frees.live, second.live, first.live],
    by rw [frees.extra, second.extra, first.extra]⟩

/-- A page table that a failing operation created and freed again leaves no trace. -/
theorem freed_again {w₁ w₂ : World} {vm₁ vm₂ : Vm} {M : Set (ℕ × ℕ)} (dead : r ∉ w.live)
    (frame : Frame ∅ ∅ ∅ w vm w₁ vm₁) (live : w₁.live = insert r w.live)
    (extra : w₁.extra = w.extra) (mine : M ⊆ {m | m.1 = r})
    (frees : Frees layout r M w₁ vm₁ w₂ vm₂) :
    Updates layout ∅ ∅ ∅ w vm w₂ vm₂ := by
  refine ⟨frees.rep, ?_, ?_, frees.extra.trans extra⟩
  · have first : Frame {r} ∅ ∅ w vm w₁ vm₁ := frame.mono (Set.empty_subset _) le_rfl le_rfl
    refine (first.trans_new frees.frame ?_).absorb_only_root dead
    intro r' live' v _ _ mem
    have root : r' = r := mine mem
    exact absurd (root ▸ live') dead
  · rw [frees.live, live, Finset.erase_insert dead]

/-- `proc_pagetable` makes a page table for a process of size 0, or leaves no trace. -/
theorem procPagetable_spec (rep : Rep layout w vm) (fits : tf < PHYSPAGES) :
    Safe (procPagetable layout tf) vm fun root vm' =>
      (root = none ∧ ∃ w', Updates layout ∅ ∅ ∅ w vm w' vm') ∨
      ∃ r w', root = some r ∧ r ∉ w.live ∧ Rep layout w' vm' ∧ Frame ∅ ∅ ∅ w vm w' vm' ∧
        w'.live = insert r w.live ∧ w'.extra = w.extra ∧ Shape layout (w'.space r) tf 0 := by
  have code : layout.trampoline < PHYSPAGES := lt_of_lt_of_le layout.above layout.below
  unfold procPagetable
  refine .bind (uvmcreate_spec rep) ?_
  rintro root vm₁ (⟨rfl, rfl⟩ | ⟨r, w₁, rfl, dead, rep₁, frame₁, live₁, extra₁, empty₁⟩)
  · exact .pure (.inl ⟨rfl, w, .refl rep⟩)
  have mem₁ : r ∈ w₁.live := by rw [live₁]; exact Finset.mem_insert_self ..
  have leaf₁ : ∀ v, (w₁.space r).leaf v = none := fun v => by rw [empty₁]; rfl
  rw [TRAMPOLINE_eq, TRAPFRAME_eq]
  -- what remains after an error exit
  have bad : ∀ w₂ vm₂, Updates layout {r} ∅ ∅ w₁ vm₁ w₂ vm₂ → (∀ v, (w₂.space r).leaf v = none) →
      Safe (uvmfree layout r 0) vm₂ fun _ vm' => ∃ w', Updates layout ∅ ∅ ∅ w vm w' vm' := by
    intro w₂ vm₂ updates empty
    refine .mono (uvmfree_spec 0 updates.rep (by rwa [updates.live]) (by rw [npages_zero]; omega)
      fun u => by simp [empty u, npages_zero]) ?_
    rintro _ vm' ⟨w', frees⟩
    rw [npages_zero] at frees
    refine ⟨w', freed_again dead ((frame₁.mono (Set.empty_subset _) le_rfl le_rfl).trans
      updates.frame |>.absorb_only_root dead) (updates.live.trans live₁)
      (updates.extra.trans extra₁) ?_ frees⟩
    exact fun m mem => mem.1
  refine .bind (mappages_high rep₁ mem₁ (by omega) upages_succ_lt (leaf₁ _) code
    (show LeafFlags (PTE_R ||| PTE_X ||| PTE_V) by decide)) ?_
  rintro ok vm₂ ⟨w₂, updates₂, ⟨rfl, leaves₂⟩ | ⟨rfl, leaves₂⟩⟩
  · refine .bind (bad w₂ vm₂ updates₂ fun v => by rw [leaves₂]; exact leaf₁ v) ?_
    exact fun _ vm' gone => .pure (.inl ⟨rfl, gone⟩)
  have mem₂ : r ∈ w₂.live := by rwa [updates₂.live]
  refine .bind (mappages_high updates₂.rep mem₂ le_rfl
    (lt_trans (Nat.lt_succ_self _) upages_succ_lt)
    (by rw [leaves₂, update_of_ne (by omega)]; exact leaf₁ _) fits
    (show LeafFlags (PTE_R ||| PTE_W ||| PTE_V) by decide)) ?_
  rintro ok vm₃ ⟨w₃, updates₃, ⟨rfl, leaves₃⟩ | ⟨rfl, leaves₃⟩⟩
  · have mem₃ : r ∈ w₃.live := by rwa [updates₃.live]
    refine .bind (uvmunmap_high updates₃.rep mem₃ (by omega) upages_succ_lt
      (by rw [leaves₃, leaves₂, update_self])) ?_
    rintro _ vm₄ ⟨w₄, updates₄, leaves₄⟩
    refine .bind (bad w₄ vm₄ ((updates₂.trans updates₃).trans updates₄) fun v => ?_) ?_
    · rw [leaves₄, leaves₃, leaves₂, update_idem]
      by_cases here : v = UPAGES + 1
      · rw [here, update_self]
      · rw [update_of_ne here]
        exact leaf₁ v
    · exact fun _ vm' gone => .pure (.inl ⟨rfl, gone⟩)
  · have updates := updates₂.trans updates₃
    refine .pure (.inr ⟨r, w₃, rfl, dead, updates.rep, (frame₁.mono (Set.empty_subset _) le_rfl
      le_rfl).trans updates.frame |>.absorb_only_root dead, updates.live.trans live₁,
      updates.extra.trans extra₁, ?_⟩)
    have leaf : ∀ v, v ≠ UPAGES → v ≠ UPAGES + 1 → (w₃.space r).leaf v = none := by
      intro v frame code
      rw [leaves₃, update_of_ne frame, leaves₂, update_of_ne code]
      exact leaf₁ v
    refine ⟨by rw [npages_zero]; omega, fun v low => ?_, ?_, ?_, fun v above => ?_⟩
    · rw [leaf v (by omega) (by omega), npages_zero]
      simp
    · rw [leaves₃, update_self]
    · rw [leaves₃, update_of_ne (by omega), leaves₂, update_self]
    · exact leaf v (by omega) (by omega)

end Create

end Xv6Cos.Verif
