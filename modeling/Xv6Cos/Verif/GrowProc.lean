import Xv6Cos.Verif.UserRun

/-!
# Sizes after `growproc`

A process that gives back more memory than it has underflows its size. `uvmdealloc` takes that for
growth and does nothing, and `growproc` succeeds.
-/

namespace Xv6Cos.Verif

open Kernel Spec Program Transition Function

variable {layout : Layout} {w w' : World} {vm vm' : Vm} {s : Sys} {p : Fin NPROC}
  {r q : ℕ} {n : Int}

/-- If the entries stay as they are, the pages taken from the free list have gone to page tables. -/
theorem Updates.taken (updates : Updates layout {r} ∅ ∅ w vm w' vm') (rep : Rep layout w vm)
    (leaves : (w'.space r).leaf = (w.space r).leaf) (free : q ∈ vm.freelist) :
    q ∈ vm'.freelist ∨ ∃ r' level n, w'.owner q = .table r' level n := by
  have owner := rep.owner_of_mem free
  have refs := updates.rep.pages q
  have settled := updates.frame.settled q (Set.notMem_empty q)
  rw [owner] at settled
  cases now : w'.owner q with
  | free =>
    rw [now] at refs
    exact .inl refs.1
  | table r' level n => exact .inr ⟨r', level, n, rfl⟩
  | kernel => exact absurd ((settled (.inl now)).trans now) (by simp)
  | outside => exact absurd ((settled (.inr now)).trans now) (by simp)
  | user =>
    have counts : w'.count q = w.count q := by
      rw [World.count, World.count, updates.live]
      refine Finset.sum_congr rfl fun r' live => ?_
      by_cases same : r' = r
      · rw [same, Space.maps, Space.maps, leaves]
      · rw [updates.frame.space r' live same]
    have none := rep.count_of_not_user (q := q) (by simp [owner])
    have old := rep.pages q
    rw [owner] at old
    rw [now, counts, none, updates.extra] at refs
    simp only [PageRefs] at old refs
    omega

end Xv6Cos.Verif
