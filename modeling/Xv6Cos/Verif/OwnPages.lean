import Xv6Cos.Verif.ReadOnly

/-!
# Writes to pages that a process has for itself

`cowfault` copies a page even if nothing else refers to it, and `copyout` calls it for every page,
also for one that may be written. Both need a free page.
-/

namespace Xv6Cos.Verif

open Kernel Spec Program Transition Function

variable {layout : Layout} {w : World} {vm : Vm} {s : Sys} {p : Fin NPROC} {r va : ℕ}
  {src : List UInt8}

/-- A copy to a part of a page arrives if there is a free page. -/
theorem copyout_within (rep : Rep layout w vm) (live : r ∈ w.live) (high : HighPrivate (w.space r))
    (mapped : userPage (w.space r) (va / PGSIZE) ≠ none) (free : vm.freelist ≠ [])
    (inside : va % PGSIZE + src.length ≤ PGSIZE) :
    Safe (copyout layout r va src) vm fun ok _ => ok = true := by
  unfold copyout
  cases src with
  | nil => exact .pure rfl
  | cons byte bytes =>
    have page : pgrounddown va / PGSIZE = va / PGSIZE := mul_PGSIZE_div _
    have split := Nat.div_add_mod' va PGSIZE
    change Safe (copyoutGo layout r (bytes.length + 1) va (byte :: bytes)) vm _
    unfold copyoutGo
    simp only
    split
    · rename_i above
      have none := high.userPage_none (upages_le_of_maxva_le above.le)
      rw [page] at none
      exact absurd none mapped
    refine .bind (cowfault_spec rep live high) ?_
    rintro ok vm₁ (⟨rfl, rfl, reason⟩ | ⟨rfl, below, -, -, pte, q, w₁, -, -, fault, leaves, -⟩)
    · rw [page] at reason
      exact absurd reason (not_or.mpr ⟨mapped, free⟩)
    have found : userPage (w₁.space r) (va / PGSIZE) = some q := by
      rw [userPage, leaves, page, update_self]
      exact if_pos (cow_user q)
    have address := walkaddr_eq (pgrounddown va) (fault.rep.tables r (by rwa [fault.live]))
    rw [if_neg (by omega), page, found] at address
    apply Safe.bind_ok address
    apply Safe.bind_modifies
    -- nothing is left for another page
    rw [List.drop_eq_nil_of_le]
    · cases bytes.length <;> exact .pure rfl
    · rw [pgrounddown]
      omega

/-- A copy that succeeds has found a free page. -/
theorem copyout_takes_page {t : Sys} (inv : SysInv layout noPages w s)
    (alive : (s.proc p).state = .alive) (nonempty : src ≠ [])
    (ran : (UserAction.copyout va src).run layout p s = .ok (.copiedOut p va src true, t)) :
    s.vm.freelist ≠ [] ∧ OnlyChanges p s t ∧
      userMemory t p = (userMemory s p).copy va src.length src := by
  obtain ⟨-, -, ⟨only, n, all, -, none, memory⟩, -⟩ :=
    (action_spec (.copyout va src) inv alive nofun).result ran
  obtain rfl := all.mp rfl
  refine ⟨fun empty => ?_, only, memory⟩
  exact nonempty (List.length_eq_zero_iff.mp (none.mpr (.inr (.inr empty))))

/-- A process writes to its memory: a store that faults is served and a copy to a part of the page
arrives, with nothing else changed, exactly if there is a free page. That nothing else refers to the
page makes no difference. -/
theorem own_page_writes {trace : List UserEvent} {found : UserByte}
    (run : (userSystem layout).Exec trace s) (alive : (s.proc p).state = .alive)
    (here : userMemory s p va = some found) (user : found.flags &&& PTE_U ≠ 0) (byte : UInt8)
    (nonempty : src ≠ []) (inside : va % PGSIZE + src.length ≤ PGSIZE) :
    ((found.flags &&& PTE_W = 0 →
        ∃ t, (UserAction.store va byte).run layout p s = .ok (.faulted p va, t) ∧
          OnlyChanges p s t ∧ userMemory t p = (userMemory s p).own va) ∧
      ∃ t, (UserAction.copyout va src).run layout p s = .ok (.copiedOut p va src true, t) ∧
        OnlyChanges p s t ∧ userMemory t p = (userMemory s p).copy va src.length src) ↔
      s.vm.freelist ≠ [] := by
  obtain ⟨w, inv⟩ := run_inv run
  have can : UserCan (userMemory s p) va := ⟨found, here, user⟩
  constructor
  · rintro ⟨-, t, ran, -⟩
    exact (copyout_takes_page inv alive nonempty ran).1
  · intro free
    refine ⟨fun fixed => store_grants inv alive (isReadOnly_iff.mpr ⟨user, fixed⟩)
      here byte free, ?_⟩
    obtain ⟨r, tf, owns⟩ := inv.owns (p := p) (by rw [alive]; nofun)
    have mapped := can
    rw [userMemory_eq owns.pagetable (inv.rep.tables r owns.live),
      userCan_iff owns.shape.high] at mapped
    have arrives : Safe ((UserAction.copyout va src).run layout p) s fun event _ =>
        event = .copiedOut p va src true := by
      unfold UserAction.run
      apply Safe.bind_reads
      simp only [owns.pagetable]
      refine bind_memory
        (copyout_within inv.rep owns.live owns.shape.high mapped free inside) ?_
      rintro _ vm rfl
      exact .pure rfl
    obtain ⟨event, t, ran, rfl⟩ := arrives
    exact ⟨t, ran, (copyout_takes_page inv alive nonempty ran).2⟩

/-- The first process of the small machine may write to its program. -/
theorem own_page_writes_small : ∃ s p t, (userSystem smallLayout).Exec [] s ∧
    (UserAction.copyout 0 [7]).run smallLayout p s = .ok (.copiedOut p 0 [7] true, t) := by
  obtain ⟨s, start, alive, checked⟩ := @exists_booted smallLayout 0 [1, 2, 3]
    (fun s => !s.vm.freelist.isEmpty && (userMemory s s.initproc 0).any (·.flags &&& PTE_U ≠ 0))
    (by decide +kernel)
  obtain ⟨free, mapped⟩ := Bool.and_eq_true_iff.mp checked
  obtain ⟨found, here, user⟩ := (Option.any_eq_true ..).mp mapped
  obtain ⟨t, ran, -⟩ := ((own_page_writes (.start start) alive here (of_decide_eq_true user) 7
    (List.cons_ne_nil 7 []) (by decide)).mpr (by simpa using free)).2
  exact ⟨s, s.initproc, t, .start start, ran⟩

/-- A machine with seven pages beside the kernel, all of which its first process needs. -/
def fullLayout : Layout := ⟨PHYSPAGES - 7, 0, by decide, by decide⟩

/-- The first process may write to its only page, which has one reference, but nothing can be copied
there. -/
theorem own_page_full : ∃ s p r pte, (userSystem fullLayout).Exec [] s ∧
    (s.proc p).state = .alive ∧ (s.proc p).pagetable = some r ∧ leafPte s.vm r 0 = some pte ∧
    pte.has PTE_U = true ∧ pte.has PTE_W = true ∧ s.vm.refcnt pte.pn = 1 ∧
    ∀ t, (UserAction.copyout 0 [7]).run fullLayout p s ≠ .ok (.copiedOut p 0 [7] true, t) := by
  obtain ⟨s, start, alive, checked⟩ := @exists_booted fullLayout 0 [1, 2, 3]
    (fun s => (s.proc s.initproc).pagetable.any fun r => (leafPte s.vm r 0).any fun pte =>
      pte.has PTE_U ∧ pte.has PTE_W ∧ s.vm.refcnt pte.pn = 1 ∧ s.vm.freelist = [])
    (by decide +kernel)
  obtain ⟨r, root, checked⟩ := (Option.any_eq_true ..).mp checked
  obtain ⟨pte, leaf, checked⟩ := (Option.any_eq_true ..).mp checked
  obtain ⟨user, writes, one, empty⟩ := of_decide_eq_true checked
  obtain ⟨w, inv, -⟩ := init_inv start
  refine ⟨s, s.initproc, r, pte, .start start, alive, root, leaf, user, writes,
    one, fun t ran => ?_⟩
  exact (copyout_takes_page inv alive (List.cons_ne_nil 7 []) ran).1 empty

end Xv6Cos.Verif
