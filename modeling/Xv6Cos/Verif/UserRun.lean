import Xv6Cos.Verif.Boot
import Mathlib.Algebra.BigOperators.Group.Finset.Piecewise

/-!
# Runs of user processes

Every operation keeps the invariant, so it holds in every state of every run. The shape of
all address spaces and the absence of panics are read off it, and so are the reference counts
as long as every `fork` finds enough free pages.
-/

namespace Xv6Cos.Verif

open Kernel Spec Program Transition Finset

variable {layout : Layout} {kept : ℕ → Option Page} {w : World} {s t : Sys} {p : Fin NPROC}
  {trace : List UserEvent}
  {event : UserEvent} {va : ℕ} {S : Space}

/-- Every operation of a running process does what its label says; only `initproc` panics, by
exiting. -/
theorem action_spec (action : UserAction) (inv : SysInv layout kept w s)
    (enabled : action.enabled s p) (spared : ∀ page, action = .release page → kept page = none) :
    SafeUnless .initExiting (action.run layout p) s (Performs layout kept w s) := by
  have alive : (s.proc p).state = .alive := by
    cases action with
    | release page => exact enabled.1
    | _ => exact enabled
  have used : (s.proc p).state ≠ .unused := by rw [alive]; nofun
  cases action with
  | fork =>
    refine .inr (.bind (fork_spec inv used) ?_)
    rintro (_ | _ | _) t performs <;> exact .pure performs
  | exec file argv =>
    refine .inr (.bind (exec_spec file argv inv used) ?_)
    rintro result t ⟨w', inv', extra, effect⟩
    by_cases succeeded : 0 ≤ result
    · rw [if_pos succeeded] at effect ⊢
      exact .reads ⟨w', inv', ⟨effect, rfl, rfl⟩, extra⟩
    · rw [if_neg succeeded] at effect ⊢
      exact .pure ⟨w', inv', effect, extra⟩
  | growproc n =>
    refine .inr (.bind (growproc_spec n inv used) ?_)
    rintro ok t performs
    cases ok with
    | true => exact .reads performs
    | false => exact .pure performs
  | store va byte => exact userStore_spec va byte inv used
  | load va => exact userLoad_spec va inv used
  | copyout va src =>
    obtain ⟨r, tf, owns⟩ := inv.owns used
    right
    apply Safe.bind_reads
    simp only [owns.pagetable]
    refine bind_memory (copyout_effect va src inv owns) ?_
    rintro ok vm' ⟨n, w', all, inv', only, copied, extra⟩
    exact .pure ⟨w', inv', ⟨only, n, all, copied⟩, extra⟩
  | copyin va len =>
    obtain ⟨r, tf, owns⟩ := inv.owns used
    have table := inv.rep.tables r owns.live
    right
    apply Safe.bind_reads
    simp only [owns.pagetable]
    refine bind_memory (copyinGo_spec table owns.shape.high len va len le_rfl) ?_
    rintro bytes _ ⟨rfl, found⟩
    refine .pure ⟨w, inv, ⟨fun _ => rfl, fun list same => ?_⟩, rfl⟩
    rw [userMemory_eq owns.pagetable table]
    exact (found list same).2
  | exit status =>
    refine .bind (exit_spec status inv used) ?_
    rintro _ t ⟨inv', same, -⟩
    exact .inr (.pure ⟨w, inv', same, rfl⟩)
  | wait addr =>
    refine .inr (.bind (wait_spec addr inv alive) ?_)
    exact fun result t performs => .pure performs
  | hold => exact .inr (hold_spec inv)
  | release page => exact .inr (release_spec inv enabled.2 (spared page rfl))

/-- A step of the system, from a state in which the invariant holds. -/
theorem step_performs (inv : SysInv layout noPages w s)
    (step : (userSystem layout).step s event t) : Performs layout noPages w s event t := by
  obtain ⟨p, action, enabled, ran⟩ := step
  exact (action_spec action inv enabled fun _ _ => rfl).result ran

/-- The invariant holds in every state of every run. -/
theorem run_inv (run : (userSystem layout).Exec trace s) : ∃ w, SysInv layout noPages w s := by
  refine run.invariant (fun _ s => ∃ w, SysInv layout noPages w s) ?_ ?_
  · intro s start
    obtain ⟨w, inv, -⟩ := init_inv start
    exact ⟨w, inv⟩
  · rintro trace s event t ⟨w, inv⟩ step
    obtain ⟨w', inv', -⟩ := step_performs inv step
    exact ⟨w', inv'⟩

/-- An `int` has four bytes. -/
theorem length_intBytes (n : Int) : (intBytes n).length = 4 := by
  simp [intBytes]

section Shapes

variable {r tf : ℕ}

/-- The entry that `walk` finds is the leaf of the page table. -/
theorem leafPte_eq {owner : ℕ → Owner} {vm : Vm} (ok : TableOk owner vm r S)
    (low : va < MAXVA) : leafPte vm r va = S.leaf (va / PGSIZE) := by
  unfold leafPte
  rcases walk_cases ok low with ⟨-, leaf, ran⟩ | ⟨a, -, ran, read⟩
  · rw [ran, leaf]
  · rw [ran]
    simp only [read]
    cases leaf : S.leaf (va / PGSIZE) with
    | none => rfl
    | some pte => simp [leafEntry, (ok.leafOk _ _ leaf).2.has_valid]

/-- A page table of the right shape maps the address space and nothing else. -/
theorem Shape.mapped_iff {sz : ℕ} (shape : Shape layout S tf sz) :
    (S.leaf (va / PGSIZE)).isSome ↔ InSpace sz va := by
  have frame : TRAPFRAME / PGSIZE = UPAGES := by unfold UPAGES; rfl
  have code : TRAMPOLINE / PGSIZE = UPAGES + 1 := by rw [TRAMPOLINE_eq, mul_PGSIZE_div]
  rw [InSpace, lt_pgroundup, frame, code, ← Option.ne_none_iff_isSome]
  have bound := shape.low
  by_cases low : va / PGSIZE < UPAGES
  · rw [shape.user _ low]
    omega
  · by_cases here : va / PGSIZE = UPAGES
    · rw [here, shape.trapframe]
      simp
    · by_cases next : va / PGSIZE = UPAGES + 1
      · rw [next, shape.trampoline]
        simp
      · rw [shape.beyond _ (by omega)]
        simp only [ne_eq, not_true, false_iff]
        omega

/-- The leaf mappings of every process's page table are exactly the pages of its user memory,
the trapframe and the trampoline, all at the lowest level, with a flag beside `PTE_V` and
inside physical memory; and no operation of a running process panics, except that `initproc`
may exit. -/
theorem address_spaces (run : (userSystem layout).Exec trace s) :
    (∀ p r, (s.proc p).pagetable = some r →
      (∀ va < MAXVA, ((leafPte s.vm r va).isSome ↔ InSpace (s.proc p).sz va) ∧
        ∀ pte, leafPte s.vm r va = some pte → pte.flags ≠ PTE_V ∧ pte.pn < PHYSPAGES) ∧
      ∀ va, s.vm.translate r va =
        if va < MAXVA then (leafPte s.vm r va).map fun pte => (0, pte) else none) ∧
    ∀ p (action : UserAction), action.enabled s p → ∀ panic,
      action.run layout p s = .error panic → panic = .initExiting := by
  obtain ⟨w, inv⟩ := run_inv run
  refine ⟨fun p r root => ?_, fun p action enabled panic failed =>
    (action_spec action inv enabled fun _ _ => rfl).error_eq failed⟩
  obtain ⟨tf, owns⟩ := inv.owns_root root
  have ok := inv.rep.tables r owns.live
  refine ⟨fun va low => ⟨?_, fun pte leaf => ?_⟩, fun va => ?_⟩
  · rw [leafPte_eq ok low]
    exact owns.shape.mapped_iff
  · rw [leafPte_eq ok low] at leaf
    obtain ⟨inside, flags⟩ := ok.leafOk _ _ leaf
    exact ⟨flags.ne_valid, inside⟩
  · by_cases low : va < MAXVA
    · have legal : canonical va = true := by
        simp only [MAXVA] at low
        simp only [canonical, Bool.or_eq_true, Bool.and_eq_true, decide_eq_true_eq]
        omega
      rw [if_pos low, leafPte_eq ok low, translate_eq ok legal, vpage_of_lt low]
    · rw [if_neg low]
      by_cases legal : canonical va = true
      · rw [translate_eq ok legal, owns.shape.beyond _ ?_]
        · rfl
        · rw [UPAGES_eq]
          simp only [canonical, Bool.or_eq_true, Bool.and_eq_true, decide_eq_true_eq] at legal
          simp only [MAXVA] at low
          simp only [vpage, PGSIZE]
          omega
      · rw [Vm.translate, if_neg legal]

end Shapes

section Room

variable {vm : Vm} {v left : ℕ}

/-- `kalloc` takes at most one page, and fails only if there is none. -/
theorem kalloc_takes : Ends kalloc vm fun found vm' =>
    vm.freelist.length ≤ vm'.freelist.length + 1 ∧ (found = none → vm.freelist.length = 0) := by
  intro found vm' ran
  unfold kalloc at ran
  split at ran
  · rename_i empty
    cases ran
    exact ⟨Nat.le_succ _, fun _ => by rw [empty]; rfl⟩
  · rename_i r next free
    split at ran
    · contradiction
    · cases ran
      exact ⟨by rw [free]; rfl, nofun⟩

/-- `walk` takes at most a page for each level, and gives up only if there are fewer. -/
theorem walkGo_takes (va : ℕ) (alloc : Bool) (level pagetable : ℕ) :
    Ends (walkGo va alloc level pagetable) vm fun found vm' =>
      (alloc = false → vm' = vm) ∧ vm.freelist.length ≤ vm'.freelist.length + level ∧
      (alloc = true → found = none → vm.freelist.length < level) := by
  induction level generalizing vm pagetable with
  | zero => exact .pure ⟨fun _ => rfl, le_rfl, nofun⟩
  | succ level ih =>
    apply Ends.bind_reads
    split
    · refine (ih _).mono fun found vm' ⟨same, taken, few⟩ => ⟨same, by omega, fun may none => ?_⟩
      exact (few may none).trans (Nat.lt_succ_self level)
    · cases alloc with
      | false => exact .pure ⟨fun _ => rfl, by omega, nofun⟩
      | true =>
        refine .bind kalloc_takes fun found vm₁ ⟨took, empty⟩ => ?_
        cases found with
        | none =>
          have empty := empty rfl
          exact .pure ⟨nofun, by omega, fun _ _ => by omega⟩
        | some page =>
          apply Ends.bind_modifies
          apply Ends.bind_modifies
          refine (ih page).mono fun found vm' ⟨_, taken, few⟩ => ⟨nofun, ?_, fun may none => ?_⟩
          · exact took.trans (Nat.succ_le_succ taken)
          · exact took.trans_lt (Nat.succ_lt_succ (few may none))

/-- Mapping a page takes at most two, and fails only if there are fewer. -/
theorem mapPage_takes (pagetable pn : ℕ) (perm : BitVec 10) :
    Ends (mapPage pagetable (v * PGSIZE) pn perm) vm fun ok vm' =>
      vm.freelist.length ≤ vm'.freelist.length + 2 ∧ (ok = false → vm.freelist.length < 2) := by
  have walked : Ends (walk pagetable (v * PGSIZE) true) vm fun found vm' =>
      vm.freelist.length ≤ vm'.freelist.length + 2 ∧ (found = none → vm.freelist.length < 2) := by
    unfold walk
    split
    · exact .fail _
    · refine .bind (walkGo_takes _ true 2 pagetable) fun page vm' ⟨_, taken, few⟩ => ?_
      exact .pure ⟨taken, fun none => few rfl (Option.map_eq_none_iff.mp none)⟩
  refine .bind walked fun found vm' ⟨taken, few⟩ => ?_
  cases found with
  | none => exact .pure ⟨taken, fun _ => few rfl⟩
  | some entry =>
    apply Ends.bind_reads
    split
    · exact .fail _
    · exact .bind_modifies (.pure ⟨taken, nofun⟩)

/-- `uvmcopy` fails only if there are fewer than two free pages for each page it has left. -/
theorem uvmcopyGo_takes (old new : ℕ) :
    Ends (uvmcopyGo layout old new (v * PGSIZE) left) vm fun ok _ =>
    ok = false → vm.freelist.length < 2 * left := by
  induction left generalizing v vm with
  | zero => exact .pure nofun
  | succ left ih =>
    have walked : Ends (walk old (v * PGSIZE) false) vm fun _ vm' => vm = vm' := by
      unfold walk
      split
      · exact .fail _
      · exact .bind (walkGo_takes _ false 2 old) fun _ _ ⟨same, _⟩ => .pure (same rfl).symm
    refine .bind walked ?_
    rintro found _ rfl
    cases found with
    | none => exact .fail _
    | some entry =>
      apply Ends.bind_reads
      split
      · exact .fail _
      · apply Ends.bind_modifies
        refine .bind (show Ends _ _ fun _ vm' => vm'.freelist = vm.freelist from ?_)
          fun _ vm₁ same => ?_
        · intro _ vm' ran
          unfold increse at ran
          split at ran
          · contradiction
          · cases ran
            rfl
        · rw [mappages_page]
          refine .bind (mapPage_takes new _ _) fun ok vm₂ ⟨taken, few⟩ => ?_
          rw [same] at taken few
          cases ok with
          | true =>
            rw [if_pos rfl, ← Nat.succ_mul]
            refine ih.mono fun ok _ short failed => ?_
            have short := short failed
            omega
          | false =>
            exact .bind .trivial fun _ _ _ => .pure fun _ => by
              have few := few rfl
              omega

/-- A child's trapframe and page table take six pages at most. -/
theorem allocproc_takes : Ends (allocproc layout) s fun found t => found ≠ none →
    (∀ q, (t.proc q).sz = (s.proc q).sz) ∧ s.vm.freelist.length ≤ t.vm.freelist.length + 6 := by
  have table : ∀ {vm} (trapframe : ℕ), Ends (procPagetable layout trapframe) vm fun found vm' =>
      found ≠ none → vm.freelist.length ≤ vm'.freelist.length + 5 := by
    intro vm trapframe
    have created : Ends uvmcreate vm fun _ vm' =>
        vm.freelist.length ≤ vm'.freelist.length + 1 := by
      refine .bind kalloc_takes fun root vm₁ ⟨took, _⟩ => ?_
      cases root with
      | none => exact .pure took
      | some root => exact .bind_modifies (.pure took)
    refine .bind created fun root vm₁ took => ?_
    cases root with
    | none => exact .pure (absurd rfl)
    | some root =>
      simp only [TRAMPOLINE_eq, TRAPFRAME_eq, mappages_page]
      refine .bind (mapPage_takes root _ _) fun ok vm₂ ⟨took₂, _⟩ => ?_
      split
      · refine .bind (mapPage_takes root _ _) fun ok vm₃ ⟨took₃, _⟩ => ?_
        split
        · exact .pure fun _ => by omega
        · exact .bind .trivial fun _ _ _ => .bind .trivial fun _ _ _ => .pure (absurd rfl)
      · exact .bind .trivial fun _ _ _ => .pure (absurd rfl)
  apply Ends.bind_reads
  split
  · exact .pure (absurd rfl)
  · rename_i np found
    apply Ends.bind_reads
    apply Ends.bind_modifies
    apply Ends.bind_reads
    refine bind_memory_ends kalloc_takes fun page vm ⟨took, _⟩ => ?_
    cases page with
    | none => exact .bind .trivial fun _ _ _ => .bind .trivial fun _ _ _ => .pure (absurd rfl)
    | some trapframe =>
      apply Ends.bind_modifies
      refine bind_memory_ends (table trapframe) fun root vm' took' => ?_
      cases root with
      | none => exact .bind .trivial fun _ _ _ => .bind .trivial fun _ _ _ => .pure (absurd rfl)
      | some pagetable =>
        apply Ends.bind_modifies
        refine .pure fun _ => ⟨fun q => ?_, ?_⟩
        · by_cases same : q = np
          · subst same
            rw [setProc_self]
          · rw [setProc_of_ne same, setProc_of_ne same]
        · exact took.trans (Nat.succ_le_succ (took' nofun))

/-- A `fork` that finds enough free pages does not fail inside `uvmcopy`. -/
theorem fork_fits (fits : forkPages (s.proc p).sz ≤ s.vm.freelist.length) :
    Ends (fork layout p) s fun result _ => result ≠ .noCopy := by
  refine .bind allocproc_takes fun found t taken => ?_
  cases found with
  | none => exact .pure nofun
  | some np =>
    obtain ⟨size, left⟩ := taken nofun
    apply Ends.bind_reads
    apply Ends.bind_reads
    split
    · rename_i old new _ _ _ _ _ _
      have copied : Ends (uvmcopy layout old new (t.proc p).sz) t.vm fun ok _ => ok = true := by
        have go := @uvmcopyGo_takes layout t.vm 0 (((t.proc p).sz + PGSIZE - 1) / PGSIZE) old new
        rw [Nat.zero_mul] at go
        refine Ends.mono go fun ok _ short => ?_
        by_contra failed
        have short := short (Bool.eq_false_of_not_eq_true failed)
        rw [size] at short
        unfold forkPages at fits
        omega
      refine bind_memory_ends copied ?_
      rintro _ vm rfl
      exact .bind .trivial fun _ _ _ => .bind .trivial fun _ _ _ => .bind_modifies (.pure nofun)
    · exact .fail _

/-- What a store comes to. -/
theorem userStore_event {va : ℕ} {byte : UInt8} : Ends (userStore layout p va byte) s fun event _ =>
    event = .stored p va byte ∨ event = .faulted p va ∨ event = .storeKilled p va := by
  unfold userStore
  apply Ends.bind_reads
  split
  · exact .fail _
  · apply Ends.bind_reads
    split
    · exact .bind (fun _ _ _ => trivial) fun _ _ (_ : True) => .pure (.inl rfl)
    · refine .bind (fun _ _ _ => trivial) fun ok _ (_ : True) => ?_
      cases ok with
      | true => exact .pure (.inr (.inl rfl))
      | false =>
        exact .bind (fun _ _ _ => trivial) fun _ _ (_ : True) => .pure (.inr (.inr rfl))

/-- An operation that leaves enough pages to `fork` is no `fork` that fails inside `uvmcopy`. -/
theorem spared_of_fits (step : (userSystem layout).step s event t) (fits : ForksFit s event) :
    copyFailed event = false := by
  obtain ⟨p, action, -, ran⟩ := step
  revert fits
  revert event t
  suffices ends : Ends (action.run layout p) s fun event _ => ForksFit s event →
      copyFailed event = false from fun {_ _} ran => ends _ _ ran
  cases action with
  | fork =>
    intro event t ran fits
    obtain ⟨result, u, forked, rest⟩ := bind_eq_ok ran
    cases result with
    | noCopy =>
      cases rest
      exact absurd rfl (fork_fits fits _ _ forked)
    | noProc | child =>
      cases rest
      rfl
  | store va byte =>
    refine userStore_event.mono ?_
    rintro event _ (rfl | rfl | rfl) _ <;> rfl
  | load va =>
    apply Ends.bind_reads
    split
    · exact .pure fun _ => rfl
    · exact .bind .trivial fun _ _ _ => .pure fun _ => rfl
  | exec file argv | growproc n =>
    refine .bind .trivial fun _ _ _ => ?_
    split
    · exact .reads fun _ => rfl
    · exact .pure fun _ => rfl
  | copyout va src | copyin va len =>
    apply Ends.bind_reads
    split
    · exact .fail _
    · exact .bind .trivial fun _ _ _ => .pure fun _ => rfl
  | exit status | wait addr => exact .bind .trivial fun _ _ _ => .pure fun _ => rfl
  | hold | release page =>
    exact .bind .trivial fun _ _ _ => .bind_modifies (.pure fun _ => rfl)

end Room

section Counts

variable {q : ℕ}

section

variable (inv : SysInv layout noPages w s)

include inv

/-- The user mappings of a page in the page table of one process. -/
theorem mapsTo_card (p : Fin NPROC) (q : ℕ) :
    ((range (TRAPFRAME / PGSIZE)).filter fun v => mapsTo s p q v).card =
      match (s.proc p).pagetable with
      | none => 0
      | some r => (w.space r).maps q := by
  cases root : (s.proc p).pagetable with
  | none => simp [mapsTo, root]
  | some r =>
    obtain ⟨tf, owns⟩ := inv.owns_root root
    have ok := inv.rep.tables r owns.live
    have pages : TRAPFRAME / PGSIZE = UPAGES := by unfold UPAGES; rfl
    show _ = (w.space r).maps q
    rw [pages, card_filter, Space.maps]
    refine sum_congr rfl fun v mem => ?_
    have legal : v * PGSIZE < MAXVA := mul_PGSIZE_lt (upages_lt_maxva (mem_range.mp mem))
    rw [mapsTo, root, refsOf]
    simp only [leafPte_eq ok legal, mul_PGSIZE_div, decide_eq_true_eq]

/-- The mappings of a page are those that the world counts. -/
theorem mappings_eq (q : ℕ) : mappings s q = w.count q := by
  -- both sides count pairs of a page table and its process
  have tables : ∀ r ∈ w.live,
      (w.space r).maps q = ∑ p, if (s.proc p).pagetable = some r then
      (w.space r).maps q else 0 := by
    intro r live
    obtain ⟨p, root⟩ := inv.roots r live
    rw [sum_eq_single p, if_pos root]
    · intro p' _ other
      exact if_neg fun root' => other (inv.tables p' p r root' root)
    · exact fun absent => absurd (mem_univ p) absent
  unfold mappings World.count
  rw [sum_congr rfl tables, sum_comm]
  refine sum_congr rfl fun p _ => ?_
  rw [mapsTo_card inv p q]
  cases root : (s.proc p).pagetable with
  | none => simp
  | some r =>
    obtain ⟨tf, owns⟩ := inv.owns_root root
    simp [owns.live]

/-- Reference counts are exact if no page has a reference beside page tables. -/
theorem SysInv.exact (extra : w.extra = fun _ => 0) : ExactCounts s := by
  intro q positive
  rw [mappings_eq inv] at positive ⊢
  have user : w.owner q = .user := by
    by_contra other
    rw [inv.rep.count_of_not_user other] at positive
    exact absurd positive (lt_irrefl 0)
  have refs := inv.rep.pages q
  simp only [user, PageRefs, extra] at refs
  omega

/-- A mapped page with a reference beside page tables has a count that is too high. -/
theorem SysInv.inexact {r v : ℕ} {pte : Pte}
    (root : (s.proc p).pagetable = some r) (low : v < UPAGES)
    (leaf : (w.space r).leaf v = some pte) (more : 0 < w.extra pte.pn) :
    0 < mappings s pte.pn ∧ mappings s pte.pn < s.vm.refcnt pte.pn := by
  obtain ⟨tf, owns⟩ := inv.owns_root root
  have user := inv.rep.targets r owns.live v low pte leaf
  have refs := inv.rep.pages pte.pn
  simp only [user, PageRefs] at refs
  rw [mappings_eq inv]
  exact ⟨count_pos owns.live low leaf, by omega⟩

end

/-- A step that is not a `fork` failing inside `uvmcopy` adds no reference. -/
theorem Accounts.extra_eq {w' : World} (accounts : Accounts w w' t event)
    (spared : copyFailed event = false) : w'.extra = w.extra := by
  cases event with
  | forkFailed p copying =>
    obtain rfl : copying = false := spared
    exact accounts
  | _ => exact accounts

/-- As long as every `fork` finds enough free pages, page tables account for all references. -/
theorem run_accounted (run : ((userSystem layout).restrict ForksFit).Exec trace s) :
    ∃ w, SysInv layout noPages w s ∧ w.extra = fun _ => 0 := by
  refine run.invariant (fun _ s => ∃ w, SysInv layout noPages w s ∧ w.extra = fun _ => 0) ?_ ?_
  · exact fun s start => init_inv start
  · rintro trace s event t ⟨w, inv, extra⟩ ⟨step, fits⟩
    obtain ⟨w', inv', -, accounts⟩ := step_performs inv step
    exact ⟨w', inv', (accounts.extra_eq (spared_of_fits step fits)).trans extra⟩

/-- A `fork` that fails inside `uvmcopy` leaves a mapped page with a count that is too high. -/
theorem copyFailed_inexact (inv : SysInv layout noPages w s)
    (step : (userSystem layout).step s (.forkFailed p true) t) :
    ∃ q, 0 < mappings t q ∧ mappings t q < t.vm.refcnt q := by
  obtain ⟨w', inv', -, r, v, pte, root, low, leaf, more⟩ := step_performs inv step
  exact ⟨pte.pn, inv'.inexact root low leaf (by omega)⟩

/-- In a run in which every `fork` finds enough free pages, the reference count of every page mapped
as a user page is the number of its mappings. A further step keeps it so exactly if it is no `fork`
that fails inside `uvmcopy`, which takes fewer free pages than that. -/
theorem refcnt_exact (run : ((userSystem layout).restrict ForksFit).Exec trace s) :
    ExactCounts s ∧ ∀ event t, (userSystem layout).step s event t →
      (ExactCounts t ↔ copyFailed event = false) ∧ (ForksFit s event → ExactCounts t) := by
  obtain ⟨w, inv, extra⟩ := run_accounted run
  have clean : ∀ event t, (userSystem layout).step s event t → copyFailed event = false →
      ExactCounts t := by
    intro event t step clean
    obtain ⟨w', inv', -, accounts⟩ := step_performs inv step
    exact inv'.exact ((accounts.extra_eq clean).trans extra)
  refine ⟨inv.exact extra, fun event t step => ⟨⟨fun exact => ?_, clean event t step⟩,
    fun fits => clean event t step (spared_of_fits step fits)⟩⟩
  by_contra failed
  cases event with
  | forkFailed p copying =>
    obtain rfl : copying = true := by simpa [copyFailed] using failed
    obtain ⟨q, positive, more⟩ := copyFailed_inexact inv step
    exact absurd (exact q positive) (by omega)
  | _ => exact failed rfl

/-- Would `uvmcopy` give up in a `fork` by this process? -/
def copyGivesUp (layout : Layout) (p : Fin NPROC) (s : Sys) : Bool :=
  match allocproc layout s with
  | .ok (some np, s₁) =>
    match (s₁.proc p).pagetable, (s₁.proc np).pagetable with
    | some old, some new =>
      match uvmcopy layout old new (s₁.proc p).sz s₁.vm with
      | .ok (false, _) => true
      | _ => false
    | _, _ => false
  | _ => false

/-- A `fork` whose `uvmcopy` gives up fails there. -/
theorem fork_of_copyGivesUp (inv : SysInv layout noPages w s)
    (enabled : UserAction.fork.enabled s p)
    (short : copyGivesUp layout p s = true) :
    ∃ t, (userSystem layout).step s (.forkFailed p true) t := by
  have used : (s.proc p).state ≠ .unused := by
    rw [show (s.proc p).state = .alive from enabled]
    nofun
  have ends : Ends (fork layout p) s fun result _ => result = .noCopy := by
    unfold copyGivesUp at short
    unfold fork
    split at short
    · rename_i np s₁ allocated
      split at short
      · rename_i old new oldRoot newRoot
        split at short
        · rename_i vm₂ gaveUp
          intro result t ran
          rw [bind_of_ok allocated] at ran
          revert ran
          suffices ends : Ends _ s₁ fun result _ => result = ForkResult.noCopy from ends result t
          apply Ends.bind_reads
          apply Ends.bind_reads
          rw [oldRoot, newRoot]
          cases (s₁.proc p).trapframe with
          | none => exact .fail _
          | some tf =>
            cases (s₁.proc np).trapframe with
            | none => exact .fail _
            | some newtf =>
              have copied : Ends (uvmcopy layout old new (s₁.proc p).sz) s₁.vm fun ok _ =>
                  ok = false := fun ok vm ran =>
                (Prod.mk.inj (Except.ok.inj (gaveUp.symm.trans ran))).1.symm
              refine bind_memory_ends copied ?_
              rintro ok vm rfl
              have freed : Ends (freeproc layout np) { s₁ with vm := vm } fun _ _ => True :=
                fun _ _ _ => trivial
              exact .bind freed fun _ _ _ => .pure rfl
        · exact absurd short Bool.false_ne_true
      · exact absurd short Bool.false_ne_true
    · exact absurd short Bool.false_ne_true
  obtain ⟨result, t, ran, -⟩ := fork_spec inv used
  obtain rfl := ends result t ran
  exact ⟨t, p, .fork, enabled, bind_of_ok ran⟩

end Counts

/-- A machine with eleven pages beside the kernel. -/
def smallLayout : Layout := ⟨PHYSPAGES - 11, 0, by decide, by decide⟩

/-- The small machine boots, and then `uvmcopy` gives up in a `fork`. -/
theorem small_boots : ∃ s, (userSystem smallLayout).init s ∧ (s.proc s.initproc).state = .alive ∧
    copyGivesUp smallLayout s.initproc s = true := by
  have checked : bootsTo smallLayout 0 [1, 2, 3]
      (fun s => copyGivesUp smallLayout s.initproc s) = true := by decide +kernel
  exact exists_booted checked

theorem text_above : 0 < PHYSPAGES - 24 := by decide

theorem text_below : PHYSPAGES - 24 ≤ PHYSPAGES := by decide

/-- A machine with twenty-four pages beside the kernel. -/
def textLayout : Layout := ⟨PHYSPAGES - 24, 0, text_above, text_below⟩

instance enabledUser : (action : UserAction) → Decidable (action.enabled s p)
  | .release _ => inferInstanceAs (Decidable (_ ∧ _))
  | .fork | .exec .. | .growproc _ | .store .. | .load _ | .copyout .. | .copyin .. | .exit _
  | .wait _ | .hold => inferInstanceAs (Decidable (_ = _))

instance decidableForksFit : Decidable (ForksFit s event) := by
  unfold ForksFit
  split <;> infer_instance

/-- An operation of a process that may run it and does not panic. A `fork` finds enough pages. -/
def tryUser (layout : Layout) (s : Sys) (call : Fin NPROC × UserAction) :
    Option (Sys × UserEvent) :=
  (if call.2.enabled s call.1 then (call.2.run layout call.1 s).toOption else none).bind
    fun (event, t) => if ForksFit s event then some (t, event) else none

/-- The first process grows by a page and forks. Its child stores a byte: the first store faults. -/
def forkAndStore (s : Sys) : Option (Sys × List UserEvent) :=
  let child : Fin NPROC := ⟨1, one_lt_nproc⟩
  StepSystem.replay (tryUser textLayout) s [(s.initproc, .growproc 4096), (s.initproc, .fork),
    (child, .store 0 9), (child, .store 0 9)]

/-- Does all of that happen, and do the two then share their second page only? -/
def sharesPage (s : Sys) : Bool :=
  match forkAndStore s with
  | some (t, [.grew p sz, .forked parent np, .faulted child va, .stored writer there byte]) =>
    (parent = p && child = np && writer = np && np ≠ p && sz = 8192 && va = 0 && there = 0 &&
      byte = 9) && ((t.read p 0).map UserByte.byte = some 1 &&
      (t.read np 0).map UserByte.byte = some 9 && (t.proc p).sz = 8192 && (t.proc np).sz = 8192) &&
    (t.proc p).pagetable.any fun r => (leafPte t.vm r 4096).any fun pte =>
      mapsTo t p pte.pn 1 && mapsTo t np pte.pn 1 && t.vm.refcnt pte.pn = 2
  | _ => false

/-- A parent and a child that share a page, after the child has stored to another one. -/
theorem page_shared : ∃ s₀ s p np q,
    (((userSystem textLayout).startingAt s₀).restrict ForksFit).Exec
      [.grew p 8192, .forked p np, .faulted np 0, .stored np 0 9] s ∧
    ((s.read p 0).map UserByte.byte = some 1 ∧ (s.read np 0).map UserByte.byte = some 9 ∧
      (s.proc p).sz = 8192 ∧ (s.proc np).sz = 8192) ∧
    np ≠ p ∧ mapsTo s p q 1 = true ∧ mapsTo s np q 1 = true ∧ s.vm.refcnt q = 2 := by
  have checked : bootsTo textLayout 0 [1, 2, 3] sharesPage = true := by decide +kernel
  obtain ⟨s₀, start, -, shares⟩ := exists_booted checked
  unfold sharesPage at shares
  split at shares
  · rename_i s p sz parent np child va writer there byte replayed
    rw [Bool.and_eq_true, Bool.and_eq_true] at shares
    obtain ⟨⟨labels, memory⟩, page⟩ := shares
    simp only [Bool.and_eq_true, decide_eq_true_eq] at labels memory
    obtain ⟨⟨⟨⟨⟨⟨⟨rfl, rfl⟩, rfl⟩, other⟩, rfl⟩, rfl⟩, rfl⟩, rfl⟩ := labels
    obtain ⟨⟨⟨mine, theirs⟩, size⟩, size'⟩ := memory
    obtain ⟨r, -, page⟩ := (Option.any_eq_true _ _).mp page
    obtain ⟨pte, -, page⟩ := (Option.any_eq_true _ _).mp page
    simp only [Bool.and_eq_true, decide_eq_true_eq] at page
    obtain ⟨⟨here, shared⟩, count⟩ := page
    refine ⟨s₀, s, _, _, pte.pn, ?_, ⟨mine, theirs, size, size'⟩, other, here, shared, count⟩
    have first : (((userSystem textLayout).startingAt s₀).restrict ForksFit).Exec [] s₀ :=
      .start ⟨start, rfl⟩
    refine first.replay (fun s call t event tried => ?_) replayed
    obtain ⟨⟨event, t⟩, ran, rest⟩ := Option.bind_eq_some_iff.mp tried
    obtain ⟨fits, same⟩ := Option.ite_none_right_eq_some.mp rest
    cases same
    obtain ⟨enabled, ran⟩ := ok_of_try ran
    exact ⟨⟨_, _, enabled, ran⟩, fits⟩
  · exact absurd shares Bool.false_ne_true

/-- The address spaces of a parent that has grown and its child. -/
theorem address_spaces_small : ∃ s p np r r', (userSystem textLayout).Exec
      [.grew p 8192, .forked p np, .faulted np 0, .stored np 0 9] s ∧ np ≠ p ∧
    (s.proc p).pagetable = some r ∧ (s.proc np).pagetable = some r' ∧ ∀ va < MAXVA,
      ((leafPte s.vm r va).isSome ↔ InSpace 8192 va) ∧
      ((leafPte s.vm r' va).isSome ↔ InSpace 8192 va) := by
  obtain ⟨s₀, s, p, np, q, run, ⟨-, -, size, size'⟩, other, here, there, -⟩ := page_shared
  have run := run.unrestrict.started
  have table : ∀ p, mapsTo s p q 1 = true → ∃ r, (s.proc p).pagetable = some r := by
    intro p maps
    cases root : (s.proc p).pagetable with
    | none => simp [mapsTo, root] at maps
    | some r => exact ⟨r, rfl⟩
  obtain ⟨r, root⟩ := table p here
  obtain ⟨r', root'⟩ := table np there
  have spaces := (address_spaces run).1
  refine ⟨s, p, np, r, r', run, other, root, root', fun va low => ⟨?_, ?_⟩⟩
  · rw [← size]
    exact ((spaces p r root).1 va low).1
  · rw [← size']
    exact ((spaces np r' root').1 va low).1

/-- The page that parent and child share has two references and two mappings. -/
theorem refcnt_exact_small : ∃ s p np q, ((userSystem textLayout).restrict ForksFit).Exec
      [.grew p 8192, .forked p np, .faulted np 0, .stored np 0 9] s ∧
    ExactCounts s ∧ mapsTo s p q 1 ∧ mapsTo s np q 1 ∧ s.vm.refcnt q = 2 ∧ mappings s q = 2 := by
  obtain ⟨s₀, s, p, np, q, run, -, -, here, there, count⟩ := page_shared
  have run : ((userSystem textLayout).restrict ForksFit).Exec _ s :=
    run.mono (fun _ start => start.1) fun _ _ _ step => step
  have exact := (refcnt_exact run).1
  have mapped : 0 < mappings s q := by
    refine sum_pos' (fun _ _ => Nat.zero_le _) ⟨p, mem_univ p, card_pos.mpr ⟨1, ?_⟩⟩
    exact mem_filter.mpr ⟨mem_range.mpr (by decide), here⟩
  exact ⟨s, p, np, q, run, exact, here, there, count, (exact q mapped).symm.trans count⟩

/-- On the small machine the first `fork` fails inside `uvmcopy`, after which a page of the
parent has more references than mappings. -/
theorem refcnt_leaks : ∃ s p t, (userSystem smallLayout).Exec [] s ∧
    (userSystem smallLayout).step s (.forkFailed p true) t ∧
    ExactCounts s ∧ ∃ q, 0 < mappings t q ∧ mappings t q < t.vm.refcnt q := by
  obtain ⟨s, start, alive, short⟩ := small_boots
  obtain ⟨w, inv, extra⟩ := init_inv start
  obtain ⟨t, step⟩ := fork_of_copyGivesUp inv alive short
  exact ⟨s, s.initproc, t, .start start, step, inv.exact extra, copyFailed_inexact inv step⟩

/-- Every step has its `Effect`. -/
theorem run_effect (run : (userSystem layout).Exec trace s)
    (step : (userSystem layout).step s event t) : Effect s t event := by
  obtain ⟨w, inv⟩ := run_inv run
  obtain ⟨-, -, effect, -⟩ := step_performs inv step
  exact effect

/-- The `fork` that fails on the small machine. -/
theorem fork_effect : ∃ s p t, (userSystem smallLayout).Exec [] s ∧
    (userSystem smallLayout).step s (.forkFailed p true) t ∧ Effect s t (.forkFailed p true) := by
  obtain ⟨s, init, live, short⟩ := small_boots
  obtain ⟨w, inv, -⟩ := init_inv init
  obtain ⟨t, step⟩ := fork_of_copyGivesUp inv live short
  exact ⟨s, _, t, .start init, step, run_effect (.start init) step⟩

end Xv6Cos.Verif
