import Xv6Cos.Verif.ProcOps

/-!
# Boot

`kinit` puts the pages above the kernel on the free list, other parts of the kernel take some
of them, and `userinit` makes the first process. The invariant holds from then on.
-/

namespace Xv6Cos.Verif

open Kernel Spec Program Transition Function Finset StepSystem

variable {layout : Layout} {s : Sys}

/-- The world while `freerange` runs: the pages from the kernel's end up to here are free. -/
def bootWorld (layout : Layout) (pn : ℕ) : World where
  live := ∅
  space _ := Space.empty 0
  owner q := if layout.kend ≤ q ∧ q < pn then .free else .outside
  extra _ := 0

theorem bootWorld_live {pn : ℕ} {P : ℕ → Prop} : ∀ r ∈ (bootWorld layout pn).live, P r :=
  fun r live => absurd live (notMem_empty r)

theorem bootWorld_count (pn q : ℕ) : (bootWorld layout pn).count q = 0 :=
  count_eq_zero bootWorld_live

theorem bootWorld_linked (pn : ℕ) : ∀ q r level n, (bootWorld layout pn).owner q =
    .table r level n →
    r ∈ (bootWorld layout pn).live ∧ ((bootWorld layout pn).space r).node level n = some q := by
  intro q r level n table
  simp only [bootWorld] at table
  split at table <;> contradiction

theorem freerange_page {vm : Vm} {pn : ℕ} (rep : Rep layout (bootWorld layout pn) vm)
    (above : layout.kend ≤ pn) (below : pn < PHYSPAGES) :
    Rep layout (bootWorld layout (pn + 1))
      ({ vm with refcnt := update vm.refcnt pn 1 }.drop pn) := by
  have unlisted : pn ∉ vm.freelist := by
    have refs := rep.pages pn
    simp only [bootWorld, lt_irrefl, and_false, if_false, PageRefs] at refs
    exact refs.1
  rw [drop_last (update_self ..)]
  refine ⟨List.nodup_cons.mpr ⟨unlisted, rep.nodup⟩, fun q managed => ?_, fun q => ?_,
    bootWorld_live, bootWorld_live, bootWorld_live, bootWorld_live, bootWorld_linked _⟩
  · simp only [bootWorld] at managed
    by_cases here : layout.kend ≤ q ∧ q < pn + 1
    · omega
    · rw [if_neg here] at managed
      exact absurd rfl managed
  · rw [bootWorld_count]
    by_cases here : q = pn
    · simp [bootWorld, here, above, PageRefs]
    · have refs := rep.pages q
      rw [bootWorld_count] at refs
      have range : (layout.kend ≤ q ∧ q < pn + 1) ↔ (layout.kend ≤ q ∧ q < pn) := by omega
      simp only [bootWorld, range, List.mem_cons, here, false_or, update_of_ne here] at refs ⊢
      exact refs

theorem freerangeGo_spec : ∀ n pn vm, layout.kend ≤ pn → pn + n = PHYSPAGES →
    Rep layout (bootWorld layout pn) vm → Safe (freerangeGo layout pn n) vm fun _ vm' =>
      Rep layout (bootWorld layout PHYSPAGES) vm' := by
  intro n
  induction n with
  | zero =>
    rintro pn vm _ rfl rep
    exact .pure rep
  | succ n ih =>
    intro pn vm above total rep
    unfold freerangeGo
    apply Safe.bind_modifies
    apply Safe.bind_ok (kfree_ok ⟨above, by omega⟩ (by simp))
    exact ih (pn + 1) _ (by omega) (by omega) (freerange_page rep above (by omega))

/-- The kernel's state before `kinit`. -/
theorem reset_rep (mem : ℕ → Page) : Rep layout (bootWorld layout layout.kend)
    (Sys.reset mem).vm := by
  refine ⟨List.nodup_nil, fun q managed => ?_, fun q => ?_, bootWorld_live, bootWorld_live,
    bootWorld_live, bootWorld_live, bootWorld_linked _⟩
  · simp only [bootWorld] at managed
    rw [if_neg (by omega)] at managed
    exact absurd rfl managed
  · simp only [bootWorld, Sys.reset]
    rw [if_neg (by omega)]
    simp [PageRefs]

theorem kinit_inv (mem : ℕ → Page) : Safe (memory (kinit layout)) (.reset mem) fun _ s =>
    SysInv layout noPages (bootWorld layout PHYSPAGES) s := by
  have below := layout.below
  refine .mono (memory_safe (freerangeGo_spec _ _ _ le_rfl (by omega) (reset_rep mem))) ?_
  rintro _ s ⟨vm, rep, rfl⟩
  refine ⟨rep, fun p => .inl ⟨rfl, rfl, rfl, rfl⟩, bootWorld_live, nofun, nofun, nofun,
    List.nodup_nil, nofun, fun page kernel => ?_, fun q above below => ?_⟩
  · simp only [bootWorld] at kernel
    split at kernel <;> contradiction
  · simp only [bootWorld, if_pos (And.intro above below)]
    nofun

/-- The pages that other parts of the kernel allocate at boot. -/
theorem holdPages_inv : ∀ n w s, SysInv layout noPages w s → Ends (holdPages n) s fun _ t => ∃ w',
    SysInv layout noPages w' t ∧ w'.extra = w.extra := by
  intro n
  induction n with
  | zero => exact fun w s inv => .pure ⟨w, inv, rfl⟩
  | succ n ih =>
    intro w s inv
    refine .bind (memory_safe (kalloc_spec inv.rep)).ends ?_
    rintro page t ⟨vm', ⟨rfl, rfl, -⟩ | ⟨q, rfl, free, taken⟩, rfl⟩
    · exact .fail _
    · exact ih (w.setOwner q .kernel) _ (inv.hold free taken).1

section First

variable {w : World} {vm : Vm} {r : ℕ}

/-- `uvmfirst` maps a page at address 0, unless `mappages` fails without anyone noticing. -/
theorem uvmfirst_ends (src : List UInt8) (rep : Rep layout w vm) (live : r ∈ w.live)
    (unmapped : (w.space r).leaf 0 = none) :
    Ends (uvmfirst r src) vm fun _ vm' => ∃ w' q, w.owner q = .free ∧
      Updates layout {r} ∅ {q} w vm w' vm' ∧ ((w'.space r).leaf = (w.space r).leaf ∨
        ∃ pte, (w'.space r).leaf = update (w.space r).leaf 0 (some pte) ∧ pte.pn = q) := by
  have low : 0 < UPAGES := by rw [UPAGES_eq]; decide
  unfold uvmfirst
  by_cases large : PGSIZE ≤ src.length
  · rw [if_pos large]
    exact .fail _
  rw [if_neg large]
  refine .bind (kalloc_spec rep).ends ?_
  rintro page vm₁ (⟨rfl, rfl, -⟩ | ⟨q, rfl, free, taken⟩)
  · exact .fail _
  apply Safe.ends
  apply Safe.bind_modifies
  have mapped := mappages_zero live low unmapped
    (show LeafFlags (PTE_W ||| PTE_R ||| PTE_X ||| PTE_U ||| PTE_V) by decide) taken
  rw [Nat.zero_mul] at mapped
  refine .bind mapped ?_
  rintro ok vm₂ ⟨w', updates, -, outcome⟩
  have live' : r ∈ w'.live := by rwa [updates.live]
  have notTable : ∀ r' level n, w'.owner q ≠ .table r' level n := by
    intro r' level n
    rcases outcome with ⟨-, kernel, -⟩ | ⟨-, leaves⟩
    · rw [kernel]
      nofun
    · have entry : (w'.space r).leaf 0 =
          some ⟨q, PTE_W ||| PTE_R ||| PTE_X ||| PTE_U ||| PTE_V⟩ := by
        rw [leaves, update_self]
      have user : w'.owner q = .user := updates.rep.targets r live' 0 low _ entry
      rw [user]
      nofun
  have stored : ∀ page, Updates layout {r} ∅ {q} w' vm₂ w' (vm₂.setPage q page) := fun page =>
    ⟨updates.rep.setPage page notTable, .of_same_space rfl rfl (fun q' outside _ =>
      ⟨update_of_ne outside .., rfl⟩) fun _ _ _ => rfl, rfl, rfl⟩
  refine .modifies ⟨w', q, free, updates.trans (stored _), ?_⟩
  rcases outcome with ⟨-, -, leaves⟩ | ⟨-, leaves⟩
  · exact .inl leaves
  · exact .inr ⟨_, leaves, rfl⟩

end First

/-- The invariant holds after a boot that leaves the first process with memory. -/
theorem userinit_inv {w : World} {t : Sys} (initcode : List UInt8) (inv : SysInv layout noPages w s)
    (ran : userinit layout initcode s = .ok ((), t)) (mapped : (t.read t.initproc 0).isSome) :
    ∃ w', SysInv layout noPages w' t ∧ w'.extra = w.extra := by
  revert mapped
  revert ran
  suffices ends : Ends (userinit layout initcode) s fun _ t => (t.read t.initproc 0).isSome →
      ∃ w', SysInv layout noPages w' t ∧ w'.extra = w.extra from ends () t
  unfold userinit
  refine .bind (allocproc_spec inv).ends ?_
  rintro found s₁ ⟨w₁, inv₁, -, extra₁, rfl | ⟨p, r, tf, rfl, -, owns, size, -⟩⟩
  · exact .fail _
  have unmapped : ∀ v < UPAGES, (w₁.space r).leaf v = none := fun v low =>
    owns.shape.unmapped v (by rw [size, npages_zero]; exact Nat.zero_le v) low
  have low : 0 < UPAGES := by rw [UPAGES_eq]; decide
  apply Ends.bind_modifies
  apply Ends.bind_reads
  simp only [owns.pagetable, owns.trapframe]
  refine bind_memory_ends (uvmfirst_ends initcode inv₁.rep owns.live (unmapped 0 low)) ?_
  rintro _ vm₂ ⟨w₂, first, free, updates, leaves⟩
  have apart : tf ≠ first := by
    rintro rfl
    rw [owns.kernel] at free
    contradiction
  have kernel : w₂.owner tf = .kernel := (updates.frame.pages tf apart
    (not_private_kernel owns.kernel)).2.trans owns.kernel
  refine bind_memory_ends (setReg_spec 24 0 updates.rep kernel).ends fun _ vm₃ epc => ?_
  refine bind_memory_ends (setReg_spec 48 PGSIZE epc.rep kernel).ends fun _ vm₄ sp => ?_
  have live : r ∈ w₂.live := by rw [updates.live]; exact owns.live
  have done : ∀ t : Sys, t.vm = vm₄ → t.held = s₁.held → t.initproc = p →
      t.proc p = { s₁.proc p with sz := PGSIZE, state := .alive } →
      (∀ q ≠ p, t.proc q = s₁.proc q) → (t.read t.initproc 0).isSome →
      ∃ w', SysInv layout noPages w' t ∧ w'.extra = w.extra := by
    rintro t rfl held rfl entry others mapped
    have root : (t.proc t.initproc).pagetable = some r := by rw [entry]; exact owns.pagetable
    have start : t.read t.initproc 0 = (w₂.space r).bytes t.vm 0 := by
      rw [← userMemory_eq root (sp.rep.tables r live), userMemory,
        if_pos (lt_TRAPFRAME.mpr (by rwa [Nat.zero_div]))]
    rw [start, bytes_eq (by rwa [Nat.zero_div]), Nat.zero_div] at mapped
    rcases leaves with same | ⟨pte, leaves, rfl⟩
    · rw [same, unmapped 0 low] at mapped
      contradiction
    · have one : npages PGSIZE = 1 := by decide
      have given : ¬Retained (w₂.owner pte.pn) := by
        rw [updates.rep.targets r live 0 low pte (by rw [leaves, update_self])]
        exact not_retained_user
      have frame : Frame {r} ∅ {tf} w₁ s₁.vm w₂ t.vm :=
        ((updates.absorb (.inl free) given).frame.mono le_rfl le_rfl (Set.empty_subset _)).trans
          ((epc.trans sp).frame.mono (Set.empty_subset _) le_rfl le_rfl)
      have shape : Shape layout (w₂.space r) tf (t.proc t.initproc).sz := by
        rw [entry]
        refine owns.shape.of_user (by rw [one]; exact low) (fun v lowV => ?_) fun v above => ?_
        · rw [leaves, one]
          by_cases here : v = 0
          · simp [here]
          · rw [update_of_ne here, unmapped v lowV]
            simp [here]
        · rw [leaves, update_of_ne (by omega)]
      have owns' : Owns layout w₂ (t.proc t.initproc) r tf :=
        ⟨by simp [entry], root, by rw [entry]; exact owns.trapframe, live, kernel, shape⟩
      obtain ⟨inv', -⟩ := inv₁.touch owns sp.rep frame updates.live
        (Set.empty_subset _) le_rfl owns'
        others held
      exact ⟨w₂, inv', updates.extra.trans extra₁⟩
  refine fun _ t ran => ?_
  obtain ⟨-, rfl⟩ := Prod.mk.inj (Except.ok.inj ran)
  refine done _ rfl rfl rfl ?_ fun q other => setProc_of_ne other
  rw [setProc_self]
  simp only [owns.pagetable, owns.trapframe]

/-- The invariant holds initially, and page tables account for all references to user pages. -/
theorem init_inv (start : (userSystem layout).init s) :
    ∃ w, SysInv layout noPages w s ∧ w.extra = fun _ => 0 := by
  obtain ⟨mem, n, initcode, booted, mapped⟩ := start
  revert mapped
  revert booted
  suffices ends : Ends (boot layout n initcode) (.reset mem) fun _ t =>
      (t.read t.initproc 0).isSome → ∃ w, SysInv layout noPages w t ∧
      w.extra = fun _ => 0 from ends () s
  unfold boot
  refine .bind (kinit_inv mem).ends fun _ s₁ inv₁ => ?_
  refine .bind (holdPages_inv n _ s₁ inv₁) ?_
  rintro _ s₂ ⟨w₂, inv₂, extra₂⟩ ⟨⟩ t ran mapped
  obtain ⟨w₃, inv₃, extra₃⟩ := userinit_inv initcode inv₂ ran mapped
  exact ⟨w₃, inv₃, extra₃.trans extra₂⟩

/-- Does the machine boot, with memory for its first process, into a state that passes a check? -/
def bootsTo (layout : Layout) (n : ℕ) (initcode : List UInt8) (check : Sys → Bool) : Bool :=
  match boot layout n initcode (.reset fun _ _ => 0) with
  | .ok (_, s) => (s.read s.initproc 0).isSome && (s.proc s.initproc).state = .alive && check s
  | .error _ => false

/-- A boot that ends in a state with a property. -/
theorem exists_booted {n : ℕ} {initcode : List UInt8} {check : Sys → Bool}
    (checked : bootsTo layout n initcode check = true) : ∃ s, (userSystem layout).init s ∧
      (s.proc s.initproc).state = .alive ∧ check s = true := by
  unfold bootsTo at checked
  split at checked
  · rename_i s booted
    simp only [Bool.and_eq_true, decide_eq_true_eq] at checked
    exact ⟨s, ⟨_, _, _, booted, checked.1.1⟩, checked.1.2, checked.2⟩
  · exact absurd checked Bool.false_ne_true

/-- The machine boots and its first process then takes some actions: a run of a system that starts
where the machine has booted. -/
theorem booted_replay {σ label action ρ : Type} {sys : StepSystem σ label} (embed : Sys → σ)
    (initial : ∀ u, (userSystem layout).init u → sys.init (embed u))
    (next : Fin NPROC → σ → action → Option (label × σ))
    (steps : ∀ p s a t l, next p s a = some (l, t) → sys.step s l t) {start : ρ}
    {track : σ → ρ → label → ρ} {condition : σ → ρ → label → Prop}
    [∀ s r l, Decidable (condition s r l)] (actions : List action) (check : σ × ρ → Bool)
    (checked : bootsTo layout 0 [1, 2, 3] (fun u => (replay
      (recordNext (next u.initproc) track condition) (embed u, start) actions).any
      (check ·.1)) = true) :
    ∃ trace t r, (sys.recorded start track condition).Exec trace (t, r) ∧ check (t, r) = true := by
  obtain ⟨u, booted, -, found⟩ := exists_booted checked
  exact exists_replayed (steps u.initproc) (initial u booted) actions check found

end Xv6Cos.Verif
