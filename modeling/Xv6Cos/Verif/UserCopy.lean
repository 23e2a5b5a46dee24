import Xv6Cos.Verif.Cow
import Xv6Cos.Spec.UserMemory

/-!
# Access to user memory

How the machine and the kernel find a user page, the copy that `cowfault` makes, and the bytes
that `copyout` and `copyin` move.
-/

namespace Xv6Cos.Verif

open Kernel Spec Program Function List Safe Updates Set Nat

variable {v dst m : ℕ} {pte : Pte} {src : List UInt8}

section Translate

variable {owner : ℕ → Owner} {vm : Vm} {r va : ℕ} {S : Space}

/-- The virtual page of an address, as the machine indexes page tables. -/
def vpage (va : ℕ) : ℕ := va / PGSIZE % 2 ^ 27

theorem nodeIndex_vpage (va : ℕ) : nodeIndex (vpage va) 2 = 0 := by
  simp only [nodeIndex, vpage]
  omega

theorem PX_zero_vpage (va : ℕ) : PX 0 va = vpage va % 512 := by
  rw [PX_zero, vpage]
  omega

theorem PX_succ_vpage (va : ℕ) {level : ℕ} (low : level < 2) :
    PX (level + 1) va = nodeIndex (vpage va) level % 512 := by
  rw [PX_succ, vpage]
  have cases : level = 0 ∨ level = 1 := by omega
  rcases cases with rfl | rfl <;> simp only [nodeIndex] <;> omega

theorem linkEntry_has (q : ℕ) (flags : BitVec 10) :
    (linkEntry (some q)).has flags = (PTE_V &&& flags != 0) := rfl

/-- The machine's walk ends at the entry of the virtual page. -/
theorem translateGo_eq (ok : TableOk owner vm r S) : ∀ level ≤ 2, ∀ q,
    S.node level (nodeIndex (vpage va) level) = some q →
    vm.translateGo va level q = (S.leaf (vpage va)).map fun pte => (0, pte) := by
  intro level
  induction level with
  | zero =>
    intro _ q here
    have read := ok.slots _ _ _ here (PX 0 va) (by rw [PX]; omega)
    rw [PX_zero_vpage, nodeIndex_zero, Space.slot, div_mod_512] at read
    unfold Vm.translateGo
    rw [PX_zero_vpage, read]
    cases leaf : S.leaf (vpage va) with
    | none => rfl
    | some pte =>
      have flags := (ok.leafOk _ _ leaf).2
      have readable : pte.has (PTE_R ||| PTE_W ||| PTE_X) = true := by
        have bit := flags.2
        simp only [Pte.has, bne_iff_ne, ne_eq] at bit ⊢
        intro zero
        apply bit
        rw [show PTE_R = (PTE_R ||| PTE_W ||| PTE_X) &&& PTE_R by decide, ← BitVec.and_assoc, zero]
        exact BitVec.zero_and
      simp only [leafEntry, flags.has_valid, Bool.not_true, Bool.false_eq_true, if_false, readable,
        if_true, Option.map_some]
  | succ level ih =>
    intro low q here
    have read := ok.slots _ _ _ here (PX (level + 1) va) (by rw [PX]; omega)
    rw [PX_succ_vpage va (by omega), Space.slot, nodeIndex_succ, div_mod_512] at read
    unfold Vm.translateGo
    rw [PX_succ_vpage va (by omega), read]
    cases next : S.node level (nodeIndex (vpage va) level) with
    | none =>
      have nothing : S.leaf (vpage va) = none := by
        by_contra some
        obtain ⟨pte, leaf⟩ := Option.ne_none_iff_exists'.mp some
        obtain ⟨a, node⟩ := ok.leafUp _ _ leaf
        rw [ok.missing (by omega) next] at node
        contradiction
      rw [nothing]
      rfl
    | some q' =>
      have step : (PTE_V &&& PTE_V != 0) = true ∧
          (PTE_V &&& (PTE_R ||| PTE_W ||| PTE_X) != 0) = false := by decide
      simp only [linkEntry_has, step, Bool.not_true, Bool.false_eq_true, if_false]
      exact ih (by omega) q' next

/-- The machine translates by the entry of the virtual page. -/
theorem translate_eq (ok : TableOk owner vm r S) (legal : canonical va = true) :
    vm.translate r va = (S.leaf (vpage va)).map fun pte => (0, pte) := by
  unfold Vm.translate
  rw [if_pos legal]
  exact translateGo_eq ok 2 le_rfl r (by rw [nodeIndex_vpage]; exact ok.root)

/-- The virtual page of an address below `MAXVA`. -/
theorem vpage_of_lt (low : va < MAXVA) : vpage va = va / PGSIZE := by
  simp only [vpage, MAXVA, PGSIZE] at *
  omega

end Translate

section Walkaddr

variable {owner : ℕ → Owner} {layout : Layout} {w : World} {vm : Vm} {r va : ℕ} {S : Space}

/-- The page that a user may access at a virtual page. -/
def userPage (S : Space) (v : ℕ) : Option ℕ :=
  (S.leaf v).bind fun pte => if pte.has PTE_U then some pte.pn else none

/-- `walk` below `MAXVA`, and the entry it leads to. -/
theorem walk_cases (ok : TableOk owner vm r S) (low : va < MAXVA) :
    (S.node 0 (va / PGSIZE / 512) = none ∧ S.leaf (va / PGSIZE) = none ∧
      walk r va false vm = .ok (none, vm)) ∨
    ∃ a, S.node 0 (va / PGSIZE / 512) = some a ∧
      walk r va false vm = .ok (some (a, va / PGSIZE % 512), vm) ∧
      vm.pte a (va / PGSIZE % 512) = leafEntry (S.leaf (va / PGSIZE)) := by
  obtain ⟨found, vm', ran, rfl, rfl⟩ := walk_find ok low
  cases node : S.node 0 (va / PGSIZE / 512) with
  | none =>
    rw [node] at ran
    refine .inl ⟨rfl, ?_, ran⟩
    by_contra some
    obtain ⟨pte, leaf⟩ := Option.ne_none_iff_exists'.mp some
    obtain ⟨a, here⟩ := ok.leafUp _ _ leaf
    rw [node] at here
    contradiction
  | some a =>
    rw [node] at ran
    exact .inr ⟨a, rfl, ran, ok.read node⟩

/-- `walkaddr` finds the user page. -/
theorem walkaddr_eq (va : ℕ) (ok : TableOk owner vm r S) : walkaddr r va vm =
    .ok (if MAXVA ≤ va then none else userPage S (va / PGSIZE), vm) := by
  unfold walkaddr
  by_cases high : MAXVA ≤ va
  · rw [if_pos high, if_pos high]
    rfl
  · rw [if_neg high, if_neg high]
    rcases walk_cases ok (Nat.lt_of_not_le high) with ⟨-, leaf, ran⟩ | ⟨a, -, ran, read⟩
    · rw [bind_of_ok ran, userPage, leaf]
      rfl
    · rw [bind_of_ok ran]
      show (if !(vm.pte a (va / PGSIZE % 512)).has PTE_V then pure none
        else if !(vm.pte a (va / PGSIZE % 512)).has PTE_U then pure none
        else pure (some (vm.pte a (va / PGSIZE % 512)).pn) : VmM (Option ℕ)) vm = _
      rw [read, userPage]
      cases leaf : S.leaf (va / PGSIZE) with
      | none => rfl
      | some pte =>
        have flags := (ok.leafOk _ _ leaf).2
        rw [leafEntry, if_neg (by simp [flags.has_valid]), Option.bind_some]
        by_cases user : pte.has PTE_U = true
        · rw [if_pos user, if_neg (by simp [user])]
          rfl
        · rw [if_neg user, if_pos (by simpa using user)]
          rfl

end Walkaddr

section Fault

variable {layout : Layout} {w : World} {vm : Vm} {r va : ℕ}

/-- The pages above user memory are not for the user. -/
def HighPrivate (S : Space) : Prop :=
  ∀ v pte, UPAGES ≤ v → S.leaf v = some pte → pte.has PTE_U = false

theorem HighPrivate.userPage_none (high : HighPrivate S) (above : UPAGES ≤ v) :
    userPage S v = none := by
  unfold userPage
  cases leaf : S.leaf v with
  | none => rfl
  | some pte => simp [high v pte above leaf]

theorem upages_le_of_maxva_le (above : MAXVA ≤ va) : UPAGES ≤ va / PGSIZE := by
  rw [UPAGES_eq]
  simp only [MAXVA, PGSIZE] at above ⊢
  omega

/-- `cowfault` fails exactly where the user has no page or no page is free; otherwise the user
gets a copy with all rights. -/
theorem cowfault_spec (rep : Rep layout w vm) (live : r ∈ w.live)
    (high : HighPrivate (w.space r)) : Safe (cowfault layout r va) vm fun ok vm' =>
    (ok = false ∧ vm' = vm ∧ (userPage (w.space r) (va / PGSIZE) = none ∨ vm.freelist = [])) ∨
    (ok = true ∧ va < MAXVA ∧ va / PGSIZE < UPAGES ∧ vm.freelist ≠ [] ∧ ∃ pte q w',
      (w.space r).leaf (va / PGSIZE) = some pte ∧ pte.has PTE_U = true ∧
      Updates layout {r} {(r, va / PGSIZE)} ∅ w vm w' vm' ∧
      (w'.space r).leaf = update (w.space r).leaf (va / PGSIZE) (some ⟨q, cowFlags⟩) ∧
      vm'.mem q = vm.mem pte.pn) := by
  have ok := rep.tables r live
  unfold cowfault
  by_cases beyond : MAXVA ≤ va
  · rw [if_pos beyond]
    exact .pure (.inl ⟨rfl, rfl, .inl (high.userPage_none (upages_le_of_maxva_le beyond))⟩)
  rw [if_neg beyond]
  have below := Nat.lt_of_not_le beyond
  rcases walk_cases ok below with ⟨-, leaf, ran⟩ | ⟨a, node, ran, read⟩
  · apply bind_ok ran
    refine .pure (.inl ⟨rfl, rfl, .inl ?_⟩)
    rw [userPage, leaf]
    rfl
  apply bind_ok ran
  apply bind_reads
  rw [read]
  cases leaf : (w.space r).leaf (va / PGSIZE) with
  | none =>
    refine .pure (.inl ⟨rfl, rfl, .inl ?_⟩)
    rw [userPage, leaf]
    rfl
  | some pte =>
    have flags := (ok.leafOk _ _ leaf).2
    cases userBit : pte.has PTE_U with
    | false =>
      simp only [leafEntry, userBit, Bool.not_false, Bool.true_or, if_true]
      refine .pure (.inl ⟨rfl, rfl, .inl ?_⟩)
      simp [userPage, leaf, userBit]
    | true =>
      simp only [leafEntry, userBit, flags.has_valid, Bool.not_true, Bool.or_self,
        Bool.false_eq_true, if_false]
      have low : va / PGSIZE < UPAGES := by
        by_contra above
        rw [high _ pte (by omega) leaf] at userBit
        contradiction
      have user := rep.targets r live _ low pte leaf
      refine .bind (kalloc_spec rep) ?_
      rintro page vm₁ (⟨rfl, rfl, empty⟩ | ⟨q, rfl, free, allocated⟩)
      · exact .pure (.inl ⟨rfl, rfl, .inr empty⟩)
      · apply bind_modifies
        apply bind_modifies
        have apart : pte.pn ≠ q := by
          intro same
          rw [← same, user] at free
          contradiction
        have kernel : (w.setOwner q .kernel).owner q = .kernel := World.setOwner_self ..
        have copied := setPage allocated.rep (vm₁.mem pte.pn) kernel
        obtain ⟨w', remapped, freed, leaves⟩ := remap copied.rep (r := r) live low node leaf
          kernel (show LeafFlags cowFlags by decide)
        apply bind_ok freed
        have source : vm₁.mem pte.pn = vm.mem pte.pn :=
          (allocated.frame.mapped_page live low leaf user (notMem_empty _) apart).1
        have table : a ≠ q := by
          rintro rfl
          rw [ok.own _ _ _ node] at free
          contradiction
        have whole := ((allocated.trans copied).mono (empty_subset _) (empty_subset _)
          le_rfl).trans remapped
        have given : ¬Retained (w'.owner q) := by
          have entry : (w'.space r).leaf (va / PGSIZE) = some ⟨q, cowFlags⟩ := by
            rw [leaves, update_self]
          rw [whole.rep.targets r (by rwa [whole.live]) _ low _ entry]
          exact not_retained_user
        refine .pure (.inr ⟨rfl, below, low, ?_, pte, q, w', rfl, userBit,
          whole.absorb (.inl free) given, leaves, ?_⟩)
        · intro empty
          have refs := rep.pages q
          rw [free, empty] at refs
          exact absurd refs.1 not_mem_nil
        · rw [drop_mem_of_ne apart.symm, setPte_mem_of_ne table.symm, ← source]
          exact update_self ..

end Fault

theorem Vm.setPage_self (vm : Vm) (q : ℕ) (page : Page) : (vm.setPage q page).mem q = page :=
  update_self ..

theorem cow_writes (q : ℕ) : (Pte.mk q cowFlags).has PTE_W = true := by
  show (cowFlags &&& PTE_W != 0) = true
  decide

theorem cow_user (q : ℕ) : (Pte.mk q cowFlags).has PTE_U = true := by
  show (cowFlags &&& PTE_U != 0) = true
  decide

section Copyout

variable {layout : Layout} {w : World} {vm : Vm} {r : ℕ}

/-- The bytes of a virtual page before and after a copy of the first `n` bytes of `src` to
`dst`. -/
def Overwrites (dst n : ℕ) (src : List UInt8) (u : ℕ) (before after : Page) : Prop :=
  ∀ k < PGSIZE, after k =
    if dst ≤ u * PGSIZE + k ∧ u * PGSIZE + k < dst + n then src.getD (u * PGSIZE + k - dst) 0
    else before k

/-- The result of `copyout` when `n` bytes arrived. -/
structure CopiedOut (layout : Layout) (r dst n : ℕ) (src : List UInt8) (w : World) (vm : Vm)
    (w' : World) (vm' : Vm) : Prop extends
    Updates layout {r} {m | m.1 = r ∧ Touched dst n m.2} ∅ w vm w' vm' where
  fits : n ≤ src.length
  untouched : ∀ u, ¬Touched dst n u → (w'.space r).leaf u = (w.space r).leaf u
  copied : ∀ u, Touched dst n u → u < UPAGES ∧ ∃ pte q, (w.space r).leaf u = some pte ∧
    pte.has PTE_U = true ∧ (w'.space r).leaf u = some ⟨q, cowFlags⟩ ∧
    Overwrites dst n src u (vm.mem pte.pn) (vm'.mem q)

theorem CopiedOut.nothing (rep : Rep layout w vm) (dst : ℕ) (src : List UInt8) :
    CopiedOut layout r dst 0 src w vm w vm :=
  ⟨.refl rep, zero_le _, fun _ _ => rfl, fun _ touched => absurd touched.1 (lt_irrefl 0)⟩

/-- A user page that only one mapping refers to is overwritten. -/
theorem Updates.store (rep : Rep layout w vm) (page : Page) (live : r ∈ w.live)
    (low : v < UPAGES) (leaf : (w.space r).leaf v = some pte) (writes : pte.has PTE_W = true) :
    Updates layout {r} {(r, v)} ∅ w vm w (vm.setPage pte.pn page) := by
  have user := rep.targets r live v low pte leaf
  refine ⟨rep.setPage page fun _ _ _ => by rw [user]; nofun, ?_, rfl, rfl⟩
  refine .of_same_space rfl rfl (fun q _ shared => ⟨update_of_ne ?_ .., rfl⟩)
    fun _ _ _ => rfl
  rintro rfl
  refine shared (.inr (.inr ⟨user, fun r' live' v' low' pte' leaf' same => ?_⟩))
  obtain ⟨rfl, rfl⟩ := rep.writable_unique live live' low low' leaf leaf' same writes
  rfl

/-- The bytes of one page of `copyout`. -/
theorem store_overwrites (page : Page) (dst m : ℕ) (src : List UInt8)
    (filled : m = 0 ∨ PGSIZE - dst % PGSIZE < src.length) :
    Overwrites dst (min (PGSIZE - dst % PGSIZE) src.length + m) src (dst / PGSIZE) page
      (Page.store page (dst % PGSIZE) (src.take (min (PGSIZE - dst % PGSIZE) src.length))) := by
  intro k bound
  have split := div_add_mod' dst PGSIZE
  have offset := Nat.mod_lt dst (show 0 < PGSIZE by decide)
  unfold Page.store
  by_cases before : dst % PGSIZE ≤ k
  · rw [if_pos before, List.getElem?_take]
    by_cases within : k - dst % PGSIZE < min (PGSIZE - dst % PGSIZE) src.length
    · have index : dst / PGSIZE * PGSIZE + k - dst = k - dst % PGSIZE := by omega
      rw [if_pos within, if_pos ⟨by omega, by omega⟩, getD_eq_getElem?_getD, index,
        List.getElem?_eq_getElem (by omega)]
      rfl
    · rw [if_neg within, if_neg (by omega)]
      rfl
  · rw [if_neg before, if_neg (by omega)]

/-- A copy that goes on at the next page. -/
theorem Overwrites.later {n u : ℕ} {before after : Page}
    (rest : Overwrites (dst + n) m (src.drop n) u before after) (above : dst + n ≤ u * PGSIZE) :
    Overwrites dst (n + m) src u before after := by
  intro k bound
  rw [rest k bound]
  by_cases within : u * PGSIZE + k < dst + n + m
  · rw [if_pos ⟨by omega, within⟩, if_pos ⟨by omega, by omega⟩, getD_eq_getElem?_getD,
      getD_eq_getElem?_getD, List.getElem?_drop]
    congr 2
    omega
  · rw [if_neg (by omega), if_neg (by omega)]

/-- One page of `copyout`, and the rest. -/
theorem CopiedOut.page {q : ℕ} {w₁ w₂ : World}
    {vm₁ vm₂ : Vm} (live : r ∈ w.live) (nonempty : src ≠ []) (low : dst / PGSIZE < UPAGES)
    (leaf : (w.space r).leaf (dst / PGSIZE) = some pte) (userBit : pte.has PTE_U = true)
    (rep : Rep layout w vm) (fault : Updates layout {r} {(r, dst / PGSIZE)} ∅ w vm w₁ vm₁)
    (leaves : (w₁.space r).leaf =
      update (w.space r).leaf (dst / PGSIZE) (some ⟨q, cowFlags⟩))
    (contents : vm₁.mem q = vm.mem pte.pn)
    (rest : CopiedOut layout r (dst / PGSIZE * PGSIZE + PGSIZE) m
      (src.drop (min (PGSIZE - dst % PGSIZE) src.length)) w₁ (vm₁.setPage q (Page.store (vm₁.mem q)
        (dst % PGSIZE) (src.take (min (PGSIZE - dst % PGSIZE) src.length)))) w₂ vm₂) :
    CopiedOut layout r dst (min (PGSIZE - dst % PGSIZE) src.length + m) src w vm w₂ vm₂ := by
  have split := div_add_mod' dst PGSIZE
  have offset := Nat.mod_lt dst (show 0 < PGSIZE by decide)
  have length : 0 < src.length := length_pos_iff.mpr nonempty
  have live₁ : r ∈ w₁.live := by rwa [fault.live]
  have entry : (w₁.space r).leaf (dst / PGSIZE) = some ⟨q, cowFlags⟩ := by
    rw [leaves, update_self]
  have others : ∀ u, u ≠ dst / PGSIZE →
    (w₁.space r).leaf u = (w.space r).leaf u := fun u other => by
    rw [leaves, update_of_ne other]
  have fits := rest.fits
  rw [length_drop] at fits
  -- the copy reaches the next page only after filling this one
  have filled : m = 0 ∨ PGSIZE - dst % PGSIZE < src.length := by omega
  have here : Touched dst (min (PGSIZE - dst % PGSIZE) src.length + m) (dst / PGSIZE) :=
    ⟨by omega, by rw [add_mul]; omega, by omega⟩
  have notLater : ¬Touched (dst / PGSIZE * PGSIZE + PGSIZE) m (dst / PGSIZE) := by
    rintro ⟨-, before, -⟩
    rw [add_mul] at before
    omega
  have later : ∀ u, u ≠ dst / PGSIZE → (Touched (dst / PGSIZE * PGSIZE + PGSIZE) m u ↔
      Touched dst (min (PGSIZE - dst % PGSIZE) src.length + m) u) := by
    intro u other
    simp only [Touched, PGSIZE] at filled other ⊢
    omega
  have stored := store fault.rep (Page.store (vm₁.mem q) (dst % PGSIZE)
    (src.take (min (PGSIZE - dst % PGSIZE) src.length))) live₁ low entry (cow_writes q)
  have sub : ({(r, dst / PGSIZE)} : Set (ℕ × ℕ)) ⊆
      {n | n.1 = r ∧ Touched dst (min (PGSIZE - dst % PGSIZE) src.length + m) n.2} := by
    rintro _ rfl
    exact ⟨rfl, here⟩
  have subLater : {n : ℕ × ℕ | n.1 = r ∧ Touched (dst / PGSIZE * PGSIZE + PGSIZE) m n.2} ⊆
      {n | n.1 = r ∧ Touched dst (min (PGSIZE - dst % PGSIZE) src.length + m) n.2} := by
    rintro ⟨r', u⟩ ⟨root, touched⟩
    have other : u ≠ dst / PGSIZE := by
      rintro rfl
      exact notLater touched
    exact ⟨root, (later u other).mp touched⟩
  have first := (fault.trans stored).mono le_rfl sub le_rfl
  refine ⟨first.trans (rest.toUpdates.mono le_rfl subLater le_rfl), by omega, fun u untouched => ?_,
    fun u touched => ?_⟩
  · have other : u ≠ dst / PGSIZE := by
      rintro rfl
      exact untouched here
    rw [rest.untouched u fun touched => untouched ((later u other).mp touched), others u other]
  · by_cases other : u = dst / PGSIZE
    · subst other
      have final := (rest.untouched _ notLater).trans entry
      have user := fault.rep.targets r live₁ _ low _ entry
      have kept := (rest.frame.mapped_page live₁ low entry user (fun mem => notLater mem.2)
        (notMem_empty _)).1
      refine ⟨low, pte, q, leaf, userBit, final, ?_⟩
      rw [kept, ← contents, Vm.setPage_self]
      exact store_overwrites (vm₁.mem q) dst m src filled
    · have touched' := (later u other).mpr touched
      obtain ⟨lowU, pteU, qU, leafU, userU, leafU', bytes⟩ := rest.copied u touched'
      rw [others u other] at leafU
      have kept := ((fault.trans stored).frame.mapped_page live lowU leafU
        (rep.targets r live u lowU pteU leafU)
        (fun mem => other (congrArg Prod.snd (mem_singleton_iff.mp mem))) (notMem_empty _)).1
      refine ⟨lowU, pteU, qU, leafU, userU, leafU', ?_⟩
      rw [kept] at bytes
      have next : dst / PGSIZE * PGSIZE + PGSIZE = dst +
        min (PGSIZE - dst % PGSIZE) src.length := by
        have some := touched'.1
        omega
      rw [next] at bytes
      refine bytes.later ?_
      have above := touched'.2.1
      rw [next, add_mul] at above
      simp only [PGSIZE] at *
      omega

theorem copyoutGo_spec : ∀ fuel dst (src : List UInt8) w vm, src.length ≤ fuel → Rep layout w vm →
    r ∈ w.live → HighPrivate (w.space r) →
    Safe (copyoutGo layout r fuel dst src) vm fun ok vm' => ∃ n w',
      (ok = true ↔ n = src.length) ∧
      (n = 0 ↔ src = [] ∨ userPage (w.space r) (dst / PGSIZE) = none ∨ vm.freelist = []) ∧
      CopiedOut layout r dst n src w vm w' vm' := by
  intro fuel
  induction fuel with
  | zero =>
    intro dst src w vm short rep live _
    obtain rfl : src = [] := length_eq_zero_iff.mp (by omega)
    exact .pure ⟨0, w, by simp, by simp, .nothing rep dst []⟩
  | succ fuel ih =>
    intro dst src w vm short rep live high
    match src with
    | [] => exact .pure ⟨0, w, by simp, by simp, .nothing rep dst []⟩
    | byte :: bytes =>
      have failed : userPage (w.space r) (dst / PGSIZE) = none ∨ vm.freelist = [] →
          ∃ n w', (false = true ↔ n = (byte :: bytes).length) ∧
            (n = 0 ↔ byte :: bytes = [] ∨ userPage (w.space r) (dst / PGSIZE) = none ∨
              vm.freelist = []) ∧
            CopiedOut layout r dst n (byte :: bytes) w vm w' vm :=
        fun reason => ⟨0, w, by simp, by simp [reason], .nothing rep dst _⟩
      have page : pgrounddown dst / PGSIZE = dst / PGSIZE := mul_PGSIZE_div _
      have offset : dst - pgrounddown dst = dst % PGSIZE := by
        have split := div_add_mod' dst PGSIZE
        rw [pgrounddown]
        omega
      unfold copyoutGo
      simp only
      split
      · rename_i above
        have high' := upages_le_of_maxva_le above.le
        rw [page] at high'
        exact .pure (failed (.inl (high.userPage_none high')))
      · refine .bind (cowfault_spec rep live high) ?_
        rintro ok vm₁ (⟨rfl, rfl, reason⟩ | ⟨rfl, below, low, free, pte, q, w₁,
          leaf, userBit, fault,
          leaves, contents⟩)
        · rw [page] at reason
          exact .pure (failed reason)
        · rw [page] at low leaf fault leaves
          have live₁ : r ∈ w₁.live := by rwa [fault.live]
          have entry : (w₁.space r).leaf (dst / PGSIZE) = some ⟨q, cowFlags⟩ := by
            rw [leaves, update_self]
          have found : userPage (w₁.space r) (dst / PGSIZE) = some q := by
            rw [userPage, entry]
            exact if_pos (cow_user q)
          have address := walkaddr_eq (pgrounddown dst) (fault.rep.tables r live₁)
          rw [if_neg (by omega), page, found] at address
          apply bind_ok address
          apply bind_modifies
          rw [offset]
          have stored := store fault.rep (Page.store (vm₁.mem q) (dst % PGSIZE)
            ((byte :: bytes).take (min (PGSIZE - dst % PGSIZE) (byte :: bytes).length))) live₁ low
              entry (cow_writes q)
          have high₁ : HighPrivate (w₁.space r) := by
            intro u pteU above leafU
            rw [leaves, update_of_ne (by omega)] at leafU
            exact high u pteU above leafU
          have positive : 0 < PGSIZE - dst % PGSIZE :=
            Nat.sub_pos_of_lt (Nat.mod_lt _ (by decide))
          refine .mono (ih _ _ w₁ _ ?_ stored.rep live₁ high₁) ?_
          · rw [length_drop]
            simp only [length_cons] at short ⊢
            omega
          · rintro ok vm₂ ⟨m, w₂, all, -, rest⟩
            refine ⟨min (PGSIZE - dst % PGSIZE) (byte :: bytes).length + m, w₂, ?_, ?_, .page live
              (by simp) low leaf userBit rep fault leaves contents rest⟩
            · rw [all, length_drop]
              simp only [length_cons]
              omega
            · simp only [userPage, leaf, Option.bind_some, userBit, if_true, reduceCtorEq, free,
                or_self, iff_false, length_cons]
              omega

/-- `copyout` writes the first bytes of the source, all of them if it succeeds, and none of them
exactly if the first page is not the user's or no page is free. -/
theorem copyout_spec (dst : ℕ) (src : List UInt8) (rep : Rep layout w vm) (live : r ∈ w.live)
    (high : HighPrivate (w.space r)) :
    Safe (copyout layout r dst src) vm fun ok vm' => ∃ n w', (ok = true ↔ n = src.length) ∧
      (n = 0 ↔ src = [] ∨ userPage (w.space r) (dst / PGSIZE) = none ∨ vm.freelist = []) ∧
      CopiedOut layout r dst n src w vm w' vm' :=
  copyoutGo_spec src.length dst src w vm le_rfl rep live high

end Copyout

end Xv6Cos.Verif
