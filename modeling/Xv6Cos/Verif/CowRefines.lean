import Xv6Cos.Verif.UserRun
import Xv6Cos.Spec.EagerFork

/-!
# Copy-on-write refines eager copying

What an operation does to user memory, forgetting rights, is what the eager model does. So
every run has a run of the eager model with the same labels that ends with the same bytes.
-/

namespace Xv6Cos.Verif

open Kernel Spec Transition Function UserMemory List

variable {layout : Layout} {s₀ s t : Sys} {p : Fin NPROC} {trace : List UserEvent} {dst n : ℕ}
  {src : List UInt8} {event : UserEvent}

section Bytes

variable {m : UserMemory}

/-- Sharing keeps the bytes. -/
theorem byte_share (va : ℕ) : (m.share va).map UserByte.byte = (m va).map UserByte.byte := by
  unfold share
  cases m va <;> rfl

/-- A copy-on-write fault changes no byte. -/
theorem byte_own (va a : ℕ) : (m.own va a).map UserByte.byte = (m a).map UserByte.byte := by
  unfold own
  split
  · cases m a <;> rfl
  · rfl

/-- The bytes after `growproc`. -/
theorem byte_resize (sz va : ℕ) : (m.resize sz va).map UserByte.byte =
    if va < pgroundup sz then some (((m va).map UserByte.byte).getD 0) else none := by
  unfold resize
  split
  · cases m va <;> rfl
  · rfl

/-- The bytes after a store. -/
theorem byte_store {va : ℕ} {byte : UInt8} (mapped : (m va).isSome) (a : ℕ) :
    (m.store va byte a).map UserByte.byte =
      writeBytes (fun a => (m a).map UserByte.byte) va [byte] a := by
  unfold store writeBytes
  by_cases here : a = va
  · subst here
    obtain ⟨found, found_eq⟩ := Option.isSome_iff_exists.mp mapped
    simp [found_eq]
  · rw [update_of_ne here, if_neg]
    simp only [length_singleton]
    omega

/-- The bytes after `copyout`. -/
theorem byte_copy (bound : n ≤ src.length) (a : ℕ) :
    (m.copy dst n src a).map UserByte.byte =
      writeBytes (fun a => (m a).map UserByte.byte) dst (src.take n) a := by
  have page := Nat.div_add_mod' a PGSIZE
  have offset := Nat.mod_lt a (show 0 < PGSIZE by decide)
  unfold copy writeBytes
  rw [length_take_of_le bound]
  by_cases within : dst ≤ a ∧ a < dst + n
  · have touched : Touched dst n (a / PGSIZE) := by
      refine ⟨by omega, ?_, by omega⟩
      rw [Nat.add_mul]
      omega
    have index : a - dst < n := by omega
    rw [if_pos touched, if_pos within, if_pos within, getElem?_take_of_lt index,
      getD_eq_getElem?_getD, getElem?_eq_getElem (by omega)]
    rfl
  · rw [if_neg within, if_neg within]
    show _ = (m a).map UserByte.byte
    split
    · cases m a <;> rfl
    · rfl

end Bytes

/-- Memories that differ at most in one process. -/
theorem contents_update {m : ℕ → Option UInt8} (only : OnlyChanges p s t)
    (here : ∀ va, (userMemory t p va).map UserByte.byte = m va) :
    contents t = update (contents s) p m := by
  funext q va
  by_cases same : q = p
  · subst same
    rw [update_self]
    exact here va
  · rw [update_of_ne same]
    exact congrArg (Option.map UserByte.byte) (congrFun (only q same) va)

/-- A step that changes no memory. -/
theorem contents_unchanged (same : Unchanged s t) : contents t = contents s := by
  funext q va
  exact congrArg (Option.map UserByte.byte) (congrFun (same q) va)

/-- No byte of the process itself changes either. -/
theorem contents_same (only : OnlyChanges p s t) (here : ∀ va,
    (userMemory t p va).map UserByte.byte = (userMemory s p va).map UserByte.byte) :
    contents t = contents s := by
  rw [contents_update only here]
  exact update_eq_self p (contents s)

/-- The bytes after a copy to one process. -/
theorem contents_copied (only : OnlyChanges p s t) (copied : Copied s t p dst n src) : contents t =
      update (contents s) p (writeBytes (contents s p) dst (src.take n)) := by
  obtain ⟨bound, -, memory⟩ := copied
  apply contents_update only
  intro va
  rw [memory]
  exact byte_copy bound va

/-- What an operation does to user memory is, on bytes, a step of the eager model. -/
theorem effect_eager (effect : Effect s t event) : EagerStep (contents s) (contents t) event := by
  cases event with
  | forked p np =>
    obtain ⟨distinct, others, parent, child⟩ := effect
    show _ = _
    funext q va
    by_cases new : q = np
    · subst new
      rw [update_self, contents, child]
      exact byte_share va
    · rw [update_of_ne new]
      by_cases old : q = p
      · subst old
        rw [contents, parent]
        exact byte_share va
      · rw [contents, others q old new]
        rfl
  | forkFailed p copying =>
    obtain ⟨only, here⟩ := effect
    apply contents_same only
    intro va
    rcases here va with same | ⟨-, shared⟩
    · rw [same]
    · rw [shared]
      exact byte_share va
  | execed p sz image =>
    obtain ⟨only, -, rfl⟩ := effect
    apply contents_update only
    intro va
    unfold userMemory
    split <;> rfl
  | grew p sz =>
    obtain ⟨only, here⟩ := effect
    apply contents_update only
    intro va
    rw [here]
    exact byte_resize sz va
  | stored p va byte =>
    obtain ⟨only, ⟨found, mapped, -⟩, here⟩ := effect
    have some : (userMemory s p va).isSome := by rw [mapped]; rfl
    refine ⟨?_, ?_⟩
    · rw [contents, mapped]
      rfl
    · apply contents_update only
      intro a
      rw [here]
      exact byte_store some a
  | faulted p va =>
    obtain ⟨only, -, -, here⟩ := effect
    apply contents_same only
    intro a
    rw [here]
    exact byte_own va a
  | loaded p va byte =>
    obtain ⟨same, found, mapped, -, rfl⟩ := effect
    refine ⟨?_, contents_unchanged same⟩
    rw [contents, mapped]
    rfl
  | copiedOut p dst src ok =>
    obtain ⟨only, n, all, copied⟩ := effect
    exact ⟨n, copied.1, all, contents_copied only copied⟩
  | copiedIn p src bytes => exact ⟨contents_unchanged effect.1, effect.2⟩
  | waited p addr result =>
    cases result with
    | reaped pp pid xstate =>
      obtain ⟨distinct, others, gone, here⟩ := effect
      show _ = _
      funext q va
      by_cases child : q = pp
      · subst child
        rw [update_self, contents, gone]
        rfl
      · rw [update_of_ne child]
        by_cases self : q = p
        · subst self
          rw [update_self, contents]
          by_cases null : addr = 0
          · rw [if_pos null] at here ⊢
            rw [here]
            rfl
          · rw [if_neg null] at here ⊢
            obtain ⟨bound, -, memory⟩ := here
            rw [memory, byte_copy bound, take_of_length_le (length_intBytes _).le]
            rfl
        · rw [update_of_ne self, contents, others q self child]
          rfl
    | noCopy xstate =>
      obtain ⟨only, -, n, short, copied⟩ := effect
      exact ⟨n, short, contents_copied only copied⟩
    | noChildren | asleep => exact contents_unchanged effect
  | storeKilled p va => exact contents_unchanged effect.1
  | execFailed | growFailed | loadKilled | exited | held | released =>
    exact contents_unchanged effect

/-- A write by one process changes no memory of another. -/
theorem effect_isolated (effect : Effect s t event)
    (writes : writer event = some p) : OnlyChanges p s t := by
  cases event with
  | stored q | faulted q | copiedOut q =>
    obtain rfl : q = p := Option.some.inj writes
    exact effect.1
  | waited q addr result =>
    cases result with
    | noCopy xstate =>
      obtain rfl : q = p := Option.some.inj writes
      exact effect.1
    | _ => cases writes
  | _ => cases writes

/-- A user page that a page table may write is mapped there only. -/
theorem writable_once (run : (userSystem layout).Exec trace s) {p p' : Fin NPROC} {r r' v v' : ℕ}
    {pte pte' : Pte} (root : (s.proc p).pagetable = some r)
    (root' : (s.proc p').pagetable = some r') (low : v < TRAPFRAME / PGSIZE)
    (low' : v' < TRAPFRAME / PGSIZE) (leaf : leafPte s.vm r (v * PGSIZE) = some pte)
    (leaf' : leafPte s.vm r' (v' * PGSIZE) = some pte') (writes : pte.has PTE_W = true)
    (same : pte'.pn = pte.pn) : p' = p ∧ v' = v := by
  obtain ⟨w, inv⟩ := run_inv run
  have pages : TRAPFRAME / PGSIZE = UPAGES := by unfold UPAGES; rfl
  rw [pages] at low low'
  obtain ⟨tf, owns⟩ := inv.owns_root root
  obtain ⟨tf', owns'⟩ := inv.owns_root root'
  rw [leafPte_eq (inv.rep.tables r owns.live) (mul_PGSIZE_lt (upages_lt_maxva low)),
    mul_PGSIZE_div] at leaf
  rw [leafPte_eq (inv.rep.tables r' owns'.live) (mul_PGSIZE_lt (upages_lt_maxva low')),
    mul_PGSIZE_div] at leaf'
  obtain ⟨rfl, place⟩ :=
    inv.rep.writable_unique owns.live owns'.live low low' leaf leaf' same writes
  exact ⟨inv.tables p' p _ root' root, place⟩

/-- Every run has an eager run with the same labels, from the memory it starts with. -/
theorem run_eager (run : ((userSystem layout).startingAt s₀).Exec trace s) :
    (eagerSystem (contents s₀)).Exec trace (contents s) := by
  have both : (∃ w, SysInv layout noPages w s) ∧
      (eagerSystem (contents s₀)).Exec trace (contents s) := by
    refine run.invariant (fun trace s => (∃ w, SysInv layout noPages w s) ∧
      (eagerSystem (contents s₀)).Exec trace (contents s)) ?_ ?_
    · rintro s ⟨start, rfl⟩
      obtain ⟨w, inv, -⟩ := init_inv start
      exact ⟨⟨w, inv⟩, .start rfl⟩
    · rintro trace s event t ⟨⟨w, inv⟩, eager⟩ step
      obtain ⟨w', inv', effect, -⟩ := step_performs inv step
      exact ⟨⟨w', inv'⟩, eager.next (effect_eager effect)⟩
  exact both.2

/-- After every run each process reads, at each user address, the byte it reads after the run
of the eager model from the same memory with the same labels. No write is visible in another
process, and a page with `PTE_W` set is mapped by exactly one page table. -/
theorem cow_refines_eager (run : ((userSystem layout).startingAt s₀).Exec trace s) :
    (∃ m, (eagerSystem (contents s₀)).Exec trace m ∧
      ∀ p va, va < TRAPFRAME → (s.read p va).map UserByte.byte = m p va) ∧
    (∀ event t p, (userSystem layout).step s event t → writer event = some p →
      ∀ q ≠ p, ∀ va < TRAPFRAME, t.read q va = s.read q va) ∧
    ∀ p r v pte, (s.proc p).pagetable = some r → v < TRAPFRAME / PGSIZE →
      leafPte s.vm r (v * PGSIZE) = some pte → pte.has PTE_W = true →
      ∀ p' r' v' pte', (s.proc p').pagetable = some r' → v' < TRAPFRAME / PGSIZE →
        leafPte s.vm r' (v' * PGSIZE) = some pte' → pte'.pn = pte.pn → p' = p ∧ v' = v := by
  refine ⟨⟨contents s, run_eager run, fun p va low => ?_⟩,
    fun event t p step writes q other va low => ?_,
    fun p r v pte root low leaf writes p' r' v' pte' root' low' leaf' same =>
      writable_once run.started root root' low low' leaf leaf' writes same⟩
  · rw [contents, userMemory, if_pos low]
  · obtain ⟨w, inv⟩ := run_inv run.started
    obtain ⟨w', -, effect, -⟩ := step_performs inv step
    have same := congrFun (effect_isolated effect writes q other) va
    rwa [userMemory, userMemory, if_pos low, if_pos low] at same

/-- A child stores to a page that it shared with its parent, which still reads its own byte. -/
theorem cow_refines_eager_small : ∃ s₀ s p np m, ((userSystem textLayout).startingAt s₀).Exec
      [.grew p 8192, .forked p np, .faulted np 0, .stored np 0 9] s ∧
    (eagerSystem (contents s₀)).Exec
      [.grew p 8192, .forked p np, .faulted np 0, .stored np 0 9] m ∧
    m p 0 = some 1 ∧ m np 0 = some 9 ∧
    ∀ p va, va < TRAPFRAME → (s.read p va).map UserByte.byte = m p va := by
  obtain ⟨s₀, s, p, np, q, run, ⟨mine, theirs, -⟩, -⟩ := page_shared
  obtain ⟨m, eager, same⟩ := (cow_refines_eager run.unrestrict).1
  have low : 0 < TRAPFRAME := by decide
  exact ⟨s₀, s, p, np, m, run.unrestrict, eager, (same p 0 low).symm.trans mine,
    (same np 0 low).symm.trans theirs, same⟩

end Xv6Cos.Verif
