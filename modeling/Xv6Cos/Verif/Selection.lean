import Mathlib.Order.Fin.Basic
import Xv6Cos.Kernel.Selection

/-!
# Selection

Each loop ends with the first of the least runnable processes, and with its lock.
-/

namespace Xv6Cos.Verif

open Kernel Function List

section Selection

variable {κ : Type} {table : Fin NPROC → Candidate} {key : Candidate → κ} {least : κ}
  {before : Scan κ → κ → Bool} {s : Scan κ} {seen : List (Fin NPROC)} {p : Fin NPROC}

theorem unlock_ok (locked : s.held p = true) :
    s.release p = .ok { s with held := update s.held p false } := by
  rw [Scan.release, if_pos locked]

/-- The loop keeps one of the two locks that it has. -/
theorem giveUp_spec (fresh : s.chosen ≠ some p)
    (held : ∀ q, s.held q = true ↔ q = p ∨ s.chosen = some q) :
    ∃ t, s.giveUp = .ok t ∧ ∀ q, t.held q = true ↔ q = p := by
  unfold Scan.giveUp
  split
  · rename_i r here
    refine ⟨_, unlock_ok ((held r).mpr (.inr here)), fun q => ?_⟩
    have other : r ≠ p := fun same => fresh (same ▸ here)
    by_cases same : q = r
    · simp [same, other]
    · simp [same, held, here, Ne.symm same]
  · rename_i here
    refine ⟨s, rfl, fun q => ?_⟩
    simp [held, here]

variable [LinearOrder κ]

/-- Among the entries `seen` the loop has chosen the first of the least, and has its lock. -/
structure Selected (table : Fin NPROC → Candidate) (key : Candidate → κ) (s : Scan κ)
    (seen : List (Fin NPROC)) : Prop where
  none_iff : s.chosen = none ↔ ∀ q ∈ seen, (table q).state ≠ .runnable
  chosen : ∀ p, s.chosen = some p → p ∈ seen ∧ (table p).state = .runnable ∧
    ∀ q ∈ seen, (table q).state = .runnable →
      key (table p) ≤ key (table q) ∧ (key (table q) = key (table p) → p ≤ q)
  held : ∀ q, s.held q = true ↔ s.chosen = some q

/-- What the loop remembers is the key of the process that it has chosen. -/
structure ScanInv (table : Fin NPROC → Candidate) (key : Candidate → κ) (least : κ) (s : Scan κ)
    (seen : List (Fin NPROC)) : Prop extends Selected table key s seen where
  initial : s.chosen = none → s.least = least
  current : ∀ p, s.chosen = some p → s.least = key (table p)

variable (right : ∀ (s : Scan κ) p, (s.chosen = none → s.least = least) →
  (before s (key (table p)) = true ↔ s.chosen = none ∨ key (table p) < s.least))

include right

/-- A loop at its next entry. -/
theorem look_spec (inv : ScanInv table key least s seen) (later : ∀ q ∈ seen, q < p) :
    ∃ t, Scan.look table key before s p = .ok t ∧ ScanInv table key least t (seen ++ [p]) := by
  have fresh : s.chosen ≠ some p := by
    intro same
    exact lt_irrefl p (later p (inv.chosen p same).1)
  have unlocked : s.held p = false := by
    rw [← Bool.not_eq_true, inv.held]
    exact fresh
  let s₁ : Scan κ := { s with held := update s.held p true }
  have acquired : s.acquire p = .ok s₁ := by rw [Scan.acquire, unlocked]; rfl
  have step : Scan.look table key before s p =
      if (table p).state = .runnable ∧ before s₁ (key (table p)) then
        s₁.giveUp >>= fun s => pure { s with chosen := some p, least := key (table p) }
      else s₁.release p := by
    rw [Scan.look, acquired]
    rfl
  rw [step]
  by_cases takes : (table p).state = .runnable ∧ before s₁ (key (table p)) = true
  · rw [if_pos takes]
    -- the lock of the process found before is given up
    obtain ⟨t, gave, held⟩ := giveUp_spec (s := s₁) (p := p) fresh fun q => by
      by_cases same : q = p
      · simp [s₁, same]
      · simp [s₁, same, inv.held]
    refine ⟨{ t with chosen := some p, least := key (table p) }, by rw [gave]; rfl,
      ⟨?_, ?_, fun q => ?_⟩, nofun, ?_⟩
    · simp only [reduceCtorEq, false_iff, not_forall]
      exact ⟨p, mem_append_right _ (mem_singleton_self p), fun not => not takes.1⟩
    · rintro r ⟨⟩
      refine ⟨by simp, takes.1, fun q mem runnable => ?_⟩
      rcases mem_append.mp mem with old | new
      · rcases (right s₁ p inv.initial).mp takes.2 with none | less
        · exact absurd runnable (inv.none_iff.mp none q old)
        · cases here : s.chosen with
          | none => exact absurd runnable (inv.none_iff.mp here q old)
          | some r =>
            change key (table p) < s.least at less
            rw [inv.current r here] at less
            have strict := less.trans_le ((inv.chosen r here).2.2 q old runnable).1
            exact ⟨strict.le, fun same => absurd same strict.ne'⟩
      · rw [mem_singleton.mp new]
        exact ⟨le_rfl, fun _ => le_rfl⟩
    · rw [held, Option.some_inj, eq_comm]
    · rintro r ⟨⟩
      rfl
  · rw [if_neg takes]
    have locked : s₁.held p = true := update_self ..
    have same : ({ s₁ with held := update s₁.held p false } : Scan κ) = s := by
      change ({ s with held := update (update s.held p true) p false } : Scan κ) = s
      rw [update_idem, ← unlocked, update_eq_self]
    have right := right s₁ p inv.initial
    refine ⟨s, by rw [unlock_ok locked, same], ⟨?_, fun r here => ?_, inv.held⟩, inv.initial,
      inv.current⟩
    · rw [inv.none_iff]
      constructor
      · intro none q mem runnable
        rcases mem_append.mp mem with old | new
        · exact none q old runnable
        · rw [mem_singleton.mp new] at runnable
          exact takes ⟨runnable, right.mpr (.inl (inv.none_iff.mpr none))⟩
      · exact fun none q mem => none q (mem_append_left _ mem)
    · obtain ⟨mem, runs, best⟩ := inv.chosen r here
      refine ⟨mem_append_left _ mem, runs, fun q mem' runnable => ?_⟩
      rcases mem_append.mp mem' with old | new
      · exact best q old runnable
      · rw [mem_singleton.mp new] at runnable ⊢
        have notLess : ¬key (table p) < s.least := fun less =>
          takes ⟨runnable, right.mpr (.inr less)⟩
        rw [inv.current r here] at notLess
        exact ⟨not_lt.mp notLess, fun _ => (later r mem).le⟩

/-- A loop over entries in order. -/
theorem foldlM_spec {rest : List (Fin NPROC)} (inv : ScanInv table key least s seen)
    (sorted : (seen ++ rest).Pairwise (· < ·)) : ∃ t,
      rest.foldlM (Scan.look table key before) s = .ok t ∧
      ScanInv table key least t (seen ++ rest) := by
  induction rest generalizing s seen with
  | nil => exact ⟨s, rfl, by rwa [append_nil]⟩
  | cons p rest ih =>
    have later : ∀ q ∈ seen, q < p := fun q mem =>
      (pairwise_append.mp sorted).2.2 q mem p mem_cons_self
    obtain ⟨u, looked, inv'⟩ := look_spec right inv later
    rw [append_cons] at sorted ⊢
    obtain ⟨t, ran, last⟩ := ih inv' sorted
    exact ⟨t, by rw [foldlM_cons, looked]; exact ran, last⟩

/-- A whole loop, and the release of the lock after the chosen process has run. -/
theorem loop_spec : ∃ t, Scan.loop table key before least = .ok t ∧
    Selected table key t (finRange NPROC) ∧
    ∃ u, t.giveUp = .ok u ∧ ∀ q, u.held q = false := by
  have start : ScanInv table key least ⟨none, least, fun _ => false⟩ [] :=
    ⟨⟨by simp, nofun, by simp⟩, fun _ => rfl, nofun⟩
  obtain ⟨t, ran, inv⟩ := foldlM_spec right start (pairwise_lt_finRange NPROC)
  refine ⟨t, ran, inv.toSelected, ?_⟩
  unfold Scan.giveUp
  split
  · rename_i p here
    refine ⟨_, unlock_ok ((inv.held p).mpr here), fun q => ?_⟩
    by_cases same : q = p
    · simp [same]
    · simpa [same, ← inv.held] using fun other =>
        same (Option.some.inj (here.symm.trans other)).symm
  · rename_i here
    refine ⟨t, rfl, fun q => ?_⟩
    rw [← Bool.not_eq_true, inv.held, here]
    nofun

omit right in
theorem dynamicPriority_bounds (static sleep rtime : BitVec 32) :
    0 ≤ dynamicPriority static sleep rtime ∧ dynamicPriority static sleep rtime ≤ 100 := by
  unfold dynamicPriority
  dsimp only
  split_ifs <;> omega

end Selection

/-- FCFS chooses the runnable process with the least creation time, PBS the one with the least
priority, both the first of them. No lock is acquired or released wrongly, that of the chosen
process is held at the end of the loop, and none after the process has run. -/
theorem selection_loops (table : Fin NPROC → Candidate) :
    (∃ t, fcfsScan table = .ok t ∧ Selected table Candidate.created t (List.finRange NPROC) ∧
      ∃ u, t.giveUp = .ok u ∧ ∀ q, u.held q = false) ∧
    ∃ t, pbsScan table = .ok t ∧ Selected table Candidate.priority t (List.finRange NPROC) ∧
      ∃ u, t.giveUp = .ok u ∧ ∀ q, u.held q = false := by
  refine ⟨loop_spec fun s p _ => by simp, loop_spec fun s p initial => ?_⟩
  have bound := (dynamicPriority_bounds (table p).staticPriority (table p).sleepTime
    (table p).rtime).2
  rw [decide_eq_true_eq, iff_or_self]
  intro none
  rw [initial none, Candidate.priority]
  omega

end Xv6Cos.Verif
