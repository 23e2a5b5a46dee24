import Mathlib.Logic.Function.Basic
import Mathlib.Data.Nat.Notation

/-!
# Blocks that are owned once

Blocks are numbered. The first ones are reserved; each of the others is referred to from at most one
place, and is marked as used exactly if it is. The rules say how this survives when a place takes a
block that is not used, and when it gives its block up.
-/

namespace Ownership

open Function

variable {α : Type} {reserved size b : ℕ} {refers refers' : α → ℕ → Prop} {used used' : ℕ → Bool}

/-- Every used block is reserved or is referred to from one place. -/
structure Owned (reserved size : ℕ) (refers : α → ℕ → Prop) (used : ℕ → Bool) : Prop where
  range : ∀ a b, refers a b → reserved ≤ b ∧ b < size
  once : ∀ a a' b, refers a b → refers a' b → a = a'
  exact : ∀ b, b < size → (used b = true ↔ b < reserved ∨ ∃ a, refers a b)

namespace Owned

section

variable (owned : Owned reserved size refers used)

include owned

/-- Nothing refers to a block that is not used. -/
theorem free (inside : b < size) (unused : used b = false) : reserved ≤ b ∧ ∀ a, ¬refers a b := by
  have known := (owned.exact b inside).not.mp (by rw [unused]; decide)
  constructor
  · exact Nat.le_of_not_lt fun below => known (.inl below)
  · exact fun a there => known (.inr ⟨a, there⟩)

/-- A block that something refers to is used. -/
theorem used_of_refers {a : α} (there : refers a b) : used b = true :=
  (owned.exact b (owned.range a b there).2).mpr (.inr ⟨a, there⟩)

/-- The same references and marks, in other words. -/
theorem congr
    (references : ∀ a b, refers' a b ↔ refers a b) (marks : ∀ b, b < size → used' b = used b) :
    Owned reserved size refers' used' := by
  refine ⟨fun a b there => owned.range a b ((references a b).mp there), fun a a' b one other => ?_,
    fun b inside => ?_⟩
  · exact owned.once a a' b ((references a b).mp one) ((references a' b).mp other)
  · rw [marks b inside, owned.exact b inside]
    simp only [references]

/-- A place takes a block that is not used. -/
theorem take {place : α} (inside : b < size) (unused : used b = false)
    (references : ∀ a b', refers' a b' ↔ refers a b' ∨ a = place ∧ b' = b)
    (marks : ∀ b', b' < size → used' b' = update used b true b') :
    Owned reserved size refers' used' := by
  obtain ⟨above, none⟩ := owned.free inside unused
  refine ⟨fun a b' there => ?_, fun a a' b' one other => ?_, fun b' inside' => ?_⟩
  · rcases (references a b').mp there with old | ⟨-, rfl⟩
    · exact owned.range a b' old
    · exact ⟨above, inside⟩
  · rcases (references a b').mp one with old | ⟨rfl, rfl⟩
    · rcases (references a' b').mp other with old' | ⟨rfl, rfl⟩
      · exact owned.once a a' b' old old'
      · exact absurd old (none a)
    · rcases (references a' b').mp other with old' | ⟨rfl, -⟩
      · exact absurd old' (none a')
      · rfl
  · rw [marks b' inside']
    by_cases here : b' = b
    · rw [here, update_self]
      exact ⟨fun _ => .inr ⟨place, (references place b).mpr (.inr ⟨rfl, rfl⟩)⟩, fun _ => rfl⟩
    · rw [update_of_ne here, owned.exact b' inside']
      simp only [references, here, and_false, or_false]

/-- A block is given up. -/
theorem release (above : reserved ≤ b) (references : ∀ a b', refers' a b' ↔ refers a b' ∧ b' ≠ b)
    (marks : ∀ b', b' < size → used' b' = update used b false b') :
    Owned reserved size refers' used' := by
  refine ⟨fun a b' there => owned.range a b' ((references a b').mp there).1,
    fun a a' b' one other => ?_, fun b' inside => ?_⟩
  · exact owned.once a a' b' ((references a b').mp one).1 ((references a' b').mp other).1
  · rw [marks b' inside]
    by_cases here : b' = b
    · rw [here, update_self]
      refine ⟨nofun, ?_⟩
      rintro (below | ⟨a, there⟩)
      · exact absurd below (Nat.not_lt.mpr above)
      · exact absurd rfl ((references a b).mp there).2
    · rw [update_of_ne here, owned.exact b' inside]
      simp only [references, ne_eq, here, not_false_eq_true, and_true]

end

end Owned

end Ownership
