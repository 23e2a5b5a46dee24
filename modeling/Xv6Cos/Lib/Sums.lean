import Mathlib.Algebra.BigOperators.Group.Finset.Basic

/-!
# Sums in which one term changes, and counts

Balances of counters are sums of what each party holds; an operation changes one party's
share. The rule is stated without subtraction. What is counted in a list may be counted class by
class, and is at most one if it has one place.
-/

namespace Sums

open Finset List

variable {ι : Type} {s : Finset ι} {f g : ι → ℕ} {i : ι}

/-- Two sums that differ in one term differ by that term. -/
theorem sum_change [DecidableEq ι] (mem : i ∈ s) (same : ∀ j ∈ s, j ≠ i → g j = f j) :
    ∑ j ∈ s, g j + f i = ∑ j ∈ s, f j + g i := by
  have before := add_sum_erase s f mem
  have after := add_sum_erase s g mem
  have rest : ∑ j ∈ s.erase i, g j = ∑ j ∈ s.erase i, f j :=
    sum_congr rfl fun j other => same j (mem_of_mem_erase other) (ne_of_mem_erase other)
  omega

variable {α : Type} {l : List α} {P : α → Bool}

/-- Count class by class, if everything counted is in one class. -/
theorem countP_eq_sum (Q : ι → α → Bool)
    (classes : ∀ a ∈ l, (if P a then 1 else 0) = ∑ j ∈ s, if Q j a then 1 else 0) :
    l.countP P = ∑ j ∈ s, l.countP (Q j) := by
  induction l with
  | nil => simp
  | cons a rest ih =>
    simp only [countP_cons, sum_add_distrib]
    rw [ih fun b mem => classes b (mem_cons_of_mem _ mem), classes a mem_cons_self]

/-- What has at most one place in a list is counted at most once. -/
theorem countP_le_one (unique : ∀ (j k : ℕ) a b, l[j]? = some a → l[k]? = some b →
    P a → P b → j = k) :
    l.countP P ≤ 1 := by
  induction l with
  | nil => exact Nat.zero_le 1
  | cons first rest ih =>
    rw [countP_cons]
    split
    case isTrue hit =>
      have none : rest.countP P = 0 := by
        rw [countP_eq_zero]
        intro a mem other
        obtain ⟨k, found⟩ := getElem?_of_mem mem
        exact absurd (unique 0 (k + 1) first a rfl found hit other) (Nat.succ_ne_zero k).symm
      rw [none]
    case isFalse =>
      apply ih
      intro j k a b one two hit other
      exact Nat.succ.inj (unique (j + 1) (k + 1) a b one two hit other)

/-- What is counted at most once has at most one place. -/
theorem place_unique (once : l.countP P ≤ 1) {j k : ℕ} {a b : α} (one : l[j]? = some a)
    (two : l[k]? = some b) (hit : P a) (other : P b) : j = k := by
  induction l generalizing j k with
  | nil => contradiction
  | cons first rest ih =>
    have later : ∀ {i c}, rest[i]? = some c → P c → 0 < rest.countP P := fun found meant =>
      countP_pos_iff.mpr ⟨_, mem_of_getElem? found, meant⟩
    rw [countP_cons] at once
    match j, k with
    | 0, 0 => rfl
    | 0, k + 1 =>
      cases one
      rw [if_pos hit] at once
      have positive := later two other
      omega
    | j + 1, 0 =>
      cases two
      rw [if_pos other] at once
      have positive := later one hit
      omega
    | j + 1, k + 1 => rw [ih (by omega) one two]

end Sums
