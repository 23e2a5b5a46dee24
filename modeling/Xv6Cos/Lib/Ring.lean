import Mathlib.Data.List.Basic
import Mathlib.Data.Nat.ModEq

/-!
# Ring buffers with wrapping counters

A ring of `capacity` slots is addressed by two counters that only ever grow and are stored
modulo `modulus`. `Holds` relates the slots and the stored counters to the whole histories
of the values put in and taken out. When the capacity divides the modulus and is smaller
than it, the equality tests on stored counters decide emptiness and fullness, and storing
and fetching through the stored counters extends the two histories in order. The histories
have no length bound, so the counters may wrap any number of times.
-/

namespace Ring

open List Function Nat

variable {α : Type} {capacity modulus : Nat} [NeZero capacity] {x : α}

/-- The slots and stored counters of a ring that has received `put` and delivered `taken`. -/
structure Holds (capacity modulus : Nat) [NeZero capacity] (data : Fin capacity → α)
    (nread nwrite : Nat) (put taken : List α) : Prop where
  /-- The read counter counts the delivered values. -/
  read : nread = taken.length % modulus
  /-- The write counter counts the received values. -/
  written : nwrite = put.length % modulus
  /-- Values leave in the order in which they came. -/
  order : taken <+: put
  /-- No more values are waiting than there are slots. -/
  room : put.length ≤ taken.length + capacity
  /-- Every waiting value is in the slot its position names. -/
  slots : ∀ k (inside : k < put.length), taken.length ≤ k →
    data (Fin.ofNat capacity k) = put[k]

variable {data : Fin capacity → α} {nread nwrite : Nat} {put taken : List α}

/-- A fresh ring holds nothing, whatever its slots contain. -/
theorem holds_empty (data : Fin capacity → α) : Holds capacity modulus data 0 0 [] [] where
  read := by simp
  written := by simp
  order := prefix_refl _
  room := by simp
  slots k inside _ := by simp at inside

/-- Two positions less than one capacity apart share no slot. -/
theorem slot_ne {i j : Nat} (apart : i < j) (close : j < i + capacity) :
    Fin.ofNat capacity i ≠ Fin.ofNat capacity j := by
  intro same
  have value : i % capacity = j % capacity := congrArg Fin.val same
  have whole : capacity ∣ j - i := (modEq_iff_dvd' apart.le).mp value
  have large := le_of_dvd (by omega) whole
  omega

/-- A position reduced modulo a multiple of the capacity names the same slot. -/
theorem slot_mod (divides : capacity ∣ modulus) (k : Nat) :
    Fin.ofNat capacity (k % modulus) = Fin.ofNat capacity k :=
  Fin.ext (mod_mod_of_dvd k divides)

namespace Holds

variable (holds : Holds capacity modulus data nread nwrite put taken)
include holds

/-- Delivered values never outnumber received ones. -/
theorem taken_le : taken.length ≤ put.length := holds.order.length_le

/-- The difference of the stored counters is the number of waiting values. -/
theorem occupancy (small : capacity < modulus) :
    (modulus - nread + nwrite) % modulus = put.length - taken.length := by
  have ordered := holds.taken_le
  have room := holds.room
  have bound := mod_lt taken.length (show 0 < modulus by omega)
  have readParts := div_add_mod taken.length modulus
  have split : put.length = taken.length + (put.length - taken.length) := by omega
  have shifted : modulus - taken.length % modulus + put.length =
      (put.length - taken.length) + modulus * (taken.length / modulus + 1) := by
    rw [mul_add, mul_one]
    omega
  calc (modulus - nread + nwrite) % modulus
      = (modulus - taken.length % modulus + put.length) % modulus := by
        rw [holds.read, holds.written, Nat.add_mod_mod]
    _ = (put.length - taken.length) % modulus := by rw [shifted, add_mul_mod_self_left]
    _ = put.length - taken.length := mod_eq_of_lt (by omega)

/-- Equal stored counters mean that nothing is waiting. -/
theorem empty_iff (small : capacity < modulus) : nread = nwrite ↔ taken.length = put.length := by
  have count := holds.occupancy small
  have ordered := holds.taken_le
  constructor
  · intro same
    have bound : nread < modulus := by
      rw [holds.read]
      exact mod_lt _ (by omega)
    rw [← same, Nat.sub_add_cancel bound.le, Nat.mod_self] at count
    omega
  · intro same
    rw [holds.read, holds.written, same]

/-- The write counter is a capacity ahead of the read counter exactly when every slot is in
use. -/
theorem full_iff (small : capacity < modulus) :
    nwrite = (nread + capacity) % modulus ↔ put.length = taken.length + capacity := by
  have count := holds.occupancy small
  have ordered := holds.taken_le
  have bound : nread < modulus := by
    rw [holds.read]
    exact mod_lt _ (by omega)
  constructor
  · intro ahead
    rw [ahead, Nat.add_mod_mod, ← Nat.add_assoc, Nat.sub_add_cancel bound.le,
      add_mod_left, mod_eq_of_lt small] at count
    omega
  · intro full
    rw [holds.read, holds.written, full, mod_add_mod]

/-- Storing through the write counter, when a slot is free, extends the received history. -/
theorem push (divides : capacity ∣ modulus) (x : α) (free : put.length < taken.length + capacity) :
    Holds capacity modulus (update data (Fin.ofNat capacity nwrite) x) nread
      ((nwrite + 1) % modulus) (put ++ [x]) taken where
  read := holds.read
  written := by rw [holds.written, mod_add_mod, length_append, length_singleton]
  order := holds.order.trans (prefix_append _ _)
  room := by
    rw [length_append, length_singleton]
    omega
  slots k inside later := by
    have slot : Fin.ofNat capacity nwrite = Fin.ofNat capacity put.length := by
      rw [holds.written, slot_mod divides]
    rw [slot]
    rw [length_append, length_singleton] at inside
    rcases lt_or_eq_of_le (Nat.lt_succ_iff.mp inside) with old | new
    · rw [update_of_ne (slot_ne old (by omega)), getElem_append_left old]
      exact holds.slots k old later
    · subst new
      simp

/-- Fetching through the read counter, when a value is waiting, yields the oldest one and
extends the delivered history by it. -/
theorem pop (divides : capacity ∣ modulus) (waiting : taken.length < put.length) :
    Holds capacity modulus data ((nread + 1) % modulus) nwrite put
      (taken ++ [data (Fin.ofNat capacity nread)]) where
  read := by rw [holds.read, mod_add_mod, length_append, length_singleton]
  written := holds.written
  order := by
    have oldest : data (Fin.ofNat capacity nread) = put[taken.length] := by
      rw [holds.read, slot_mod divides]
      exact holds.slots _ waiting le_rfl
    rw [oldest]
    obtain ⟨rest, rfl⟩ := holds.order
    cases rest with
    | nil => simp at waiting
    | cons first rest =>
      rw [getElem_append_right le_rfl]
      exact ⟨rest, by simp⟩
  room := by
    have := holds.room
    rw [length_append, length_singleton]
    omega
  slots k inside later := by
    rw [length_append, length_singleton] at later
    exact holds.slots k inside (by omega)

end Holds

/-- The values that are waiting in a ring, in order, whatever went through it before. -/
def Queue (capacity modulus : Nat) [NeZero capacity] (data : Fin capacity → α)
    (nread nwrite : Nat) (waiting : List α) : Prop :=
  ∃ taken, Holds capacity modulus data nread nwrite (taken ++ waiting) taken

namespace Queue

variable {waiting : List α}

/-- Nothing waits in a fresh ring. -/
theorem empty (data : Fin capacity → α) : Queue capacity modulus data 0 0 [] :=
  ⟨[], holds_empty data⟩

/-- Equal stored counters mean that nothing is waiting. -/
theorem eq_nil_iff (queue : Queue capacity modulus data nread nwrite waiting)
    (small : capacity < modulus) : nread = nwrite ↔ waiting = [] := by
  obtain ⟨taken, holds⟩ := queue
  rw [holds.empty_iff small, length_append, ← length_eq_zero_iff]
  omega

/-- A value is stored behind the others. -/
theorem push (queue : Queue capacity modulus data nread nwrite waiting)
    (divides : capacity ∣ modulus) (x : α) (free : waiting.length < capacity) :
    Queue capacity modulus (update data (Fin.ofNat capacity nwrite) x) nread
      ((nwrite + 1) % modulus) (waiting ++ [x]) := by
  obtain ⟨taken, holds⟩ := queue
  have pushed := holds.push divides x (by rw [length_append]; omega)
  exact ⟨taken, append_assoc .. ▸ pushed⟩

section

variable (queue : Queue capacity modulus data nread nwrite (x :: waiting))
  (divides : capacity ∣ modulus)

include queue divides

/-- The value that leaves next. -/
theorem front : data (Fin.ofNat capacity nread) = x := by
  obtain ⟨taken, holds⟩ := queue
  have slot := holds.slots taken.length (by simp) le_rfl
  rw [holds.read, slot_mod divides, slot, getElem_append_right le_rfl]
  simp

/-- The first value is fetched. -/
theorem pop :
    Queue capacity modulus data ((nread + 1) % modulus) nwrite waiting := by
  have first := queue.front divides
  obtain ⟨taken, holds⟩ := queue
  have popped := holds.pop divides (by simp)
  rw [first, append_cons] at popped
  exact ⟨_, popped⟩

end

end Queue

end Ring
