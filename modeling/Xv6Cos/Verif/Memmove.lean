import Mathlib.Tactic.SplitIfs
import Xv6Cos.Spec.Strings

/-!
# `memmove` moves bytes as if all were read first
-/

namespace Xv6Cos.Verif

open Spec Function BitVec

variable {mem : ByteMap} {d s : BitVec 64} {n : ℕ}

/-- No bytes to move. -/
theorem moved_zero : moved mem d s 0 = mem := by
  funext a
  rw [moved, if_neg (Nat.not_lt_zero _)]

/-- Upwards no byte may be written before it is read. -/
theorem copyUp_moved (fits : n ≤ 2 ^ 64)
    (clear : ∀ i < n, ∀ j < i, d + BitVec.ofNat 64 j ≠ s + BitVec.ofNat 64 i) :
    copyUp mem d s n = moved mem d s n := by
  induction n generalizing mem d s with
  | zero => rw [copyUp, moved_zero]
  | succ n ih =>
    rw [copyUp, ih (by omega)]
    · funext a
      by_cases first : a = d
      · have last : ¬(a - (d + 1)).toNat < n := by bv_omega
        simp only [moved]
        rw [if_neg last, first, update_self]
        simp
      · have inside : (a - (d + 1)).toNat < n ↔ (a - d).toNat < n + 1 := by bv_omega
        have next : s + 1 + (a - (d + 1)) = s + (a - d) := by bv_omega
        simp only [moved, inside, next]
        by_cases copied : (a - d).toNat < n + 1
        · have other := clear _ copied 0 (by bv_omega)
          simp only [ofNat_toNat, setWidth_eq] at other
          rw [if_pos copied, if_pos copied, update_of_ne]
          simpa using other.symm
        · rw [if_neg copied, if_neg copied, update_of_ne first]
    · intro i low j below
      have other := clear (i + 1) (by omega) (j + 1) (by omega)
      bv_omega

/-- Downwards no byte may be written before it is read. -/
theorem copyDown_moved (fits : n ≤ 2 ^ 64)
    (clear : ∀ i < n, ∀ j < i, s + BitVec.ofNat 64 j ≠ d + BitVec.ofNat 64 i) :
    copyDown mem (d + BitVec.ofNat 64 n) (s + BitVec.ofNat 64 n) n = moved mem d s n := by
  induction n generalizing mem with
  | zero => simp [copyDown, moved_zero]
  | succ n ih =>
    have back (x : BitVec 64) : x + BitVec.ofNat 64 (n + 1) - 1 = x + BitVec.ofNat 64 n := by
      bv_omega
    rw [copyDown, back, back, ih (by omega) fun i low => clear i (by omega)]
    funext a
    by_cases last : a = d + BitVec.ofNat 64 n
    · have offset : a - d = BitVec.ofNat 64 n := by bv_omega
      have outside : ¬(a - d).toNat < n := by bv_omega
      have inside : (a - d).toNat < n + 1 := by bv_omega
      simp only [moved]
      rw [if_neg outside, if_pos inside, offset, last, update_self]
    · have inside : (a - d).toNat < n ↔ (a - d).toNat < n + 1 := by bv_omega
      simp only [moved, inside]
      by_cases copied : (a - d).toNat < n + 1
      · have other := clear n (by omega) _ (inside.mpr copied)
        simp only [ofNat_toNat, setWidth_eq] at other
        rw [if_pos copied, if_pos copied, update_of_ne other]
      · rw [if_neg copied, if_neg copied, update_of_ne last]

section

variable {dst src : BitVec 64} {n : BitVec 32} (target : dst.toNat + n.toNat ≤ 2 ^ 64)
  (source : src.toNat + n.toNat ≤ 2 ^ 64)

include target source

theorem kernel_memmove : (Kernel.memmove mem dst src n).1 = moved mem dst src n.toNat := by
  have fits : n.toNat ≤ 2 ^ 64 := by omega
  rw [Kernel.memmove]
  split_ifs with none overlap
  · rw [none]
    exact moved_zero.symm
  · rw [← ofNat_toNat]
    exact copyDown_moved fits fun i low j below => by bv_omega
  · exact copyUp_moved fits fun i low j below => by bv_omega

/-- Both versions move the bytes as if all were read first, whatever the ranges share; but from 2³¹
bytes on the length of the library's version is negative, and it copies nothing. -/
theorem memmove_overlaps (mem : ByteMap) :
    (Kernel.memmove mem dst src n).1 = moved mem dst src n.toNat ∧
      (User.memmove mem dst src n).1 =
        if n.toNat < 2 ^ 31 then moved mem dst src n.toNat else mem := by
  refine ⟨kernel_memmove target source, ?_⟩
  rw [User.memmove]
  by_cases small : n.toNat < 2 ^ 31
  · have length : n.toInt.toNat = n.toNat := by
      rw [toInt_eq_toNat_of_lt (by omega), Int.toNat_natCast]
    have extended : n.signExtend 64 = BitVec.ofNat 64 n.toNat := by
      rw [signExtend_eq_setWidth_of_msb_false, ofNat_toNat]
      rw [msb_eq_decide, decide_eq_false_iff_not]
      omega
    rw [if_pos small, length, extended]
    split_ifs with up
    · exact copyUp_moved (by omega) fun i low j below => by bv_omega
    · exact copyDown_moved (by omega) fun i low j below => by bv_omega
  · have length : n.toInt.toNat = 0 := by
      rw [toInt_eq_toNat_cond, if_neg (by omega)]
      omega
    rw [if_neg small, length]
    split_ifs <;> rfl

end

/-- Three bytes move up by one. -/
theorem memmove_overlaps_three : (Kernel.memmove (·.setWidth 8) 1 0 3).1 3 = 2 ∧
    (User.memmove (·.setWidth 8) 1 0 3).1 3 = 2 := by
  have moves := @memmove_overlaps 1 0 3 (by decide) (by decide) (·.setWidth 8)
  rw [moves.1, moves.2]
  decide

/-- A length of 2³² - 1: only the kernel's version copies. -/
theorem memmove_differs : ∃ mem, (User.memmove mem 1 0 (-1)).1 1 = mem 1 ∧
    (Kernel.memmove mem 1 0 (-1)).1 1 ≠ mem 1 := by
  refine ⟨(·.setWidth 8), by decide, ?_⟩
  rw [kernel_memmove (by decide) (by decide)]
  decide

end Xv6Cos.Verif
