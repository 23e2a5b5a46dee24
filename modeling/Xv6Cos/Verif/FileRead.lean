import Xv6Cos.Verif.BlockAlloc

/-!
# `readi` returns the bytes of the file

Where all blocks of the range are there, `readi` allocates nothing and leaves the disk as it is.
-/

namespace Xv6Cos.Verif

open Kernel Spec Bytes Program List Disk Nat

variable {sb : Superblock} {s : Disk} {i : ℕ}

section Reach

theorem reach_le (mapped : ℕ → Bool) (start len : ℕ) : reach mapped start len ≤ len := by
  have shorter := (takeWhile_sublist (fun k => mapped (start + k)) (l := List.range len)).length_le
  rwa [length_range] at shorter

/-- What is copied can be copied, and what comes next cannot. -/
theorem reach_mapped (mapped : ℕ → Bool) (start len : ℕ) :
    (∀ k, k < reach mapped start len → mapped (start + k) = true) ∧
    (reach mapped start len < len → mapped (start + reach mapped start len) = false) := by
  induction len generalizing start with
  | zero => exact ⟨fun k below => absurd below (not_lt_zero k), fun less => absurd less (by simp)⟩
  | succ len ih =>
    have step : reach mapped start (len + 1) =
        if mapped start then reach mapped (start + 1) len + 1 else 0 := by
      simp only [reach, range_succ_eq_map, takeWhile_cons, add_zero,
        takeWhile_map, Function.comp_def, succ_eq_add_one]
      split
      · simp only [length_cons, length_map, add_assoc, add_comm 1]
      · rfl
    obtain ⟨inside, after⟩ := ih (start + 1)
    rw [step]
    split
    · rename_i first
      refine ⟨fun k below => ?_, fun less => ?_⟩
      · cases k with
        | zero => exact first
        | succ k =>
          have rest := inside k (by omega)
          rwa [add_assoc, add_comm 1] at rest
      · have rest := after (by omega)
        rwa [add_assoc, add_comm 1] at rest
    · rename_i first
      exact ⟨fun k below => absurd below (not_lt_zero k), fun _ => by simpa using first⟩

end Reach

/-- The bytes of a file from `lo` up to `hi`. -/
def bytesOf (img : ℕ → Block) (d : Dinode) (lo hi : ℕ) : List UInt8 :=
  (List.range' lo (hi - lo)).map (byteOf img d)

theorem bytesOf_append {img : ℕ → Block} {d : Dinode} {lo mid hi : ℕ} (first : lo ≤ mid)
    (second : mid ≤ hi) : bytesOf img d lo mid ++ bytesOf img d mid hi = bytesOf img d lo hi := by
  rw [bytesOf, bytesOf, bytesOf, ← map_append]
  have parts : hi - lo = (mid - lo) + (hi - mid) := by omega
  rw [parts, ← List.range'_append_1]
  congr 3
  omega

/-- A range within one block. -/
theorem bytesOf_block (img : ℕ → Block) (d : Dinode) {off len : ℕ}
    (fits : off % BSIZE + len ≤ BSIZE) :
    (List.range len).map (fun k => img (blockOf img d (off / BSIZE)) (off % BSIZE + k)) =
      bytesOf img d off (off + len) := by
  rw [bytesOf, Nat.add_sub_cancel_left, List.range'_eq_map_range, map_map]
  refine map_congr_left fun k inside => ?_
  have below := mem_range.mp inside
  have block : (off + k) / BSIZE = off / BSIZE := by
    unfold BSIZE at *
    omega
  have within : (off + k) % BSIZE = off % BSIZE + k := by
    unfold BSIZE at *
    omega
  rw [Function.comp_apply, byteOf, block, within]

section Readi

variable {dst : ℕ → Bool} {base n : ℕ}

/-- The loop copies up to the first byte of the destination that cannot be written. -/
theorem readiGo_spec {fuel tot : ℕ} {out : List UInt8} (enough : n - tot ≤ fuel) (bound : tot ≤ n)
    (present : ∀ k, k < n → blockOf s.image (s.icache i).copy ((base + k) / BSIZE) ≠ 0) :
    ∃ stop, tot ≤ stop ∧ stop ≤ n ∧ (stop < n → dst stop = false) ∧
      readiGo sb i dst n fuel tot (base + tot) out s =
        .ok ((if stop < n then -1 else (n : Int),
          out ++ bytesOf s.image (s.icache i).copy (base + tot) (base + stop)), s) := by
  induction fuel generalizing tot out with
  | zero =>
    have done : tot = n := by omega
    refine ⟨n, bound, le_rfl, fun less => absurd less (lt_irrefl n), ?_⟩
    rw [done, if_neg (lt_irrefl n), bytesOf, Nat.sub_self, List.range'_zero, map_nil, append_nil]
    rfl
  | succ fuel ih =>
    by_cases more : tot < n
    · let m := min (n - tot) (BSIZE - (base + tot) % BSIZE)
      let copied := reach dst tot m
      have within : (base + tot) % BSIZE < BSIZE := mod_lt _ (by decide)
      have small : copied ≤ m := reach_le dst tot m
      obtain ⟨-, after⟩ := reach_mapped dst tot m
      have room : (base + tot) % BSIZE + copied ≤ BSIZE := by omega
      have found := bmap_present sb (present tot more)
      have chunk := bytesOf_block s.image (s.icache i).copy room
      have step : readiGo sb i dst n (fuel + 1) tot (base + tot) out s =
          (if copied < m then pure (-1, out ++ bytesOf s.image (s.icache i).copy (base + tot)
            (base + tot + copied))
          else readiGo sb i dst n fuel (tot + m) (base + tot + m) (out ++
            bytesOf s.image (s.icache i).copy (base + tot) (base + tot + copied)) :
            DiskProg (Int × List UInt8)) s := by
        rw [readiGo, if_pos more, bind_of_ok found, if_neg (present tot more), ← chunk]
        rfl
      by_cases short : copied < m
      · refine ⟨tot + copied, by omega, by omega, fun _ => after short, ?_⟩
        rw [step, if_pos short, if_pos (by omega), add_assoc]
        rfl
      · obtain ⟨stop, lower, upper, blocked, ran⟩ := @ih (tot + m)
          (out ++ bytesOf s.image (s.icache i).copy (base + tot) (base + tot + copied))
          (by omega) (by omega)
        refine ⟨stop, by omega, upper, blocked, ?_⟩
        have full : copied = m := by omega
        rw [step, if_neg short, full, add_assoc base tot m]
        rw [full, add_assoc base tot m] at ran
        rw [ran, append_assoc, bytesOf_append (by omega) (by omega)]
    · have done : tot = n := by omega
      refine ⟨n, bound, le_rfl, fun less => absurd less (lt_irrefl n), ?_⟩
      rw [readiGo, if_neg more, done, if_neg (lt_irrefl n), bytesOf, Nat.sub_self,
        List.range'_zero, map_nil, append_nil]
      rfl

/-- What `readi` reads of a request. -/
def readLength (size off n : ℕ) : ℕ :=
  if size < off ∨ (off + n) % 2 ^ 32 < off then 0
  else if size < (off + n) % 2 ^ 32 then size - off else n

section Request

variable {off len : ℕ} (request : readLength (s.icache i).copy.size.toNat off n = len)
  (present : ∀ k < len, blockOf s.image (s.icache i).copy ((off + k) / BSIZE) ≠ 0)

include request present

/-- `readi` of blocks that are all there. -/
theorem readi_spec : ∃ stop ≤ len, (stop < len → dst stop = false) ∧ readi sb i dst off n s =
    .ok ((if stop < len then -1 else (len : Int),
      bytesOf s.image (s.icache i).copy off (off + stop)), s) := by
  subst request
  have ran : inode i s = .ok ((s.icache i).copy, s) := rfl
  by_cases outside : (s.icache i).copy.size.toNat < off ∨ (off + n) % 2 ^ 32 < off
  · have none : readLength (s.icache i).copy.size.toNat off n = 0 := if_pos outside
    rw [none]
    refine ⟨0, le_rfl, fun less => absurd less (lt_irrefl 0), ?_⟩
    rw [Disk.readi, bind_of_ok ran, if_pos outside, bytesOf, add_zero, Nat.sub_self,
      List.range'_zero, map_nil, if_neg (lt_irrefl 0)]
    rfl
  · have length : readLength (s.icache i).copy.size.toNat off n =
        if (s.icache i).copy.size.toNat < (off + n) % 2 ^ 32 then
          (s.icache i).copy.size.toNat - off else n := if_neg outside
    obtain ⟨stop, -, upper, blocked, done⟩ := @readiGo_spec sb s i dst off _ _ 0 []
      (le_refl _) (zero_le _) present
    refine ⟨stop, upper, blocked, ?_⟩
    rw [Disk.readi, bind_of_ok ran, if_neg outside, ← length]
    exact done

/-- `readi` to a destination that can be written. -/
theorem readi_all (mapped : ∀ k < len, dst k = true) : readi sb i dst off n s =
    .ok (((len : Int), bytesOf s.image (s.icache i).copy off (off + len)), s) := by
  obtain ⟨stop, upper, blocked, ran⟩ := @readi_spec sb s i dst n off len request present
  have full : ¬stop < len := by
    intro less
    rw [mapped stop less] at blocked
    exact absurd (blocked less) (by decide)
  rw [ran, if_neg full, le_antisymm upper (Nat.le_of_not_lt full)]

end Request

/-- The blocks that `readi` asks for are below the size of the file. -/
theorem present_of_holeFree {img : ℕ → Block} {d : Dinode} (whole : HoleFree img d) {off k : ℕ}
    (uint : n < 2 ^ 32) (inside : k < readLength d.size.toNat off n) :
    blockOf img d ((off + k) / BSIZE) ≠ 0 := by
  refine whole _ (lt_of_le_of_lt (div_mul_le_self _ _) ?_)
  have small := d.size.isLt
  unfold readLength at inside
  split at inside
  · omega
  · rename_i start
    split at inside
    · omega
    · omega

end Readi

end Xv6Cos.Verif
