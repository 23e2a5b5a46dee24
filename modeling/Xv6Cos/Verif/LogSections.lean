import Xv6Cos.Kernel.Log
import Mathlib.Data.List.Dedup

/-!
# What the critical sections of the log do

One inversion lemma for each section: when it proceeds, and the log it leaves.
-/

namespace Xv6Cos.Verif

open Kernel Function List Logheader

variable {lh : Logheader} {blockno : ℕ} {log log' : Log}

/-- The entries in use. -/
def entries (lh : Logheader) : List ℕ := (List.range lh.n).map lh.block

/-- The search of `log_write` started at `i` returns the first index from `i` on that holds
the block, or the end. -/
theorem searchGo_spec (lh : Logheader) (blockno left i : ℕ) :
    (∃ k, i ≤ k ∧ k < i + left ∧ lh.block k = blockno ∧ lh.searchGo blockno i left = k) ∨
      ((∀ k, i ≤ k → k < i + left → lh.block k ≠ blockno) ∧
        lh.searchGo blockno i left = i + left) := by
  induction left generalizing i with
  | zero => exact .inr ⟨fun k lower upper => by omega, rfl⟩
  | succ left ih =>
    rw [searchGo]
    by_cases here : lh.block i = blockno
    · rw [if_pos here]
      exact .inl ⟨i, le_rfl, by omega, here, rfl⟩
    · rw [if_neg here]
      rcases ih (i + 1) with ⟨k, lower, upper, found, result⟩ | ⟨absent, result⟩
      · exact .inl ⟨k, by omega, by omega, found, result⟩
      · refine .inr ⟨fun k lower upper => ?_, by omega⟩
        by_cases first : k = i
        · rwa [first]
        · exact absent k (by omega) (by omega)

/-- An absorbed block is found at an index in use, where it already stands. -/
theorem search_found (logged : blockno ∈ entries lh) :
    lh.search blockno < lh.n ∧ lh.block (lh.search blockno) = blockno := by
  obtain ⟨j, inside, here⟩ := mem_map.mp logged
  rcases searchGo_spec lh blockno lh.n 0 with ⟨k, _, upper, found, result⟩ | ⟨absent, _⟩
  · rw [search, result]
    exact ⟨by omega, found⟩
  · exact absurd here (absent j (Nat.zero_le _) (by simpa using inside))

/-- A block not in the log is appended. -/
theorem search_new (fresh : blockno ∉ entries lh) : lh.search blockno = lh.n := by
  rcases searchGo_spec lh blockno lh.n 0 with ⟨k, _, upper, found, _⟩ | ⟨_, result⟩
  · exact absurd (mem_map.mpr ⟨k, by simpa using upper, found⟩) fresh
  · simpa [search] using result

/-- `log_write` refuses exactly when the log is at its limit or no operation runs. Else it
leaves everything but the header alone, and adds the block to the entries if it is new. -/
theorem logWrite_ok {pin : Bool} (written : log.logWrite blockno = .ok (log', pin)) :
    log.lh.n < LOGSIZE ∧ log.lh.n + 1 < log.size ∧ 1 ≤ log.outstanding ∧
      log' = { log with lh := log'.lh } ∧
      ((pin = false ∧ blockno ∈ entries log.lh ∧ log'.lh = log.lh) ∨
        (pin = true ∧ blockno ∉ entries log.lh ∧
          entries log'.lh = entries log.lh ++ [blockno] ∧ log'.lh.n = log.lh.n + 1)) := by
  unfold Log.logWrite at written
  split at written
  · contradiction
  split at written
  · contradiction
  rename_i room running
  rw [not_or, not_le, not_le] at room
  refine ⟨room.1, room.2, by omega, ?_⟩
  by_cases logged : blockno ∈ entries log.lh
  · obtain ⟨inside, here⟩ := search_found logged
    have same : update log.lh.block (log.lh.search blockno) blockno = log.lh.block :=
      update_eq_self_iff.mpr here.symm
    rw [if_neg (by omega)] at written
    injection written with pair
    cases pair
    exact ⟨rfl, .inl ⟨rfl, logged, by rw [same]⟩⟩
  · have last := search_new logged
    rw [if_pos last] at written
    injection written with pair
    cases pair
    refine ⟨rfl, .inr ⟨rfl, logged, ?_, rfl⟩⟩
    have grown : ∀ k ∈ range log.lh.n,
        update log.lh.block log.lh.n blockno k = log.lh.block k := fun k inside =>
      update_of_ne (Nat.ne_of_lt (mem_range.mp inside)) ..
    simp only [entries, range_succ, map_append, last, map_congr_left grown,
      map_cons, map_nil, update_self]

/-- `begin_op` proceeds only outside a commit and within its reservation. -/
theorem beginOp_some (begun : log.beginOp = some log') :
    log.committing = false ∧ log.lh.n + (log.outstanding + 1) * MAXOPBLOCKS ≤ LOGSIZE ∧
      log' = { log with outstanding := log.outstanding + 1 } := by
  obtain ⟨free, begun⟩ := Option.ite_none_left_eq_some.mp begun
  split at begun
  · contradiction
  · rename_i room
    exact ⟨Bool.eq_false_iff.mpr free, not_lt.mp room, (Option.some.inj begun).symm⟩

/-- `end_op` proceeds only outside a commit, and starts one exactly when it was the last. -/
theorem endOp_ok {commit : Bool} (ended : log.endOp = .ok (log', commit)) :
    log.committing = false ∧
      log' = { log with outstanding := log.outstanding - 1, committing := commit } ∧
      (commit = true ↔ log.outstanding = 1) := by
  simp only [Log.endOp] at ended
  split at ended
  · contradiction
  · rename_i free
    have idle := Bool.eq_false_iff.mpr free
    split at ended <;> rename_i last <;> injection ended with pair <;>
      cases pair
    · exact ⟨idle, rfl, by simpa using (by omega : log.outstanding = 1)⟩
    · refine ⟨idle, by rw [← idle], ?_⟩
      simpa using (by omega : log.outstanding ≠ 1)

end Xv6Cos.Verif
