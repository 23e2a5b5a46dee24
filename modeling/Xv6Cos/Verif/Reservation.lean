import Xv6Cos.Kernel.LogOps
import Xv6Cos.Verif.LogSections

/-!
# Capacity of the log

`begin_op` reserves against `LOGSIZE` data blocks, while `log_write` tests against the
on-disk size, which counts the header block as well. `mkfs` writes `LOGSIZE` for it, so the
log holds one block less than the reservation promises. The blocks in the log are exactly
the distinct blocks of the group, which decides every call.
-/

namespace Xv6Cos.Verif

open Kernel Transition List Option

section Interleaving

variable {ι : Type} {trace : List (OpAction ι)} {s t : OpsState ι} {action : OpAction ι}

/-- The log of a run: its size is the one `mkfs` wrote, and its entries are the distinct
blocks of the current group. -/
structure GroupInv (trace : List (OpAction ι)) (s : OpsState ι) : Prop where
  size : s.log.size = nlog
  group : ∀ blockno, blockno ∈ entries s.log.lh ↔ blockno ∈ groupBlocks trace
  count : s.log.lh.n = (groupBlocks trace).length

/-- One more action in the group. -/
theorem groupBlocks_append (trace : List (OpAction ι)) (action : OpAction ι) :
    groupBlocks (trace ++ [action]) =
      match action with
      | .logWrite _ blockno => (groupBlocks trace).insert blockno
      | .commit _ => []
      | _ => groupBlocks trace := by
  rw [groupBlocks, foldl_append]
  rfl

theorem groupBlocks_logWrite (trace : List (OpAction ι)) (p : ι) (blockno : ℕ) :
    groupBlocks (trace ++ [.logWrite p blockno]) = (groupBlocks trace).insert blockno :=
  groupBlocks_append trace _

/-- An action that changes neither the header nor the group keeps the two in step. -/
theorem GroupInv.frame
    (inv : GroupInv trace s) (header : t.log.lh = s.log.lh ∧ t.log.size = s.log.size)
    (group : groupBlocks (trace ++ [action]) = groupBlocks trace) :
    GroupInv (trace ++ [action]) t where
  size := header.2.trans inv.size
  group := by rw [header.1, group]; exact inv.group
  count := by rw [header.1, group]; exact inv.count

/-- A `log_write` adds its block to the entries exactly when it is new to the group. -/
theorem logWrite_groupInv {p : ι} {blockno : ℕ}
    {pin : Bool} (inv : GroupInv trace s) (written : s.log.logWrite blockno = .ok (t.log, pin)) :
    GroupInv (trace ++ [.logWrite p blockno]) t := by
  obtain ⟨_, _, _, frame, outcome⟩ := logWrite_ok written
  refine ⟨?_, ?_, ?_⟩
  · rw [frame]
    exact inv.size
  · intro other
    rw [groupBlocks_logWrite, mem_insert_iff, ← inv.group]
    rcases outcome with ⟨-, logged, same⟩ | ⟨-, -, grown, -⟩
    · rw [same]
      constructor
      · exact .inr
      · rintro (rfl | inside)
        · exact logged
        · exact inside
    · rw [grown, mem_append, mem_singleton, or_comm]
  · rw [groupBlocks_logWrite]
    rcases outcome with ⟨-, logged, same⟩ | ⟨-, fresh, -, count⟩
    · rw [same, insert_of_mem ((inv.group _).mp logged)]
      exact inv.count
    · rw [count, insert_of_not_mem (fun old => fresh ((inv.group _).mpr old)),
        length_cons, inv.count]

variable [DecidableEq ι]

/-- Every action keeps the entries and the group in step. -/
theorem next_groupInv (inv : GroupInv trace s) (stepped : s.next action = some t) :
    GroupInv (trace ++ [action]) t := by
  cases action with
  | beginOp p =>
    obtain ⟨-, stepped⟩ := ite_none_right_eq_some.mp stepped
    obtain ⟨log, begun, rfl⟩ := map_eq_some_iff.mp stepped
    obtain ⟨_, _, rfl⟩ := beginOp_some begun
    exact inv.frame ⟨rfl, rfl⟩ (groupBlocks_append _ _)
  | logWrite p blockno =>
    simp only [OpsState.next] at stepped
    split at stepped
    · split at stepped
      · split at stepped
        · rename_i log pin written
          cases stepped
          exact logWrite_groupInv inv written
        · contradiction
      · contradiction
    · contradiction
  | endOp p =>
    simp only [OpsState.next] at stepped
    split at stepped
    · split at stepped
      · rename_i log commit ended
        cases stepped
        obtain ⟨_, rfl, _⟩ := endOp_ok ended
        exact inv.frame ⟨rfl, rfl⟩ (groupBlocks_append _ _)
      · contradiction
    · contradiction
  | commit p =>
    obtain ⟨-, stepped⟩ := ite_none_right_eq_some.mp stepped
    cases stepped
    refine ⟨inv.size, ?_, ?_⟩ <;> simp [groupBlocks_append, OpsState.setPhase, entries]
  | endCommit p =>
    obtain ⟨-, stepped⟩ := ite_none_right_eq_some.mp stepped
    cases stepped
    exact inv.frame ⟨rfl, rfl⟩ (groupBlocks_append _ _)

/-- After every run the log holds the distinct blocks of the current group. -/
theorem exec_groupInv {s : OpsState ι} (run : (logOps ι).Exec trace s) : GroupInv trace s := by
  refine run.invariant GroupInv ?_ (fun trace s action t => next_groupInv)
  rintro s ⟨dev, logstart, rfl⟩
  exact ⟨rfl, by simp [Log.initlog, entries, groupBlocks], rfl⟩

/-- In every reachable state, `log_write` avoids "too big a transaction" exactly while fewer
than `LOGSIZE - 1` distinct blocks have been logged since the last commit. -/
theorem log_write_fits_iff (trace : List (OpAction ι)) (s : OpsState ι)
    (run : (logOps ι).Exec trace s) (blockno : ℕ) :
    s.log.logWrite blockno ≠ .error .tooBig ↔ (groupBlocks trace).length < LOGSIZE - 1 := by
  have inv := exec_groupInv run
  have size := inv.size
  have count := inv.count
  unfold Log.logWrite
  rw [size, count]
  split
  · rename_i full
    simp only [nlog, LOGSIZE, MAXOPBLOCKS] at full ⊢
    constructor
    · intro other
      exact absurd rfl other
    · omega
  · rename_i room
    simp only [nlog, LOGSIZE, MAXOPBLOCKS] at room ⊢
    have short : (groupBlocks trace).length < 10 * 3 - 1 := by omega
    refine iff_of_true ?_ short
    split
    · simp
    · split <;> simp

end Interleaving

/-- One operation that logs one block: far from the limit. -/
theorem log_write_fits_one : ∃ s : OpsState Unit,
    (logOps Unit).Exec [.beginOp (), .logWrite () 46] s ∧
      s.log.logWrite 47 ≠ .error .tooBig := by
  have start : (logOps Unit).Exec [] _ := .start ⟨1, 2, rfl⟩
  have logged : (logOps Unit).Exec [.beginOp (), .logWrite () 46] _ := start.append_actions rfl
  exact ⟨_, logged, (log_write_fits_iff _ _ logged 47).mpr (by decide)⟩

/-- Three operations begin; two log ten blocks each and the third logs nine. -/
def fullGroup : List (OpAction (Fin 3)) :=
  [.beginOp 0, .beginOp 1, .beginOp 2] ++
    (List.range 29).map fun k => .logWrite (Fin.ofNat 3 (k / 10)) (46 + k)

/-- The tenth block of the third operation is refused, though `begin_op` reserved room for
it: the three operations log thirty distinct blocks, `MAXOPBLOCKS` each. -/
theorem log_write_too_big : ∃ (s : OpsState (Fin 3)) (logged : List ℕ),
    (logOps (Fin 3)).Exec fullGroup s ∧ s.phase 2 = .active logged ∧
      (logged.insert 75).length ≤ MAXOPBLOCKS ∧ s.log.logWrite 75 = .error .tooBig := by
  have start : (logOps (Fin 3)).Exec [] _ := .start ⟨1, 2, rfl⟩
  exact ⟨_, _, start.append_actions rfl, rfl, by decide, rfl⟩

end Xv6Cos.Verif
