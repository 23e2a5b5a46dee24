import Xv6Cos.Verif.AlarmFields
import Xv6Cos.Spec.Recycle

/-!
# Recycled entries of the process table

`allocproc` takes `killed` and the alarm's countdown as the last occupant, or a `kill` that hit the
unused entry, has left them. A run in which this does not show gives every process the fields
that its own history says.
-/

namespace Xv6Cos.Verif

open Kernel Spec Program Transition Function Option Bool

variable {layout : Layout} {s t : AlarmSys} {p : Fin NPROC} {lives : Lives}
  {trace : List AlarmEvent} {event : AlarmEvent}

section History

variable {stale : BitVec 32} {n : ℕ}

/-- A countdown has ticks left. -/
theorem fuse_pos : 0 < fuse stale := by
  unfold fuse
  split
  · decide
  · rename_i nonzero
    exact Nat.pos_iff_ne_zero.mpr fun zero => nonzero (BitVec.eq_of_toNat_eq zero)

/-- The countdown reaches one just before the last interrupt. -/
theorem countdown_eq_one (early : n < fuse stale) :
    stale - BitVec.ofNat 32 n = 1 ↔ n + 1 = fuse stale := by
  unfold fuse at *
  split at early
  · rename_i zero
    rw [if_pos zero, zero]
    bv_omega
  · rename_i nonzero
    rw [if_neg nonzero]
    bv_omega

/-- One tick more. -/
theorem countdown_succ : stale - BitVec.ofNat 32 n - 1 = stale - BitVec.ofNat 32 (n + 1) := by
  bv_omega

/-- An entry of the process table, its fields and the record of its process agree. -/
structure EntryOk (state : ProcState) (slot : Slot) (life : Life) : Prop where
  own : state ≠ .unused → OwnFields slot life
  /-- Before the first `sigalarm` the old countdown runs on. -/
  stale : state ≠ .unused → life.alarm = none → slot.alarmFlag = false ∧
    slot.alarmTicksLeft = life.stale - BitVec.ofNat 32 life.ticks ∧ life.ticks < fuse life.stale
  clear : state = .unused → slot.killed = false

/-- All entries agree with the record. -/
structure HistoryInv (s : AlarmSys) (lives : Lives) : Prop where
  pids : PidsOk s.sys
  entry : ∀ p, EntryOk (s.sys.proc p).state (s.slot p) (lives p)

variable {state : ProcState} {slot : Slot} {life : Life}

/-- The process exits. -/
theorem EntryOk.die (entry : EntryOk state slot life) (used : state ≠ .unused) :
    EntryOk .zombie slot life :=
  ⟨fun _ => entry.own used, fun _ => entry.stale used, nofun⟩

/-- A process in use is killed. -/
theorem EntryOk.kill (entry : EntryOk state slot life) (used : state ≠ .unused) :
    EntryOk state { slot with killed := true } { life with killed := true } where
  own _ := ⟨rfl, (entry.own used).traceMask, (entry.own used).alarm⟩
  stale := entry.stale
  clear unused := absurd unused used

/-- A new process in an unused entry. -/
theorem EntryOk.fork (entry : EntryOk .unused slot life) (mask : BitVec 32) :
    EntryOk .alive { slot with alarmFlag := false, traceMask := mask }
      (.new mask slot.alarmTicksLeft) where
  own _ := ⟨entry.clear rfl, rfl, nofun⟩
  stale _ _ := ⟨rfl, (BitVec.sub_zero _).symm, fuse_pos⟩
  clear := nofun

/-- An operation on memory keeps the entries in agreement. -/
theorem HistoryInv.user {e : UserEvent} (inv : HistoryInv s lives)
    (table : TableStep s.sys e t.sys) (slots : t.slot = slotsAfter s e) (q : Fin NPROC) :
    EntryOk (t.sys.proc q).state (t.slot q) (trackLife s lives (.user e) q) := by
  have before := inv.entry q
  rw [table.states q, slots]
  cases e with
  | forked p np =>
    have unused := table.fresh p np rfl
    have mask := ((inv.entry p).own (table.actor p (.inl ⟨np, rfl⟩))).traceMask
    by_cases here : q = np
    · rw [here, unused] at before
      simp only [stateAfter, slotsAfter, trackLife, here, update_self, if_true, mask]
      exact before.fork _
    · simp only [stateAfter, slotsAfter, trackLife, update_of_ne here, if_neg here]
      exact before
  | forkFailed p copying =>
    simp only [slotsAfter]
    cases search : (List.finRange NPROC).find? fun p => (s.sys.proc p).state = .unused with
    | none => exact before
    | some np =>
      by_cases here : q = np
      · have unused := first_unused search
        rw [here]
        simp only [update_self]
        exact ⟨fun used => absurd unused used, fun used => absurd unused used, fun _ => rfl⟩
      · simp only [update_of_ne here]
        exact before
  | waited p addr result =>
    cases result with
    | reaped pp pid xstate =>
      by_cases here : q = pp
      · simp only [stateAfter, slotsAfter, here, update_self, if_true]
        exact ⟨fun used => absurd rfl used, fun used => absurd rfl used, fun _ => rfl⟩
      · simp only [stateAfter, slotsAfter, update_of_ne here, if_neg here]
        exact before
    | _ => exact before
  | storeKilled p va | loadKilled p va =>
    have used := table.actor p (by simp [Acts])
    by_cases here : q = p
    · rw [here] at before ⊢
      simp only [stateAfter, slotsAfter, trackLife, update_self, if_true]
      exact (before.die used).kill (by simp)
    · simp only [stateAfter, slotsAfter, trackLife, update_of_ne here, if_neg here]
      exact before
  | exited p =>
    have used := table.actor p (.inr (.inr (.inr rfl)))
    by_cases here : q = p
    · rw [here] at before ⊢
      simp only [stateAfter, if_true]
      exact before.die used
    · simp only [stateAfter, if_neg here]
      exact before
  | _ => exact before

/-- A change of the fields and the record of one process. -/
theorem HistoryInv.one {life : Life} {slot : Slot} (inv : HistoryInv s lives)
    (after : FieldStep s event t) (procs : t.sys.proc = s.sys.proc)
    (slots : t.slot = update s.slot p slot)
    (entry : EntryOk (s.sys.proc p).state slot life) :
    HistoryInv t (update lives p life) := by
  refine ⟨after.pids, fun q => ?_⟩
  rw [procs, slots]
  by_cases here : q = p
  · rw [here, update_self, update_self]
    exact entry
  · rw [update_of_ne here, update_of_ne here]
    exact inv.entry q

/-- A timer interrupt of a process delivers an alarm exactly if its own alarm is due, or it has set
none and the old countdown ends. -/
theorem EntryOk.due_iff (entry : EntryOk state slot life) (used : state ≠ .unused) :
    slot.alarmFlag = false ∧ slot.alarmTicksLeft = 1 ↔
      (∃ a, life.alarm = some a ∧ a.Due) ∨ life.alarm = none ∧
      life.ticks + 1 = fuse life.stale := by
  cases armed : life.alarm with
  | none =>
    obtain ⟨flag, left, early⟩ := entry.stale used armed
    rw [flag, left, countdown_eq_one early]
    simp
  | some a =>
    obtain ⟨-, -, left, flag⟩ := (entry.own used).alarm a armed
    rw [left, flag]
    simp [Alarm.Due]

section

variable (entry : EntryOk state slot life)
  (early : life.alarm = none → life.ticks + 1 < fuse life.stale)

include entry early

/-- A timer interrupt that delivers no alarm. -/
theorem EntryOk.tick (notDue : ¬(slot.alarmFlag = false ∧ slot.alarmTicksLeft = 1)) :
    EntryOk state { slot with
        alarmTicksLeft := if slot.alarmFlag then slot.alarmTicksLeft else slot.alarmTicksLeft - 1 }
      { life with alarm := life.alarm.map .tick, ticks := life.ticks + 1 } where
  own used := by
    obtain ⟨killed, mask, alarm⟩ := entry.own used
    refine ⟨killed, mask, ?_⟩
    intro a' ticked
    obtain ⟨a, set, rfl⟩ := map_eq_some_iff.mp ticked
    obtain ⟨handler, period, left, flag⟩ := alarm a set
    rw [flag, left] at notDue
    simp only [flag, left]
    unfold Alarm.tick
    cases busy : a.busy with
    | true => exact ⟨handler, period, rfl, busy.symm⟩
    | false =>
      have more : a.left ≠ 1 := fun due => notDue ⟨busy, due⟩
      simp only [false_eq_true, if_false, if_neg more]
      exact ⟨handler, period, trivial, trivial⟩
  stale used unset := by
    have unset := map_eq_none_iff.mp unset
    obtain ⟨flag, left, -⟩ := entry.stale used unset
    refine ⟨flag, ?_, early unset⟩
    simp only [flag, left, false_eq_true, if_false]
    exact countdown_succ
  clear := entry.clear

/-- A timer interrupt that delivers the alarm of the process. -/
theorem EntryOk.deliver {page : ℕ}
    (due : slot.alarmFlag = false ∧ slot.alarmTicksLeft = 1) :
    EntryOk state { slot with
        alarmFlag := true, alarmSavedTf := some page, alarmTicksLeft := slot.alarmTicks }
      { life with alarm := life.alarm.map .tick, ticks := life.ticks + 1 } where
  own used := by
    obtain ⟨killed, mask, alarm⟩ := entry.own used
    refine ⟨killed, mask, ?_⟩
    intro a' ticked
    obtain ⟨a, set, rfl⟩ := map_eq_some_iff.mp ticked
    obtain ⟨handler, period, left, flag⟩ := alarm a set
    rw [flag, left] at due
    unfold Alarm.tick
    simp only [due.1, due.2, false_eq_true, if_false, if_true]
    exact ⟨handler, period, period, trivial⟩
  stale used unset := by
    have unset := map_eq_none_iff.mp unset
    rcases (entry.due_iff used).mp due with ⟨a, set, -⟩ | ⟨-, last⟩
    · rw [unset] at set
      contradiction
    · exact absurd last (early unset).ne
  clear := entry.clear

end

/-- A step keeps the entries in agreement with the record. -/
theorem HistoryInv.step (inv : HistoryInv s lives) (after : FieldStep s event t)
    (tidy : Tidy s lives event) : HistoryInv t (trackLife s lives event) := by
  have table := after.table
  have fields := after.fields
  cases event with
  | user e => exact ⟨after.pids, inv.user table fields⟩
  | trapped p =>
    refine ⟨after.pids, fun q => ?_⟩
    rw [show t.sys.proc = s.sys.proc from table, show t.slot = s.slot from fields]
    exact inv.entry q
  | ticked p =>
    obtain ⟨-, notDue, slots⟩ := fields
    exact inv.one after table slots ((inv.entry p).tick tidy notDue)
  | delivered p page contents =>
    obtain ⟨-, due, -, slots⟩ := fields
    exact inv.one after table slots ((inv.entry p).deliver tidy due)
  | armed p ticks handler =>
    refine inv.one after table fields.2 ⟨fun used => ?_, nofun, (inv.entry p).clear⟩
    obtain ⟨killed, mask, -⟩ := (inv.entry p).own used
    refine ⟨killed, mask, ?_⟩
    rintro a ⟨⟩
    exact ⟨rfl, rfl, rfl, rfl⟩
  | returned p page =>
    refine inv.one after table fields ⟨fun used => ?_, fun used unset => ?_, (inv.entry p).clear⟩
    · obtain ⟨killed, mask, alarm⟩ := (inv.entry p).own used
      refine ⟨killed, mask, ?_⟩
      intro a' back
      obtain ⟨a, set, rfl⟩ := map_eq_some_iff.mp back
      obtain ⟨handler, period, left, -⟩ := alarm a set
      exact ⟨handler, period, left, rfl⟩
    · obtain ⟨-, countdown⟩ := (inv.entry p).stale used (map_eq_none_iff.mp unset)
      exact ⟨rfl, countdown⟩
  | traced p mask =>
    refine inv.one after table fields ⟨fun used => ?_, (inv.entry p).stale, (inv.entry p).clear⟩
    obtain ⟨killed, -, alarm⟩ := (inv.entry p).own used
    exact ⟨killed, rfl, alarm⟩
  | killed p pid target =>
    rw [FieldsAfter] at fields
    rw [trackLife]
    cases hit : s.named pid with
    | none =>
      rw [hit] at fields
      refine ⟨after.pids, fun q => ?_⟩
      rw [show t.sys.proc = s.sys.proc from table, show t.slot = s.slot from fields]
      exact inv.entry q
    | some q =>
      rw [hit] at fields
      unfold AlarmSys.named at hit
      have own : ((s.sys.proc q).pid : Int) = pid := by simpa using List.find?_some hit
      exact inv.one after table fields ((inv.entry q).kill (tidy q own))

end History

section Replay

instance : (event : AlarmEvent) → Decidable (Tidy s lives event)
  | .killed .. => inferInstanceAs (Decidable (∀ _, _ → _))
  | .ticked _ | .delivered .. => inferInstanceAs (Decidable (_ → _))
  | .user _ | .trapped _ | .armed .. | .returned .. | .traced .. =>
    inferInstanceAs (Decidable True)

/-- The second entry of the process table. -/
def second : Fin NPROC := ⟨1, one_lt_nproc⟩

end Replay

end Xv6Cos.Verif
