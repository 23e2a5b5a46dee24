import Xv6Cos.Verif.ProcTree

/-!
# Running times

Each clock interrupt counts once for a process that `update_time` finds running. As long as it
counts for no process that was created after the interrupt had incremented `ticks`, the running time
of a process fits between its creation and its exit.
-/

namespace Xv6Cos.Verif

open Kernel Spec Transition Function Option BitVec ProcTable List

variable {t t' : ProcTable} {event : ProcEvent} {p q : Fin NPROC} {e : Entry} {ticks pending : ℕ}

section Ages

/-- What a step of the process table can do to an entry, as far as its times are concerned. -/
inductive Ages (t : ProcTable) (q : Fin NPROC) (e : Entry) : Prop
  | keeps (kind : SameKind e.state (t.entry q).state) (times : SameTimes e (t.entry q))
  | starts (forked : ∃ p, Forks (t.position p) q) (runs : e.state = .runnable)
      (times : SameTimes e (t.entry q))
  | created (used : e.state = .used) (times : e.rtime = 0 ∧ e.ctime = t.ticks)
  | freed (unused : e.state = .unused)
  | exits (ran : (t.entry q).state = .running) (zombie : e.state = .zombie)
      (times : e.rtime = (t.entry q).rtime ∧ e.ctime = (t.entry q).ctime ∧ e.etime = t.ticks)

theorem EntryChange.ages {position : Position} (change : EntryChange t p position q e event) :
    Ages t q e := by
  cases change with
  | allocate living unused => exact .created rfl ⟨rfl, rfl⟩
  | allocateFail unused freed parent => exact .freed freed
  | setParent | reparent => exact .keeps (.inl rfl) ⟨rfl, rfl, rfl⟩
  | @start _ pid here => exact .starts ⟨p, .inr ⟨pid, here⟩⟩ rfl ⟨rfl, rfl, rfl⟩
  | die running here => exact .exits running rfl ⟨rfl, rfl, rfl⟩
  | reap zombie => exact .freed rfl

/-- The entries after a step of the process table that is not one of the clock. -/
theorem Move.ages {action : ProcAction} (moved : Move t action event t')
    (quiet : action.ofClock = false) (q : Fin NPROC) : Ages t q (t'.entry q) := by
  obtain ⟨p, position, entries, times, -⟩ | ⟨p, position, r, e, entries, -, change⟩ := moved.effect
  · exact .keeps (entries q).kind (times quiet q)
  · rw [entries]
    exact (forall_update_iff t.entry (Ages t)).mpr
      ⟨change.ages, fun q _ => .keeps (.inl rfl) ⟨rfl, rfl, rfl⟩⟩ q

end Ages

section Clock

variable {s s' : ClockTable} {trace : List ClockAction}

/-- The process table of a run with the clock is one that the process table reaches. -/
theorem clock_table_run (run : clockSystem.Exec trace s) :
    ∃ events, procSystem.Exec events s.table := by
  induction run with
  | start first =>
    subst first
    exact ⟨[], .start rfl⟩
  | next _ stepped reached =>
    rename_i s s' action _
    obtain ⟨events, before⟩ := reached
    change s.next action = some s' at stepped
    cases action with
    | clockintr =>
      simp only [ClockTable.next] at stepped
      split at stepped
      · cases stepped
        exact ⟨_, before.next ⟨.tick, rfl⟩⟩
      · contradiction
    | updateTime =>
      simp only [ClockTable.next] at stepped
      split at stepped
      · contradiction
      · split at stepped
        · rename_i i _ inside
          cases stepped
          by_cases running : (s.table.entry ⟨i, inside⟩).state = .running
          · refine ⟨_, before.next (l := .silent) ⟨.updateTime ⟨i, inside⟩, ?_⟩⟩
            simp [ProcTable.next, Entry.updateTime, running]
          · refine ⟨events, ?_⟩
            simpa [Entry.updateTime, running, setEntry] using before
        · cases stepped
          exact ⟨events, before⟩
    | other action =>
      obtain ⟨-, stepped⟩ := ite_none_left_eq_some.mp stepped
      obtain ⟨⟨table, event⟩, taken, rfl⟩ := map_eq_some_iff.mp stepped
      exact ⟨_, before.next ⟨action, taken⟩⟩

/-- Has the handler yet to look at this entry? -/
def pendingTick (clock : Option ℕ) (q : Fin NPROC) : ℕ :=
  if clock.any (· ≤ q.val) then 1 else 0

/-- The running time of a process is that of interrupts that came after it was created and that
`update_time` has counted. -/
def Counts (ticks pending : ℕ) (e : Entry) : Prop :=
  e.ctime.toNat ≤ ticks ∧ (e.rtime = 0 ∨ e.ctime.toNat + e.rtime.toNat + pending ≤ ticks)

/-- What holds of an entry: of a process, and of a zombie. -/
structure TimesOk (ticks pending : ℕ) (e : Entry) : Prop where
  counts : e.state ≠ .unused → e.state ≠ .zombie → Counts ticks pending e
  zombie : e.state = .zombie → e.ctime.toNat + e.rtime.toNat ≤ e.etime.toNat

/-- What holds in every state of a run. -/
structure ClockInv (trace : List ClockAction) (s : ClockTable) : Prop where
  ticks : s.table.ticks = BitVec.ofNat 32 (clockTicks trace)
  times : clockTicks trace < 2 ^ 32 →
    ∀ q, TimesOk (clockTicks trace) (pendingTick s.clock q) (s.table.entry q)

/-- `update_time` counts for no process that was created after the interrupt had incremented
`ticks`. -/
def CountsOlder (s : ClockTable) : ClockAction → Prop
  | .updateTime => ∀ q : Fin NPROC, s.clock = some q.val → (s.table.entry q).state = .running →
      (s.table.entry q).ctime ≠ s.table.ticks
  | _ => True

instance (action : ClockAction) : Decidable (CountsOlder s action) := by
  cases action <;> unfold CountsOlder <;> infer_instance

theorem Counts.mono {ticks' pending' : ℕ} (counts : Counts ticks pending e)
    (later : ticks + pending' ≤ ticks' + pending) (older : ticks ≤ ticks') :
    Counts ticks' pending' e := by
  refine ⟨le_trans counts.1 older, counts.2.imp_right fun fits => ?_⟩
  omega

/-- An entry after a step of the process table. -/
theorem TimesOk.ages (ok : TimesOk ticks pending (t.entry q))
    (now : t.ticks.toNat = ticks) (forks : (∃ p, Forks (t.position p) q) →
    (t.entry q).state = .used)
    (ages : Ages t q e) : TimesOk ticks pending e := by
  cases ages with
  | keeps kind times =>
    obtain ⟨rtime, ctime, etime⟩ := times
    constructor
    · intro used alive
      rw [ne_eq, kind.state_iff not_living_unused] at used
      rw [ne_eq, kind.state_iff not_living_zombie] at alive
      unfold Counts
      rw [rtime, ctime]
      exact ok.counts used alive
    · intro zombie
      rw [kind.state_iff not_living_zombie] at zombie
      rw [rtime, ctime, etime]
      exact ok.zombie zombie
  | starts forked runs times =>
    obtain ⟨rtime, ctime, -⟩ := times
    have used := forks forked
    constructor
    · intro _ _
      unfold Counts
      rw [rtime, ctime]
      exact ok.counts (used ▸ nofun) (used ▸ nofun)
    · intro zombie
      rw [runs] at zombie
      contradiction
  | created used times =>
    obtain ⟨rtime, ctime⟩ := times
    constructor
    · intro _ _
      exact ⟨by rw [ctime, now], .inl rtime⟩
    · intro zombie
      rw [used] at zombie
      contradiction
  | freed unused =>
    refine ⟨fun used => absurd unused used, fun zombie => ?_⟩
    rw [unused] at zombie
    contradiction
  | exits ran zombie times =>
    obtain ⟨rtime, ctime, etime⟩ := times
    refine ⟨fun _ alive => absurd zombie alive, fun _ => ?_⟩
    have counts := ok.counts (ran ▸ nofun) (ran ▸ nofun)
    rw [rtime, ctime, etime, now]
    rcases counts.2 with none | fits
    · rw [none]
      exact counts.1
    · omega

/-- A running process after its entry has been looked at. -/
theorem TimesOk.updateTime (ok : TimesOk ticks 1 e)
    (older : e.state = .running → e.ctime.toNat ≠ ticks) :
    TimesOk ticks 0 e.updateTime := by
  unfold Entry.updateTime
  split
  · rename_i running
    have counts := ok.counts (running ▸ nofun) (running ▸ nofun)
    have before := older running
    refine ⟨fun _ _ => ⟨counts.1, .inr ?_⟩, fun zombie => ?_⟩
    · -- one more interrupt fits, and the sum stays below 2³²
      have sum : (e.rtime + 1).toNat ≤ e.rtime.toNat + 1 := by
        rw [toNat_add]
        exact Nat.mod_le _ _
      have created := counts.1
      rcases counts.2 with none | fits
      · rw [none] at sum ⊢
        have one : (0 : BitVec 32).toNat = 0 := rfl
        simp only
        omega
      · simp only
        omega
    · rw [show e.state = .zombie from zombie] at running
      contradiction
  · exact ⟨fun used alive => (ok.counts used alive).mono (by omega) le_rfl, ok.zombie⟩

theorem pendingTick_other {i : ℕ} {q : Fin NPROC} (other : q.val ≠ i) :
    pendingTick (some (i + 1)) q = pendingTick (some i) q := by
  unfold pendingTick
  simp only [any_some, decide_eq_true_eq]
  by_cases later : i ≤ q.val
  · rw [if_pos later, if_pos (by omega)]
  · rw [if_neg later, if_neg (by omega)]

theorem clockTicks_append (trace : List ClockAction) (action : ClockAction) :
    clockTicks (trace ++ [action]) = clockTicks trace + clockTicks [action] :=
  countP_append

theorem ClockInv.step {action : ClockAction} (inv : ClockInv trace s)
    (tree : ∀ q, (∃ p, Forks (s.table.position p) q) → (s.table.entry q).state = .used)
    (older : CountsOlder s action) (stepped : s.next action = some s') :
    ClockInv (trace ++ [action]) s' := by
  have now : clockTicks trace < 2 ^ 32 → s.table.ticks.toNat = clockTicks trace := by
    intro few
    rw [inv.ticks, toNat_ofNat, Nat.mod_eq_of_lt few]
  cases action with
  | clockintr =>
    have count : clockTicks (trace ++ [.clockintr]) = clockTicks trace + 1 :=
      clockTicks_append trace .clockintr
    simp only [ClockTable.next] at stepped
    split at stepped
    · rename_i free
      cases stepped
      constructor
      · rw [count, ofNat_add]
        exact congrArg (· + 1) inv.ticks
      · intro few q
        rw [count] at few ⊢
        have ok := inv.times (by omega) q
        rw [free] at ok
        refine ⟨fun used alive => (ok.counts used alive).mono ?_ (by omega), ok.zombie⟩
        have first : pendingTick (some 0) q = 1 := rfl
        have nothing : pendingTick none q = 0 := rfl
        simp only [first, nothing]
        omega
    · contradiction
  | updateTime =>
    have count : clockTicks (trace ++ [.updateTime]) = clockTicks trace :=
      clockTicks_append trace .updateTime
    simp only [ClockTable.next] at stepped
    split at stepped
    · contradiction
    · rename_i i busy
      split at stepped
      · rename_i inside
        cases stepped
        refine ⟨count ▸ inv.ticks, fun few q => ?_⟩
        rw [count] at few ⊢
        have ok := inv.times few q
        rw [busy] at ok
        by_cases here : q = ⟨i, inside⟩
        · subst here
          have before : pendingTick (some i) ⟨i, inside⟩ = 1 := by simp [pendingTick]
          have after : pendingTick (some (i + 1)) ⟨i, inside⟩ = 0 := by simp [pendingTick]
          rw [before] at ok
          have looked := ok.updateTime fun running same =>
            older ⟨i, inside⟩ busy running (eq_of_toNat_eq (same.trans (now few).symm))
          simpa [setEntry, after] using looked
        · have other : q.val ≠ i := fun same => here (Fin.ext same)
          simpa [setEntry, update_of_ne here, pendingTick_other other] using ok
      · rename_i outside
        cases stepped
        refine ⟨count ▸ inv.ticks, fun few q => ?_⟩
        rw [count] at few ⊢
        have ok := inv.times few q
        have past : pendingTick (some i) q = 0 := by
          have below := q.isLt
          simp only [pendingTick, any_some, decide_eq_true_eq]
          rw [if_neg (by omega)]
        rw [busy, past] at ok
        exact ok
  | other action =>
    have count : clockTicks (trace ++ [.other action]) = clockTicks trace :=
      clockTicks_append trace (.other action)
    obtain ⟨quiet, stepped⟩ := ite_none_left_eq_some.mp stepped
    obtain ⟨⟨table, event⟩, taken, rfl⟩ := map_eq_some_iff.mp stepped
    have ofTable : action.ofClock = false := Bool.not_eq_true _ ▸ quiet
    refine ⟨?_, fun few q => ?_⟩
    · rw [count]
      exact ((next_move taken).ticks ofTable).trans inv.ticks
    · rw [count] at few ⊢
      exact (inv.times few q).ages (now few) (tree q) ((next_move taken).ages ofTable q)

theorem boot_clock : ClockInv [] .boot := by
  refine ⟨rfl, fun _ q => ?_⟩
  change TimesOk 0 0 (boot.entry q)
  unfold ProcTable.boot
  simp only
  by_cases first : q = ⟨0, by decide⟩
  · rw [first, update_self]
    exact ⟨fun _ _ => ⟨le_rfl, .inl rfl⟩, nofun⟩
  · rw [update_of_ne first]
    exact ⟨fun used => absurd rfl used, nofun⟩

/-- The invariant holds in every run in which `update_time` counts for older processes only. -/
theorem clock_run (run : (clockSystem.restrict CountsOlder).Exec trace s) : ClockInv trace s := by
  induction run with
  | start first =>
    subst first
    exact boot_clock
  | next before stepped inv =>
    obtain ⟨events, reached⟩ := clock_table_run before.unrestrict
    have tree := tree_run reached
    refine inv.step (fun q forks => ?_) stepped.2 stepped.1
    obtain ⟨p, here⟩ := forks
    exact (tree.places p).forking q here

/-- The running time of a zombie fits between its creation and its exit, and the waiting time that
`waitx` reports is what is left, as long as `update_time` counts for no process that was created
after the interrupt had incremented `ticks`. -/
theorem run_time_fits (run : (clockSystem.restrict CountsOlder).Exec trace s)
    (few : clockTicks trace < 2 ^ 32) (q : Fin NPROC)
    (zombie : (s.table.entry q).state = .zombie) :
    (s.table.entry q).ctime ≤ (s.table.entry q).etime ∧
    (s.table.entry q).rtime ≤ (s.table.entry q).etime - (s.table.entry q).ctime ∧
    (s.table.entry q).times.1.toNat = (s.table.entry q).etime.toNat -
      (s.table.entry q).ctime.toNat - (s.table.entry q).rtime.toNat := by
  have fits := ((clock_run run).times few q).zombie zombie
  have created : (s.table.entry q).ctime ≤ (s.table.entry q).etime := by
    rw [le_def]
    omega
  have ran : (s.table.entry q).rtime ≤ (s.table.entry q).etime - (s.table.entry q).ctime := by
    rw [le_def, toNat_sub_of_le created]
    omega
  refine ⟨created, ran, ?_⟩
  unfold Entry.times
  rw [toNat_sub_of_le ran, toNat_sub_of_le created]

/-- The first process forks; while it runs on, the clock ticks, and the child exits. -/
def tickWhileRunning : List ClockAction :=
  let first : Fin NPROC := ⟨0, nproc_pos⟩
  let child : Fin NPROC := ⟨1, one_lt_nproc⟩
  [.other (.schedule first), .other (.call first .fork)] ++
    List.replicate 4 (.other (.advance first .ok)) ++
  [.other (.schedule child), .clockintr, .updateTime, .updateTime,
    .other (.call child (.exit 7))] ++ List.replicate (2 * NPROC + 3) (.other (.advance child .ok))

/-- The child has run for one tick and has not waited. -/
theorem run_time_fits_child : ∃ trace s, (clockSystem.restrict CountsOlder).Exec trace s ∧
    clockTicks trace < 2 ^ 32 ∧ ∃ q, (s.table.entry q).state = .zombie ∧
      (s.table.entry q).rtime = 1 ∧
      (s.table.entry q).rtime ≤ (s.table.entry q).etime - (s.table.entry q).ctime := by
  obtain ⟨s, run, checked⟩ := StepSystem.exists_actions ClockTable.next CountsOlder
    (show clockSystem.init .boot from rfl) tickWhileRunning
    (fun s => decide ((s.table.entry ⟨1, by decide⟩).state = .zombie ∧
      (s.table.entry ⟨1, by decide⟩).rtime = 1)) (by decide +kernel)
  obtain ⟨zombie, ran⟩ := of_decide_eq_true checked
  have few : clockTicks tickWhileRunning < 2 ^ 32 := by decide +kernel
  exact ⟨_, s, run, few, _, zombie, ran, (run_time_fits run few _ zombie).2.1⟩

/-- The clock ticks and `update_time` has looked at one entry when the first process forks; the
child runs when `update_time` reaches it, and exits before the next tick. -/
def forkWhileCounting : List ClockAction :=
  let first : Fin NPROC := ⟨0, nproc_pos⟩
  let child : Fin NPROC := ⟨1, one_lt_nproc⟩
  [.other (.schedule first), .clockintr, .updateTime, .other (.call first .fork)] ++
    List.replicate 4 (.other (.advance first .ok)) ++
  [.other (.schedule child), .updateTime, .other (.call child (.exit 7))] ++
    List.replicate (2 * NPROC + 3) (.other (.advance child .ok))

/-- A zombie has a running time of one tick although it was created and exited at the same time; its
waiting time is -1. -/
theorem run_time_exceeds : ∃ trace s, clockSystem.Exec trace s ∧ clockTicks trace = 1 ∧
    ∃ q, (s.table.entry q).state = .zombie ∧
      ¬(s.table.entry q).rtime ≤ (s.table.entry q).etime - (s.table.entry q).ctime ∧
      (s.table.entry q).times = (-1, 1) := by
  obtain ⟨s, run, checked⟩ := StepSystem.exists_actions ClockTable.next (fun _ _ => True)
    (show clockSystem.init .boot from rfl) forkWhileCounting
    (fun s => decide ((s.table.entry ⟨1, by decide⟩).state = .zombie ∧
      ¬(s.table.entry ⟨1, by decide⟩).rtime ≤ (s.table.entry ⟨1, by decide⟩).etime -
        (s.table.entry ⟨1, by decide⟩).ctime ∧
      (s.table.entry ⟨1, by decide⟩).times = (-1, 1))) (by decide +kernel)
  have once : clockTicks forkWhileCounting = 1 := by decide +kernel
  exact ⟨_, s, run.unrestrict, once, _, of_decide_eq_true checked⟩

end Clock

end Xv6Cos.Verif
