import Xv6Cos.Kernel.SleepTime

/-!
# Time asleep is counted in full

A record beside the run counts the ticks that each process has spent asleep since it was created.
The kernel's count agrees with it, modulo 2³² and up to the sleep that is going on, as long as
`kill` ends no sleep that has lasted a tick.
-/

namespace Xv6Cos.Verif

open Kernel Transition Function Option StepSystem

variable {s s' : SleepTable} {slept : Fin NPROC → ℕ} {trace : List SleepAction} {q : Fin NPROC}
  {ticks : BitVec 32} {e : SleepEntry} {n chan : ℕ}

/-- The ticks that each process has spent asleep since it was created. -/
def trackSlept (s : SleepTable) (slept : Fin NPROC → ℕ) : SleepAction → Fin NPROC → ℕ
  | .allocproc q => update slept q 0
  | .tick => fun q => if (s.entry q).state = .sleeping then slept q + 1 else slept q
  | _ => slept

/-- `kill` ends no sleep during which the clock has ticked. -/
def KillsNoSleep (s : SleepTable) (_ : Fin NPROC → ℕ) : SleepAction → Prop
  | .kill pid => ∀ q, s.findPid pid = some q → (s.entry q).state = .sleeping →
      (s.entry q).whenStartedSleeping = s.ticks
  | _ => True

instance (action : SleepAction) : Decidable (KillsNoSleep s slept action) := by
  cases action <;> unfold KillsNoSleep <;> infer_instance

/-- The runs whose steps meet a condition, with the time that the processes have slept. -/
def sleepsUnder (condition : SleepTable → (Fin NPROC → ℕ) → SleepAction → Prop) :
    StepSystem (SleepTable × (Fin NPROC → ℕ)) SleepAction :=
  sleepSystem.recorded (fun _ => 0) trackSlept condition

/-- What is to be added to `sleep_time`: the ticks of the sleep that is going on. -/
def due (ticks : BitVec 32) (e : SleepEntry) : BitVec 32 :=
  if e.state = .sleeping then ticks - e.whenStartedSleeping else 0#32

/-- The count of a process is right, up to what is due. -/
def Accounted (ticks : BitVec 32) (e : SleepEntry) (slept : ℕ) : Prop :=
  e.state ≠ .unused → e.sleepTime + due ticks e = BitVec.ofNat 32 slept

section

variable (ok : Accounted ticks e n)

include ok

/-- A change of one process that neither begins nor ends a sleep. -/
theorem Accounted.awake {e' : SleepEntry}
    (used : e.state ≠ .unused) (before : e.state ≠ .sleeping) (after : e'.state ≠ .sleeping)
    (same : e'.sleepTime = e.sleepTime) : Accounted ticks e' n := by
  intro _
  have counted := ok used
  unfold due at counted ⊢
  rw [if_neg before] at counted
  rw [if_neg after, same]
  exact counted

theorem Accounted.sleeps (running : e.state = .running) :
    Accounted ticks
      { e with chan := some chan, state := .sleeping, whenStartedSleeping := ticks } n := by
  intro _
  have counted := ok (running ▸ nofun)
  unfold due at counted ⊢
  rw [if_neg (running ▸ nofun)] at counted
  rw [if_pos rfl, BitVec.sub_self]
  exact counted

theorem Accounted.wake : Accounted ticks (e.wake ticks chan) n := by
  unfold SleepEntry.wake
  split
  · rename_i asleep
    intro _
    have counted := ok (asleep.1 ▸ nofun)
    unfold due at counted ⊢
    rw [if_pos asleep.1] at counted
    rw [if_neg nofun, BitVec.add_zero]
    exact counted
  · exact ok

theorem Accounted.kill
    (brief : e.state = .sleeping → e.whenStartedSleeping = ticks) : Accounted ticks e.kill n := by
  unfold SleepEntry.kill
  by_cases asleep : e.state = .sleeping
  · intro _
    have counted := ok (asleep ▸ nofun)
    unfold due at counted ⊢
    rw [if_pos asleep, brief asleep, BitVec.sub_self] at counted
    simpa [asleep] using counted
  · rw [if_neg asleep]
    exact ok

theorem Accounted.tick :
    Accounted (ticks + 1) e (if e.state = .sleeping then n + 1 else n) := by
  intro used
  have counted := ok used
  unfold due at counted ⊢
  split at counted
  · rename_i asleep
    rw [if_pos asleep, if_pos asleep, BitVec.ofNat_add, ← counted]
    change _ = e.sleepTime + (ticks - e.whenStartedSleeping) + 1
    rw [BitVec.add_assoc]
    congr 1
    rw [BitVec.sub_eq_add_neg, BitVec.sub_eq_add_neg, BitVec.add_assoc, BitVec.add_assoc,
      BitVec.add_comm 1]
  · rename_i awake
    rw [if_neg awake, if_neg awake]
    exact counted

end

theorem accounted_entry {r : Fin NPROC}
    (all : ∀ q, Accounted s.ticks (s.entry q) (slept q)) (mine : Accounted s.ticks e (slept r))
    (q : Fin NPROC) : Accounted s.ticks ((s.setEntry r e).entry q) (slept q) := by
  change Accounted s.ticks (update s.entry r e q) (slept q)
  by_cases here : q = r
  · subst here
    rwa [update_self]
  · rw [update_of_ne here]
    exact all q

/-- Every operation keeps the counts right. -/
theorem accounted_step {action : SleepAction} (brief : KillsNoSleep s slept action)
    (all : ∀ q, Accounted s.ticks (s.entry q) (slept q)) (stepped : s.next action = some s') :
    ∀ q, Accounted s'.ticks (s'.entry q) (trackSlept s slept action q) := by
  cases action with
  | allocproc r =>
    obtain ⟨unused, taken⟩ := ite_none_right_eq_some.mp stepped
    cases taken
    intro q
    change Accounted s.ticks (update s.entry r _ q) (update slept r 0 q)
    by_cases here : q = r
    · subst here
      rw [update_self, update_self]
      exact fun _ => rfl
    · rw [update_of_ne here, update_of_ne here]
      exact all q
  | start r | schedule r | yield r | exit r =>
    obtain ⟨state, taken⟩ := ite_none_right_eq_some.mp stepped
    cases taken
    exact accounted_entry all ((all r).awake (state ▸ nofun) (state ▸ nofun) nofun rfl)
  | sleep r chan =>
    obtain ⟨running, taken⟩ := ite_none_right_eq_some.mp stepped
    cases taken
    exact accounted_entry all ((all r).sleeps running)
  | tidyUp r =>
    obtain ⟨running, taken⟩ := ite_none_right_eq_some.mp stepped
    cases taken
    exact accounted_entry all ((all r).awake (running ▸ nofun) (running ▸ nofun)
      (by simp [running]) rfl)
  | wakeup caller chan =>
    obtain ⟨_, taken⟩ := ite_none_right_eq_some.mp stepped
    cases taken
    intro q
    simp only [trackSlept]
    split
    · exact all q
    · exact (all q).wake
  | kill pid =>
    simp only [SleepTable.next] at stepped
    split at stepped
    · cases stepped
      exact all
    · rename_i r found
      cases stepped
      exact accounted_entry all ((all r).kill (brief r found))
  | freeproc r =>
    obtain ⟨_, taken⟩ := ite_none_right_eq_some.mp stepped
    cases taken
    exact accounted_entry all fun used => absurd rfl used
  | tick =>
    cases stepped
    exact fun q => (all q).tick

/-- The counts are right in every run in which `kill` ends no sleep that has lasted a tick. -/
theorem accounted_run (run : (sleepsUnder KillsNoSleep).Exec trace (s, slept)) :
    ∀ q, Accounted s.ticks (s.entry q) (slept q) := by
  apply run.invariant (fun _ state => ∀ q, Accounted state.1.ticks (state.1.entry q) (state.2 q))
  · rintro ⟨s, slept⟩ ⟨first, start⟩
    obtain rfl : s = .boot := first
    exact fun _ used => absurd rfl used
  · rintro trace ⟨s, slept⟩ action ⟨s', slept'⟩ all ⟨stepped, tracked, brief⟩
    rw [show slept' = _ from tracked]
    exact accounted_step brief all stepped

/-- As long as `kill` ends no sleep during which the clock has ticked, `sleep_time` of every process
that does not sleep is the number of ticks it has slept since it was created, modulo 2³². -/
theorem sleep_time_complete (run : (sleepsUnder KillsNoSleep).Exec trace (s, slept)) (q : Fin NPROC)
    (used : (s.entry q).state ≠ .unused) (awake : (s.entry q).state ≠ .sleeping) :
    (s.entry q).sleepTime = BitVec.ofNat 32 (slept q) ∧
    (slept q < 2 ^ 32 → (s.entry q).sleepTime.toNat = slept q) := by
  have counted := accounted_run run q used
  unfold due at counted
  rw [if_neg awake, BitVec.add_zero] at counted
  refine ⟨counted, fun few => ?_⟩
  rw [counted, BitVec.toNat_ofNat, Nat.mod_eq_of_lt few]

/-- The first process starts and sleeps for two ticks. -/
def sleepTwoTicks : List SleepAction :=
  let first : Fin NPROC := ⟨0, nproc_pos⟩
  [.allocproc first, .start first, .schedule first, .sleep first 5, .tick, .tick]

/-- Actions from boot that meet a condition are a run. -/
theorem exists_sleeps (condition : SleepTable → (Fin NPROC → ℕ) → SleepAction → Prop)
    [∀ s slept action, Decidable (condition s slept action)] (actions : List SleepAction)
    (check : SleepTable → (Fin NPROC → ℕ) → Prop) [∀ s slept, Decidable (check s slept)]
    (checked : (replay (recordNext (fun s action => (s.next action).map
      (action, ·)) trackSlept condition) (.boot, fun _ => 0) actions).any
      (fun state => check state.1.1 state.1.2) = true) :
    ∃ trace s slept, (sleepsUnder condition).Exec trace (s, slept) ∧ check s slept := by
  have steps : ∀ (s : SleepTable) action t l, (s.next action).map (action, ·) = some (l, t) →
      sleepSystem.step s l t := by
    intro s action t l tried
    obtain ⟨_, moved, same⟩ := map_eq_some_iff.mp tried
    cases same
    exact moved
  obtain ⟨trace, s, slept, run, done⟩ := exists_replayed steps rfl actions
    (fun state => decide (check state.1 state.2)) checked
  exact ⟨trace, s, slept, run, of_decide_eq_true done⟩

/-- A process that `wakeup` has woken after two ticks has slept for two ticks. -/
theorem sleep_time_complete_wakeup : ∃ trace s slept q,
    (sleepsUnder KillsNoSleep).Exec trace (s, slept) ∧ (s.entry q).state = .runnable ∧
    slept q = 2 ∧ (s.entry q).sleepTime.toNat = slept q := by
  obtain ⟨trace, s, slept, run, runnable, two⟩ := exists_sleeps KillsNoSleep
    (sleepTwoTicks ++ [.wakeup none 5]) (fun s slept => (s.entry ⟨0, by decide⟩).state = .runnable ∧
      slept ⟨0, by decide⟩ = 2) (by decide +kernel)
  have few : slept ⟨0, by decide⟩ < 2 ^ 32 := by omega
  have complete := sleep_time_complete run ⟨0, by decide⟩ (by rw [runnable]; nofun)
    (by rw [runnable]; nofun)
  exact ⟨trace, s, slept, _, run, runnable, two, complete.2 few⟩

/-- A process that `kill` has woken after two ticks has no time asleep. -/
theorem sleep_time_lost : ∃ trace s slept q,
    (sleepsUnder fun _ _ _ => True).Exec trace (s, slept) ∧ (s.entry q).state = .runnable ∧
    slept q = 2 ∧ (s.entry q).sleepTime = 0 := by
  obtain ⟨trace, s, slept, run, lost⟩ := exists_sleeps (fun _ _ _ => True)
    (sleepTwoTicks ++ [.kill 1]) (fun s slept => (s.entry ⟨0, by decide⟩).state = .runnable ∧
      slept ⟨0, by decide⟩ = 2 ∧ (s.entry ⟨0, by decide⟩).sleepTime = 0) (by decide +kernel)
  exact ⟨trace, s, slept, _, run, lost⟩

section Duration

variable {n : BitVec 32} {clock : ℕ → ℕ} {fuel k : ℕ}

/-- The loop compares both numbers as unsigned ones. -/
theorem sysSleepLoop_iff {i : ℕ} : sysSleepLoop n ticks clock (fun _ => false)
    fuel i = some (0, k) ↔
    i ≤ k ∧ k < i + fuel ∧ n.toNat ≤ clock k % 2 ^ 32 ∧
      ∀ j, i ≤ j → j < k → clock j % 2 ^ 32 < n.toNat := by
  induction fuel generalizing i with
  | zero =>
    simp only [sysSleepLoop, reduceCtorEq, false_iff]
    omega
  | succ fuel ih =>
    rw [sysSleepLoop, BitVec.add_comm, BitVec.add_sub_cancel, BitVec.ult, BitVec.toNat_ofNat]
    simp only [decide_eq_true_eq, Bool.false_eq_true, if_false]
    split
    case isTrue early =>
      rw [ih]
      constructor
      · rintro ⟨lower, upper, enough, before⟩
        refine ⟨by omega, by omega, enough, fun j least less => ?_⟩
        rcases Nat.eq_or_lt_of_le least with rfl | later
        · exact early
        · exact before j later less
      · rintro ⟨lower, upper, enough, before⟩
        have other : i ≠ k := by
          rintro rfl
          omega
        exact ⟨by omega, by omega, enough, fun j least => before j (by omega)⟩
    case isFalse late =>
      rw [some_inj, Prod.mk.injEq]
      constructor
      · rintro ⟨-, rfl⟩
        exact ⟨Nat.le_refl i, by omega, by omega, fun j _ _ => by omega⟩
      · rintro ⟨lower, -, -, before⟩
        refine ⟨rfl, Nat.le_antisymm lower (Nat.le_of_not_lt fun less => ?_)⟩
        exact late (before i (Nat.le_refl i) less)

/-- The first time that `sys_sleep` looks and the ticks have passed. -/
def FirstDue (n : BitVec 32) (clock : ℕ → ℕ) (k : ℕ) : Prop :=
  max n.toInt 0 ≤ clock k ∧ ∀ j < k, (clock j : ℤ) < max n.toInt 0

/-- Without a kill `sys_sleep` returns when the ticks have passed exactly if `n` is not negative,
and the ticks that passed are also enough as a 32-bit number. -/
theorem sleep_duration (ticks : BitVec 32) (start : clock 0 = 0) (due : FirstDue n clock k)
    (looks : k < fuel) : sysSleep n ticks clock (fun _ => false) fuel = some (0, k) ↔
      0 ≤ n.toInt ∧ n.toNat ≤ clock k % 2 ^ 32 := by
  obtain ⟨passed, before⟩ := due
  have signed := BitVec.toInt_eq_toNat_cond n
  have bound := n.isLt
  rw [sysSleep, sysSleepLoop_iff]
  constructor
  · rintro ⟨-, -, enough, -⟩
    refine ⟨?_, enough⟩
    by_contra negative
    -- it is due at once, and then no tick has passed
    obtain rfl : k = 0 := by
      by_contra other
      have first := before 0 (Nat.pos_of_ne_zero other)
      omega
    split at signed <;> omega
  · rintro ⟨positive, enough⟩
    refine ⟨Nat.zero_le k, by omega, enough, fun j _ less => ?_⟩
    have early := before j less
    have reduced := Nat.mod_le (clock j) (2 ^ 32)
    split at signed <;> omega

/-- A sleep of two ticks across the end of the range, which looks at the clock after each. -/
theorem sleep_duration_wraps : sysSleep 2 0xffffffff id (fun _ => false) 3 = some (0, 2) :=
  (sleep_duration 0xffffffff rfl ⟨by decide, by decide⟩ (by decide)).mpr ⟨by decide, by decide⟩

/-- With a negative number of ticks it goes to sleep. -/
theorem sleep_negative : FirstDue (-1) id 0 ∧ sysSleep (-1) 0 id (fun _ => false) 1 = none :=
  ⟨⟨by decide, nofun⟩, by decide⟩

end Duration

end Xv6Cos.Verif
