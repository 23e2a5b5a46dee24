import Xv6Cos.Verif.PipeStream

/-!
# Sleeping readers and writers of a pipe

A process that sleeps on a pipe waits for something that is not there yet. Every exit of the
loops keeps it so, except one: `pipewrite` returns -1 to a killed writer without a `wakeup`, even
if it has just stored bytes that a sleeping reader waits for.
-/

namespace Xv6Cos.Verif

open Kernel Transition Function Option PipeState

variable {ι : Type} {chan : PipeChan} {q p : ι} {action : PipeAction ι} {event : PipeEvent}

/-- No process sleeps on a channel of the pipe whose condition is satisfied. -/
def NoneStranded (s : PipeState ι) : Prop :=
  (∀ p, s.asleep p = some .nread → s.pi.nread = s.pi.nwrite ∧ s.pi.writeopen = true) ∧
  ∀ p, s.asleep p = some .nwrite → s.pi.nwrite = s.pi.nread + 512 ∧ s.pi.readopen = true

section Loops

variable {env : PipeEnv} {pi : Pipe} {i left : Nat}

/-- A loop of `pipewrite` that stores nothing leaves the pipe as it is. -/
theorem pipewriteGo_nil (none : (pipewriteGo env pi i left).2.2 = []) :
    (pipewriteGo env pi i left).2.1 = pi := by
  cases left with
  | zero => rfl
  | succ left =>
    unfold pipewriteGo at none ⊢
    split
    · rfl
    · split
      · rfl
      · rename_i open_ room
        rw [if_neg open_, if_neg room] at none
        cases fetched : env.copyin i with
        | none => rfl
        | some ch =>
          rw [fetched] at none
          exact absurd none (List.cons_ne_nil _ _)

/-- A loop of `pipewrite` stores nothing in a full pipe. -/
theorem pipewriteGo_of_full (full : pi.full = true) : (pipewriteGo env pi i left).2.2 = [] := by
  cases left with
  | zero => rfl
  | succ left =>
    unfold pipewriteGo
    split
    · rfl
    · rfl

/-- Does the loop of `pipewrite` store the byte that comes after `j` others? -/
def Stores (env : PipeEnv) (pi : Pipe) (i j : Nat) : Prop :=
  (!pi.readopen || env.killed (i + j)) = false ∧ pi.nwrite + .ofNat j ≠ pi.nread + 512 ∧
    env.copyin (i + j) ≠ none

/-- The bytes behind the first one. -/
theorem stores_put {ch : UInt8} {j : Nat} :
    Stores env (pi.put ch) (i + 1) j ↔ Stores env pi i (j + 1) := by
  have count : pi.nwrite + 1 + .ofNat j = pi.nwrite + .ofNat (j + 1) := by
    rw [UInt32.add_assoc, UInt32.add_comm 1, UInt32.ofNat_add]
    rfl
  simp only [Stores, Pipe.put, count, Nat.add_assoc, Nat.add_comm 1]

/-- A loop of `pipewrite` fails where it finds the reader gone or the writer killed, after the bytes
that it has stored. -/
theorem pipewriteGo_failed (env : PipeEnv) (left : Nat) : ∀ (pi : Pipe) (i stored : Nat),
    (pipewriteGo env pi i left).1 = .failed ∧ (pipewriteGo env pi i left).2.2.length = stored ↔
      stored < left ∧ (!pi.readopen || env.killed (i + stored)) = true ∧
        ∀ j < stored, Stores env pi i j := by
  induction left with
  | zero =>
    intro pi i stored
    simp [pipewriteGo]
  | succ left ih =>
    intro pi i stored
    -- a loop that does not fail in the first iteration, and does not store a byte in it
    have ends : (!pi.readopen || env.killed i) ≠ true → ¬Stores env pi i 0 →
        ¬(stored < left + 1 ∧ (!pi.readopen || env.killed (i + stored)) = true ∧
          ∀ j < stored, Stores env pi i j) := by
      rintro goes none ⟨-, stops, all⟩
      rcases stored.eq_zero_or_pos with rfl | positive
      · exact goes stops
      · exact none (all 0 positive)
    unfold pipewriteGo
    split
    · rename_i stops
      constructor
      · rintro ⟨-, rfl⟩
        exact ⟨left.succ_pos, stops, fun j below => absurd below j.not_lt_zero⟩
      · rintro ⟨-, -, all⟩
        rcases stored.eq_zero_or_pos with rfl | positive
        · exact ⟨rfl, rfl⟩
        · exact absurd (stops.symm.trans (all 0 positive).1) (by decide)
    · rename_i goes
      split
      · rename_i full
        refine iff_of_false (by simp) (ends goes fun stores => stores.2.1 ?_)
        simpa [Pipe.full] using full
      · rename_i room
        cases fetched : env.copyin i with
        | none => exact iff_of_false (by simp) (ends goes fun stores => stores.2.2 fetched)
        | some ch =>
          cases stored with
          | zero => exact iff_of_false (by simp) fun fails => goes fails.2.1
          | succ stored =>
            have rest := ih (pi.put ch) (i + 1) stored
            simp only [stores_put, Nat.add_assoc, Nat.add_comm 1] at rest
            simp only [List.length_cons, Nat.add_left_inj]
            rw [rest]
            constructor
            · rintro ⟨below, stops, all⟩
              refine ⟨by omega, stops, fun j bound => ?_⟩
              cases j with
              | zero =>
                exact ⟨by simpa using goes, by simpa [Pipe.full] using room, by simp [fetched]⟩
              | succ j => exact all j (by omega)
            · rintro ⟨below, stops, all⟩
              exact ⟨by omega, stops, fun j bound => all _ (by omega)⟩

/-- `pipewrite` goes to sleep on a full pipe that has a reader. -/
theorem pipewriteGo_full (env : PipeEnv) (left : Nat) : ∀ (pi : Pipe) (i j : Nat),
    (pipewriteGo env pi i left).1 = .full j →
    (pipewriteGo env pi i left).2.1.full = true ∧
    (pipewriteGo env pi i left).2.1.readopen = true := by
  induction left with
  | zero =>
    intro pi i j exit
    cases exit
  | succ left ih =>
    intro pi i j exit
    unfold pipewriteGo at exit ⊢
    split
    · rename_i gone
      rw [if_pos gone] at exit
      cases exit
    · rename_i present
      rw [if_neg present] at exit
      split
      · rename_i full
        refine ⟨full, ?_⟩
        simp only [Bool.or_eq_true, Bool.not_eq_true', not_or, Bool.not_eq_false] at present
        exact present.1
      · rename_i room
        rw [if_neg room] at exit
        cases fetched : env.copyin i with
        | none =>
          rw [fetched] at exit
          cases exit
        | some ch =>
          rw [fetched] at exit
          exact ih (pi.put ch) (i + 1) j exit

end Loops

/-- Nobody sleeps on a channel after its `wakeup`. -/
theorem wakeup_asleep {s : PipeState ι} {c : PipeChan}
    (asleep : (s.wakeup chan).asleep q = some c) : s.asleep q = some c ∧ c ≠ chan := by
  obtain ⟨other, asleep⟩ := ite_none_left_eq_some.mp asleep
  refine ⟨asleep, fun same => other ?_⟩
  rw [asleep, same]

variable [DecidableEq ι]

/-- Nobody else falls asleep. -/
theorem sleep_of_ne {s : PipeState ι} (other : q ≠ p) :
    (s.sleep p chan).asleep q = s.asleep q := update_of_ne other ..

/-- The process sleeps. -/
theorem sleep_self {s : PipeState ι} :
    (s.sleep p chan).asleep p = some chan := update_self ..

/-- Does a `kill` of the writer arrive when it has stored some bytes but not all? -/
def KilledMidway (s : PipeState ι) (p : ι) (copyin : Nat → Option UInt8) (killedFrom : Option Nat)
    (i left : Nat) : Prop :=
  s.pi.readopen = true ∧ s.killed p = false ∧ ∃ stored, 0 < stored ∧ stored < left ∧
    killedFrom = some (i + stored) ∧ ∀ j < stored,
      s.pi.nwrite + .ofNat j ≠ s.pi.nread + 512 ∧ copyin (i + j) ≠ none

/-- Does that happen while a reader sleeps? -/
def Strands (s : PipeState ι) : PipeAction ι → Prop
  | .run p copyin _ killedFrom =>
    match s.call p with
    | .writing i n =>
      KilledMidway s p copyin killedFrom i (n - i).toNat ∧ ∃ q, s.asleep q = some .nread
    | _ => False
  | _ => False

omit [DecidableEq ι] in
/-- The loop of `pipewrite` fails after it has stored bytes exactly if a `kill` arrives then. -/
theorem failed_stored {s : PipeState ι} {copyin : Nat → Option UInt8} {copyout : Nat → Bool}
    {killedFrom : Option Nat} {i left : Nat} :
    (pipewriteGo (s.env p copyin copyout killedFrom) s.pi i left).1 = .failed ∧
      (pipewriteGo (s.env p copyin copyout killedFrom) s.pi i left).2.2 ≠ [] ↔
    KilledMidway s p copyin killedFrom i left := by
  have loop := pipewriteGo_failed (s.env p copyin copyout killedFrom) left s.pi i
  constructor
  · rintro ⟨failed, nonempty⟩
    have positive := List.length_pos_iff.mpr nonempty
    obtain ⟨below, stops, all⟩ := (loop _).mp ⟨failed, rfl⟩
    generalize (pipewriteGo (s.env p copyin copyout killedFrom) s.pi i left).2.2.length = stored
      at positive below stops all
    have first := (all 0 positive).1
    have last := (all (stored - 1) (by omega)).1
    simp only [env, Bool.or_eq_false_iff, Bool.not_eq_false'] at first last
    refine ⟨first.1, first.2.1, stored, positive, below, ?_, fun j bound => (all j bound).2⟩
    simp only [env, first.1, first.2.1, Bool.not_true, Bool.false_or] at stops
    cases killedFrom with
    | none => contradiction
    | some k =>
      simp only [any_some, decide_eq_true_eq, decide_eq_false_iff_not] at stops last
      exact congrArg some (by omega)
  · rintro ⟨open_, alive, stored, positive, below, rfl, all⟩
    have running : ∀ j < stored, (!s.pi.readopen ||
        (s.env p copyin copyout (some (i + stored))).killed (i + j)) = false := by
      intro j bound
      simp only [env, open_, alive, any_some, Bool.not_true, Bool.false_or,
        decide_eq_false_iff_not]
      omega
    obtain ⟨failed, length⟩ := (loop stored).mpr
      ⟨below, by simp [env], fun j bound => ⟨running j bound, all j bound⟩⟩
    exact ⟨failed, List.length_pos_iff.mp (by omega)⟩

/-- The interleavings in which no action strands a reader. -/
def carefulPipe (ι : Type) [DecidableEq ι] : StepSystem (PipeState ι) PipeEvent where
  init := (pipeSystem ι).init
  step s event t := s.freed = false ∧ ∃ action, s.next action = some (t, event) ∧ ¬Strands s action

section Steps

variable {s t : PipeState ι}

/-- A section of `pipewrite` strands nobody unless it stores bytes, fails and a reader sleeps. -/
theorem writeSection_stranded (p : ι) (i : Nat) (n : Int) (env : PipeEnv) (fine : NoneStranded s)
    (careful : ¬((pipewriteGo env s.pi i (n - i).toNat).1 = .failed ∧
      (pipewriteGo env s.pi i (n - i).toNat).2.2 ≠ [] ∧ ∃ q, s.asleep q = some .nread)) :
    NoneStranded (s.writeSection p i n env).1 := by
  obtain ⟨readers, writers⟩ := fine
  have unmoved : (pipewriteGo env s.pi i (n - i).toNat).2.2 = [] →
      (pipewriteGo env s.pi i (n - i).toNat).2.1 = s.pi := pipewriteGo_nil
  have filled : s.pi.full = true → (pipewriteGo env s.pi i (n - i).toNat).2.2 = [] :=
    pipewriteGo_of_full
  have slept := pipewriteGo_full env (n - i).toNat s.pi i
  unfold writeSection
  generalize pipewriteGo env s.pi i (n - i).toNat = result at careful unmoved filled slept ⊢
  obtain ⟨exit, pi, bytes⟩ := result
  -- a writer sleeps on a full pipe, in which nothing is stored
  have waiting : ∀ q, s.asleep q = some .nwrite → pi.nwrite = pi.nread + 512 ∧
    pi.readopen = true := by
    intro q asleep
    obtain ⟨full, present⟩ := writers q asleep
    have same : pi = s.pi := unmoved (filled (by simp [Pipe.full, full]))
    rw [same]
    exact ⟨full, present⟩
  cases exit with
  | failed =>
    refine ⟨fun q asleep => ?_, fun q asleep => waiting q asleep⟩
    have same : pi = s.pi := by
      apply unmoved
      by_contra stored
      exact careful ⟨rfl, stored, q, asleep⟩
    show pi.nread = pi.nwrite ∧ pi.writeopen = true
    rw [same]
    exact readers q asleep
  | full j =>
    obtain ⟨full, present⟩ := slept j rfl
    have nwrite : pi.nwrite = pi.nread + 512 := by simpa [Pipe.full] using full
    refine ⟨fun q asleep => ?_, fun q asleep => ⟨nwrite, present⟩⟩
    by_cases self : q = p
    · subst self
      have here := asleep.symm.trans sleep_self
      contradiction
    · have there := (sleep_of_ne self).symm.trans asleep
      exact absurd rfl (wakeup_asleep there).2
  | done j =>
    refine ⟨fun q asleep => ?_, fun q asleep => ?_⟩
    · exact absurd rfl (wakeup_asleep asleep).2
    · exact waiting q (wakeup_asleep asleep).1

/-- A section of `piperead` strands nobody. -/
theorem readSection_stranded (p : ι) (n : Int) (env : PipeEnv) (fine : NoneStranded s) :
    NoneStranded (s.readSection p n env).1 := by
  obtain ⟨readers, writers⟩ := fine
  unfold readSection
  split
  · rename_i waits
    rw [Bool.and_eq_true] at waits
    have empty : s.pi.nread = s.pi.nwrite := by simpa [Pipe.empty] using waits.1
    split
    · exact ⟨readers, writers⟩
    · refine ⟨fun q _ => ⟨empty, waits.2⟩, fun q asleep => ?_⟩
      by_cases self : q = p
      · subst self
        have here := asleep.symm.trans sleep_self
        contradiction
      · exact writers q ((sleep_of_ne self).symm.trans asleep)
  · rename_i goes
    refine ⟨fun q asleep => ?_, fun q asleep => ?_⟩
    · obtain ⟨empty, present⟩ := readers q (wakeup_asleep asleep).1
      exact absurd (by simp [Pipe.empty, empty, present]) goes
    · exact absurd rfl (wakeup_asleep asleep).2

omit [DecidableEq ι] in
/-- `pipeclose` strands nobody. -/
theorem pipeclose_stranded (writable : Bool) (fine : NoneStranded s) :
    NoneStranded (s.pipeclose writable) := by
  obtain ⟨readers, writers⟩ := fine
  -- whether the page is freed makes no difference here
  suffices kept : ∀ u : PipeState ι, NoneStranded u →
      NoneStranded (if !u.pi.readopen && !u.pi.writeopen then { u with freed := true } else u) by
    cases writable with
    | true =>
      apply kept
      exact ⟨fun q asleep => absurd rfl (wakeup_asleep asleep).2,
        fun q asleep => writers q (wakeup_asleep asleep).1⟩
    | false =>
      apply kept
      exact ⟨fun q asleep => readers q (wakeup_asleep asleep).1,
        fun q asleep => absurd rfl (wakeup_asleep asleep).2⟩
  intro u fine
  split
  · exact fine
  · exact fine

/-- An action that strands no reader leaves nobody stranded. -/
theorem next_stranded (fine : NoneStranded s)
    (stepped : s.next action = some (t, event)) (careful : ¬Strands s action) : NoneStranded t := by
  cases action with
  | pipewrite | piperead =>
    simp only [next] at stepped
    split at stepped
    · cases stepped
      exact fine
    · contradiction
  | run p copyin copyout killedFrom =>
    simp only [next] at stepped
    split at stepped
    · contradiction
    · cases called : s.call p with
      | idle result => simp [called] at stepped
      | writing i n =>
        simp only [called, some.injEq] at stepped
        simp only [Strands, called] at careful
        have stores := @failed_stored _ p s copyin copyout killedFrom i (n - i).toNat
        have kept := writeSection_stranded
          (s := { s with killed := update s.killed p (s.killed p || killedFrom.isSome) })
          p i n (s.env p copyin copyout killedFrom) fine
          (by rwa [← and_assoc, stores])
        rwa [stepped] at kept
      | reading n =>
        simp only [called, some.injEq] at stepped
        have kept := readSection_stranded
          (s := { s with killed := update s.killed p (s.killed p || killedFrom.isSome) })
          p n (s.env p copyin copyout killedFrom) fine
        rwa [stepped] at kept
  | pipeclose writable =>
    cases stepped
    exact pipeclose_stranded writable fine
  | kill p =>
    cases stepped
    have awake : ∀ q chan, update s.asleep p none q = some chan → s.asleep q = some chan := by
      intro q chan asleep
      by_cases self : q = p
      · subst self
        simp at asleep
      · rwa [update_of_ne self] at asleep
    exact ⟨fun q asleep => fine.1 q (awake q _ asleep), fun q asleep => fine.2 q (awake q _ asleep)⟩

/-- An action that strands a reader leaves it asleep beside the bytes it waits for. -/
theorem strands_reader {put taken : List UInt8}
    (carries : Carries s.pi put taken) (stepped : s.next action = some (t, event))
    (strands : Strands s action) : ∃ q, t.asleep q = some .nread ∧ t.pi.nread ≠ t.pi.nwrite := by
  have later := next_carries s t action event carries stepped
  cases action with
  | run p copyin copyout killedFrom =>
    obtain ⟨-, stepped⟩ := ite_none_left_eq_some.mp stepped
    cases called : s.call p with
    | idle result => simp [called] at stepped
    | reading n => simp only [Strands, called] at strands
    | writing i n =>
      simp only [called, some.injEq, writeSection] at stepped
      simp only [Strands, called] at strands
      obtain ⟨strands, q, asleep⟩ := strands
      obtain ⟨failed, stored⟩ :=
        (@failed_stored _ p s copyin copyout killedFrom i _).mpr strands
      generalize pipewriteGo (s.env p copyin copyout killedFrom) s.pi i (n - i).toNat = result
        at stepped failed stored
      obtain ⟨exit, pi, bytes⟩ := result
      obtain rfl : exit = .failed := failed
      cases stepped
      refine ⟨q, asleep, fun same => ?_⟩
      have counts := (later.empty_iff (by decide)).mp (congrArg UInt32.toNat same)
      have bound := carries.taken_le
      have positive : 0 < bytes.length := List.length_pos_iff.mpr stored
      simp only [List.append_nil, List.length_append] at counts
      omega
  | _ => exact strands.elim

end Steps

/-- In an interleaving in which no killed writer leaves bytes to a sleeping reader, no process
sleeps on a satisfied condition; and a further action keeps it so exactly if it does not do
that. -/
theorem pipe_sleepers {trace : List PipeEvent} {s : PipeState ι}
    (run : (carefulPipe ι).Exec trace s) :
    NoneStranded s ∧ (s.freed = false → ∀ action t event, s.next action = some (t, event) →
      (NoneStranded t ↔ ¬Strands s action)) := by
  have both : NoneStranded s ∧ Carries s.pi (putBytes trace) (takenBytes trace) := by
    refine run.invariant (fun trace s => NoneStranded s ∧
      Carries s.pi (putBytes trace) (takenBytes trace)) ?_ ?_
    · rintro s ⟨junk, rfl⟩
      refine ⟨⟨fun p asleep => ?_, fun p asleep => ?_⟩, pipealloc_carries junk⟩
      · contradiction
      · contradiction
    · rintro trace s event t ⟨fine, carries⟩ ⟨-, action, stepped, careful⟩
      have kept := next_carries s t action event carries stepped
      refine ⟨next_stranded fine stepped careful, ?_⟩
      simpa [putBytes, takenBytes] using kept
  obtain ⟨fine, carries⟩ := both
  refine ⟨fine, fun _ action t event stepped => ⟨fun after strands => ?_, ?_⟩⟩
  · obtain ⟨q, asleep, waiting⟩ := strands_reader carries stepped strands
    exact waiting (after.1 q asleep).1
  · exact next_stranded fine stepped

/-- A reader sleeps on the empty pipe, until a writer stores a byte and wakes it up. -/
theorem pipe_sleepers_reader : ∃ s t : PipeState Bool,
    (carefulPipe Bool).Exec [{}, {}] s ∧ s.asleep false = some .nread ∧ NoneStranded s ∧
    (carefulPipe Bool).Exec [{}, {}, {}, { put := [7] }] t ∧ t.asleep false = none ∧
    t.pi.nread ≠ t.pi.nwrite ∧ NoneStranded t := by
  have start : (carefulPipe Bool).Exec [] _ := .start ⟨fun _ => 0, rfl⟩
  have called := start.next ⟨rfl, .piperead false 1, rfl, id⟩
  have slept := called.next ⟨rfl, .run false (fun _ => none) (fun _ => true) none, rfl, id⟩
  have asked := slept.next ⟨rfl, .pipewrite true 1, rfl, id⟩
  have wrote := asked.next ⟨rfl, .run true (fun _ => some 7) (fun _ => true) none, rfl,
    by rintro ⟨⟨-, -, _, -, -, killed, -⟩, -⟩; contradiction⟩
  exact ⟨_, _, slept, rfl, (pipe_sleepers slept).1, wrote, rfl, by decide, (pipe_sleepers wrote).1⟩

/-- A reader sleeps on the empty pipe; a writer stores a byte, is killed and returns -1. The
reader sleeps on, beside the byte. -/
theorem pipe_reader_stranded : ∃ trace, ∃ s : PipeState Bool, (pipeSystem Bool).Exec trace s ∧
    s.call true = .idle (some (-1)) ∧ s.asleep false = some .nread ∧ s.pi.nread ≠ s.pi.nwrite := by
  have start : (pipeSystem Bool).Exec [] _ := .start ⟨fun _ => 0, rfl⟩
  have called := start.next ⟨rfl, .piperead false 1, rfl⟩
  have slept := called.next ⟨rfl, .run false (fun _ => none) (fun _ => true) none, rfl⟩
  have asked := slept.next ⟨rfl, .pipewrite true 2, rfl⟩
  have killed := asked.next ⟨rfl, .run true (fun _ => some 7) (fun _ => true) (some 1), rfl⟩
  exact ⟨_, _, killed, rfl, rfl, by decide⟩

end Xv6Cos.Verif
