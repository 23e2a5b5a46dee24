import Xv6Cos.Kernel.Pipe
import Xv6Cos.Lib.Ring

/-!
# The byte stream of a pipe

The pipe's buffer is a ring whose counters wrap at 2³²; its capacity divides that modulus.
`Carries` states that the buffer and counters hold exactly the bytes put in and not yet
taken out. Each loop iteration keeps it, hence each critical section, hence every
interleaving, for streams of any length.
-/

namespace Xv6Cos.Verif

open Kernel Transition List PipeState Bool

theorem pipesize_ne_zero : PIPESIZE ≠ 0 := by decide

instance : NeZero PIPESIZE := ⟨pipesize_ne_zero⟩

/-- The pipe has received `put` and delivered `taken`. -/
def Carries (pi : Pipe) (put taken : List UInt8) : Prop :=
  Ring.Holds PIPESIZE (2 ^ 32) pi.data pi.nread.toNat pi.nwrite.toNat put taken

variable {pi : Pipe} {put taken : List UInt8}

/-- The ring's capacity divides its counter modulus. -/
theorem pipesize_dvd : PIPESIZE ∣ 2 ^ 32 := by decide

/-- A pipe just allocated carries nothing. -/
theorem pipealloc_carries (junk : Fin PIPESIZE → UInt8) :
    Carries (Pipe.pipealloc junk) [] [] := Ring.holds_empty junk

/-- A byte stored in a pipe that is not full joins the stream. -/
theorem put_carries (carries : Carries pi put taken) (ch : UInt8) (room : pi.full = false) :
    Carries (pi.put ch) (put ++ [ch]) taken := by
  have notFull : put.length ≠ taken.length + PIPESIZE := by
    intro full
    have ahead := (carries.full_iff (by decide)).mpr full
    have same : pi.nwrite = pi.nread + 512 := by
      apply UInt32.toNat_inj.mp
      rw [UInt32.toNat_add]
      exact ahead
    simp [Pipe.full, same] at room
  have bound := carries.room
  have pushed := carries.push pipesize_dvd ch (by omega)
  rw [Carries, Pipe.put, UInt32.toNat_add]
  exact pushed

/-- The byte fetched from a pipe that is not empty is the next one of the stream. -/
theorem skip_carries (carries : Carries pi put taken) (waiting : pi.empty = false) :
    Carries pi.skip put (taken ++ [pi.front]) := by
  have notEmpty : taken.length ≠ put.length := by
    intro same
    have counters := (carries.empty_iff (by decide)).mpr same
    simp [Pipe.empty, UInt32.toNat_inj.mp counters] at waiting
  have bound := carries.taken_le
  have popped := carries.pop pipesize_dvd (by omega)
  rw [Carries, Pipe.skip, UInt32.toNat_add]
  exact popped

/-- The loop of `pipewrite` appends the bytes it reports, and nothing else, to the stream. -/
theorem pipewriteGo_carries (env : PipeEnv) (left : Nat) : ∀ (pi : Pipe) (i : Nat)
    (put : List UInt8), Carries pi put taken →
    Carries (pipewriteGo env pi i left).2.1 (put ++ (pipewriteGo env pi i left).2.2) taken := by
  induction left with
  | zero =>
    intro pi i put carries
    simpa [pipewriteGo] using carries
  | succ left ih =>
    intro pi i put carries
    unfold pipewriteGo
    split
    · simpa using carries
    · split
      · simpa using carries
      · rename_i room
        cases env.copyin i with
        | none => simpa using carries
        | some ch =>
          have later := ih (pi.put ch) (i + 1) _
            (put_carries carries ch (eq_false_iff.mpr room))
          simpa [append_assoc] using later

/-- The loop of `piperead` takes the bytes it reports, and nothing else, from the stream. -/
theorem pipereadGo_carries (env : PipeEnv) (left : Nat) : ∀ (pi : Pipe) (i : Nat)
    (taken : List UInt8), Carries pi put taken →
    Carries (pipereadGo env pi i left).2.1 put (taken ++ (pipereadGo env pi i left).2.2) := by
  induction left with
  | zero =>
    intro pi i taken carries
    simpa [pipereadGo] using carries
  | succ left ih =>
    intro pi i taken carries
    unfold pipereadGo
    split
    · simpa using carries
    · rename_i waiting
      have next := skip_carries carries (eq_false_iff.mpr waiting)
      split
      · exact next
      · simpa [append_assoc] using ih pi.skip (i + 1) _ next

section Interleaving

variable {ι : Type} [DecidableEq ι]

/-- A section of `pipewrite` extends the bytes put in by those it reports. -/
theorem writeSection_carries (s : PipeState ι) (p : ι) (i : Nat) (n : Int) (env : PipeEnv)
    (carries : Carries s.pi put taken) :
    Carries (s.writeSection p i n env).1.pi (put ++ (s.writeSection p i n env).2.put)
      (taken ++ (s.writeSection p i n env).2.taken) := by
  have loop := pipewriteGo_carries env (n - i).toNat s.pi i put carries
  unfold writeSection
  generalize pipewriteGo env s.pi i (n - i).toNat = result at loop ⊢
  obtain ⟨exit, pi, bytes⟩ := result
  cases exit <;> simpa [setCall, sleep, wakeup] using loop

/-- A section of `piperead` extends the bytes taken out by those it reports. -/
theorem readSection_carries (s : PipeState ι) (p : ι) (n : Int) (env : PipeEnv)
    (carries : Carries s.pi put taken) :
    Carries (s.readSection p n env).1.pi (put ++ (s.readSection p n env).2.put)
      (taken ++ (s.readSection p n env).2.taken) := by
  unfold readSection
  split
  · split <;> simpa [setCall, sleep] using carries
  · simpa [setCall, wakeup] using
      pipereadGo_carries env n.toNat s.pi 0 taken carries

omit [DecidableEq ι] in
/-- Closing an end moves no byte. -/
theorem pipeclose_carries (s : PipeState ι) (writable : Bool)
    (carries : Carries s.pi put taken) : Carries (s.pipeclose writable).pi put taken := by
  have kept : (s.pipeclose writable).pi.data = s.pi.data ∧
      (s.pipeclose writable).pi.nread = s.pi.nread ∧
      (s.pipeclose writable).pi.nwrite = s.pi.nwrite := by
    cases writable <;> simp only [PipeState.pipeclose, wakeup, false_eq_true,
      ↓reduceIte] <;> split <;> simp
  obtain ⟨data, nread, nwrite⟩ := kept
  rw [Carries, data, nread, nwrite]
  exact carries

/-- Every action keeps the stream, extended by the bytes its event reports. -/
theorem next_carries (s t : PipeState ι) (action : PipeAction ι) (event : PipeEvent)
    (carries : Carries s.pi put taken) (stepped : s.next action = some (t, event)) :
    Carries t.pi (put ++ event.put) (taken ++ event.taken) := by
  cases action with
  | pipewrite | piperead =>
    simp only [PipeState.next] at stepped
    split at stepped
    · cases stepped
      simpa [setCall] using carries
    · contradiction
  | run p copyin copyout killedFrom =>
    simp only [PipeState.next] at stepped
    split at stepped
    · contradiction
    · cases called : s.call p with
      | idle result => simp [called] at stepped
      | writing i n =>
        simp only [called, Option.some.injEq] at stepped
        have kept := writeSection_carries
          { s with killed := Function.update s.killed p (s.killed p || killedFrom.isSome) } p i n
          (s.env p copyin copyout killedFrom) carries
        rwa [stepped] at kept
      | reading n =>
        simp only [called, Option.some.injEq] at stepped
        have kept := readSection_carries
          { s with killed := Function.update s.killed p (s.killed p || killedFrom.isSome) } p n
          (s.env p copyin copyout killedFrom) carries
        rwa [stepped] at kept
  | pipeclose writable =>
    cases stepped
    simpa using pipeclose_carries s writable carries
  | kill p =>
    cases stepped
    simpa using carries

/-- After every run the pipe carries the bytes of its trace. -/
theorem exec_carries {trace : List PipeEvent} {s : PipeState ι}
    (run : (pipeSystem ι).Exec trace s) :
    Carries s.pi (putBytes trace) (takenBytes trace) := by
  refine run.invariant (fun trace s => Carries s.pi (putBytes trace) (takenBytes trace)) ?_ ?_
  · rintro s ⟨junk, rfl⟩
    exact pipealloc_carries junk
  · rintro trace s event t carries ⟨_, action, stepped⟩
    have kept := next_carries s t action event carries stepped
    simpa [putBytes, takenBytes] using kept

/-- For any interleaving of `pipewrite`, `piperead` and `pipeclose` on one pipe, the bytes
taken out are a prefix of the bytes put in, and the wrapped difference of the counters is
the number of bytes in between, at most `PIPESIZE`. -/
theorem pipe_stream (trace : List PipeEvent) (s : PipeState ι) (run : (pipeSystem ι).Exec trace s) :
    takenBytes trace <+: putBytes trace ∧
      (s.pi.nwrite - s.pi.nread).toNat = (putBytes trace).length - (takenBytes trace).length ∧
      (s.pi.nwrite - s.pi.nread).toNat ≤ PIPESIZE := by
  have carries := exec_carries run
  have count : (s.pi.nwrite - s.pi.nread).toNat =
      (putBytes trace).length - (takenBytes trace).length := by
    rw [UInt32.toNat_sub]
    exact carries.occupancy (by decide)
  have room := carries.room
  exact ⟨carries.order, count, by omega⟩

end Interleaving

/-- One process writes a byte and reads it back. -/
theorem pipe_stream_byte : ∃ s : PipeState Unit,
    (pipeSystem Unit).Exec [{}, { put := [7] }, {}, { taken := [7] }] s ∧
      takenBytes [{}, { put := [7] }, {}, { taken := [7] }] <+:
        putBytes [{}, { put := [7] }, {}, { taken := [7] }] ∧
      (s.pi.nwrite - s.pi.nread).toNat ≤ PIPESIZE := by
  have start : (pipeSystem Unit).Exec [] _ := .start ⟨fun _ => 5, rfl⟩
  have called := start.next ⟨rfl, .pipewrite () 1, rfl⟩
  have written := called.next
    ⟨rfl, .run () (fun _ => some 7) (fun _ => true) none, rfl⟩
  have asked := written.next ⟨rfl, .piperead () 1, rfl⟩
  have finished := asked.next
    ⟨rfl, .run () (fun _ => none) (fun _ => true) none, rfl⟩
  have stream := pipe_stream _ _ finished
  exact ⟨_, finished, stream.1, stream.2.2⟩

section Delivery

/-- The bytes that a section of `piperead` stored in user memory: the byte that iteration `k` took
is one of them if its `copyout` succeeded. -/
def delivered (env : PipeEnv) (event : PipeEvent) : Nat :=
  (List.range event.taken.length).countP env.copyout

/-- The number of bytes in the pipe, whatever its counters. -/
def waiting (pi : Pipe) : Nat := (pi.nwrite - pi.nread).toNat

theorem waiting_skip (some : pi.empty = false) : waiting pi.skip + 1 = waiting pi := by
  have apart : pi.nread.toNat ≠ pi.nwrite.toNat := by
    intro same
    simp [Pipe.empty, UInt32.toNat_inj.mp same] at some
  have high := pi.nwrite.toNat_lt
  have low := pi.nread.toNat_lt
  have one : (1 : UInt32).toNat = 1 := rfl
  simp only [waiting, Pipe.skip, UInt32.toNat_sub, UInt32.toNat_add, one]
  omega

theorem waiting_empty (none : pi.empty = true) : waiting pi = 0 := by
  have same : pi.nread = pi.nwrite := by simpa [Pipe.empty] using none
  simp [waiting, same]

/-- The loop of `piperead` counts the bytes it takes, takes no more than there are, and stops before
only at a `copyout` that fails. -/
theorem pipereadGo_taken (env : PipeEnv) (left : Nat) : ∀ (pi : Pipe) (i : Nat),
    (pipereadGo env pi i left).2.1.nread =
        pi.nread + UInt32.ofNat (pipereadGo env pi i left).2.2.length ∧
      (pipereadGo env pi i left).2.2.length ≤ min left (waiting pi) ∧
      ((∀ k < (pipereadGo env pi i left).2.2.length, env.copyout (i + k) = true) →
        (pipereadGo env pi i left).2.2.length = min left (waiting pi)) := by
  induction left with
  | zero =>
    intro pi i
    simp [pipereadGo]
  | succ left ih =>
    intro pi i
    unfold pipereadGo
    split
    · rename_i none
      simp [waiting_empty none]
    · rename_i some
      have step := waiting_skip (eq_false_iff.mpr some)
      split
      · rename_i failed
        refine ⟨rfl, ?_, fun all => ?_⟩
        · simp only [length_singleton]
          omega
        · have here := all 0 (by simp)
          rw [Nat.add_zero] at here
          simp [here] at failed
      · have later := ih pi.skip (i + 1)
        generalize pipereadGo env pi.skip (i + 1) left = loop at later
        obtain ⟨r, pi', bytes⟩ := loop
        obtain ⟨counted, few, all⟩ := later
        simp only [length_cons] at counted few all ⊢
        refine ⟨?_, by omega, fun copied => ?_⟩
        · rw [counted, Pipe.skip, UInt32.ofNat_add, UInt32.add_assoc, UInt32.add_comm 1]
          rfl
        · have rest := all fun k inside => by
            have here := copied (k + 1) (by omega)
            rwa [show i + 1 + k = i + (k + 1) by omega]
          omega

/-- `piperead` advances `nread` by the number of bytes it stored in user memory exactly if every
`copyout` it tries succeeds: the byte it could not copy out is lost. -/
theorem piperead_consumes_delivered {ι : Type} [DecidableEq ι] (s : PipeState ι) (p : ι) (n : Int)
    (env : PipeEnv) :
    (s.readSection p n env).1.pi.nread =
        s.pi.nread + UInt32.ofNat (delivered env (s.readSection p n env).2) ↔
      ∀ k < min n.toNat (waiting s.pi), env.copyout k = true := by
  unfold readSection
  split
  · rename_i waits
    have none := waiting_empty (and_eq_true_iff.mp waits).1
    split <;> simp [none, delivered, setCall, sleep]
  · obtain ⟨counted, few, all⟩ := pipereadGo_taken env n.toNat s.pi 0
    simp only [setCall, wakeup, delivered, counted]
    generalize (pipereadGo env s.pi 0 n.toNat).2.2.length = taken at few all
    simp only [Nat.zero_add] at all
    have fits : taken < 2 ^ 32 := by
      have bound := (s.pi.nwrite - s.pi.nread).toNat_lt
      simp only [waiting] at few
      omega
    have fewer : (range taken).countP env.copyout ≤ taken := by
      have bound := countP_le_length (p := env.copyout) (l := range taken)
      rwa [length_range] at bound
    have exact_iff : (range taken).countP env.copyout = taken ↔
        ∀ k < taken, env.copyout k = true := by
      have every := countP_eq_length (p := env.copyout) (l := range taken)
      rw [length_range] at every
      simpa using every
    constructor
    · intro same k inside
      have equal := congrArg UInt32.toNat (UInt32.add_right_inj s.pi.nread |>.mp same)
      rw [UInt32.toNat_ofNat_of_lt' fits,
        UInt32.toNat_ofNat_of_lt' (Nat.lt_of_le_of_lt fewer fits)] at equal
      have copied := exact_iff.mp equal.symm
      exact copied k (by rw [all copied]; exact inside)
    · intro copied
      rw [exact_iff.mpr fun k inside => copied k (by omega)]

/-- A pipe with one byte, and a reader whose buffer is not mapped: the reader stores nothing and the
byte is gone. -/
theorem piperead_loses_byte : ∃ s : PipeState Unit, ∃ env : PipeEnv,
    waiting s.pi = 1 ∧ delivered env (s.readSection () 1 env).2 = 0 ∧
      waiting (s.readSection () 1 env).1.pi = 0 :=
  ⟨⟨(Pipe.pipealloc fun _ => 0).put 7, false, fun _ => .reading 1, fun _ => none, fun _ => false⟩,
    ⟨fun _ => false, fun _ => none, fun _ => false⟩, rfl, rfl, rfl⟩

end Delivery

end Xv6Cos.Verif
