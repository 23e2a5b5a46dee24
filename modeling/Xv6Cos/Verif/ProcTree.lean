import Xv6Cos.Kernel.Clock
import Xv6Cos.Spec.ProcTree

/-!
# The process tree

A step of the process table is one of a few moves. Most of them leave the kind, the pid and the
parent of every entry alone and only take a process on in its call. The others give an entry to a
new process, set its parent, start it, give a child to `initproc`, end a process or free it. What
holds of parents, pids and `wait` in every run is kept by each move.
-/

namespace Xv6Cos.Verif

open Kernel Spec Transition Function List Option ProcTable

variable {t t' : ProcTable} {event : ProcEvent} {trace : List ProcEvent} {p q : Fin NPROC}
  {a b : EntryState} {np pp : Fin NPROC} {result : MemoryResult} {pid : BitVec 32}
  {status : Option Int} {times : Option (BitVec 32 × BitVec 32)}
  {e : Entry} {position : Position} {action : ProcAction}

section Moves

/-- A call of `fork` has this entry in its hands. -/
def Forks (position : Position) (np : Fin NPROC) : Prop :=
  (∃ pid, position = .forkParent np pid) ∨ ∃ pid, position = .forkRun np pid

/-- The process is in `exit`. -/
def Exits : Position → Prop
  | .exitStart _ | .exitReparent _ _ | .exitWakeInit _ _ _ | .exitWakeParent _ _ _ => True
  | _ => False

/-- `reparent` has dealt with this entry. -/
def Passed (q : Fin NPROC) : Position → Prop
  | .exitReparent _ i => q < i
  | .exitWakeInit _ i _ => q ≤ i
  | .exitWakeParent _ _ _ => True
  | _ => False

theorem Passed.exits (passed : Passed q position) : Exits position := by
  unfold Passed at passed
  split at passed
  · trivial
  · trivial
  · trivial
  · exact passed.elim

/-- Two states of an entry between which only the scheduler decides. -/
def SameKind (a b : EntryState) : Prop := a = b ∨ Living a ∧ Living b

/-- Entries of the same kind with the same pid and parent. -/
structure Alike (a b : Entry) : Prop where
  kind : SameKind a.state b.state
  pid : a.pid = b.pid
  parent : a.parent = b.parent

/-- Entries with the same running time, creation and exit. -/
def SameTimes (a b : Entry) : Prop := a.rtime = b.rtime ∧ a.ctime = b.ctime ∧ a.etime = b.etime

theorem Alike.refl (e : Entry) : Alike e e := ⟨.inl rfl, rfl, rfl⟩

theorem SameKind.living (same : SameKind a b) : Living a ↔ Living b := by
  rcases same with rfl | ⟨here, there⟩
  · exact Iff.rfl
  · exact ⟨fun _ => there, fun _ => here⟩

/-- Entries of the same kind are in the same state, unless they live. -/
theorem SameKind.state_iff (same : SameKind a b) {state : EntryState}
    (dead : ¬Living state) : a = state ↔ b = state := by
  rcases same with rfl | ⟨here, there⟩
  · exact Iff.rfl
  · constructor
    · rintro rfl
      exact absurd here dead
    · rintro rfl
      exact absurd there dead

theorem not_living_unused : ¬Living .unused := by
  unfold Living
  decide

theorem not_living_used : ¬Living .used := by
  unfold Living
  decide

theorem not_living_zombie : ¬Living .zombie := by
  unfold Living
  decide

/-- Where a process may go in a step that changes nothing else of interest. -/
structure Follows (t : ProcTable) (event : ProcEvent) (p : Fin NPROC) (position : Position) :
    Prop where
  living : position ≠ .user → t.position p = position ∨ Living (t.entry p).state
  forks : ∀ np, Forks position np → t.position p = position
  passed : ∀ q, Passed q position → Passed q (t.position p) ∨ (t.entry q).parent ≠ some p
  exits : Exits position → Exits (t.position p) ∨
    p ≠ t.initproc ∧ ∃ status, event = .exiting p (t.entry p).pid status

/-- A step of a process `p` that changes the entry `q` to `e`. -/
inductive EntryChange (t : ProcTable) :
    Fin NPROC → Position → Fin NPROC → Entry → ProcEvent → Prop
  | allocate {p np : Fin NPROC} (living : Living (t.entry p).state)
      (unused : (t.entry np).state = .unused) :
      EntryChange t p (.forkParent np t.nextpid) np { t.entry np with
        pid := t.nextpid, rtime := 0, etime := 0, ctime := t.ticks, state := .used }
        (.allocated p np t.nextpid)
  | allocateFail {p np : Fin NPROC} {e : Entry} (unused : (t.entry np).state = .unused)
      (freed : e.state = .unused) (parent : e.parent = none) :
      EntryChange t p .user np e (.forkFailed p np t.nextpid)
  | setParent {p np : Fin NPROC} {pid : BitVec 32} (living : Living (t.entry p).state)
      (here : t.position p = .forkParent np pid) :
      EntryChange t p (.forkRun np pid) np { t.entry np with parent := some p } .silent
  | start {p np : Fin NPROC} {pid : BitVec 32} (here : t.position p = .forkRun np pid) :
      EntryChange t p .user np { t.entry np with state := .runnable } (.forked p pid)
  | reparent {p q : Fin NPROC} {status : Int} (living : Living (t.entry p).state)
      (here : t.position p = .exitReparent status q) (child : (t.entry q).parent = some p) :
      EntryChange t p (.exitWakeInit status q 0) q
        { t.entry q with parent := some t.initproc } .silent
  | die {p : Fin NPROC} {status : Int} {parent : Option (Fin NPROC)} {j : ℕ}
      (running : (t.entry p).state = .running)
      (here : t.position p = .exitWakeParent status parent j) :
      EntryChange t p .user p
        { t.entry p with xstate := status, state := .zombie, etime := t.ticks }
        .silent
  | reap {p pp : Fin NPROC} {status : Option Int} {times : Option (BitVec 32 × BitVec 32)}
      (zombie : (t.entry pp).state = .zombie) :
      EntryChange t p .user pp (t.entry pp).freeproc (.reaped p pp (t.entry pp).pid status times)

/-- What a step can do to entries and positions. -/
inductive TableEffect (t : ProcTable) (action : ProcAction) (event : ProcEvent)
    (t' : ProcTable) : Prop
  | quiet (p : Fin NPROC) (position : Position) (entries : ∀ q, Alike (t'.entry q) (t.entry q))
      (times : action.ofClock = false → ∀ q, SameTimes (t'.entry q) (t.entry q))
      (positions : t'.position = update t.position p position)
      (follows : Follows t event p position)
      (pids : takenPids [event] = [] ∧ reapedPids [event] = [])
  | change (p : Fin NPROC) (position : Position) (q : Fin NPROC) (e : Entry)
      (entries : t'.entry = update t.entry q e)
      (positions : t'.position = update t.position p position)
      (change : EntryChange t p position q e event)

/-- What a step can do. -/
structure Move (t : ProcTable) (action : ProcAction) (event : ProcEvent) (t' : ProcTable) :
    Prop where
  effect : TableEffect t action event t'
  nextpid : t'.nextpid = t.nextpid + BitVec.ofNat 32 (takenPids [event]).length
  ticks : action.ofClock = false → t'.ticks = t.ticks
  initproc : t'.initproc = t.initproc

/-- Places outside `exit` where `fork` has no entry in its hands. -/
def Plain : Position → Prop
  | .forkParent _ _ | .forkRun _ _ => False
  | .exitStart _ | .exitReparent _ _ | .exitWakeInit _ _ _ | .exitWakeParent _ _ _ => False
  | _ => True

/-- A process goes where it already is. -/
theorem Follows.stay : Follows t event p (t.position p) :=
  ⟨fun _ => .inl rfl, fun _ _ => rfl, fun _ passed => .inl passed, fun exits => .inl exits⟩

theorem Follows.plain (living : Living (t.entry p).state)
    (plain : Plain position) : Follows t event p position := by
  refine ⟨fun _ => .inr living, ?_, fun q passed => ?_, fun exits => ?_⟩
  · rintro np (⟨_, rfl⟩ | ⟨_, rfl⟩)
    · exact plain.elim
    · exact plain.elim
  · have exits := passed.exits
    cases position <;> first | exact exits.elim | exact plain.elim
  · cases position <;> first | exact exits.elim | exact plain.elim

/-- A process goes on in `exit`. -/
theorem Follows.exit (living : Living (t.entry p).state)
    (exits : Exits (t.position p)) (forks : ∀ np, ¬Forks position np)
    (passed : ∀ q, Passed q position → Passed q (t.position p) ∨ (t.entry q).parent ≠ some p) :
    Follows t event p position :=
  ⟨fun _ => .inr living, fun np holds => absurd holds (forks np), passed, fun _ => .inl exits⟩

/-- Nothing of interest has changed. -/
structure Stirs (t u : ProcTable) : Prop where
  entries : ∀ q, Alike (u.entry q) (t.entry q) ∧ SameTimes (u.entry q) (t.entry q)
  positions : u.position = t.position
  nextpid : u.nextpid = t.nextpid
  ticks : u.ticks = t.ticks
  initproc : u.initproc = t.initproc

variable {u : ProcTable} {chan : Option Chan}

theorem stirs_lock (holder : Option (Fin NPROC)) : Stirs t { t with waitLock := holder } :=
  ⟨fun _ => ⟨.refl _, rfl, rfl, rfl⟩, rfl, rfl, rfl, rfl⟩

theorem stirs_self : Stirs t t := stirs_lock t.waitLock

/-- A change of the state and of fields that nothing here is about. -/
theorem stirs_entry (kind : SameKind e.state (t.entry q).state) (pid : e.pid = (t.entry q).pid)
    (parent : e.parent = (t.entry q).parent) (times : SameTimes e (t.entry q)) :
    Stirs t (t.setEntry q e) := by
  refine ⟨(forall_update_iff t.entry
    fun r e => Alike e (t.entry r) ∧ SameTimes e (t.entry r)).mpr ?_, rfl, rfl, rfl, rfl⟩
  exact ⟨⟨⟨kind, pid, parent⟩, times⟩, fun _ _ => ⟨.refl _, rfl, rfl, rfl⟩⟩

theorem stirs_wake : Stirs t (t.wake chan q) := by
  unfold wake
  split
  · rename_i sleeps
    exact stirs_entry (.inr ⟨.inr (.inl rfl), .inl sleeps.1⟩) rfl rfl ⟨rfl, rfl, rfl⟩
  · exact stirs_self

theorem stirs_wakeEntry : Stirs t (t.wakeEntry p chan q) := by
  unfold wakeEntry
  split
  · exact stirs_self
  · exact stirs_wake

theorem stirs_killEntry : Stirs t (t.killEntry q) := by
  refine stirs_entry ?_ rfl rfl ⟨rfl, rfl, rfl⟩
  by_cases sleeps : (t.entry q).state = .sleeping
  · rw [if_pos sleeps]
    exact .inr ⟨.inr (.inl rfl), .inl sleeps⟩
  · rw [if_neg sleeps]
    exact .inl rfl

theorem stirs_tidyUp : Stirs t (t.tidyUp p) := stirs_entry (.inl rfl) rfl rfl ⟨rfl, rfl, rfl⟩

/-- A quiet step in a call. -/
theorem Stirs.goto (stirs : Stirs t u) (follows : Follows t event p position)
    (pids : takenPids [event] = [] ∧ reapedPids [event] = []) :
    Move t action event (u.goto p position) := by
  refine ⟨.quiet p position (fun q => (stirs.entries q).1) (fun _ q => (stirs.entries q).2) ?_
    follows pids, ?_, fun _ => stirs.ticks, stirs.initproc⟩
  · exact congrArg (update · p position) stirs.positions
  · rw [pids.1]
    exact stirs.nextpid.trans (BitVec.add_zero _).symm

/-- A quiet step without a call. -/
theorem Stirs.stay (stirs : Stirs t u) : Move t action .silent u := by
  have moved : Move t action .silent (u.goto t.initproc (t.position t.initproc)) :=
    stirs.goto .stay ⟨rfl, rfl⟩
  rwa [ProcTable.goto, ← stirs.positions, update_eq_self] at moved

theorem EntryChange.move (change : EntryChange t p position q e event) (entries : u.entry = t.entry)
    (positions : u.position = t.position)
    (nextpid : u.nextpid = t.nextpid + BitVec.ofNat 32 (takenPids [event]).length)
    (ticks : u.ticks = t.ticks) (initproc : u.initproc = t.initproc) :
    Move t action event ((u.setEntry q e).goto p position) := by
  refine ⟨.change p position q e ?_ ?_ change, nextpid, fun _ => ticks, initproc⟩
  · exact congrArg (fun entry : Fin NPROC → Entry => update entry q e) entries
  · exact congrArg (update · p position) positions

/-- `fork` in the critical section of an unused entry. -/
theorem forkAlloc_move (living : Living (t.entry p).state) (unused : (t.entry np).state = .unused)
    (stepped : t.forkAlloc p np result = (t', event)) : Move t action event t' := by
  unfold forkAlloc at stepped
  cases result with
  | ok =>
    cases stepped
    exact (EntryChange.allocate living unused).move rfl rfl rfl rfl rfl
  | noProc | noCopy =>
    cases stepped
    exact (EntryChange.allocateFail unused rfl rfl).move rfl rfl rfl rfl rfl

/-- `wait` at a zombie. -/
theorem reap_move {call : WaitCall}
    (living : Living (t.entry p).state) (zombie : (t.entry pp).state = .zombie)
    (stepped : t.reap p pp call result = (t', event)) : Move t action event t' := by
  unfold ProcTable.reap at stepped
  simp only at stepped
  split at stepped
  · cases stepped
    exact (stirs_lock none).goto (.plain living trivial) ⟨rfl, rfl⟩
  · cases stepped
    exact (EntryChange.reap zombie).move rfl rfl (BitVec.add_zero _).symm rfl rfl

/-- What the next step of a running process in its call can do. -/
theorem advance_move (running : (t.entry p).state = .running)
    (stepped : t.advance p result = some (t', event)) : Move t action event t' := by
  have living : Living (t.entry p).state := .inr (.inr running)
  have goes : ∀ {u position event}, Stirs t u → Plain position →
      takenPids [event] = [] ∧ reapedPids [event] = [] → Move t action event (u.goto p position) :=
    fun stirs plain pids => stirs.goto (.plain living plain) pids
  unfold ProcTable.advance at stepped
  cases here : t.position p <;> simp only [here] at stepped
  case user => contradiction
  case asleep | waitAsleep =>
    cases stepped
    exact goes stirs_tidyUp trivial ⟨rfl, rfl⟩
  case forkScan i =>
    split at stepped
    · split at stepped
      · rename_i inside unused
        exact forkAlloc_move living unused (some.inj stepped)
      · cases stepped
        exact goes stirs_self trivial ⟨rfl, rfl⟩
    · cases stepped
      exact goes stirs_self trivial ⟨rfl, rfl⟩
  case forkParent np pid =>
    split at stepped
    · cases stepped
      exact (EntryChange.setParent living here).move rfl rfl (BitVec.add_zero _).symm rfl rfl
    · contradiction
  case forkRun np pid =>
    cases stepped
    exact (EntryChange.start here).move rfl rfl (BitVec.add_zero _).symm rfl rfl
  case exitStart status =>
    split at stepped
    · cases stepped
      refine (stirs_lock (some p)).goto (.exit living (here ▸ trivial) nofun ?_) ⟨rfl, rfl⟩
      exact fun q passed => absurd passed (Nat.not_lt_zero q)
    · contradiction
  case exitReparent status i =>
    have exits : Exits (t.position p) := here ▸ trivial
    split at stepped
    · rename_i inside
      split at stepped
      · rename_i child
        cases stepped
        exact (EntryChange.reparent (q := ⟨i, inside⟩) living here child).move rfl rfl
          (BitVec.add_zero _).symm rfl rfl
      · rename_i other
        cases stepped
        refine stirs_self.goto (.exit living exits nofun fun q passed => ?_) ⟨rfl, rfl⟩
        rw [here]
        -- the entry at `i` is not a child
        have upTo : q.val ≤ i := Nat.lt_succ_iff.mp passed
        by_cases last : q.val = i
        · right
          rwa [show q = ⟨i, inside⟩ from Fin.ext last]
        · exact .inl (lt_of_le_of_ne upTo last)
    · rename_i outside
      cases stepped
      refine stirs_self.goto (.exit living exits nofun fun q _ => ?_) ⟨rfl, rfl⟩
      rw [here]
      exact .inl (lt_of_lt_of_le q.isLt (not_lt.mp outside))
  case exitWakeInit status i j =>
    have exits : Exits (t.position p) := here ▸ trivial
    split at stepped
    · cases stepped
      exact stirs_wakeEntry.goto (.exit living exits nofun fun q passed => .inl (here ▸ passed))
        ⟨rfl, rfl⟩
    · cases stepped
      refine stirs_self.goto (.exit living exits nofun fun q passed => ?_) ⟨rfl, rfl⟩
      rw [here]
      exact .inl (Nat.lt_succ_iff.mp passed)
  case exitWakeParent status parent j =>
    split at stepped
    · cases stepped
      exact stirs_wakeEntry.goto (.exit living (here ▸ trivial) nofun fun q _ =>
        .inl (here ▸ trivial)) ⟨rfl, rfl⟩
    · cases stepped
      exact (EntryChange.die running here).move rfl rfl (BitVec.add_zero _).symm rfl rfl
  case waitStart call =>
    split at stepped
    · cases stepped
      exact goes (stirs_lock (some p)) trivial ⟨rfl, rfl⟩
    · contradiction
  case waitScan call havekids i =>
    split at stepped
    · split at stepped
      · cases stepped
        exact goes stirs_self trivial ⟨rfl, rfl⟩
      · cases stepped
        exact goes stirs_self trivial ⟨rfl, rfl⟩
    · split at stepped
      · cases stepped
        exact goes (stirs_lock none) trivial ⟨rfl, rfl⟩
      · cases stepped
        exact goes stirs_self trivial ⟨rfl, rfl⟩
  case waitChild call pp =>
    split at stepped
    · rename_i zombie
      exact reap_move living zombie (some.inj stepped)
    · cases stepped
      exact goes stirs_self trivial ⟨rfl, rfl⟩
  case waitSleep call =>
    cases stepped
    have sleeps : Stirs { t with waitLock := none }
        (ProcTable.sleep { t with waitLock := none } p (.proc p)) :=
      stirs_entry (.inr ⟨.inl rfl, living⟩) rfl rfl ⟨rfl, rfl, rfl⟩
    exact goes { sleeps with } trivial ⟨rfl, rfl⟩
  case killScan pid i =>
    split at stepped
    · split at stepped
      · cases stepped
        exact goes stirs_killEntry trivial ⟨rfl, rfl⟩
      · cases stepped
        exact goes stirs_self trivial ⟨rfl, rfl⟩
    · cases stepped
      exact goes stirs_self trivial ⟨rfl, rfl⟩

theorem call_move {c : ProcCall} (running : (t.entry p).state = .running)
    (stepped : t.call p c = some (t', event)) : Move t action event t' := by
  have living : Living (t.entry p).state := .inr (.inr running)
  cases c with
  | exit status =>
    obtain ⟨notInit, stepped⟩ := ite_none_left_eq_some.mp stepped
    cases stepped
    exact stirs_self.goto ⟨fun _ => .inr living, nofun, nofun,
      fun _ => .inr ⟨notInit, status, rfl⟩⟩ ⟨rfl, rfl⟩
  | _ =>
    cases stepped
    exact stirs_self.goto (.plain living trivial) ⟨rfl, rfl⟩

theorem next_move (stepped : t.next action = some (t', event)) : Move t action event t' := by
  cases action with
  | schedule p =>
    obtain ⟨runnable, stepped⟩ := ite_none_right_eq_some.mp stepped
    cases stepped
    have kind : SameKind .running (t.entry p).state := .inr ⟨.inr (.inr rfl), .inr (.inl runnable)⟩
    exact Stirs.stay (stirs_entry kind rfl rfl ⟨rfl, rfl, rfl⟩)
  | yield p =>
    obtain ⟨running, stepped⟩ := ite_none_right_eq_some.mp stepped
    cases stepped
    have kind : SameKind .runnable (t.entry p).state :=
      .inr ⟨.inr (.inl rfl), .inr (.inr running.1)⟩
    exact Stirs.stay (stirs_entry kind rfl rfl ⟨rfl, rfl, rfl⟩)
  | call p c =>
    obtain ⟨ready, stepped⟩ := ite_none_right_eq_some.mp stepped
    exact call_move ready.1 stepped
  | advance p result =>
    obtain ⟨running, stepped⟩ := ite_none_right_eq_some.mp stepped
    exact advance_move running stepped
  | setkilled p =>
    obtain ⟨-, stepped⟩ := ite_none_right_eq_some.mp stepped
    cases stepped
    exact Stirs.stay (stirs_entry (.inl rfl) rfl rfl ⟨rfl, rfl, rfl⟩)
  | sleep p n =>
    obtain ⟨ready, stepped⟩ := ite_none_right_eq_some.mp stepped
    cases stepped
    have living : Living (t.entry p).state := .inr (.inr ready.1)
    have sleeps : Stirs t (t.sleep p (.other n)) :=
      stirs_entry (.inr ⟨.inl rfl, living⟩) rfl rfl ⟨rfl, rfl, rfl⟩
    exact sleeps.goto (.plain living trivial) ⟨rfl, rfl⟩
  | wakeup n q =>
    cases stepped
    exact stirs_wake.stay
  | tick =>
    cases stepped
    exact ⟨.quiet t.initproc _ (fun _ => .refl _) nofun (update_eq_self ..).symm .stay ⟨rfl, rfl⟩,
      (BitVec.add_zero _).symm, nofun, rfl⟩
  | updateTime q =>
    obtain ⟨-, stepped⟩ := ite_none_right_eq_some.mp stepped
    cases stepped
    refine ⟨.quiet q _ ?_ nofun (update_eq_self ..).symm .stay ⟨rfl, rfl⟩,
      (BitVec.add_zero _).symm, nofun, rfl⟩
    exact (forall_update_iff t.entry fun r e => Alike e (t.entry r)).mpr
      ⟨⟨.inl rfl, rfl, rfl⟩, fun _ _ => .refl _⟩

end Moves

section Tree

/-- What holds of a process at its position. -/
structure PlaceOk (trace : List ProcEvent) (t : ProcTable) (p : Fin NPROC) (position : Position) :
    Prop where
  busy : position ≠ .user → Living (t.entry p).state
  forking : ∀ np, Forks position np → (t.entry np).state = .used
  parented : ∀ np pid, position = .forkRun np pid → (t.entry np).parent = some p
  /-- The children that `reparent` has dealt with are gone. -/
  passed : ∀ q, Passed q position → (t.entry q).parent ≠ some p
  exiting : Exits position →
    p ≠ t.initproc ∧ ∃ status, .exiting p (t.entry p).pid status ∈ trace

/-- What holds of the entries. -/
structure EntriesOk (trace : List ProcEvent) (t : ProcTable) : Prop where
  parent : ∀ q r, (t.entry q).parent = some r → Living (t.entry r).state
  /-- Every process but the first has a parent from the moment it can run. -/
  named : ∀ q ≠ t.initproc, Living (t.entry q).state ∨ (t.entry q).state = .zombie →
    (t.entry q).parent ≠ none
  init : Living (t.entry t.initproc).state
  zombie : ∀ q, (t.entry q).state = .zombie → ∃ status, .exiting q (t.entry q).pid status ∈ trace

/-- What holds in every state of a run. -/
structure TreeInv (trace : List ProcEvent) (t : ProcTable) : Prop where
  places : ∀ p, PlaceOk trace t p (t.position p)
  /-- Two calls of `fork` have different entries in their hands. -/
  once : ∀ p p' np, Forks (t.position p) np → Forks (t.position p') np → p = p'
  entries : EntriesOk trace t

/-- A position is still right after a change of one entry. -/
theorem PlaceOk.frame (place : PlaceOk trace t p position)
    (entries : t'.entry = update t.entry q e) (init : t'.initproc = t.initproc)
    (living : p = q → position ≠ .user → Living e.state ∧ e.pid = (t.entry q).pid)
    (used : Forks position q → e.state = .used)
    (run : ∀ pid, position = .forkRun q pid → e.parent = some p)
    (parent : Passed q position → e.parent = some p → (t.entry q).parent = some p) :
    PlaceOk (trace ++ [event]) t' p position := by
  have mine : position ≠ .user → Living (t'.entry p).state ∧
    (t'.entry p).pid = (t.entry p).pid := by
    intro busy
    rw [entries]
    by_cases here : p = q
    · rw [here, update_self]
      exact living here busy
    · rw [update_of_ne here]
      exact ⟨place.busy busy, rfl⟩
  refine ⟨fun busy => (mine busy).1, ?_, ?_, ?_, fun exits => ?_⟩
  · rw [entries]
    exact (forall_update_iff t.entry fun np e => Forks position np → e.state = .used).mpr
      ⟨used, fun np _ => place.forking np⟩
  · rw [entries]
    exact (forall_update_iff t.entry fun np e => ∀ pid, position = .forkRun np pid →
      e.parent = some p).mpr ⟨run, fun np _ => place.parented np⟩
  · rw [entries]
    exact (forall_update_iff t.entry fun r e => Passed r position → e.parent ≠ some p).mpr
      ⟨fun passed child => place.passed q passed (parent passed child), fun r _ => place.passed r⟩
  · obtain ⟨notInit, status, called⟩ := place.exiting exits
    have busy : position ≠ .user := by
      rintro rfl
      exact exits
    rw [init, (mine busy).2]
    exact ⟨notInit, status, mem_append_left _ called⟩

/-- A process outside the calls is where it may be. -/
theorem PlaceOk.user : PlaceOk trace t p .user where
  busy outside := absurd rfl outside
  forking := nofun
  parented := nofun
  passed _ := False.elim
  exiting := False.elim

/-- Positions after one process has moved. -/
theorem TreeInv.move (positions : t'.position = update t.position p position)
    (mine : PlaceOk trace t' p position)
    (others : ∀ r ≠ p, PlaceOk trace t' r (t.position r))
    (once : ∀ r r' np, Forks (t'.position r) np → Forks (t'.position r') np → r = r')
    (entries : EntriesOk trace t') : TreeInv trace t' := by
  refine ⟨fun r => ?_, once, entries⟩
  rw [positions]
  by_cases here : r = p
  · rw [here, update_self]
    exact mine
  · rw [update_of_ne here]
    exact others r here

/-- The hands of `fork` stay apart if the process that moves takes no entry. -/
theorem TreeInv.once_moved (inv : TreeInv trace t)
    (positions : t'.position = update t.position p position)
    (mine : ∀ np, Forks position np → Forks (t.position p) np) (r r' np : Fin NPROC)
    (here : Forks (t'.position r) np) (there : Forks (t'.position r') np) : r = r' := by
  have before : ∀ r, Forks (t'.position r) np → Forks (t.position r) np := by
    intro r forks
    rw [positions] at forks
    by_cases self : r = p
    · rw [self, update_self] at forks
      exact self ▸ mine np forks
    · rwa [update_of_ne self] at forks
  exact inv.once r r' np (before r here) (before r' there)

/-- A quiet step keeps what holds of the entries. -/
theorem EntriesOk.alike (ok : EntriesOk trace t)
    (entries : ∀ q, Alike (t'.entry q) (t.entry q)) (init : t'.initproc = t.initproc) :
    EntriesOk (trace ++ [event]) t' := by
  constructor
  · intro q r child
    rw [(entries q).parent] at child
    exact (entries r).kind.living.mpr (ok.parent q r child)
  · intro q notInit runs
    rw [(entries q).kind.living, (entries q).kind.state_iff not_living_zombie] at runs
    rw [(entries q).parent]
    exact ok.named q (init ▸ notInit) runs
  · rw [init]
    exact (entries _).kind.living.mpr ok.init
  · intro q zombie
    obtain ⟨status, called⟩ :=
      ok.zombie q (((entries q).kind.state_iff not_living_zombie).mp zombie)
    rw [(entries q).pid]
    exact ⟨status, mem_append_left _ called⟩

/-- The place that a process reaches in a quiet step. -/
theorem PlaceOk.follow (place : PlaceOk trace t p (t.position p))
    (follows : Follows t event p position) (entries : ∀ q, Alike (t'.entry q) (t.entry q))
    (init : t'.initproc = t.initproc) : PlaceOk (trace ++ [event]) t' p position := by
  constructor
  · intro busy
    rw [(entries p).kind.living]
    rcases follows.living busy with same | living
    · exact place.busy (same ▸ busy)
    · exact living
  · intro np forks
    rw [(entries np).kind.state_iff not_living_used]
    exact place.forking np (follows.forks np forks ▸ forks)
  · intro np pid runs
    have same := follows.forks np (.inr ⟨pid, runs⟩)
    rw [(entries np).parent]
    exact place.parented np pid (same.trans runs)
  · intro q passed
    rw [(entries q).parent]
    rcases follows.passed q passed with before | other
    · exact place.passed q before
    · exact other
  · intro exits
    rw [init, (entries p).pid]
    rcases follows.exits exits with before | ⟨notInit, status, rfl⟩
    · obtain ⟨notInit, status, called⟩ := place.exiting before
      exact ⟨notInit, status, mem_append_left _ called⟩
    · exact ⟨notInit, status, mem_append_right _ (mem_singleton_self _)⟩

/-- What holds of the entries after a change of one of them; a process that dies has no children and
has called `exit`. -/
theorem EntriesOk.frame (ok : EntriesOk trace t)
    (entries : t'.entry = update t.entry q e) (init : t'.initproc = t.initproc)
    (living : Living (t.entry q).state →
      Living e.state ∨ q ≠ t.initproc ∧ ∀ r, (t'.entry r).parent ≠ some q)
    (parent : ∀ r, e.parent = some r → Living (t.entry r).state)
    (named : q ≠ t.initproc → Living e.state ∨ e.state = .zombie → e.parent ≠ none)
    (zombie : e.state = .zombie → ∃ status, .exiting q e.pid status ∈ trace) :
    EntriesOk (trace ++ [event]) t' := by
  have alive : ∀ r, Living (t.entry r).state →
      r = t.initproc ∨ (∃ q, (t'.entry q).parent = some r) → Living (t'.entry r).state := by
    intro r lives needed
    by_cases here : r = q
    · subst here
      rcases living lives with stays | ⟨notInit, childless⟩
      · rwa [entries, update_self]
      · rcases needed with first | ⟨child, named⟩
        · exact absurd first notInit
        · exact absurd named (childless child)
    · rwa [entries, update_of_ne here]
  refine ⟨fun q r child => alive r ?_ (.inr ⟨q, child⟩), ?_, ?_, ?_⟩
  · rw [entries] at child
    exact (forall_update_iff t.entry fun _ e => e.parent = some r → Living (t.entry r).state).mpr
      ⟨parent r, fun q _ => ok.parent q r⟩ _ child
  · rw [entries, init]
    exact (forall_update_iff t.entry fun q e => q ≠ t.initproc →
      Living e.state ∨ e.state = .zombie → e.parent ≠ none).mpr ⟨named, fun q _ => ok.named q⟩
  · rw [init]
    exact alive _ ok.init (.inl rfl)
  · rw [entries]
    refine (forall_update_iff t.entry fun q e => e.state = .zombie →
      ∃ status, .exiting q e.pid status ∈ trace ++ [event]).mpr ⟨fun dead => ?_, fun r _ dead => ?_⟩
    · obtain ⟨status, called⟩ := zombie dead
      exact ⟨status, mem_append_left _ called⟩
    · obtain ⟨status, called⟩ := ok.zombie r dead
      exact ⟨status, mem_append_left _ called⟩

section

variable (inv : TreeInv trace t)

include inv

/-- Nobody else has the entry in its hands: the others are where they were. -/
theorem TreeInv.others (entries : t'.entry = update t.entry q e) (init : t'.initproc = t.initproc)
    (dead : ¬Living (t.entry q).state) {r : Fin NPROC} (free : ¬Forks (t.position r) q)
    (parent : e.parent = some r → (t.entry q).parent = some r) :
    PlaceOk (trace ++ [event]) t' r (t.position r) := by
  refine (inv.places r).frame entries init ?_ (fun forks => absurd forks free)
    (fun pid here => absurd (.inr ⟨pid, here⟩) free) fun _ => parent
  rintro rfl busy
  exact absurd ((inv.places r).busy busy) dead

/-- An entry that is not used is in nobody's hands. -/
theorem TreeInv.free (other : (t.entry q).state ≠ .used) (r : Fin NPROC) :
    ¬Forks (t.position r) q := fun forks => other ((inv.places r).forking q forks)

/-- `allocproc` takes an unused entry. -/
theorem TreeInv.allocate (living : Living (t.entry p).state) (unused : (t.entry np).state = .unused)
    (entries : t'.entry = update t.entry np e) (used : e.state = .used)
    (parent : e.parent = (t.entry np).parent)
    (positions : t'.position = update t.position p (.forkParent np pid))
    (init : t'.initproc = t.initproc) : TreeInv (trace ++ [event]) t' := by
  have dead : ¬Living (t.entry np).state := unused ▸ not_living_unused
  have free := inv.free (q := np) (unused ▸ nofun)
  have other : p ≠ np := by
    rintro rfl
    exact dead living
  -- the entry in the hands of a call after the step
  have hands : ∀ r m, Forks (t'.position r) m →
      (r = p ∧ m = np) ∨ r ≠ p ∧ Forks (t.position r) m := by
    intro r m forks
    rw [positions] at forks
    by_cases self : r = p
    · rw [self, update_self] at forks
      rcases forks with ⟨_, here⟩ | ⟨_, here⟩
      · cases here
        exact .inl ⟨self, rfl⟩
      · contradiction
    · rw [update_of_ne self] at forks
      exact .inr ⟨self, forks⟩
  refine .move positions ⟨fun _ => ?_, fun m forks => ?_, nofun, fun _ => False.elim,
    False.elim⟩ (fun r _ => inv.others entries init dead (free r) fun child => parent ▸ child)
    (fun r r' m here there => ?_) ?_
  · rw [entries, update_of_ne other]
    exact living
  · rcases forks with ⟨_, here⟩ | ⟨_, here⟩
    · cases here
      rw [entries, update_self]
      exact used
    · contradiction
  · rcases hands r m here with ⟨rfl, rfl⟩ | ⟨-, before⟩
    · rcases hands r' m there with ⟨rfl, -⟩ | ⟨-, before'⟩
      · rfl
      · exact absurd before' (free r')
    · rcases hands r' m there with ⟨rfl, rfl⟩ | ⟨-, before'⟩
      · exact absurd before (free r)
      · exact inv.once r r' m before before'
  · refine inv.entries.frame entries init (fun lives => absurd lives dead) ?_ ?_ ?_
    · exact fun r child => inv.entries.parent np r (parent ▸ child)
    · rw [used]
      exact fun _ runs => absurd runs (not_or.mpr ⟨not_living_used, nofun⟩)
    · rw [used]
      nofun

/-- An entry that was not in use is free after a step. -/
theorem TreeInv.release (dead : ¬Living (t.entry q).state)
    (other : (t.entry q).state ≠ .used) (entries : t'.entry = update t.entry q e)
    (freed : e.state = .unused) (parent : e.parent = none)
    (positions : t'.position = update t.position p .user)
    (init : t'.initproc = t.initproc) : TreeInv (trace ++ [event]) t' := by
  refine .move positions .user (fun r _ => inv.others entries init dead (inv.free other r) ?_)
    (inv.once_moved positions nofun)
    (inv.entries.frame entries init (fun lives => absurd lives dead) ?_ ?_ ?_)
  · rw [parent]
    nofun
  · rw [parent]
    nofun
  · rw [freed]
    exact fun _ runs => absurd runs (not_or.mpr ⟨not_living_unused, nofun⟩)
  · rw [freed]
    nofun

/-- Every move keeps the tree. -/
theorem TreeInv.step (moved : Move t action event t') : TreeInv (trace ++ [event]) t' := by
  have init := moved.initproc
  obtain ⟨p, position, entries, -, positions, follows, pids⟩ |
    ⟨p, position, q, e, entries, positions, change⟩ := moved.effect
  · refine .move positions ((inv.places p).follow follows entries init)
      (fun r _ => (inv.places r).follow .stay entries init) (inv.once_moved positions ?_)
      (inv.entries.alike entries init)
    exact fun np forks => follows.forks np forks ▸ forks
  cases change with
  | allocate living unused =>
    exact inv.allocate living unused entries rfl rfl positions init
  | allocateFail unused freed parent =>
    exact inv.release (unused ▸ not_living_unused) (unused ▸ nofun) entries freed parent positions
      init
  | reap zombie =>
    exact inv.release (zombie ▸ not_living_zombie) (zombie ▸ nofun) entries rfl rfl positions init
  | @setParent _ pid living here =>
    have mine : Forks (t.position p) q := .inl ⟨pid, here⟩
    have used := (inv.places p).forking q mine
    have dead : ¬Living (t.entry q).state := used ▸ not_living_used
    have other : p ≠ q := by
      rintro rfl
      exact dead living
    have taken : ∀ m, Forks (.forkRun q pid) m → m = q := by
      rintro m (⟨_, same⟩ | ⟨_, same⟩)
      · contradiction
      · cases same
        rfl
    refine .move positions ⟨fun _ => ?_, fun m forks => ?_, fun m _ run => ?_, fun _ => False.elim,
      False.elim⟩ (fun r away => ?_) (inv.once_moved positions ?_) ?_
    · rw [entries, update_of_ne other]
      exact living
    · rw [taken m forks, entries, update_self]
      exact used
    · cases run
      rw [entries, update_self]
    · refine inv.others entries init dead (fun forks => away (inv.once r p q forks mine)) ?_
      exact fun child => absurd (some.inj child).symm away
    · exact fun m forks => taken m forks ▸ mine
    · refine inv.entries.frame entries init (fun lives => absurd lives dead) ?_ nofun ?_
      · rintro r ⟨⟩
        exact living
      · exact fun zombie => inv.entries.zombie q zombie
  | @start _ pid here =>
    have mine : Forks (t.position p) q := .inr ⟨pid, here⟩
    have dead : ¬Living (t.entry q).state := (inv.places p).forking q mine ▸ not_living_used
    refine .move positions .user (fun r away => ?_) (inv.once_moved positions nofun) ?_
    · exact inv.others entries init dead (fun forks => away (inv.once r p q forks mine)) id
    · refine inv.entries.frame entries init (fun lives => absurd lives dead)
        (fun r child => inv.entries.parent q r child) (fun _ _ orphan => ?_) nofun
      exact absurd ((inv.places p).parented q pid here) (orphan ▸ nofun)
  | reparent living here child =>
    have exits : Exits (t.position p) := here ▸ trivial
    obtain ⟨notInit, status', called⟩ := (inv.places p).exiting exits
    obtain ⟨lives, pid⟩ : Living (t'.entry p).state ∧ (t'.entry p).pid = (t.entry p).pid := by
      rw [entries]
      by_cases self : p = q
      · rw [self, update_self]
        exact ⟨self ▸ living, rfl⟩
      · rw [update_of_ne self]
        exact ⟨living, rfl⟩
    refine .move positions ⟨fun _ => lives, nofun, nofun, fun r upTo => ?_, fun _ => ?_⟩
      (fun r away => ?_) (inv.once_moved positions nofun) ?_
    · rw [entries]
      by_cases self : r = q
      · rw [self, update_self]
        exact fun same => notInit (some.inj same).symm
      · rw [update_of_ne self]
        refine (inv.places p).passed r ?_
        rw [here]
        exact lt_of_le_of_ne upTo fun same => self (Fin.ext same)
    · rw [init, pid]
      exact ⟨notInit, status', mem_append_left _ called⟩
    · refine (inv.places r).frame entries init ?_ ?_ ?_ ?_
      · rintro rfl busy
        exact ⟨(inv.places r).busy busy, rfl⟩
      · exact fun forks => (inv.places r).forking q forks
      · intro pid runs
        have mine := (inv.places r).parented q pid runs
        rw [child] at mine
        exact absurd (some.inj mine).symm away
      · intro upTo same
        have notFirst := ((inv.places r).exiting upTo.exits).1
        exact absurd (some.inj same).symm notFirst
    · refine inv.entries.frame entries init .inl ?_ nofun fun zombie => inv.entries.zombie q zombie
      rintro r ⟨⟩
      exact inv.entries.init
  | die running here =>
    have living : Living (t.entry p).state := .inr (.inr running)
    obtain ⟨notInit, called⟩ := (inv.places p).exiting (here ▸ trivial)
    have childless : ∀ q, (t'.entry q).parent ≠ some p := by
      rw [entries]
      exact (forall_update_iff t.entry fun _ e => e.parent ≠ some p).mpr
        ⟨(inv.places p).passed p (here ▸ trivial), fun q _ =>
          (inv.places p).passed q (here ▸ trivial)⟩
    refine .move positions .user (fun r away => ?_) (inv.once_moved positions nofun)
      (inv.entries.frame entries init (fun _ => .inr ⟨notInit, childless⟩)
        (fun r => inv.entries.parent p r) (fun other _ => inv.entries.named p other (.inl living))
        fun _ => called)
    have free := inv.free (q := p) (running ▸ nofun) r
    exact (inv.places r).frame entries init (fun same => absurd same away)
      (fun forks => absurd forks free) (fun pid same => absurd (.inr ⟨pid, same⟩) free) fun _ => id

end

/-- The first process at boot. -/
theorem boot_init : boot.entry boot.initproc =
    { Entry.zero with state := .runnable, pid := 1 } := by
  simp only [ProcTable.boot, update_self]

theorem boot_unused (other : q ≠ boot.initproc) : boot.entry q = .zero := by
  simp only [ProcTable.boot] at other ⊢
  rw [update_of_ne other]

/-- The only process in use at boot is the first. -/
theorem boot_used (used : (boot.entry q).state ≠ .unused) :
    q = boot.initproc := by
  by_contra other
  rw [boot_unused other] at used
  exact used rfl

theorem boot_tree : TreeInv [] .boot := by
  refine ⟨fun p => .user, nofun, ?_, ?_, ?_, ?_⟩
  · intro q r child
    by_cases first : q = boot.initproc
    · rw [first, boot_init] at child
      contradiction
    · rw [boot_unused first] at child
      contradiction
  · intro q notInit runs
    rw [boot_unused notInit] at runs
    exact absurd runs (not_or.mpr ⟨not_living_unused, nofun⟩)
  · rw [boot_init]
    exact .inr (.inl rfl)
  · intro q dead
    have first : q = boot.initproc := boot_used (by rw [dead]; nofun)
    rw [first, boot_init] at dead
    contradiction

theorem tree_run (run : procSystem.Exec trace t) : TreeInv trace t := by
  refine run.invariant TreeInv ?_ ?_
  · rintro t rfl
    exact boot_tree
  · rintro trace t event t' inv ⟨action, stepped⟩
    exact inv.step (next_move stepped)

end Tree

section Pids

/-- A pid that has been handed out. -/
def Old (trace : List ProcEvent) (pid : BitVec 32) : Prop :=
  ∃ k, k < (takenPids trace).length + 2 ∧ pid = BitVec.ofNat 32 k

/-- What holds of pids as long as `nextpid` has not wrapped around. -/
structure PidInv (trace : List ProcEvent) (t : ProcTable) : Prop where
  next : t.nextpid = BitVec.ofNat 32 ((takenPids trace).length + 2)
  old : ∀ q, (t.entry q).state ≠ .unused → Old trace (t.entry q).pid
  distinct : ∀ q q', (t.entry q).state ≠ .unused → (t.entry q').state ≠ .unused →
    (t.entry q).pid = (t.entry q').pid → q = q'
  /-- A pid that `wait` returned is gone. -/
  reaped : ∀ pid ∈ reapedPids trace, Old trace pid ∧
    ∀ q, (t.entry q).state ≠ .unused → (t.entry q).pid ≠ pid
  nodup : (reapedPids trace).Nodup

theorem takenPids_append (first second : List ProcEvent) :
    takenPids (first ++ second) = takenPids first ++ takenPids second := filterMap_append ..

theorem reapedPids_append (first second : List ProcEvent) :
    reapedPids (first ++ second) = reapedPids first ++ reapedPids second := filterMap_append ..

theorem Old.later (old : Old trace pid) : Old (trace ++ [event]) pid := by
  obtain ⟨k, below, same⟩ := old
  refine ⟨k, ?_, same⟩
  rw [takenPids_append, length_append]
  omega

section

variable (inv : PidInv trace t)

include inv

/-- The next pid is new. -/
theorem PidInv.fresh
    (few : (takenPids trace).length < 2 ^ 31) (old : Old trace pid) : pid ≠ t.nextpid := by
  obtain ⟨k, below, rfl⟩ := old
  rw [inv.next]
  intro same
  have equal := congrArg BitVec.toNat same
  rw [BitVec.toNat_ofNat, BitVec.toNat_ofNat] at equal
  omega

section

variable (moved : Move t action event t')

include moved

theorem PidInv.counted :
    t'.nextpid = BitVec.ofNat 32 ((takenPids (trace ++ [event])).length + 2) := by
  rw [moved.nextpid, takenPids_append, length_append, inv.next, ← BitVec.ofNat_add]
  congr 1
  omega

/-- A step that takes no pid back and gives no new one to an entry. -/
theorem PidInv.frame (none : reapedPids [event] = [])
    (same : ∀ q, (t'.entry q).state ≠ .unused →
      (t.entry q).state ≠ .unused ∧ (t'.entry q).pid = (t.entry q).pid) :
    PidInv (trace ++ [event]) t' := by
  constructor
  · exact inv.counted moved
  · intro q used
    obtain ⟨before, pid⟩ := same q used
    rw [pid]
    exact (inv.old q before).later
  · intro q q' used used'
    obtain ⟨before, pid⟩ := same q used
    obtain ⟨before', pid'⟩ := same q' used'
    rw [pid, pid']
    exact inv.distinct q q' before before'
  · intro pid returned
    rw [reapedPids_append, none, append_nil] at returned
    obtain ⟨old, gone⟩ := inv.reaped pid returned
    refine ⟨old.later, fun q used => ?_⟩
    obtain ⟨before, here⟩ := same q used
    rw [here]
    exact gone q before
  · rw [reapedPids_append, none, append_nil]
    exact inv.nodup

/-- A step that changes one entry, which keeps its pid and is not taken into use. -/
theorem PidInv.change (none : reapedPids [event] = [])
    (entries : t'.entry = update t.entry q e)
    (mine : e.state ≠ .unused → (t.entry q).state ≠ .unused ∧ e.pid = (t.entry q).pid) :
    PidInv (trace ++ [event]) t' := by
  refine inv.frame moved none ?_
  rw [entries]
  exact (forall_update_iff t.entry fun q e => e.state ≠ .unused →
    (t.entry q).state ≠ .unused ∧ e.pid = (t.entry q).pid).mpr ⟨mine, fun _ _ used => ⟨used, rfl⟩⟩

end

/-- A new pid goes to an unused entry. -/
theorem PidInv.allocate (few : (takenPids trace).length < 2 ^ 31)
    (moved : Move t action (.allocated p np t.nextpid) t')
    (entries : t'.entry = update t.entry np e) (pid : e.pid = t.nextpid) :
    PidInv (trace ++ [.allocated p np t.nextpid]) t' := by
  have here : t'.entry np = e := by rw [entries, update_self]
  have there : ∀ q ≠ np, t'.entry q = t.entry q := by
    intro q other
    rw [entries, update_of_ne other]
  have apart : ∀ q ≠ np, (t'.entry q).state ≠ .unused → (t'.entry q).pid ≠ e.pid := by
    intro q other used
    rw [there q other] at used ⊢
    rw [pid]
    exact inv.fresh few (inv.old q used)
  have none : reapedPids (trace ++ [.allocated p np t.nextpid]) = reapedPids trace :=
    (reapedPids_append ..).trans (append_nil _)
  constructor
  · exact inv.counted moved
  · intro q used
    by_cases self : q = np
    · refine ⟨(takenPids trace).length + 2, ?_, ?_⟩
      · rw [takenPids_append, length_append]
        exact Nat.add_lt_add_right (Nat.lt_succ_self _) 2
      · rw [self, here, pid]
        exact inv.next
    · rw [there q self] at used ⊢
      exact (inv.old q used).later
  · intro q q' used used' same
    by_cases self : q = np
    · by_cases self' : q' = np
      · rw [self, self']
      · rw [self, here] at same
        exact absurd same.symm (apart q' self' used')
    · by_cases self' : q' = np
      · rw [self', here] at same
        exact absurd same (apart q self used)
      · rw [there q self] at used same
        rw [there q' self'] at used' same
        exact inv.distinct q q' used used' same
  · intro returned mem
    obtain ⟨old, gone⟩ := inv.reaped returned (none ▸ mem)
    refine ⟨old.later, fun q used => ?_⟩
    by_cases self : q = np
    · rw [self, here, pid]
      exact (inv.fresh few old).symm
    · rw [there q self] at used ⊢
      exact gone q used
  · rw [none]
    exact inv.nodup

/-- A pid goes with its entry. -/
theorem PidInv.reap (used : (t.entry pp).state ≠ .unused)
    (moved : Move t action (.reaped p pp (t.entry pp).pid status times) t')
    (entries : t'.entry = update t.entry pp (t.entry pp).freeproc) :
    PidInv (trace ++ [.reaped p pp (t.entry pp).pid status times]) t' := by
  have stays : ∀ q, (t'.entry q).state ≠ .unused → q ≠ pp ∧ t'.entry q = t.entry q := by
    intro q used
    rw [entries] at used ⊢
    by_cases here : q = pp
    · rw [here, update_self] at used
      exact absurd rfl used
    · exact ⟨here, update_of_ne here ..⟩
  have grows : reapedPids (trace ++ [.reaped p pp (t.entry pp).pid status times]) =
      reapedPids trace ++ [(t.entry pp).pid] := reapedPids_append ..
  constructor
  · exact inv.counted moved
  · intro q here
    have entry := (stays q here).2
    rw [entry] at here ⊢
    exact (inv.old q here).later
  · intro q q' here there same
    have entry := (stays q here).2
    have entry' := (stays q' there).2
    rw [entry] at here same
    rw [entry'] at there same
    exact inv.distinct q q' here there same
  · intro pid returned
    rw [grows, mem_append, mem_singleton] at returned
    rcases returned with before | rfl
    · obtain ⟨old, gone⟩ := inv.reaped pid before
      refine ⟨old.later, fun q here => ?_⟩
      have entry := (stays q here).2
      rw [entry] at here ⊢
      exact gone q here
    · refine ⟨(inv.old pp used).later, fun q used' same => ?_⟩
      obtain ⟨other, entry⟩ := stays q used'
      rw [entry] at used' same
      exact other (inv.distinct q pp used' used same)
  · rw [grows, nodup_append]
    refine ⟨inv.nodup, nodup_cons.mpr ⟨nofun, nodup_nil⟩, ?_⟩
    rintro pid before _ here rfl
    rw [mem_singleton] at here
    exact (inv.reaped pid before).2 pp used here.symm

/-- Every move keeps what holds of pids. -/
theorem PidInv.step (tree : TreeInv trace t)
    (moved : Move t action event t') (few : (takenPids trace).length < 2 ^ 31) :
    PidInv (trace ++ [event]) t' := by
  obtain ⟨p, position, entries, -, positions, follows, pids⟩ |
    ⟨p, position, q, e, entries, positions, change⟩ := moved.effect
  · refine inv.frame moved pids.2 fun q used => ⟨?_, (entries q).pid⟩
    rwa [Ne, ← (entries q).kind.state_iff not_living_unused]
  cases change with
  | setParent | reparent => exact inv.change moved rfl entries fun used => ⟨used, rfl⟩
  | @start _ pid here =>
    have used := (tree.places p).forking q (.inr ⟨pid, here⟩)
    exact inv.change moved rfl entries fun _ => ⟨used ▸ nofun, rfl⟩
  | die running here => exact inv.change moved rfl entries fun _ => ⟨running ▸ nofun, rfl⟩
  | allocateFail unused freed parent =>
    exact inv.change moved rfl entries fun used => absurd freed used
  | allocate living unused => exact inv.allocate few moved entries rfl
  | reap zombie => exact inv.reap (zombie ▸ nofun) moved entries

end

theorem boot_pids : PidInv [] .boot := by
  constructor
  · rfl
  · intro q used
    rw [boot_used used, boot_init]
    exact ⟨1, by decide, rfl⟩
  · intro q q' used used' _
    rw [boot_used used, boot_used used']
  · nofun
  · exact nodup_nil

/-- Pids in every state of a run with fewer than 2³¹ forks. -/
theorem pids_run (run : procSystem.Exec trace t) (few : (takenPids trace).length < 2 ^ 31) :
    PidInv trace t := by
  induction run with
  | start init =>
    obtain rfl := init
    exact boot_pids
  | next before step ih =>
    rw [takenPids_append, length_append] at few
    obtain ⟨action, stepped⟩ := step
    exact (ih (by omega)).step (tree_run before) (next_move stepped) (by omega)

end Pids

/-- Only `wait` and `waitx` take an entry out of use. -/
theorem freed_by_reap (moved : Move t action event t')
    (used : (t.entry q).state ≠ .unused) (freed : (t'.entry q).state = .unused) :
    ∃ p status times, event = .reaped p q (t.entry q).pid status times := by
  obtain ⟨p, position, entries, -⟩ | ⟨p, position, r, e, entries, positions, change⟩ :=
    moved.effect
  · exact absurd (((entries q).kind.state_iff not_living_unused).mp freed) used
  -- the entry that is freed is the one that changes
  obtain rfl : q = r := by
    by_contra other
    rw [entries, update_of_ne other] at freed
    exact used freed
  rw [entries, update_self] at freed
  cases change with
  | allocate | start | die => contradiction
  | allocateFail unused _ _ => exact absurd unused used
  | setParent | reparent => exact absurd freed used
  | reap zombie => exact ⟨p, _, _, rfl⟩

/-- `wait` and `waitx` return the pid of a zombie. -/
theorem reaped_zombie (moved : Move t action (.reaped p pp pid status times) t') :
    (t.entry pp).state = .zombie ∧ pid = (t.entry pp).pid := by
  cases moved.effect with
  | quiet _ _ _ _ _ _ pids => exact absurd pids.2 (cons_ne_nil _ _)
  | change _ _ _ _ _ _ change =>
    cases change with
    | reap zombie => exact ⟨zombie, rfl⟩

/-- Every process but the first has a parent that lives. Pids of entries in use are different, and
`wait` and `waitx` return each pid at most once, as long as fewer than 2³¹ pids have been taken.
They return a pid only after its process has called `exit`, and an entry goes out of use only this
way; a `fork` that fails gives its entry back in the critical section that took it. -/
theorem process_tree (run : procSystem.Exec trace t) :
    (∀ q ≠ t.initproc, Living (t.entry q).state ∨ (t.entry q).state = .zombie →
      ∃ r, (t.entry q).parent = some r ∧ (t.entry r).state ≠ .unused ∧
        (t.entry r).state ≠ .zombie) ∧
    ((takenPids trace).length < 2 ^ 31 →
      (∀ q q', (t.entry q).state ≠ .unused → (t.entry q').state ≠ .unused →
        (t.entry q).pid = (t.entry q').pid → q = q') ∧ (reapedPids trace).Nodup) ∧
    (∀ before after p pp pid status times,
      trace = before ++ .reaped p pp pid status times :: after →
        ∃ code, .exiting pp pid code ∈ before) ∧
    ∀ q event t', procSystem.step t event t' → (t.entry q).state ≠ .unused →
      (t'.entry q).state = .unused →
        ∃ p status times, event = .reaped p q (t.entry q).pid status times := by
  have tree := tree_run run
  refine ⟨fun q notInit runs => ?_, fun few => ?_, ?_, fun q event t' ⟨_, stepped⟩ used freed =>
    freed_by_reap (next_move stepped) used freed⟩
  · obtain ⟨r, parent⟩ := ne_none_iff_exists'.mp (tree.entries.named q notInit runs)
    have living := tree.entries.parent q r parent
    refine ⟨r, parent, ?_, ?_⟩
    · exact fun unused => not_living_unused (unused ▸ living)
    · exact fun zombie => not_living_zombie (zombie ▸ living)
  · have pids := pids_run run few
    exact ⟨pids.distinct, pids.nodup⟩
  · rintro before after p pp pid status times rfl
    rw [append_cons] at run
    obtain ⟨t₂, upTo⟩ := run.part
    obtain ⟨t₁, earlier, _, stepped⟩ := upTo.last
    obtain ⟨zombie, rfl⟩ := reaped_zombie (next_move stepped)
    exact (tree_run earlier).entries.zombie pp zombie

/-- The first process forks, the child exits, and the first process waits for it. -/
def forkExitWait : List ProcAction :=
  let first : Fin NPROC := ⟨0, nproc_pos⟩
  let child : Fin NPROC := ⟨1, one_lt_nproc⟩
  [.schedule first, .call first .fork] ++ List.replicate 4 (.advance first .ok) ++
  [.schedule child, .call child (.exit 7)] ++
    List.replicate (2 * NPROC + 3) (.advance child .ok) ++
  [.call first (.wait ⟨0, true⟩)] ++ List.replicate 4 (.advance first .ok)

/-- The first process gets the pid of its child from `waitx`, once. -/
theorem process_tree_wait : ∃ trace t, procSystem.Exec trace t ∧ reapedPids trace = [2] ∧
    (∀ q q', (t.entry q).state ≠ .unused → (t.entry q').state ≠ .unused →
      (t.entry q).pid = (t.entry q').pid → q = q') ∧ (reapedPids trace).Nodup := by
  have checked : ((StepSystem.replay ProcTable.next .boot forkExitWait).any fun (_, events) =>
      reapedPids events = [2] && (takenPids events).length = 1) = true := by decide +kernel
  obtain ⟨⟨t, trace⟩, replayed, checked⟩ := (any_eq_true _ _).mp checked
  simp only [Bool.and_eq_true, decide_eq_true_eq] at checked
  have start : procSystem.Exec [] .boot := .start rfl
  have steps : ∀ s action t l, ProcTable.next s action = some (t, l) → procSystem.step s l t :=
    fun _ action _ _ taken => ⟨action, taken⟩
  have run : procSystem.Exec trace t := start.replay steps replayed
  have few : (takenPids trace).length < 2 ^ 31 := by
    rw [checked.2]
    decide
  obtain ⟨-, pids, -⟩ := process_tree run
  exact ⟨trace, t, run, checked.1, pids few⟩

end Xv6Cos.Verif
