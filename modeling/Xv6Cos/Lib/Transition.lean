import Mathlib.Data.List.Basic
import Mathlib.Data.List.Induction

/-!
# Labelled transition systems

A system is a predicate of initial states and a labelled step relation. An execution is a
finite run from an initial state, together with the list of its labels in order. The rule
for invariants may mention that list, so facts about what a run has emitted so far are
proved the same way as facts about the state it has reached.
-/

namespace Transition

/-- Initial states and labelled steps. -/
structure StepSystem (σ label : Type) where
  /-- States a run may start in. -/
  init : σ → Prop
  /-- One atomic step with its label. -/
  step : σ → label → σ → Prop

namespace StepSystem

variable {σ label : Type}

/-- The run with these labels, in order, ends in this state. -/
inductive Exec (sys : StepSystem σ label) : List label → σ → Prop
  | start {s : σ} : sys.init s → Exec sys [] s
  | next {trace : List label} {s t : σ} {l : label} :
      Exec sys trace s → sys.step s l t → Exec sys (trace ++ [l]) t

/-- The last step of a run. -/
theorem Exec.last {sys : StepSystem σ label} {trace : List label} {l : label} {t : σ}
    (run : sys.Exec (trace ++ [l]) t) : ∃ s, sys.Exec trace s ∧ sys.step s l t := by
  generalize full : trace ++ [l] = events at run
  cases run with
  | start _ => simp at full
  | next before step =>
    obtain ⟨rfl, same⟩ := List.append_inj' full rfl
    obtain rfl := List.singleton_inj.mp same
    exact ⟨_, before, step⟩

/-- A run has passed through a state after each part of its labels. -/
theorem Exec.part {sys : StepSystem σ label} {trace rest : List label} {t : σ}
    (run : sys.Exec (trace ++ rest) t) : ∃ s, sys.Exec trace s := by
  induction rest using List.reverseRecOn generalizing t with
  | nil => exact ⟨t, List.append_nil trace ▸ run⟩
  | append_singleton rest l ih =>
    rw [← List.append_assoc] at run
    obtain ⟨s, before, -⟩ := run.last
    exact ih before

variable {sys : StepSystem σ label} {trace : List label} {s : σ}

/-- An invariant of labels and state that every step extends holds after every run. -/
theorem Exec.invariant (inv : List label → σ → Prop) (initial : ∀ s, sys.init s → inv [] s)
    (preserved : ∀ trace s l t, inv trace s → sys.step s l t → inv (trace ++ [l]) t)
    (run : sys.Exec trace s) : inv trace s := by
  induction run with
  | start h => exact initial _ h
  | next _ h ih => exact preserved _ _ _ _ ih h

/-- The runs of a system with a record of what has happened, all of whose steps meet a condition
on state, record and label. -/
def recorded {ρ : Type} (sys : StepSystem σ label) (start : ρ) (track : σ → ρ → label → ρ)
    (condition : σ → ρ → label → Prop) : StepSystem (σ × ρ) label where
  init state := sys.init state.1 ∧ state.2 = start
  step before l after := sys.step before.1 l after.1 ∧ after.2 = track before.1 before.2 l ∧
    condition before.1 before.2 l

/-- The system of a partial transition function, labelled by its actions. -/
def ofNext (init : σ → Prop) (next : σ → label → Option σ) : StepSystem σ label where
  init := init
  step s l t := next s l = some t

/-- Take actions one after another. -/
def runActions (next : σ → label → Option σ) : σ → List label → Option σ
  | s, [] => some s
  | s, l :: rest => (next s l).bind fun t => runActions next t rest

/-- A sequence of actions that all succeed extends a run. -/
theorem Exec.append_actions {init : σ → Prop} {next : σ → label → Option σ}
    {actions : List label} {t : σ} (run : (ofNext init next).Exec trace s)
    (rest : runActions next s actions = some t) :
    (ofNext init next).Exec (trace ++ actions) t := by
  induction actions generalizing trace s with
  | nil =>
    cases rest
    simpa using run
  | cons l actions ih =>
    obtain ⟨u, stepped, later⟩ := Option.bind_eq_some_iff.mp rest
    simpa using ih (run.next stepped) later

/-- A run of one system is a run of another that can start and step where it does. -/
theorem Exec.mono {other : StepSystem σ label} (run : sys.Exec trace s)
    (starts : ∀ s, sys.init s → other.init s)
    (steps : ∀ s l t, sys.step s l t → other.step s l t) : other.Exec trace s := by
  induction run with
  | start initial => exact .start (starts _ initial)
  | next _ stepped ih => exact .next ih (steps _ _ _ stepped)

/-- The runs of a system from one state. -/
def startingAt (sys : StepSystem σ label) (s₀ : σ) : StepSystem σ label where
  init s := sys.init s ∧ s = s₀
  step := sys.step

/-- A run from one state is a run. -/
theorem Exec.started {s₀ : σ} (run : (sys.startingAt s₀).Exec trace s) : sys.Exec trace s :=
  run.mono (fun _ start => start.1) fun _ _ _ stepped => stepped

/-- The runs of a system all of whose steps meet a condition on state and label. -/
def restrict (sys : StepSystem σ label) (condition : σ → label → Prop) : StepSystem σ label where
  init := sys.init
  step s l t := sys.step s l t ∧ condition s l

/-- A run whose steps meet a condition is a run. -/
theorem Exec.unrestrict {condition : σ → label → Prop}
    (run : (sys.restrict condition).Exec trace s) : sys.Exec trace s :=
  run.mono (fun _ initial => initial) fun _ _ _ stepped => stepped.1

/-- Actions from an initial state that all succeed and meet a condition, evaluated together with a
test of the state they lead to, are a run to such a state. -/
theorem exists_actions {init : σ → Prop} (next : σ → label → Option σ)
    (condition : σ → label → Prop) [∀ s l, Decidable (condition s l)] (initial : init s)
    (actions : List label) (check : σ → Bool)
    (checked : (runActions (fun s l => if condition s l then next s l else none) s
    actions).any check
      = true) :
    ∃ t, ((ofNext init next).restrict condition).Exec actions t ∧ check t = true := by
  obtain ⟨t, reached, checked⟩ := (Option.any_eq_true _ _).mp checked
  have start : (ofNext init fun s l => if condition s l then next s l else none).Exec [] s :=
    .start initial
  refine ⟨t, (start.append_actions reached).mono (fun _ first => first) ?_, checked⟩
  intro u l v stepped
  obtain ⟨allowed, moved⟩ := Option.ite_none_right_eq_some.mp stepped
  exact ⟨moved, allowed⟩

/-- Take actions one after another, and collect the labels of their steps. -/
def replay {action : Type} (next : σ → action → Option (σ × label)) :
    σ → List action → Option (σ × List label)
  | s, [] => some (s, [])
  | s, a :: rest => (next s a).bind fun (t, l) =>
    (replay next t rest).map fun (u, labels) => (u, l :: labels)

/-- Actions that all succeed, each of which is a step, extend a run. -/
theorem Exec.replay {action : Type} {next : σ → action → Option (σ × label)}
    (steps : ∀ s a t l, next s a = some (t, l) → sys.step s l t) {labels : List label}
    {actions : List action} {t : σ} (run : sys.Exec trace s)
    (rest : StepSystem.replay next s actions = some (t, labels)) :
    sys.Exec (trace ++ labels) t := by
  induction actions generalizing trace labels s with
  | nil =>
    cases rest
    rwa [List.append_nil]
  | cons a actions ih =>
    obtain ⟨⟨u, l⟩, taken, later⟩ := Option.bind_eq_some_iff.mp rest
    obtain ⟨⟨v, tail⟩, done, same⟩ := Option.map_eq_some_iff.mp later
    obtain ⟨rfl, rfl⟩ := Prod.mk.inj same
    rw [List.append_cons]
    exact ih (run.next (steps s a u l taken)) done

/-- Actions from an initial state, evaluated together with a test of the state they lead to, are a
run to such a state. -/
theorem exists_replay {action : Type} {next : σ → action → Option (σ × label)}
    (steps : ∀ s a t l, next s a = some (t, l) → sys.step s l t) (initial : sys.init s)
    (actions : List action) (check : σ → Bool)
    (checked : (StepSystem.replay next s actions).any (check ·.1) = true) :
    ∃ trace t, sys.Exec trace t ∧ check t = true := by
  obtain ⟨⟨t, trace⟩, replayed, done⟩ := (Option.any_eq_true _ _).mp checked
  have first : sys.Exec [] s := .start initial
  exact ⟨trace, t, first.replay steps replayed, done⟩

/-- Take an action, if its step meets a condition, and keep a record of it. -/
def recordNext {action ρ : Type} (next : σ → action → Option (label × σ))
    (track : σ → ρ → label → ρ)
    (condition : σ → ρ → label → Prop) [∀ s r l, Decidable (condition s r l)] (state : σ × ρ)
    (a : action) : Option ((σ × ρ) × label) :=
  (next state.1 a).bind fun (l, t) =>
    if condition state.1 state.2 l then some ((t, track state.1 state.2 l), l) else none

section

variable {action ρ : Type} {next : σ → action → Option (label × σ)} {start : ρ}
  {track : σ → ρ → label → ρ} {condition : σ → ρ → label → Prop}
  [∀ s r l, Decidable (condition s r l)]
  (steps : ∀ s a t l, next s a = some (l, t) → sys.step s l t)

include steps

/-- Such actions are steps of runs with a record. -/
theorem recordNext_step (state : σ × ρ) (a : action) (after : σ × ρ) (l : label)
    (taken : recordNext next track condition state a = some (after, l)) :
    (sys.recorded start track condition).step state l after := by
  obtain ⟨⟨l', t⟩, tried, taken⟩ := Option.bind_eq_some_iff.mp taken
  obtain ⟨meets, same⟩ := Option.ite_none_right_eq_some.mp taken
  cases same
  exact ⟨steps _ _ _ _ tried, rfl, meets⟩

/-- The same for runs with a record. -/
theorem exists_replayed (initial : sys.init s) (actions : List action) (check : σ × ρ → Bool)
    (checked : (StepSystem.replay (recordNext next track condition) (s, start) actions).any
      (check ·.1) = true) :
    ∃ trace t r, (sys.recorded start track condition).Exec trace (t, r) ∧ check (t, r) = true := by
  obtain ⟨trace, state, run, done⟩ :=
    exists_replay (recordNext_step steps) ⟨initial, rfl⟩ actions check checked
  exact ⟨trace, state.1, state.2, run, done⟩

end

end StepSystem

end Transition
