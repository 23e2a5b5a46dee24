import Mathlib.Logic.Basic

/-!
# Programs over a state that may fail

`Safe m s post` is total correctness from one state: `m` does not fail from `s`, and its
result and final state satisfy `post`. The rules follow the program's structure; a caller
uses the statement about a callee and never its body.
-/

namespace Program

variable {σ τ ε α β : Type} {a : α} {f : σ → α} {weaker : α → σ → Prop} {t : σ}
  {last : β → σ → Prop} {γ : Type} {get : τ → σ} {set : τ → σ → τ} {whole : α → τ → Prop} {e : ε}

/-- A program over the state `σ` that fails with an `ε`. -/
abbrev Prog (σ ε α : Type) := StateT σ (Except ε) α

/-- Fail. -/
def fail (e : ε) : Prog σ ε α := fun _ => .error e

/-- A result that depends on the state, which stays. -/
def reads (f : σ → α) : Prog σ ε α := fun s => .ok (f s, s)

/-- A change of the state. -/
def modifies (f : σ → σ) : Prog σ ε Unit := fun s => .ok ((), f s)

/-- A program over a part of the state. -/
def within (get : τ → σ) (set : τ → σ → τ) (m : Prog σ ε α) : Prog τ ε α := fun t =>
  match m (get t) with
  | .ok (a, s) => .ok (a, set t s)
  | .error e => .error e

/-- From `s` the program does not fail, and ends as `post` says. -/
def Safe (m : Prog σ ε α) (s : σ) (post : α → σ → Prop) : Prop :=
  ∃ a t, m s = .ok (a, t) ∧ post a t

variable {m : Prog σ ε α} {s : σ} {post : α → σ → Prop} {next : α → Prog σ ε β}

/-- A result without a step. -/
theorem Safe.pure (holds : post a s) : Safe (Pure.pure a : Prog σ ε α) s post :=
  ⟨a, s, rfl, holds⟩

/-- Reading the state. -/
theorem Safe.reads (holds : post (f s) s) : Safe (reads f : Prog σ ε α) s post :=
  ⟨f s, s, rfl, holds⟩

/-- Changing the state. -/
theorem Safe.modifies {f : σ → σ} {post : Unit → σ → Prop} (holds : post () (f s)) :
    Safe (modifies f : Prog σ ε Unit) s post := ⟨(), f s, rfl, holds⟩

/-- Weaken the postcondition. -/
theorem Safe.mono (safe : Safe m s post)
    (implies : ∀ a t, post a t → weaker a t) : Safe m s weaker := by
  obtain ⟨a, t, ran, holds⟩ := safe
  exact ⟨a, t, ran, implies a t holds⟩

/-- A program that may run, and whose result was used, has run. -/
theorem ok_of_try {c : Prop} [Decidable c] {x : Except ε α}
    (tried : (if c then x.toOption else none) = some a) : c ∧ x = .ok a := by
  obtain ⟨allowed, tried⟩ := Option.ite_none_right_eq_some.mp tried
  cases x with
  | ok result =>
    cases tried
    exact ⟨allowed, rfl⟩
  | error _ => contradiction

/-- The program that follows one with a known result. -/
theorem bind_of_ok (ran : m s = .ok (a, t)) : (m >>= next) s = next a t := by
  show (m s >>= fun r => next r.1 r.2) = _
  rw [ran]
  rfl

/-- Run one program after the other. -/
theorem Safe.bind (first : Safe m s post)
    (rest : ∀ a t, post a t → Safe (next a) t last) : Safe (m >>= next) s last := by
  obtain ⟨a, t, ran, holds⟩ := first
  obtain ⟨b, u, ran', holds'⟩ := rest a t holds
  exact ⟨b, u, (bind_of_ok ran).trans ran', holds'⟩

/-- Two programs in a row may be taken as one. -/
theorem Safe.regroup {rest : β → Prog σ ε γ}
    {last : γ → σ → Prop} (safe : Safe ((m >>= next) >>= rest) s last) :
    Safe (m >>= fun a => next a >>= rest) s last := by
  rwa [bind_assoc] at safe

/-- Read the state, then go on. -/
theorem Safe.bind_reads
    (rest : Safe (next (f s)) s last) : Safe (Program.reads f >>= next) s last := rest

/-- Change the state, then go on. -/
theorem Safe.bind_modifies {f : σ → σ} {next : Unit → Prog σ ε β}
    (rest : Safe (next ()) (f s) last) : Safe (Program.modifies f >>= next) s last := rest

/-- Run a program with a known result, then go on. -/
theorem Safe.bind_ok
    (ran : m s = .ok (a, t)) (rest : Safe (next a) t last) : Safe (m >>= next) s last := by
  rwa [Safe, bind_of_ok ran]

/-- Run a program on a part of the state. -/
theorem Safe.within {t : τ}
    (safe : Safe m (get t) post) (implies : ∀ a s, post a s → whole a (set t s)) :
    Safe (within get set m) t whole := by
  obtain ⟨a, s, ran, holds⟩ := safe
  refine ⟨a, set t s, ?_, implies a s holds⟩
  rw [Program.within, ran]

/-- What a safe program returned. -/
theorem Safe.result (safe : Safe m s post) (ran : m s = .ok (a, t)) : post a t := by
  obtain ⟨b, u, ran', holds⟩ := safe
  obtain ⟨rfl, rfl⟩ := Prod.mk.inj (Except.ok.inj (ran'.symm.trans ran))
  exact holds

/-- A safe program does not fail. -/
theorem Safe.ne_error (safe : Safe m s post) (e : ε) : m s ≠ .error e := by
  obtain ⟨b, u, ran, -⟩ := safe
  rw [ran]
  exact nofun

/-- From `s` the program ends as `post` says, or fails with `e`. -/
def SafeUnless (e : ε) (m : Prog σ ε α) (s : σ) (post : α → σ → Prop) : Prop :=
  m s = .error e ∨ Safe m s post

/-- The program that follows one that fails. -/
theorem bind_of_error (ran : m s = .error e) : (m >>= next) s = .error e := by
  show (m s >>= fun r => next r.1 r.2) = _
  rw [ran]
  rfl

/-- Two programs in a row that ended. -/
theorem bind_eq_ok {b : β} {u : σ} (ran : (m >>= next) s = .ok (b, u)) :
    ∃ a t, m s = .ok (a, t) ∧ next a t = .ok (b, u) := by
  cases result : m s with
  | error e =>
    rw [bind_of_error result] at ran
    contradiction
  | ok pair =>
    obtain ⟨a, t⟩ := pair
    rw [bind_of_ok result] at ran
    exact ⟨a, t, rfl, ran⟩

/-- Run one program after the other. -/
theorem SafeUnless.bind
    (first : SafeUnless e m s post) (rest : ∀ a t, post a t → SafeUnless e (next a) t last) :
    SafeUnless e (m >>= next) s last := by
  rcases first with failed | ⟨a, t, ran, holds⟩
  · exact .inl (bind_of_error failed)
  · rcases rest a t holds with failed | safe
    · exact .inl ((bind_of_ok ran).trans failed)
    · exact .inr (.bind_ok ran safe)

/-- Read the state, then go on. -/
theorem SafeUnless.bind_reads
    (rest : SafeUnless e (next (f s)) s last) :
    SafeUnless e (Program.reads f >>= next) s last := rest

/-- What the program returned. -/
theorem SafeUnless.result (safe : SafeUnless e m s post) (ran : m s = .ok (a, t)) : post a t := by
  rcases safe with failed | safe
  · rw [failed] at ran
    contradiction
  · exact safe.result ran

/-- How the program failed. -/
theorem SafeUnless.error_eq {e' : ε} (safe : SafeUnless e m s post)
    (ran : m s = .error e') : e' = e := by
  rcases safe with failed | safe
  · exact Except.error.inj (ran.symm.trans failed)
  · exact absurd ran (safe.ne_error e')

/-- If the program ends from `s`, it ends as `post` says. -/
def Ends (m : Prog σ ε α) (s : σ) (post : α → σ → Prop) : Prop :=
  ∀ a t, m s = .ok (a, t) → post a t

/-- A safe program ends well if it ends. -/
theorem Safe.ends (safe : Safe m s post) : Ends m s post := fun _ _ ran => safe.result ran

/-- Run a program on a part of the state. -/
theorem Ends.within {t : τ}
    (ends : Ends m (get t) post) (implies : ∀ a s, post a s → whole a (set t s)) :
    Ends (within get set m) t whole := by
  intro a u ran
  rw [Program.within] at ran
  cases result : m (get t) with
  | error e => simp [result] at ran
  | ok pair =>
    obtain ⟨b, s⟩ := pair
    simp only [result, Except.ok.injEq, Prod.mk.injEq] at ran
    obtain ⟨rfl, rfl⟩ := ran
    exact implies b s (ends b s result)

/-- A result without a step. -/
theorem Ends.pure (holds : post a s) : Ends (Pure.pure a : Prog σ ε α) s post :=
  (Safe.pure holds).ends

/-- Nothing is said about the end. -/
theorem Ends.trivial : Ends m s fun _ _ => True := fun _ _ _ => True.intro

/-- A failure has no result. -/
theorem Ends.fail (e : ε) : Ends (Program.fail e : Prog σ ε α) s post := nofun

/-- Run one program after the other. -/
theorem Ends.bind (first : Ends m s post)
    (rest : ∀ a t, post a t → Ends (next a) t last) : Ends (m >>= next) s last := by
  intro b u ran
  obtain ⟨a, t, result, later⟩ := bind_eq_ok ran
  exact rest a t (first a t result) b u later

/-- Read the state, then go on. -/
theorem Ends.bind_reads
    (rest : Ends (next (f s)) s last) : Ends (Program.reads f >>= next) s last := rest

/-- Change the state, then go on. -/
theorem Ends.bind_modifies {f : σ → σ} {next : Unit → Prog σ ε β}
    (rest : Ends (next ()) (f s) last) : Ends (Program.modifies f >>= next) s last := rest

/-- Weaken the postcondition. -/
theorem Ends.mono (ends : Ends m s post)
    (implies : ∀ a t, post a t → weaker a t) : Ends m s weaker :=
  fun a t ran => implies a t (ends a t ran)

/-- Reading the state. -/
theorem Ends.reads (holds : post (f s) s) : Ends (Program.reads f : Prog σ ε α) s post :=
  (Safe.reads holds).ends

/-- Changing the state. -/
theorem Ends.modifies {f : σ → σ} {post : Unit → σ → Prop} (holds : post () (f s)) :
    Ends (Program.modifies f : Prog σ ε Unit) s post := (Safe.modifies holds).ends

section SafeOr

variable {allowed : ε → Prop}

/-- From `s` the program ends as `post` says, or fails as is allowed. -/
def SafeOr (allowed : ε → Prop) (m : Prog σ ε α) (s : σ) (post : α → σ → Prop) : Prop :=
  match m s with
  | .ok (a, t) => post a t
  | .error e => allowed e

/-- A run that returns. -/
theorem SafeOr.of_ok (ran : m s = .ok (a, t)) (holds : post a t) : SafeOr allowed m s post := by
  rw [SafeOr, ran]
  exact holds

/-- A run that fails as it may. -/
theorem SafeOr.of_error (ran : m s = .error e) (fine : allowed e) : SafeOr allowed m s post := by
  rw [SafeOr, ran]
  exact fine

/-- A result without a step. -/
theorem SafeOr.pure (holds : post a s) : SafeOr allowed (Pure.pure a : Prog σ ε α) s post :=
  holds

/-- A failure that is allowed. -/
theorem SafeOr.fail (fine : allowed e) :
    SafeOr allowed (Program.fail e : Prog σ ε α) s post := fine

/-- What the program returned. -/
theorem SafeOr.result (safe : SafeOr allowed m s post) (ran : m s = .ok (a, t)) : post a t := by
  rwa [SafeOr, ran] at safe

/-- How the program failed. -/
theorem SafeOr.error (safe : SafeOr allowed m s post) (ran : m s = .error e) : allowed e := by
  rwa [SafeOr, ran] at safe

/-- Run one program after the other. -/
theorem SafeOr.bind (first : SafeOr allowed m s post)
    (rest : ∀ a t, post a t → SafeOr allowed (next a) t last) :
    SafeOr allowed (m >>= next) s last := by
  cases ran : m s with
  | ok result =>
    obtain ⟨a, t⟩ := result
    rw [SafeOr, bind_of_ok ran]
    exact rest a t (first.result ran)
  | error e => exact .of_error (bind_of_error ran) (first.error ran)

/-- Run a program with a known result, then go on. -/
theorem SafeOr.bind_ok (ran : m s = .ok (a, t)) (rest : SafeOr allowed (next a) t last) :
    SafeOr allowed (m >>= next) s last := by
  rwa [SafeOr, bind_of_ok ran]

/-- Read the state, then go on. -/
theorem SafeOr.bind_reads (rest : SafeOr allowed (next (f s)) s last) :
    SafeOr allowed (Program.reads f >>= next) s last := rest

/-- Change the state, then go on. -/
theorem SafeOr.bind_modifies {f : σ → σ} {next : Unit → Prog σ ε β}
    (rest : SafeOr allowed (next ()) (f s) last) :
    SafeOr allowed (Program.modifies f >>= next) s last := rest

/-- Two programs in a row may be taken as one. -/
theorem SafeOr.regroup {rest : β → Prog σ ε γ}
    {last : γ → σ → Prop} (safe : SafeOr allowed ((m >>= next) >>= rest) s last) :
    SafeOr allowed (m >>= fun a => next a >>= rest) s last := by
  rwa [bind_assoc] at safe

/-- Weaken the postcondition. -/
theorem SafeOr.mono (safe : SafeOr allowed m s post)
    (implies : ∀ a t, post a t → weaker a t) : SafeOr allowed m s weaker := by
  cases ran : m s with
  | ok result => exact .of_ok ran (implies _ _ (safe.result ran))
  | error e => exact .of_error ran (safe.error ran)

end SafeOr

end Program
