import Xv6Cos.Verif.Process

/-!
# The process table along the operations

Which entries of the process table an operation takes into use, frees or turns into zombies,
in terms of its label. Nothing is said here about memory, so memory operations are opaque.
-/

namespace Xv6Cos.Verif

open Kernel Program Ends Function

variable {layout : Layout} {s : Sys} {p : Fin NPROC} {event : UserEvent}

/-- The state of an entry after an operation. -/
def stateAfter (event : UserEvent) (q : Fin NPROC) (state : ProcState) : ProcState :=
  match event with
  | .forked _ np => if q = np then .alive else state
  | .storeKilled p _ => if q = p then .zombie else state
  | .loadKilled p _ => if q = p then .zombie else state
  | .exited p => if q = p then .zombie else state
  | .waited _ _ (.reaped pp _ _) => if q = pp then .unused else state
  | _ => state

/-- Only reaping ends the use of an entry. -/
theorem stateAfter_used {q : Fin NPROC} {state : ProcState} (used : state ≠ .unused)
    (spared : ∀ p addr pid xstate, event ≠ .waited p addr (.reaped q pid xstate)) :
    stateAfter event q state ≠ .unused := by
  unfold stateAfter
  split
  case h_5 p addr pp pid xstate =>
    have other : q ≠ pp := fun same => spared p addr pid xstate (same ▸ rfl)
    rwa [if_neg other]
  case h_6 => exact used
  all_goals
    split
    · nofun
    · exact used

/-- Entries of the process table that differ at most in what they say about memory. -/
def SameEntry (a b : Proc) : Prop := a.state = b.state ∧ a.pid = b.pid

theorem SameEntry.refl (pr : Proc) : SameEntry pr pr := ⟨rfl, rfl⟩

/-- Unused entries have pid 0, others do not. -/
structure PidsOk (s : Sys) : Prop where
  next : 0 < s.nextpid
  unused : ∀ q, (s.proc q).state = .unused ↔ (s.proc q).pid = 0

/-- The process forks, exits or is killed by a fault. -/
def Acts (event : UserEvent) (p : Fin NPROC) : Prop :=
  (∃ np, event = .forked p np) ∨ (∃ va, event = .storeKilled p va) ∨
    (∃ va, event = .loadKilled p va) ∨ event = .exited p

/-- A process that acts and stays alive forks. -/
theorem Acts.forks (acts : Acts event p)
    (spared : stateAfter event p .alive = .alive) : ∃ np, event = .forked p np := by
  rcases acts with forked | ⟨va, rfl⟩ | ⟨va, rfl⟩ | rfl
  · exact forked
  · rw [stateAfter, if_pos rfl] at spared
    contradiction
  · rw [stateAfter, if_pos rfl] at spared
    contradiction
  · rw [stateAfter, if_pos rfl] at spared
    contradiction

/-- The table has changed as the label says. -/
structure TableStep (s : Sys) (event : UserEvent) (t : Sys) : Prop where
  states : ∀ q, (t.proc q).state = stateAfter event q (s.proc q).state
  pids : PidsOk t
  /-- A new process takes an entry that was not in use. -/
  fresh : ∀ p np, event = .forked p np → (s.proc np).state = .unused
  /-- Only a zombie is reaped. -/
  zombie : ∀ p addr pp pid xstate, event = .waited p addr (.reaped pp pid xstate) →
    (s.proc pp).state = .zombie
  actor : ∀ p, Acts event p → (s.proc p).state ≠ .unused

/-- An operation that keeps all entries. -/
theorem TableStep.same {t : Sys} (pids : PidsOk s)
    (entries : ∀ q, SameEntry (t.proc q) (s.proc q)) (next : s.nextpid ≤ t.nextpid)
    (plain : ∀ q state, stateAfter event q state = state) (notFork : ∀ p np, event ≠ .forked p np)
    (notWait : ∀ p addr pp pid xstate, event ≠ .waited p addr (.reaped pp pid xstate)) :
    TableStep s event t where
  states q := (entries q).1.trans (plain q _).symm
  pids := ⟨lt_of_lt_of_le pids.next next, fun q => by
    rw [(entries q).1, (entries q).2]
    exact pids.unused q⟩
  fresh p np forked := absurd forked (notFork p np)
  zombie p addr pp pid xstate waited := absurd waited (notWait p addr pp pid xstate)
  actor p acts := by
    obtain ⟨np, forked⟩ := acts.forks (plain p .alive)
    exact absurd forked (notFork p np)

/-- `freeproc` clears one entry. -/
theorem freeproc_table : Ends (freeproc layout p) s fun _ t =>
    t.proc p = .cleared ∧ (∀ q ≠ p, t.proc q = s.proc q) ∧ t.nextpid = s.nextpid := by
  have last : ∀ u : Sys, u.proc = s.proc → u.nextpid = s.nextpid →
      Ends (setProc p .cleared) u fun _ t =>
        t.proc p = .cleared ∧ (∀ q ≠ p, t.proc q = s.proc q) ∧ t.nextpid = s.nextpid := by
    intro u procs next
    refine .modifies ⟨setProc_self _, fun q other => ?_, next⟩
    rw [setProc_of_ne other, procs]
  have freed {m : VmM Unit} : ∀ u : Sys, u.proc = s.proc → u.nextpid = s.nextpid →
      Ends (memory m >>= fun _ => setProc p .cleared) u fun _ t =>
        t.proc p = .cleared ∧ (∀ q ≠ p, t.proc q = s.proc q) ∧ t.nextpid = s.nextpid :=
    fun u procs next => bind_memory_ends .trivial fun _ vm _ => last _ procs next
  unfold freeproc
  apply bind_reads
  cases (s.proc p).trapframe with
  | none =>
    cases (s.proc p).pagetable with
    | none => exact last s rfl rfl
    | some pagetable => exact freed s rfl rfl
  | some trapframe =>
    refine bind_memory_ends .trivial fun _ vm _ => ?_
    cases (s.proc p).pagetable with
    | none => exact last _ rfl rfl
    | some pagetable => exact freed _ rfl rfl

section

variable (pids : PidsOk s)

include pids

/-- `allocproc` takes an unused entry into use, or clears it again. -/
theorem allocproc_table : Ends (allocproc layout) s fun found t =>
    s.nextpid ≤ t.nextpid ∧
      match found with
      | none => ∀ q, SameEntry (t.proc q) (s.proc q)
      | some np => (s.proc np).state = .unused ∧ (t.proc np).state = .alive ∧
          (t.proc np).pid ≠ 0 ∧ ∀ q ≠ np, t.proc q = s.proc q := by
  unfold allocproc
  apply bind_reads
  cases search : (List.finRange NPROC).find? fun p => (s.proc p).state = .unused with
  | none => exact .pure ⟨le_rfl, fun q => .refl _⟩
  | some np =>
    have unused : (s.proc np).state = .unused := by simpa using List.find?_some search
    -- the entry is cleared again
    have undone : ∀ u : Sys, (∀ q ≠ np, u.proc q = s.proc q) → u.nextpid = s.nextpid + 1 →
        Ends (do
          freeproc layout np
          pure (none : Option (Fin NPROC))) u fun found t => s.nextpid ≤ t.nextpid ∧
            match found with
            | none => ∀ q, SameEntry (t.proc q) (s.proc q)
            | some np => (s.proc np).state = .unused ∧ (t.proc np).state = .alive ∧
                (t.proc np).pid ≠ 0 ∧ ∀ q ≠ np, t.proc q = s.proc q := by
      intro u others next
      refine .bind freeproc_table ?_
      rintro _ t ⟨cleared, rest, counter⟩
      refine .pure ⟨by omega, fun q => ?_⟩
      by_cases here : q = np
      · rw [here, cleared]
        exact ⟨unused.symm, ((pids.unused np).mp unused).symm⟩
      · rw [rest q here, others q here]
        exact .refl _
    apply bind_reads
    apply bind_modifies
    apply bind_reads
    refine bind_memory_ends .trivial fun page vm₁ _ => ?_
    cases page with
    | none =>
      apply bind_modifies
      exact undone _ (fun q other => setProc_of_ne other) rfl
    | some trapframe =>
      apply bind_modifies
      refine bind_memory_ends .trivial fun root vm₂ _ => ?_
      cases root with
      | none =>
        apply bind_modifies
        exact undone _ (fun q other => (setProc_of_ne other).trans (setProc_of_ne other)) rfl
      | some pagetable =>
        apply bind_modifies
        refine .pure ⟨Nat.le_succ _, unused, ?_, ?_, fun q other => ?_⟩
        · rw [setProc_self]
        · rw [setProc_self]
          exact Nat.pos_iff_ne_zero.mp pids.next
        · exact (setProc_of_ne other).trans (setProc_of_ne other)

/-- `fork` takes one entry into use, or none. -/
theorem fork_table (used : (s.proc p).state ≠ .unused) :
    Ends ((UserAction.fork).run layout p) s (TableStep s) := by
  have same : ∀ (copying : Bool) (t : Sys), (∀ q, SameEntry (t.proc q) (s.proc q)) →
      s.nextpid ≤ t.nextpid → TableStep s (.forkFailed p copying) t := fun copying t entries next =>
    .same pids entries next (fun _ _ => rfl) (by simp) (by simp)
  suffices forks : Ends (fork layout p) s fun result t => TableStep s (forkEvent p result) t by
    refine .bind forks ?_
    rintro (_ | _ | _) t table
    · exact .pure table
    · exact .pure table
    · exact .pure table
  unfold fork
  refine .bind (allocproc_table pids) ?_
  rintro (_ | np) s₁ ⟨next, entries⟩
  · exact .pure (same false s₁ entries next)
  · obtain ⟨unused, alive, pid, others⟩ := entries
    apply bind_reads
    apply bind_reads
    split
    · rename_i old new trapframe newframe oldRoot newRoot frame newFrame
      refine bind_memory_ends .trivial fun ok vm _ => ?_
      cases ok with
      | true =>
        rw [if_pos rfl]
        refine bind_memory_ends .trivial fun _ vm₂ _ => ?_
        refine bind_memory_ends .trivial fun _ vm₃ _ => ?_
        apply bind_modifies
        refine .pure ⟨fun q => ?_, ⟨lt_of_lt_of_le pids.next next, fun q => ?_⟩, ?_,
          by simp [forkEvent], ?_⟩
        · by_cases here : q = np
          · rw [here, setProc_self]
            exact (if_pos rfl).symm
          · rw [setProc_of_ne here]
            exact (congrArg Proc.state (others q here)).trans (if_neg here).symm
        · by_cases here : q = np
          · rw [here, setProc_self]
            exact ⟨by simp, fun zero => absurd zero pid⟩
          · rw [setProc_of_ne here]
            show (s₁.proc q).state = .unused ↔ (s₁.proc q).pid = 0
            rw [others q here]
            exact pids.unused q
        · intro p' np' forked
          cases forked
          exact unused
        · rintro p' (⟨_, forked⟩ | ⟨_, stored⟩ | ⟨_, loaded⟩ | exited)
          · cases forked
            exact used
          · contradiction
          · contradiction
          · contradiction
      | false =>
        refine .bind freeproc_table ?_
        rintro _ t ⟨cleared, rest, counter⟩
        refine .pure (same true t (fun q => ?_) (le_of_le_of_eq next counter.symm))
        by_cases here : q = np
        · rw [here, cleared]
          exact ⟨unused.symm, ((pids.unused np).mp unused).symm⟩
        · rw [rest q here, others q here]
          exact .refl _
    · exact .fail _

/-- `exit` leaves a zombie. -/
theorem exit_table (used : (s.proc p).state ≠ .unused) (status : Int) :
    Ends (exit p status) s fun _ t => PidsOk t ∧
      ∀ q, (t.proc q).state = if q = p then .zombie else (s.proc q).state := by
  unfold exit
  apply bind_reads
  by_cases init : p = s.initproc
  · rw [if_pos init]
    exact .fail _
  · rw [if_neg init]
    apply bind_modifies
    apply bind_reads
    have orphans : ∀ q, SameEntry ((s.reparent p).proc q) (s.proc q) := by
      intro q
      simp only [Sys.reparent]
      split <;> exact ⟨rfl, rfl⟩
    refine .modifies ⟨⟨pids.next, fun q => ?_⟩, fun q => ?_⟩
    · by_cases here : q = p
      · rw [here, setProc_self]
        refine ⟨nofun, fun zero => absurd ((pids.unused p).mpr ?_) used⟩
        rw [← (orphans p).2]
        exact zero
      · rw [setProc_of_ne here, (orphans q).1, (orphans q).2]
        exact pids.unused q
    · by_cases here : q = p
      · rw [here, setProc_self, if_pos rfl]
      · rw [setProc_of_ne here, if_neg here]
        exact (orphans q).1

/-- `wait` frees at most the entry of a zombie. -/
theorem wait_table (addr : ℕ) :
    Ends ((UserAction.wait addr).run layout p) s (TableStep s) := by
  have same : ∀ (result : WaitResult) (t : Sys), t.proc = s.proc → t.nextpid = s.nextpid →
      (∀ pp pid xstate, result ≠ .reaped pp pid xstate) →
      TableStep s (.waited p addr result) t := by
    intro result t procs next other
    refine .same pids (fun q => by rw [procs]; exact .refl _) next.ge (fun q state => ?_) nofun ?_
    · cases result with
      | reaped pp pid xstate => exact absurd rfl (other pp pid xstate)
      | _ => rfl
    · intro p' addr' pp pid xstate waited
      cases waited
      exact other pp pid xstate rfl
  suffices waits : Ends (wait layout p addr) s fun result t =>
      TableStep s (.waited p addr result) t from
    .bind waits fun _ _ table => .pure table
  unfold wait
  apply bind_reads
  apply bind_reads
  apply bind_reads
  cases search : (List.finRange NPROC).find? fun pp =>
    (s.proc pp).parent = some p && (s.proc pp).state = .zombie with
  | none =>
    simp only
    split
    · exact .pure (same _ s rfl rfl nofun)
    · exact .pure (same _ s rfl rfl nofun)
  | some pp =>
    have zombie : (s.proc pp).state = .zombie := by
      have found := List.find?_some search
      simp only [Bool.and_eq_true, decide_eq_true_eq] at found
      exact found.2
    apply bind_reads
    cases (s.proc p).pagetable with
    | none => exact .fail _
    | some pagetable =>
      -- the child goes
      have reap : ∀ u : Sys, u.proc = s.proc → u.nextpid = s.nextpid → Ends (do
          freeproc layout pp
          pure (.reaped pp (s.proc pp).pid (s.proc pp).xstate)) u fun result t =>
            TableStep s (.waited p addr result) t := by
        intro u procs next
        refine .bind freeproc_table ?_
        rintro _ t ⟨cleared, rest, counter⟩
        have others : ∀ q ≠ pp, t.proc q = s.proc q := fun q other => by rw [rest q other, procs]
        refine .pure ⟨fun q => ?_, ⟨?_, fun q => ?_⟩, nofun, ?_, ?_⟩
        · by_cases here : q = pp
          · rw [here, cleared]
            exact (if_pos rfl).symm
          · rw [others q here]
            exact (if_neg here).symm
        · rw [counter, next]
          exact pids.next
        · by_cases here : q = pp
          · rw [here, cleared]
            exact ⟨fun _ => rfl, fun _ => rfl⟩
          · rw [others q here]
            exact pids.unused q
        · intro p' addr' pp' pid xstate waited
          cases waited
          exact zombie
        · rintro p' (⟨_, forked⟩ | ⟨_, stored⟩ | ⟨_, loaded⟩ | exited)
          · contradiction
          · contradiction
          · contradiction
          · contradiction
      simp only
      split
      · refine bind_memory_ends .trivial fun ok vm _ => ?_
        cases ok with
        | true => exact reap _ rfl rfl
        | false => exact .pure (same _ _ rfl rfl nofun)
      · exact reap s rfl rfl

/-- Every operation of a running process changes the process table as its label says. -/
theorem action_table (action : UserAction) (enabled : action.enabled s p) :
    Ends (action.run layout p) s (TableStep s) := by
  have alive : (s.proc p).state = .alive := by
    cases action with
    | release page => exact enabled.1
    | _ => exact enabled
  have used : (s.proc p).state ≠ .unused := by simp [alive]
  -- operations that leave the table alone, or only the size or page table of one entry
  have same : ∀ (event : UserEvent) (t : Sys), (∀ q, SameEntry (t.proc q) (s.proc q)) →
      t.nextpid = s.nextpid → (∀ q state, stateAfter event q state = state) →
      (∀ p np, event ≠ .forked p np) →
      (∀ p addr pp pid xstate, event ≠ .waited p addr (.reaped pp pid xstate)) →
      TableStep s event t := fun event t entries next plain notFork notWait =>
    .same pids entries next.ge plain notFork notWait
  have entry : ∀ (procs : Fin NPROC → Proc) (pr : Proc), procs = update s.proc p pr →
      SameEntry pr (s.proc p) → ∀ q, SameEntry (procs q) (s.proc q) := by
    rintro procs pr rfl like q
    by_cases here : q = p
    · rw [here, update_self]
      exact like
    · rw [update_of_ne here]
      exact .refl _
  have exits : ∀ (event : UserEvent) (u : Sys), u.proc = s.proc → u.nextpid = s.nextpid →
      (∀ q state, stateAfter event q state = if q = p then .zombie else state) →
      (∀ p np, event ≠ .forked p np) →
      (∀ p addr pp pid xstate, event ≠ .waited p addr (.reaped pp pid xstate)) → ∀ status,
      Ends (do
        Kernel.exit p status
        pure event) u fun event t => TableStep s event t := by
    intro event u procs next zombie notFork notWait status
    have pids' : PidsOk u := ⟨by rw [next]; exact pids.next, fun q => by
      rw [procs]
      exact pids.unused q⟩
    refine .bind (exit_table pids' (by rw [procs]; exact used) status) ?_
    rintro _ t ⟨pids₁, states⟩
    refine .pure ⟨fun q => ?_, pids₁, fun p np forked => absurd forked (notFork p np),
      fun p addr pp pid xstate waited => absurd waited (notWait p addr pp pid xstate), ?_⟩
    · rw [states q, zombie, procs]
    · intro p' acts
      by_cases same : p' = p
      · rw [same]
        exact used
      · obtain ⟨np, forked⟩ := acts.forks ((zombie p' .alive).trans (if_neg same))
        exact absurd forked (notFork p' np)
  cases action with
  | fork => exact fork_table pids used
  | wait addr => exact wait_table pids addr
  | exit status => exact exits (.exited p) s rfl rfl (fun _ _ => rfl) (by simp) (by simp) status
  | exec file argv =>
    unfold UserAction.run
    have execs : Ends (exec layout p file argv) s fun _ t =>
        (∀ q, SameEntry (t.proc q) (s.proc q)) ∧ t.nextpid = s.nextpid := by
      unfold exec
      apply bind_reads
      split
      · exact .pure ⟨fun q => .refl _, rfl⟩
      · refine bind_memory_ends .trivial fun image vm _ => ?_
        cases image with
        | none => exact .pure ⟨fun q => .refl _, rfl⟩
        | some image =>
          apply bind_modifies
          refine bind_memory_ends .trivial fun _ vm _ => ?_
          exact .pure ⟨entry _ _ rfl (by exact ⟨rfl, rfl⟩), rfl⟩
      · exact .fail _
    refine .bind execs ?_
    rintro result t ⟨entries, next⟩
    split
    · exact .reads (same _ t entries next (fun _ _ => rfl) (by simp) (by simp))
    · exact .pure (same _ t entries next (fun _ _ => rfl) (by simp) (by simp))
  | growproc n =>
    unfold UserAction.run
    have grows : Ends (growproc layout p n) s fun _ t =>
        (∀ q, SameEntry (t.proc q) (s.proc q)) ∧ t.nextpid = s.nextpid := by
      unfold growproc
      apply bind_reads
      split
      · exact .fail _
      · split
        · refine bind_memory_ends .trivial fun sz vm _ => ?_
          split
          · exact .pure ⟨fun q => .refl _, rfl⟩
          · apply bind_modifies
            exact .pure ⟨entry _ _ rfl (by exact ⟨rfl, rfl⟩), rfl⟩
        · split
          · refine bind_memory_ends .trivial fun sz vm _ => ?_
            apply bind_modifies
            exact .pure ⟨entry _ _ rfl (by exact ⟨rfl, rfl⟩), rfl⟩
          · exact .pure ⟨fun q => .refl _, rfl⟩
    refine .bind grows ?_
    rintro ok t ⟨entries, next⟩
    split
    · exact .reads (same _ t entries next (fun _ _ => rfl) (by simp) (by simp))
    · exact .pure (same _ t entries next (fun _ _ => rfl) (by simp) (by simp))
  | store va byte =>
    unfold UserAction.run userStore
    apply bind_reads
    split
    · exact .fail _
    · apply bind_reads
      split
      · refine bind_memory_ends .trivial fun _ vm _ => ?_
        exact .pure (same _ _ (fun q => .refl _) rfl (fun _ _ => rfl) (by simp) (by simp))
      · refine bind_memory_ends .trivial fun ok vm _ => ?_
        cases ok with
        | true => exact .pure (same _ _ (fun q => .refl _) rfl (fun _ _ => rfl) (by simp) (by simp))
        | false =>
          exact exits (.storeKilled p va) { s with vm := vm } rfl rfl (fun _ _ => rfl) (by simp)
            (by simp)
            (-1)
  | load va =>
    unfold UserAction.run userLoad
    apply bind_reads
    split
    · exact .pure (same _ _ (fun q => .refl _) rfl (fun _ _ => rfl) (by simp) (by simp))
    · exact exits (.loadKilled p va) _ rfl rfl (fun _ _ => rfl) (by simp) (by simp) (-1)
  | copyout | copyin =>
    unfold UserAction.run
    apply bind_reads
    split
    · exact .fail _
    · refine bind_memory_ends .trivial fun _ vm _ => ?_
      exact .pure (same _ _ (fun q => .refl _) rfl (fun _ _ => rfl) (by simp) (by simp))
  | hold | release =>
    unfold UserAction.run
    refine bind_memory_ends .trivial fun _ vm _ => ?_
    apply bind_modifies
    exact .pure (same _ _ (fun q => .refl _) rfl (fun _ _ => rfl) (by simp) (by simp))

end

/-- The pages allocated at boot leave the process table alone. -/
theorem holdPages_table : ∀ (n : ℕ) (s : Sys), Ends (holdPages n) s fun _ t =>
    t.proc = s.proc ∧ t.nextpid = s.nextpid := by
  intro n
  induction n with
  | zero => exact fun s => .pure ⟨rfl, rfl⟩
  | succ n ih =>
    intro s
    refine bind_memory_ends .trivial fun page vm _ => ?_
    cases page with
    | none => exact .fail _
    | some page =>
      apply bind_modifies
      exact ih _

/-- The process table at boot. -/
theorem init_pids (start : (userSystem layout).init s) : PidsOk s := by
  obtain ⟨mem, n, initcode, booted, -⟩ := start
  suffices boots : Ends (boot layout n initcode) (.reset mem) fun _ t => PidsOk t from
    boots () s booted
  unfold boot
  refine bind_memory_ends .trivial fun _ vm _ => ?_
  refine .bind (holdPages_table n _) ?_
  rintro _ s₁ ⟨procs, next⟩
  have pids : PidsOk s₁ := by
    refine ⟨by rw [next]; exact Nat.one_pos, fun q => ?_⟩
    rw [procs]
    exact ⟨fun _ => rfl, fun _ => rfl⟩
  unfold userinit
  refine .bind (allocproc_table pids) ?_
  rintro (_ | p) s₂ ⟨more, entries⟩
  · exact .fail _
  · obtain ⟨-, alive, pid, others⟩ := entries
    apply bind_modifies
    apply bind_reads
    split
    · refine bind_memory_ends .trivial fun _ vm _ => ?_
      refine bind_memory_ends .trivial fun _ vm _ => ?_
      refine bind_memory_ends .trivial fun _ vm _ => ?_
      refine .modifies ⟨lt_of_lt_of_le pids.next more, fun q => ?_⟩
      by_cases here : q = p
      · rw [here, setProc_self]
        exact ⟨nofun, fun zero => absurd zero pid⟩
      · rw [setProc_of_ne here]
        show (s₂.proc q).state = .unused ↔ (s₂.proc q).pid = 0
        rw [others q here]
        exact pids.unused q
    · exact .fail _

end Xv6Cos.Verif
