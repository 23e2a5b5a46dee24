import Xv6Cos.Kernel.LogMachine

/-!
# The block store that the log and the cache implement

What a run must look like from outside. A block holds what was last released into it; the
releases since the last commit form the open group; a commit closes the group, and a crash
drops it. After a crash the store is the one that the closed groups make of the first disk.
-/

namespace Xv6Cos.Spec

open Kernel Function List

/-- The changes of one transaction, in the order of their releases. -/
abbrev Group := List (ℕ × Block)

/-- The store after the changes of a group. -/
def applyGroup (store : ℕ → Block) (group : Group) : ℕ → Block :=
  group.foldl (fun store change => update store change.1 change.2) store

/-- The store after a sequence of groups. -/
def applyGroups (store : ℕ → Block) (groups : List Group) : ℕ → Block :=
  groups.foldl applyGroup store

/-- The block store as its users may rely on it. -/
structure Store where
  /-- What a read returns. -/
  contents : ℕ → Block
  /-- What a crash falls back to. -/
  committed : ℕ → Block
  /-- The open group. -/
  pending : Group

/-- The effect of an event. Installing a transaction changes nothing. -/
def Store.after (store : Store) : LogEvent → Store
  | .released blockno data =>
    { store with
      contents := update store.contents blockno data
      pending := store.pending ++ [(blockno, data)] }
  | .wrote blockno data =>
    { store with contents := update store.contents blockno data }
  | .committed blockno data =>
    { contents := update store.contents blockno data
      committed := applyGroup store.committed store.pending
      pending := [] }
  | .crashed disk => { store with contents := disk, pending := [] }
  | .silent | .read _ _ | .installed | .booted => store

/-- The store after a run from this disk. -/
def blockStore (disk : ℕ → Block) (trace : List LogEvent) : Store :=
  trace.foldl Store.after { contents := disk, committed := disk, pending := [] }

/-- One event more for the closed groups and the open one. -/
def groupsStep (groups : List Group × Group) : LogEvent → List Group × Group
  | .released blockno data => (groups.1, groups.2 ++ [(blockno, data)])
  | .committed _ _ => (groups.1 ++ [groups.2], [])
  | .crashed _ => (groups.1, [])
  | _ => groups

/-- The groups whose header reached the disk, in order, and the open group. -/
def groupsOf (trace : List LogEvent) : List Group × Group := trace.foldl groupsStep ([], [])

/-- The groups whose header reached the disk, in order. -/
def committedGroups (trace : List LogEvent) : List Group := (groupsOf trace).1

/-- Every read of the trace returned the contents of the store at that point. -/
def ReadsCurrent (disk : ℕ → Block) (events : List LogEvent) : Prop :=
  ∀ i blockno data, events[i]? = some (.read blockno data) →
    data = (blockStore disk (events.take i)).contents blockno

/-- One event more. -/
theorem blockStore_append (disk : ℕ → Block) (trace : List LogEvent) (event : LogEvent) :
    blockStore disk (trace ++ [event]) = (blockStore disk trace).after event := by
  rw [blockStore, foldl_append]
  rfl

/-- One event more. -/
theorem groupsOf_append (trace : List LogEvent) (event : LogEvent) :
    groupsOf (trace ++ [event]) = groupsStep (groupsOf trace) event := by
  rw [groupsOf, foldl_append]
  rfl

/-- A crash falls back to the groups whose header reached the disk. -/
theorem blockStore_groups (disk : ℕ → Block) (trace : List LogEvent) :
    (blockStore disk trace).committed = applyGroups disk (committedGroups trace) ∧
      (blockStore disk trace).pending = (groupsOf trace).2 := by
  induction trace using reverseRecOn with
  | nil => exact ⟨rfl, rfl⟩
  | append_singleton trace event ih =>
    obtain ⟨closed, opened⟩ := ih
    rw [committedGroups, groupsOf_append, blockStore_append]
    cases event <;> simp [Store.after, groupsStep, applyGroups, opened] <;> exact closed ▸ rfl

/-- The last event of the trace is the only new read. -/
theorem ReadsCurrent.append {disk : ℕ → Block} {trace : List LogEvent} {event : LogEvent}
    (current : ReadsCurrent disk trace)
    (last : ∀ blockno data, event = .read blockno data →
      data = (blockStore disk trace).contents blockno) :
    ReadsCurrent disk (trace ++ [event]) := by
  intro i blockno data here
  rcases lt_trichotomy i trace.length with earlier | rfl | later
  · rw [getElem?_append_left earlier] at here
    rw [take_append_of_le_length earlier.le]
    exact current i blockno data here
  · rw [getElem?_append_right le_rfl, Nat.sub_self] at here
    rw [take_left]
    exact last blockno data (Option.some.inj here)
  · rw [getElem?_eq_none (by simpa using Nat.succ_le_of_lt later)] at here
    contradiction

end Xv6Cos.Spec
