import Xv6Cos.Lib.Cycle

/-!
# Circular doubly linked lists

The cells of a list are the values of a type and one more cell, the head, written `none`.
`Linked` says that following `next` from the head visits a list of cells and comes back,
and that `prev` undoes every such step. Unlinking a cell and pushing a cell behind the head
are given as the pointer assignments that implement them.
-/

namespace CircularList

open Function List

variable {α : Type} {test : α → Bool} {fuel : Nat}

/-- The two pointers of every cell. -/
structure Links (α : Type) where
  /-- The cell before. -/
  prev : Option α → Option α
  /-- The cell after. -/
  next : Option α → Option α

namespace Links

/-- Following `next` from `a` visits `l` and then reaches `z`, and `prev` undoes each step. -/
def Path (links : Links α) (a : Option α) : List α → Option α → Prop
  | [], z => links.next a = z ∧ links.prev z = a
  | x :: l, z => links.next a = some x ∧ links.prev (some x) = a ∧ links.Path (some x) l z

/-- The links form one cycle through the head and the cells of `l`, in this order. -/
def Linked (links : Links α) (l : List α) : Prop := links.Path none l none

/-- The same cells with the two directions exchanged. -/
def swap (links : Links α) : Links α := ⟨links.next, links.prev⟩

variable {links : Links α} {a z : Option α} {l left right : List α} {x : α}

/-- A path splits at every cell it visits. -/
theorem path_append : links.Path a (left ++ x :: right) z ↔
    links.Path a left (some x) ∧ links.Path (some x) right z := by
  induction left generalizing a with
  | nil => simp [Path, and_assoc]
  | cons y left ih => simp [Path, ih, and_assoc]

/-- Read backwards, a path is a path of the exchanged links. -/
theorem Path.swap (path : links.Path a l z) : links.swap.Path z l.reverse a := by
  induction l generalizing a with
  | nil => exact ⟨path.2, path.1⟩
  | cons y l ih =>
    obtain ⟨forward, backward, rest⟩ := path
    rw [reverse_cons, path_append]
    exact ⟨ih rest, backward, forward⟩

/-- The links are a path exactly if `next` is one, and `prev` one the other way. -/
theorem path_iff : links.Path a l z ↔
    Cycle.Path links.next a (l.map some) z ∧ Cycle.Path links.prev z (l.reverse.map some) a := by
  induction l generalizing a with
  | nil => rfl
  | cons x l ih =>
    rw [Path, ih, reverse_cons, map_append, map_cons, map_cons, map_nil, Cycle.path_append]
    simp only [Cycle.Path]
    tauto

/-- The end of a path points back to its last cell. -/
theorem Path.prev_last (path : links.Path a l z) : links.prev z = Cycle.last a (l.map some) := by
  induction l generalizing a with
  | nil => exact path.2
  | cons y l ih => exact ih path.2.2

/-- The start of a path points to its first cell. -/
theorem Path.next_last (path : links.Path a l z) :
    links.next a = Cycle.last z (l.reverse.map some) :=
  path.swap.prev_last

/-- The cells are distinct, and none is the head. -/
theorem cells_nodup (distinct : l.Nodup) : ((none : Option α) :: l.map some).Nodup :=
  nodup_cons.mpr ⟨by simp, distinct.map fun _ _ same => Option.some.inj same⟩

variable [DecidableEq α]

/-- `b->next->prev = b->prev; b->prev->next = b->next`. -/
def unlink (links : Links α) (b : α) : Links α :=
  let prev := update links.prev (links.next (some b)) (links.prev (some b))
  { prev := prev, next := update links.next (prev (some b)) (links.next (some b)) }

/-- `b->next = head.next; b->prev = &head; head.next->prev = b; head.next = b`. -/
def pushFront (links : Links α) (b : α) : Links α :=
  let next := update links.next (some b) (links.next none)
  let prev := update links.prev (some b) none
  { prev := update prev (next none) (some b), next := update next none (some b) }

/-- Unlinking removes exactly the cell. -/
theorem linked_unlink (linked : links.Linked (left ++ x :: right))
    (distinct : (left ++ x :: right).Nodup) : (links.unlink x).Linked (left ++ right) := by
  obtain ⟨before, after⟩ := path_append.mp linked
  obtain ⟨forward, backward⟩ := path_iff.mp linked
  have leave := after.next_last
  have apart : links.next (some x) ≠ some x := by
    intro same
    have mem : some x ∈ none :: right.reverse.map some := by
      rw [← same, leave]
      exact Cycle.last_mem
    exact (nodup_cons.mp (nodup_append.mp distinct).2.1).1 (by simpa using mem)
  have prev : (links.unlink x).prev =
      update links.prev (Cycle.last none (right.reverse.map some)) (links.prev (some x)) := by
    rw [← leave, unlink]
  have next : (links.unlink x).next =
      update links.next (Cycle.last none (left.map some)) (links.next (some x)) := by
    rw [← before.prev_last, unlink]
    simp only [update_of_ne apart.symm]
  have cells := cells_nodup distinct
  have cells' := cells_nodup (nodup_reverse.mpr distinct)
  rw [reverse_append, reverse_cons, append_assoc, singleton_append] at backward cells'
  rw [map_append, map_cons] at forward backward cells cells'
  refine path_iff.mpr ⟨?_, ?_⟩
  · rw [next, map_append]
    exact forward.remove cells
  · rw [prev, reverse_append, map_append]
    exact backward.remove cells'

/-- Pushing a new cell puts it right behind the head. -/
theorem linked_pushFront (linked : links.Linked l) (fresh : x ∉ l) (distinct : l.Nodup) :
    (links.pushFront x).Linked (x :: l) := by
  obtain ⟨forward, backward⟩ := path_iff.mp linked
  have first := Path.next_last linked
  have prev : (links.pushFront x).prev = update (update links.prev (some x)
      (links.prev (Cycle.last none (l.reverse.map some)))) (Cycle.last none (l.reverse.map some))
      (some x) := by
    rw [backward.next_last, ← first, pushFront]
    simp only [update_of_ne (Option.some_ne_none x).symm]
  refine path_iff.mpr ⟨?_, ?_⟩
  · refine Cycle.Path.insert (l := []) forward (cells_nodup distinct) ?_
    simpa using fresh
  · rw [prev, reverse_cons, map_append]
    rw [← append_nil (l.reverse.map some)] at backward
    refine backward.insert ?_ ?_
    · rw [append_nil]
      exact cells_nodup (nodup_reverse.mpr distinct)
    · simpa using fresh

end Links

/-- Follow `step` from a cell until the head or the first cell that satisfies the test, for
at most `fuel` cells. -/
def scan (step : Option α → Option α) (test : α → Bool) : Option α → Nat → Option α
  | _, 0 => none
  | none, _ + 1 => none
  | some b, fuel + 1 => if test b then some b else scan step test (step (some b)) fuel

/-- Following `next` from the head finds the first cell of the list that satisfies the
test; fuel for every cell is enough. -/
theorem scan_next {links : Links α} {a : Option α} {l : List α}
    (path : links.Path a l none) (enough : l.length < fuel) :
    scan links.next test (links.next a) fuel = l.find? test := by
  induction l generalizing a fuel with
  | nil =>
    obtain ⟨fuel, rfl⟩ := Nat.exists_eq_add_of_lt enough
    rw [path.1]
    rfl
  | cons y l ih =>
    cases fuel with
    | zero => simp at enough
    | succ fuel =>
      rw [path.1, scan, List.find?_cons]
      cases test y with
      | true => rfl
      | false => simpa using ih path.2.2 (by simpa using enough)

/-- Following `prev` from the head searches the list from its end. -/
theorem scan_prev {links : Links α} {l : List α}
    (linked : links.Linked l) (enough : l.length < fuel) :
    scan links.prev test (links.prev none) fuel = l.reverse.find? test :=
  scan_next (show links.swap.Path none l.reverse none from linked.swap) (by simpa using enough)

end CircularList
