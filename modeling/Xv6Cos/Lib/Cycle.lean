import Mathlib.Data.List.Nodup
import Mathlib.Data.List.Perm.Basic
import Mathlib.Tactic.Order

/-!
# Circular singly linked lists

`Path next a l z` says that following `next` from `a` visits `l` and then reaches `z`; a cycle is a
path from a cell back to itself. A search that follows `next` from any cell of a cycle stops at a
cell that passes its test, if one does.
-/

namespace Cycle

open Function List

variable {α : Type} {next next' : α → α} {a x y z w : α} {l r : List α}

/-- Following `next` from `a` visits `l` and then reaches `z`. -/
def Path (next : α → α) : α → List α → α → Prop
  | a, [], z => next a = z
  | a, x :: l, z => next a = x ∧ Path next x l z

/-- The last cell before the end of a path. -/
def last : α → List α → α
  | a, [] => a
  | _, x :: l => last x l

/-- The last cell is on the path. -/
theorem last_mem : last a l ∈ a :: l := by
  induction l generalizing a with
  | nil => exact mem_singleton_self a
  | cons x l ih => exact mem_cons_of_mem _ ih

/-- The last cell of a longer path. -/
@[simp] theorem last_append : last a (l ++ [x]) = x := by
  induction l generalizing a with
  | nil => rfl
  | cons y l ih => exact ih

/-- A path splits at every cell it visits. -/
theorem path_append : Path next a (l ++ x :: r) z ↔ Path next a l x ∧ Path next x r z := by
  induction l generalizing a with
  | nil => rfl
  | cons y l ih => simp only [cons_append, Path, ih, and_assoc]

section

variable (path : Path next a l z)

include path

/-- A path depends only on the cells it follows. -/
theorem Path.congr (same : ∀ c ∈ a :: l, next' c = next c) : Path next' a l z := by
  induction l generalizing a with
  | nil => exact (same a (mem_singleton_self a)).trans path
  | cons x l ih =>
    exact ⟨(same a (mem_cons_self ..)).trans path.1,
      ih path.2 fun c mem => same c (mem_cons_of_mem _ mem)⟩

/-- A path may be entered from another cell that points where its first one does. -/
theorem Path.enter (first : next' x = next a)
    (same : ∀ c ∈ l, next' c = next c) : Path next' x l z := by
  cases l with
  | nil => exact first.trans path
  | cons y l => exact ⟨first.trans path.1, path.2.congr same⟩

/-- The last cell points to the end. -/
theorem Path.next_last : next (last a l) = z := by
  induction l generalizing a with
  | nil => exact path
  | cons x l ih => exact ih path.2

/-- The last pointer of a path may be turned elsewhere. -/
theorem Path.turn (distinct : (a :: l).Nodup)
    (same : ∀ c ∈ a :: l, c ≠ last a l → next' c = next c) (turned : next' (last a l) = w) :
    Path next' a l w := by
  induction l generalizing a with
  | nil => exact turned
  | cons x l ih =>
    obtain ⟨fresh, rest⟩ := nodup_cons.mp distinct
    have apart : a ≠ last a (x :: l) := fun same => fresh (by rw [same]; exact last_mem)
    exact ⟨(same a (mem_cons_self ..) apart).trans path.1,
      ih path.2 rest (fun c mem => same c (mem_cons_of_mem _ mem)) turned⟩

end

/-- A path may be cut behind any of its cells. -/
theorem path_cut : Path next a (l ++ r) z ↔ (∃ w, Path next a l w) ∧ Path next (last a l) r z := by
  induction l generalizing a with
  | nil => exact ⟨fun path => ⟨⟨next a, rfl⟩, path⟩, fun parts => parts.2⟩
  | cons x l ih =>
    simp only [cons_append, Path, ih, exists_and_left, and_assoc]
    rfl

/-- A cell is taken out of a path. -/
theorem Path.remove [DecidableEq α] (path : Path next a (l ++ x :: r) z)
    (distinct : (a :: (l ++ x :: r)).Nodup) :
    Path (update next (last a l) (next x)) a (l ++ r) z := by
  obtain ⟨before, after⟩ := path_append.mp path
  obtain ⟨left, -, apart⟩ := nodup_append.mp (cons_append ▸ distinct)
  refine path_cut.mpr ⟨⟨next x, before.turn left (fun c _ ne => update_of_ne ne ..)
    (update_self ..)⟩, after.enter (update_self ..) fun c mem => update_of_ne ?_ ..⟩
  exact (apart _ last_mem c (mem_cons_of_mem _ mem)).symm

/-- A new cell is put into a path. -/
theorem Path.insert [DecidableEq α] (path : Path next a (l ++ r) z)
    (distinct : (a :: (l ++ r)).Nodup) (fresh : x ∉ a :: (l ++ r)) :
    Path (update (update next x (next (last a l))) (last a l) x) a (l ++ x :: r) z := by
  obtain ⟨⟨w, before⟩, after⟩ := path_cut.mp path
  rw [← cons_append] at distinct fresh
  obtain ⟨left, -, apart⟩ := nodup_append.mp distinct
  have other : ∀ c ∈ a :: l ++ r, c ≠ x := fun c mem same => fresh (same ▸ mem)
  refine path_append.mpr ⟨before.turn left (fun c mem ne => ?_) (update_self ..),
    after.enter ?_ fun c mem => ?_⟩
  · rw [update_of_ne ne, update_of_ne (other c (mem_append_left r mem))]
  · rw [update_of_ne (other _ (mem_append_left r last_mem)).symm, update_self]
  · rw [update_of_ne (apart _ last_mem c mem).symm, update_of_ne (other c (mem_append_right _ mem))]

/-- The cells that a path leads to. -/
theorem Path.map_next (path : Path next a l z) : (a :: l).map next = l ++ [z] := by
  induction l generalizing a with
  | nil =>
    have here : next a = z := path
    simp [here]
  | cons x l ih =>
    rw [map_cons, ih path.2, path.1]
    rfl

/-- Every cell points to a later one or to the end. -/
theorem Path.next_mem (path : Path next a l z) (mem : x ∈ a :: l) : next x ∈ l ++ [z] := by
  rw [← path.map_next]
  exact mem_map_of_mem mem

/-- On a path without repetition no two cells point to the same one. -/
theorem Path.inj (path : Path next a l z) (distinct : (l ++ [z]).Nodup) (first : x ∈ a :: l)
    (second : y ∈ a :: l) (same : next x = next y) : x = y := by
  have nodup : ((a :: l).map next).Nodup := by
    rw [path.map_next]
    exact distinct
  exact inj_on_of_nodup_map nodup first second same

/-- A cycle may be entered at any of its cells. -/
theorem Path.rotate (path : Path next a l a) (mem : x ∈ a :: l) :
    ∃ l', Path next x l' x ∧ (x :: l').Perm (a :: l) := by
  rcases mem_cons.mp mem with rfl | inside
  · exact ⟨l, path, List.Perm.refl _⟩
  · obtain ⟨left, right, rfl⟩ := append_of_mem inside
    obtain ⟨before, after⟩ := path_append.mp path
    refine ⟨right ++ a :: left, path_append.mpr ⟨after, before⟩, ?_⟩
    have turned : (x :: right ++ a :: left).Perm (a :: left ++ x :: right) := perm_append_comm
    exact turned

section Search

variable {stop : α → Bool}

/-- Follow `next` to a cell that passes the test. -/
def search (next : α → α) (stop : α → Bool) : Nat → α → Option α
  | 0, _ => none
  | fuel + 1, a => if stop a then some a else search next stop fuel (next a)

/-- A path along which some cell passes the test is long enough. -/
theorem search_path (path : Path next a l z) (exists_stop : ∃ x ∈ a :: l, stop x = true) :
    ∃ y ∈ a :: l, stop y = true ∧ search next stop (l.length + 1) a = some y := by
  induction l generalizing a with
  | nil =>
    obtain ⟨x, mem, stops⟩ := exists_stop
    obtain rfl := mem_singleton.mp mem
    exact ⟨x, mem_singleton_self x, stops, by rw [search, if_pos stops]⟩
  | cons b l ih =>
    by_cases here : stop a = true
    · exact ⟨a, mem_cons_self .., here, by rw [search, if_pos here]⟩
    · have later : ∃ x ∈ b :: l, stop x = true := by
        obtain ⟨x, mem, stops⟩ := exists_stop
        rcases mem_cons.mp mem with rfl | inside
        · exact absurd stops here
        · exact ⟨x, inside, stops⟩
      obtain ⟨y, mem, stops, found⟩ := ih path.2 later
      refine ⟨y, mem_cons_of_mem _ mem, stops, ?_⟩
      rw [length_cons, search, if_neg here, path.1]
      exact found

/-- A search around a cycle finds a cell to stop at, wherever it starts. -/
theorem search_cycle (path : Path next a l a) (start : w ∈ a :: l)
    (exists_stop : ∃ x ∈ a :: l, stop x = true) :
    ∃ y ∈ a :: l, stop y = true ∧ search next stop (l.length + 1) w = some y := by
  obtain ⟨l', turned, same⟩ := path.rotate start
  obtain ⟨x, mem, stops⟩ := exists_stop
  obtain ⟨y, inside, stops', found⟩ := search_path turned ⟨x, same.mem_iff.mpr mem, stops⟩
  have long : l'.length = l.length := Nat.succ.inj same.length_eq
  exact ⟨y, same.mem_iff.mp inside, stops', long ▸ found⟩

/-- More steps do not change what a search has found. -/
theorem search_mono {fuel more : Nat} (enough : fuel ≤ more)
    (found : search next stop fuel a = some y) : search next stop more a = some y := by
  induction fuel generalizing a more with
  | zero => contradiction
  | succ fuel ih =>
    obtain ⟨more, rfl⟩ : ∃ k, more = k + 1 := ⟨more - 1, by omega⟩
    rw [search] at found ⊢
    by_cases here : stop a = true
    · rwa [if_pos here] at found ⊢
    · rw [if_neg here] at found ⊢
      exact ih (by omega) found

end Search

section Ordered

variable [LinearOrder α] {b c : α} {left right : List α}

/-- The test for the place of `b` in a cycle in ascending order: between two cells, or where the
order starts again. -/
def position (next : α → α) (b c : α) : Bool :=
  decide (c < b ∧ b < next c) || decide (next c ≤ c ∧ (c < b ∨ b < next c))

/-- The test, as a proposition. -/
theorem position_iff_place :
    position next b c = true ↔ c < b ∧ b < next c ∨ next c ≤ c ∧ (c < b ∨ b < next c) := by
  rw [position, Bool.or_eq_true, decide_eq_true_iff, decide_eq_true_iff]

/-- Along an ascending path each cell but the last points to a greater one. -/
theorem Path.ascends (path : Path next a l z) (sorted : (a :: l).Pairwise (· < ·))
    (mem : c ∈ a :: l) : c = last a l ∧ next c = z ∨ c < next c ∧ next c ∈ l := by
  induction l generalizing a with
  | nil =>
    obtain rfl := mem_singleton.mp mem
    exact .inl ⟨rfl, path⟩
  | cons x l ih =>
    obtain ⟨first, rest⟩ := pairwise_cons.mp sorted
    rcases mem_cons.mp mem with rfl | inside
    · have here : next c = x := path.1
      rw [here]
      exact .inr ⟨first x (mem_cons_self ..), mem_cons_self ..⟩
    · rcases ih path.2 rest inside with ended | ⟨less, later⟩
      · exact .inl ended
      · exact .inr ⟨less, mem_cons_of_mem _ later⟩

/-- A list in ascending order splits at a value. -/
theorem exists_split (sorted : l.Pairwise (· < ·)) (fresh : b ∉ l) :
    ∃ left right, l = left ++ right ∧ (∀ x ∈ left, x < b) ∧ ∀ x ∈ right, b < x := by
  induction l with
  | nil => exact ⟨[], [], rfl, nofun, nofun⟩
  | cons x l ih =>
    obtain ⟨first, rest⟩ := pairwise_cons.mp sorted
    rcases lt_or_gt_of_ne (fun same : b = x => fresh (same ▸ mem_cons_self ..)) with less | more
    · refine ⟨[], x :: l, rfl, nofun, fun y mem => ?_⟩
      rcases mem_cons.mp mem with rfl | inside
      · exact less
      · exact less.trans (first y inside)
    · obtain ⟨left, right, rfl, below, above⟩ := ih rest fun mem => fresh (mem_cons_of_mem _ mem)
      refine ⟨x :: left, right, rfl, fun y mem => ?_, above⟩
      rcases mem_cons.mp mem with rfl | inside
      · exact more
      · exact below y inside

section

variable (path : Path next a (left ++ right) a) (sorted : (a :: (left ++ right)).Pairwise (· < ·))
  (start : a < b) (below : ∀ x ∈ left, x < b) (above : ∀ x ∈ right, b < x)

include path sorted start below above

/-- In an ascending cycle the test holds at the cell before the place, and nowhere else. -/
theorem position_iff (mem : c ∈ a :: (left ++ right)) :
    position next b c = true ↔ c = last a left := by
  rw [position_iff_place]
  obtain ⟨least, ascending⟩ := pairwise_cons.mp sorted
  have low : ∀ x ∈ a :: left, x < b ∧ a ≤ x := by
    intro x inside
    rcases mem_cons.mp inside with rfl | inside
    · exact ⟨start, le_refl x⟩
    · exact ⟨below x inside, (least x (mem_append_left _ inside)).le⟩
  have sortedLeft : (a :: left).Pairwise (· < ·) :=
    sorted.sublist ((sublist_append_left left right).cons_cons a)
  -- the path as far as the place ends above `b`, or at the start
  obtain ⟨w, first, beyond⟩ : ∃ w, Path next a left w ∧ (b < w ∨ w = a) := by
    cases right with
    | nil =>
      rw [append_nil] at path
      exact ⟨a, path, .inr rfl⟩
    | cons x right => exact ⟨x, (path_append.mp path).1, .inl (above x (mem_cons_self ..))⟩
  constructor
  · intro place
    have inLeft : c ∈ a :: left := by
      by_contra outside
      have inRight : c ∈ right := by
        simp only [mem_cons, mem_append] at mem outside
        tauto
      have high := above c inRight
      rcases path.ascends sorted mem with ⟨-, again⟩ | ⟨less, -⟩
      · rw [again] at place
        rcases place with ⟨before, -⟩ | ⟨-, before | before⟩ <;> order
      · rcases place with ⟨before, -⟩ | ⟨wraps, -⟩ <;> order
    obtain ⟨under, -⟩ := low c inLeft
    rcases first.ascends sortedLeft inLeft with ⟨same, -⟩ | ⟨less, inside⟩
    · exact same
    · have next_under := below _ inside
      rcases place with ⟨-, beyond⟩ | ⟨wraps, -⟩ <;> order
  · rintro rfl
    obtain ⟨under, least⟩ := low _ last_mem
    rw [first.next_last]
    rcases beyond with more | rfl
    · exact .inl ⟨under, more⟩
    · exact .inr ⟨least, .inl under⟩

/-- A search for the place of `b`, from any cell of an ascending cycle. -/
theorem search_position (mem : w ∈ a :: (left ++ right)) :
    search next (position next b) ((left ++ right).length + 1) w = some (last a left) := by
  have there : last a left ∈ a :: (left ++ right) :=
    mem_append_left right last_mem
  obtain ⟨y, inside, stops, found⟩ := search_cycle path mem
    ⟨last a left, there, (position_iff path sorted start below above there).mpr rfl⟩
  rwa [(position_iff path sorted start below above inside).mp stops] at found

end

end Ordered

end Cycle
