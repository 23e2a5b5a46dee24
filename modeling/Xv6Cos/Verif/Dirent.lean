import Xv6Cos.Kernel.FsTree

/-!
# The entries of a directory

What `dirlookup`, `dirlink` and the clearing of an entry do to the list of entries, mostly as
counts: whatever is counted of the entries in use, `dirlink` adds the new entry to it and clearing
takes the found entry from it.
-/

namespace Xv6Cos.Verif

open Kernel List Dirent Option

variable {slots slots' : List Dirent} {name : Path} {inum : ℕ} {room : Bool} {de : Dirent}
  {P : Dirent → Bool} {other : Dirent} {rest : List Dirent}

theorem hits_iff : de.hits name ↔ de.inum ≠ 0 ∧ de.name = name := by
  simp [hits]

/-- The entry that a search finds. -/
theorem dirlookup_some (found : dirlookup slots name = some inum) :
    ∃ de, slots.find? (hits name) = some de ∧ de ∈ slots ∧ de.inum ≠ 0 ∧
      de = ⟨inum, name⟩ := by
  obtain ⟨de, here, same⟩ := map_eq_some_iff.mp found
  obtain ⟨used, named⟩ := hits_iff.mp (List.find?_some here)
  refine ⟨de, here, List.mem_of_find?_eq_some here, used, ?_⟩
  rw [← same, ← named]

/-- A search fails if no entry in use has the name. -/
theorem dirlookup_none :
    dirlookup slots name = none ↔ ∀ de ∈ slots, de.inum ≠ 0 → de.name ≠ name := by
  simp [dirlookup, List.find?_eq_none, hits_iff]

section Clear

/-- Clearing empties the entry that a search finds. -/
theorem clearEntry_split (found : slots.find? (hits name) = some de) :
    ∃ before after, slots = before ++ de :: after ∧
      clearEntry name slots = before ++ zero :: after := by
  induction slots with
  | nil => contradiction
  | cons first rest ih =>
    unfold clearEntry
    by_cases hit : first.hits name
    · rw [List.find?_cons_of_pos hit] at found
      cases found
      exact ⟨[], rest, rfl, by rw [if_pos hit]; rfl⟩
    · rw [List.find?_cons_of_neg hit] at found
      obtain ⟨before, after, whole, cleared⟩ := ih found
      refine ⟨first :: before, after, by rw [whole]; rfl, ?_⟩
      rw [if_neg hit, cleared]
      rfl

/-- What is counted of the entries in use, after the found one is cleared. -/
theorem countP_clearEntry (empty : P .zero = false)
    (found : slots.find? (hits name) = some de) :
    (clearEntry name slots).countP P + (if P de then 1 else 0) = slots.countP P := by
  obtain ⟨before, after, whole, cleared⟩ := clearEntry_split found
  rw [cleared, whole]
  simp only [countP_append, countP_cons, empty]
  simp only [Bool.false_eq_true, if_false]
  omega

theorem mem_clearEntry (found : slots.find? (hits name) = some de)
    (mem : other ∈ clearEntry name slots) : other = .zero ∨ other ∈ slots := by
  obtain ⟨before, after, whole, cleared⟩ := clearEntry_split found
  rw [cleared] at mem
  rw [whole]
  simp only [mem_append, mem_cons] at mem ⊢
  grind

theorem mem_of_clearEntry (found : slots.find? (hits name) = some de)
    (mem : other ∈ slots) (apart : other ≠ de) : other ∈ clearEntry name slots := by
  obtain ⟨before, after, whole, cleared⟩ := clearEntry_split found
  rw [whole] at mem
  rw [cleared]
  simp only [mem_append, mem_cons] at mem ⊢
  grind

/-- Clearing leaves the first two entries if their names are not meant. -/
theorem clearEntry_two {first second : Dirent} (one : first.name ≠ name)
    (two : second.name ≠ name) :
    clearEntry name (first :: second :: rest) = first :: second :: clearEntry name rest := by
  have miss : ∀ de : Dirent, de.name ≠ name → ¬de.hits name := fun de other hit =>
    other (hits_iff.mp hit).2
  rw [clearEntry, if_neg (miss first one), clearEntry, if_neg (miss second two)]

end Clear

section Link

theorem reuseEntry_split {new : Dirent} (reused : reuseEntry new slots = some slots') :
    ∃ before empty after, empty.inum = 0 ∧ slots = before ++ empty :: after ∧
      slots' = before ++ new :: after := by
  induction slots generalizing slots' with
  | nil => contradiction
  | cons first rest ih =>
    unfold reuseEntry at reused
    split at reused
    case isTrue unused =>
      cases reused
      exact ⟨[], first, rest, unused, rfl, rfl⟩
    case isFalse =>
      obtain ⟨tail, found, rfl⟩ := map_eq_some_iff.mp reused
      obtain ⟨before, empty, after, unused, rfl, rfl⟩ := ih found
      exact ⟨first :: before, empty, after, unused, rfl, rfl⟩

/-- `dirlink` puts the new entry in the place of an empty one, or at the end. -/
theorem dirlink_split (linked : dirlink slots name inum room = some slots') :
    dirlookup slots name = none ∧ ∃ before after,
      slots' = before ++ ⟨inum % 2 ^ 16, name⟩ :: after ∧
      ((slots = before ∧ after = []) ∨ ∃ empty : Dirent, empty.inum = 0 ∧
        slots = before ++ empty :: after) := by
  unfold dirlink at linked
  obtain ⟨absent, linked⟩ := ite_none_left_eq_some.mp linked
  refine ⟨not_isSome_iff_eq_none.mp absent, ?_⟩
  split at linked
  case h_1 reused =>
    cases linked
    obtain ⟨before, empty, after, unused, whole, result⟩ := reuseEntry_split reused
    exact ⟨before, after, result, .inr ⟨empty, unused, whole⟩⟩
  case h_2 =>
    obtain ⟨-, linked⟩ := ite_none_right_eq_some.mp linked
    cases linked
    exact ⟨slots, [], rfl, .inl ⟨rfl, rfl⟩⟩

/-- What is counted of the entries in use, after `dirlink`. -/
theorem countP_dirlink (empty : ∀ de : Dirent, de.inum = 0 → P de = false)
    (linked : dirlink slots name inum room = some slots') :
    slots'.countP P = slots.countP P + if P ⟨inum % 2 ^ 16, name⟩ then 1 else 0 := by
  obtain ⟨-, before, after, rfl, ⟨rfl, rfl⟩ | ⟨gone, unused, rfl⟩⟩ := dirlink_split linked
  · simp only [countP_append, countP_cons, countP_nil]
    omega
  · simp only [countP_append, countP_cons, empty gone unused]
    simp only [Bool.false_eq_true, if_false]
    omega

section

variable (linked : dirlink slots name inum room = some slots')

include linked

theorem mem_dirlink (mem : other ∈ slots') : other ∈ slots ∨ other = ⟨inum % 2 ^ 16, name⟩ := by
  obtain ⟨-, before, after, rfl, ⟨rfl, rfl⟩ | ⟨gone, -, rfl⟩⟩ := dirlink_split linked
  · simpa using mem
  · simp only [mem_append, mem_cons] at mem ⊢
    grind

/-- `dirlink` leaves the entries in use. -/
theorem mem_of_dirlink (mem : other ∈ slots) (used : other.inum ≠ 0) : other ∈ slots' := by
  obtain ⟨-, before, after, rfl, ⟨rfl, rfl⟩ | ⟨gone, unused, rfl⟩⟩ := dirlink_split linked
  · exact mem_append_left _ mem
  · simp only [mem_append, mem_cons] at mem ⊢
    grind

theorem new_mem_dirlink : ⟨inum % 2 ^ 16, name⟩ ∈ slots' := by
  obtain ⟨-, before, after, rfl, -⟩ := dirlink_split linked
  exact mem_append_right before mem_cons_self

end

/-- `dirlink` extends a directory without empty entries. -/
theorem dirlink_full (used : ∀ de ∈ slots, de.inum ≠ 0)
    (linked : dirlink slots name inum room = some slots') :
    slots' = slots ++ [⟨inum % 2 ^ 16, name⟩] := by
  obtain ⟨-, before, after, rfl, ⟨rfl, rfl⟩ | ⟨gone, unused, rfl⟩⟩ := dirlink_split linked
  · rfl
  · exact absurd unused (used gone (mem_append_right _ mem_cons_self))

/-- There is room for `..` after `.`. -/
theorem dirlink_dotdot (i : ℕ) : dirlink [⟨i, dot⟩] dotdot inum room ≠ none := by
  have absent : dirlookup [⟨i, dot⟩] dotdot = none := by
    rw [dirlookup_none]
    intro de mem _
    obtain rfl := mem_singleton.mp mem
    exact show dot ≠ dotdot by decide
  unfold dirlink
  rw [absent, if_neg (by decide)]
  split
  case h_1 => exact nofun
  case h_2 =>
    rw [if_pos ⟨show 1 < MAXDIRENTS by decide, .inl (show 1 % DPB ≠ 0 by decide)⟩]
    exact nofun

/-- `dirlink` leaves two entries in use at the start. -/
theorem dirlink_two (first second : Dirent) (one : first.inum ≠ 0) (two : second.inum ≠ 0)
    (linked : dirlink (first :: second :: rest) name inum room = some slots') :
    ∃ rest', slots' = first :: second :: rest' ∧
      ∀ de ∈ rest', de ∈ rest ∨ de = ⟨inum % 2 ^ 16, name⟩ := by
  obtain ⟨-, before, after, rfl, ⟨rfl, rfl⟩ | ⟨gone, unused, whole⟩⟩ := dirlink_split linked
  · refine ⟨rest ++ [⟨inum % 2 ^ 16, name⟩], rfl, fun de mem => ?_⟩
    simpa using mem
  · match before with
    | [] =>
      obtain ⟨rfl, -⟩ := List.cons.inj whole
      exact absurd unused one
    | [_] =>
      obtain ⟨-, whole⟩ := List.cons.inj whole
      obtain ⟨rfl, -⟩ := List.cons.inj whole
      exact absurd unused two
    | a :: b :: more =>
      simp only [cons_append, List.cons.injEq] at whole
      obtain ⟨rfl, rfl, rfl⟩ := whole
      refine ⟨more ++ ⟨inum % 2 ^ 16, name⟩ :: after, rfl, fun de mem => ?_⟩
      simp only [mem_append, mem_cons] at mem ⊢
      grind

end Link

end Xv6Cos.Verif
