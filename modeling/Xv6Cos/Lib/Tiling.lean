import Mathlib.Data.List.Pairwise
import Mathlib.Data.List.Perm.Basic

/-!
# Tilings of an area by blocks

Blocks are intervals, given by start and length. Blocks tile an area if they are apart from each
other and cover it exactly. Neighbours may be joined and a block may be cut.
-/

namespace Tiling

open List

/-- The block has the point. -/
def Has (b : ℕ × ℕ) (x : ℕ) : Prop := b.1 ≤ x ∧ x < b.1 + b.2

/-- One block ends before the other starts. -/
def Apart (b c : ℕ × ℕ) : Prop := b.1 + b.2 ≤ c.1 ∨ c.1 + c.2 ≤ b.1

/-- Blocks are apart either way. -/
theorem Apart.symm {b c : ℕ × ℕ} (apart : Apart b c) : Apart c b := Or.symm apart

instance : Std.Symm Apart := ⟨fun _ _ => Apart.symm⟩

/-- Blocks that are apart and cover the area exactly. -/
structure Tiles (blocks : List (ℕ × ℕ)) (area : ℕ → Prop) : Prop where
  positive : ∀ b ∈ blocks, 0 < b.2
  apart : blocks.Pairwise Apart
  cover : ∀ x, (∃ b ∈ blocks, Has b x) ↔ area x

variable {blocks other rest : List (ℕ × ℕ)} {area more : ℕ → Prop} {a m n : ℕ} {b c : ℕ × ℕ}

/-- The order of the blocks does not matter. -/
theorem Tiles.perm (tiles : Tiles blocks area) (same : blocks.Perm other) : Tiles other area where
  positive b mem := tiles.positive b (same.mem_iff.mpr mem)
  apart := tiles.apart.perm same Apart.symm
  cover x := by
    rw [← tiles.cover]
    exact exists_congr fun b => and_congr_left' same.mem_iff.symm

/-- Two different blocks are apart. -/
theorem Tiles.apart_of_ne (tiles : Tiles blocks area) (first : b ∈ blocks) (second : c ∈ blocks)
    (ne : b ≠ c) : Apart b c :=
  tiles.apart.forall first second ne

/-- A block without points in common with the area may be added. -/
theorem Tiles.grow (tiles : Tiles blocks area) (positive : 0 < n)
    (apart : ∀ b ∈ blocks, Apart (a, n) b) (extends_ : ∀ x, more x ↔ Has (a, n) x ∨ area x) :
    Tiles ((a, n) :: blocks) more where
  positive b mem := by
    rcases mem_cons.mp mem with rfl | inside
    · exact positive
    · exact tiles.positive b inside
  apart := pairwise_cons.mpr ⟨apart, tiles.apart⟩
  cover x := by
    rw [extends_, ← tiles.cover, exists_mem_cons_iff]

/-- A block may be cut, and neighbours may be joined. -/
theorem tiles_cut (left : 0 < m) (right : 0 < n) :
    Tiles ((a, m) :: (a + m, n) :: rest) area ↔ Tiles ((a, m + n) :: rest) area := by
  have points : ∀ x, Has (a, m + n) x ↔ Has (a, m) x ∨ Has (a + m, n) x := by
    intro x
    simp only [Has]
    omega
  constructor
  · intro tiles
    obtain ⟨firsts, later⟩ := pairwise_cons.mp tiles.apart
    obtain ⟨seconds, others⟩ := pairwise_cons.mp later
    refine ⟨?_, pairwise_cons.mpr ⟨fun b mem => ?_, others⟩, fun x => ?_⟩
    · intro b mem
      rcases mem_cons.mp mem with rfl | inside
      · exact Nat.add_pos_left left n
      · exact tiles.positive b (mem_cons_of_mem _ (mem_cons_of_mem _ inside))
    · have first := firsts b (mem_cons_of_mem _ mem)
      have second := seconds b mem
      have positive := tiles.positive b (mem_cons_of_mem _ (mem_cons_of_mem _ mem))
      simp only [Apart] at first second ⊢
      omega
    · rw [← tiles.cover, exists_mem_cons_iff, exists_mem_cons_iff,
        exists_mem_cons_iff, points, or_assoc]
  · intro tiles
    obtain ⟨wholes, others⟩ := pairwise_cons.mp tiles.apart
    refine ⟨?_, pairwise_cons.mpr ⟨?_, pairwise_cons.mpr ⟨?_, others⟩⟩, fun x => ?_⟩
    · intro b mem
      rcases mem_cons.mp mem with rfl | mem
      · exact left
      · rcases mem_cons.mp mem with rfl | inside
        · exact right
        · exact tiles.positive b (mem_cons_of_mem _ inside)
    · intro b mem
      rcases mem_cons.mp mem with rfl | inside
      · exact .inl (Nat.le_refl _)
      · have whole := wholes b inside
        simp only [Apart] at whole ⊢
        omega
    · intro b inside
      have whole := wholes b inside
      simp only [Apart] at whole ⊢
      omega
    · rw [← tiles.cover, exists_mem_cons_iff, exists_mem_cons_iff,
        exists_mem_cons_iff, points, or_assoc]

end Tiling
