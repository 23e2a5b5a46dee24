import Xv6Cos.Kernel.Bio
import Mathlib.Data.Fintype.Card

/-!
# The critical sections of the buffer cache

The list of buffers stays one cycle through `head` and every buffer. From that the scans of
`bget` are complete: a block that is not found is cached nowhere, and a recycled buffer has
no reference.
-/

namespace Xv6Cos.Verif

open Kernel CircularList List

variable {ι : Type}

/-- The links form one circular list of `head` and each buffer exactly once. -/
def RingOk (c : Bcache ι) : Prop :=
  ∃ l : List (Fin NBUF), c.links.Linked l ∧ l.Nodup ∧ ∀ b, b ∈ l

/-- Pushing fresh buffers one after another keeps one cycle. -/
theorem linked_foldl_pushFront (fresh : List (Fin NBUF)) : ∀ (links : Links (Fin NBUF))
    (l : List (Fin NBUF)), links.Linked l → (fresh ++ l).Nodup →
    (fresh.foldl Links.pushFront links).Linked (fresh.reverse ++ l) := by
  induction fresh with
  | nil =>
    intro links l linked _
    simpa using linked
  | cons b fresh ih =>
    intro links l linked distinct
    have apart := nodup_cons.mp distinct
    have pushed := Links.linked_pushFront linked
      (fun old => apart.1 (mem_append_right _ old)) (nodup_append.mp apart.2).2.1
    have rest : (fresh ++ b :: l).Nodup := nodup_middle.mpr distinct
    simpa using ih _ _ pushed rest

/-- `binit` links every buffer. -/
theorem binit_ringOk : RingOk (.binit : Bcache ι) := by
  have empty : (⟨fun _ => none, fun _ => none⟩ : Links (Fin NBUF)).Linked [] := ⟨rfl, rfl⟩
  have linked := linked_foldl_pushFront (finRange NBUF) _ _ empty
    (by simpa using nodup_finRange NBUF)
  refine ⟨_, linked, ?_, ?_⟩
  · simpa using nodup_finRange NBUF
  · simp

/-- A list of distinct buffers is short enough for the fuel of the scans. -/
theorem length_lt_fuel {l : List (Fin NBUF)} (distinct : l.Nodup) : l.length < NBUF + 1 := by
  have bound := distinct.length_le_card
  rw [Fintype.card_fin] at bound
  omega

variable {c c' : Bcache ι} {b : Fin NBUF} {dev blockno : ℕ}

section

variable (ring : RingOk c)

include ring

/-- The first loop of `bget` finds a buffer of the block. -/
theorem lookup_some (found : c.lookup dev blockno = some b) :
    (c.buf b).dev = dev ∧ (c.buf b).blockno = blockno := by
  obtain ⟨l, linked, distinct, _⟩ := ring
  rw [Bcache.lookup, scan_next linked (length_lt_fuel distinct)] at found
  simpa using find?_some found

/-- If it finds none, the block is cached nowhere. -/
theorem lookup_none (missed : c.lookup dev blockno = none) (b : Fin NBUF) :
    ¬((c.buf b).dev = dev ∧ (c.buf b).blockno = blockno) := by
  obtain ⟨l, linked, distinct, full⟩ := ring
  rw [Bcache.lookup, scan_next linked (length_lt_fuel distinct)] at missed
  simpa using find?_eq_none.mp missed b (full b)

/-- The second loop of `bget` finds a buffer without references. -/
theorem victim_some (found : c.victim = some b) : (c.buf b).refcnt = 0 := by
  obtain ⟨l, linked, distinct, _⟩ := ring
  rw [Bcache.victim, scan_prev linked (length_lt_fuel distinct)] at found
  simpa using find?_some found

/-- What `bget` does: one more reference to the buffer of the block, or a buffer without
references recycled for a block that was cached nowhere. -/
theorem bget_some (got : c.bget dev blockno = some (b, c')) :
    ((c.buf b).dev = dev ∧ (c.buf b).blockno = blockno ∧
      c' = c.set b { c.buf b with refcnt := (c.buf b).refcnt + 1 }) ∨
    ((∀ other, ¬((c.buf other).dev = dev ∧ (c.buf other).blockno = blockno)) ∧
      (c.buf b).refcnt = 0 ∧
      c' = c.set b
        { c.buf b with dev := dev, blockno := blockno, valid := false, refcnt := 1 }) := by
  unfold Bcache.bget at got
  split at got
  · rename_i found
    cases got
    exact .inl ⟨(lookup_some ring found).1, (lookup_some ring found).2, rfl⟩
  · rename_i missed
    split at got
    · rename_i found
      cases got
      exact .inr ⟨lookup_none ring missed, victim_some ring found, rfl⟩
    · contradiction

/-- `bget` leaves the list alone. -/
theorem RingOk.bget (got : c.bget dev blockno = some (b, c')) : RingOk c' := by
  rcases bget_some ring got with ⟨-, -, rfl⟩ | ⟨-, -, rfl⟩ <;> exact ring

end

/-- `brelse` drops one reference, whether or not it moves the buffer. -/
theorem brelse_buf (c : Bcache ι) (b : Fin NBUF) : (c.brelse b).buf =
    Function.update c.buf b { c.buf b with refcnt := (c.buf b).refcnt - 1 } := by
  simp only [Bcache.brelse]
  split <;> rfl

/-- Moving the released buffer behind `head` keeps one cycle. -/
theorem RingOk.brelse (ring : RingOk c) (b : Fin NBUF) : RingOk (c.brelse b) := by
  simp only [Bcache.brelse]
  split
  · obtain ⟨l, linked, distinct, full⟩ := ring
    obtain ⟨left, right, rfl⟩ := append_of_mem (full b)
    have moved : (b :: (left ++ right)).Nodup := nodup_middle.mp distinct
    have apart := nodup_cons.mp moved
    refine ⟨b :: (left ++ right), ?_, moved, ?_⟩
    · exact Links.linked_pushFront (Links.linked_unlink linked distinct) apart.1 apart.2
    · intro other
      have member := full other
      simp only [mem_append, mem_cons] at member ⊢
      tauto
  · exact ring

end Xv6Cos.Verif
