import Xv6Cos.Spec.Blocks

/-!
# What a change of a block changes

The bitmap, the inodes on disk, the indirect blocks and the data are in different blocks, so a
change of one of them leaves the others as they are.
-/

namespace Xv6Cos.Verif

open Kernel Spec Bytes Program Function Disk Dinode Nat List

section Dinodes

variable {d : Dinode} {data data' : Block} {k k' : ℕ}

/-- An inode is 64 bytes of its block. -/
theorem load_congr (same : ∀ a, 64 * k ≤ a → a < 64 * k + 64 → data a = data' a) :
    load data k = load data' k := by
  have word : ∀ off len, off + len ≤ 64 →
      readLE data (64 * k + off) len = readLE data' (64 * k + off) len := fun off len inside =>
    readLE_congr fun a lower upper => same a (by omega) (by omega)
  have type := word 0 2 (by decide)
  have addrs : ∀ a : Fin (NDIRECT + 1), readLE data (64 * k + 12 + 4 * a) 4 =
      readLE data' (64 * k + 12 + 4 * a) 4 := by
    intro a
    have small : a.val < 13 := a.isLt
    rw [add_assoc]
    exact word (12 + 4 * a) 4 (by omega)
  rw [add_zero] at type
  simp only [load, type, word 2 2 (by decide), word 4 2 (by decide), word 6 2 (by decide),
    word 8 4 (by decide), addrs]

theorem store_of_outside {a : ℕ} (outside : a < 64 * k ∨ 64 * k + 64 ≤ a) :
    d.store data k a = data a := by
  rw [store, writeWords_of_outside, writeLE_of_outside (by omega), writeWords_of_outside]
  · simp only [length_cons, length_nil]
    omega
  · have length : (ofFn d.addrs).length = 13 := length_ofFn
    omega

theorem load_store_of_ne (apart : k' ≠ k) : load (d.store data k) k' = load data k' :=
  load_congr fun _ _ _ => store_of_outside (by omega)

/-- An inode whose addresses are of type `uint` is read back. -/
theorem load_store (fits : ∀ a, d.addrs a < 2 ^ 32) : load (d.store data k) k = d := by
  have half : ∀ i (inside : i < 4), readLE (d.store data k) (64 * k + 2 * i) 2 =
      [d.type.toNat, d.major.toNat, d.minor.toNat, d.nlink.toNat].get ⟨i, inside⟩ := by
    intro i inside
    rw [store, readLE_writeWords_of_disjoint (.inl (by omega)),
      readLE_writeLE_of_disjoint (.inl (by omega)), readLE_writeWords (by simpa using inside)]
    · rfl
    · have small : ∀ x : BitVec 16, x.toNat < 256 ^ 2 := fun x => x.isLt
      match i, inside with
      | 0, _ => exact small d.type
      | 1, _ => exact small d.major
      | 2, _ => exact small d.minor
      | 3, _ => exact small d.nlink
  have size : readLE (d.store data k) (64 * k + 8) 4 = d.size.toNat := by
    rw [store, readLE_writeWords_of_disjoint (.inl (by omega)), readLE_writeLE d.size.isLt]
  have addrs : ∀ a, readLE (d.store data k) (64 * k + 12 + 4 * a.val) 4 = d.addrs a := by
    intro a
    have value : (ofFn d.addrs)[a.val] = d.addrs a := List.getElem_ofFn _
    rw [store, readLE_writeWords (by simp) (by rw [value]; exact fits a), value]
  have type := half 0 (by decide)
  rw [mul_zero, add_zero] at type
  simp only [load, type, half 1 (by decide), half 2 (by decide), half 3 (by decide), size,
    addrs]
  simp

end Dinodes

section Writes

variable {sb : Superblock} {s : Disk} {b b' i i' : ℕ} {data : Block}

/-- A bit of the bitmap is the bit of one block. -/
theorem bit_inj (block : BBLOCK b' sb = BBLOCK b sb) : b' % BPB = b % BPB ↔ b' = b := by
  have quotient : b' / BPB = b / BPB := add_right_cancel block
  constructor
  · intro remainder
    rw [← div_add_mod b' BPB, ← div_add_mod b BPB, quotient, remainder]
  · exact fun same => by rw [same]

/-- A slot of a block of inodes is the slot of one inode. -/
theorem slot_inj (block : IBLOCK i' sb = IBLOCK i sb) : i' % IPB = i % IPB ↔ i' = i := by
  have quotient : i' / IPB = i / IPB := add_right_cancel block
  constructor
  · intro remainder
    rw [← div_add_mod i' IPB, ← div_add_mod i IPB, quotient, remainder]
  · exact fun same => by rw [same]

theorem bmapstart_le (b : ℕ) : sb.bmapstart ≤ BBLOCK b sb := le_add_left _ _

theorem inode_apart (sound : Sound sb) (known : i < sb.ninodes) : IBLOCK i sb ≠ BBLOCK b sb :=
  Nat.ne_of_lt (lt_of_lt_of_le (sound.inodes i known) (bmapstart_le b))

theorem iblock_lt (sound : Sound sb) (known : i < sb.ninodes) : IBLOCK i sb < sb.nmeta := by
  have bitmap := sound.bitmap 0 (lt_of_lt_of_le sound.nonempty (sub_le _ _))
  exact (sound.inodes i known).trans_le ((bmapstart_le 0).trans bitmap.le)

theorem image_write : (s.write b data).image = update s.image b data := by
  funext b'
  by_cases here : b' = b
  · simp [image, write, here]
  · simp [image, write, here]

theorem write_logged (logged : b' ≠ b → (s.buf b').home = s.image b') :
    ((s.write b data).buf b').home = (s.write b data).image b' := by
  by_cases here : b' = b
  · simp [write, image, here]
  · simp only [write, image, update_of_ne here]
    exact logged here

theorem image_setData : (s.setData b data).image = update s.image b data := by
  funext b'
  by_cases here : b' = b
  · simp [image, setData, here]
  · simp [image, setData, here]

/-- Only what is logged gets home. -/
theorem home_setData : ((s.setData b data).buf b').home =
    if b' = b ∧ (s.buf b).logged then data else (s.buf b').home := by
  by_cases here : b' = b
  · simp [setData, here]
  · simp [setData, here]

/-- The change of a buffer that is logged. -/
theorem change_ok (inside : 0 < s.outstanding) (f : Block → Block) :
    change b f s = .ok ((), s.write b (f (s.image b))) := by
  have running : ¬s.outstanding < 1 := by omega
  have bytes : (s.setData b (f (s.image b))).image b = f (s.image b) := by
    rw [image_setData, update_self]
  have written : (s.setData b (f (s.image b))).write b (f (s.image b)) =
      s.write b (f (s.image b)) := by
    simp only [setData, write, update_idem]
  change logWrite b (s.setData b (f (s.image b))) = _
  rw [logWrite, bytes, written]
  exact if_neg running

/-- Data blocks are not in the bitmap. -/
theorem used_write_data (sound : Sound sb) (above : sb.nmeta ≤ b) (inside : b' < sb.size) :
    (s.write b data).used sb b' = s.used sb b' := by
  have apart : BBLOCK b' sb ≠ b := by
    have below := sound.bitmap b' inside
    omega
  rw [used, image_write, update_of_ne apart, used]

theorem used_write_inode (sound : Sound sb) (known : i < sb.ninodes) :
    (s.write (IBLOCK i sb) data).used sb b = s.used sb b := by
  rw [used, image_write, update_of_ne (inode_apart sound known).symm, used]

theorem used_write_bitmap (f : Block → ℕ → Block) (value : Bool)
    (writes : ∀ m i j, getBit (f m i) j = if j = i then value else getBit m j) :
    (s.write (BBLOCK b sb) (f (s.image (BBLOCK b sb)) (b % BPB))).used sb b' =
      update (s.used sb) b value b' := by
  rw [used, image_write]
  by_cases block : BBLOCK b' sb = BBLOCK b sb
  · rw [block, update_self, writes, update_apply, used, block]
    simp only [bit_inj block]
  · have apart : b' ≠ b := fun same => block (by rw [same])
    rw [update_of_ne block, update_of_ne apart, used]

theorem dinode_write_of_ne (apart : IBLOCK i sb ≠ b) :
    (s.write b data).dinode sb i = s.dinode sb i := by
  rw [dinode, image_write, update_of_ne apart, dinode]

theorem dinode_write_bitmap (sound : Sound sb) (known : i < sb.ninodes) :
    (s.write (BBLOCK b sb) data).dinode sb i = s.dinode sb i :=
  dinode_write_of_ne (inode_apart sound known)

theorem dinode_write_data (sound : Sound sb) (known : i < sb.ninodes) (above : sb.nmeta ≤ b) :
    (s.write b data).dinode sb i = s.dinode sb i :=
  dinode_write_of_ne (Nat.ne_of_lt (lt_of_lt_of_le (iblock_lt sound known) above))

/-- An inode is written without a change to the others. -/
theorem dinode_store {d : Dinode} (fits : ∀ a, d.addrs a < 2 ^ 32) :
    (s.write (IBLOCK i sb) (d.store (s.image (IBLOCK i sb)) (i % IPB))).dinode sb i' =
      if i' = i then d else s.dinode sb i' := by
  rw [dinode, image_write]
  by_cases block : IBLOCK i' sb = IBLOCK i sb
  · rw [block, update_self]
    by_cases here : i' = i
    · rw [if_pos here, here, load_store fits]
    · rw [if_neg here, load_store_of_ne (mt (slot_inj block).mp here), dinode, block]
  · have apart : i' ≠ i := fun same => block (by rw [same])
    rw [update_of_ne block, if_neg apart, dinode]

end Writes

end Xv6Cos.Verif
