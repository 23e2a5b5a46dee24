import Xv6Cos.Verif.DiskRun

/-!
# A file is an array of bytes

`readi` returns a part of the array, and a successful `writei` overlays another part.
-/

namespace Xv6Cos.Verif

open Kernel Spec Bytes Program Function List Disk Nat

variable {sb : Superblock} {s t : Disk} {i off n : ℕ} {src : ℕ → Option UInt8}

section Arrays

variable {img : ℕ → Block} {d : Dinode}

/-- The array is as long as the file. -/
@[simp] theorem fileBytes_length : (fileBytes img d).length = d.size.toNat := by
  simp [fileBytes]

/-- A part of the array. -/
theorem fileBytes_part : ((fileBytes img d).drop off).take n =
    bytesOf img d off (off + min n (d.size.toNat - off)) := by
  rw [fileBytes, bytesOf, Nat.add_sub_cancel_left, range_eq_range', ← map_drop, ← map_take]
  congr 1
  apply ext_getElem
  · simp
  · intro k _ _
    simp

/-- The bytes before an offset. -/
theorem fileBytes_take (inside : off ≤ d.size.toNat) :
    (fileBytes img d).take off = bytesOf img d 0 off := by
  have part := @fileBytes_part 0 off img d
  rw [drop_zero] at part
  rw [part]
  congr 1
  omega

/-- The bytes from an offset on. -/
theorem fileBytes_drop (inside : off ≤ d.size.toNat) :
    (fileBytes img d).drop off = bytesOf img d off d.size.toNat := by
  have part := @fileBytes_part off (d.size.toNat - off) img d
  rw [take_of_length_le (by simp)] at part
  rw [part]
  congr 1
  omega

end Arrays

/-- A file without holes is read as its bytes. -/
theorem readsAs_fileBytes (whole : HoleFree s.image (s.icache i).copy) :
    ReadsAs sb s i (fileBytes s.image (s.icache i).copy) := by
  intro dst off n mapped fits
  have small := (s.icache i).copy.size.isLt
  have length : readLength (s.icache i).copy.size.toNat off n =
      min n ((s.icache i).copy.size.toNat - off) := by
    unfold readLength
    split
    · omega
    · split
      · omega
      · omega
  have present : ∀ k, k < readLength (s.icache i).copy.size.toNat off n →
      blockOf s.image (s.icache i).copy ((off + k) / BSIZE) ≠ 0 := fun k inside =>
    present_of_holeFree whole (by omega) inside
  rw [readi_all rfl present fun k inside => mapped k (by omega), fileBytes_part,
    fileBytes_length, length]

section Writes

variable (wrote : Wrote sb i src off n n s t) (whole : HoleFree s.image (s.icache i).copy)
  (start : off ≤ (s.icache i).copy.size.toNat) (limit : off + n < 2 ^ 32)

include wrote whole start limit

/-- The bytes that were there and are not overwritten. -/
theorem wrote_kept {k : ℕ} (old : k < (s.icache i).copy.size.toNat)
    (other : ¬(off ≤ k ∧ k < off + n)) :
    byteOf t.image (t.icache i).copy k = byteOf s.image (s.icache i).copy k := by
  have present := block_of_byte (wrote.whole le_rfl start limit whole) (k := k)
    (by rw [wrote.size limit]; omega)
  rw [wrote.bytes k present, if_neg other, if_neg (block_of_byte whole old)]

/-- A successful `writei` overlays the array. -/
theorem wrote_contents : fileBytes t.image (t.icache i).copy =
    overlaid (fileBytes s.image (s.icache i).copy) off
      ((List.range n).map fun k => (src k).getD 0) := by
  have size := wrote.size limit
  have front : bytesOf t.image (t.icache i).copy 0 off =
      (fileBytes s.image (s.icache i).copy).take off := by
    rw [fileBytes_take start]
    refine map_congr_left fun k mem => ?_
    rw [mem_range'_1] at mem
    exact wrote_kept wrote whole start limit (by omega) (by omega)
  have middle : bytesOf t.image (t.icache i).copy off (off + n) =
      (List.range n).map fun k => (src k).getD 0 := by
    rw [bytesOf, Nat.add_sub_cancel_left, List.range'_eq_map_range, map_map]
    refine map_congr_left fun k mem => ?_
    have below := mem_range.mp mem
    rw [Function.comp_apply, wrote.bytes _ (wrote.range _ (by omega) (by omega)),
      if_pos ⟨by omega, by omega⟩, Nat.add_sub_cancel_left]
  have back : bytesOf t.image (t.icache i).copy (off + n) (t.icache i).copy.size.toNat =
      (fileBytes s.image (s.icache i).copy).drop (off + n) := by
    rw [size]
    by_cases inside : off + n ≤ (s.icache i).copy.size.toNat
    · rw [fileBytes_drop inside, max_eq_left inside]
      refine map_congr_left fun k mem => ?_
      rw [mem_range'_1] at mem
      exact wrote_kept wrote whole start limit (by omega) (by omega)
    · rw [max_eq_right (by omega), bytesOf, Nat.sub_self, drop_eq_nil_of_le (by simp; omega)]
      rfl
  rw [overlaid, ← front, length_map, length_range, ← back, ← middle,
    bytesOf_append (zero_le _) (by omega), bytesOf_append (zero_le _) (by omega),
    ← fileBytes_drop (zero_le _)]
  rfl

end Writes

/-- An inode in memory whose blocks below its size are allocated, on a disk whose blocks are owned
once, is read as an array of bytes; a `writei` that reports all its bytes overlays them, makes the
file as long as it has to be, and leaves every other inode and its bytes. -/
theorem file_is_byte_array (ok : DiskOk sb s) (live : Loaded s i)
    (whole : HoleFree s.image (s.icache i).copy) :
    ReadsAs sb s i (fileBytes s.image (s.icache i).copy) ∧
      ∀ src off n t, 0 < s.outstanding → off ≤ (s.icache i).copy.size.toNat →
        off + n ≤ MAXFILE * BSIZE → Disk.writei sb i src off n s = .ok ((n : Int), t) →
        (DiskOk sb t ∧ Loaded t i ∧ HoleFree t.image (t.icache i).copy) ∧
        (∀ k < n, (src k).isSome) ∧
        (t.icache i).copy.size.toNat = max (s.icache i).copy.size.toNat (off + n) ∧
        ReadsAs sb t i (overlaid (fileBytes s.image (s.icache i).copy) off
          ((List.range n).map fun k => (src k).getD 0)) ∧
        ∀ j, j < sb.ninodes → j ≠ i → (node sb s j).type ≠ 0 → node sb t j = node sb s j ∧
          ∀ k, blockOf t.image (node sb t j) k = blockOf s.image (node sb s j) k ∧
            (blockOf s.image (node sb s j) (k / BSIZE) ≠ 0 →
              byteOf t.image (node sb t j) k = byteOf s.image (node sb s j) k) := by
  refine ⟨readsAs_fileBytes whole, fun src off n t running start limit ran => ?_⟩
  obtain ⟨tot, dirty, t', ran', range, wrote, -⟩ :=
    @writei_accepts sb s i src n off ok live running ⟨start, limit⟩
  cases ran.symm.trans ran'
  have upper := range.upper
  have bound := range.bound
  have far : off + n < 2 ^ 32 := lt_of_le_of_lt limit (by decide)
  obtain rfl : dirty = n := by omega
  have after := wrote.whole le_rfl start far whole
  refine ⟨⟨wrote.ok, wrote.live, after⟩, fun k below => range.readable k (zero_le k) below,
    wrote.size far, ?_, fun j known other typed => ?_⟩
  · rw [← wrote_contents wrote whole start far]
    exact readsAs_fileBytes after
  · have others := wrote.others
    rw [others.node j known other]
    exact ⟨rfl, fun k => ⟨others.blockOf known typed other k, others.byteOf known typed other⟩⟩

/-- The small disk with an empty file in memory, in a transaction. -/
def openDisk : Disk :=
  { (DiskSystem.boot smallImage).disk with
    icache := fun i => if i = 2 then ⟨1, true, true, { Dinode.zero with type := T_FILE }⟩
      else ⟨0, false, false, .zero⟩
    outstanding := 1 }

/-- Its blocks are owned once. -/
theorem openDisk_ok : DiskOk smallDisk openDisk := by
  refine ⟨smallImage_ok.sound, smallImage_ok.owned.congr (fun a b => ?_) fun _ _ => rfl,
    fun b _ => rfl, fun i referenced => ?_⟩
  · obtain ⟨i, p⟩ := a
    by_cases here : i = 2
    · -- The new file has no block, and the inode is free on the disk.
      subst here
      refine iff_of_false (fun ⟨_, _, address, nonzero⟩ => ?_) fun there => ?_
      · cases p with
        | _ => exact nonzero address.symm
      · have free : (imageNode smallDisk smallImage 2).type = 0 := by decide
        exact there.2.1 free
    · have same : node smallDisk openDisk i = imageNode smallDisk smallImage i := by
        simp [node, openDisk, here]
        rfl
      rw [References, Refers, same]
      rfl
  · by_cases here : i = 2
    · subst here
      decide
    · simp [openDisk, here] at referenced

/-- Two bytes are written to the empty file. -/
theorem file_is_byte_array_small : ∃ t,
    Disk.writei smallDisk 2 (fun k => [7, 8][k]?) 0 2 openDisk = .ok (2, t) ∧
      ReadsAs smallDisk t 2 [7, 8] := by
  refine ⟨_, rfl, ?_⟩
  have array := file_is_byte_array openDisk_ok ⟨by decide, rfl⟩ (i := 2) nofun
  exact (array.2 (fun k => [7, 8][k]?) 0 2 _ (by decide) (by decide) (by decide) rfl).2.2.2.1

/-- One byte of the file follows the offset, but a read of more bytes than a `uint` can count from
there returns none. -/
theorem file_read_wraps : ∃ t,
    Disk.writei smallDisk 2 (fun k => [7, 8][k]?) 0 2 openDisk = .ok (2, t) ∧
      (t.icache 2).copy.size = 2 ∧ blockOf t.image (t.icache 2).copy 0 = 3 ∧
      Disk.readi smallDisk 2 (fun _ => true) 1 1 t = .ok ((1, [8]), t) ∧
      Disk.readi smallDisk 2 (fun _ => true) 1 (2 ^ 32 - 1) t = .ok ((0, []), t) :=
  ⟨_, rfl, rfl, rfl, rfl, rfl⟩

/-- A `writei` that reports less than it was asked to write because it could not read its source
changes only what it reports exactly if the part of a block that it has copied is harmless. -/
theorem failed_write_changes (ok : DiskOk sb s) (live : Loaded s i) (running : 0 < s.outstanding)
    (all : AllLogged s) (uint : n < 2 ^ 32) {tot : ℕ}
    (ran : Disk.writei sb i src off n s = .ok ((tot : Int), t)) (less : tot < n)
    (failed : blockOf t.image (t.icache i).copy ((off + tot) / BSIZE) ≠ 0) :
    OnlyReported s t i off tot ↔ ∀ k, tot ≤ k → k < n →
      (∀ j, tot ≤ j → j ≤ k → (src j).isSome) → Harmless s i (off + k) ((src k).getD 0) := by
  have accepted : Writable (s.icache i).copy off n := by
    by_contra rejected
    cases ran.symm.trans (writei_rejects uint rejected)
  obtain ⟨tot', dirty, t', ran', reached, wrote, leaves⟩ :=
    @writei_accepts sb s i src n off ok live running accepted
  cases ran.symm.trans ran'
  obtain ⟨short, unread⟩ : dirty < n ∧ src dirty = none := by
    refine reached.stopped.resolve_left ?_
    rintro ⟨-, done | none⟩
    · omega
    · exact failed none
  obtain ⟨logged, fits⟩ := leaves less failed all
  -- What has been copied is what can be read up to the first byte that cannot.
  have copied : (∀ k, tot ≤ k → k < n → (∀ j, tot ≤ j → j ≤ k → (src j).isSome) →
      Harmless s i (off + k) ((src k).getD 0)) ↔
      ∀ k, tot ≤ k → k < dirty → Harmless s i (off + k) ((src k).getD 0) := by
    constructor
    · exact fun harmless k lower below => harmless k lower (by omega)
        fun j _ upper => reached.readable j (zero_le j) (by omega)
    · intro harmless k lower _ readable
      refine harmless k lower (Nat.lt_of_not_le fun late => ?_)
      have here := readable dirty reached.upper late
      rw [unread] at here
      contradiction
  have block : ∀ k, tot ≤ k → k < dirty → (off + k) / BSIZE = (off + tot) / BSIZE := by
    intro k lower upper
    unfold BSIZE at *
    omega
  have present : ∀ k, blockOf s.image (s.icache i).copy (k / BSIZE) ≠ 0 →
      blockOf t.image (t.icache i).copy (k / BSIZE) ≠ 0 := by
    intro k there
    obtain ⟨p, place, here⟩ := placeOf_of_block there
    rw [here] at there
    rw [blockOf_of_place place, wrote.kept p there]
    exact there
  rw [copied]
  constructor
  · rintro ⟨after, only⟩ k lower below
    by_cases there : blockOf s.image (s.icache i).copy ((off + k) / BSIZE) = 0
    · exact .inl there
    rcases logged.mp after with new | same
    · by_cases inside : off + k < (s.icache i).copy.size.toNat
      · have here := only t.image (fun _ => .inl rfl) (off + k) inside there (by omega)
        rw [wrote.bytes _ (present _ there), if_pos (by omega), Nat.add_sub_cancel_left] at here
        exact .inr (.inl here)
      · rw [Tracked, ← block k lower below] at new
        exact .inr (.inr ⟨by omega, new.resolve_left there⟩)
    · exact .inr (.inl (same k lower below))
  · intro harmless
    have after : AllLogged t := by
      refine logged.mpr (or_iff_not_imp_left.mpr fun untracked k lower below => ?_)
      rw [Tracked, ← block k lower below, not_or] at untracked
      exact ((harmless k lower below).resolve_left untracked.1).resolve_right
        fun beyond => untracked.2 beyond.2
    refine ⟨after, fun img views k inside there outside => ?_⟩
    have image : img = t.image := by
      funext b
      rcases views b with cached | home
      · exact cached
      · rw [home, after b]
    rw [image, wrote.bytes k (present k there), if_neg there]
    split
    case isTrue dirt =>
      have at_k : off + (k - off) = k := by omega
      have byte := harmless (k - off) (by omega) (by omega)
      rw [at_k] at byte
      exact (byte.resolve_left there).resolve_right fun beyond => absurd beyond.1 (by omega)
    case isFalse => rfl

/-- The first two bytes of the file are written in one transaction. In the next one the first of two
others is copied. It is read until the buffer is taken for another block. -/
theorem failed_write_leaves : ∃ s t u,
    (do
      let r ← Disk.writei smallDisk 2 (fun k => [1, 2][k]?) 0 2
      endOp
      beginOp
      pure r) openDisk = .ok (2, s) ∧
    Disk.writei smallDisk 2 (fun k => [9][k]?) 0 2 s = .ok (0, t) ∧
    Disk.readi smallDisk 2 (fun _ => true) 0 2 t = .ok ((2, [9, 2]), t) ∧
    (t.buf 3).logged = false ∧ Disk.evict 3 t = .ok ((), u) ∧
    Disk.readi smallDisk 2 (fun _ => true) 0 2 u = .ok ((2, [1, 2]), u) :=
  ⟨_, _, _, rfl, rfl, rfl, rfl, rfl, rfl⟩

/-- The first byte is copied to a new block, beyond the end of the file. -/
theorem failed_write_changes_first : ∃ t,
    Disk.writei smallDisk 2 (fun k => [9][k]?) 0 2 openDisk = .ok (0, t) ∧
      OnlyReported openDisk t 2 0 0 := by
  refine ⟨_, rfl, ?_⟩
  refine (@failed_write_changes smallDisk openDisk _ 2 0 2 (fun k => [9][k]?) openDisk_ok
    ⟨by decide, rfl⟩ (by decide) (fun _ => rfl) (by decide) 0 rfl (by decide) (by decide)).mpr ?_
  exact fun k _ below _ => .inl (by
    rw [Nat.zero_add, Nat.div_eq_of_lt (by unfold BSIZE; omega)]
    rfl)

end Xv6Cos.Verif
