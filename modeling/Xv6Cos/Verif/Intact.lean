import Xv6Cos.Verif.FileWrite
import Xv6Cos.Verif.BlockFree

/-!
# Calls of the inode layer keep the disk intact

A call changes one inode and its blocks at most. What an intact disk says about the other inodes
follows from `Others`; about the inode itself it follows from what the call does.
-/

namespace Xv6Cos.Verif

open Kernel Spec Bytes Program Function Disk

variable {sb : Superblock} {s t u : Disk} {i j b : ℕ} {k : ℕ}

section Others

/-- Nothing changes but one inode and its blocks. -/
structure Others (sb : Superblock) (i : ℕ) (s t : Disk) : Prop where
  node : ∀ j, j < sb.ninodes → j ≠ i → node sb t j = node sb s j
  addr : ∀ j p, j < sb.ninodes → (Spec.node sb s j).type ≠ 0 → j ≠ i →
    addrOf t.image (Spec.node sb s j) p = addrOf s.image (Spec.node sb s j) p
  data : ∀ j p b, References sb s (j, p) b → j ≠ i → p ≠ .addr INDIRECT → t.buf b = s.buf b

variable (others : Others sb i s t) (known : j < sb.ninodes) (typed : (Spec.node sb s j).type ≠ 0)
  (other : j ≠ i)

include others known typed other

theorem Others.blockOf (bn : ℕ) :
    blockOf t.image (Spec.node sb s j) bn = blockOf s.image (Spec.node sb s j) bn := by
  rw [Spec.blockOf, Spec.blockOf]
  split
  · exact others.addr j _ known typed other
  · rfl

theorem Others.byteOf (there : Spec.blockOf s.image (Spec.node sb s j) (k / BSIZE) ≠ 0) :
    byteOf t.image (Spec.node sb s j) k = byteOf s.image (Spec.node sb s j) k := by
  obtain ⟨p, place, here⟩ := placeOf_of_block there
  have refers : References sb s (j, p) (Spec.blockOf s.image (Spec.node sb s j) (k / BSIZE)) :=
    ⟨known, typed, here.symm, there⟩
  rw [Spec.byteOf, others.blockOf known typed other, image,
    others.data j p _ refers other (placeOf_data place), Spec.byteOf, image]

theorem Others.refers {p : Place} (there : References sb t (j, p) b) :
    References sb s (j, p) b := by
  obtain ⟨-, -, address, nonzero⟩ := there
  change addrOf t.image (Spec.node sb t j) p = b at address
  rw [others.node j known other, others.addr j p known typed other] at address
  exact ⟨known, typed, address, nonzero⟩

/-- A file without holes has none after the change. -/
theorem Others.whole (whole : HoleFree s.image (Spec.node sb s j)) :
    HoleFree t.image (Spec.node sb t j) := by
  intro bn below
  rw [others.node j known other] at below ⊢
  rw [others.blockOf known typed other]
  exact whole bn below

theorem Others.settled (ok : DiskOk sb t) (settled : BlocksLogged sb s j) :
    BlocksLogged sb t j := by
  intro p b there
  by_cases indirect : p = .addr INDIRECT
  · rw [indirect] at there
    exact ok.logged b (.inr ⟨j, there⟩)
  · have old := others.refers known typed other there
    rw [image, others.data j p b old other indirect]
    exact settled p b old

end Others

section Bytes

variable {img img' : ℕ → Block} {d d' : Dinode}

/-- A byte of a file without holes is in a block. -/
theorem block_of_byte (whole : HoleFree img d) (below : k < d.size.toNat) :
    blockOf img d (k / BSIZE) ≠ 0 :=
  whole _ (Nat.lt_of_le_of_lt (Nat.div_mul_le_self _ _) below)

/-- The inode number in an entry whose bytes stay. -/
theorem inum_congr (same : ∀ a, 16 * k ≤ a → a < 16 * k + 16 →
    byteOf img' d' a = byteOf img d a) :
    readLE (byteOf img' d') (16 * k) 2 = readLE (byteOf img d) (16 * k) 2 :=
  readLE_congr fun a lower upper => same a lower (by omega)

end Bytes

section Intact

/-- What an intact disk says about an inode is what is on the disk. -/
theorem node_disk (written : WrittenBack sb s i) : node sb s i = s.dinode sb i := by
  unfold node
  split
  · rename_i live
    exact written live.1 live.2
  · rfl

section

variable (intact : Intact sb s)

include intact

theorem intact_change (others : Others sb i s t) (ok : DiskOk sb t)
    (written : ∀ j, WrittenBack sb t j)
    (locks : ∀ j, (t.icache j).locked = true → 0 < (t.icache j).ref ∧ (t.icache j).valid = true)
    (whole : i < sb.ninodes → (node sb t i).type ≠ 0 → HoleFree t.image (node sb t i))
    (names : i < sb.ninodes → (node sb t i).type = T_DIR → ∀ k,
      16 * k + 16 ≤ (node sb t i).size.toNat →
      readLE (byteOf t.image (node sb t i)) (16 * k) 2 < sb.ninodes)
    (settled : i < sb.ninodes → (node sb t i).type = T_DIR →
    BlocksLogged sb t i) : Intact sb t where
  ok := ok
  root := intact.root
  written := written
  whole j known typed := by
    by_cases here : j = i
    · rw [here] at known typed ⊢
      exact whole known typed
    · rw [others.node j known here] at typed
      exact others.whole known typed here (intact.whole j known typed)
  names j known directory k inside := by
    by_cases here : j = i
    · rw [here] at known directory inside ⊢
      exact names known directory k inside
    · rw [others.node j known here] at directory inside ⊢
      have typed : (node sb s j).type ≠ 0 := by
        rw [directory]
        decide
      rw [inum_congr (k := k) fun a _ below => others.byteOf known typed here
        (block_of_byte (intact.whole j known typed) (by omega))]
      exact intact.names j known directory k inside
  settled j known directory := by
    by_cases here : j = i
    · rw [here] at known directory ⊢
      exact settled known directory
    · rw [others.node j known here] at directory
      have typed : (node sb s j).type ≠ 0 := by
        rw [directory]
        decide
      exact others.settled known typed here ok (intact.settled j known directory)
  locks := locks

/-- Only the inodes in memory have changed, and what they say has not. -/
theorem intact_cached (buf : t.buf = s.buf)
    (entries : ∀ j, 0 < (t.icache j).ref → j < sb.ninodes ∧ ((t.icache j).valid = true →
      (t.icache j).copy = s.dinode sb j ∧ (t.icache j).copy.type ≠ 0))
    (locks : ∀ j, (t.icache j).locked = true → 0 < (t.icache j).ref ∧ (t.icache j).valid = true) :
    Intact sb t := by
  have image : t.image = s.image := by
    funext b
    rw [image, buf, image]
  have dinode : ∀ j, t.dinode sb j = s.dinode sb j := by
    intro j
    rw [dinode, image, dinode]
  have written : ∀ j, WrittenBack sb t j := by
    intro j referenced valid
    rw [dinode]
    exact ((entries j referenced).2 valid).1
  have nodes : node sb t = node sb s := by
    funext j
    rw [node_disk (written j), dinode, node_disk (intact.written j)]
  have refers : ∀ a b, References sb t a b ↔ References sb s a b := by
    intro a b
    rw [References, image, nodes]
  refine ⟨⟨intact.ok.sound, intact.ok.owned.congr refers fun b _ => ?_, fun b needed => ?_,
    fun j referenced => ⟨(entries j referenced).1, fun valid =>
    ((entries j referenced).2 valid).2⟩⟩,
    intact.root, written, ?_, ?_, fun j known directory p b there => ?_, locks⟩
  · rw [used, image, used]
  · rw [buf, image]
    refine intact.ok.logged b ?_
    rcases needed with low | ⟨j, there⟩
    · exact .inl low
    · exact .inr ⟨j, (refers _ _).mp there⟩
  · rw [image, nodes]
    exact intact.whole
  · rw [image, nodes]
    exact intact.names
  · rw [nodes] at directory
    rw [buf, image]
    exact intact.settled j known directory p b ((refers _ _).mp there)

theorem intact_entry (referenced : 0 < (s.icache j).ref) :
    j < sb.ninodes ∧ ((s.icache j).valid = true →
      (s.icache j).copy = s.dinode sb j ∧ (s.icache j).copy.type ≠ 0) :=
  ⟨(intact.ok.entries j referenced).1, fun valid =>
    ⟨intact.written j referenced valid, (intact.ok.entries j referenced).2 valid⟩⟩

/-- One entry of the table has changed. -/
theorem intact_setCopy {e : Icopy} (buf : t.buf = s.buf)
    (icache : t.icache = update s.icache i e)
    (entry : 0 < e.ref → i < sb.ninodes ∧ (e.valid = true →
      e.copy = s.dinode sb i ∧ e.copy.type ≠ 0))
    (lock : e.locked = true → 0 < e.ref ∧ e.valid = true) : Intact sb t := by
  refine intact_cached intact buf (fun j => ?_) fun j => ?_
  · rw [icache]
    by_cases here : j = i
    · rw [here, update_self]
      exact entry
    · rw [update_of_ne here]
      exact intact_entry intact
  · rw [icache]
    by_cases here : j = i
    · rw [here, update_self]
      exact lock
    · rw [update_of_ne here]
      exact intact.locks j

/-- Nothing has changed but the transaction and the console. -/
theorem intact_congr (buf : t.buf = s.buf) (icache : t.icache = s.icache) :
    Intact sb t := by
  refine intact_cached intact buf (fun j => ?_) fun j => ?_
  · rw [icache]
    exact intact_entry intact
  · rw [icache]
    exact intact.locks j

end

end Intact

end Xv6Cos.Verif
