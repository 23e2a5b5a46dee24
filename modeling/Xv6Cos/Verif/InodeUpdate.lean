import Xv6Cos.Verif.BlockAlloc

/-!
# Changes of inodes that change no address

`iupdate`, `ialloc`, `ilock`, `iget` and `iput` of an inode that stays touch the inode blocks and
the inodes in memory, and no block changes its owner.
-/

namespace Xv6Cos.Verif

open Kernel Spec Bytes Program Function Disk

variable {sb : Superblock} {s t u : Disk} {i j b : ℕ} {d : Dinode} {k : ℕ}

section Quiet

/-- No block belongs to the inode. -/
def NoBlocks (d : Dinode) : Prop := d.type = 0 ∨ ∀ k, d.addrs k = 0

theorem bare_refers {img : ℕ → Block} {nodes : ℕ → Dinode} {p : Place} (bare : NoBlocks (nodes j)) :
    ¬Refers sb img nodes (j, p) b := by
  rintro ⟨-, typed, address, nonzero⟩
  rcases bare with free | empty
  · exact typed free
  · cases p with
    | addr k =>
      rw [addrOf, empty k] at address
      exact nonzero address.symm
    | entry k =>
      rw [addrOf, if_pos (empty INDIRECT)] at address
      exact nonzero address.symm

/-- No block is allocated or freed, and no data is changed. -/
structure Quiet (sb : Superblock) (s t : Disk) : Prop where
  outstanding : t.outstanding = s.outstanding
  data : ∀ b, sb.nmeta ≤ b → t.buf b = s.buf b
  used : ∀ b, b < sb.size → t.used sb b = s.used sb b
  logged : ∀ b, b < sb.nmeta → (t.buf b).home = t.image b
  nodes : ∀ j, j < sb.ninodes → ((node sb t j).addrs = (node sb s j).addrs ∧
    ((node sb t j).type = 0 ↔ (node sb s j).type = 0)) ∨ NoBlocks (node sb t j) ∧
    NoBlocks (node sb s j)
  entries : ∀ i, 0 < (t.icache i).ref → i < sb.ninodes ∧
    ((t.icache i).valid → (t.icache i).copy.type ≠ 0)

theorem bare_congr {d' : Dinode} (addrs : d'.addrs = d.addrs) (type : d'.type = 0 ↔ d.type = 0) :
    NoBlocks d' ↔ NoBlocks d := by
  rw [NoBlocks, NoBlocks, addrs, type]

theorem Quiet.trans (first : Quiet sb s t) (second : Quiet sb t u) : Quiet sb s u where
  outstanding := second.outstanding.trans first.outstanding
  data b above := (second.data b above).trans (first.data b above)
  used b inside := (second.used b inside).trans (first.used b inside)
  logged := second.logged
  nodes j known := by
    rcases first.nodes j known with ⟨addrs, type⟩ | ⟨bare, bare'⟩
    · rcases second.nodes j known with ⟨addrs', type'⟩ | ⟨last, middle⟩
      · exact .inl ⟨addrs'.trans addrs, type'.trans type⟩
      · exact .inr ⟨last, (bare_congr addrs type).mp middle⟩
    · rcases second.nodes j known with ⟨addrs', type'⟩ | ⟨last, -⟩
      · exact .inr ⟨(bare_congr addrs' type').mpr bare, bare'⟩
      · exact .inr ⟨last, bare'⟩
  entries := second.entries

section

variable (quiet : Quiet sb s t)

include quiet

theorem Quiet.image (above : sb.nmeta ≤ b) : t.image b = s.image b := by
  rw [Disk.image, quiet.data b above, Disk.image]

section Addresses

variable (ok : DiskOk sb s) (known : j < sb.ninodes) (typed : (node sb s j).type ≠ 0)
  (same : (node sb t j).addrs = (node sb s j).addrs)

include ok known typed same

/-- An inode with the same addresses has the same blocks. -/
theorem Quiet.addrOf (p : Place) :
    addrOf t.image (node sb t j) p = addrOf s.image (node sb s j) p := by
  cases p with
  | addr k => exact congrFun same k
  | entry k =>
    rw [Spec.addrOf, Spec.addrOf, same]
    by_cases none : (node sb s j).addrs INDIRECT = 0
    · rw [if_pos none, if_pos none]
    · have refers : References sb s (j, .addr INDIRECT) ((node sb s j).addrs INDIRECT) :=
        ⟨known, typed, rfl, none⟩
      rw [if_neg none, if_neg none, entryOf, quiet.image (ok.owned.range _ _ refers).1, entryOf]

/-- The file of an inode with the same addresses. -/
theorem Quiet.blockOf (bn : ℕ) :
    blockOf t.image (node sb t j) bn = blockOf s.image (node sb s j) bn := by
  rw [Spec.blockOf, Spec.blockOf]
  split
  · exact quiet.addrOf ok known typed same _
  · rfl

theorem Quiet.byteOf (there : Spec.blockOf s.image (node sb s j) (k / BSIZE) ≠ 0) :
    byteOf t.image (node sb t j) k = byteOf s.image (node sb s j) k := by
  obtain ⟨p, -, here⟩ := placeOf_of_block there
  have refers : References sb s (j, p) (Spec.blockOf s.image (node sb s j) (k / BSIZE)) :=
    ⟨known, typed, here.symm, there⟩
  rw [Spec.byteOf, quiet.blockOf ok known typed same, quiet.image (ok.owned.range _ _ refers).1,
    Spec.byteOf]

end Addresses

section Live

variable (ok : DiskOk sb s) (before : Loaded s i) (after : Loaded t i)
  (same : (t.icache i).copy.addrs = (s.icache i).copy.addrs)

include ok before after same

/-- The blocks of an inode in memory. -/
theorem Quiet.addr_live (p : Place) :
    Spec.addrOf t.image (t.icache i).copy p = Spec.addrOf s.image (s.icache i).copy p := by
  obtain ⟨known, typed⟩ := known_of_live ok before
  have all := quiet.addrOf ok known (by rwa [node_live before])
    (by rwa [node_live before, node_live after]) p
  rwa [node_live before, node_live after] at all

theorem Quiet.block_live (bn : ℕ) :
    Spec.blockOf t.image (t.icache i).copy bn = Spec.blockOf s.image (s.icache i).copy bn := by
  obtain ⟨known, typed⟩ := known_of_live ok before
  have all := quiet.blockOf ok known (by rwa [node_live before])
    (by rwa [node_live before, node_live after]) bn
  rwa [node_live before, node_live after] at all

theorem Quiet.byte_live (there : Spec.blockOf s.image (s.icache i).copy (k / BSIZE) ≠ 0) :
    Spec.byteOf t.image (t.icache i).copy k = Spec.byteOf s.image (s.icache i).copy k := by
  obtain ⟨known, typed⟩ := known_of_live ok before
  have all := quiet.byteOf ok known (by rwa [node_live before])
    (by rwa [node_live before, node_live after]) (k := k) (by rwa [node_live before])
  rwa [node_live before, node_live after] at all

end Live

theorem Quiet.refers (ok : DiskOk sb s) (a : ℕ × Place) (b : ℕ) :
    References sb t a b ↔ References sb s a b := by
  obtain ⟨j, p⟩ := a
  by_cases known : j < sb.ninodes
  · rcases quiet.nodes j known with ⟨same, type⟩ | ⟨bare, bare'⟩
    · constructor
      · rintro ⟨-, typed, address, nonzero⟩
        have typed' : (node sb s j).type ≠ 0 := fun free => typed (type.mpr free)
        refine ⟨known, typed', ?_, nonzero⟩
        rw [← address]
        exact (quiet.addrOf ok known typed' same p).symm
      · rintro ⟨-, typed, address, nonzero⟩
        refine ⟨known, fun free => typed (type.mp free), ?_, nonzero⟩
        rw [← address]
        exact quiet.addrOf ok known typed same p
    · exact ⟨fun refers => absurd refers (bare_refers bare),
        fun refers => absurd refers (bare_refers bare')⟩
  · exact ⟨fun refers => absurd refers.1 known, fun refers => absurd refers.1 known⟩

theorem Quiet.ok (ok : DiskOk sb s) : DiskOk sb t := by
  refine ⟨ok.sound, ok.owned.congr (quiet.refers ok) quiet.used, fun b needed => ?_, quiet.entries⟩
  rcases needed with low | ⟨i, refers⟩
  · exact quiet.logged b low
  · have old := (quiet.refers ok _ _).mp refers
    have above := (ok.owned.range _ _ old).1
    rw [quiet.data b above, quiet.image above]
    exact ok.logged b (.inr ⟨i, old⟩)

theorem Quiet.settled (ok : DiskOk sb s) (settled : BlocksLogged sb s i) : BlocksLogged sb t i := by
  intro p b there
  have old := (quiet.refers ok _ _).mp there
  have above := (ok.owned.range _ _ old).1
  rw [quiet.data b above, quiet.image above]
  exact settled p b old

end

end Quiet

section Update

/-- The fields of a copy in memory other than its type and addresses are set. -/
theorem quiet_setCopy (ok : DiskOk sb s) (live : Loaded s i)
    (type : d.type = (s.icache i).copy.type) (addrs : d.addrs = (s.icache i).copy.addrs) :
    Quiet sb s (s.setCopy i { s.icache i with copy := d }) where
  outstanding := rfl
  data _ _ := rfl
  used _ _ := rfl
  logged b low := ok.logged b (.inl low)
  nodes j known := by
    by_cases here : j = i
    · subst here
      have copy : node sb (s.setCopy j { s.icache j with copy := d }) j = d := by
        unfold node setCopy
        simp only [update_self]
        exact if_pos live
      left
      rw [copy, node_live live, type, addrs]
      exact ⟨rfl, Iff.rfl⟩
    · have same : node sb (s.setCopy i { s.icache i with copy := d }) j = node sb s j :=
        node_congr (update_of_ne here _ _) rfl
      rw [same]
      exact .inl ⟨rfl, Iff.rfl⟩
  entries j there := by
    by_cases here : j = i
    · subst here
      simp only [setCopy, update_self] at there ⊢
      rw [type]
      exact ok.entries j there
    · simp only [setCopy, update_of_ne here] at there ⊢
      exact ok.entries j there

/-- Addresses are of type `uint`. -/
theorem copy_fits (ok : DiskOk sb s) (live : Loaded s i) (k : Fin (NDIRECT + 1)) :
    (s.icache i).copy.addrs k < 2 ^ 32 := by
  by_cases none : (s.icache i).copy.addrs k = 0
  · rw [none]
    decide
  · have refers := refers_of_live ok live (p := .addr k) none
    exact Nat.lt_of_lt_of_le (ok.owned.range _ _ refers).2 ok.sound.uint

/-- `iupdate` has written the inode. -/
def updated (sb : Superblock) (s : Disk) (i : ℕ) : Disk :=
  s.write (IBLOCK i sb) ((s.icache i).copy.store (s.image (IBLOCK i sb)) (i % IPB))

theorem iupdate_ok (sb : Superblock) (i : ℕ) (running : 0 < s.outstanding) :
    iupdate sb i s = .ok ((), updated sb s i) := by
  have ran : inode i s = .ok ((s.icache i).copy, s) := rfl
  rw [iupdate, bind_of_ok ran, change_ok running]
  rfl

theorem updated_dinode (ok : DiskOk sb s) (live : Loaded s i) :
    (updated sb s i).dinode sb j = if j = i then (s.icache i).copy else s.dinode sb j :=
  dinode_store (copy_fits ok live)

theorem dinode_stored (fits : ∀ k, d.addrs k < 2 ^ 32)
    (buf : t.buf = (s.write (IBLOCK i sb) (d.store (s.image (IBLOCK i sb)) (i % IPB))).buf) :
    t.dinode sb j = if j = i then d else s.dinode sb j := by
  let w := s.write (IBLOCK i sb) (d.store (s.image (IBLOCK i sb)) (i % IPB))
  have image : t.image = w.image := funext fun b => congrArg (fun buf => (buf b).data) buf
  rw [dinode, image]
  exact dinode_store fits

/-- An inode is written to the disk, and its entry in the table may change with it. -/
theorem quiet_store (ok : DiskOk sb s) (known : i < sb.ninodes) (fits : ∀ k, d.addrs k < 2 ^ 32)
    (buf : t.buf = (s.write (IBLOCK i sb) (d.store (s.image (IBLOCK i sb)) (i % IPB))).buf)
    (running : t.outstanding = s.outstanding) (icache : ∀ j, j ≠ i → t.icache j = s.icache j)
    (here : (node sb t i).addrs = (node sb s i).addrs ∧
      ((node sb t i).type = 0 ↔ (node sb s i).type = 0) ∨ NoBlocks (node sb t i) ∧
      NoBlocks (node sb s i))
    (entry : 0 < (t.icache i).ref → (t.icache i).valid → (t.icache i).copy.type ≠ 0) :
    Quiet sb s t := by
  let w := s.write (IBLOCK i sb) (d.store (s.image (IBLOCK i sb)) (i % IPB))
  have image : t.image = w.image := funext fun b => congrArg (fun buf => (buf b).data) buf
  refine ⟨running, fun b above => ?_, fun b _ => ?_, fun b low => ?_, fun j below => ?_,
    fun j referenced => ?_⟩
  · have apart : b ≠ IBLOCK i sb := by
      have below := iblock_lt ok.sound known
      omega
    rw [buf]
    exact update_of_ne apart _ _
  · rw [Disk.used, image]
    exact used_write_inode ok.sound known
  · rw [buf, image]
    exact write_logged fun _ => ok.logged b (.inl low)
  · by_cases same : j = i
    · rw [same]
      exact here
    · rw [node_congr (icache j same) ((dinode_stored fits buf).trans (if_neg same))]
      exact .inl ⟨rfl, Iff.rfl⟩
  · by_cases same : j = i
    · rw [same] at referenced ⊢
      exact ⟨known, entry referenced⟩
    · rw [icache j same] at referenced ⊢
      exact ok.entries j referenced

theorem updated_quiet (ok : DiskOk sb s) (live : Loaded s i) : Quiet sb s (updated sb s i) := by
  obtain ⟨known, typed⟩ := known_of_live ok live
  have same : node sb (updated sb s i) i = node sb s i := by
    rw [node_live live, node_live (s := updated sb s i) live]
    rfl
  exact quiet_store ok known (copy_fits ok live) rfl rfl (fun _ _ => rfl)
    (.inl ⟨congrArg Dinode.addrs same, by rw [← same]⟩) fun _ _ => typed

end Update

end Xv6Cos.Verif
