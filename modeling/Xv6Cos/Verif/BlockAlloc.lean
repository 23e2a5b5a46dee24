import Xv6Cos.Verif.DiskViews

/-!
# `balloc` and `bmap` keep blocks owned once

A block is taken for a place of an inode that had none. Nothing else that the disk says about its
inodes changes: `GainsBlocks` collects what is left of a disk when one of its inodes gets more
blocks.
-/

namespace Xv6Cos.Verif

open Kernel Spec Bytes Program Ownership Function Disk Option

variable {sb : Superblock} {s t u : Disk} {b b' i j : ℕ} {data : Block} {img : ℕ → Block}
  {d : Dinode} {a : ℕ × Place} {p : Place}

section Take

/-- `balloc` has taken the block. -/
def takeBlock (sb : Superblock) (s : Disk) (b : ℕ) : Disk :=
  (s.write (BBLOCK b sb) (setBit (s.image (BBLOCK b sb)) (b % BPB))).write b fun _ => 0

/-- `balloc` has said that there is none. -/
def outOfBlocks (s : Disk) : Disk := { s with console := s.console ++ ["balloc: out of blocks\n"] }

theorem reads_bind {α β : Type} {f : Disk → α} {next : α → DiskProg β} :
    (reads f >>= next) s = next (f s) s := rfl

theorem balloc_cases (sb : Superblock) (inside : 0 < s.outstanding) :
    (∃ b, b < sb.size ∧ s.used sb b = false ∧ balloc sb s = .ok (b, takeBlock sb s b)) ∨
      balloc sb s = .ok (0, outOfBlocks s) := by
  rw [balloc, reads_bind]
  cases found : (List.range sb.size).find? fun b => !s.used sb b with
  | none => exact .inr rfl
  | some b =>
    have free : s.used sb b = false := by simpa using List.find?_some found
    have below : b < sb.size := List.mem_range.mp (List.mem_of_find?_eq_some found)
    refine .inl ⟨b, below, free, ?_⟩
    change (change _ _ >>= fun _ => _) s = _
    rw [bind_of_ok (change_ok inside _)]
    change (bzero b >>= fun _ => _) _ = _
    rw [bzero, bind_of_ok (change_ok (by exact inside) _)]
    rfl

theorem take_used (sound : Sound sb) (above : sb.nmeta ≤ b) (below : b' < sb.size) :
    (takeBlock sb s b).used sb b' = update (s.used sb) b true b' := by
  rw [takeBlock, used_write_data sound above below]
  refine used_write_bitmap setBit true fun m i j => ?_
  rw [getBit_setBit]
  by_cases here : j = i
  · simp [here]
  · simp [here]

theorem take_dinode (sound : Sound sb) (above : sb.nmeta ≤ b) (known : i < sb.ninodes) :
    (takeBlock sb s b).dinode sb i = s.dinode sb i := by
  rw [takeBlock, dinode_write_data sound known above, dinode_write_bitmap sound known]

theorem take_buf (sound : Sound sb) (inside : b < sb.size) (data : sb.nmeta ≤ b')
    (other : b' ≠ b) : (takeBlock sb s b).buf b' = s.buf b' := by
  have apart : b' ≠ BBLOCK b sb := by
    have below := sound.bitmap b inside
    omega
  change update (update s.buf _ _) _ _ b' = _
  rw [update_of_ne other, update_of_ne apart]

theorem take_zero : (takeBlock sb s b).image b = fun _ => 0 := by
  rw [takeBlock, image_write, update_self]

/-- What was in the log still is, and so is the new block. -/
theorem take_logged (logged : b' ≠ b → (s.buf b').home = s.image b') :
    ((takeBlock sb s b).buf b').home = (takeBlock sb s b).image b' :=
  write_logged fun other => write_logged fun _ => logged other

end Take

section Record

/-- There is a valid copy of the inode in memory. -/
def Loaded (s : Disk) (i : ℕ) : Prop := 0 < (s.icache i).ref ∧ (s.icache i).valid = true

theorem node_live (live : Loaded s i) : node sb s i = (s.icache i).copy := if_pos live

theorem node_congr (copy : t.icache i = s.icache i) (disk : t.dinode sb i = s.dinode sb i) :
    node sb t i = node sb s i := by
  rw [node, copy, disk, node]

/-- The address of a block is stored at a place of an inode. -/
def recordBlock (s : Disk) (i b : ℕ) : Place → Disk
  | .addr k => s.setCopy i { s.icache i with copy := (s.icache i).copy.setAddr k b }
  | .entry j => s.write ((s.icache i).copy.addrs INDIRECT)
      (writeLE (s.image ((s.icache i).copy.addrs INDIRECT)) (4 * j) b 4)

/-- The addresses of an inode are in the inode and in its indirect block. -/
theorem addrOf_same (known : i < sb.ninodes) (typed : (node sb s i).type ≠ 0)
    (same : ∀ b, References sb s (i, .addr INDIRECT) b → t.buf b = s.buf b) (p : Place) :
    addrOf t.image (node sb s i) p = addrOf s.image (node sb s i) p := by
  cases p with
  | addr k => rfl
  | entry j =>
    by_cases none : (node sb s i).addrs INDIRECT = 0
    · simp only [addrOf, none, if_pos]
    · have kept := same ((node sb s i).addrs INDIRECT) ⟨known, typed, rfl, none⟩
      simp only [addrOf, none, if_false, entryOf, image, kept]

theorem setAddr_addrs (d : Dinode) (k k' : Fin (NDIRECT + 1)) :
    (d.setAddr k b).addrs k' = if k' = k then b else d.addrs k' := by
  simp [Dinode.setAddr, update_apply]

theorem addrOf_setAddr {k : Fin (NDIRECT + 1)}
    (nonzero : b ≠ 0) (empty : d.addrs k = 0) (zero : img b = fun _ => 0) :
    addrOf img (d.setAddr k b) p = if p = .addr k then b else addrOf img d p := by
  cases p with
  | addr k' =>
    simp only [addrOf, setAddr_addrs, Place.addr.injEq]
  | entry j =>
    rw [if_neg (by nofun)]
    by_cases indirect : k = INDIRECT
    · -- The new indirect block has no entries.
      subst indirect
      have none : entryOf img b j = 0 := by
        rw [entryOf, zero]
        simp [readLE]
      simp [addrOf, setAddr_addrs, nonzero, empty, none]
    · simp only [addrOf, setAddr_addrs, if_neg (Ne.symm indirect)]

theorem entryOf_write {ib new j j' : ℕ} (fits : new < 2 ^ 32) :
    entryOf (update img ib (writeLE (img ib) (4 * j) new 4)) ib j' =
      if j' = j then new else entryOf img ib j' := by
  rw [entryOf, update_self]
  by_cases here : j' = j
  · rw [if_pos here, here, readLE_writeLE fits]
  · rw [if_neg here, readLE_writeLE_of_disjoint (by omega), entryOf]

theorem known_of_live (ok : DiskOk sb s) (live : Loaded s i) :
    i < sb.ninodes ∧ (s.icache i).copy.type ≠ 0 := by
  obtain ⟨known, typed⟩ := ok.entries i live.1
  exact ⟨known, typed live.2⟩

/-- An address that is not zero is a reference. -/
theorem refers_of_live (ok : DiskOk sb s) (live : Loaded s i)
    (there : addrOf s.image (s.icache i).copy p ≠ 0) :
    References sb s (i, p) (addrOf s.image (s.icache i).copy p) := by
  obtain ⟨known, typed⟩ := known_of_live ok live
  refine ⟨known, ?_, ?_, there⟩
  · rwa [node_live live]
  · rw [node_live live]

/-- The block of an inode that is about to get one. -/
structure Wanted (sb : Superblock) (s : Disk) (i b : ℕ) (p : Place) : Prop where
  ok : DiskOk sb s
  live : Loaded s i
  inside : b < sb.size
  free : s.used sb b = false
  empty : addrOf s.image (s.icache i).copy p = 0
  /-- Entries are in the indirect block. -/
  indirect : ∀ j, p = .entry j → (s.icache i).copy.addrs INDIRECT ≠ 0

namespace Wanted

variable {p q : Place} (wanted : Wanted sb s i b p)

include wanted

theorem above : sb.nmeta ≤ b := (wanted.ok.owned.free wanted.inside wanted.free).1

theorem nonzero : b ≠ 0 := by
  have above := wanted.above
  have some := wanted.ok.sound.nonempty
  omega

theorem fits : b < 2 ^ 32 := Nat.lt_of_lt_of_le wanted.inside wanted.ok.sound.uint

/-- A block that is referred to is not the new one. -/
theorem other (there : References sb s a b') : b' ≠ b := by
  rintro rfl
  exact (wanted.ok.owned.free wanted.inside wanted.free).2 a there

/-- A block that is referred to is not touched by `balloc`. -/
theorem take_same (there : References sb s a b') : (takeBlock sb s b).buf b' = s.buf b' :=
  take_buf wanted.ok.sound wanted.inside (wanted.ok.owned.range a b' there).1 (wanted.other there)

/-- `balloc` changes no address of an allocated inode. -/
theorem take_addr (known : j < sb.ninodes) (typed : (node sb s j).type ≠ 0) :
    addrOf (takeBlock sb s b).image (node sb s j) q = addrOf s.image (node sb s j) q :=
  addrOf_same known typed (fun _ => wanted.take_same) q

/-- The indirect block, if the new block is to be an entry. -/
theorem indirect_refers {k : Fin NINDIRECT} (here : p = .entry k) :
    References sb s (i, .addr INDIRECT) ((s.icache i).copy.addrs INDIRECT) :=
  refers_of_live wanted.ok wanted.live (p := .addr INDIRECT) (wanted.indirect k here)

/-- The disk when the inode has the block. -/
abbrev taken (sb : Superblock) (s : Disk) (i b : ℕ) (p : Place) : Disk :=
  recordBlock (takeBlock sb s b) i b p

omit wanted in
theorem taken_icache (other : j ≠ i) : (taken sb s i b p).icache j = s.icache j := by
  cases p with
  | addr k => exact update_of_ne other _ _
  | entry k => rfl

omit wanted in
/-- The copy of the inode differs at most in its addresses. -/
theorem taken_copy (sb : Superblock) (s : Disk) (i b : ℕ) (p : Place) :
    ∃ addrs, (taken sb s i b p).icache i =
    { s.icache i with copy := { (s.icache i).copy with addrs := addrs } } := by
  cases p with
  | addr k => exact ⟨update (s.icache i).copy.addrs k b, update_self i _ _⟩
  | entry k => exact ⟨(s.icache i).copy.addrs, rfl⟩

theorem taken_dinode (known : j < sb.ninodes) : (taken sb s i b p).dinode sb j = s.dinode sb j := by
  rw [← take_dinode (s := s) wanted.ok.sound wanted.above known]
  cases place : p with
  | addr k => rfl
  | entry k =>
    have range := wanted.ok.owned.range _ _ (wanted.indirect_refers place)
    exact dinode_write_data wanted.ok.sound known range.1

theorem taken_node (known : j < sb.ninodes) (other : j ≠ i) :
    node sb (taken sb s i b p) j = node sb s j :=
  node_congr (taken_icache other) (wanted.taken_dinode known)

omit wanted in
theorem taken_live (sb : Superblock) (b : ℕ) (p : Place) (live : Loaded s i) :
    Loaded (taken sb s i b p) i := by
  obtain ⟨addrs, copy⟩ := taken_copy sb s i b p
  unfold Loaded
  rw [copy]
  exact live

/-- The address at every place of an allocated inode. -/
theorem taken_addr (known : j < sb.ninodes) (typed : (node sb s j).type ≠ 0) :
    addrOf (taken sb s i b p).image (node sb (taken sb s i b p) j) q =
      if j = i ∧ q = p then b else addrOf s.image (node sb s j) q := by
  cases place : p with
  | addr k =>
    by_cases here : j = i
    · have copy : node sb (taken sb s i b (.addr k)) i = (s.icache i).copy.setAddr k b := by
        rw [node_live (taken_live sb b _ wanted.live)]
        change (update s.icache i _ i).copy = _
        rw [update_self]
        rfl
      have empty : (s.icache i).copy.addrs k = 0 := by
        rw [← wanted.empty, place]
        rfl
      have same := wanted.take_addr (q := q) known typed
      rw [here, node_live wanted.live] at same
      have image : (taken sb s i b (.addr k)).image = (takeBlock sb s b).image := rfl
      rw [here, copy, image, addrOf_setAddr wanted.nonzero empty take_zero, node_live wanted.live]
      by_cases target : q = .addr k
      · simp [target]
      · simp only [target, if_false, and_false]
        exact same
    · have same : node sb (taken sb s i b (.addr k)) j = node sb s j := by
        rw [← place]
        exact wanted.taken_node known here
      rw [same, if_neg fun both => here both.1]
      exact wanted.take_addr known typed
  | entry k =>
    have ib := wanted.indirect_refers place
    have some := wanted.indirect k place
    have same : node sb (taken sb s i b (.entry k)) j = node sb s j := by
      refine node_congr rfl ?_
      rw [← place]
      exact wanted.taken_dinode known
    have image : (taken sb s i b (.entry k)).image = update (takeBlock sb s b).image
        ((s.icache i).copy.addrs INDIRECT) (writeLE ((takeBlock sb s b).image
          ((s.icache i).copy.addrs INDIRECT)) (4 * k) b 4) := image_write
    rw [same, image]
    cases q with
    | addr k' => simp [addrOf]
    | entry k' =>
      by_cases none : (node sb s j).addrs INDIRECT = 0
      · have elsewhere : ¬j = i := by
          rintro rfl
          rw [node_live wanted.live] at none
          exact some none
        simp [addrOf, none, elsewhere]
      · have there : References sb s (j, .addr INDIRECT) ((node sb s j).addrs INDIRECT) :=
          ⟨known, typed, rfl, none⟩
        have before := wanted.take_addr (q := .entry k') known typed
        simp only [addrOf, none, if_false] at before ⊢
        by_cases block : (node sb s j).addrs INDIRECT = (s.icache i).copy.addrs INDIRECT
        · -- No two inodes have the same indirect block.
          have here : j = i := by
            rw [block] at there
            exact congrArg Prod.fst (wanted.ok.owned.once _ _ _ there ib)
          rw [block] at before ⊢
          rw [entryOf_write wanted.fits, before]
          simp only [here, true_and, Place.entry.injEq, Fin.ext_iff]
        · have elsewhere : ¬j = i := by
            rintro rfl
            rw [node_live wanted.live] at block
            exact block rfl
          rw [if_neg fun both => elsewhere both.1, entryOf, update_of_ne block]
          exact before

theorem taken_type (known : j < sb.ninodes) :
    (node sb (taken sb s i b p) j).type = (node sb s j).type := by
  by_cases here : j = i
  · obtain ⟨addrs, copy⟩ := taken_copy sb s i b p
    rw [here, node_live (taken_live sb b _ wanted.live), copy, node_live wanted.live]
  · rw [wanted.taken_node known here]

/-- One reference more. -/
theorem taken_refers (a : ℕ × Place) : References sb (taken sb s i b p) a b' ↔
    References sb s a b' ∨ a = (i, p) ∧ b' = b := by
  obtain ⟨j, q⟩ := a
  obtain ⟨known', typed'⟩ := known_of_live wanted.ok wanted.live
  have typed' : (node sb s i).type ≠ 0 := by rwa [node_live wanted.live]
  constructor
  · rintro ⟨known, typed, there, nonzero⟩
    rw [wanted.taken_type known] at typed
    rw [wanted.taken_addr known typed] at there
    by_cases new : j = i ∧ q = p
    · rw [if_pos new] at there
      exact .inr ⟨by rw [new.1, new.2], there.symm⟩
    · rw [if_neg new] at there
      exact .inl ⟨known, typed, there, nonzero⟩
  · rintro (⟨known, typed, there, nonzero⟩ | ⟨same, rfl⟩)
    · refine ⟨known, by rwa [wanted.taken_type known], ?_, nonzero⟩
      rw [wanted.taken_addr known typed, if_neg]
      · exact there
      · rintro ⟨rfl, rfl⟩
        change addrOf s.image (node sb s j) q = b' at there
        rw [node_live wanted.live, wanted.empty] at there
        exact nonzero there.symm
    · cases same
      refine ⟨known', by rwa [wanted.taken_type known'], ?_, wanted.nonzero⟩
      rw [wanted.taken_addr known' typed', if_pos ⟨rfl, rfl⟩]

theorem taken_used (below : b' < sb.size) :
    (taken sb s i b p).used sb b' = update (s.used sb) b true b' := by
  rw [← take_used (s := s) wanted.ok.sound wanted.above below]
  cases place : p with
  | addr k => rfl
  | entry k =>
    have range := wanted.ok.owned.range _ _ (wanted.indirect_refers place)
    exact used_write_data wanted.ok.sound range.1 below

omit wanted in
theorem taken_logged (logged : b' ≠ b → (s.buf b').home = s.image b') :
    ((taken sb s i b p).buf b').home = (taken sb s i b p).image b' := by
  cases p with
  | addr k => exact take_logged logged
  | entry k => exact write_logged fun _ => take_logged logged

theorem taken_ok : DiskOk sb (taken sb s i b p) := by
  refine ⟨wanted.ok.sound, ?_, fun b' needed => taken_logged fun other => ?_, fun j there => ?_⟩
  · exact wanted.ok.owned.take wanted.inside wanted.free (fun a b' => wanted.taken_refers a)
      fun b' below => wanted.taken_used below
  · refine wanted.ok.logged b' ?_
    rcases needed with low | ⟨j, there⟩
    · exact .inl low
    · rcases (wanted.taken_refers _).mp there with old | ⟨-, new⟩
      · exact .inr ⟨j, old⟩
      · exact absurd new other
  · by_cases here : j = i
    · obtain ⟨addrs, copy⟩ := taken_copy sb s i b p
      rw [here, copy]
      exact wanted.ok.entries i wanted.live.1
    · rw [taken_icache here] at there ⊢
      exact wanted.ok.entries j there

/-- Data blocks stay as they are. -/
theorem taken_data (there : References sb s a b') (data : a.2 ≠ .addr INDIRECT) :
    (taken sb s i b p).buf b' = s.buf b' := by
  rw [← wanted.take_same there]
  cases place : p with
  | addr k => rfl
  | entry k =>
    refine update_of_ne ?_ _ _
    rintro rfl
    have same := wanted.ok.owned.once _ _ _ there (wanted.indirect_refers place)
    rw [same] at data
    exact data rfl

end Wanted

end Record

section GainsBlocks

/-- One inode gets more blocks, or other data. The addresses that there were stay. -/
structure Extends (sb : Superblock) (i : ℕ) (s t : Disk) : Prop where
  ok : DiskOk sb t
  live : Loaded t i
  outstanding : t.outstanding = s.outstanding
  icache : ∀ j, j ≠ i → t.icache j = s.icache j
  copy : ∃ addrs, t.icache i = { s.icache i with copy := { (s.icache i).copy with addrs := addrs } }
  dinode : ∀ j, j < sb.ninodes → t.dinode sb j = s.dinode sb j
  /-- Other inodes have the same addresses. -/
  other : ∀ j p, j < sb.ninodes → (node sb s j).type ≠ 0 → j ≠ i →
    addrOf t.image (node sb t j) p = addrOf s.image (node sb s j) p
  kept : ∀ p, addrOf s.image (s.icache i).copy p ≠ 0 →
    addrOf t.image (t.icache i).copy p = addrOf s.image (s.icache i).copy p

theorem Extends.refl (ok : DiskOk sb s) (live : Loaded s i) : Extends sb i s s where
  ok := ok
  live := live
  outstanding := rfl
  icache _ _ := rfl
  copy := ⟨(s.icache i).copy.addrs, rfl⟩
  dinode _ _ := rfl
  other _ _ _ _ _ := rfl
  kept _ _ := rfl

theorem Extends.node (more : Extends sb i s t) (known : j < sb.ninodes) (other : j ≠ i) :
    node sb t j = node sb s j :=
  node_congr (more.icache j other) (more.dinode j known)

theorem Extends.trans (first : Extends sb i s t) (second : Extends sb i t u) :
    Extends sb i s u where
  ok := second.ok
  live := second.live
  outstanding := second.outstanding.trans first.outstanding
  icache j other := (second.icache j other).trans (first.icache j other)
  copy := by
    obtain ⟨addrs, copy⟩ := first.copy
    obtain ⟨addrs', copy'⟩ := second.copy
    rw [copy] at copy'
    exact ⟨addrs', copy'⟩
  dinode j known := (second.dinode j known).trans (first.dinode j known)
  other j p known typed other := by
    rw [second.other j p known (by rwa [first.node known other]) other,
      first.other j p known typed other]
  kept p some := by
    have same := first.kept p some
    rw [second.kept p (by rwa [same]), same]

theorem Extends.refers (more : Extends sb i s t) (live : Loaded s i)
    (there : References sb s a b) : References sb t a b := by
  obtain ⟨j, p⟩ := a
  obtain ⟨known, typed, address, nonzero⟩ := there
  by_cases here : j = i
  · subst here
    obtain ⟨addrs, copy⟩ := more.copy
    refine ⟨known, ?_, ?_, nonzero⟩
    · change (Spec.node sb s j).type ≠ 0 at typed
      rw [node_live live] at typed
      rw [node_live more.live, copy]
      exact typed
    · change addrOf s.image (Spec.node sb s j) p = b at address
      rw [node_live live] at address
      rw [node_live more.live, more.kept p (by rwa [address]), address]
  · refine ⟨known, ?_, ?_, nonzero⟩
    · rwa [more.node known here]
    · rw [more.other j p known typed here]
      exact address

/-- One inode gets more blocks, which are zero. -/
structure GainsBlocks (sb : Superblock) (i : ℕ) (s t : Disk) : Prop extends Extends sb i s t where
  fresh : ∀ p, p ≠ .addr INDIRECT → addrOf s.image (s.icache i).copy p = 0 →
    addrOf t.image (t.icache i).copy p ≠ 0 →
    t.buf (addrOf t.image (t.icache i).copy p) = ⟨fun _ => 0, fun _ => 0, true⟩
  data : ∀ a b, References sb s a b → a.2 ≠ .addr INDIRECT → t.buf b = s.buf b
  logged : AllLogged s → AllLogged t

theorem GainsBlocks.refl (ok : DiskOk sb s) (live : Loaded s i) : GainsBlocks sb i s s where
  toExtends := .refl ok live
  fresh _ _ none some := absurd none some
  data _ _ _ _ := rfl
  logged := id

theorem GainsBlocks.trans (live : Loaded s i) (first : GainsBlocks sb i s t)
    (second : GainsBlocks sb i t u) :
    GainsBlocks sb i s u where
  toExtends := first.toExtends.trans second.toExtends
  fresh p data none some := by
    by_cases middle : addrOf t.image (t.icache i).copy p = 0
    · exact second.fresh p data middle some
    · rw [second.kept p middle, second.data _ _ (refers_of_live first.ok first.live middle) data]
      exact first.fresh p data none middle
  data a b there data := by
    rw [second.data a b (first.refers live there) data, first.data a b there data]
  logged all := second.logged (first.logged all)

/-- New blocks are logged. -/
theorem GainsBlocks.settled (grows : GainsBlocks sb i s t) (ok : DiskOk sb s) (live : Loaded s i)
    (settled : BlocksLogged sb s i) : BlocksLogged sb t i := by
  intro p b there
  by_cases indirect : p = .addr INDIRECT
  · subst indirect
    exact grows.ok.logged b (.inr ⟨i, there⟩)
  · obtain ⟨-, -, address, nonzero⟩ := there
    change addrOf t.image (node sb t i) p = b at address
    rw [node_live grows.live] at address
    by_cases none : addrOf s.image (s.icache i).copy p = 0
    · have fresh := grows.fresh p indirect none (by rwa [address])
      rw [address] at fresh
      rw [image, fresh]
    · rw [grows.kept p none] at address
      have old := refers_of_live ok live none
      rw [address] at old
      rw [image, grows.data _ b old indirect]
      exact settled p b old

/-- The inode has got a block. -/
theorem Wanted.grows (wanted : Wanted sb s i b p) :
    GainsBlocks sb i s (Wanted.taken sb s i b p) ∧
      addrOf (Wanted.taken sb s i b p).image ((Wanted.taken sb s i b p).icache i).copy p = b := by
  obtain ⟨known, typed⟩ := known_of_live wanted.ok wanted.live
  have live := Wanted.taken_live sb b p wanted.live
  have typed : (node sb s i).type ≠ 0 := by rwa [node_live wanted.live]
  have addr : ∀ q, addrOf (Wanted.taken sb s i b p).image
      ((Wanted.taken sb s i b p).icache i).copy q =
      if q = p then b else addrOf s.image (s.icache i).copy q := by
    intro q
    have all := wanted.taken_addr (q := q) known typed
    rw [node_live live, node_live wanted.live] at all
    simpa using all
  have extended : Extends sb i s (Wanted.taken sb s i b p) := by
    constructor
    · exact wanted.taken_ok
    · exact live
    · cases p <;> rfl
    · exact fun j other => Wanted.taken_icache other
    · exact Wanted.taken_copy sb s i b p
    · exact fun j known => wanted.taken_dinode known
    · intro j q known typed other
      rw [wanted.taken_addr known typed, if_neg fun both => other both.1]
    · intro q some
      rw [addr, if_neg]
      rintro rfl
      exact some wanted.empty
  refine ⟨⟨extended, ?_, ?_, fun all b' => Wanted.taken_logged fun _ => all b'⟩,
    by rw [addr, if_pos rfl]⟩
  · intro q data none some
    rw [addr] at some ⊢
    by_cases here : q = p
    · subst here
      rw [if_pos rfl]
      have zero : (takeBlock sb s b).buf b = ⟨fun _ => 0, fun _ => 0, true⟩ := update_self b _ _
      rw [← zero]
      cases place : q with
      | addr k => rfl
      | entry k =>
        exact update_of_ne (wanted.other (wanted.indirect_refers place)).symm _ _
    · rw [if_neg here] at some
      exact absurd none some
  · exact fun a b there data => wanted.taken_data there data

end GainsBlocks

section Bmap

variable {bn : ℕ}

/-- A message on the console. -/
theorem GainsBlocks.outOfBlocks (ok : DiskOk sb s) (live : Loaded s i) :
    GainsBlocks sb i s (outOfBlocks s) := by
  have same := GainsBlocks.refl ok live
  exact ⟨⟨{ ok with }, live, rfl, same.icache, same.copy, same.dinode,
    same.other, same.kept⟩, same.fresh, same.data, id⟩

theorem orAlloc_spec (p : Place) (record : ℕ → DiskProg Unit) (ok : DiskOk sb s) (live : Loaded s i)
    (running : 0 < s.outstanding)
    (indirect : ∀ j, p = .entry j → (s.icache i).copy.addrs INDIRECT ≠ 0)
    (recorded : ∀ new t, t.icache = s.icache → 0 < t.outstanding →
      record new t = .ok ((), recordBlock t i new p)) :
    ∃ addr t, orAlloc sb (addrOf s.image (s.icache i).copy p) record s = .ok (addr, t) ∧
      GainsBlocks sb i s t ∧ addr = addrOf t.image (t.icache i).copy p := by
  by_cases empty : addrOf s.image (s.icache i).copy p = 0
  · have unfolded : orAlloc sb (addrOf s.image (s.icache i).copy p) record s = (do
        let addr ← balloc sb
        if addr ≠ 0 then record addr
        pure addr : DiskProg ℕ) s := by
      rw [orAlloc, if_pos empty]
    rcases balloc_cases sb running with ⟨b, inside, free, ran⟩ | ran
    · have wanted : Wanted sb s i b p := ⟨ok, live, inside, free, empty, indirect⟩
      obtain ⟨grows, here⟩ := wanted.grows
      refine ⟨b, _, ?_, grows, here.symm⟩
      rw [unfolded, bind_of_ok ran, if_pos wanted.nonzero,
        bind_of_ok (recorded b (takeBlock sb s b) rfl running)]
      rfl
    · refine ⟨0, outOfBlocks s, ?_, .outOfBlocks ok live, empty.symm⟩
      rw [unfolded, bind_of_ok ran]
      rfl
  · refine ⟨_, s, ?_, .refl ok live, rfl⟩
    rw [orAlloc, if_neg empty]
    rfl

theorem orAlloc_addr (ok : DiskOk sb s) (live : Loaded s i) (running : 0 < s.outstanding)
    (k : Fin (NDIRECT + 1)) :
    ∃ addr t, orAlloc sb ((s.icache i).copy.addrs k)
      (fun addr => setInode i fun ip => ip.setAddr k addr) s = .ok (addr, t) ∧
      GainsBlocks sb i s t ∧ addr = (t.icache i).copy.addrs k := by
  refine orAlloc_spec (.addr k) _ ok live running (fun _ entry => ?_) fun _ _ _ _ => rfl
  contradiction

/-- No block number has the indirect block. -/
theorem placeOf_data {bn : ℕ} (here : placeOf bn = some p) : p ≠ .addr INDIRECT := by
  rintro rfl
  unfold placeOf at here
  split at here
  · rename_i direct
    have last : bn = NDIRECT := congrArg Fin.val (Place.addr.inj (some.inj here))
    omega
  · split at here
    · have same := some.inj here
      contradiction
    · contradiction

/-- Every place is that of one block number. -/
theorem placeOf_inj {bn bn' : ℕ} (here : placeOf bn = some p)
    (there : placeOf bn' = some p) : bn = bn' := by
  unfold placeOf at here there
  split at here
  · split at there
    · have same := (some.inj here).trans (some.inj there).symm
      exact congrArg Fin.val (Place.addr.inj same)
    · split at there
      · have same := (some.inj here).trans (some.inj there).symm
        contradiction
      · contradiction
  · rename_i far
    split at here
    · split at there
      · have same := (some.inj here).trans (some.inj there).symm
        contradiction
      · rename_i far'
        split at there
        · have same := (some.inj here).trans (some.inj there).symm
          have value := congrArg Fin.val (Place.entry.inj same)
          simp only at value
          omega
        · contradiction
    · contradiction

theorem placeOf_of_block {bn : ℕ} (there : blockOf img d bn ≠ 0) :
    ∃ p, placeOf bn = some p ∧ blockOf img d bn = addrOf img d p := by
  unfold blockOf at there ⊢
  split at there
  · exact ⟨_, by assumption, rfl⟩
  · contradiction

theorem blockOf_of_place {bn : ℕ}
    (here : placeOf bn = some p) : blockOf img d bn = addrOf img d p := by
  rw [blockOf, here]

theorem blockOf_direct (direct : bn < NDIRECT) :
    blockOf img d bn = addrOf img d (.addr ⟨bn, Nat.lt_succ_of_lt direct⟩) := by
  rw [blockOf, placeOf, dif_pos direct]

theorem blockOf_entry (far : ¬bn < NDIRECT) (inside : bn - NDIRECT < NINDIRECT) :
    blockOf img d bn = addrOf img d (.entry ⟨bn - NDIRECT, inside⟩) := by
  rw [blockOf, placeOf, dif_neg far, dif_pos inside]

theorem blockOf_far (far : MAXFILE ≤ bn) : blockOf img d bn = 0 := by
  have direct : ¬bn < NDIRECT := by
    have parts : MAXFILE = NDIRECT + NINDIRECT := rfl
    omega
  have entry : ¬bn - NDIRECT < NINDIRECT := by
    have parts : MAXFILE = NDIRECT + NINDIRECT := rfl
    omega
  rw [blockOf, placeOf, dif_neg direct, dif_neg entry]

/-- A block that is there is found, and nothing is allocated. -/
theorem bmap_present (sb : Superblock) (there : blockOf s.image (s.icache i).copy bn ≠ 0) :
    bmap sb i bn s = .ok (blockOf s.image (s.icache i).copy bn, s) := by
  have present : ∀ addr record, addr ≠ 0 → orAlloc sb addr record s = .ok (addr, s) := by
    intro addr record some
    rw [orAlloc, if_neg some]
    rfl
  have ran : inode i s = .ok ((s.icache i).copy, s) := rfl
  rw [bmap, bind_of_ok ran]
  by_cases direct : bn < NDIRECT
  · rw [blockOf_direct direct] at there ⊢
    rw [dif_pos direct]
    exact present _ _ there
  · have inside : bn - NDIRECT < NINDIRECT := by
      by_contra far
      have parts : MAXFILE = NDIRECT + NINDIRECT := rfl
      exact there (blockOf_far (by omega))
    rw [blockOf_entry direct inside] at there ⊢
    have indirect : (s.icache i).copy.addrs INDIRECT ≠ 0 := by
      intro none
      rw [addrOf, if_pos none] at there
      exact there rfl
    have entry : addrOf s.image (s.icache i).copy (.entry ⟨bn - NDIRECT, inside⟩) =
        readLE (s.image ((s.icache i).copy.addrs INDIRECT)) (4 * (bn - NDIRECT)) 4 := by
      rw [addrOf, if_neg indirect]
      rfl
    rw [dif_neg direct, if_pos inside, bind_of_ok (present _ _ indirect), if_neg indirect]
    rw [entry] at there ⊢
    exact present _ _ there

/-- A block that is not there is allocated, if there is one. -/
theorem bmap_spec (ok : DiskOk sb s) (live : Loaded s i) (running : 0 < s.outstanding)
    (inside : bn < MAXFILE) :
    ∃ addr t, bmap sb i bn s = .ok (addr, t) ∧ GainsBlocks sb i s t ∧
      addr = blockOf t.image (t.icache i).copy bn := by
  have ran : inode i s = .ok ((s.icache i).copy, s) := rfl
  rw [bmap, bind_of_ok ran]
  by_cases direct : bn < NDIRECT
  · obtain ⟨addr, t, found, grows, here⟩ :=
      orAlloc_addr ok live running ⟨bn, Nat.lt_succ_of_lt direct⟩
    refine ⟨addr, t, ?_, grows, ?_⟩
    · rw [dif_pos direct]
      exact found
    · rw [here, blockOf_direct direct]
      rfl
  · have near : bn - NDIRECT < NINDIRECT := by
      have parts : MAXFILE = NDIRECT + NINDIRECT := rfl
      omega
    obtain ⟨ib, t, found, grows, here⟩ := orAlloc_addr ok live running INDIRECT
    rw [dif_neg direct, if_pos near, bind_of_ok found]
    by_cases none : ib = 0
    · refine ⟨0, t, ?_, grows, ?_⟩
      · rw [if_pos none]
        rfl
      · rw [blockOf_entry direct near, addrOf, if_pos (here.symm.trans none)]
    · obtain ⟨addr, u, found', grows', here'⟩ := orAlloc_spec (.entry ⟨bn - NDIRECT, near⟩)
        (fun new => change ib fun a => writeLE a (4 * (bn - NDIRECT)) new 4)
        grows.ok grows.live (grows.outstanding ▸ running) (fun _ _ => by rwa [← here])
        fun new u copies running => by rw [change_ok running, recordBlock, copies, ← here]
      refine ⟨addr, u, ?_, grows.trans live grows', ?_⟩
      · rw [if_neg none]
        rw [addrOf, if_neg (by rwa [← here]), ← here] at found'
        exact found'
      · rw [here', blockOf_entry direct near]

end Bmap

end Xv6Cos.Verif
