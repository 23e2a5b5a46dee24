import Xv6Cos.Verif.FileRead
import Xv6Cos.Verif.InodeUpdate

/-!
# `writei` overlays the bytes of the file

Each turn of the loop finds or allocates one block and overwrites a part of it. What the disk says
about other inodes, and the bytes of the file elsewhere, stay as they are.
-/

namespace Xv6Cos.Verif

open Kernel Spec Bytes Program Function Disk Nat

variable {sb : Superblock} {s t u : Disk} {i j b : ℕ}

section Overlays

/-- The bytes from `lo` up to `hi` of one inode are overwritten. New bytes elsewhere are zero. -/
structure Overlays (sb : Superblock) (i : ℕ) (bytes : ℕ → UInt8) (lo hi : ℕ) (s t : Disk) : Prop
    extends Extends sb i s t where
  range : ∀ k, lo ≤ k → k < hi → blockOf t.image (t.icache i).copy (k / BSIZE) ≠ 0
  bytes : ∀ k, blockOf t.image (t.icache i).copy (k / BSIZE) ≠ 0 →
    byteOf t.image (t.icache i).copy k =
      if lo ≤ k ∧ k < hi then bytes k
      else if blockOf s.image (s.icache i).copy (k / BSIZE) = 0 then 0
      else byteOf s.image (s.icache i).copy k
  data : ∀ j p b, References sb s (j, p) b → j ≠ i → p ≠ .addr INDIRECT → t.buf b = s.buf b

variable {bytes : ℕ → UInt8} {lo mid hi : ℕ}

theorem Extends.blockOf (more : Extends sb i s t) {bn : ℕ}
    (there : blockOf s.image (s.icache i).copy bn ≠ 0) :
    blockOf t.image (t.icache i).copy bn = blockOf s.image (s.icache i).copy bn := by
  obtain ⟨p, place, here⟩ := placeOf_of_block there
  rw [blockOf_of_place place, here]
  rw [here] at there
  exact more.kept p there

/-- More blocks, and no bytes. -/
theorem GainsBlocks.fills (grows : GainsBlocks sb i s t) (ok : DiskOk sb s) (live : Loaded s i) :
    Overlays sb i bytes lo lo s t where
  toExtends := grows.toExtends
  range k lower upper := by omega
  bytes k there := by
    rw [if_neg (by omega)]
    obtain ⟨p, place, here⟩ := placeOf_of_block there
    have data := placeOf_data place
    by_cases none : Spec.blockOf s.image (s.icache i).copy (k / BSIZE) = 0
    · have empty := none
      rw [blockOf_of_place place] at empty
      rw [here] at there
      rw [if_pos none, byteOf, here, Disk.image, grows.fresh p data empty there]
    · have same := grows.toExtends.blockOf none
      have refers := refers_of_live ok live (p := p) (by rwa [← blockOf_of_place place])
      rw [if_neg none, byteOf, byteOf, same, blockOf_of_place place, Disk.image,
        grows.data _ _ refers data, Disk.image]
  data j p b there _ data := grows.data (j, p) b there data

theorem Overlays.trans (live : Loaded s i) (first : Overlays sb i bytes lo mid s t)
    (second : Overlays sb i bytes mid hi t u) (lower : lo ≤ mid) (upper : mid ≤ hi) :
    Overlays sb i bytes lo hi s u where
  toExtends := first.toExtends.trans second.toExtends
  range k start below := by
    by_cases early : k < mid
    · have there := first.range k start early
      rwa [second.toExtends.blockOf there]
    · exact second.range k (by omega) below
  bytes k there := by
    rw [second.bytes k there]
    by_cases late : mid ≤ k ∧ k < hi
    · rw [if_pos late, if_pos ⟨by omega, late.2⟩]
    · rw [if_neg late]
      by_cases none : Spec.blockOf t.image (t.icache i).copy (k / BSIZE) = 0
      · have outside : ¬(lo ≤ k ∧ k < hi) := by
          rintro ⟨start, below⟩
          exact first.range k start (by omega) none
        have empty : Spec.blockOf s.image (s.icache i).copy (k / BSIZE) = 0 := by
          by_contra some
          rw [first.toExtends.blockOf some] at none
          exact some none
        rw [if_pos none, if_neg outside, if_pos empty]
      · have same : (lo ≤ k ∧ k < mid) ↔ (lo ≤ k ∧ k < hi) := by omega
        rw [if_neg none, first.bytes k none]
        simp only [same]
  data j p b there other data := by
    rw [second.data j p b (first.refers live there) other data, first.data j p b there other data]

/-- The inode refers to the blocks of its file. -/
theorem block_refers (ok : DiskOk sb s) (live : Loaded s i) {bn : ℕ}
    (there : blockOf s.image (s.icache i).copy bn ≠ 0) :
    ∃ p, placeOf bn = some p ∧ p ≠ .addr INDIRECT ∧
      References sb s (i, p) (blockOf s.image (s.icache i).copy bn) := by
  obtain ⟨p, place, here⟩ := placeOf_of_block there
  refine ⟨p, place, placeOf_data place, ?_⟩
  rw [here] at there ⊢
  exact refers_of_live ok live there

/-- Different blocks of a file are different blocks of the disk. -/
theorem block_inj (ok : DiskOk sb s) (live : Loaded s i) {bn bn' : ℕ}
    (there : blockOf s.image (s.icache i).copy bn ≠ 0)
    (same : blockOf s.image (s.icache i).copy bn' = blockOf s.image (s.icache i).copy bn) :
    bn' = bn := by
  obtain ⟨p, place, -, refers⟩ := block_refers ok live there
  obtain ⟨q, place', -, refers'⟩ := block_refers ok live (same ▸ there)
  rw [same] at refers'
  have one : q = p := congrArg Prod.snd (ok.owned.once _ _ _ refers' refers)
  rw [one] at place'
  exact placeOf_inj place' place

/-- Block `bn` of the file is new or in the log. -/
def Tracked (s : Disk) (i bn : ℕ) : Prop :=
  blockOf s.image (s.icache i).copy bn = 0 ∨
    (s.buf (blockOf s.image (s.icache i).copy bn)).logged = true

/-- New blocks are in the log. -/
theorem GainsBlocks.tracked {bn : ℕ} (grows : GainsBlocks sb i s t) (ok : DiskOk sb s)
    (live : Loaded s i) : Tracked t i bn ↔ Tracked s i bn := by
  by_cases none : Spec.blockOf s.image (s.icache i).copy bn = 0
  · refine iff_of_true (or_iff_not_imp_left.mpr fun there => ?_) (.inl none)
    obtain ⟨p, place, here⟩ := placeOf_of_block there
    rw [here] at there
    rw [blockOf_of_place place] at none
    rw [here, grows.fresh p (placeOf_data place) none there]
  · obtain ⟨p, place, data, refers⟩ := block_refers ok live none
    rw [Tracked, grows.toExtends.blockOf none, grows.data _ _ refers data, Tracked]

section Data

/-- A block that no address is in. -/
structure DataBlock (sb : Superblock) (s : Disk) (b : ℕ) : Prop where
  above : sb.nmeta ≤ b
  direct : ∀ j, ¬References sb s (j, .addr INDIRECT) b

theorem plain_of_refers {p : Place} (ok : DiskOk sb s) (there : References sb s (i, p) b)
    (data : p ≠ .addr INDIRECT) : DataBlock sb s b where
  above := (ok.owned.range _ _ there).1
  direct _ indirect := data (congrArg Prod.snd (ok.owned.once _ _ _ there indirect))

variable (ok : DiskOk sb s) (plain : DataBlock sb s b) (copies : t.icache = s.icache)
  (rest : ∀ b', b' ≠ b → t.buf b' = s.buf b')

include ok plain copies rest

omit copies in
theorem data_dinode (known : j < sb.ninodes) : t.dinode sb j = s.dinode sb j := by
  have apart : IBLOCK j sb ≠ b :=
    Nat.ne_of_lt (lt_of_lt_of_le (iblock_lt ok.sound known) plain.above)
  rw [Disk.dinode, Disk.image, rest _ apart, Disk.dinode, Disk.image]

theorem data_node (known : j < sb.ninodes) : node sb t j = node sb s j :=
  node_congr (by rw [copies]) (data_dinode ok plain rest known)

omit copies ok in
/-- A change of data changes no address. -/
theorem data_addr (known : j < sb.ninodes) (typed : (node sb s j).type ≠ 0) (q : Place) :
    addrOf t.image (node sb s j) q = addrOf s.image (node sb s j) q :=
  addrOf_same known typed
    (fun _ indirect => rest _ fun same => plain.direct j (same ▸ indirect)) q

theorem data_refers (a : ℕ × Place) (b' : ℕ) : References sb t a b' ↔ References sb s a b' := by
  obtain ⟨j, q⟩ := a
  constructor
  · rintro ⟨known, typed, address, nonzero⟩
    rw [data_node ok plain copies rest known] at typed
    refine ⟨known, typed, ?_, nonzero⟩
    rw [data_node ok plain copies rest known, data_addr plain rest known typed] at address
    exact address
  · rintro ⟨known, typed, address, nonzero⟩
    refine ⟨known, by rwa [data_node ok plain copies rest known], ?_, nonzero⟩
    rw [data_node ok plain copies rest known, data_addr plain rest known typed]
    exact address

theorem data_ok : DiskOk sb t := by
  have above := plain.above
  refine ⟨ok.sound, ok.owned.congr (data_refers ok plain copies rest) fun b' inside => ?_,
    fun b' needed => ?_, by rw [copies]; exact ok.entries⟩
  · have below := ok.sound.bitmap b' inside
    rw [used, Disk.image, rest _ (by omega), used, Disk.image]
  · have old : b' < sb.nmeta ∨ ∃ j, References sb s (j, .addr INDIRECT) b' := by
      rcases needed with low | ⟨j, indirect⟩
      · exact .inl low
      · exact .inr ⟨j, (data_refers ok plain copies rest _ _).mp indirect⟩
    have other : b' ≠ b := by
      rintro rfl
      rcases old with low | ⟨j, indirect⟩
      · omega
      · exact plain.direct j indirect
    rw [rest b' other, Disk.image, rest b' other]
    exact ok.logged b' old

theorem data_blockOf (live : Loaded s i) (k : ℕ) : Spec.blockOf t.image (t.icache i).copy k =
    Spec.blockOf s.image (s.icache i).copy k := by
  obtain ⟨known, typed⟩ := known_of_live ok live
  have same := data_addr plain rest known (by rwa [node_live live])
  rw [node_live live] at same
  rw [copies, Spec.blockOf, Spec.blockOf]
  split
  · exact same _
  · rfl

/-- The changed block has been logged. -/
theorem data_settled (logged : (t.buf b).home = t.image b) (settled : BlocksLogged sb s j) :
    BlocksLogged sb t j := by
  intro q b' there'
  by_cases here : b' = b
  · rwa [here]
  · rw [Disk.image, rest b' here]
    exact settled q b' ((data_refers ok plain copies rest _ _).mp there')

theorem data_extends (live : Loaded s i) (running : t.outstanding = s.outstanding) :
    Extends sb i s t where
  ok := data_ok ok plain copies rest
  live := by rwa [Loaded, copies]
  outstanding := running
  icache j _ := by rw [copies]
  copy := ⟨(s.icache i).copy.addrs, by rw [copies]⟩
  dinode j known := data_dinode ok plain rest known
  other j q known typed _ := by
    rw [data_node ok plain copies rest known, data_addr plain rest known typed]
  kept q _ := by
    obtain ⟨known, typed⟩ := known_of_live ok live
    have same := data_addr plain rest known (by rwa [node_live live]) q
    rw [node_live live] at same
    rw [copies, same]

end Data

/-- A part of one block is overwritten. -/
theorem fills_block (bytes : ℕ → UInt8) (ok : DiskOk sb s) (live : Loaded s i) {bn start len : ℕ}
    (there : blockOf s.image (s.icache i).copy bn ≠ 0) (fits : start + len ≤ BSIZE)
    (copies : t.icache = s.icache) (running : t.outstanding = s.outstanding)
    (rest : ∀ b', b' ≠ blockOf s.image (s.icache i).copy bn → t.buf b' = s.buf b')
    (new : t.image (blockOf s.image (s.icache i).copy bn) =
      overlay (s.image (blockOf s.image (s.icache i).copy bn)) start len
        fun k => bytes (bn * BSIZE + start + k)) :
    Overlays sb i bytes (bn * BSIZE + start) (bn * BSIZE + start + len) s t := by
  obtain ⟨p, place, data, refers⟩ := block_refers ok live there
  have plain := plain_of_refers ok refers data
  have more := data_extends ok plain copies rest live running
  have block := data_blockOf ok plain copies rest live
  refine ⟨more, fun k lower upper => ?_, fun k some => ?_, fun j q b' old other _ => ?_⟩
  · have here : k / BSIZE = bn := by
      unfold BSIZE at *
      omega
    rwa [block, here]
  · rw [block] at some
    rw [byteOf, block, byteOf, if_neg some]
    by_cases here : k / BSIZE = bn
    · have inside : (start ≤ k % BSIZE ∧ k % BSIZE < start + len) ↔
          (bn * BSIZE + start ≤ k ∧ k < bn * BSIZE + start + len) := by
        unfold BSIZE at *
        omega
      rw [here, new, overlay]
      simp only [inside]
      split
      · congr 1
        unfold BSIZE at *
        omega
      · rfl
    · have outside : ¬(bn * BSIZE + start ≤ k ∧ k < bn * BSIZE + start + len) := by
        unfold BSIZE at *
        omega
      have other : Spec.blockOf s.image (s.icache i).copy (k / BSIZE) ≠
          Spec.blockOf s.image (s.icache i).copy bn :=
        fun same => here (block_inj ok live there same)
      rw [if_neg outside, Disk.image, rest _ other, Disk.image]
  · refine rest b' ?_
    rintro rfl
    exact other (congrArg Prod.fst (ok.owned.once _ _ _ old refers))

end Overlays

section Writei

variable {src : ℕ → Option UInt8} {base n : ℕ}

/-- How far the loop of `writei` has come: `tot` bytes are reported, and all up to `dirty` are in
the buffers. -/
structure WroteTo (src : ℕ → Option UInt8) (base n start tot dirty : ℕ) (t : Disk)
    (i : ℕ) : Prop where
  lower : start ≤ tot
  upper : tot ≤ dirty
  bound : dirty ≤ n
  readable : ∀ k, start ≤ k → k < dirty → (src k).isSome
  /-- Why the loop stopped. -/
  stopped : dirty = tot ∧ (tot = n ∨ blockOf t.image (t.icache i).copy ((base + tot) / BSIZE) = 0) ∨
    dirty < n ∧ src dirty = none

/-- What the loop leaves in a buffer if it cannot read on: a part of a block, on a disk to which
only what it reports has been written. -/
def Leaves (sb : Superblock) (i : ℕ) (src : ℕ → Option UInt8) (base n start tot dirty : ℕ)
    (s t : Disk) : Prop :=
  tot < n → blockOf t.image (t.icache i).copy ((base + tot) / BSIZE) ≠ 0 → ∃ u,
    Overlays sb i (fun k => (src (k - base)).getD 0) (base + start) (base + tot) s u ∧
    (AllLogged s → AllLogged u) ∧ (base + tot) % BSIZE + (dirty - tot) ≤ BSIZE ∧
    ∃ b, b = blockOf u.image (u.icache i).copy ((base + tot) / BSIZE) ∧ b ≠ 0 ∧
      ((u.buf b).logged = true ↔ Tracked s i ((base + tot) / BSIZE)) ∧
      t = u.setData b (Disk.overlay (u.image b) ((base + tot) % BSIZE) (dirty - tot)
        fun k => (src (tot + k)).getD 0)

/-- What one turn of the loop puts into a block. -/
theorem chunk_fills (ok : DiskOk sb s) (live : Loaded s i) {tot copied : ℕ}
    (there : blockOf s.image (s.icache i).copy ((base + tot) / BSIZE) ≠ 0)
    (fits : (base + tot) % BSIZE + copied ≤ BSIZE)
    (copies : t.icache = s.icache) (running : t.outstanding = s.outstanding)
    (rest : ∀ b', b' ≠ blockOf s.image (s.icache i).copy ((base + tot) / BSIZE) →
      t.buf b' = s.buf b')
    (new : t.image (blockOf s.image (s.icache i).copy ((base + tot) / BSIZE)) =
      overlay (s.image (blockOf s.image (s.icache i).copy ((base + tot) / BSIZE)))
        ((base + tot) % BSIZE) copied fun k => (src (tot + k)).getD 0) :
    Overlays sb i (fun k => (src (k - base)).getD 0) (base + tot) (base + tot + copied) s t := by
  have whole : (base + tot) / BSIZE * BSIZE + (base + tot) % BSIZE = base + tot :=
    div_add_mod' _ _
  have fills := fills_block (fun k => (src (k - base)).getD 0) ok live there fits copies running
    rest (by
      rw [new, whole]
      congr 1
      funext k
      rw [add_assoc, Nat.add_sub_cancel_left])
  rwa [whole] at fills

/-- A change of one block does not matter to another. -/
theorem tracked_of_rest (ok : DiskOk sb s) (live : Loaded s i) {bn bn' : ℕ}
    (there : blockOf s.image (s.icache i).copy bn ≠ 0) (copies : t.icache = s.icache)
    (rest : ∀ b', b' ≠ blockOf s.image (s.icache i).copy bn → t.buf b' = s.buf b')
    (other : bn' ≠ bn) : Tracked t i bn' ↔ Tracked s i bn' := by
  obtain ⟨p, -, data, refers⟩ := block_refers ok live there
  have block := data_blockOf ok (plain_of_refers ok refers data) copies rest live bn'
  rw [Tracked, block, rest _ fun same => other (block_inj ok live there same), Tracked]

theorem writeiGo_spec {fuel tot : ℕ} (ok : DiskOk sb s) (live : Loaded s i)
    (running : 0 < s.outstanding) (enough : n - tot ≤ fuel) (bound : tot ≤ n)
    (limit : base + n ≤ MAXFILE * BSIZE) :
    ∃ stop dirty t, writeiGo sb i src n fuel tot (base + tot) s = .ok ((stop, base + stop), t) ∧
      WroteTo src base n tot stop dirty t i ∧
      Overlays sb i (fun k => (src (k - base)).getD 0) (base + tot) (base + dirty) s t ∧
      (dirty = stop → BlocksLogged sb s i → BlocksLogged sb t i) ∧
      Leaves sb i src base n tot stop dirty s t := by
  induction fuel generalizing tot s with
  | zero =>
    have done : tot = n := by omega
    refine ⟨tot, tot, s, rfl, ⟨le_rfl, le_rfl, bound, fun k _ _ => by omega, .inl ⟨rfl, .inl done⟩⟩,
      ?_, fun _ => id, fun less => absurd less (by omega)⟩
    exact (GainsBlocks.refl ok live).fills ok live
  | succ fuel ih =>
    by_cases more : tot < n
    · have inside : (base + tot) / BSIZE < MAXFILE :=
        Nat.div_lt_of_lt_mul (by rw [mul_comm]; omega)
      obtain ⟨addr, s', found, grows, here⟩ := bmap_spec ok live running inside
      have first : Overlays sb i (fun k => (src (k - base)).getD 0) (base + tot)
        (base + tot) s s' :=
        grows.fills ok live
      by_cases none : addr = 0
      · refine ⟨tot, tot, s', ?_, ⟨le_rfl, le_rfl, bound, fun k _ _ => by omega,
          .inl ⟨rfl, .inr (here.symm.trans none)⟩⟩, first, fun _ => grows.settled ok live,
          fun _ there => absurd (here.symm.trans none) there⟩
        rw [writeiGo, if_pos more, bind_of_ok found, if_pos none]
        rfl
      · let m := min (n - tot) (BSIZE - (base + tot) % BSIZE)
        let copied := reach (fun k => (src k).isSome) tot m
        let new := overlay (s'.image addr) ((base + tot) % BSIZE) copied
          fun k => (src (tot + k)).getD 0
        have within : (base + tot) % BSIZE < BSIZE := mod_lt _ (by decide)
        have small : copied ≤ m := reach_le _ tot m
        obtain ⟨mapped, blocked⟩ := reach_mapped (fun k => (src k).isSome) tot m
        have readable : ∀ k, tot ≤ k → k < tot + copied → (src k).isSome := by
          intro k lower upper
          have here := mapped (k - tot) (by omega)
          rwa [Nat.add_sub_cancel' lower] at here
        have fits : (base + tot) % BSIZE + copied ≤ BSIZE := by omega
        have there : blockOf s'.image (s'.icache i).copy ((base + tot) / BSIZE) ≠ 0 := by
          rwa [← here]
        have chunk : ∀ t : Disk, t.icache = s'.icache → t.outstanding = s'.outstanding →
            (∀ b', b' ≠ addr → t.buf b' = s'.buf b') → t.image addr = new →
            Overlays sb i (fun k => (src (k - base)).getD 0) (base + tot)
            (base + tot + copied) s t := by
          intro t copies running rest written
          rw [here] at rest written
          refine first.trans live (chunk_fills grows.ok grows.live there fits
            copies running rest ?_)
            le_rfl (le_add_right _ _)
          rw [written, ← here]
        obtain ⟨p, -, data, refers⟩ := block_refers grows.ok grows.live there
        rw [← here] at refers
        have plain := plain_of_refers grows.ok refers data
        have step : writeiGo sb i src n (fuel + 1) tot (base + tot) s =
            (if copied < m then pure (tot, base + tot)
            else do
              logWrite addr
              writeiGo sb i src n fuel (tot + m) (base + tot + m) : DiskProg (ℕ × ℕ))
              (s'.setData addr new) := by
          rw [writeiGo, if_pos more, bind_of_ok found, if_neg none]
          rfl
        have elsewhere : ∀ b', b' ≠ addr → (s'.setData addr new).buf b' = s'.buf b' :=
          fun b' other => update_of_ne other _ _
        have image : (s'.setData addr new).image addr = new := by
          rw [image_setData, update_self]
        by_cases short : copied < m
        · refine ⟨tot, tot + copied, s'.setData addr new, ?_, ⟨le_rfl, by omega, by omega, readable,
            .inr ⟨by omega, by simpa using blocked short⟩⟩, ?_, fun clean settled => ?_,
            fun _ _ => ⟨s', first, grows.logged, by omega, addr, here, none, ?_, ?_⟩⟩
          · rw [step, if_pos short]
            rfl
          · have fills := chunk (s'.setData addr new) rfl rfl elsewhere image
            rwa [add_assoc] at fills
          · -- Nothing was copied, so the buffer is still as it is in the log.
            have nothing : copied = 0 := by omega
            have same : new = s'.image addr := by
              funext a
              change overlay _ _ copied _ a = _
              rw [nothing, overlay, if_neg (by omega)]
            have settled' := grows.settled ok live settled
            refine data_settled grows.ok plain rfl elsewhere ?_ settled'
            rw [image, same, home_setData, settled' p addr refers, ite_self]
          · have old : Tracked s' i ((base + tot) / BSIZE) ↔ Tracked s i ((base + tot) / BSIZE) :=
              grows.tracked ok live
            rw [Tracked, ← here] at old
            exact (or_iff_right none).symm.trans old
          · rw [Nat.add_sub_cancel_left]
        · have full : copied = m := by omega
          let next := (s'.setData addr new).write addr new
          have logged : logWrite addr (s'.setData addr new) = .ok ((), next) := by
            have inTrans : ¬(s'.setData addr new).outstanding < 1 := by
              change ¬s'.outstanding < 1
              rw [grows.outstanding]
              omega
            rw [logWrite, if_neg inTrans, image]
          have elsewhere' : ∀ b', b' ≠ addr → next.buf b' = s'.buf b' := by
            intro b' other
            change update (s'.setData addr new).buf addr _ b' = _
            rw [update_of_ne other, elsewhere b' other]
          have stored : next.buf addr = ⟨new, new, true⟩ := update_self addr _ _
          have fills := chunk next rfl rfl elsewhere' (by rw [Disk.image, stored])
          obtain ⟨stop, dirty, t, ran, wrote, rest, settles, leaves⟩ := @ih next (tot + m) fills.ok
            fills.live (by rw [fills.outstanding]; exact running) (by omega) (by omega)
          refine ⟨stop, dirty, t, ?_, ⟨?_, wrote.upper, wrote.bound, fun k start below => ?_,
            wrote.stopped⟩, ?_, fun clean settled => settles clean ?_, fun less last => ?_⟩
          · rw [step, if_neg short, bind_of_ok logged, add_assoc]
            exact ran
          · have lower := wrote.lower
            omega
          · by_cases early : k < tot + copied
            · exact readable k start early
            · exact wrote.readable k (by omega) below
          · have lower := wrote.lower
            have upper := wrote.upper
            rw [full, add_assoc] at fills
            exact fills.trans live rest (by omega) (by omega)
          · refine data_settled grows.ok plain rfl elsewhere' ?_ (grows.settled ok live settled)
            rw [Disk.image, stored]
          · have lower := wrote.lower
            obtain ⟨u, above, logs, last⟩ := leaves less last
            rw [full, add_assoc] at fills
            obtain ⟨fits', b, block, nonzero, logged, same⟩ := last
            have chunk_end : m = BSIZE - (base + tot) % BSIZE := by
              have least : m = min (n - tot) (BSIZE - (base + tot) % BSIZE) := rfl
              omega
            have later : (base + stop) / BSIZE ≠ (base + tot) / BSIZE := by
              clear_value m
              unfold BSIZE at *
              omega
            have tracked : Tracked next i _ ↔ Tracked s' i _ :=
              tracked_of_rest grows.ok grows.live there rfl (fun b' => here ▸ elsewhere' b') later
            refine ⟨u, fills.trans live above (by omega) (by omega),
              fun all => logs fun b' => ?_, fits', b,
              block, nonzero, logged.trans (tracked.trans (grows.tracked ok live)), same⟩
            by_cases hit : b' = addr
            · rw [Disk.image, hit, stored]
            · rw [Disk.image, elsewhere' b' hit]
              exact grows.logged all b'
    · have done : tot = n := by omega
      refine ⟨tot, tot, s, ?_, ⟨le_rfl, le_rfl, bound, fun k _ _ => by omega,
        .inl ⟨rfl, .inl done⟩⟩, (GainsBlocks.refl ok live).fills ok live, fun _ => id,
        fun less => absurd less more⟩
      rw [writeiGo, if_neg more]
      rfl

/-- What is left in the buffer is as the log has it only if the block is new or logged, or it was
there before. -/
theorem Leaves.logged {tot dirty : ℕ} (leaves : Leaves sb i src base n 0 tot dirty s t)
    (less : tot < n) (there : blockOf t.image (t.icache i).copy ((base + tot) / BSIZE) ≠ 0)
    (all : AllLogged s) : AllLogged t ↔ Tracked s i ((base + tot) / BSIZE) ∨
    ∀ k, tot ≤ k → k < dirty →
      (src k).getD 0 = byteOf s.image (s.icache i).copy (base + k) := by
  obtain ⟨u, above, logs, fits, b, block, nonzero, logged, rfl⟩ := leaves less there
  by_cases tracked : Tracked s i ((base + tot) / BSIZE)
  · refine iff_of_true (fun b' => ?_) (.inl tracked)
    rw [home_setData, image_setData]
    by_cases here : b' = b
    · rw [if_pos ⟨here, logged.mpr tracked⟩, here, update_self]
    · rw [if_neg fun both => here both.1, update_of_ne here]
      exact logs all b'
  rw [or_iff_right tracked]
  have unlogged : ∀ b', ¬(b' = b ∧ (u.buf b).logged = true) := fun _ both =>
    tracked (logged.mp both.2)
  let new := overlay (u.image b) ((base + tot) % BSIZE) (dirty - tot)
    fun k => (src (tot + k)).getD 0
  have old : ∀ k, tot ≤ k → k < dirty → u.image b ((base + tot) % BSIZE + (k - tot)) =
      byteOf s.image (s.icache i).copy (base + k) := by
    intro k lower upper
    have same : (base + k) / BSIZE = (base + tot) / BSIZE := by
      unfold BSIZE at *
      omega
    have within : (base + k) % BSIZE = (base + tot) % BSIZE + (k - tot) := by
      unfold BSIZE at *
      omega
    have here := above.bytes (base + k) (by rwa [same, ← block])
    rw [byteOf, same, ← block, within, if_neg (by omega), ← same, if_neg] at here
    · exact here
    · rw [same]
      exact fun new => tracked (.inl new)
  have changed : AllLogged (u.setData b new) ↔ new = u.image b := by
    constructor
    · intro after
      have here := after b
      rw [home_setData, if_neg (unlogged b), logs all b, image_setData, update_self] at here
      exact here.symm
    · intro same b'
      rw [home_setData, if_neg (unlogged b'), image_setData, same, update_eq_self]
      exact logs all b'
  rw [changed]
  constructor
  · intro same k lower upper
    have here := congrFun same ((base + tot) % BSIZE + (k - tot))
    rw [old k lower upper] at here
    change overlay _ _ _ _ _ = _ at here
    rwa [overlay, if_pos (by omega), Nat.add_sub_cancel_left, Nat.add_sub_cancel' lower] at here
  · intro bytes
    funext a
    change overlay _ _ _ _ a = _
    rw [overlay]
    split
    case isTrue inside =>
      have at_a : (base + tot) % BSIZE + (tot + (a - (base + tot) % BSIZE) - tot) = a := by omega
      rw [bytes _ (by omega) (by omega), ← old _ (by omega) (by omega), at_a]
    case isFalse => rfl

/-- A request that `writei` does not reject. -/
def Writable (d : Dinode) (off n : ℕ) : Prop := off ≤ d.size.toNat ∧ off + n ≤ MAXFILE * BSIZE

theorem writei_rejects {off : ℕ} (uint : n < 2 ^ 32)
    (rejected : ¬Writable (s.icache i).copy off n) : writei sb i src off n s = .ok (-1, s) := by
  have ran : Disk.inode i s = .ok ((s.icache i).copy, s) := rfl
  have small := (s.icache i).copy.size.isLt
  have limit : MAXFILE * BSIZE = 274432 := rfl
  rw [writei, bind_of_ok ran]
  unfold Writable at rejected
  by_cases outside : (s.icache i).copy.size.toNat < off ∨ (off + n) % 2 ^ 32 < off
  · rw [if_pos outside]
    rfl
  · have long : MAXFILE * BSIZE < (off + n) % 2 ^ 32 := by omega
    rw [if_neg outside, if_pos long]
    rfl

/-- The effect of `writei` that reports `tot` bytes, while all up to `dirty` are in the buffers. -/
structure Wrote (sb : Superblock) (i : ℕ) (src : ℕ → Option UInt8)
    (off tot dirty : ℕ) (s t : Disk) :
    Prop where
  ok : DiskOk sb t
  live : Loaded t i
  outstanding : t.outstanding = s.outstanding
  icache : ∀ j, j ≠ i → t.icache j = s.icache j
  copy : ∃ addrs, t.icache i = { s.icache i with copy := { (s.icache i).copy with
    addrs := addrs, size := BitVec.ofNat 32 (max (s.icache i).copy.size.toNat (off + tot)) } }
  dinode : ∀ j, j < sb.ninodes → t.dinode sb j = if j = i then (t.icache i).copy else s.dinode sb j
  other : ∀ j p, j < sb.ninodes → (node sb s j).type ≠ 0 → j ≠ i →
    addrOf t.image (node sb t j) p = addrOf s.image (node sb s j) p
  kept : ∀ p, addrOf s.image (s.icache i).copy p ≠ 0 →
    addrOf t.image (t.icache i).copy p = addrOf s.image (s.icache i).copy p
  range : ∀ k, off ≤ k → k < off + dirty → blockOf t.image (t.icache i).copy (k / BSIZE) ≠ 0
  bytes : ∀ k, blockOf t.image (t.icache i).copy (k / BSIZE) ≠ 0 →
    byteOf t.image (t.icache i).copy k =
      if off ≤ k ∧ k < off + dirty then (src (k - off)).getD 0
      else if blockOf s.image (s.icache i).copy (k / BSIZE) = 0 then 0
      else byteOf s.image (s.icache i).copy k
  data : ∀ j p b, References sb s (j, p) b → j ≠ i → p ≠ .addr INDIRECT → t.buf b = s.buf b
  settled : dirty = tot → BlocksLogged sb s i → BlocksLogged sb t i

theorem writei_accepts {off : ℕ} (ok : DiskOk sb s) (live : Loaded s i)
    (running : 0 < s.outstanding)
    (accepted : Writable (s.icache i).copy off n) :
    ∃ (tot dirty : ℕ) (t : Disk), writei sb i src off n s = .ok ((tot : Int), t) ∧
      WroteTo src off n 0 tot dirty t i ∧ Wrote sb i src off tot dirty s t ∧
      (tot < n → blockOf t.image (t.icache i).copy ((off + tot) / BSIZE) ≠ 0 → AllLogged s →
        (AllLogged t ↔ Tracked s i ((off + tot) / BSIZE) ∨ ∀ k, tot ≤ k → k < dirty →
          (src k).getD 0 = byteOf s.image (s.icache i).copy (off + k)) ∧
        (off + tot) % BSIZE + (dirty - tot) ≤ BSIZE) := by
  obtain ⟨start, limit⟩ := accepted
  have bound : MAXFILE * BSIZE = 274432 := rfl
  have small := (s.icache i).copy.size.isLt
  have nowrap : (off + n) % 2 ^ 32 = off + n := mod_eq_of_lt (by omega)
  obtain ⟨tot, dirty, mid, ran, wrote, fills, settles, leaves⟩ :=
    @writeiGo_spec sb s i src off n n 0 ok live running (sub_le _ _) (zero_le _) limit
  obtain ⟨addrs, copy⟩ := fills.copy
  have size : (mid.icache i).copy.size = (s.icache i).copy.size := by rw [copy]
  -- The size is set, and the inode is written.
  let d : Dinode := if (mid.icache i).copy.size.toNat < off + tot then
    { (mid.icache i).copy with size := BitVec.ofNat 32 (off + tot) } else (mid.icache i).copy
  have shape : d = { (mid.icache i).copy with
      size := BitVec.ofNat 32 (max (s.icache i).copy.size.toNat (off + tot)) } := by
    change (if _ then _ else _) = _
    split
    · rename_i less
      rw [size] at less
      rw [max_eq_right less.le]
    · rename_i less
      rw [size] at less
      rw [max_eq_left (Nat.le_of_not_lt less), BitVec.ofNat_toNat, BitVec.setWidth_eq, ← size]
  let sized := mid.setCopy i { mid.icache i with copy := d }
  have set : setInode i (fun ip => if ip.size.toNat < off + tot then
      { ip with size := BitVec.ofNat 32 (off + tot) } else ip) mid = .ok ((), sized) := rfl
  have entry : sized.icache i = { mid.icache i with copy := d } := update_self i _ _
  have live' : Loaded sized i := by
    rw [Loaded, entry]
    exact fills.live
  have first : Quiet sb mid sized :=
    quiet_setCopy fills.ok fills.live (by rw [shape]) (by rw [shape])
  have ok' := first.ok fills.ok
  have second : Quiet sb sized (updated sb sized i) := updated_quiet ok' live'
  have quiet := first.trans second
  have same : ((updated sb sized i).icache i).copy.addrs = (mid.icache i).copy.addrs := by
    change (sized.icache i).copy.addrs = _
    rw [entry]
    change d.addrs = _
    rw [shape]
  have block := quiet.block_live fills.ok fills.live live' same
  refine ⟨tot, dirty, updated sb sized i, ?_, ?_, ?_, fun less there all => ?_⟩
  · have ran' : Disk.inode i s = .ok ((s.icache i).copy, s) := rfl
    have far : ¬MAXFILE * BSIZE < off + n := by omega
    rw [add_zero] at ran
    rw [writei, bind_of_ok ran', nowrap, if_neg (by omega), if_neg far, bind_of_ok ran]
    have running' : 0 < sized.outstanding := by
      rw [first.outstanding, fills.outstanding]
      exact running
    have done := iupdate_ok sb i running'
    change (setInode i _ >>= fun _ => _) mid = _
    rw [bind_of_ok set, bind_of_ok done]
    rfl
  · refine ⟨wrote.lower, wrote.upper, wrote.bound, wrote.readable, ?_⟩
    rw [block]
    exact wrote.stopped
  · rw [add_zero] at fills
    refine ⟨quiet.ok fills.ok, live', ?_, fun j other => ?_, ?_, fun j known => ?_,
      fun j p known typed other => ?_, fun p some => ?_, fun k lower upper => ?_, fun k some => ?_,
      fun j p b refers other data => ?_,
      fun clean settled => quiet.settled fills.ok (settles clean settled)⟩
    · rw [quiet.outstanding, fills.outstanding]
    · change update mid.icache i _ j = _
      rw [update_of_ne other, fills.icache j other]
    · refine ⟨addrs, ?_⟩
      change sized.icache i = _
      rw [entry, shape, copy]
    · rw [updated_dinode ok' live']
      by_cases here : j = i
      · rw [if_pos here, if_pos here]
        rfl
      · rw [if_neg here, if_neg here]
        exact fills.dinode j known
    · have node : node sb (updated sb sized i) j = node sb mid j := by
        refine node_congr (update_of_ne other _ _) ?_
        rw [updated_dinode ok' live', if_neg other]
        rfl
      rw [quiet.addrOf fills.ok known (by rwa [fills.node known other]) (by rw [node]),
        fills.other j p known typed other]
    · rw [quiet.addr_live fills.ok fills.live live' same, fills.kept p some]
    · rw [block]
      exact fills.range k lower upper
    · rw [block] at some
      rw [quiet.byte_live fills.ok fills.live live' same some, fills.bytes k some]
    · have above := (fills.ok.owned.range _ _ (fills.refers live refers)).1
      rw [quiet.data b above, fills.data j p b refers other data]
  · rw [block] at there
    refine ⟨?_, ?_⟩
    rotate_left
    · obtain ⟨u, -, -, fits, -⟩ := leaves less there
      exact fits
    rw [← leaves.logged less there all]
    constructor
    · intro after b
      by_cases hit : b = IBLOCK i sb
      · rw [hit]
        exact fills.ok.logged _ (.inl (iblock_lt ok.sound (known_of_live ok live).1))
      · have here := after b
        have same : (updated sb sized i).buf b = mid.buf b := update_of_ne hit _ _
        rwa [Disk.image, same] at here
    · intro before b
      exact write_logged fun _ => before b

end Writei

end Xv6Cos.Verif
