import Xv6Cos.Verif.InodeOps

/-!
# Calls that change inodes, within a system call

`iupdate`, `ialloc`, `itrunc`, `readi`, `writei` and `iput` as rules about a `Session`.
-/

namespace Xv6Cos.Verif

open Kernel Spec Bytes Program Function Disk List

variable {sb : Superblock} {s₀ s t : Disk} {i j b : ℕ} {held locked : List ℕ} {d : Dinode}
  {src : ℕ → Option UInt8} {off tot dirty n : ℕ}

section Common

/-- Nothing has changed in what the call holds. -/
theorem Session.same (session : Session sb s₀ held locked s) (intact : Intact sb t)
    (running : t.outstanding = s.outstanding)
    (entry : ∀ j, (t.icache j).ref = (s.icache j).ref ∧ (t.icache j).locked = (s.icache j).locked)
    (types : ∀ j, j < sb.ninodes → (node sb t j).type = (node sb s j).type) :
    Session sb s₀ held locked t where
  intact := intact
  outstanding := running.trans session.outstanding
  refs j := by rw [(entry j).1, session.refs j]
  types j referenced typed := by
    rw [types j (session.shared referenced)]
    exact session.types j referenced typed
  locks j := by
    rw [(entry j).2]
    exact session.locks j
  nodup := session.nodup

/-- A locked inode has changed, on the disk, too. -/
theorem Session.edit (session : Session sb s₀ held locked s) (mem : i ∈ locked)
    (others : Others sb i s t) (ok : DiskOk sb t) (running : t.outstanding = s.outstanding)
    (entry : t.icache i = { s.icache i with copy := d })
    (elsewhere : ∀ j, j ≠ i → t.icache j = s.icache j)
    (dinode : ∀ j, j < sb.ninodes → t.dinode sb j = if j = i then d else s.dinode sb j)
    (type : d.type = (s.icache i).copy.type) (whole : HoleFree t.image d)
    (names : d.type = T_DIR → ∀ k, 16 * k + 16 ≤ d.size.toNat →
      readLE (byteOf t.image d) (16 * k) 2 < sb.ninodes)
    (settled : d.type = T_DIR → BlocksLogged sb t i) : Session sb s₀ held locked t := by
  have live : Loaded t i := by
    rw [Loaded, entry]
    exact session.live mem
  have here : node sb t i = d := by rw [node_live live, entry]
  have same : ∀ j, (t.icache j).ref = (s.icache j).ref ∧
      (t.icache j).locked = (s.icache j).locked ∧ (t.icache j).valid = (s.icache j).valid := by
    intro j
    by_cases self : j = i
    · rw [self, entry]
      exact ⟨rfl, rfl, rfl⟩
    · rw [elsewhere j self]
      exact ⟨rfl, rfl, rfl⟩
  have intact : Intact sb t := by
    refine intact_change session.intact others ok (fun j referenced valid => ?_)
      (fun j locked => ?_) (fun _ _ => by rwa [here]) (by rw [here]; exact fun _ => names)
      (by rw [here]; exact fun _ => settled)
    · rw [dinode j (ok.entries j referenced).1]
      by_cases self : j = i
      · rw [self, if_pos rfl, entry]
      · rw [if_neg self]
        rw [elsewhere j self] at referenced valid ⊢
        exact session.intact.written j referenced valid
    · rw [(same j).1, (same j).2.2]
      rw [(same j).2.1] at locked
      exact session.intact.locks j locked
  refine session.same intact running (fun j => ⟨(same j).1, (same j).2.1⟩) fun j known => ?_
  by_cases self : j = i
  · rw [self, here, type, session.node_locked mem]
  · rw [others.node j known self]

/-- An inode changes its contents at most. -/
theorem Quiet.others (quiet : Quiet sb s t) (ok : DiskOk sb s)
    (same : ∀ j, j < sb.ninodes → j ≠ i → node sb t j = node sb s j) : Others sb i s t where
  node := same
  addr j p known typed other := by
    have all := quiet.addrOf ok known typed (by rw [same j known other]) p
    rwa [same j known other] at all
  data _ _ b there _ _ := quiet.data b (ok.owned.range _ _ there).1

theorem Truncated.others (cut : Truncated sb i s t) (ok : DiskOk sb s) : Others sb i s t where
  node j known other :=
    node_congr (cut.icache j other) ((cut.dinode j known).trans (if_neg other))
  addr _ p known typed _ :=
    addrOf_same known typed (fun b refers => cut.data b (ok.owned.range _ _ refers).1) p
  data _ _ b there _ _ := cut.data b (ok.owned.range _ _ there).1

theorem Wrote.others (wrote : Wrote sb i src off tot dirty s t) : Others sb i s t where
  node j known other :=
    node_congr (wrote.icache j other) ((wrote.dinode j known).trans (if_neg other))
  addr j p known typed other := by
    have same : node sb t j = node sb s j :=
      node_congr (wrote.icache j other) ((wrote.dinode j known).trans (if_neg other))
    have all := wrote.other j p known typed other
    rwa [same] at all
  data := wrote.data

end Common

section Update

variable (session : Session sb s₀ held locked s) (mem : i ∈ locked) (running : 0 < s₀.outstanding)

include session mem running

/-- `iupdate` after a change of fields. -/
theorem update_session {f : Dinode → Dinode} (type : ∀ d, (f d).type = d.type)
    (size : ∀ d, (f d).size = d.size) (addrs : ∀ d, (f d).addrs = d.addrs) :
    Keeps (setInode i f >>= fun _ => iupdate sb i) s fun _ t =>
      Session sb s₀ held locked t ∧
      t.icache = update s.icache i { s.icache i with copy := f (s.icache i).copy } := by
  have live := session.live mem
  let s' := s.setCopy i { s.icache i with copy := f (s.icache i).copy }
  have entry : s'.icache i = { s.icache i with copy := f (s.icache i).copy } :=
    update_self i _ _
  have live' : Loaded s' i := by
    rw [Loaded, entry]
    exact live
  have first : Quiet sb s s' := quiet_setCopy session.intact.ok live (type _) (addrs _)
  have ok' := first.ok session.intact.ok
  have quiet := first.trans (updated_quiet ok' live')
  let t := updated sb s' i
  have inTrans : 0 < s'.outstanding := by
    change 0 < s.outstanding
    rwa [session.outstanding]
  have disk : ∀ j, t.dinode sb j = if j = i then f (s.icache i).copy else s.dinode sb j := by
    intro j
    rw [updated_dinode ok' live', entry]
    rfl
  have elsewhere : ∀ j, j ≠ i → t.icache j = s.icache j := fun j other =>
    update_of_ne other _ _
  have others : Others sb i s t := quiet.others session.intact.ok fun j _ other =>
    node_congr (elsewhere j other) ((disk j).trans (if_neg other))
  have copy : (t.icache i).copy = f (s.icache i).copy := congrArg Icopy.copy entry
  have alike : (t.icache i).copy.addrs = (s.icache i).copy.addrs := by rw [copy, addrs]
  have ran : (setInode i f >>= fun _ => iupdate sb i) s = .ok ((), t) := by
    have set : setInode i f s = .ok ((), s') := rfl
    rw [bind_of_ok set, iupdate_ok sb i inTrans]
  refine .of_ok ran ⟨session.edit mem others (quiet.ok session.intact.ok) rfl entry elsewhere
    (fun j _ => disk j) (type _) (fun bn below => ?_) (fun directory k inside => ?_)
    fun directory => ?_, rfl⟩
  · rw [← copy, quiet.block_live session.intact.ok live live' alike]
    rw [size] at below
    exact session.whole mem bn below
  · rw [type, ← session.node_locked mem] at directory
    rw [size] at inside
    have old := session.intact.names i (session.known mem).1 directory k
    rw [session.node_locked mem] at old
    rw [← copy, inum_congr (k := k) fun a _ below => quiet.byte_live session.intact.ok live live'
      alike (block_of_byte (session.whole mem) (by omega))]
    exact old inside
  · rw [type, ← session.node_locked mem] at directory
    exact quiet.settled session.intact.ok
      (session.intact.settled i (session.known mem).1 directory)

theorem itrunc_session : Keeps (itrunc sb i) s fun _ t => Session sb s₀ held locked t ∧
    t.icache = update s.icache i
      { s.icache i with copy := (s.icache i).copy.truncated } := by
  have live := session.live mem
  have known := session.known mem
  obtain ⟨t, ran, cut⟩ := itrunc_spec session.intact.ok live (by rwa [session.outstanding])
  have bare : NoBlocks (node sb t i) := by
    rw [node_live cut.live, cut.copy]
    exact .inr fun _ => rfl
  refine .of_ok ran ⟨session.edit mem (cut.others session.intact.ok) cut.ok cut.outstanding
    cut.copy cut.icache cut.dinode rfl (fun bn below => ?_) (fun _ k inside => ?_)
    fun _ p b there => absurd there (bare_refers bare), funext fun j => ?_⟩
  · exact absurd below (Nat.not_lt_zero _)
  · change 16 * k + 16 ≤ 0 at inside
    omega
  · by_cases self : j = i
    · rw [self, cut.copy, update_self]
    · rw [cut.icache j self, update_of_ne self]

end Update

section Contents

variable (session : Session sb s₀ held locked s) (mem : i ∈ locked)

include session mem

/-- `readi` changes nothing. -/
theorem readi_session (dst : ℕ → Bool) (off : ℕ) (uint : n < 2 ^ 32) :
    ∃ r, readi sb i dst off n s = .ok (r, s) := by
  obtain ⟨stop, -, -, ran⟩ := @readi_spec sb s i dst n off _ rfl fun _ inside =>
    present_of_holeFree (session.whole mem) uint inside
  exact ⟨_, ran⟩

omit session mem in
theorem Wrote.size (wrote : Wrote sb i src off tot dirty s t) (limit : off + tot < 2 ^ 32) :
    (t.icache i).copy.size.toNat = max (s.icache i).copy.size.toNat (off + tot) := by
  obtain ⟨addrs, copy⟩ := wrote.copy
  rw [copy]
  exact Nat.mod_eq_of_lt (Nat.max_lt.mpr ⟨(s.icache i).copy.size.isLt, limit⟩)

omit session mem in
/-- A file that gets longer has no holes. -/
theorem Wrote.whole (wrote : Wrote sb i src off tot dirty s t) (upper : tot ≤ dirty)
    (start : off ≤ (s.icache i).copy.size.toNat) (limit : off + tot < 2 ^ 32)
    (whole : HoleFree s.image (s.icache i).copy) : HoleFree t.image (t.icache i).copy := by
  intro bn below
  rw [wrote.size limit] at below
  by_cases old : bn * BSIZE < (s.icache i).copy.size.toNat
  · have there := whole bn old
    obtain ⟨p, place, here⟩ := placeOf_of_block there
    rw [here] at there
    rw [blockOf_of_place place, wrote.kept p there]
    exact there
  · have there := wrote.range (bn * BSIZE) (by omega) (by omega)
    rwa [Nat.mul_div_cancel _ (by decide)] at there

/-- What is written to a directory: one entry, which names an inode of the disk. -/
structure EntryWrite (sb : Superblock) (src : ℕ → Option UInt8) (off n : ℕ) : Prop where
  entry : off % 16 = 0
  length : n = 16
  readable : ∀ k, (src k).isSome
  inum : readLE (fun k => (src k).getD 0) 0 2 < sb.ninodes

omit session mem in
/-- All of the entry is written, or nothing. -/
theorem EntryWrite.all
    (entry : EntryWrite sb src off n) (reached : WroteTo src off n 0 tot dirty t i)
    (wrote : Wrote sb i src off tot dirty s t) : dirty = tot ∧ (tot = 0 ∨ tot = 16) := by
  have bound := reached.bound
  have length := entry.length
  rcases reached.stopped with ⟨clean, done | none⟩ | ⟨short, bad⟩
  · exact ⟨clean, .inr (by omega)⟩
  · refine ⟨clean, ?_⟩
    by_cases some : tot = 0
    · exact .inl some
    · right
      by_contra other
      have aligned := entry.entry
      have there := wrote.range off le_rfl (by omega)
      have block : off / BSIZE = (off + tot) / BSIZE := by
        unfold BSIZE
        omega
      rw [block] at there
      exact there none
  · have some := entry.readable dirty
    rw [bad] at some
    contradiction

omit session mem in
/-- The entries of a directory after one of them has been written. -/
theorem EntryWrite.names {k : ℕ}
    (entry : EntryWrite sb src off n) (reached : WroteTo src off n 0 tot dirty t i)
    (wrote : Wrote sb i src off tot dirty s t)
    (start : off ≤ (s.icache i).copy.size.toNat) (limit : off + tot < 2 ^ 32)
    (whole : HoleFree s.image (s.icache i).copy)
    (names : ∀ k, 16 * k + 16 ≤ (s.icache i).copy.size.toNat →
      readLE (byteOf s.image (s.icache i).copy) (16 * k) 2 < sb.ninodes)
    (inside : 16 * k + 16 ≤ (t.icache i).copy.size.toNat) :
    readLE (byteOf t.image (t.icache i).copy) (16 * k) 2 < sb.ninodes := by
  obtain ⟨clean, all⟩ := entry.all reached wrote
  have aligned := entry.entry
  have size := wrote.size limit
  have present : ∀ a, a < 16 * k + 16 → blockOf t.image (t.icache i).copy (a / BSIZE) ≠ 0 :=
    fun a below => block_of_byte (wrote.whole reached.upper start limit whole) (by omega)
  by_cases new : off = 16 * k ∧ tot = 16
  · -- The entry is the new one.
    have bytes : readLE (byteOf t.image (t.icache i).copy) (16 * k) 2 =
        readLE (fun k => (src k).getD 0) 0 2 := by
      have byte : ∀ a, a < 2 → byteOf t.image (t.icache i).copy (16 * k + a) = (src a).getD 0 := by
        intro a below
        rw [wrote.bytes _ (present _ (by omega)), if_pos (by omega), ← new.1,
          Nat.add_sub_cancel_left]
      have low := byte 0 (by decide)
      have high := byte 1 (by decide)
      simp only [readLE, Nat.add_zero] at low high ⊢
      rw [low, high]
    rw [bytes]
    exact entry.inum
  · -- The entry is an old one.
    have old : 16 * k + 16 ≤ (s.icache i).copy.size.toNat := by
      rw [size] at inside
      omega
    rw [inum_congr (k := k) fun a lower upper => ?_]
    · exact names k old
    · have outside : ¬(off ≤ a ∧ a < off + dirty) := by omega
      rw [wrote.bytes a (present a upper), if_neg outside, if_neg (block_of_byte whole (by omega))]

/-- `writei`; to a directory it writes one entry. -/
theorem writei_session (running : 0 < s₀.outstanding)
    (uint : n < 2 ^ 32) (entries : (s.icache i).copy.type = T_DIR → EntryWrite sb src off n) :
    Keeps (writei sb i src off n) s fun _ t => Session sb s₀ held locked t ∧
      (∀ j, j ≠ i → t.icache j = s.icache j) ∧
      (t.icache i).copy.type = (s.icache i).copy.type := by
  by_cases accepted : Writable (s.icache i).copy off n
  · have live := session.live mem
    have known := session.known mem
    have limit : MAXFILE * BSIZE = 274432 := rfl
    obtain ⟨tot, dirty, t, ran, reached, wrote, -⟩ :=
      @writei_accepts sb s i src n off session.intact.ok live
      (by rwa [session.outstanding]) accepted
    have far : off + tot < 2 ^ 32 := by
      have bound := reached.bound
      have upper := reached.upper
      have last := accepted.2
      omega
    obtain ⟨addrs, copy⟩ := wrote.copy
    have type : (t.icache i).copy.type = (s.icache i).copy.type := by rw [copy]
    have old := session.node_locked mem
    refine .of_ok ran ⟨session.edit mem (d := (t.icache i).copy) wrote.others wrote.ok
      wrote.outstanding (by rw [copy]) wrote.icache wrote.dinode type
      (wrote.whole reached.upper accepted.1 far (session.whole mem))
      (fun directory k inside => ?_) fun directory => ?_, wrote.icache, type⟩
    · have names := session.intact.names i known.1
      rw [type] at directory
      rw [old] at names
      exact (entries directory).names reached wrote accepted.1 far (session.whole mem)
        (names directory) inside
    · have settled := session.intact.settled i known.1
      rw [type] at directory
      rw [old] at settled
      exact wrote.settled ((entries directory).all reached wrote).1 (settled directory)
  · exact .of_ok (writei_rejects uint accepted) ⟨session, fun _ _ => rfl, rfl⟩

end Contents

section Allocate

/-- An inode that nobody uses gets a new type, and has no blocks before or after. -/
theorem Session.retyped {locked' : List ℕ} (session : Session sb s₀ held locked' s)
    (known : i < sb.ninodes)
    (buf : t.buf = (s.write (IBLOCK i sb) (d.store (s.image (IBLOCK i sb)) (i % IPB))).buf)
    (running : t.outstanding = s.outstanding) (elsewhere : ∀ j, j ≠ i → t.icache j = s.icache j)
    (ref : (t.icache i).ref = (s.icache i).ref)
    (idle : ¬(0 < (t.icache i).ref ∧ (t.icache i).valid = true))
    (unlocked : (t.icache i).locked = false) (addrs : ∀ k, d.addrs k = 0) (size : d.size = 0)
    (bare : NoBlocks (node sb s i)) (alone : 0 < (s₀.icache i).ref → (node sb s₀ i).type = 0)
    (locks : ∀ j, j ∈ locked ↔ j ≠ i ∧ j ∈ locked') (nodup : locked.Nodup) :
    Session sb s₀ held locked t ∧ node sb t i = d := by
  have fits : ∀ k, d.addrs k < 2 ^ 32 := by
    intro k
    rw [addrs k]
    exact Nat.two_pow_pos 32
  have dinode : ∀ j, t.dinode sb j = if j = i then d else s.dinode sb j := fun j =>
    dinode_stored fits buf
  have here : node sb t i = d := by
    unfold node
    rw [if_neg idle, dinode, if_pos rfl]
  have empty : NoBlocks (node sb t i) := by
    rw [here]
    exact .inr addrs
  have quiet := quiet_store session.intact.ok known fits buf running elsewhere
    (.inr ⟨empty, bare⟩) fun referenced valid => absurd ⟨referenced, valid⟩ idle
  have same : ∀ j, j < sb.ninodes → j ≠ i → node sb t j = node sb s j := fun j _ other =>
    node_congr (elsewhere j other) ((dinode j).trans (if_neg other))
  have intact : Intact sb t := by
    refine intact_change session.intact (quiet.others session.intact.ok same)
      (quiet.ok session.intact.ok) (fun j referenced valid => ?_) (fun j lock => ?_)
      (fun _ _ bn below => ?_) (fun _ _ k inside => ?_)
      fun _ _ p b there => absurd there (bare_refers empty)
    · have other : j ≠ i := by
        rintro rfl
        exact idle ⟨referenced, valid⟩
      rw [elsewhere j other] at referenced valid ⊢
      rw [dinode, if_neg other]
      exact session.intact.written j referenced valid
    · have other : j ≠ i := by
        rintro rfl
        rw [unlocked] at lock
        contradiction
      rw [elsewhere j other] at lock ⊢
      exact session.intact.locks j lock
    · rw [here, size] at below
      exact absurd below (Nat.not_lt_zero _)
    · rw [here, size] at inside
      change 16 * k + 16 ≤ 0 at inside
      omega
  refine ⟨⟨intact, running.trans session.outstanding, fun j => ?_, fun j referenced typed => ?_,
    fun j => ?_, nodup⟩, here⟩
  · by_cases self : j = i
    · rw [self, ref]
      exact session.refs i
    · rw [elsewhere j self]
      exact session.refs j
  · have other : j ≠ i := by
      rintro rfl
      exact typed (alone referenced)
    rw [same j (session.shared referenced) other]
    exact session.types j referenced typed
  · by_cases self : j = i
    · simp [self, unlocked, locks]
    · rw [elsewhere j self, session.locks j]
      simp [self, locks]

theorem ialloc_session (session : Session sb s₀ held locked s) (running : 0 < s₀.outstanding)
    (type : BitVec 16) :
    Keeps (ialloc sb type) s fun result t => match result with
      | none => Session sb s₀ held locked t
      | some i => (node sb t i).type = type ∧ Session sb s₀ (i :: held) locked t := by
  rw [Keeps, SafeOr, ialloc, reads_bind]
  cases found : ((range sb.ninodes).drop 1).find? fun i => (s.dinode sb i).type = 0 with
  | none =>
    exact session.same (intact_congr session.intact rfl rfl) rfl (fun _ => ⟨rfl, rfl⟩)
      fun _ _ => rfl
  | some i =>
    have free : (s.dinode sb i).type = 0 := by simpa using find?_some found
    have known : i < sb.ninodes :=
      mem_range.mp (mem_of_mem_drop (mem_of_find?_eq_some found))
    let d : Dinode := { Dinode.zero with type := type }
    let t := s.write (IBLOCK i sb) (d.store (s.image (IBLOCK i sb)) (i % IPB))
    have idle : ¬(0 < (s.icache i).ref ∧ (s.icache i).valid = true) := by
      rintro ⟨referenced, valid⟩
      obtain ⟨copy, some⟩ := (intact_entry session.intact referenced).2 valid
      rw [copy] at some
      exact some free
    have outside : i ∉ locked := fun mem => idle (session.live mem)
    have before : (node sb s i).type = 0 := by
      rw [node_disk (session.intact.written i), free]
    have alone : 0 < (s₀.icache i).ref → (node sb s₀ i).type = 0 := by
      intro referenced
      by_contra typed
      rw [session.types i referenced typed] at before
      exact typed before
    have unlocked : (s.icache i).locked = false := by simpa [← session.locks] using outside
    obtain ⟨session', here⟩ := session.retyped (t := t) (d := d) known rfl rfl (fun _ _ => rfl) rfl
      idle unlocked (fun _ => rfl) rfl (.inl before) alone
      (fun j => ⟨fun mem => ⟨fun same => outside (same ▸ mem), mem⟩, And.right⟩) session.nodup
    have inTrans : 0 < s.outstanding := by rwa [session.outstanding]
    have marked : change (IBLOCK i sb) (fun data => d.store data (i % IPB)) s = .ok ((), t) :=
      change_ok inTrans _
    refine SafeOr.bind_ok marked ((iget_session session' known).bind ?_)
    rintro - u ⟨got, buf⟩
    have same : u.dinode sb i = t.dinode sb i := by
      rw [dinode, image, buf, dinode, image]
    refine .pure ⟨?_, got⟩
    rw [node_disk (got.intact.written i), same, ← node_disk (session'.intact.written i), here]

end Allocate

section Iput

section

variable (session : Session sb s₀ (i :: held) locked s)

include session

/-- `iput` drops a reference. Nobody can have an inode locked without a reference to it. -/
theorem dropRef_session (inside : i ∈ locked → 0 < (s₀.icache i).ref + held.count i) :
    Session sb s₀ held locked (s.setCopy i { s.icache i with ref := (s.icache i).ref - 1 }) := by
  have count : (s.icache i).ref = (s₀.icache i).ref + held.count i + 1 := by
    rw [session.refs i, count_cons_self]
    omega
  refine session.cached rfl rfl rfl (fun _ => intact_entry session.intact (by omega))
    (fun lock => ?_)
    ?_ (fun j other => (count_cons_of_ne other.symm).symm) (session.locks i)
    (fun _ _ => Iff.rfl) session.nodup
  · have more := inside ((session.locks i).mp lock)
    refine ⟨?_, (session.intact.locks i lock).2⟩
    change 0 < (s.icache i).ref - 1
    omega
  · change (s.icache i).ref - 1 = _
    omega

/-- The last reference to an inode without links. -/
theorem ifree_session (running : 0 < s₀.outstanding)
    (last : (s.icache i).ref = 1) (valid : (s.icache i).valid = true) :
    Keeps (ifree sb i) s fun _ t => Session sb s₀ (i :: held) locked t := by
  have referenced : 0 < (s.icache i).ref := by omega
  have alone : (s₀.icache i).ref = 0 := by
    have count := session.refs i
    rw [last, count_cons_self] at count
    omega
  refine (acquiresleep_keeps session i).bind ?_
  rintro - - ⟨rfl, outside⟩
  have taken : Session sb s₀ (i :: held) (i :: locked)
      (s.setCopy i { s.icache i with locked := true }) :=
    session.cached rfl rfl rfl (fun _ => intact_entry session.intact referenced)
      (fun _ => ⟨referenced, valid⟩) (session.refs i) (fun _ _ => rfl) (by simp)
      (fun j other => by simp [other]) (nodup_cons.mpr ⟨outside, session.nodup⟩)
  have mem : i ∈ i :: locked := mem_cons_self
  refine (itrunc_session taken mem running).bind ?_
  rintro - s' ⟨cut, icache⟩
  obtain ⟨old, copy⟩ : ∃ old : Dinode, (s'.icache i).copy = old.truncated :=
    ⟨_, by rw [icache, update_self]⟩
  -- Its type is set to zero, on the disk, too.
  let d : Dinode := { (s'.icache i).copy with type := 0 }
  let s₁ := s'.setCopy i { s'.icache i with copy := d }
  let s₂ := (updated sb s₁ i).setCopy i { s₁.icache i with valid := false }
  let t := s₂.setCopy i { s₂.icache i with locked := false }
  have entry₁ : s₁.icache i = { s'.icache i with copy := d } := update_self i _ _
  have entry : t.icache i = { s₂.icache i with locked := false } := update_self i _ _
  have entry₂ : s₂.icache i = { s₁.icache i with valid := false } := update_self i _ _
  have ran : (do
      setInode i fun ip => { ip with type := 0 }
      iupdate sb i
      modifies fun s => s.setCopy i { s.icache i with valid := false }
      releasesleep i : DiskProg Unit) s' = .ok ((), t) := by
    have set : setInode i (fun ip => { ip with type := 0 }) s' = .ok ((), s₁) := rfl
    have inTrans : 0 < s₁.outstanding := by
      change 0 < s'.outstanding
      rwa [cut.outstanding]
    rw [bind_of_ok set, bind_of_ok (iupdate_ok sb i inTrans)]
    rfl
  refine .of_ok ran (cut.retyped (t := t) (d := d) (cut.known mem).1 ?_ rfl (fun j other => ?_) ?_
    ?_ (by rw [entry]) (fun k => ?_) ?_ ?_ (fun some => ?_) (fun j => ?_) session.nodup).1
  · change (s₁.write _ ((s₁.icache i).copy.store _ _)).buf = _
    rw [entry₁]
    rfl
  · change update (update (update s'.icache i _) i _) i _ j = _
    rw [update_of_ne other, update_of_ne other, update_of_ne other]
  · rw [entry, entry₂, entry₁]
  · rw [entry, entry₂]
    nofun
  · change (s'.icache i).copy.addrs k = 0
    rw [copy]
    rfl
  · change (s'.icache i).copy.size = 0
    rw [copy]
    rfl
  · rw [cut.node_locked mem, copy]
    exact .inr fun _ => rfl
  · omega
  · rw [mem_cons]
    exact ⟨fun inside => ⟨fun same => outside (same ▸ inside), .inr inside⟩,
      fun ⟨other, inside⟩ => inside.resolve_left other⟩

theorem iput_session (running : 0 < s₀.outstanding)
    (inside : i ∈ locked → 0 < (s₀.icache i).ref + held.count i) :
    Keeps (iput sb i) s fun _ t => Session sb s₀ held locked t := by
  refine .bind_reads ?_
  by_cases last : (s.icache i).ref = 1 ∧ (s.icache i).valid = true ∧ (s.icache i).copy.nlink = 0
  · rw [if_pos last]
    refine (ifree_session session running last.1 last.2.1).bind ?_
    rintro - t freed
    exact .of_ok rfl (dropRef_session freed inside)
  · rw [if_neg last]
    exact .of_ok rfl (dropRef_session session inside)

end

theorem iunlockput_session (session : Session sb s₀ (i :: held) (i :: locked) s)
    (running : 0 < s₀.outstanding) :
    Keeps (iunlockput sb i) s fun _ t => Session sb s₀ held locked t := by
  have fresh := (nodup_cons.mp session.nodup).1
  refine (iunlock_session session).bind ?_
  rintro - t ⟨unlocked, -⟩
  exact iput_session unlocked running fun mem => absurd mem fresh

end Iput

end Xv6Cos.Verif
