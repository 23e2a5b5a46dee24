import Xv6Cos.Verif.InodeUpdate

/-!
# `itrunc` gives back what the inode owns

The entries of the indirect block are freed one by one while the block still lists them. The
references that are left are those of the disk before, without the places that have been visited.
-/

namespace Xv6Cos.Verif

open Kernel Spec Bytes Program Ownership Function List Disk Fin

variable {sb : Superblock} {s t : Disk} {i j b b' : ℕ} {gone' : Place → Bool} {ps : List Place}

section Free

/-- `bfree` has freed the block. -/
def freeBlock (sb : Superblock) (s : Disk) (b : ℕ) : Disk :=
  s.write (BBLOCK b sb) (clearBit (s.image (BBLOCK b sb)) (b % BPB))

theorem bfree_ok (running : 0 < s.outstanding) (used : s.used sb b = true) :
    bfree sb b s = .ok ((), freeBlock sb s b) := by
  have ran : (Program.reads fun s : Disk => s.used sb b : DiskProg Bool) s = .ok (true, s) := by
    rw [← used]
    rfl
  rw [bfree, bind_of_ok ran, if_pos rfl, change_ok running]
  rfl

theorem free_used : (freeBlock sb s b).used sb b' = update (s.used sb) b false b' := by
  refine used_write_bitmap clearBit false fun m i j => ?_
  rw [getBit_clearBit]
  by_cases here : j = i
  · simp [here]
  · simp [here]

theorem free_dinode (sound : Sound sb) (known : j < sb.ninodes) :
    (freeBlock sb s b).dinode sb j = s.dinode sb j :=
  dinode_write_bitmap sound known

theorem free_buf (sound : Sound sb) (inside : b < sb.size) (above : sb.nmeta ≤ b') :
    (freeBlock sb s b).buf b' = s.buf b' := by
  have below := sound.bitmap b inside
  exact update_of_ne (by omega) _ _

end Free

section Freeing

/-- The inode has given up the blocks at some places; in memory the addresses there are zero. -/
structure Freeing (sb : Superblock) (i : ℕ) (gone : Place → Bool) (s t : Disk) : Prop where
  outstanding : t.outstanding = s.outstanding
  icache : ∀ j, j ≠ i → t.icache j = s.icache j
  copy : t.icache i = { s.icache i with copy := { (s.icache i).copy with
    addrs := fun k => if gone (.addr k) then 0 else (s.icache i).copy.addrs k } }
  dinode : ∀ j, j < sb.ninodes → t.dinode sb j = s.dinode sb j
  data : ∀ b, sb.nmeta ≤ b → t.buf b = s.buf b
  logged : ∀ b, b < sb.nmeta → (t.buf b).home = t.image b
  owned : Owned sb.nmeta sb.size
    (fun a b => References sb s a b ∧ ¬(a.1 = i ∧ gone a.2 = true)) (t.used sb)

variable {gone : Place → Bool} {p : Place}

theorem Freeing.start (ok : DiskOk sb s) : Freeing sb i (fun _ => false) s s where
  outstanding := rfl
  icache _ _ := rfl
  copy := by simp
  dinode _ _ := rfl
  data _ _ := rfl
  logged b low := ok.logged b (.inl low)
  owned := ok.owned.congr (fun a b => by simp) fun _ _ => rfl

section

variable (freeing : Freeing sb i gone s t)

include freeing

theorem Freeing.live (live : Loaded s i) : Loaded t i := by
  rw [Loaded, freeing.copy]
  exact live

/-- The block of a place that has not been visited is used. -/
theorem Freeing.used (refers : References sb s (i, p) b)
    (here : gone p = false) : t.used sb b = true := by
  have left : References sb s (i, p) b ∧ ¬((i, p).1 = i ∧ gone (i, p).2 = true) :=
    ⟨refers, fun both => by simp [here] at both⟩
  exact freeing.owned.used_of_refers left

/-- The references that are left when one more place has been visited. -/
theorem Freeing.left (refers : References sb s (i, p) b)
    (here : gone p = false) (a : ℕ × Place) (b' : ℕ) :
    (References sb s a b' ∧ ¬(a.1 = i ∧ update gone p true a.2 = true)) ↔
      (References sb s a b' ∧ ¬(a.1 = i ∧ gone a.2 = true)) ∧ b' ≠ b := by
  have mine : References sb s (i, p) b ∧ ¬((i, p).1 = i ∧ gone (i, p).2 = true) :=
    ⟨refers, fun both => by simp [here] at both⟩
  constructor
  · rintro ⟨there, apart⟩
    have still : ¬(a.1 = i ∧ gone a.2 = true) := by
      rintro ⟨same, visited⟩
      refine apart ⟨same, ?_⟩
      by_cases place : a.2 = p
      · rw [place, update_self]
      · rwa [update_of_ne place]
    refine ⟨⟨there, still⟩, ?_⟩
    rintro rfl
    have same := freeing.owned.once a (i, p) b' ⟨there, still⟩ mine
    rw [same] at apart
    exact apart ⟨rfl, update_self p true gone⟩
  · rintro ⟨⟨there, still⟩, other⟩
    refine ⟨there, ?_⟩
    rintro ⟨same, visited⟩
    by_cases place : a.2 = p
    · have all : a = (i, p) := Prod.ext same place
      rw [all] at there
      exact other (there.2.2.1.symm.trans refers.2.2.1)
    · rw [update_of_ne place] at visited
      exact still ⟨same, visited⟩

/-- `bfree` of the block at a place, whose address is then cleared if it is in the inode. -/
theorem Freeing.visit (ok : DiskOk sb s)
    (refers : References sb s (i, p) b) (here : gone p = false) {after : Disk}
    (buf : after.buf = (freeBlock sb t b).buf) (running : after.outstanding = t.outstanding)
    (icache : ∀ j, j ≠ i → after.icache j = t.icache j)
    (copy : after.icache i = { s.icache i with copy := { (s.icache i).copy with
      addrs := fun k => if update gone p true (.addr k) then 0
        else (s.icache i).copy.addrs k } }) :
    Freeing sb i (update gone p true) s after := by
  have range := ok.owned.range _ _ refers
  have image : after.image = (freeBlock sb t b).image := by
    funext b'
    rw [Disk.image, buf, Disk.image]
  refine ⟨running.trans freeing.outstanding, fun j other => ?_, copy, fun j known => ?_,
    fun b' above => ?_, fun b' low => ?_, ?_⟩
  · rw [icache j other, freeing.icache j other]
  · rw [Disk.dinode, image]
    exact (free_dinode ok.sound known).trans (freeing.dinode j known)
  · rw [buf, free_buf ok.sound range.2 above, freeing.data b' above]
  · rw [buf, image]
    exact write_logged fun _ => freeing.logged b' low
  · refine freeing.owned.release range.1 (freeing.left refers here) fun b' inside => ?_
    rw [Disk.used, image]
    exact free_used

theorem Freeing.visitAddr {k : Fin (NDIRECT + 1)} (ok : DiskOk sb s)
    (refers : References sb s (i, .addr k) b) (here : gone (.addr k) = false) :
    Freeing sb i (update gone (.addr k) true) s ((freeBlock sb t b).setCopy i
      { t.icache i with copy := (t.icache i).copy.setAddr k 0 }) := by
  refine freeing.visit ok refers here rfl rfl (fun j other => update_of_ne other _ _) ?_
  change update t.icache i _ i = _
  rw [update_self, freeing.copy, Dinode.setAddr]
  congr 2
  funext k'
  by_cases same : k' = k
  · simp [same]
  · simp [same]

end

/-- What a loop of `itrunc` has visited, of the places `ps`. -/
structure Visited (s : Disk) (i : ℕ) (ps : List Place) (gone gone' : Place → Bool) : Prop where
  kept : ∀ p, gone p = true → gone' p = true
  done : ∀ p ∈ ps, gone' p = true ∨ addrOf s.image (s.icache i).copy p = 0
  only : ∀ p, gone' p = true → gone p = true ∨ p ∈ ps

theorem Visited.nil (gone : Place → Bool) : Visited s i [] gone gone :=
  ⟨fun _ old => old, nofun, fun _ old => .inl old⟩

/-- A place without a block. -/
theorem Visited.skip (rest : Visited s i ps gone gone')
    (none : gone p = true ∨ addrOf s.image (s.icache i).copy p = 0) :
    Visited s i (p :: ps) gone gone' where
  kept := rest.kept
  done q mem := by
    rcases mem_cons.mp mem with rfl | later
    · exact none.imp_left (rest.kept q)
    · exact rest.done q later
  only q new := (rest.only q new).imp_right (mem_cons_of_mem p)

/-- A place whose block has been freed. -/
theorem Visited.step (rest : Visited s i ps (update gone p true) gone') :
    Visited s i (p :: ps) gone gone' where
  kept q old := by
    refine rest.kept q ?_
    by_cases here : q = p
    · rw [here, update_self]
    · rwa [update_of_ne here]
  done q mem := by
    rcases mem_cons.mp mem with rfl | later
    · exact .inl (rest.kept q (update_self q true gone))
    · exact rest.done q later
  only q new := by
    rcases rest.only q new with old | later
    · by_cases here : q = p
      · rw [here]
        exact .inr mem_cons_self
      · rw [update_of_ne here] at old
        exact .inl old
    · exact .inr (mem_cons_of_mem p later)

/-- The loop over addresses in the inode. -/
theorem freeDirect_spec (ok : DiskOk sb s) (live : Loaded s i) (running : 0 < s.outstanding)
    (ks : List (Fin (NDIRECT + 1))) (freeing : Freeing sb i gone s t) :
    ∃ gone' after, freeDirect sb i ks t = .ok ((), after) ∧ Freeing sb i gone' s after ∧
      Visited s i (ks.map .addr) gone gone' := by
  induction ks generalizing gone t with
  | nil => exact ⟨gone, t, rfl, freeing, .nil gone⟩
  | cons k ks ih =>
    have ran : inode i t = .ok ((t.icache i).copy, t) := rfl
    have addr : (t.icache i).copy.addrs k =
        if gone (.addr k) then 0 else (s.icache i).copy.addrs k := by
      rw [freeing.copy]
    by_cases none : (t.icache i).copy.addrs k = 0
    · obtain ⟨gone', after, done, freeing', visited⟩ := ih freeing
      refine ⟨gone', after, ?_, freeing', visited.skip ?_⟩
      · rw [freeDirect, bind_of_ok ran, if_neg (not_not.mpr none)]
        exact done
      · rw [addr] at none
        by_cases first : gone (.addr k) = true
        · exact .inl first
        · rw [if_neg first] at none
          exact .inr none
    · have here : gone (.addr k) = false := by
        by_contra visited
        rw [addr, if_pos (by simpa using visited)] at none
        exact none rfl
      rw [here] at addr
      have old : (t.icache i).copy.addrs k = (s.icache i).copy.addrs k := addr
      have refers : References sb s (i, .addr k) ((t.icache i).copy.addrs k) := by
        rw [old] at none ⊢
        exact refers_of_live ok live (p := .addr k) none
      have freed := bfree_ok (freeing.outstanding ▸ running) (freeing.used refers here)
      let b := (t.icache i).copy.addrs k
      let next := (freeBlock sb t b).setCopy i
        { t.icache i with copy := (t.icache i).copy.setAddr k 0 }
      obtain ⟨gone', after, done, freeing', visited⟩ := ih (freeing.visitAddr ok refers here)
      refine ⟨gone', after, ?_, freeing', visited.step⟩
      have cleared : setInode i (fun ip => ip.setAddr k 0) (freeBlock sb t b) =
          .ok ((), next) := rfl
      rw [freeDirect, bind_of_ok ran, if_pos none]
      change (bfree sb b >>= fun _ => _) t = _
      rw [bind_of_ok freed]
      change (setInode i _ >>= fun _ => _) _ = _
      rw [bind_of_ok cleared]
      exact done

/-- The loop over the indirect block. -/
theorem freeEntries_spec (ok : DiskOk sb s) (live : Loaded s i) (running : 0 < s.outstanding)
    (indirect : (s.icache i).copy.addrs INDIRECT ≠ 0) (js : List ℕ)
    (inside : ∀ j ∈ js, j < NINDIRECT) (distinct : js.Nodup)
    (freeing : Freeing sb i gone s t)
    (fresh : ∀ j (mem : j ∈ js), gone (.entry ⟨j, inside j mem⟩) = false) :
    ∃ gone' after, freeEntries sb ((s.icache i).copy.addrs INDIRECT) js t = .ok ((), after) ∧
      Freeing sb i gone' s after ∧
      Visited s i (js.pmap (fun j below => .entry ⟨j, below⟩) inside) gone gone' := by
  induction js generalizing gone t with
  | nil => exact ⟨gone, t, rfl, freeing, .nil gone⟩
  | cons j js ih =>
    let ib := (s.icache i).copy.addrs INDIRECT
    let place : Place := .entry ⟨j, inside j mem_cons_self⟩
    have above := (ok.owned.range _ _ (refers_of_live ok live (p := .addr INDIRECT) indirect)).1
    have ran : bread ib t = .ok (s.image ib, t) := by
      have image : t.image ib = s.image ib := by
        rw [Disk.image, freeing.data ib above, Disk.image]
      rw [← image]
      rfl
    have entry : addrOf s.image (s.icache i).copy place = readLE (s.image ib) (4 * j) 4 := by
      rw [addrOf, if_neg indirect]
      rfl
    have here : gone place = false := fresh j mem_cons_self
    have later : ∀ j' ∈ js, j' < NINDIRECT := fun j' mem => inside j' (mem_cons_of_mem j mem)
    have distinct' := (nodup_cons.mp distinct).2
    have apart := (nodup_cons.mp distinct).1
    by_cases none : readLE (s.image ib) (4 * j) 4 = 0
    · obtain ⟨gone', after, done, freeing', visited⟩ := ih later distinct' freeing
        fun j' mem => fresh j' (mem_cons_of_mem j mem)
      refine ⟨gone', after, ?_, freeing', visited.skip (.inr (entry.trans none))⟩
      rw [freeEntries, bind_of_ok ran, if_neg (not_not.mpr none)]
      exact done
    · let b := readLE (s.image ib) (4 * j) 4
      have refers : References sb s (i, place) b := by
        rw [← entry] at none
        change References sb s (i, place) (readLE (s.image ib) (4 * j) 4)
        rw [← entry]
        exact refers_of_live ok live none
      have freed := bfree_ok (freeing.outstanding ▸ running) (freeing.used refers here)
      have step : Freeing sb i (update gone place true) s (freeBlock sb t b) := by
        refine freeing.visit ok refers here rfl rfl (fun _ _ => rfl) ?_
        change t.icache i = _
        rw [freeing.copy]
        congr 2
      obtain ⟨gone', after, done, freeing', visited⟩ := ih later distinct' step fun j' mem => by
        have other : Place.entry ⟨j', later j' mem⟩ ≠ place := by
          intro same
          have value : j' = j := congrArg val (Place.entry.inj same)
          exact apart (value ▸ mem)
        rw [update_of_ne other]
        exact fresh j' (mem_cons_of_mem j mem)
      refine ⟨gone', after, ?_, freeing', visited.step⟩
      rw [freeEntries, bind_of_ok ran, if_pos none]
      change (bfree sb b >>= fun _ => _) t = _
      rw [bind_of_ok freed]
      exact done

/-- All places have been visited. -/
theorem Freeing.finish (freeing : Freeing sb i gone s t) (ok : DiskOk sb s) (live : Loaded s i)
    (all : ∀ p, gone p = true ∨ addrOf s.image (s.icache i).copy p = 0) :
    DiskOk sb t ∧ ∀ k, (t.icache i).copy.addrs k = 0 := by
  have zero : ∀ k, (t.icache i).copy.addrs k = 0 := by
    intro k
    rw [freeing.copy]
    rcases all (.addr k) with visited | none
    · simp [visited]
    · simp only [addrOf] at none
      simp [none]
  have refers : ∀ a b, References sb t a b ↔
      References sb s a b ∧ ¬(a.1 = i ∧ gone a.2 = true) := by
    rintro ⟨j, p⟩ b
    by_cases here : j = i
    · subst here
      have bare : NoBlocks (node sb t j) := by
        rw [node_live (freeing.live live)]
        exact .inr zero
      refine ⟨fun refers => absurd refers (bare_refers bare), ?_⟩
      rintro ⟨⟨-, -, address, nonzero⟩, still⟩
      rcases all p with visited | none
      · exact absurd ⟨rfl, visited⟩ still
      · change addrOf s.image (node sb s j) p = b at address
        rw [node_live live, none] at address
        exact absurd address.symm nonzero
    · by_cases known : j < sb.ninodes
      · have same : node sb t j = node sb s j :=
          node_congr (freeing.icache j here) (freeing.dinode j known)
        have address : (node sb s j).type ≠ 0 →
            addrOf t.image (node sb s j) p = addrOf s.image (node sb s j) p :=
          fun typed => addrOf_same known typed
            (fun b refers => freeing.data b (ok.owned.range _ _ refers).1) p
        constructor
        · rintro ⟨-, typed, found, nonzero⟩
          rw [same] at typed found
          rw [address typed] at found
          exact ⟨⟨known, typed, found, nonzero⟩, fun both => here both.1⟩
        · rintro ⟨⟨-, typed, found, nonzero⟩, -⟩
          refine ⟨known, by rwa [same], ?_, nonzero⟩
          rw [same, address typed]
          exact found
      · exact ⟨fun refers => absurd refers.1 known, fun refers => absurd refers.1.1 known⟩
  refine ⟨⟨ok.sound, freeing.owned.congr refers fun _ _ => rfl, fun b needed => ?_,
    fun j there => ?_⟩,
    zero⟩
  · rcases needed with low | ⟨j, indirect⟩
    · exact freeing.logged b low
    · have old := ((refers _ _).mp indirect).1
      have above := (ok.owned.range _ _ old).1
      rw [freeing.data b above, Disk.image, freeing.data b above]
      exact ok.logged b (.inr ⟨j, old⟩)
  · by_cases here : j = i
    · rw [here, freeing.copy]
      exact ok.entries i live.1
    · rw [freeing.icache j here] at there ⊢
      exact ok.entries j there

end Freeing

section Itrunc

/-- The effect of `itrunc`. -/
structure Truncated (sb : Superblock) (i : ℕ) (s t : Disk) : Prop where
  ok : DiskOk sb t
  live : Loaded t i
  outstanding : t.outstanding = s.outstanding
  icache : ∀ j, j ≠ i → t.icache j = s.icache j
  copy : t.icache i = { s.icache i with copy := (s.icache i).copy.truncated }
  dinode : ∀ j, j < sb.ninodes →
    t.dinode sb j = if j = i then (s.icache i).copy.truncated else s.dinode sb j
  data : ∀ b, sb.nmeta ≤ b → t.buf b = s.buf b

/-- `itrunc` frees every place. -/
theorem freeAll_spec (ok : DiskOk sb s) (live : Loaded s i) (running : 0 < s.outstanding) :
    ∃ gone mid t, freeDirect sb i ((List.finRange NDIRECT).map castSucc) s = .ok ((), mid) ∧
      freeIndirect sb i mid = .ok ((), t) ∧
      Freeing sb i gone s t ∧ ∀ p, gone p = true ∨ addrOf s.image (s.icache i).copy p = 0 := by
  obtain ⟨gone₁, t₁, ran₁, freeing₁, visited₁⟩ := freeDirect_spec ok live running
    ((List.finRange NDIRECT).map castSucc) (Freeing.start ok)
  have later : ∀ p, (∀ k : Fin NDIRECT, p ≠ .addr k.castSucc) → gone₁ p = false := by
    intro p other
    by_contra visited
    rcases visited₁.only p (by simpa using visited) with old | mem
    · contradiction
    · obtain ⟨k, inner, rfl⟩ := mem_map.mp mem
      obtain ⟨k', -, rfl⟩ := mem_map.mp inner
      exact other k' rfl
  have direct : ∀ k : Fin NDIRECT, gone₁ (.addr k.castSucc) = true ∨
      addrOf s.image (s.icache i).copy (.addr k.castSucc) = 0 := fun k =>
    visited₁.done _ (mem_map_of_mem (mem_map_of_mem (mem_finRange k)))
  have last : gone₁ (.addr INDIRECT) = false := later _ fun k same =>
    absurd (Place.addr.inj same) (castSucc_lt_last k).ne'
  have copy : (t₁.icache i).copy.addrs INDIRECT = (s.icache i).copy.addrs INDIRECT := by
    rw [freeing₁.copy]
    simp [last]
  have read : inode i t₁ = .ok ((t₁.icache i).copy, t₁) := rfl
  by_cases none : (s.icache i).copy.addrs INDIRECT = 0
  · refine ⟨gone₁, t₁, t₁, ran₁, ?_, freeing₁, fun p => ?_⟩
    · rw [freeIndirect, bind_of_ok read, copy, if_neg (not_not.mpr none)]
      rfl
    · cases p with
      | addr k =>
        induction k using lastCases with
        | last => exact .inr none
        | cast k => exact direct k
      | entry j => exact .inr (by rw [addrOf, if_pos none])
  · have inside : ∀ j ∈ List.range NINDIRECT, j < NINDIRECT := fun j => mem_range.mp
    obtain ⟨gone₂, t₂, ran₂, freeing₂, visited₂⟩ := freeEntries_spec ok live running none
      (List.range NINDIRECT) inside nodup_range freeing₁ fun j _ => later _ (by simp)
    have still : gone₂ (.addr INDIRECT) = false := by
      by_contra visited
      rcases visited₂.only _ (by simpa using visited) with old | mem
      · exact Bool.noConfusion (last.symm.trans old)
      · obtain ⟨j, _, same⟩ := mem_pmap.mp mem
        exact Place.noConfusion same
    let ib := (s.icache i).copy.addrs INDIRECT
    have refers : References sb s (i, .addr INDIRECT) ib :=
      refers_of_live ok live (p := .addr INDIRECT) none
    have freed := bfree_ok (freeing₂.outstanding ▸ running) (freeing₂.used refers still)
    let t₃ := (freeBlock sb t₂ ib).setCopy i
      { t₂.icache i with copy := (t₂.icache i).copy.setAddr INDIRECT 0 }
    refine ⟨_, t₁, t₃, ran₁, ?_, freeing₂.visitAddr ok refers still, fun p => ?_⟩
    · have cleared : setInode i (fun ip => ip.setAddr INDIRECT 0) (freeBlock sb t₂ ib) =
          .ok ((), t₃) := rfl
      rw [freeIndirect, bind_of_ok read, copy, if_pos none, bind_of_ok ran₂, bind_of_ok freed,
        cleared]
    · have done : p ≠ .addr INDIRECT → gone₂ p = true ∨ addrOf s.image (s.icache i).copy p = 0 := by
        intro other
        cases p with
        | addr k =>
          induction k using lastCases with
          | last => exact absurd rfl other
          | cast k => exact (direct k).imp_left (visited₂.kept _)
        | entry j => exact visited₂.done _ (mem_pmap.mpr ⟨j, mem_range.mpr j.isLt, rfl⟩)
      by_cases here : p = .addr INDIRECT
      · rw [here, update_self]
        exact .inl rfl
      · rw [update_of_ne here]
        exact done here

theorem itrunc_spec (ok : DiskOk sb s) (live : Loaded s i) (running : 0 < s.outstanding) :
    ∃ t, itrunc sb i s = .ok ((), t) ∧ Truncated sb i s t := by
  obtain ⟨gone, _, mid, direct, indirect, freeing, all⟩ := freeAll_spec ok live running
  obtain ⟨midOk, zero⟩ := freeing.finish ok live all
  have midLive := freeing.live live
  let d : Dinode := { (mid.icache i).copy with size := 0 }
  have shape : d = (s.icache i).copy.truncated := by
    have addrs : (mid.icache i).copy.addrs = fun _ => 0 := funext zero
    change ({ (mid.icache i).copy with size := 0 } : Dinode) = _
    rw [Dinode.truncated, ← addrs, freeing.copy]
  let sized := mid.setCopy i { mid.icache i with copy := d }
  have entry : sized.icache i = { mid.icache i with copy := d } := update_self i _ _
  have first : Quiet sb mid sized := quiet_setCopy midOk midLive rfl rfl
  have sizedOk := first.ok midOk
  have sizedLive : Loaded sized i := by
    rw [Loaded, entry]
    exact midLive
  have second : Quiet sb sized (updated sb sized i) := updated_quiet sizedOk sizedLive
  have quiet := first.trans second
  refine ⟨updated sb sized i, ?_, ⟨quiet.ok midOk, sizedLive, ?_, fun j other => ?_, ?_,
    fun j known => ?_, fun b above => ?_⟩⟩
  · have set : setInode i (fun ip => { ip with size := 0 }) mid = .ok ((), sized) := rfl
    have running' : 0 < sized.outstanding := by
      rw [first.outstanding, freeing.outstanding]
      exact running
    rw [itrunc, bind_of_ok direct, bind_of_ok indirect, bind_of_ok set,
      iupdate_ok sb i running']
  · rw [quiet.outstanding, freeing.outstanding]
  · change update mid.icache i _ j = _
    rw [update_of_ne other, freeing.icache j other]
  · change sized.icache i = _
    rw [entry, shape, freeing.copy]
  · rw [updated_dinode sizedOk sizedLive, entry]
    by_cases here : j = i
    · rw [if_pos here, if_pos here]
      exact shape
    · rw [if_neg here, if_neg here]
      exact freeing.dinode j known
  · rw [quiet.data b above, freeing.data b above]

end Itrunc

end Xv6Cos.Verif
