import Xv6Cos.Lib.Ring
import Xv6Cos.Spec.Virtio
import Mathlib.Data.List.Perm.Subperm

/-!
# Requests to the disk

Every chain that the driver has passed to the device is in one place: in the available ring, with
the device, or in the used ring, until the interrupt handler clears the busy flag of its buffer.
The descriptors of the chain stay with it until the process that made the request returns.
-/

namespace Xv6Cos.Verif

open Kernel Spec Program Transition Function List

section Descriptors

variable {ι β : Type} {s t : DriverState ι β} {i : ℕ}

/-- The state with another `disk`. -/
def withDisk (s : DriverState ι β) (disk : VirtioDisk β) : DriverState ι β :=
  { s with disk := disk }

/-- `alloc_desc` takes a free descriptor if there is one. -/
theorem allocDesc_cases : allocDesc s = .ok (none, s) ∨
    ∃ i < NUM, s.disk.free i = true ∧ allocDesc s = .ok (some i, withDisk s
      { s.disk with free := update s.disk.free i false }) := by
  unfold allocDesc
  cases found : (List.range NUM).find? s.disk.free with
  | none =>
    left
    rw [bind_of_ok (a := none) (t := s) (by rw [reads, found])]
    rfl
  | some i =>
    right
    refine ⟨i, mem_range.mp (List.mem_of_find?_eq_some found), List.find?_some found, ?_⟩
    rw [bind_of_ok (a := some i) (t := s) (by rw [reads, found])]
    rfl

variable [DecidableEq β]

/-- The processes that sleep after `wakeup(chan)`. -/
def awake (asleep : ι → Option (DiskChan β)) (chan : DiskChan β) : ι → Option (DiskChan β) :=
  fun p => if asleep p = some chan then none else asleep p

/-- The state after `free_desc`. -/
def freed (s : DriverState ι β) (i : ℕ) : DriverState ι β :=
  { s with
    disk := { s.disk with
      desc := update s.disk.desc i .cleared
      free := update s.disk.free i true }
    asleep := awake s.asleep .free }

theorem freeDesc_eq (low : i < NUM) (used : s.disk.free i = false) :
    freeDesc i s = .ok ((), freed s i) := by
  unfold freeDesc
  rw [bind_of_ok (a := false) (t := s) (by rw [reads, used]), if_neg (Nat.not_le.mpr low),
    if_neg Bool.false_ne_true]
  rfl

/-- Nothing of interest has changed: free descriptors may have been cleared, and processes
woken. -/
structure Idles (s t : DriverState ι β) : Prop where
  rest : t = { s with disk := t.disk, asleep := t.asleep }
  disk : t.disk = { s.disk with desc := t.disk.desc }
  desc : ∀ i, s.disk.free i = false → t.disk.desc i = s.disk.desc i

/-- `alloc3_desc` takes three free descriptors or none. -/
theorem alloc3Desc_spec : Safe alloc3Desc s fun result t =>
    match result with
    | none => Idles s t
    | some (i, j, k) => (i < NUM ∧ j < NUM ∧ k < NUM) ∧ [i, j, k].Nodup ∧
        (s.disk.free i = true ∧ s.disk.free j = true ∧ s.disk.free k = true) ∧
        t = withDisk s { s.disk with free := update (update
          (update s.disk.free i false) j false) k false } := by
  unfold alloc3Desc
  rcases allocDesc_cases (s := s) with none | ⟨i, low, free, some⟩
  · refine .bind_ok none ?_
    exact .pure ⟨rfl, rfl, fun _ _ => rfl⟩
  refine .bind_ok some ?_
  rcases allocDesc_cases (s := withDisk s { s.disk with
    free := update s.disk.free i false }) with none | ⟨j, low', free', some'⟩
  · refine .bind_ok none ?_
    refine .bind_ok (freeDesc_eq low (update_self ..)) ?_
    refine .pure ⟨rfl, ?_, fun k used => ?_⟩
    · simp only [withDisk, freed, update_idem]
      rw [← free, update_eq_self]
    · rcases eq_or_ne k i with rfl | other
      · rw [free] at used
        contradiction
      · exact update_of_ne other ..
  have apart : j ≠ i := by
    rintro rfl
    simp [withDisk] at free'
  have free₁ : s.disk.free j = true := by
    simpa [withDisk, apart] using free'
  refine .bind_ok some' ?_
  rcases allocDesc_cases (s := withDisk s { s.disk with
    free := update (update s.disk.free i false) j false })
    with none | ⟨k, low'', free'', some''⟩
  · refine .bind_ok none ?_
    have used : update (update s.disk.free i false) j false i = false := by
      rw [update_of_ne apart.symm, update_self]
    refine .bind_ok (freeDesc_eq low used) ?_
    have used' : update (update (update s.disk.free i false) j false)
        i true j = false := by
      rw [update_of_ne apart, update_self]
    refine .bind_ok (freeDesc_eq low' used') ?_
    refine .pure ⟨rfl, ?_, fun k busy => ?_⟩
    · simp only [withDisk, freed]
      congr 1
      funext k
      rcases eq_or_ne k j with rfl | other
      · rw [update_self, free₁]
      · rcases eq_or_ne k i with rfl | other'
        · rw [update_of_ne other, update_self, free]
        · simp [other, other']
    · have other : k ≠ i := by
        rintro rfl
        rw [free] at busy
        contradiction
      have other' : k ≠ j := by
        rintro rfl
        rw [free₁] at busy
        contradiction
      exact (update_of_ne other' ..).trans (update_of_ne other ..)
  have apart' : k ≠ j := by
    rintro rfl
    simp [withDisk] at free''
  have apart'' : k ≠ i := by
    rintro rfl
    simp [withDisk, apart'] at free''
  have free₂ : s.disk.free k = true := by
    simpa [withDisk, apart', apart''] using free''
  refine .bind_ok some'' (.pure ⟨⟨low, low', low''⟩, ?_, ⟨free, free₁, free₂⟩, rfl⟩)
  simp [apart.symm, apart'.symm, apart''.symm]

/-- `free_chain` goes on where the descriptor points to. -/
theorem freeChain_next {left : ℕ} (low : i < NUM) (used : s.disk.free i = false)
    (more : (s.disk.desc i).hasNext = true) :
    freeChain (left + 1) i s = freeChain left (s.disk.desc i).next (freed s i) := by
  rw [freeChain, bind_of_ok (a := s.disk.desc i) (t := s) rfl, bind_of_ok (freeDesc_eq low used),
    if_pos more]

/-- `free_chain` ends at the last descriptor. -/
theorem freeChain_last {left : ℕ} (low : i < NUM) (used : s.disk.free i = false)
    (last : (s.disk.desc i).hasNext = false) :
    freeChain (left + 1) i s = .ok ((), freed s i) := by
  rw [freeChain, bind_of_ok (a := s.disk.desc i) (t := s) rfl, bind_of_ok (freeDesc_eq low used),
    if_neg (by rw [last]; exact Bool.false_ne_true)]
  rfl

/-- The driver's view of a request that the device has. -/
structure Chained (free : ℕ → Bool) (desc : ℕ → Desc β) (ops : ℕ → BlkReq) (r : DiskRequest β) :
    Prop where
  low : ∀ i ∈ r.idx, i < NUM
  distinct : r.idx.Nodup
  used : ∀ i ∈ r.idx, free i = false
  head : desc r.head = ⟨.op r.head, 16, true, false, r.body⟩
  body : desc r.body = ⟨.data r.b, 1024, true, !r.write, r.tail⟩
  tail : desc r.tail = ⟨.status r.head, 1, false, true, 0⟩
  op : ops r.head = ⟨r.write, r.sector⟩

/-- `free_chain` of a request frees its three descriptors. -/
theorem freeChain_eq {r : DiskRequest β} (chained : Chained s.disk.free s.disk.desc s.disk.ops r) :
    freeChain (NUM + 1) r.head s = .ok ((), freed (freed (freed s r.head) r.body) r.tail) := by
  obtain ⟨b, blockno, write, i, j, k⟩ := r
  obtain ⟨low, distinct, used, head, body, tail, -⟩ := chained
  simp only [DiskRequest.idx, mem_cons, not_mem_nil, or_false, forall_eq_or_imp,
    forall_eq, nodup_cons, nodup_nil, not_or, not_false_iff, and_true] at *
  obtain ⟨low₀, low₁, low₂⟩ := low
  obtain ⟨used₀, used₁, used₂⟩ := used
  obtain ⟨⟨ij, ik⟩, jk⟩ := distinct
  have used₁' : (freed s i).disk.free j = false := by
    simp [freed, Ne.symm ij, used₁]
  have body' : (freed s i).disk.desc j = s.disk.desc j := by
    simp [freed, Ne.symm ij]
  have used₂' : (freed (freed s i) j).disk.free k = false := by
    simp [freed, Ne.symm ik, Ne.symm jk, used₂]
  have tail' : (freed (freed s i) j).disk.desc k = s.disk.desc k := by
    simp [freed, Ne.symm ik, Ne.symm jk]
  rw [freeChain_next low₀ used₀ (by rw [head]), head, freeChain_next low₁ used₁'
    (by rw [body', body]),
    body', body, freeChain_last low₂ used₂' (by rw [tail', tail])]

end Descriptors

section Invariant

variable {ι β : Type} {s t : DriverState ι β} {done : ι → Bool}
  {a u : List ℕ} {p : ι} {r : DiskRequest β}

/-- Where every request is: `a` is waiting in the available ring, `u` in the used ring. -/
structure DriverInv (s : DriverState ι β) (done : ι → Bool) (a u : List ℕ) : Prop where
  avail : Ring.Queue NUM (2 ^ 16) s.disk.availRing s.seen.toNat s.disk.availIdx.toNat a
  used : Ring.Queue NUM (2 ^ 16) s.disk.usedRing s.disk.usedIdx.toNat s.disk.usedRingIdx.toNat u
  nodup : (a ++ s.fetched ++ u).Nodup
  heads : ∀ h, h ∈ a ++ s.fetched ++ u ↔
    ∃ p r, s.call p = .inFlight r ∧ r.head = h ∧ s.busy r.b = true
  status : ∀ h ∈ u, (s.disk.info h).status = 0
  chains : ∀ p r, s.call p = .inFlight r → Chained s.disk.free s.disk.desc s.disk.ops r
  info : ∀ p r, s.call p = .inFlight r → (s.disk.info r.head).b = some r.b
  apart : ∀ p q r r', s.call p = .inFlight r → s.call q = .inFlight r' → p ≠ q →
    ∀ i ∈ r.idx, i ∉ r'.idx
  free : ∀ i < NUM, s.disk.free i = true ∨ ∃ p r, s.call p = .inFlight r ∧ i ∈ r.idx
  owners : ∀ p b, (s.call p).buffer = some b → s.owner b = some p
  /-- The device has completed the requests that are neither available nor with it. -/
  done : ∀ p r, s.call p = .inFlight r → (done p = true ↔ r.head ∉ a ++ s.fetched)

section

variable (inv : DriverInv s done a u)

include inv

/-- Two requests for the same chain or the same buffer are one. -/
theorem DriverInv.same_head {q : ι} {r r' : DiskRequest β}
    (mine : s.call p = .inFlight r) (yours : s.call q = .inFlight r') (same : r.head = r'.head) :
    p = q := by
  by_contra other
  exact inv.apart p q r r' mine yours other r.head (mem_cons_self ..)
    (same ▸ mem_cons_self ..)

theorem DriverInv.same_buffer {q : ι} {b : β}
    (mine : (s.call p).buffer = some b) (yours : (s.call q).buffer = some b) : p = q :=
  Option.some.inj ((inv.owners p b mine).symm.trans (inv.owners q b yours))

/-- A change that concerns no request. -/
theorem DriverInv.idles (idles : Idles s t) : DriverInv t done a u := by
  obtain ⟨rest, disk, desc⟩ := idles
  rw [rest, disk]
  refine { inv with chains := fun p r flying => ?_ }
  have chained := inv.chains p r flying
  have same : ∀ i ∈ r.idx, t.disk.desc i = s.disk.desc i := fun i mem => desc i (chained.used i mem)
  exact { chained with
    head := (same _ (by simp [DiskRequest.idx])).trans chained.head
    body := (same _ (by simp [DiskRequest.idx])).trans chained.body
    tail := (same _ (by simp [DiskRequest.idx])).trans chained.tail }

/-- The fields that say who sleeps and who is in the handler do not matter. -/
theorem DriverInv.resting (asleep : ι → Option (DiskChan β))
    (inIntr : Bool) : DriverInv { s with asleep := asleep, inIntr := inIntr } done a u :=
  { inv with }

/-- Calls and locks may change as long as the requests stay. -/
theorem DriverInv.recall {call : ι → RwCall β}
    {owner : β → Option ι} (same : ∀ q r, call q = .inFlight r ↔ s.call q = .inFlight r)
    (owners : ∀ q b, (call q).buffer = some b → owner b = some q) :
    DriverInv { s with call := call, owner := owner } done a u where
  avail := inv.avail
  used := inv.used
  nodup := inv.nodup
  heads h := by
    rw [inv.heads h]
    simp only [same]
  status := inv.status
  chains p r flying := inv.chains p r ((same p r).mp flying)
  info p r flying := inv.info p r ((same p r).mp flying)
  apart p q r r' mine yours := inv.apart p q r r' ((same p r).mp mine) ((same q r').mp yours)
  free i low := by
    simp only [same]
    exact inv.free i low
  owners := owners
  done p r flying := inv.done p r ((same p r).mp flying)

/-- A head of a chain belongs to a request. -/
theorem DriverInv.request {h : ℕ} (mem : h ∈ a ++ s.fetched ++ u) :
    ∃ p r, s.call p = .inFlight r ∧ r.head = h ∧ s.busy r.b = true := (inv.heads h).mp mem

/-- The chains that are on their way are few. -/
theorem DriverInv.bound {h : ℕ} (mem : h ∈ a ++ s.fetched ++ u) : h < NUM := by
  obtain ⟨p, r, flying, rfl, -⟩ := inv.request mem
  exact (inv.chains p r flying).low r.head (mem_cons_self ..)

end

/-- A list of different descriptors is short. -/
theorem length_le_num {l : List ℕ} (nodup : l.Nodup) (low : ∀ i ∈ l, i < NUM) : l.length ≤ NUM := by
  have short := (subperm_of_subset nodup (fun i mem => mem_range.mpr (low i mem))).length_le
  rwa [length_range] at short

/-- What the device finds when it follows the chain of a request. -/
theorem Chained.chain (chained : Chained s.disk.free s.disk.desc s.disk.ops r) :
    s.disk.chain r.head = some (⟨r.write, r.sector⟩, r.b, r.head) := by
  unfold VirtioDisk.chain
  simp [chained.head, chained.body, chained.tail, chained.op]

/-- The free descriptors after three have been taken. -/
def taken3 (free : ℕ → Bool) (r : DiskRequest β) : ℕ → Bool :=
  update (update (update free r.head false) r.body false) r.tail false

theorem taken3_eq (free : ℕ → Bool) (r : DiskRequest β) (i : ℕ) :
    taken3 free r i = (!decide (i ∈ r.idx) && free i) := by
  unfold taken3 DiskRequest.idx
  rcases eq_or_ne i r.tail with rfl | tail
  · simp
  rcases eq_or_ne i r.body with rfl | body
  · simp [tail]
  rcases eq_or_ne i r.head with rfl | head
  · simp [tail, body]
  · simp [tail, body, head]

/-- The descriptors, the request and the information about a chain that is not concerned. -/
theorem submitted_other {d : VirtioDisk β} {i : ℕ} (other : i ∉ r.idx) :
    (submitted r d).desc i = d.desc i ∧ (submitted r d).ops i = d.ops i ∧
      (submitted r d).info i = d.info i := by
  simp only [DiskRequest.idx, mem_cons, not_mem_nil, or_false, not_or] at other
  obtain ⟨head, body, tail⟩ := other
  simp [submitted, head, body, tail]

/-- The chain that has just been formatted. -/
theorem submitted_chained {d : VirtioDisk β} (low : ∀ i ∈ r.idx, i < NUM)
    (distinct : r.idx.Nodup) (used : ∀ i ∈ r.idx, d.free i = false) :
    Chained (submitted r d).free (submitted r d).desc (submitted r d).ops r := by
  have apart := distinct
  simp only [DiskRequest.idx, nodup_cons, mem_cons, not_mem_nil, or_false, not_or,
    nodup_nil, not_false_iff, and_true] at apart
  obtain ⟨⟨hb, ht⟩, bt⟩ := apart
  refine ⟨low, distinct, used, ?_, ?_, ?_, ?_⟩
  · simp [submitted, hb, ht]
  · simp [submitted, bt]
  · simp [submitted]
  · simp [submitted]

end Invariant

section Steps

variable {ι β : Type} [DecidableEq ι] [DecidableEq β] {s t : DriverState ι β} {done : ι → Bool}
  {a u : List ℕ} {p : ι} {r : DiskRequest β}

/-- The step ends without a panic, keeps the invariant and obeys. -/
def StepsWell (action : DriverAction ι β) (s : DriverState ι β) (done : ι → Bool) : Prop :=
  Safe action.perform s fun event t =>
    ∃ a u, DriverInv t (trackDone s done event) a u ∧ Obeys s done t event

/-- The device looks at the next chain in the available ring. -/
theorem fetch_step (inv : DriverInv s done a u) (enabled : DriverAction.fetch.enabled s) :
    StepsWell .fetch s done := by
  have some : a ≠ [] := by
    rintro rfl
    exact enabled (UInt16.toNat_inj.mp ((inv.avail.eq_nil_iff (by decide)).mpr rfl))
  obtain ⟨h, a', rfl⟩ := exists_cons_of_ne_nil some
  have front := inv.avail.front (by decide)
  have popped := inv.avail.pop (by decide)
  apply Safe.bind_reads
  apply Safe.bind_modifies
  refine .pure ⟨a', u, ?_, trivial⟩
  rw [front]
  have moved : (a' ++ (h :: s.fetched)).Perm (h :: a' ++ s.fetched) := perm_middle
  exact { inv with
    avail := by
      rw [UInt16.toNat_add]
      exact popped
    nodup := (moved.append_right u).nodup_iff.mpr inv.nodup
    heads := fun k => (moved.append_right u).mem_iff.trans (inv.heads k)
    done := fun p r flying => (inv.done p r flying).trans (not_congr moved.mem_iff.symm) }

omit [DecidableEq β] in
/-- The device completes a request. -/
theorem DriverInv.complete (inv : DriverInv s done a u) (fetched : r.head ∈ s.fetched) :
    DriverInv { s with
        disk := completeChain s.disk r.head r.head
        fetched := s.fetched.erase r.head }
      (trackDone s done (.completed r.head r.b ⟨r.write, r.sector⟩)) a (u ++ [r.head]) := by
  have moved : (a ++ s.fetched.erase r.head ++ (u ++ [r.head])).Perm (a ++ s.fetched ++ u) := by
    have last : (s.fetched.erase r.head ++ (u ++ [r.head])).Perm
        (r.head :: (s.fetched.erase r.head ++ u)) := by
      rw [← append_assoc]
      exact perm_append_singleton ..
    have back : (r.head :: (s.fetched.erase r.head ++ u)).Perm (s.fetched ++ u) :=
      ((perm_cons_erase fetched).append_right u).symm
    simpa [append_assoc] using (last.trans back).append_left a
  have nodup := moved.nodup_iff.mpr inv.nodup
  have fresh : r.head ∉ a ++ s.fetched.erase r.head := by
    intro mem
    exact (nodup_append.mp nodup).2.2 _ mem _ (by simp) rfl
  have room : u.length < NUM := by
    have low : ∀ i ∈ u ++ [r.head], i < NUM := fun i mem =>
      inv.bound (moved.subset (mem_append_right _ mem))
    have short := length_le_num (nodup.sublist (sublist_append_right ..)) low
    rw [length_append, length_singleton] at short
    omega
  refine
    { inv with
      used := ?_
      nodup := nodup
      heads := fun k => moved.mem_iff.trans (inv.heads k)
      status := fun k mem => ?_
      info := fun q r' yours => ?_
      done := fun q r' yours => ?_ }
  · have pushed := inv.used.push (by decide) r.head room
    rw [completeChain, UInt16.toNat_add]
    exact pushed
  · rcases eq_or_ne k r.head with rfl | other
    · simp [completeChain]
    · have old : k ∈ u := by simpa [other] using mem
      simp [completeChain, other, inv.status k old]
  · have same := inv.info q r' yours
    rcases eq_or_ne r'.head r.head with here | other
    · rw [here] at same ⊢
      simp [completeChain, same]
    · simp [completeChain, other, same]
  · have yours' : s.call q = .inFlight r' := yours
    simp only [trackDone, yours', Bool.or_eq_true, decide_eq_true_eq]
    by_cases mine : r'.head = r.head
    · simp only [mine, true_or, true_iff]
      exact fresh
    · simp only [mine, false_or]
      rw [inv.done q r' yours, mem_append, mem_append, mem_erase_of_ne mine]

theorem complete_step (inv : DriverInv s done a u) {h : ℕ}
    (enabled : (DriverAction.complete h : DriverAction ι β).enabled s) :
    StepsWell (.complete h) s done := by
  have fetched : h ∈ s.fetched := enabled
  have here : h ∈ a ++ s.fetched ++ u := by simp [fetched]
  obtain ⟨p, r, flying, rfl, -⟩ := inv.request here
  have unfinished : done p = false := by
    rw [← Bool.not_eq_true, inv.done p r flying, not_not]
    simp [fetched]
  refine .bind_reads ?_
  rw [(inv.chains p r flying).chain]
  apply Safe.bind_modifies
  apply Safe.bind_modifies
  exact .pure ⟨a, _, inv.complete fetched, p, r, flying, unfinished, rfl, rfl, rfl⟩

omit [DecidableEq ι] in
/-- The interrupt handler takes an entry off the used ring. -/
theorem DriverInv.handle (inv : DriverInv s done a (r.head :: u))
    (flying : s.call p = .inFlight r) :
    DriverInv { s with
        busy := update s.busy r.b false
        disk := { s.disk with usedIdx := s.disk.usedIdx + 1 } } done a u := by
  have ended : r.head ∉ a ++ s.fetched ++ u := by
    have nodup : (r.head :: (a ++ s.fetched ++ u)).Nodup := perm_middle.nodup_iff.mp inv.nodup
    exact (nodup_cons.mp nodup).1
  have same : ∀ q r', s.call q = .inFlight r' → (r'.b = r.b ↔ r'.head = r.head) := by
    intro q r' yours
    constructor
    · intro here
      obtain rfl : q = p := inv.same_buffer (b := r.b) (by rw [yours, ← here]; rfl)
        (by rw [flying]; rfl)
      rw [flying] at yours
      cases yours
      rfl
    · intro here
      obtain rfl := inv.same_head yours flying here
      rw [flying] at yours
      cases yours
      rfl
  refine
    { inv with
      used := ?_
      nodup := inv.nodup.sublist (List.Sublist.append_left (sublist_cons_self ..) _)
      heads := fun k => ?_
      status := fun k mem => inv.status k (mem_cons_of_mem _ mem) }
  · have popped := inv.used.pop (by decide)
    rw [UInt16.toNat_add]
    exact popped
  · have old : k ∈ a ++ s.fetched ++ u ↔ k ≠ r.head ∧ k ∈ a ++ s.fetched ++ r.head :: u := by
      constructor
      · intro mem
        refine ⟨fun here => ended (here ▸ mem), ?_⟩
        rcases mem_append.mp mem with early | late
        · exact mem_append_left _ early
        · exact mem_append_right _ (mem_cons_of_mem _ late)
      · rintro ⟨other, mem⟩
        simpa [other] using mem
    rw [old, inv.heads k]
    constructor
    · rintro ⟨other, q, r', yours, rfl, waiting⟩
      refine ⟨q, r', yours, rfl, ?_⟩
      have different : r'.b ≠ r.b := fun here => other ((same q r' yours).mp here)
      exact (update_of_ne different ..).trans waiting
    · rintro ⟨q, r', yours, rfl, waiting⟩
      have different : r'.b ≠ r.b := by
        intro here
        simp [here] at waiting
      refine ⟨fun here => different ((same q r' yours).mpr here), q, r', yours, rfl, ?_⟩
      exact (update_of_ne different ..).symm.trans waiting

/-- A round of the interrupt handler. -/
theorem round_step (inv : DriverInv s done a u) : StepsWell .round s done := by
  refine .bind_reads ?_
  by_cases empty : s.disk.usedIdx = s.disk.usedRingIdx
  · rw [if_pos empty]
    apply Safe.bind_modifies
    exact .pure ⟨a, u, inv.resting s.asleep false, trivial⟩
  rw [if_neg empty]
  have some : u ≠ [] := by
    rintro rfl
    exact empty (UInt16.toNat_inj.mp ((inv.used.eq_nil_iff (by decide)).mpr rfl))
  obtain ⟨h, u', rfl⟩ := exists_cons_of_ne_nil some
  have front := inv.used.front (by decide)
  have here : h ∈ a ++ s.fetched ++ h :: u' := by simp
  obtain ⟨p, r, flying, rfl, busy⟩ := inv.request here
  have gone : r.head ∉ a ++ s.fetched := by
    intro mem
    exact (nodup_append.mp inv.nodup).2.2 _ mem _ (mem_cons_self ..) rfl
  dsimp only
  rw [front, if_neg (not_not.mpr (inv.status r.head (mem_cons_self ..))), inv.info p r flying]
  apply Safe.bind_modifies
  apply Safe.bind_modifies
  apply Safe.bind_modifies
  exact .pure ⟨a, u', (inv.handle flying).resting _ _,
    ⟨p, r, flying, (inv.done p r flying).mpr gone, rfl, rfl⟩, busy, rfl⟩

/-- A process passes a request to the device. -/
theorem DriverInv.submit (inv : DriverInv s done a u)
    (calling : s.call p = .allocating r.b r.blockno r.write) (low : ∀ i ∈ r.idx, i < NUM)
    (distinct : r.idx.Nodup) (free : ∀ i ∈ r.idx, s.disk.free i = true) :
    DriverInv { s with
        disk := submitted r { s.disk with free := taken3 s.disk.free r }
        busy := update s.busy r.b true
        call := update s.call p (.inFlight r) }
      (update done p false) (a ++ [r.head]) u := by
  -- requests in flight use other descriptors and other buffers
  have others : ∀ q r', s.call q = .inFlight r' → q ≠ p ∧ r'.b ≠ r.b ∧ ∀ i ∈ r'.idx, i ∉ r.idx := by
    intro q r' yours
    have apart : q ≠ p := by
      rintro rfl
      rw [calling] at yours
      cases yours
    refine ⟨apart, fun same => ?_, fun i mem mine => ?_⟩
    · exact apart (inv.same_buffer (b := r.b) (by rw [yours, ← same]; rfl) (by rw [calling]; rfl))
    · have used := (inv.chains q r' yours).used i mem
      rw [free i mine] at used
      contradiction
  have flights : ∀ q r', update s.call p (.inFlight r) q = .inFlight r' ↔
      q = p ∧ r' = r ∨ s.call q = .inFlight r' := by
    intro q r'
    rcases eq_or_ne q p with rfl | other
    · rw [update_self, calling]
      simp [eq_comm]
    · rw [update_of_ne other]
      simp [other]
  have head : r.head ∈ r.idx := mem_cons_self ..
  have fresh : r.head ∉ a ++ s.fetched ++ u := by
    intro mem
    obtain ⟨q, r', yours, same, -⟩ := inv.request mem
    exact (others q r' yours).2.2 r'.head (mem_cons_self ..) (same ▸ head)
  have moved : (a ++ [r.head] ++ s.fetched ++ u).Perm (r.head :: (a ++ s.fetched ++ u)) := by
    simp
  have room : a.length < NUM := by
    have nodup : (r.head :: a).Nodup :=
      nodup_cons.mpr ⟨fun mem => fresh (by simp [mem]),
        inv.nodup.sublist (by simp [append_assoc])⟩
    have short := length_le_num nodup fun i mem => by
      rcases mem_cons.mp mem with rfl | old
      · exact low _ head
      · exact inv.bound (by simp [old])
    rw [length_cons] at short
    omega
  refine ⟨?_, inv.used, ?_, ?_, ?_, ?_, ?_, ?_, ?_, ?_, ?_⟩
  · have pushed := inv.avail.push (by decide) r.head room
    rw [submitted, UInt16.toNat_add]
    exact pushed
  · exact moved.nodup_iff.mpr (nodup_cons.mpr ⟨fresh, inv.nodup⟩)
  · intro h
    rw [moved.mem_iff, mem_cons, inv.heads h]
    constructor
    · rintro (rfl | ⟨q, r', yours, rfl, waiting⟩)
      · exact ⟨p, r, (flights p r).mpr (.inl ⟨rfl, rfl⟩), rfl, update_self ..⟩
      · refine ⟨q, r', (flights q r').mpr (.inr yours), rfl, ?_⟩
        exact (update_of_ne (others q r' yours).2.1 ..).trans waiting
    · rintro ⟨q, r', yours, rfl, waiting⟩
      rcases (flights q r').mp yours with ⟨rfl, rfl⟩ | old
      · exact .inl rfl
      · refine .inr ⟨q, r', old, rfl, ?_⟩
        exact (update_of_ne (others q r' old).2.1 ..).symm.trans waiting
  · intro h mem
    have other : h ≠ r.head := fun same => fresh (by simp [← same, mem])
    have same : ((submitted r { s.disk with free := taken3 s.disk.free r }).info h) =
        s.disk.info h := update_of_ne other ..
    rw [same]
    exact inv.status h mem
  · intro q r' yours
    rcases (flights q r').mp yours with ⟨rfl, rfl⟩ | old
    · refine submitted_chained low distinct fun i mem => (taken3_eq ..).trans ?_
      simp [mem]
    · have chained := inv.chains q r' old
      have apart := (others q r' old).2.2
      have there : ∀ i ∈ r'.idx, _ := fun i mem => submitted_other (d := { s.disk with
        free := taken3 s.disk.free r }) (apart i mem)
      refine ⟨chained.low, chained.distinct, fun i mem => ?_, ?_, ?_, ?_, ?_⟩
      · show taken3 s.disk.free r i = false
        rw [taken3_eq, chained.used i mem, Bool.and_false]
      · exact (there r'.head (by simp [DiskRequest.idx])).1.trans chained.head
      · exact (there r'.body (by simp [DiskRequest.idx])).1.trans chained.body
      · exact (there r'.tail (by simp [DiskRequest.idx])).1.trans chained.tail
      · exact (there r'.head (by simp [DiskRequest.idx])).2.1.trans chained.op
  · intro q r' yours
    rcases (flights q r').mp yours with ⟨rfl, rfl⟩ | old
    · simp [submitted]
    · rw [(submitted_other ((others q r' old).2.2 r'.head (mem_cons_self ..))).2.2]
      exact inv.info q r' old
  · intro q q' r' r'' yours theirs different i mem mem'
    rcases (flights q r').mp yours with ⟨rfl, rfl⟩ | old
    · rcases (flights q' r'').mp theirs with ⟨rfl, rfl⟩ | old'
      · exact different rfl
      · exact (others q' r'' old').2.2 i mem' mem
    · rcases (flights q' r'').mp theirs with ⟨rfl, rfl⟩ | old'
      · exact (others q r' old).2.2 i mem mem'
      · exact inv.apart q q' r' r'' old old' different i mem mem'
  · intro i inside
    simp only [flights]
    show taken3 s.disk.free r i = true ∨ _
    rw [taken3_eq]
    by_cases mine : i ∈ r.idx
    · exact .inr ⟨p, r, .inl ⟨rfl, rfl⟩, mine⟩
    · rcases inv.free i inside with free | ⟨q, r', yours, mem⟩
      · exact .inl (by simp [mine, free])
      · exact .inr ⟨q, r', .inr yours, mem⟩
  · intro q b buffer
    rcases eq_or_ne q p with rfl | other
    · simp only [update_self] at buffer
      exact inv.owners q b (by rw [calling]; exact buffer)
    · simp only [update_of_ne other] at buffer
      exact inv.owners q b buffer
  · intro q r' yours
    rcases (flights q r').mp yours with ⟨rfl, rfl⟩ | old
    · simp
    · obtain ⟨apart, -, idx⟩ := others q r' old
      have different : r'.head ≠ r.head := fun same =>
        idx r'.head (mem_cons_self ..) (same ▸ head)
      rw [update_of_ne apart, inv.done q r' old]
      simp [different]

/-- The state after a process has freed its chain. -/
def returned (s : DriverState ι β) (p : ι) (r : DiskRequest β) : DriverState ι β :=
  let cleared := withDisk s { s.disk with
    info := update s.disk.info r.head { s.disk.info r.head with b := none } }
  let t := freed (freed (freed cleared r.head) r.body) r.tail
  { t with call := update s.call p .idle }

theorem returned_free (r : DiskRequest β) (i : ℕ) :
    (returned s p r).disk.free i = (decide (i ∈ r.idx) || s.disk.free i) := by
  unfold returned DiskRequest.idx
  simp only [freed, withDisk]
  rcases eq_or_ne i r.tail with rfl | tail
  · simp
  rcases eq_or_ne i r.body with rfl | body
  · simp [tail]
  rcases eq_or_ne i r.head with rfl | head
  · simp [tail, body]
  · simp [tail, body, head]

theorem returned_desc {i : ℕ} (other : i ∉ r.idx) :
    (returned s p r).disk.desc i = s.disk.desc i := by
  simp only [DiskRequest.idx, mem_cons, not_mem_nil, or_false, not_or] at other
  obtain ⟨head, body, tail⟩ := other
  simp [returned, freed, withDisk, head, body, tail]

section

variable (inv : DriverInv s done a u)

include inv

/-- A process whose request is done frees its chain. -/
theorem DriverInv.finish (flying : s.call p = .inFlight r) (ready : s.busy r.b = false) :
    DriverInv (returned s p r) done a u := by
  have flights : ∀ q r', update s.call p .idle q = .inFlight r' ↔
      q ≠ p ∧ s.call q = .inFlight r' := by
    intro q r'
    rcases eq_or_ne q p with rfl | other
    · simp
    · simp [other]
  have others : ∀ q r', update s.call p .idle q = .inFlight r' →
      s.call q = .inFlight r' ∧ ∀ i ∈ r'.idx, i ∉ r.idx := by
    intro q r' yours
    obtain ⟨other, old⟩ := (flights q r').mp yours
    exact ⟨old, inv.apart q p r' r old flying other⟩
  refine ⟨inv.avail, inv.used, inv.nodup, ?_, ?_, ?_, ?_, ?_, ?_, ?_, ?_⟩
  · intro h
    refine (inv.heads h).trans ⟨?_, ?_⟩
    · rintro ⟨q, r', yours, same, waiting⟩
      refine ⟨q, r', (flights q r').mpr ⟨?_, yours⟩, same, waiting⟩
      rintro rfl
      rw [flying] at yours
      cases yours
      rw [ready] at waiting
      contradiction
    · rintro ⟨q, r', yours, same, waiting⟩
      exact ⟨q, r', (others q r' yours).1, same, waiting⟩
  · intro h mem
    have status := inv.status h mem
    rcases eq_or_ne h r.head with rfl | other
    · simp [returned, freed, withDisk, status]
    · simp [returned, freed, withDisk, other, status]
  · intro q r' yours
    obtain ⟨old, apart⟩ := others q r' yours
    have chained := inv.chains q r' old
    refine ⟨chained.low, chained.distinct, fun i mem => ?_, ?_, ?_, ?_, chained.op⟩
    · rw [returned_free, chained.used i mem]
      simp [apart i mem]
    · exact (returned_desc (apart _ (by simp [DiskRequest.idx]))).trans chained.head
    · exact (returned_desc (apart _ (by simp [DiskRequest.idx]))).trans chained.body
    · exact (returned_desc (apart _ (by simp [DiskRequest.idx]))).trans chained.tail
  · intro q r' yours
    obtain ⟨old, apart⟩ := others q r' yours
    have other : r'.head ≠ r.head := by
      intro same
      exact apart r'.head (mem_cons_self ..) (same ▸ mem_cons_self ..)
    simp [returned, freed, withDisk, other, inv.info q r' old]
  · intro q q' r' r'' yours theirs
    exact inv.apart q q' r' r'' (others q r' yours).1 (others q' r'' theirs).1
  · intro i low
    rw [returned_free]
    rcases inv.free i low with free | ⟨q, r', yours, mem⟩
    · exact .inl (by simp [free])
    · rcases eq_or_ne q p with rfl | other
      · rw [flying] at yours
        cases yours
        exact .inl (by simp [mem])
      · exact .inr ⟨q, r', (flights q r').mpr ⟨other, yours⟩, mem⟩
  · intro q b buffer
    rcases eq_or_ne q p with rfl | other
    · simp [returned, freed, withDisk, RwCall.buffer] at buffer
    · have same : (returned s p r).call q = s.call q := update_of_ne other ..
      rw [same] at buffer
      exact inv.owners q b buffer
  · intro q r' yours
    exact inv.done q r' (others q r' yours).1

/-- A section of `virtio_disk_rw`. -/
theorem run_step (enabled : (DriverAction.run p : DriverAction ι β).enabled s) :
    StepsWell (.run p) s done := by
  refine .bind_reads ?_
  cases call : s.call p with
  | idle => exact .pure ⟨a, u, inv, trivial⟩
  | allocating b blockno write =>
    refine .bind alloc3Desc_spec fun result t allocated => ?_
    cases result with
    | none =>
      apply Safe.bind_modifies
      exact .pure ⟨a, u, (inv.idles allocated).resting _ _, trivial⟩
    | some idx =>
      obtain ⟨i, j, k⟩ := idx
      obtain ⟨low, distinct, free, rfl⟩ := allocated
      apply Safe.bind_modifies
      apply Safe.bind_modifies
      have low' : ∀ x ∈ (⟨b, blockno, write, i, j, k⟩ : DiskRequest β).idx, x < NUM := by
        simpa [DiskRequest.idx] using low
      have free' : ∀ x ∈ (⟨b, blockno, write, i, j, k⟩ : DiskRequest β).idx,
          s.disk.free x = true := by
        simpa [DiskRequest.idx] using free
      have used : ∀ x ∈ (⟨b, blockno, write, i, j, k⟩ : DiskRequest β).idx,
          taken3 s.disk.free (⟨b, blockno, write, i, j, k⟩ : DiskRequest β) x = false := by
        intro x mem
        rw [taken3_eq]
        simp [mem]
      have passed := inv.submit (r := ⟨b, blockno, write, i, j, k⟩) call low' distinct free'
      exact .pure ⟨_, u, passed.resting _ s.inIntr, distinct, fun x mem =>
        ⟨low' x mem, free' x mem, used x mem⟩⟩
  | inFlight r =>
    apply Safe.bind_reads
    cases ready : s.busy r.b with
    | true =>
      rw [if_pos rfl]
      apply Safe.bind_modifies
      exact .pure ⟨a, u, inv.resting _ s.inIntr, trivial⟩
    | false =>
      rw [if_neg Bool.false_ne_true]
      apply Safe.bind_modifies
      have chained := inv.chains p r call
      refine .bind_ok (freeChain_eq chained) ?_
      apply Safe.bind_modifies
      have gone : r.head ∉ a ++ s.fetched := by
        intro mem
        obtain ⟨q, r', yours, same, waiting⟩ := inv.request (mem_append_left u mem)
        obtain rfl := inv.same_head yours call same
        rw [call] at yours
        cases yours
        rw [ready] at waiting
        contradiction
      refine .pure ⟨a, u, inv.finish call ready, call, (inv.done p r call).mpr gone, chained.used,
        fun i => ?_⟩
      show (returned s p r).disk.free i = true ↔ _
      rw [returned_free]
      simp

/-- Locks and calls that make no request. -/
theorem lock_step {b : β}
    (enabled : (DriverAction.lock p b).enabled s) : StepsWell (.lock p b) s done := by
  apply Safe.bind_modifies
  refine .pure ⟨a, u, inv.recall (fun _ _ => Iff.rfl) fun q c buffer => ?_, trivial⟩
  have mine := inv.owners q c buffer
  rcases eq_or_ne c b with rfl | other
  · rw [enabled.2] at mine
    contradiction
  · exact (update_of_ne other ..).trans mine

theorem unlock_step {b : β}
    (enabled : (DriverAction.unlock p b).enabled s) : StepsWell (.unlock p b) s done := by
  apply Safe.bind_modifies
  refine .pure ⟨a, u, inv.recall (fun _ _ => Iff.rfl) fun q c buffer => ?_, trivial⟩
  have mine := inv.owners q c buffer
  rcases eq_or_ne c b with rfl | other
  · obtain rfl := Option.some.inj (mine.symm.trans enabled.2)
    rw [enabled.1] at buffer
    contradiction
  · exact (update_of_ne other ..).trans mine

theorem rw_step {b : β} {blockno : ℕ} {write : Bool}
    (enabled : (DriverAction.rw p b blockno write).enabled s) :
    StepsWell (.rw p b blockno write) s done := by
  apply Safe.bind_modifies
  refine .pure ⟨a, u, inv.recall (fun q r => ?_) fun q c buffer => ?_, trivial⟩
  · rcases eq_or_ne q p with rfl | other
    · rw [update_self]
      refine ⟨nofun, fun flying => ?_⟩
      have idle := enabled.1
      rw [flying] at idle
      contradiction
    · rw [update_of_ne other]
  · rcases eq_or_ne q p with rfl | other
    · rw [update_self] at buffer
      cases buffer
      exact enabled.2
    · rw [update_of_ne other] at buffer
      exact inv.owners q c buffer

/-- Whatever can happen happens without a panic. -/
theorem DriverInv.step {action : DriverAction ι β}
    (enabled : action.enabled s) : StepsWell action s done := by
  cases action with
  | lock p b => exact lock_step inv enabled
  | unlock p b => exact unlock_step inv enabled
  | rw p b blockno write => exact rw_step inv enabled
  | run p => exact run_step inv enabled
  | interrupt =>
    apply Safe.bind_modifies
    exact .pure ⟨a, u, inv.resting s.asleep true, trivial⟩
  | round => exact round_step inv
  | fetch => exact fetch_step inv enabled
  | complete h => exact complete_step inv enabled
  | kill p =>
    apply Safe.bind_modifies
    exact .pure ⟨a, u, inv.resting _ s.inIntr, trivial⟩

end

end Steps

section Runs

variable {ι β : Type} [DecidableEq ι] [DecidableEq β] {s : DriverState ι β} {done : ι → Bool}
  {trace : List (DriverEvent ι β)}

instance driverEnabled : (action : DriverAction ι β) → Decidable (action.enabled s)
  | .lock .. | .unlock .. | .rw .. | .run _ => inferInstanceAs (Decidable (_ ∧ _))
  | .interrupt | .round => inferInstanceAs (Decidable (_ = _))
  | .fetch => inferInstanceAs (Decidable (_ ≠ _))
  | .complete _ => inferInstanceAs (Decidable (_ ∈ _))
  | .kill _ => isTrue trivial

end Runs

end Xv6Cos.Verif
