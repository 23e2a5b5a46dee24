import Xv6Cos.Verif.Cache
import Xv6Cos.Verif.LogStep
import Mathlib.Algebra.BigOperators.Group.Finset.Piecewise
import Mathlib.Algebra.Order.BigOperators.Group.Finset

/-!
# References, pins and sleep-locks

The reference count of a buffer is the number of processes that hold it or are on their way
into or out of it, plus one if its block is pinned. With that, a buffer in use is never
recycled and no block is ever cached twice.
-/

namespace Xv6Cos.Verif

open Kernel Function Finset Option

variable {ι : Type} {blockno : ℕ} {buf : Buf ι}

theorem buf_self {c : Bcache ι} {b : Fin NBUF} : (c.set b buf).buf b = buf := update_self ..

theorem buf_other {c : Bcache ι} {b b' : Fin NBUF} (ne : b' ≠ b) :
    (c.set b buf).buf b' = c.buf b' :=
  update_of_ne ne ..

/-- The buffer is assigned to this block of the log's device. -/
def Caches (s : LogState ι) (b : Fin NBUF) (blockno : ℕ) : Prop :=
  (s.cache.buf b).dev = s.log.dev ∧ (s.cache.buf b).blockno = blockno

/-- One for a process that references the buffer without holding its sleep-lock. -/
def waitRefs (b : Fin NBUF) : Wait → ℕ
  | .run | .filling _ _ => 0
  | .acquiring other _ | .releasing other => if other = b then 1 else 0

/-- One if some process holds the sleep-lock. -/
def lockRefs (buf : Buf ι) : ℕ := if buf.lock.isSome then 1 else 0

/-- The references that processes have to a buffer. -/
def refs [Fintype ι] (s : LogState ι) (b : Fin NBUF) : ℕ :=
  lockRefs (s.cache.buf b) + ∑ p, waitRefs b (s.wait p)

open Classical in
/-- One if the block of the buffer is pinned. -/
noncomputable def pinRefs (s : LogState ι) (pins : ℕ → Prop) (b : Fin NBUF) : ℕ :=
  if ∃ blockno, Caches s b blockno ∧ pins blockno then 1 else 0

@[simp] theorem waitRefs_run (b : Fin NBUF) : waitRefs b .run = 0 := rfl

@[simp] theorem waitRefs_filling (b b' : Fin NBUF) (blockno : ℕ) :
    waitRefs b (.filling b' blockno) = 0 := rfl

@[simp] theorem waitRefs_acquiring (b b' : Fin NBUF) (blockno : ℕ) :
    waitRefs b (.acquiring b' blockno) = if b' = b then 1 else 0 := rfl

@[simp] theorem waitRefs_releasing (b b' : Fin NBUF) :
    waitRefs b (.releasing b') = if b' = b then 1 else 0 := rfl

/-- The state of the cache while exactly the blocks `pins` are pinned. -/
structure CacheInv [Fintype ι] (s : LogState ι) (pins : ℕ → Prop) : Prop where
  ring : RingOk s.cache
  unique : ∀ b b' blockno, Caches s b blockno → Caches s b' blockno → b = b'
  spare : ∀ b, (s.cache.buf b).dev ≠ s.log.dev →
    (s.cache.buf b).dev = 0 ∧ (s.cache.buf b).refcnt = 0
  count : ∀ b, (s.cache.buf b).refcnt = refs s b + pinRefs s pins b
  cached : ∀ blockno, pins blockno → ∃ b, Caches s b blockno ∧ (s.cache.buf b).valid = true
  acquiring : ∀ p b blockno, s.wait p = .acquiring b blockno → Caches s b blockno
  filling : ∀ p b blockno, s.wait p = .filling b blockno →
    Caches s b blockno ∧ (s.cache.buf b).lock = some p ∧ (s.cache.buf b).edit = .clean
  held : ∀ p b, (s.cache.buf b).lock = some p →
    (s.cache.buf b).valid = true ∨ ∃ blockno, s.wait p = .filling b blockno
  clean : ∀ b, (s.cache.buf b).lock = none → (s.cache.buf b).edit = .clean

section Counting

variable {s t : LogState ι} {pins pins' : ℕ → Prop} {b : Fin NBUF} {p : ι}

/-- The block of a pinned buffer. -/
theorem pinRefs_pos (caches : Caches s b blockno) (pinned : pins blockno) :
    pinRefs s pins b = 1 := if_pos ⟨blockno, caches, pinned⟩

/-- A buffer whose block is not pinned. -/
theorem pinRefs_zero (free : ∀ blockno, Caches s b blockno → ¬pins blockno) :
    pinRefs s pins b = 0 := if_neg fun ⟨blockno, caches, pinned⟩ => free blockno caches pinned

open Classical in
/-- Pins are counted by the blocks of the buffers alone. -/
theorem pinRefs_congr (caches : ∀ blockno, Caches t b blockno ↔ Caches s b blockno)
    (pins_iff : ∀ blockno, Caches s b blockno → (pins' blockno ↔ pins blockno)) :
    pinRefs t pins' b = pinRefs s pins b := by
  have same : (∃ blockno, Caches t b blockno ∧ pins' blockno) ↔
      ∃ blockno, Caches s b blockno ∧ pins blockno := by
    constructor
    · rintro ⟨blockno, here, pinned⟩
      exact ⟨blockno, (caches _).mp here, (pins_iff _ ((caches _).mp here)).mp pinned⟩
    · rintro ⟨blockno, here, pinned⟩
      exact ⟨blockno, (caches _).mpr here, (pins_iff _ here).mpr pinned⟩
  exact if_congr same rfl rfl

variable [Fintype ι] [DecidableEq ι]

/-- Changing one summand changes the sum by that summand alone. -/
theorem sum_update {α : Type} (weight : α → ℕ) (f : ι → α) (p : ι) (value : α) :
    ∑ q, weight (update f p value q) + weight (f p) =
      ∑ q, weight (f q) + weight value := by
  have before := add_sum_erase univ (fun q => weight (f q)) (mem_univ p)
  have after := add_sum_erase univ
    (fun q => weight (update f p value q)) (mem_univ p)
  have rest : ∑ q ∈ univ.erase p, weight (update f p value q) =
      ∑ q ∈ univ.erase p, weight (f q) := by
    apply sum_congr rfl
    intro q other
    rw [update_of_ne (ne_of_mem_erase other)]
  simp only [update_self] at after
  omega

omit [DecidableEq ι] in
/-- A process on its way into or out of a buffer is one of its references. -/
theorem waitRefs_le (f : ι → Wait) (p : ι) (b : Fin NBUF) :
    waitRefs b (f p) ≤ ∑ q, waitRefs b (f q) :=
  single_le_sum_of_canonicallyOrdered (f := fun q => waitRefs b (f q)) (mem_univ p)

end Counting

section Preservation

variable [Fintype ι] [DecidableEq ι] {s t : LogState ι} {pins pins' : ℕ → Prop}
  {b : Fin NBUF} {p : ι}

/-- A step of `p` that keeps the assignment of the one buffer it touches. -/
theorem CacheInv.touch (inv : CacheInv s pins) {w : Wait}
    (bufs : t.cache.buf = update s.cache.buf b buf)
    (waits : t.wait = update s.wait p w) (dev : t.log.dev = s.log.dev)
    (ring : RingOk t.cache)
    (assigned : buf.dev = (s.cache.buf b).dev ∧ buf.blockno = (s.cache.buf b).blockno)
    (mounted : (s.cache.buf b).dev = s.log.dev)
    (elsewhere : ∀ blockno, blockno ≠ (s.cache.buf b).blockno → (pins' blockno ↔ pins blockno))
    (apart : ∀ b' ≠ b, waitRefs b' w = waitRefs b' (s.wait p))
    (balance : buf.refcnt + lockRefs (s.cache.buf b) + waitRefs b (s.wait p) + pinRefs s pins b =
      (s.cache.buf b).refcnt + lockRefs buf + waitRefs b w + pinRefs s pins' b)
    (valid : pins' (s.cache.buf b).blockno → buf.valid = true)
    (others : ∀ q ≠ p, (buf.lock = some q ↔ (s.cache.buf b).lock = some q) ∧
      ((s.cache.buf b).lock = some q →
        buf.edit = (s.cache.buf b).edit ∧ buf.valid = (s.cache.buf b).valid))
    (acquiring : ∀ b' blockno, w = .acquiring b' blockno → b' = b ∧ blockno = buf.blockno)
    (filling : ∀ b' blockno, w = .filling b' blockno →
      b' = b ∧ blockno = buf.blockno ∧ buf.lock = some p ∧ buf.edit = .clean)
    (left : ∀ b' blockno, s.wait p = .filling b' blockno → b' = b)
    (held : buf.lock = some p → buf.valid = true ∨ ∃ blockno, w = .filling b blockno)
    (clean : buf.lock = none → buf.edit = .clean) : CacheInv t pins' := by
  have here : t.cache.buf b = buf := by rw [bufs, update_self]
  have there : ∀ b' ≠ b, t.cache.buf b' = s.cache.buf b' := fun b' ne => by
    rw [bufs, update_of_ne ne]
  have waitSelf : t.wait p = w := by rw [waits, update_self]
  have waitOther : ∀ q ≠ p, t.wait q = s.wait q := fun q ne => by
    rw [waits, update_of_ne ne]
  have caches : ∀ b' blockno, Caches t b' blockno ↔ Caches s b' blockno := by
    intro b' blockno
    by_cases same : b' = b
    · subst same
      rw [Caches, Caches, here, dev, assigned.1, assigned.2]
    · rw [Caches, Caches, there b' same, dev]
  have self : Caches s b (s.cache.buf b).blockno := ⟨mounted, rfl⟩
  refine ⟨ring, ?_, ?_, ?_, ?_, ?_, ?_, ?_, ?_⟩
  · intro b₁ b₂ blockno first second
    exact inv.unique b₁ b₂ blockno ((caches _ _).mp first) ((caches _ _).mp second)
  · intro b' foreign
    have ne : b' ≠ b := by
      rintro rfl
      rw [here, dev, assigned.1] at foreign
      exact foreign mounted
    rw [there b' ne, dev] at foreign
    rw [there b' ne]
    exact inv.spare b' foreign
  · intro b'
    have sum := sum_update (waitRefs b') s.wait p w
    rw [← waits] at sum
    have before := inv.count b'
    unfold refs at before ⊢
    by_cases same : b' = b
    · subst same
      have pinned : pinRefs t pins' b' = pinRefs s pins' b' :=
        pinRefs_congr (caches b') fun _ _ => Iff.rfl
      rw [here, pinned]
      omega
    · have pinned : pinRefs t pins' b' = pinRefs s pins b' := by
        refine pinRefs_congr (caches b') fun blockno other => elsewhere blockno ?_
        rintro rfl
        exact same (inv.unique _ _ _ other self)
      have step := apart b' same
      rw [there b' same, pinned]
      omega
  · intro blockno pinned
    by_cases same : blockno = (s.cache.buf b).blockno
    · subst same
      refine ⟨b, (caches _ _).mpr self, ?_⟩
      rw [here]
      exact valid pinned
    · obtain ⟨b', other, full⟩ := inv.cached blockno ((elsewhere blockno same).mp pinned)
      have ne : b' ≠ b := by
        rintro rfl
        exact same other.2.symm
      exact ⟨b', (caches _ _).mpr other, by rw [there b' ne]; exact full⟩
  · intro q b' blockno waiting
    rw [caches]
    by_cases mine : q = p
    · subst mine
      obtain ⟨rfl, rfl⟩ := acquiring b' blockno (waitSelf.symm.trans waiting)
      exact ⟨mounted, assigned.2.symm⟩
    · exact inv.acquiring q b' blockno (waitOther q mine ▸ waiting)
  · intro q b' blockno waiting
    rw [caches]
    by_cases mine : q = p
    · subst mine
      obtain ⟨rfl, rfl, locked, unedited⟩ := filling b' blockno (waitSelf.symm.trans waiting)
      rw [here]
      exact ⟨⟨mounted, assigned.2.symm⟩, locked, unedited⟩
    · obtain ⟨assignment, locked, unedited⟩ :=
        inv.filling q b' blockno (waitOther q mine ▸ waiting)
      refine ⟨assignment, ?_⟩
      by_cases same : b' = b
      · subst same
        rw [here, ((others q mine).2 locked).1]
        exact ⟨(others q mine).1.mpr locked, unedited⟩
      · rw [there b' same]
        exact ⟨locked, unedited⟩
  · intro q b' locked
    by_cases same : b' = b
    · subst same
      rw [here] at locked ⊢
      by_cases mine : q = p
      · subst mine
        rw [waitSelf]
        exact held locked
      · have before := (others q mine).1.mp locked
        rw [((others q mine).2 before).2, waitOther q mine]
        exact inv.held q b' before
    · rw [there b' same] at locked ⊢
      rcases inv.held q b' locked with full | ⟨blockno, waiting⟩
      · exact .inl full
      · refine .inr ⟨blockno, ?_⟩
        have mine : q ≠ p := by
          rintro rfl
          exact same (left b' blockno waiting)
        rw [waitOther q mine]
        exact waiting
  · intro b' free
    by_cases same : b' = b
    · subst same
      rw [here] at free ⊢
      exact clean free
    · rw [there b' same] at free ⊢
      exact inv.clean b' free

omit [DecidableEq ι] in
/-- Only the buffers, the waits and the device matter. -/
theorem CacheInv.congr (inv : CacheInv s pins) (cache : t.cache = s.cache)
    (wait : t.wait = s.wait) (dev : t.log.dev = s.log.dev)
    (pins_iff : ∀ blockno, pins' blockno ↔ pins blockno) : CacheInv t pins' := by
  obtain rfl : pins' = pins := funext fun blockno => propext (pins_iff blockno)
  have caches : ∀ b blockno, Caches t b blockno ↔ Caches s b blockno := fun b blockno => by
    rw [Caches, Caches, cache, dev]
  have pinned : ∀ b, pinRefs t pins' b = pinRefs s pins' b := fun b =>
    pinRefs_congr (caches b) fun _ _ => Iff.rfl
  refine ⟨?_, ?_, ?_, ?_, ?_, ?_, ?_, ?_, ?_⟩ <;>
    simp only [refs, caches, pinned, cache, wait, dev]
  · exact inv.ring
  · exact inv.unique
  · exact inv.spare
  · exact inv.count
  · exact inv.cached
  · exact inv.acquiring
  · exact inv.filling
  · exact inv.held
  · exact inv.clean

omit [DecidableEq ι] in
/-- A buffer without references is held by nobody, awaited by nobody and not pinned. -/
theorem CacheInv.unused (inv : CacheInv s pins) (zero : (s.cache.buf b).refcnt = 0) :
    (s.cache.buf b).lock = none ∧ (∀ p, waitRefs b (s.wait p) = 0) ∧ pinRefs s pins b = 0 := by
  have count := inv.count b
  unfold refs at count
  refine ⟨?_, ?_, by omega⟩
  · have none : lockRefs (s.cache.buf b) = 0 := by omega
    unfold lockRefs at none
    split at none
    · contradiction
    · rename_i free
      simpa using free
  · intro p
    have bound := waitRefs_le s.wait p b
    omega

omit [DecidableEq ι] in
/-- A buffer with a reference belongs to the device. -/
theorem CacheInv.mounted (inv : CacheInv s pins) (used : (s.cache.buf b).refcnt ≠ 0) :
    (s.cache.buf b).dev = s.log.dev := by
  by_contra foreign
  exact used (inv.spare b foreign).2

omit [DecidableEq ι] in
/-- A held buffer has a reference. -/
theorem CacheInv.held_used (inv : CacheInv s pins) (held : (s.cache.buf b).lock = some p) :
    (s.cache.buf b).refcnt ≠ 0 := by
  intro zero
  rw [(inv.unused zero).1] at held
  contradiction

omit [DecidableEq ι] in
/-- The buffer of a pinned block has its contents. -/
theorem CacheInv.pinned_valid (inv : CacheInv s pins) (mounted : (s.cache.buf b).dev = s.log.dev)
    (pinned : pins (s.cache.buf b).blockno) : (s.cache.buf b).valid = true := by
  obtain ⟨b', caches, full⟩ := inv.cached _ pinned
  rwa [inv.unique b b' _ ⟨mounted, rfl⟩ caches]

section

variable (inv : CacheInv s pins)

include inv

/-- `bget` of a block that is cached nowhere. -/
theorem CacheInv.recycle (idle : s.wait p = .run)
    (missed : ∀ other, ¬Caches s other blockno) (zero : (s.cache.buf b).refcnt = 0)
    (bufs : t.cache.buf = update s.cache.buf b { s.cache.buf b with
      dev := s.log.dev, blockno := blockno, valid := false, refcnt := 1 })
    (waits : t.wait = update s.wait p (.acquiring b blockno))
    (dev : t.log.dev = s.log.dev) (ring : RingOk t.cache) : CacheInv t pins := by
  obtain ⟨unlocked, unawaited, unpinned⟩ := inv.unused zero
  have here : t.cache.buf b = { s.cache.buf b with
      dev := s.log.dev, blockno := blockno, valid := false, refcnt := 1 } := by
    rw [bufs, update_self]
  have there : ∀ b' ≠ b, t.cache.buf b' = s.cache.buf b' := fun b' ne => by
    rw [bufs, update_of_ne ne]
  have waitSelf : t.wait p = .acquiring b blockno := by rw [waits, update_self]
  have waitOther : ∀ q ≠ p, t.wait q = s.wait q := fun q ne => by
    rw [waits, update_of_ne ne]
  have cachesSelf : ∀ other, Caches t b other ↔ other = blockno := by
    intro other
    rw [Caches, here, dev]
    exact ⟨fun h => h.2.symm, fun h => ⟨rfl, h.symm⟩⟩
  have cachesOther : ∀ b' ≠ b, ∀ other, Caches t b' other ↔ Caches s b' other := by
    intro b' ne other
    rw [Caches, Caches, there b' ne, dev]
  -- nobody is on the way to the recycled buffer or holds it
  have notWaiting : ∀ q b' other, s.wait q = .acquiring b' other → b' ≠ b := by
    rintro q b' other waiting rfl
    have none := unawaited q
    rw [waiting] at none
    simp [waitRefs] at none
  have notFilling : ∀ q b' other, s.wait q = .filling b' other → b' ≠ b := by
    rintro q b' other waiting rfl
    have locked := (inv.filling q b' other waiting).2.1
    rw [unlocked] at locked
    contradiction
  have notPinned : ¬pins blockno := by
    intro pinned
    obtain ⟨b', caches, -⟩ := inv.cached blockno pinned
    exact missed b' caches
  refine ⟨ring, ?_, ?_, ?_, ?_, ?_, ?_, ?_, ?_⟩
  · intro b₁ b₂ other first second
    by_cases same₁ : b₁ = b <;> by_cases same₂ : b₂ = b
    · rw [same₁, same₂]
    · subst same₁
      obtain rfl := (cachesSelf other).mp first
      exact absurd ((cachesOther b₂ same₂ _).mp second) (missed b₂)
    · subst same₂
      obtain rfl := (cachesSelf other).mp second
      exact absurd ((cachesOther b₁ same₁ _).mp first) (missed b₁)
    · exact inv.unique b₁ b₂ other ((cachesOther b₁ same₁ _).mp first)
        ((cachesOther b₂ same₂ _).mp second)
  · intro b' foreign
    by_cases same : b' = b
    · subst same
      rw [here, dev] at foreign
      exact absurd rfl foreign
    · rw [there b' same, dev] at foreign
      rw [there b' same]
      exact inv.spare b' foreign
  · intro b'
    have sum := sum_update (waitRefs b') s.wait p (.acquiring b blockno)
    rw [← waits, idle] at sum
    have before := inv.count b'
    unfold refs at before ⊢
    by_cases same : b' = b
    · subst same
      have pinned : pinRefs t pins b' = 0 := pinRefs_zero fun other caches => by
        rw [(cachesSelf other).mp caches]
        exact notPinned
      have lock : lockRefs (t.cache.buf b') = lockRefs (s.cache.buf b') := by rw [here]; rfl
      have one : (t.cache.buf b').refcnt = 1 := by rw [here]
      simp only [waitRefs_run, waitRefs_acquiring, ↓reduceIte] at sum
      rw [one, lock, pinned]
      omega
    · have pinned : pinRefs t pins b' = pinRefs s pins b' :=
        pinRefs_congr (cachesOther b' same) fun _ _ => Iff.rfl
      simp only [waitRefs_run, waitRefs_acquiring, Ne.symm same, ↓reduceIte] at sum
      rw [there b' same, pinned]
      omega
  · intro other pinned
    obtain ⟨b', caches, full⟩ := inv.cached other pinned
    have ne : b' ≠ b := by
      rintro rfl
      rw [pinRefs_pos caches pinned] at unpinned
      contradiction
    exact ⟨b', (cachesOther b' ne _).mpr caches, by rw [there b' ne]; exact full⟩
  · intro q b' other waiting
    by_cases mine : q = p
    · subst mine
      obtain ⟨rfl, rfl⟩ := Wait.acquiring.inj (waitSelf.symm.trans waiting)
      exact (cachesSelf _).mpr rfl
    · rw [waitOther q mine] at waiting
      exact (cachesOther b' (notWaiting q b' other waiting) _).mpr
        (inv.acquiring q b' other waiting)
  · intro q b' other waiting
    by_cases mine : q = p
    · subst mine
      rw [waitSelf] at waiting
      contradiction
    · rw [waitOther q mine] at waiting
      have ne := notFilling q b' other waiting
      rw [cachesOther b' ne, there b' ne]
      exact inv.filling q b' other waiting
  · intro q b' locked
    by_cases same : b' = b
    · subst same
      rw [here] at locked
      rw [unlocked] at locked
      contradiction
    · rw [there b' same] at locked ⊢
      rcases inv.held q b' locked with full | ⟨other, waiting⟩
      · exact .inl full
      · refine .inr ⟨other, ?_⟩
        have mine : q ≠ p := by
          rintro rfl
          rw [idle] at waiting
          contradiction
        rw [waitOther q mine]
        exact waiting
  · intro b' free
    by_cases same : b' = b
    · subst same
      rw [here]
      exact inv.clean b' unlocked
    · rw [there b' same] at free ⊢
      exact inv.clean b' free

/-- `bget`, whether or not the block is cached. -/
theorem CacheInv.startRead {cache : Bcache ι}
    (idle : s.wait p = .run) (got : s.cache.bget s.log.dev blockno = some (b, cache)) :
    CacheInv ({ s with cache := cache }.setWait p (.acquiring b blockno)) pins := by
  have ring := inv.ring.bget got
  rcases bget_some inv.ring got with ⟨mounted, rfl, rfl⟩ | ⟨missed, zero, rfl⟩
  · refine inv.touch (b := b) (p := p) rfl rfl rfl ring ⟨rfl, rfl⟩ mounted (fun _ _ => Iff.rfl)
      ?_ ?_ ?_ ?_ ?_ ?_ ?_ ?_ ?_
    · intro b' ne
      simp [idle, Ne.symm ne]
    · simp only [idle, waitRefs_run, waitRefs_acquiring, ↓reduceIte, lockRefs]
      omega
    · exact inv.pinned_valid mounted
    · exact fun q _ => ⟨Iff.rfl, fun _ => ⟨rfl, rfl⟩⟩
    · intro b' other same
      cases same
      exact ⟨rfl, rfl⟩
    · nofun
    · intro b' other waiting
      rw [idle] at waiting
      contradiction
    · intro held
      rcases inv.held p b held with full | ⟨other, waiting⟩
      · exact .inl full
      · rw [idle] at waiting
        contradiction
    · exact inv.clean b
  · exact inv.recycle idle missed zero rfl rfl rfl ring

/-- `acquiresleep` in `bget`. -/
theorem CacheInv.lock
    (waiting : s.wait p = .acquiring b blockno) (free : (s.cache.buf b).lock = none) :
    CacheInv ((s.setBuf b { s.cache.buf b with lock := some p }).setWait p (.filling b blockno))
      pins := by
  obtain ⟨mounted, named⟩ := inv.acquiring p b blockno waiting
  refine inv.touch (b := b) (p := p) rfl rfl rfl inv.ring ⟨rfl, rfl⟩ mounted (fun _ _ => Iff.rfl)
    ?_ ?_ ?_ ?_ ?_ ?_ ?_ ?_ ?_
  · intro b' ne
    simp [waiting, Ne.symm ne]
  · simp only [waiting, waitRefs_filling, waitRefs_acquiring, ↓reduceIte, lockRefs, free,
      isSome_none, isSome_some, Bool.false_eq_true]
  · exact inv.pinned_valid mounted
  · intro q other
    simp [free, Ne.symm other]
  · nofun
  · intro b' other same
    cases same
    exact ⟨rfl, named.symm, rfl, inv.clean b free⟩
  · intro b' other filling
    rw [waiting] at filling
    contradiction
  · exact fun _ => .inr ⟨blockno, rfl⟩
  · nofun

/-- The transfer in `bread` and its return. -/
theorem CacheInv.fill (data : Block) (waiting : s.wait p = .filling b blockno) :
    CacheInv ((s.setBuf b { s.cache.buf b with valid := true, data := data }).setWait p .run)
      pins := by
  obtain ⟨⟨mounted, named⟩, locked, unedited⟩ := inv.filling p b blockno waiting
  refine inv.touch (b := b) (p := p) rfl rfl rfl inv.ring ⟨rfl, rfl⟩ mounted (fun _ _ => Iff.rfl)
    ?_ ?_ (fun _ => rfl) ?_ ?_ ?_ ?_ (fun _ => .inl rfl) (inv.clean b)
  · simp [waiting]
  · simp only [waiting, waitRefs_filling, waitRefs_run, lockRefs]
  · intro q other
    refine ⟨Iff.rfl, fun theirs => ?_⟩
    rw [locked] at theirs
    exact absurd (some.inj theirs).symm other
  · nofun
  · nofun
  · intro b' other filling
    rw [waiting] at filling
    exact (Wait.filling.inj filling).1.symm

theorem CacheInv.release (idle : s.wait p = .run) (held : (s.cache.buf b).lock = some p) :
    CacheInv ((s.setBuf b { s.cache.buf b with lock := none, edit := .clean }).setWait p
      (.releasing b)) pins := by
  have mounted := inv.mounted (inv.held_used held)
  refine inv.touch (b := b) (p := p) rfl rfl rfl inv.ring ⟨rfl, rfl⟩ mounted (fun _ _ => Iff.rfl)
    ?_ ?_ ?_ ?_ ?_ ?_ ?_ ?_ (fun _ => rfl)
  · intro b' ne
    simp [idle, Ne.symm ne]
  · simp only [idle, waitRefs_run, waitRefs_releasing, ↓reduceIte, lockRefs, held,
      isSome_none, isSome_some, Bool.false_eq_true]
  · exact inv.pinned_valid mounted
  · intro q other
    simp [held, Ne.symm other]
  · nofun
  · nofun
  · intro b' other filling
    rw [idle] at filling
    contradiction
  · nofun

/-- The rest of `brelse`. -/
theorem CacheInv.finish (waiting : s.wait p = .releasing b) :
    CacheInv ({ s with cache := s.cache.brelse b }.setWait p .run) pins := by
  have one := waitRefs_le s.wait p b
  have count := inv.count b
  unfold refs at count
  simp only [waiting, waitRefs_releasing, ↓reduceIte] at one
  have mounted := inv.mounted (show (s.cache.buf b).refcnt ≠ 0 by omega)
  refine inv.touch (b := b) (p := p) (brelse_buf s.cache b) rfl rfl (inv.ring.brelse b) ⟨rfl, rfl⟩
    mounted (fun _ _ => Iff.rfl) ?_ ?_ ?_ ?_ ?_ ?_ ?_ ?_ (inv.clean b)
  · intro b' ne
    simp [waiting, Ne.symm ne]
  · simp only [waiting, waitRefs_run, waitRefs_releasing, ↓reduceIte, lockRefs]
    omega
  · exact inv.pinned_valid mounted
  · exact fun q _ => ⟨Iff.rfl, fun _ => ⟨rfl, rfl⟩⟩
  · nofun
  · nofun
  · intro b' other filling
    rw [waiting] at filling
    contradiction
  · intro locked
    rcases inv.held p b locked with full | ⟨other, filling⟩
    · exact .inl full
    · rw [waiting] at filling
      contradiction

/-- A step of the holder that keeps the lock: new contents, or one pin more or less. -/
theorem CacheInv.edit (later : ℕ → Prop) (idle : s.wait p = .run)
    (held : (s.cache.buf b).lock = some p) (bufs : t.cache = s.cache.set b buf)
    (waits : t.wait = s.wait) (dev : t.log.dev = s.log.dev)
    (kept : buf.dev = (s.cache.buf b).dev ∧ buf.blockno = (s.cache.buf b).blockno ∧
      buf.lock = (s.cache.buf b).lock ∧ buf.valid = (s.cache.buf b).valid)
    (elsewhere : ∀ blockno, blockno ≠ (s.cache.buf b).blockno → (later blockno ↔ pins blockno))
    (balance : buf.refcnt + pinRefs s pins b = (s.cache.buf b).refcnt + pinRefs s later b) :
    CacheInv t later := by
  have mounted := inv.mounted (inv.held_used held)
  have full : (s.cache.buf b).valid = true := by
    rcases inv.held p b held with full | ⟨other, filling⟩
    · exact full
    · rw [idle] at filling
      contradiction
  refine inv.touch (b := b) (p := p) (w := .run) (by rw [bufs]; rfl) ?_ dev
    (by rw [bufs]; exact inv.ring) ⟨kept.1, kept.2.1⟩ mounted elsewhere ?_ ?_ ?_ ?_ ?_ ?_ ?_ ?_ ?_
  · rw [waits, ← idle, update_eq_self]
  · simp [idle]
  · simp only [idle, waitRefs_run, lockRefs, kept.2.2.1]
    omega
  · exact fun _ => kept.2.2.2.trans full
  · intro q other
    rw [kept.2.2.1, held]
    exact ⟨Iff.rfl, fun theirs => absurd (some.inj theirs).symm other⟩
  · nofun
  · nofun
  · intro b' other filling
    rw [idle] at filling
    contradiction
  · exact fun _ => .inl (kept.2.2.2.trans full)
  · intro free
    rw [kept.2.2.1, held] at free
    contradiction

end

theorem boot_cacheInv (dev logstart nlog : ℕ) (disk : ℕ → Block) (p : ι) (some_dev : 1 ≤ dev) :
    CacheInv (LogState.boot dev logstart nlog disk p) fun _ => False where
  ring := binit_ringOk
  unique b b' blockno first := by
    have zero : (0 : ℕ) = dev := first.1
    omega
  spare _ _ := ⟨rfl, rfl⟩
  count b := by
    rw [pinRefs_zero fun _ _ => id]
    simp [refs, LogState.boot, Bcache.binit, lockRefs]
  cached _ := False.elim
  acquiring := nofun
  filling := nofun
  held := nofun
  clean _ _ := rfl

end Preservation

end Xv6Cos.Verif
