import Xv6Cos.Spec.BlockStore
import Xv6Cos.Verif.LogSections
import Xv6Cos.Verif.LogCache

/-!
# The invariant of the log machine

`ControlInv` says who may do what: one process at a time is in `commit` or `initlog`, and
then no operation runs. `EditInv` ties modified buffers to running operations, `CacheInv`
counts references and pins, and `DataInv` relates cache and disk to the block store. For the
process in `commit` or `initlog`, `StageOk` says how far it has come.
-/

namespace Xv6Cos.Verif

open Kernel Spec Logheader Bytes

variable {ι : Type} {lh : Logheader}

/-- A list of blocks that the log can hold. -/
structure HeaderOk (log : Log) (blocks : List ℕ) : Prop where
  fits : blocks.length ≤ LOGSIZE
  inside : blocks.length ≤ log.size - 1
  distinct : blocks.Nodup
  home : ∀ blockno ∈ blocks, log.home blockno

/-- The blocks named by the header on disk. -/
def onDisk (log : Log) (disk : ℕ → Block) : List ℕ :=
  entries (Logheader.readHead { n := 0, block := fun _ => 0 } (disk log.start))

/-- The contents that recovery from this disk gives to a home block. -/
def recovered (log : Log) (disk : ℕ → Block) (blockno : ℕ) : Block :=
  if blockno ∈ onDisk log disk then disk (log.start + (onDisk log disk).idxOf blockno + 1)
  else disk blockno

/-- Whether a stage belongs to `commit` or to `recover_from_log`. -/
def stageMode : Stage → Mode
  | .install mode _ | .installDst mode _ _ | .installCopy mode _ _ _ | .installUnpin mode _ _ _
  | .installRelLog mode _ _ _ | .installRelDst mode _ _ | .clear mode
  | .writeHead (.erase mode) | .writeHeadFill (.erase mode) _ | .writeHeadRel (.erase mode) _ =>
    mode
  | .readHead | .readHeadCopy _ | .readHeadRel _ | .initDone => .recover
  | _ => .commit

/-- Whether entry `i` of the log is still pinned in a stage. The pins are dropped one by one
in `install_trans`; recovery has none. -/
def keepsPin (i : ℕ) : Stage → Bool
  | .install .commit tail | .installDst .commit tail _ | .installCopy .commit tail _ _
  | .installUnpin .commit tail _ _ => tail ≤ i
  | .installRelLog .commit tail _ _ | .installRelDst .commit tail _ => tail < i
  | .user | .commit | .writeLog _ | .writeLogFrom _ _ | .writeLogCopy _ _ _
  | .writeLogRelFrom _ _ _ | .writeLogRelTo _ _ | .writeHead .log | .writeHeadFill .log _
  | .writeHeadRel .log _ => true
  | _ => false

/-- The block is named by an entry of the log whose pin has not been dropped. -/
def Pinned (s : LogState ι) (blockno : ℕ) : Prop :=
  ∃ i < s.log.lh.n, s.log.lh.block i = blockno ∧ ∀ p, keepsPin i (s.stage p) = true

/-- The process holds the buffer of this block, and has not modified it. -/
def Holds (s : LogState ι) (p : ι) (b : Fin NBUF) (blockno : ℕ) : Prop :=
  (s.cache.buf b).lock = some p ∧ Caches s b blockno ∧ (s.cache.buf b).valid = true ∧
    (s.cache.buf b).edit = .clean

/-- Who may do what. -/
structure ControlInv [Fintype ι] (s : LogState ι) : Prop where
  device : 1 ≤ s.log.dev
  area : 1 ≤ s.log.size
  outstanding : s.log.outstanding = (∑ p, (s.inOp p).toNat : ℕ)
  reserved : s.log.outstanding ≤ (LOGSIZE / MAXOPBLOCKS : ℕ)
  single : ∀ p q, s.stage p ≠ .user → s.stage q ≠ .user → p = q
  idle : ∀ p q, s.stage p ≠ .user → s.inOp q = false
  committing : s.log.committing = true ↔ s.booted = true ∧ ∃ p, s.stage p ≠ .user
  mode : ∀ p, s.stage p ≠ .user → (stageMode (s.stage p) = .commit ↔ s.booted = true)
  header : HeaderOk s.log (entries s.log.lh)
  asked : ∀ p b blockno, s.wait p = .acquiring b blockno ∨ s.wait p = .filling b blockno →
    s.stage p = .user ∨ s.op (s.stage p) = some (.bread blockno)

/-- Modified buffers belong to running operations, and logged ones are in the log. -/
structure EditInv (s : LogState ι) : Prop where
  owner : ∀ b, (s.cache.buf b).edit ≠ .clean →
    ∃ p, (s.cache.buf b).lock = some p ∧ s.inOp p = true ∧ s.log.home (s.cache.buf b).blockno
  logged : ∀ b, (s.cache.buf b).edit = .logged → (s.cache.buf b).blockno ∈ entries s.log.lh

/-- How cache and disk stand to the block store. -/
structure DataInv (store : Store) (s : LogState ι) : Prop where
  cached : ∀ b blockno, Caches s b blockno → (s.cache.buf b).valid = true →
    (s.cache.buf b).edit = .clean → (s.cache.buf b).data = store.contents blockno
  stored : ∀ blockno, (s.booted = true → blockno ∉ entries s.log.lh) →
    s.disk blockno = store.contents blockno
  durable : ∀ blockno, s.log.home blockno →
    recovered s.log s.disk blockno = store.committed blockno
  header : HeaderOk s.log (onDisk s.log s.disk)
  group : s.booted = true → ∀ blockno, s.log.home blockno →
    store.contents blockno = applyGroup store.committed store.pending blockno

/-- The first `tail` entries have been copied to the log area, which no header names yet. -/
def Logged (store : Store) (s : LogState ι) (tail : ℕ) : Prop :=
  onDisk s.log s.disk = [] ∧ tail ≤ s.log.lh.n ∧
    ∀ i < tail, s.disk (s.log.start + i + 1) = store.contents (s.log.lh.block i)

/-- The header on disk names the entries, and the first `tail` of them are installed. -/
def Installed (store : Store) (s : LogState ι) (tail : ℕ) : Prop :=
  onDisk s.log s.disk = entries s.log.lh ∧ tail ≤ s.log.lh.n ∧ store.pending = [] ∧
    ∀ i < tail, s.disk (s.log.lh.block i) = store.committed (s.log.lh.block i)

/-- Everything is installed, whatever header is on disk. -/
def Erasing (store : Store) (s : LogState ι) : Prop :=
  s.log.lh.n = 0 ∧ store.pending = [] ∧
    ∀ blockno, s.log.home blockno → s.disk blockno = store.committed blockno

/-- The log is empty, in memory and on disk. -/
def Erased (s : LogState ι) : Prop := s.log.lh.n = 0 ∧ onDisk s.log s.disk = []

/-- How far the process in this stage has come, and which buffers it holds. -/
def StageOk (store : Store) (s : LogState ι) (p : ι) : Stage → Prop
  | .user => True
  | .commit => Logged store s 0
  | .writeLog tail => Logged store s tail
  | .writeLogFrom tail tobuf =>
    Logged store s tail ∧ tail < s.log.lh.n ∧ Holds s p tobuf (s.log.start + tail + 1)
  | .writeLogCopy tail tobuf frombuf =>
    Logged store s tail ∧ tail < s.log.lh.n ∧ Holds s p tobuf (s.log.start + tail + 1) ∧
      Holds s p frombuf (s.log.lh.block tail)
  | .writeLogRelFrom tail tobuf frombuf =>
    Logged store s (tail + 1) ∧ Holds s p tobuf (s.log.start + tail + 1) ∧
      Holds s p frombuf (s.log.lh.block tail)
  | .writeLogRelTo tail tobuf =>
    Logged store s (tail + 1) ∧ Holds s p tobuf (s.log.start + tail + 1)
  | .writeHead .log => Logged store s s.log.lh.n
  | .writeHeadFill .log buf => Logged store s s.log.lh.n ∧ Holds s p buf s.log.start
  | .writeHeadRel .log buf => Installed store s 0 ∧ Holds s p buf s.log.start
  | .writeHead (.erase _) => Erasing store s
  | .writeHeadFill (.erase _) buf => Erasing store s ∧ Holds s p buf s.log.start
  | .writeHeadRel (.erase _) buf =>
    Erased s ∧ store.pending = [] ∧ Holds s p buf s.log.start
  | .install _ tail => Installed store s tail
  | .installDst _ tail lbuf =>
    Installed store s tail ∧ tail < s.log.lh.n ∧ Holds s p lbuf (s.log.start + tail + 1)
  | .installCopy _ tail lbuf dbuf =>
    Installed store s tail ∧ tail < s.log.lh.n ∧ Holds s p lbuf (s.log.start + tail + 1) ∧
      Holds s p dbuf (s.log.lh.block tail)
  | .installUnpin _ tail lbuf dbuf | .installRelLog _ tail lbuf dbuf =>
    Installed store s (tail + 1) ∧ Holds s p lbuf (s.log.start + tail + 1) ∧
      Holds s p dbuf (s.log.lh.block tail)
  | .installRelDst _ tail dbuf =>
    Installed store s (tail + 1) ∧ Holds s p dbuf (s.log.lh.block tail)
  | .clear _ => Installed store s s.log.lh.n
  | .readHead => s.log.lh.n = 0 ∧ store.pending = []
  | .readHeadCopy buf => s.log.lh.n = 0 ∧ store.pending = [] ∧ Holds s p buf s.log.start
  | .readHeadRel buf => Installed store s 0 ∧ Holds s p buf s.log.start
  | .commitDone => Erased s
  | .initDone => Erased s ∧ store.pending = []

/-- The invariant of the log machine. -/
structure LogInv [Fintype ι] (store : Store) (s : LogState ι) : Prop where
  control : ControlInv s
  edits : EditInv s
  cache : CacheInv s (Pinned s)
  data : DataInv store s
  stages : ∀ p, StageOk store s p (s.stage p)
  quiet : (∀ p, s.stage p = .user) → onDisk s.log s.disk = []

section Header

/-- The entries in use, by index. -/
theorem mem_entries {blockno : ℕ} : blockno ∈ entries lh ↔ ∃ i < lh.n, lh.block i = blockno := by
  simp [entries]

@[simp] theorem length_entries (lh : Logheader) : (entries lh).length = lh.n := by
  simp [entries]

/-- Entry `i` stands at index `i`. -/
theorem idxOf_entries (distinct : (entries lh).Nodup) {i : ℕ} (inside : i < lh.n) :
    (entries lh).idxOf (lh.block i) = i := by
  have bound : i < (entries lh).length := by simpa using inside
  have here : (entries lh)[i] = lh.block i := by simp [entries]
  rw [← here, distinct.idxOf_getElem]

/-- Storing the entries changes no word outside them. -/
theorem readLE_fillHeadGo (lh : Logheader) (data : Block) (k a : ℕ)
    (outside : a + 4 ≤ 4 ∨ 4 * (k + 1) ≤ a) :
    readLE (lh.fillHeadGo data k) a 4 = readLE data a 4 := by
  induction k with
  | zero => rfl
  | succ k ih =>
    rw [fillHeadGo, readLE_writeLE_of_disjoint (by omega), ih (by omega)]

/-- The stored entries are read back. -/
theorem readLE_fillHeadGo_entry (lh : Logheader) (data : Block) (k i : ℕ) (inside : i < k)
    (fits : lh.block i < 256 ^ 4) :
    readLE (lh.fillHeadGo data k) (4 * (i + 1)) 4 = lh.block i := by
  induction k with
  | zero => omega
  | succ k ih =>
    rw [fillHeadGo]
    by_cases last : i = k
    · subst last
      exact readLE_writeLE fits
    · rw [readLE_writeLE_of_disjoint (by omega), ih (by omega)]

/-- `read_head` recovers what `write_head` stored. -/
theorem entries_readHead_fillHead {log : Log} {lh' : Logheader} (ok : HeaderOk log (entries lh))
    (data : Block) : entries (lh'.readHead (lh.fillHead data)) = entries lh := by
  have small : lh.n < 256 ^ 4 := by
    have bound := ok.fits
    simp only [length_entries, LOGSIZE, MAXOPBLOCKS] at bound
    omega
  have count : readLE (lh.fillHead data) 0 4 = lh.n := by
    rw [fillHead, readLE_fillHeadGo _ _ _ _ (.inl (by omega)), readLE_writeLE small]
  unfold entries readHead
  simp only [count]
  apply List.map_congr_left
  intro i member
  have inside := List.mem_range.mp member
  have home := ok.home _ (mem_entries.mpr ⟨i, inside, rfl⟩)
  rw [if_pos inside, fillHead,
    readLE_fillHeadGo_entry _ _ _ _ inside (by have := home.2; omega)]

/-- What `read_head` makes of the header depends on the block alone. -/
theorem entries_readHead (lh lh' : Logheader) (data : Block) :
    entries (lh.readHead data) = entries (lh'.readHead data) := by
  unfold entries readHead
  apply List.map_congr_left
  intro i member
  have inside : i < readLE data 0 4 := List.mem_range.mp member
  simp only [if_pos inside]

end Header

end Xv6Cos.Verif
