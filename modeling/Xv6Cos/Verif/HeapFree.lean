import Xv6Cos.Spec.Heap
import Mathlib.Tactic.Ring

/-!
# `free` keeps the list

`free` finds the place of the block in the list, joins it with the block above and then with the
one below, or links it there. The two parts are specified on their own: the first makes what is
behind the block, the second the whole cycle.
-/

namespace Xv6Cos.Verif

open User Spec Tiling Cycle Function List Prod Heap

variable {s : Heap} {free live L R : List HeapBlock} {p bp n : ℕ} {b : HeapBlock}

section Updates

variable {q c : ℕ} {k : UInt32}

@[simp] theorem setPtr_base : (s.setPtr p q).base = s.base := rfl

@[simp] theorem setPtr_size : (s.setPtr p q).size = s.size := rfl

@[simp] theorem setPtr_ptr : (s.setPtr p q).ptr = update s.ptr p q := rfl

@[simp] theorem setSize_base : (s.setSize p k).base = s.base := rfl

@[simp] theorem setSize_ptr : (s.setSize p k).ptr = s.ptr := rfl

@[simp] theorem setSize_size : (s.setSize p k).size = update s.size p k := rfl

/-- Joining with the block above changes the header of the block only. -/
theorem joinUpper_frame (s : Heap) (bp p : ℕ) : (s.joinUpper bp p).base = s.base ∧
    (s.joinUpper bp p).brk = s.brk ∧ (s.joinUpper bp p).regions = s.regions ∧
    ∀ c, c ≠ bp → (s.joinUpper bp p).ptr c = s.ptr c ∧ (s.joinUpper bp p).size c = s.size c := by
  unfold joinUpper
  split <;> exact ⟨rfl, rfl, rfl, fun c ne => by simp [update_of_ne ne]⟩

/-- Joining with the block below changes the header of that block only. -/
theorem joinLower_frame (s : Heap) (bp p : ℕ) : (s.joinLower bp p).base = s.base ∧
    (s.joinLower bp p).brk = s.brk ∧ (s.joinLower bp p).regions = s.regions ∧
    ∀ c, c ≠ p → (s.joinLower bp p).ptr c = s.ptr c ∧ (s.joinLower bp p).size c = s.size c := by
  unfold joinLower
  split <;> exact ⟨rfl, rfl, rfl, fun c ne => by simp [update_of_ne ne]⟩

end Updates

/-- One block ends before the other starts, and they are not adjacent. -/
abbrev EndsBelow (b c : HeapBlock) : Prop := b.1 + HEADER * b.2 < c.1

/-- A block of this size, from which the list goes on to these blocks and to `base`. -/
structure Behind (s : Heap) (a n : ℕ) (rest : List HeapBlock) : Prop where
  path : Path s.ptr a (rest.map Prod.fst) s.base
  size : (s.size a).toNat = n
  sizes : ∀ c ∈ rest, (s.size c.1).toNat = c.2
  below : ∀ c ∈ rest, EndsBelow (a, n) c
  sorted : rest.Pairwise EndsBelow

/-- The first part of `free`: the block is joined with the block above, or linked to it. -/
theorem joinUpper_spec (path : Path s.ptr p (R.map fst) s.base) (size : (s.size bp).toNat = n)
    (sizes : ∀ c ∈ R, (s.size c.1).toNat = c.2) (sorted : R.Pairwise EndsBelow) (positive : 0 < n)
    (beyond : ∀ c ∈ R, bp + HEADER * n ≤ c.1) (low : s.base < bp)
    (fits : ∀ c ∈ R, c.1 = bp + HEADER * n → n + c.2 < 2 ^ 32) :
    ∃ n' R', Behind (s.joinUpper bp p) bp n' R' ∧
      (n' = n ∧ R' = R ∨ ∃ m, R = (bp + HEADER * n, m) :: R' ∧ n' = n + m) := by
  have ne : ∀ c ∈ R, c.1 ≠ bp := by
    intro c mem same
    have less := beyond c mem
    simp only [HEADER] at less
    omega
  have top : s.above bp = bp + HEADER * n := by rw [Heap.above, size]
  cases R with
  | nil =>
    have back : s.ptr p = s.base := path
    have apart : s.above bp ≠ s.ptr p := by
      rw [top, back]
      omega
    rw [joinUpper, if_neg apart, back]
    exact ⟨n, [], ⟨update_self .., size, nofun, nofun, .nil⟩, .inl ⟨rfl, rfl⟩⟩
  | cons c R =>
    obtain ⟨q, m⟩ := c
    obtain ⟨here, later⟩ := path
    obtain ⟨above, sorted'⟩ := pairwise_cons.mp sorted
    have ne' : ∀ x ∈ R.map fst, x ≠ bp :=
      forall_mem_map.mpr fun c inside => ne c (mem_cons_of_mem _ inside)
    have first := beyond _ (mem_cons_self ..)
    by_cases joins : bp + HEADER * n = q
    · have small := fits _ (mem_cons_self ..) joins.symm
      have joined : (s.size bp + s.size q).toNat = n + m := by
        rw [UInt32.toNat_add, size, sizes _ (mem_cons_self ..)]
        exact Nat.mod_eq_of_lt small
      rw [joinUpper, if_pos (by rw [top, here, joins]), here]
      refine ⟨n + m, R, ⟨?_, ?_, ?_, ?_, sorted'⟩, .inr ⟨m, by rw [joins], rfl⟩⟩
      · exact later.enter (update_self ..) fun c mem => update_of_ne (ne' c mem) ..
      · simpa using joined
      · intro c mem
        simp only [setPtr_size, setSize_size]
        rw [update_of_ne (ne c (mem_cons_of_mem _ mem))]
        exact sizes c (mem_cons_of_mem _ mem)
      · intro c mem
        have less := above c mem
        simp only [EndsBelow, HEADER] at less joins ⊢
        omega
    · rw [joinUpper, if_neg (by rw [top, here]; exact joins), here]
      refine ⟨n, (q, m) :: R, ⟨?_, size, sizes, ?_, sorted⟩, .inl ⟨rfl, rfl⟩⟩
      · refine ⟨update_self .., later.congr fun c mem => update_of_ne ?_ ..⟩
        rcases mem_cons.mp mem with rfl | inside
        · exact ne _ (mem_cons_self ..)
        · exact ne' c inside
      · intro c mem
        rcases mem_cons.mp mem with rfl | inside
        · simp only [EndsBelow]
          simp only at first
          omega
        · have less := above c inside
          simp only [EndsBelow] at less ⊢
          simp only at first
          omega

theorem addresses_sorted (sorted : free.Pairwise EndsBelow) : (free.map fst).Pairwise (· < ·) := by
  refine pairwise_map.mpr (sorted.imp fun {b c} less => ?_)
  simp only [EndsBelow] at less
  omega

/-- Blocks in order, around one that starts where they are cut. -/
theorem sorted_around (left : L.Pairwise EndsBelow) (right : R.Pairwise EndsBelow)
    (below : ∀ b ∈ L, EndsBelow b (bp, n)) (above : ∀ c ∈ R, EndsBelow (bp, n) c) :
    (L ++ (bp, n) :: R).Pairwise EndsBelow := by
  refine pairwise_append.mpr ⟨left, pairwise_cons.mpr ⟨above, right⟩, ?_⟩
  intro b inLeft c mem
  rcases mem_cons.mp mem with rfl | inRight
  · exact below b inLeft
  · have first := below b inLeft
    have second := above c inRight
    simp only [EndsBelow] at first second ⊢
    omega

/-- The list from `base` as far as these blocks. -/
structure Ahead (s : Heap) (L : List HeapBlock) : Prop where
  path : ∃ w, Path s.ptr s.base (L.map Prod.fst) w
  root : s.size s.base = 0
  sizes : ∀ b ∈ L, (s.size b.1).toNat = b.2
  sorted : L.Pairwise EndsBelow
  first : ∀ b ∈ L, s.base < b.1

theorem Ahead.distinct (ahead : Ahead s L) : (s.base :: L.map fst).Nodup :=
  have ordered : (s.base :: L.map fst).Pairwise (· < ·) :=
    pairwise_cons.mpr ⟨forall_mem_map.mpr ahead.first, addresses_sorted ahead.sorted⟩
  ordered.imp fun less => less.ne

theorem Behind.high (behind : Behind s bp n R) : ∀ c ∈ R, bp < c.1 := by
  intro c mem
  have less := behind.below c mem
  simp only [EndsBelow] at less
  omega

/-- The block below is linked to the block. -/
theorem links_below (ahead : Ahead s L) (behind : Behind s bp n R) (low : s.base < bp)
    (gap : ∀ b ∈ L, EndsBelow b (bp, n)) (link : p = last s.base (L.map fst)) :
    FreeList { s.setPtr p bp with freep := p } (L ++ (bp, n) :: R) := by
  have mem : p ∈ s.base :: L.map fst := link ▸ last_mem
  have lefts : ∀ x ∈ L.map fst, x < bp := by
    refine forall_mem_map.mpr fun b inside => ?_
    have less := gap b inside
    simp only [EndsBelow] at less
    omega
  have rights : ∀ x ∈ R.map fst, bp < x := forall_mem_map.mpr behind.high
  have pLow : p < bp := by
    rcases mem_cons.mp mem with same | inside
    · rwa [same]
    · exact lefts p inside
  have notHere : ∀ x ∈ bp :: R.map fst, x ≠ p := by
    intro x mem
    rcases mem_cons.mp mem with rfl | inside
    · exact pLow.ne'
    · exact (pLow.trans (rights x inside)).ne'
  obtain ⟨w, before⟩ := ahead.path
  refine ⟨?_, ?_, ahead.root, ?_, sorted_around ahead.sorted behind.sorted gap behind.below, ?_⟩
  · rw [map_append, map_cons]
    refine path_append.mpr
      ⟨?_, behind.path.congr fun c mem => update_of_ne (notHere c mem) ..⟩
    refine before.turn ahead.distinct (fun c mem ne => ?_) ?_
    · exact update_of_ne (link ▸ ne) ..
    · rw [← link]
      exact update_self ..
  · rw [map_append, ← cons_append]
    exact mem_append_left _ mem
  · intro b mem
    rcases mem_append.mp mem with inLeft | inRight
    · exact ahead.sizes b inLeft
    · rcases mem_cons.mp inRight with rfl | inRight
      · exact behind.size
      · exact behind.sizes b inRight
  · intro b mem
    rcases mem_append.mp mem with inLeft | inRight
    · exact ahead.first b inLeft
    · rcases mem_cons.mp inRight with rfl | inRight
      · exact low
      · exact low.trans (behind.high b inRight)

/-- The block below is joined with the block. -/
theorem joins_below {k : ℕ} (ahead : Ahead s (L ++ [(p, k)])) (behind : Behind s bp n R)
    (joins : p + HEADER * k = bp) (pLow : p < bp) (fits : k + n < 2 ^ 32) :
    FreeList { (s.setSize p (s.size p + s.size bp)).setPtr p (s.ptr bp) with freep := p }
      (L ++ (p, k + n) :: R) := by
  have ended : (p, k) ∈ L ++ [(p, k)] := by simp
  have sizeP : (s.size p).toNat = k := ahead.sizes _ ended
  have joined : (s.size p + s.size bp).toNat = k + n := by
    rw [UInt32.toNat_add, sizeP, behind.size]
    exact Nat.mod_eq_of_lt fits
  have start : s.base < p := ahead.first _ ended
  obtain ⟨sortedL, -, belowP⟩ := pairwise_append.mp ahead.sorted
  have others : ∀ b ∈ L, b.1 ≠ p := by
    intro b mem
    have less := belowP b mem (p, k) (mem_singleton_self _)
    simp only [EndsBelow] at less
    omega
  have notHere : ∀ c ∈ R, c.1 ≠ p := fun c mem => (pLow.trans (behind.high c mem)).ne'
  have lefts : ∀ x ∈ L.map fst, x ≠ p := forall_mem_map.mpr others
  have rights : ∀ x ∈ R.map fst, x ≠ p := forall_mem_map.mpr notHere
  obtain ⟨w, before⟩ := ahead.path
  refine ⟨?_, ?_, ?_, ?_, ?_, ?_⟩
  · rw [map_append, map_cons]
    rw [map_append, map_singleton] at before
    refine path_append.mpr ⟨(path_append.mp before).1.congr fun c mem => ?_, ?_⟩
    · refine update_of_ne ?_ ..
      rcases mem_cons.mp mem with rfl | inside
      · exact start.ne
      · exact lefts c inside
    · exact behind.path.enter (update_self ..) fun c mem =>
        update_of_ne (rights c mem) ..
  · simp
  · simp only [setPtr_size, setSize_size]
    rw [update_of_ne (by simpa using start.ne)]
    exact ahead.root
  · intro b mem
    simp only [setPtr_size, setSize_size]
    rcases mem_append.mp mem with inLeft | inRight
    · rw [update_of_ne (others b inLeft)]
      exact ahead.sizes b (mem_append_left _ inLeft)
    · rcases mem_cons.mp inRight with rfl | inRight
      · rw [update_self]
        exact joined
      · rw [update_of_ne (notHere b inRight)]
        exact behind.sizes b inRight
  · refine sorted_around sortedL behind.sorted (fun b mem => belowP b mem (p, k) (by simp)) ?_
    intro c mem
    have less := behind.below c mem
    simp only [EndsBelow, HEADER] at less joins ⊢
    omega
  · intro b mem
    rcases mem_append.mp mem with inLeft | inRight
    · exact ahead.first b (mem_append_left _ inLeft)
    · rcases mem_cons.mp inRight with rfl | inRight
      · exact start
      · exact start.trans (pLow.trans (behind.high b inRight))

/-- The second part of `free`: the block below is joined with the block, or linked to it. -/
theorem joinLower_spec (ahead : Ahead s L) (behind : Behind s bp n R)
    (under : ∀ b ∈ L, b.1 < bp ∧ b.1 + HEADER * b.2 ≤ bp) (low : s.base < bp)
    (fits : ∀ b ∈ L, b.1 + HEADER * b.2 = bp → b.2 + n < 2 ^ 32)
    (link : p = last s.base (L.map fst)) :
    ∃ free, FreeList { s.joinLower bp p with freep := p } free ∧
      (free = L ++ (bp, n) :: R ∨
        ∃ L' a k, L = L' ++ [(a, k)] ∧ a + HEADER * k = bp ∧ free = L' ++ (a, k + n) :: R) := by
  by_cases joins : s.above p = bp
  · rw [joinLower, if_pos joins]
    rcases eq_nil_or_concat L with rfl | ⟨L', ⟨a, k⟩, rfl⟩
    · -- `base` has size 0
      obtain rfl : p = s.base := link
      rw [Heap.above, ahead.root] at joins
      exact absurd joins low.ne
    · rw [concat_eq_append] at *
      obtain rfl : p = a := by simpa using link
      have ended : (p, k) ∈ L' ++ [(p, k)] := by simp
      rw [Heap.above, ahead.sizes _ ended] at joins
      exact ⟨_, joins_below ahead behind joins (under _ ended).1 (fits _ ended joins),
        .inr ⟨L', p, k, rfl, joins, rfl⟩⟩
  · have gap : ∀ b ∈ L, EndsBelow b (bp, n) := by
      intro b mem
      refine lt_of_le_of_ne (under b mem).2 fun touches => joins ?_
      -- only the last of the blocks can end where the block starts
      rcases eq_nil_or_concat L with rfl | ⟨L', last, rfl⟩
      · nomatch mem
      rw [concat_eq_append] at *
      obtain rfl : p = last.1 := by simpa using link
      rw [Heap.above, ahead.sizes last (by simp)]
      have ends := under last (by simp)
      rcases mem_append.mp mem with inLeft | ended
      · have less := (pairwise_append.mp ahead.sorted).2.2 b inLeft last (by simp)
        simp only [EndsBelow] at less
        omega
      · obtain rfl := mem_singleton.mp ended
        exact touches
    rw [joinLower, if_neg joins]
    exact ⟨_, links_below ahead behind low gap link, .inl rfl⟩

section Blocks

variable {rest : List HeapBlock} {area : ℕ → Prop} {a m : ℕ}

theorem tiles_join (tiles : Tiles (((a, m) :: (a + HEADER * m, n) :: rest).map bytes) area) :
    Tiles (((a, m + n) :: rest).map bytes) area := by
  have left : 0 < HEADER * m := tiles.positive (a, HEADER * m) (mem_cons_self ..)
  have right : 0 < HEADER * n := tiles.positive (a + HEADER * m, HEADER * n)
    (mem_cons_of_mem _ (mem_cons_self ..))
  rw [map_cons, bytes, Nat.mul_add]
  exact (tiles_cut left right).mp tiles

/-- A block may be cut. -/
theorem tiles_split (left : 0 < m) (right : 0 < n)
    (tiles : Tiles (((a, m + n) :: rest).map bytes) area) :
    Tiles (((a, m) :: (a + HEADER * m, n) :: rest).map bytes) area := by
  rw [map_cons, bytes, Nat.mul_add] at tiles
  exact (tiles_cut (Nat.mul_pos (by decide) left) (Nat.mul_pos (by decide) right)).mpr tiles

theorem tiles_perm {blocks other : List HeapBlock} (tiles : Tiles (blocks.map bytes) area)
    (same : ∀ b, other.count b = blocks.count b) : Tiles (other.map bytes) area :=
  tiles.perm ((perm_iff_count.mpr fun b => (same b).symm).map bytes)

end Blocks

/-- What `malloc` and `free` keep, once there is a list. -/
structure HeapInv (s : Heap) (free live : List HeapBlock) : Prop where
  list : FreeList s free
  tiles : Tiles ((free ++ live).map bytes) (Obtained s)
  headers : ∀ b ∈ live, (s.size b.1).toNat = b.2
  span : ∀ r ∈ s.regions, s.base + HEADER ≤ r.1 ∧ r.1 + r.2 ≤ s.brk
  based : 0 < s.base ∧ s.base + HEADER ≤ s.brk

theorem HeapInv.units (inv : HeapInv s free live) (mem : b ∈ free ++ live) : 0 < b.2 :=
  Nat.pos_of_mul_pos_left (inv.tiles.positive (bytes b) (mem_map_of_mem mem))

/-- All blocks are above `base` and below the end of the heap. -/
theorem HeapInv.within (inv : HeapInv s free live) (mem : b ∈ free ++ live) :
    s.base + HEADER ≤ b.1 ∧ b.1 + HEADER * b.2 ≤ s.brk := by
  have positive : 0 < HEADER * b.2 := inv.tiles.positive (bytes b) (mem_map_of_mem mem)
  have here : ∀ x, Has (bytes b) x → s.base + HEADER ≤ x ∧ x < s.brk := by
    intro x has
    obtain ⟨r, inside, low, high⟩ := (inv.tiles.cover x).mp ⟨bytes b, mem_map_of_mem mem, has⟩
    have bounds := inv.span r inside
    omega
  have low := here b.1 ⟨le_refl b.1, by simp only [bytes]; omega⟩
  have high := here (b.1 + HEADER * b.2 - 1)
    ⟨by simp only [bytes]; omega, by simp only [bytes]; omega⟩
  omega

/-- Free blocks are apart from those in use, and these from each other. -/
theorem HeapInv.apart (inv : HeapInv s free live) {c : HeapBlock} (first : b ∈ free)
    (second : c ∈ live) : b.1 + HEADER * b.2 ≤ c.1 ∨ c.1 + HEADER * c.2 ≤ b.1 :=
  (pairwise_append.mp (pairwise_map.mp inv.tiles.apart)).2.2 b first c second

/-- Joined with free neighbours, the block has less than 2³² units. -/
def JoinsFit (free : List HeapBlock) (bp n : ℕ) : Prop :=
  ∀ b c : HeapBlock, (b ∈ free ∧ b.1 + HEADER * b.2 = bp ∨ b.2 = 0) →
    (c ∈ free ∧ c.1 = bp + HEADER * n ∨ c.2 = 0) → b.2 + n + c.2 < 2 ^ 32

/-- Blocks in use are not in the list. -/
theorem HeapInv.not_listed (inv : HeapInv s free live) {c : HeapBlock} (mem : c ∈ live) :
    c.1 ∉ s.base :: free.map fst := by
  intro listed
  have used := inv.units (mem_append_right free mem)
  rcases mem_cons.mp listed with same | inside
  · have bounds := inv.within (mem_append_right free mem)
    simp only [HEADER] at bounds
    omega
  · obtain ⟨b, inside, same⟩ := mem_map.mp inside
    have apart := inv.apart inside mem
    have units := inv.units (mem_append_left live inside)
    simp only [HEADER] at apart
    omega

/-- Blocks in use have different headers. -/
theorem HeapInv.header_ne (inv : HeapInv s free ((bp, n) :: live)) {c : HeapBlock}
    (mem : c ∈ live) :
    c.1 ≠ bp := by
  have apart := (pairwise_cons.mp (pairwise_append.mp
    (pairwise_map.mp inv.tiles.apart)).2.1).1 c mem
  have mine : (bp, n) ∈ free ++ (bp, n) :: live := by simp
  have first := inv.units mine
  have second := inv.units (mem_append_right free (mem_cons_of_mem (bp, n) mem))
  simp only [Apart, bytes, HEADER] at apart first
  omega

/-- The place of a block in use, in the list. -/
theorem HeapInv.place (inv : HeapInv s free ((bp, n) :: live)) :
    ∃ L R, free = L ++ R ∧
      search s.ptr (s.freeStops bp) (free.length + 1) s.freep = some (last s.base (L.map fst)) ∧
      (∀ b ∈ L, b.1 < bp ∧ b.1 + HEADER * b.2 ≤ bp) ∧ ∀ c ∈ R, bp + HEADER * n ≤ c.1 := by
  have apart : ∀ b ∈ free, b.1 + HEADER * b.2 ≤ bp ∨ bp + HEADER * n ≤ b.1 :=
    fun b mem => inv.apart mem (mem_cons_self ..)
  have mine : (bp, n) ∈ free ++ (bp, n) :: live := by simp
  have start : s.base < bp := by
    have bounds := inv.within mine
    simp only [HEADER] at bounds
    omega
  have fresh : bp ∉ free.map fst :=
    fun mem => inv.not_listed (mem_cons_self ..) (mem_cons_of_mem _ mem)
  obtain ⟨left, right, cut, below, above⟩ := exists_split (addresses_sorted inv.list.sorted) fresh
  obtain ⟨L, R, rfl, rfl, rfl⟩ := map_eq_append_iff.mp cut
  have sorted : (s.base :: (L.map fst ++ R.map fst)).Pairwise (· < ·) := by
    rw [← map_append]
    exact pairwise_cons.mpr
      ⟨forall_mem_map.mpr inv.list.first, addresses_sorted inv.list.sorted⟩
  have cycle := inv.list.cycle
  have entry := inv.list.entry
  rw [map_append] at cycle entry
  refine ⟨L, R, rfl, ?_, fun b mem => ?_, fun c mem => ?_⟩
  · have found := search_position cycle sorted start below above entry
    rwa [length_append, length_map, length_map, ← length_append] at found
  · have less := below b.1 (mem_map_of_mem mem)
    have either := apart b (mem_append_left _ mem)
    omega
  · have more := above c.1 (mem_map_of_mem mem)
    have either := apart c (mem_append_right _ mem)
    omega

/-- What is ahead of a block does not change when the block is joined with the one above. -/
theorem ahead_of_list (list : FreeList s (L ++ R)) (low : s.base < bp)
    (under : ∀ b ∈ L, b.1 < bp ∧ b.1 + HEADER * b.2 ≤ bp) : Ahead (s.joinUpper bp p) L := by
  have cycle := list.cycle
  rw [map_append] at cycle
  obtain ⟨⟨w, path⟩, -⟩ := path_cut.mp cycle
  obtain ⟨base, -, -, frame⟩ := joinUpper_frame s bp p
  have lefts : ∀ x ∈ L.map fst, x ≠ bp := forall_mem_map.mpr fun b mem => (under b mem).1.ne
  refine ⟨⟨w, ?_⟩, ?_, ?_, (pairwise_append.mp list.sorted).1, ?_⟩
  · rw [base]
    refine path.congr fun c mem => (frame c ?_).1
    rcases mem_cons.mp mem with rfl | inside
    · exact low.ne
    · exact lefts c inside
  · rw [base, (frame _ low.ne).2]
    exact list.root
  · intro b mem
    rw [(frame _ (under b mem).1.ne).2]
    exact list.sizes b (mem_append_left _ mem)
  · rw [base]
    exact fun b mem => list.first b (mem_append_left _ mem)

/-- The blocks after `free` tile the same area. -/
theorem tiles_joined {free' R' : List HeapBlock} {n' : ℕ} {area : ℕ → Prop}
    (tiles : Tiles ((L ++ R ++ (bp, n) :: live).map bytes) area)
    (upper : n' = n ∧ R' = R ∨ ∃ m, R = (bp + HEADER * n, m) :: R' ∧ n' = n + m)
    (lower : free' = L ++ (bp, n') :: R' ∨
      ∃ L' a k, L = L' ++ [(a, k)] ∧ a + HEADER * k = bp ∧ free' = L' ++ (a, k + n') :: R') :
    Tiles ((free' ++ live).map bytes) area := by
  have start : Tiles (((bp, n) :: R ++ (L ++ live)).map bytes) area := tiles_perm tiles fun b => by
    simp only [cons_append, count_append, count_cons]
    omega
  have first : Tiles (((bp, n') :: R' ++ (L ++ live)).map bytes) area := by
    rcases upper with ⟨rfl, rfl⟩ | ⟨m, rfl, rfl⟩
    · exact start
    · exact tiles_join start
  rcases lower with rfl | ⟨L', a, k, rfl, rfl, rfl⟩
  · exact tiles_perm first fun b => by
      simp only [cons_append, count_append, count_cons]
      omega
  · have pair : Tiles (((a, k) :: (a + HEADER * k, n') :: (R' ++ L' ++ live)).map bytes) area :=
      tiles_perm first fun b => by
        simp only [cons_append, count_append, count_cons, count_nil]
        omega
    exact tiles_perm (tiles_join pair) fun b => by
      simp only [count_append, count_cons]
      omega

/-- `free` ends, and puts the block into the list. -/
theorem free_spec (inv : HeapInv s free ((bp, n) :: live)) (fits : JoinsFit free bp n) :
    ∃ t free', s.free (free.length + 1) (bp + HEADER) = some t ∧ HeapInv t free' live ∧
      ∃ b ∈ free', n ≤ b.2 := by
  obtain ⟨L, R, rfl, found, under, beyond⟩ := inv.place
  generalize link : last s.base (L.map fst) = p at found
  have mine : (bp, n) ∈ L ++ R ++ (bp, n) :: live := by simp
  have low : s.base < bp := by
    have bounds := inv.within mine
    simp only [HEADER] at bounds
    omega
  have cycle := inv.list.cycle
  rw [map_append] at cycle
  have after := (path_cut.mp cycle).2
  rw [link] at after
  have sorted := (pairwise_append.mp inv.list.sorted).2.1
  obtain ⟨n', R', behind, upper⟩ := joinUpper_spec after (inv.headers _ (mem_cons_self ..))
    (fun c mem => inv.list.sizes c (mem_append_right _ mem)) sorted (inv.units mine) beyond low
    (fun c mem adjacent => by
      have small := fits (0, 0) c (.inr rfl) (.inl ⟨mem_append_right _ mem, adjacent⟩)
      simpa using small)
  obtain ⟨base1, brk1, regions1, frame1⟩ := joinUpper_frame s bp p
  obtain ⟨free', list, lower⟩ := joinLower_spec (ahead_of_list inv.list low under) behind under
    (base1 ▸ low)
    (fun b mem adjacent => by
      rcases upper with ⟨rfl, -⟩ | ⟨m, rfl, rfl⟩
      · have small := fits b (0, 0) (.inl ⟨mem_append_left _ mem, adjacent⟩) (.inr rfl)
        simpa using small
      · have small := fits b (bp + HEADER * n, m) (.inl ⟨mem_append_left _ mem, adjacent⟩)
          (.inl ⟨by simp, rfl⟩)
        simp only at small
        omega) (by rw [base1, link])
  obtain ⟨base2, brk2, regions2, frame2⟩ := joinLower_frame (s.joinUpper bp p) bp p
  refine ⟨{ (s.joinUpper bp p).joinLower bp p with freep := p }, free', ?_,
    ⟨list, ?_, fun c mem => ?_, ?_, ?_⟩, ?_⟩
  · rw [Heap.free, Nat.add_sub_cancel, found]
    rfl
  · have same : Obtained { (s.joinUpper bp p).joinLower bp p with freep := p } = Obtained s := by
      funext x
      simp only [Obtained, regions2, regions1]
    rw [same]
    exact tiles_joined inv.tiles upper lower
  · -- the headers that `free` changes are not those of other blocks in use
    have notBelow : c.1 ≠ p := by
      rintro rfl
      apply inv.not_listed (mem_cons_of_mem _ mem)
      rw [map_append, ← cons_append]
      exact mem_append_left _ (link ▸ last_mem)
    show (((s.joinUpper bp p).joinLower bp p).size c.1).toNat = c.2
    rw [(frame2 _ notBelow).2, (frame1 _ (inv.header_ne mem)).2]
    exact inv.headers c (mem_cons_of_mem _ mem)
  · show ∀ r ∈ ((s.joinUpper bp p).joinLower bp p).regions, _
    simp only [regions2, regions1, base2, base1, brk2, brk1]
    exact inv.span
  · simp only [base2, base1, brk2, brk1]
    exact inv.based
  · have grown : n ≤ n' := by
      rcases upper with ⟨rfl, -⟩ | ⟨m, -, rfl⟩ <;> omega
    rcases lower with rfl | ⟨L', a, k, rfl, rfl, rfl⟩
    · exact ⟨(bp, n'), by simp, grown⟩
    · exact ⟨(a, k + n'), by simp, by simp only; omega⟩

end Xv6Cos.Verif
