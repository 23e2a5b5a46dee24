import Xv6Cos.Verif.HeapMalloc

/-!
# The user heap over whole runs

Blocks and list stay as they should be in every run, as long as no block grows to 2³² units: the
size of a block is a `uint`, and `free` adds sizes without a check.
-/

namespace Xv6Cos.Verif

open User Spec Transition Tiling Cycle StepSystem List Option Heap UInt32 Nat

variable {nbytes : ℕ} {b : HeapBlock}

section Steps

variable {s : Heap} {free live : List HeapBlock} {bp n : ℕ}

/-- The order in which the program knows its blocks does not matter. -/
theorem HeapInv.reorder {other : List HeapBlock} (inv : HeapInv s free live)
    (same : other.Perm live) : HeapInv s free other where
  list := inv.list
  tiles := inv.tiles.perm ((same.symm.append_left free).map bytes)
  headers b mem := inv.headers b (same.mem_iff.mp mem)
  span := inv.span
  based := inv.based

/-- The list exists. -/
theorem HeapInv.freep_ne (inv : HeapInv s free live) : s.freep ≠ 0 := by
  have positive := inv.based.1
  rcases mem_cons.mp inv.list.entry with same | inside
  · omega
  · obtain ⟨b, mem, same⟩ := mem_map.mp inside
    have above := inv.list.first b mem
    omega

/-- Writes to blocks in use do not change headers. -/
theorem HeapInv.write (inv : HeapInv s free live) {ptr : ℕ → ℕ} {size : ℕ → UInt32}
    (frame : ∀ a, (∀ b ∈ live, a ≤ b.1 ∨ b.1 + HEADER * b.2 ≤ a) →
      ptr a = s.ptr a ∧ size a = s.size a) :
    HeapInv { s with ptr := ptr, size := size } free live := by
  have root : ptr s.base = s.ptr s.base ∧ size s.base = s.size s.base := by
    refine frame s.base fun b mem => .inl ?_
    have bounds := inv.within (mem_append_right free mem)
    omega
  have cells : ∀ c ∈ free, ptr c.1 = s.ptr c.1 ∧ size c.1 = s.size c.1 := by
    refine fun c inside => frame c.1 fun b mem => ?_
    have apart := inv.apart inside mem
    omega
  refine ⟨⟨?_, inv.list.entry, root.2.trans inv.list.root, ?_, inv.list.sorted, inv.list.first⟩,
    inv.tiles, ?_, inv.span, inv.based⟩
  · refine inv.list.cycle.congr fun c mem => ?_
    rcases mem_cons.mp mem with rfl | inside
    · exact root.1
    · obtain ⟨b, listed, rfl⟩ := mem_map.mp inside
      exact (cells b listed).1
  · intro b mem
    show (size b.1).toNat = b.2
    rw [(cells b mem).2]
    exact inv.list.sizes b mem
  · intro c inside
    show (size c.1).toNat = c.2
    rw [(frame c.1 fun b mem => ?_).2]
    · exact inv.headers c inside
    · by_cases same : c = b
      · exact .inl (same ▸ le_refl _)
      · have ne : bytes c ≠ bytes b := by
          intro equal
          obtain ⟨first, second⟩ := Prod.mk.inj equal
          exact same (Prod.ext first (Nat.eq_of_mul_eq_mul_left (by decide) second))
        have apart := inv.tiles.apart_of_ne
          (mem_map_of_mem (mem_append_right free inside))
          (mem_map_of_mem (mem_append_right free mem)) ne
        simp only [Apart, bytes] at apart
        omega

/-- Without a large gap, the joined block is not too large. -/
theorem HeapInv.fits (inv : HeapInv s free ((bp, n) :: live))
    (bounded : ¬∃ a, ∀ x, a ≤ x → x < a + HEADER * 2 ^ 32 →
      Obtained s x ∧ ∀ c ∈ live, ¬Has (bytes c) x) : JoinsFit free bp n := by
  intro b c first second
  by_contra large
  refine bounded ⟨bp - HEADER * b.2, fun x low high => ?_⟩
  -- every byte of the gap is in one of the blocks that are joined
  have inBlock : ∃ e ∈ free ++ [(bp, n)], Has (bytes e) x := by
    by_cases left : x < bp
    · rcases first with ⟨mem, adjacent⟩ | zero
      · refine ⟨b, mem_append_left _ mem, ?_, ?_⟩ <;> simp only [bytes] <;> omega
      · rw [zero] at low
        omega
    · by_cases mine : x < bp + HEADER * n
      · exact ⟨(bp, n), by simp, not_lt.mp left, mine⟩
      · have inside : x < bp + HEADER * n + HEADER * c.2 := by
          rcases first with ⟨-, adjacent⟩ | zero
          · simp only [HEADER] at *
            omega
          · rw [zero] at low high large
            simp only [HEADER] at *
            omega
        rcases second with ⟨mem, adjacent⟩ | zero
        · refine ⟨c, mem_append_left _ mem, ?_, ?_⟩ <;> simp only [bytes] <;> omega
        · rw [zero] at inside
          omega
  obtain ⟨e, mem, has⟩ := inBlock
  constructor
  · refine (inv.tiles.cover x).mp ⟨bytes e, mem_map_of_mem ?_, has⟩
    rcases mem_append.mp mem with inFree | mine
    · exact mem_append_left _ inFree
    · rw [mem_singleton.mp mine]
      simp
  · intro d used hasToo
    have apart : Apart (bytes e) (bytes d) := by
      have parts := pairwise_append.mp (pairwise_map.mp inv.tiles.apart)
      rcases mem_append.mp mem with inFree | mine
      · exact parts.2.2 e inFree d (mem_cons_of_mem _ used)
      · rw [mem_singleton.mp mine]
        exact (pairwise_cons.mp parts.2.1).1 d used
    simp only [Apart, Has] at apart has hasToo
    omega

end Steps

/-- What holds of the heap between calls. -/
def HeapGood (s : HeapState) : Prop :=
  (s.heap.freep = 0 ∧ s.heap.regions = [] ∧ s.live = [] ∧
    0 < s.heap.base ∧ s.heap.base + HEADER ≤ s.heap.brk) ∨
  ∃ free, HeapInv s.heap free s.live

variable {s t : HeapState}

/-- The first call of `malloc` makes a list. -/
theorem HeapGood.init (good : HeapGood s) : ∃ free, HeapInv s.heap.initFreep free s.live := by
  unfold initFreep
  rcases good with ⟨null, none, empty, based⟩ | ⟨free, inv⟩
  · rw [if_pos null, empty]
    refine ⟨[], ⟨Function.update_self .., mem_cons_self .., ?_, nofun, .nil, nofun⟩, ?_, nofun,
      ?_, based⟩
    · exact Function.update_self ..
    · refine ⟨nofun, .nil, fun x => ⟨nofun, ?_⟩⟩
      rintro ⟨r, mem, -⟩
      have absent : r ∈ s.heap.regions := mem
      rw [none] at absent
      nomatch absent
    · intro r mem
      have absent : r ∈ s.heap.regions := mem
      rw [none] at absent
      nomatch absent
  · rw [if_neg inv.freep_ne]
    exact ⟨free, inv⟩

/-- The heap is as it should be. -/
theorem HeapGood.ok (good : HeapGood s) : ∃ free, HeapOk s.heap free s.live := by
  rcases good with ⟨null, none, empty, -⟩ | ⟨free, inv⟩
  · refine ⟨[], .inl ⟨null, rfl⟩, ?_, by rw [empty]; nofun⟩
    rw [empty]
    refine ⟨nofun, .nil, fun x => ⟨nofun, ?_⟩⟩
    rintro ⟨r, mem, -⟩
    rw [none] at mem
    nomatch mem
  · exact ⟨free, .inr ⟨inv.freep_ne, inv.list⟩, inv.tiles, inv.headers⟩

/-- The blocks in use after a call of `malloc`. -/
def liveAfter (live : List HeapBlock) (nbytes : ℕ) : Option ℕ → List HeapBlock
  | none => live
  | some ap => (ap - HEADER, Heap.nunits nbytes) :: live

/-- `malloc` ends with such a heap. -/
theorem HeapGood.malloc (good : HeapGood s) (answer : ℕ → Option ℕ)
    (small : nunits nbytes * HEADER < 2 ^ 31) :
    ∃ fuel result t, s.heap.malloc fuel answer nbytes = some (result, t) ∧
      HeapGood ⟨t, liveAfter s.live nbytes result⟩ ∧
      match result with
      | none => t = s.heap.initFreep
      | some ap => HEADER ≤ ap := by
  obtain ⟨free, inv⟩ := good.init
  have bound : nunits nbytes < 2 ^ 27 := by
    simp only [HEADER] at small
    omega
  have size : (UInt32.ofNat (nunits nbytes)).toNat = nunits nbytes :=
    toNat_ofNat_of_lt' (bound.trans (by decide))
  have positive : 0 < UInt32.ofNat (nunits nbytes) := by
    rw [lt_iff_toNat_lt, size]
    exact succ_pos _
  obtain ⟨fuel, result, t, done, after⟩ := inv.malloc answer positive (by rwa [size])
  refine ⟨fuel, result, t, done, ?_⟩
  cases result with
  | none =>
    obtain rfl : t = s.heap.initFreep := after
    exact ⟨.inr ⟨free, inv⟩, rfl⟩
  | some ap =>
    obtain ⟨header, free', after⟩ := after
    rw [size] at after
    exact ⟨.inr ⟨free', after⟩, header⟩

/-- The result of `malloc` does not depend on the bound. -/
theorem malloc_unique {s : Heap} {answer : ℕ → Option ℕ} {fuel other : ℕ}
    {first second : Option ℕ × Heap} (done : s.malloc fuel answer nbytes = some first)
    (again : s.malloc other answer nbytes = some second) : first = second := by
  have one := mallocLoop_mono (le_add_right fuel other) done
  have two := mallocLoop_mono (le_add_left other fuel) again
  exact some.inj (one.symm.trans two)

/-- The block given back, first among those in use. -/
theorem HeapGood.used (good : HeapGood s) (mem : b ∈ s.live) :
    ∃ free, HeapInv s.heap free (b :: s.live.erase b) := by
  rcases good with ⟨-, -, empty, -⟩ | ⟨free, inv⟩
  · rw [empty] at mem
    nomatch mem
  · exact ⟨free, inv.reorder (perm_cons_erase mem).symm⟩

/-- `free` ends, whatever the sizes are. -/
theorem HeapGood.free_ends (good : HeapGood s) (mem : b ∈ s.live) :
    ∃ fuel t, s.heap.free fuel (b.1 + HEADER) = some t := by
  obtain ⟨free, inv⟩ := good.used mem
  obtain ⟨L, R, -, found, -⟩ := inv.place
  refine ⟨free.length + 1, ?_⟩
  rw [Heap.free, Nat.add_sub_cancel, found]
  exact ⟨_, rfl⟩

/-- Every step keeps the heap, if `free` leaves bounded gaps. -/
theorem HeapGood.step {event : HeapEvent} (good : HeapGood s) (stepped : heapStep s event t)
    (bounded : BoundedGaps s event) : HeapGood t := by
  obtain ⟨heap, live⟩ := t
  cases event with
  | allocated nbytes result =>
    obtain ⟨small, ⟨fuel, answer, done⟩, after⟩ := stepped
    obtain ⟨other, result', t, again, kept, -⟩ := good.malloc answer small
    obtain ⟨rfl, rfl⟩ := Prod.mk.inj (malloc_unique done again)
    obtain rfl : live = liveAfter s.live nbytes result := by
      cases result <;> exact after
    exact kept
  | freed ap =>
    obtain ⟨b, mem, rfl, ⟨fuel, done⟩, after⟩ := stepped
    obtain ⟨free, inv⟩ := good.used mem
    have fits : JoinsFit free b.1 b.2 := by
      refine inv.fits fun ⟨a, gap⟩ => bounded ⟨a, fun x low high => ?_⟩
      obtain ⟨obtained, unused⟩ := gap x low high
      refine ⟨obtained, fun c inside ne => unused c ?_⟩
      exact (mem_erase_of_ne fun same => ne (by rw [same])).mpr inside
    obtain ⟨u, free', again, kept, -⟩ := free_spec inv fits
    have one := free_mono (le_add_right fuel (free.length + 1)) done
    have two := free_mono (le_add_left (free.length + 1) fuel) again
    obtain rfl : heap = u := some.inj (one.symm.trans two)
    obtain rfl : live = s.live.erase b := after
    exact .inr ⟨free', kept⟩
  | wrote =>
    obtain ⟨after, same, frame⟩ := stepped
    obtain rfl : live = s.live := after
    rcases good with ⟨null, none, empty, based⟩ | ⟨free, inv⟩
    · left
      simp only at same
      rw [same]
      exact ⟨null, none, empty, based⟩
    · right
      have kept := inv.write frame
      rw [← same] at kept
      exact ⟨free, kept⟩

/-- This holds in every state of a run. -/
theorem heapGood_of_run {trace : List HeapEvent} (run : boundedRuns.Exec trace s) : HeapGood s := by
  refine run.invariant (fun _ s => HeapGood s) ?_ ?_
  · rintro s ⟨positive, null, below, none, empty⟩
    exact .inl ⟨null, none, empty, positive, below⟩
  · rintro trace s event t good ⟨stepped, bounded⟩
    exact good.step stepped bounded

/-- In every run whose gaps stay below 2³⁶ bytes, free and used blocks tile the heap, the list is in
order and without neighbours, `malloc` and `free` end, and `malloc` returns a block of the size
requested or leaves the list as it was. -/
theorem heap_integrity {trace : List HeapEvent} (run : boundedRuns.Exec trace s) :
    (∃ free, HeapOk s.heap free s.live) ∧
    (∀ nbytes answer, Heap.nunits nbytes * HEADER < 2 ^ 31 →
      (∃ fuel result t, s.heap.malloc fuel answer nbytes = some (result, t)) ∧
      ∀ fuel result t, s.heap.malloc fuel answer nbytes = some (result, t) →
        match result with
        | none => t = s.heap.initFreep
        | some ap => HEADER ≤ ap ∧ nbytes + HEADER ≤ HEADER * Heap.nunits nbytes ∧
          ∃ free, HeapOk t free ((ap - HEADER, Heap.nunits nbytes) :: s.live)) ∧
    ∀ b ∈ s.live, ∃ fuel t, s.heap.free fuel (b.1 + HEADER) = some t := by
  have good := heapGood_of_run run
  refine ⟨good.ok, fun nbytes answer small => ?_, fun b mem => good.free_ends mem⟩
  obtain ⟨other, result', u, again, kept, header⟩ := good.malloc answer small
  refine ⟨⟨other, result', u, again⟩, fun fuel result t done => ?_⟩
  obtain ⟨rfl, rfl⟩ := Prod.mk.inj (malloc_unique done again)
  cases result with
  | none => exact header
  | some ap =>
    refine ⟨header, ?_, kept.ok⟩
    simp only [nunits, HEADER]
    omega

/-- `morecore` asks for the bytes that it needs exactly if they are less than 2³¹, and then `malloc`
returns 0 or at least `nbytes` bytes of memory from `sbrk`. -/
theorem malloc_within {trace : List HeapEvent} (run : boundedRuns.Exec trace s)
    (uint : nbytes < 2 ^ 32) :
    (Heap.sbrkArgument (.ofNat (Heap.nunits nbytes)) =
    (max (Heap.nunits nbytes) 4096 * HEADER : ℕ) ↔
      Heap.nunits nbytes * HEADER < 2 ^ 31) ∧
    (Heap.nunits nbytes * HEADER < 2 ^ 31 → ∀ fuel answer ap t,
      s.heap.malloc fuel answer nbytes = some (some ap, t) →
        ∀ x, ap ≤ x → x < ap + nbytes → Obtained t x) := by
  constructor
  · have units : nunits nbytes < 2 ^ 32 := by
      simp only [nunits, HEADER]
      omega
    have size := toNat_ofNat_of_lt' units
    rw [sbrkArgument]
    split
    case isTrue less =>
      have less : nunits nbytes < 4096 := size ▸ lt_iff_toNat_lt.mp less
      have asked : (BitVec.ofNat 32 ((4096 : UInt32).toNat * HEADER)).toInt = 65536 := by decide
      rw [asked]
      simp only [HEADER]
      omega
    case isFalse more =>
      have more : 4096 ≤ nunits nbytes := size ▸ le_iff_toNat_le.mp (UInt32.not_lt.mp more)
      rw [size, BitVec.toInt_eq_toNat_cond, BitVec.toNat_ofNat]
      simp only [HEADER]
      split <;> omega
  · intro small fuel answer ap t done x low high
    obtain ⟨other, result, u, again, kept, header⟩ := (heapGood_of_run run).malloc answer small
    obtain ⟨rfl, rfl⟩ := Prod.mk.inj (malloc_unique done again)
    obtain ⟨free, ok⟩ := kept.ok
    refine (ok.tiles.cover x).mp ⟨bytes (ap - HEADER, nunits nbytes), ?_, ?_⟩
    · exact mem_map_of_mem (mem_append_right _ (mem_cons_self ..))
    · simp only [Has, bytes, nunits, HEADER] at header ⊢
      omega

section Replay

/-- What a program does, with the kernel's answer to a call of `sbrk`. -/
inductive HeapAction
  | malloc (nbytes : ℕ) (reply : Option ℕ)
  | free (b : HeapBlock)

/-- Take an action, with a bound of eight steps for each loop. -/
def tryHeap (s : HeapState) : HeapAction → Option (HeapState × HeapEvent)
  | .malloc nbytes reply =>
    if Heap.nunits nbytes * HEADER < 2 ^ 31 then
      (s.heap.malloc 8 (fun _ => reply) nbytes).map fun (result, heap) =>
        (⟨heap, liveAfter s.live nbytes result⟩, .allocated nbytes result)
    else none
  | .free b =>
    if b ∈ s.live then
      (s.heap.free 8 (b.1 + HEADER)).map fun heap =>
        (⟨heap, s.live.erase b⟩, .freed (b.1 + HEADER))
    else none

/-- An action that succeeds is a step. -/
theorem tryHeap_step (s : HeapState) (a : HeapAction) (t : HeapState) (event : HeapEvent)
    (tried : tryHeap s a = some (t, event)) : heapSystem.step s event t := by
  cases a with
  | malloc nbytes reply =>
    obtain ⟨small, tried⟩ := ite_none_right_eq_some.mp tried
    obtain ⟨⟨result, heap⟩, done, same⟩ := map_eq_some_iff.mp tried
    cases same
    refine ⟨small, ⟨8, fun _ => reply, done⟩, ?_⟩
    cases result <;> rfl
  | free b =>
    obtain ⟨mem, tried⟩ := ite_none_right_eq_some.mp tried
    obtain ⟨heap, done, same⟩ := map_eq_some_iff.mp tried
    cases same
    exact ⟨b, mem, rfl, ⟨8, done⟩, rfl⟩

/-- Take an action in a heap below 64 GiB. -/
def trySmall (s : HeapState) (a : HeapAction) : Option (HeapState × HeapEvent) :=
  if ∀ r ∈ s.heap.regions, r.1 + r.2 < HEADER * 2 ^ 32 then tryHeap s a else none

/-- In such a heap there is no large gap. -/
theorem trySmall_step (s : HeapState) (a : HeapAction) (t : HeapState) (event : HeapEvent)
    (tried : trySmall s a = some (t, event)) : boundedRuns.step s event t := by
  obtain ⟨low, tried⟩ := ite_none_right_eq_some.mp tried
  refine ⟨tryHeap_step s a t event tried, ?_⟩
  cases event with
  | freed ap =>
    rintro ⟨first, gap⟩
    obtain ⟨⟨r, mem, -, above⟩, -⟩ := gap (first + HEADER * 2 ^ 32 - 1)
      (by simp only [HEADER]; omega) (by simp only [HEADER]; omega)
    have bound := low r mem
    simp only [HEADER] at bound above
    omega
  | allocated => trivial
  | wrote => trivial

/-- A program before its first call. -/
def freshHeap : HeapState where
  heap := { base := 0x1000, freep := 0, ptr := fun _ => 0, size := fun _ => 0, brk := 0x2000,
            regions := [] }
  live := []

/-- The heap of a new program. -/
theorem freshHeap_init : heapSystem.init freshHeap := by
  refine ⟨?_, rfl, ?_, rfl, rfl⟩ <;> decide

end Replay

/-- Two blocks from one region, of which the first is given back. -/
theorem heap_integrity_two : ∃ trace s, boundedRuns.Exec trace s ∧ s.live = [(0x11fb0, 2)] ∧
    (∃ free, HeapOk s.heap free s.live) ∧
    ∃ fuel t, s.heap.free fuel (0x11fb0 + HEADER) = some t := by
  obtain ⟨trace, s, run, checked⟩ := exists_replay trySmall_step freshHeap_init
    [.malloc 24 (some 0x2000), .malloc 10 none, .free (0x11fd0, 3)]
    (fun s => s.live == [(0x11fb0, 2)]) (by decide +kernel)
  have live : s.live = [(0x11fb0, 2)] := eq_of_beq checked
  obtain ⟨ok, -, frees⟩ := heap_integrity run
  exact ⟨trace, s, run, live, ok, frees (0x11fb0, 2) (live ▸ mem_cons_self ..)⟩

/-- The first request of a program. -/
theorem malloc_within_ten : ∃ t, freshHeap.heap.malloc 8 (fun _ => some 0x2000) 10 =
    some (some 0x11ff0, t) ∧ Obtained t 0x11ff9 := by
  have first : boundedRuns.Exec [] freshHeap := .start freshHeap_init
  have done : (freshHeap.heap.malloc 8 (fun _ => some 0x2000) 10).map Prod.fst =
      some (some 0x11ff0) := by decide +kernel
  obtain ⟨⟨_, t⟩, ran, rfl⟩ := map_eq_some_iff.mp done
  exact ⟨t, ran, (malloc_within first (by decide)).2 (by decide) 8 _ _ t ran _
    (by decide) (by decide)⟩

/-- For the largest request `morecore` asks for 16 bytes, and for one of 2³¹ it shrinks the heap. -/
theorem morecore_wraps : Heap.sbrkArgument (.ofNat (Heap.nunits (2 ^ 32 - 1))) = 16 ∧
    Heap.sbrkArgument (.ofNat (Heap.nunits (2 ^ 31))) = -0x7ffffff0 := by decide

/-- A block that is shorter than the region it came from. -/
theorem not_ok_of_short {s : HeapState} {a n : ℕ} (none : s.live = []) (there : s.heap.freep ≠ 0)
    (first : s.heap.ptr s.heap.base = a) (second : s.heap.ptr a = s.heap.base)
    (apart : a ≠ s.heap.base) (region : (a, n) ∈ s.heap.regions)
    (short : HEADER * (s.heap.size a).toNat < n) : ¬∃ free, HeapOk s.heap free s.live := by
  rintro ⟨free, listed, tiles, -⟩
  rcases listed with ⟨null, -⟩ | ⟨-, list⟩
  · exact there null
  have cycle := list.cycle
  cases free with
  | nil => exact apart (first.symm.trans cycle)
  | cons b free =>
    obtain ⟨here, later⟩ := cycle
    obtain rfl : a = b.1 := first.symm.trans here
    cases free with
    | nil =>
      rw [list.sizes b (mem_cons_self ..)] at short
      have covered := (tiles.cover (b.1 + HEADER * b.2)).mpr
        ⟨_, region, by omega, by simp only; omega⟩
      rw [none] at covered
      obtain ⟨c, mem, -, high⟩ := covered
      obtain rfl := mem_singleton.mp mem
      simp only [bytes] at high
      omega
    | cons c free =>
      have back : c.1 = s.heap.base := later.1.symm.trans second
      exact absurd (list.first c (by simp)) (by omega)

/-- 33 blocks of almost 2³¹ bytes, from one area of memory, and all given back. -/
def manyBlocks : List HeapAction :=
  (List.range 33).map (fun i => .malloc (HEADER * (2 ^ 27 - 2))
  (some (0x2000 + i * (2 ^ 31 - 16)))) ++
  (List.range 33).map fun i => .free (0x2000 + i * (2 ^ 31 - 16), 2 ^ 27 - 1)

/-- They are one block, shorter than the first region. -/
def wrapped (s : HeapState) : Bool :=
  decide (s.live = [] ∧ s.heap.freep ≠ 0 ∧ s.heap.ptr s.heap.base = 0x2000 ∧
    s.heap.ptr 0x2000 = s.heap.base ∧ 0x2000 ≠ s.heap.base ∧
    (0x2000, 2 ^ 31 - 16) ∈ s.heap.regions ∧ HEADER * (s.heap.size 0x2000).toNat < 2 ^ 31 - 16)

/-- Joined, they are a block whose size has wrapped around. -/
theorem heap_wraps : ∃ trace s, heapSystem.Exec trace s ∧ ¬∃ free, HeapOk s.heap free s.live := by
  obtain ⟨trace, s, run, checked⟩ :=
    exists_replay tryHeap_step freshHeap_init manyBlocks wrapped (by decide +kernel)
  obtain ⟨none, there, first, second, apart, region, short⟩ := of_decide_eq_true checked
  exact ⟨trace, s, run, not_ok_of_short none there first second apart region short⟩

end Xv6Cos.Verif
