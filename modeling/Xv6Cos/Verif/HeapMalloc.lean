import Xv6Cos.Verif.HeapFree

/-!
# `malloc` takes a block from the list

A block that is large enough is unlinked or cut; if there is none, `morecore` puts one into the
list, and the search goes on until it is found.
-/

namespace Xv6Cos.Verif

open User Spec Tiling Cycle Function List Prod Option Heap UInt32

variable {s : Heap} {free live L R : List HeapBlock} {x p m : ℕ} {N : UInt32}

theorem list_ordered (list : FreeList s free) : (s.base :: free.map fst).Pairwise (· < ·) :=
  pairwise_cons.mpr ⟨forall_mem_map.mpr list.first, addresses_sorted list.sorted⟩

/-- The cell before a block that is not empty. -/
theorem listed_behind (list : FreeList s free) (mem : x ∈ s.base :: free.map fst)
    (positive : 0 < s.size (s.ptr x)) :
    ∃ L m R, free = L ++ (s.ptr x, m) :: R ∧ x = last s.base (L.map fst) ∧
      (s.size (s.ptr x)).toNat = m := by
  have distinct : (free.map fst ++ [s.base]).Nodup :=
    (perm_append_singleton _ _).nodup_iff.mpr ((list_ordered list).imp fun less => less.ne)
  have block : s.ptr x ∈ free.map fst := by
    rcases mem_append.mp (list.cycle.next_mem mem) with inside | back
    · exact inside
    · rw [mem_singleton.mp back, list.root] at positive
      exact absurd positive (by decide)
  obtain ⟨⟨a, m⟩, inside, here⟩ := mem_map.mp block
  obtain ⟨L, R, rfl⟩ := append_of_mem inside
  have cycle := list.cycle
  rw [map_append, map_cons] at cycle
  have there := (path_append.mp cycle).1.next_last
  refine ⟨L, m, R, by rw [← here], ?_, ?_⟩
  · refine list.cycle.inj distinct mem ?_ ?_
    · rw [map_append, ← cons_append]
      exact mem_append_left _ last_mem
    · rw [there, ← here]
  · rw [← here]
    exact list.sizes _ inside

/-- A block taken as a whole. -/
theorem HeapInv.unlink (inv : HeapInv s (L ++ (p, m) :: R) live) (size : (s.size p).toNat = m)
    (link : x = last s.base (L.map fst)) :
    HeapInv { s.setPtr x (s.ptr p) with freep := x } (L ++ R) ((p, m) :: live) := by
  have ordered := list_ordered inv.list
  have cycle := inv.list.cycle
  rw [map_append, map_cons] at cycle ordered
  have removed := cycle.remove (ordered.imp fun less => less.ne)
  rw [← link] at removed
  have mem : x ∈ s.base :: L.map fst := link ▸ last_mem
  have sub : (L ++ R).Sublist (L ++ (p, m) :: R) := (sublist_cons_self _ R).append_left L
  refine ⟨⟨?_, ?_, inv.list.root, ?_, inv.list.sorted.sublist sub, ?_⟩, ?_, ?_, inv.span, inv.based⟩
  · rw [map_append]
    exact removed
  · rw [map_append, ← cons_append]
    exact mem_append_left _ mem
  · exact fun b inside => inv.list.sizes b (sub.subset inside)
  · exact fun b inside => inv.list.first b (sub.subset inside)
  · exact tiles_perm inv.tiles fun b => by
      simp only [count_append, count_cons]
      omega
  · intro b inside
    rcases mem_cons.mp inside with rfl | inside
    · exact size
    · exact inv.headers b inside

/-- The end of a block taken. -/
theorem HeapInv.cut {n k : ℕ} (inv : HeapInv s (L ++ (p, n + k) :: R) live) (rest : 0 < n)
    (positive : 0 < k) {first second : UInt32} (size : first.toNat = n) (size' : second.toNat = k)
    (mem : x ∈ s.base :: L.map fst) :
    HeapInv { (s.setSize p first).setSize (p + HEADER * n) second with freep := x }
      (L ++ (p, n) :: R) ((p + HEADER * n, k) :: live) := by
  have here : (p, n + k) ∈ L ++ (p, n + k) :: R := by simp
  obtain ⟨sortedL, sortedR, between⟩ := pairwise_append.mp inv.list.sorted
  obtain ⟨above, sortedR⟩ := pairwise_cons.mp sortedR
  have below : ∀ b ∈ L, EndsBelow b (p, n + k) := fun b mem => between b mem _ (mem_cons_self ..)
  have start : s.base < p := inv.list.first _ here
  -- the two headers that change are in the block that is cut
  have frame : ∀ c, c < p ∨ p + HEADER * (n + k) ≤ c →
      update (update s.size p first) (p + HEADER * n) second c = s.size c := by
    intro c outside
    have one : c ≠ p + HEADER * n := by
      simp only [HEADER] at outside ⊢
      omega
    have two : c ≠ p := by
      simp only [HEADER] at outside
      omega
    rw [update_of_ne one, update_of_ne two]
  have lefts : ∀ b ∈ L, b.1 < p := by
    intro b mem
    have less := below b mem
    simp only [EndsBelow] at less
    omega
  have rights : ∀ c ∈ R, p + HEADER * (n + k) < c.1 := fun c mem => above c mem
  refine ⟨⟨?_, ?_, ?_, ?_, ?_, ?_⟩, ?_, ?_, inv.span, inv.based⟩
  · have cycle := inv.list.cycle
    rw [map_append, map_cons] at cycle ⊢
    exact cycle
  · rw [map_append, ← cons_append]
    exact mem_append_left _ mem
  · exact (frame s.base (.inl start)).trans inv.list.root
  · intro b inside
    simp only [setSize_size]
    rcases mem_append.mp inside with inLeft | inRight
    · rw [frame b.1 (.inl (lefts b inLeft))]
      exact inv.list.sizes b (mem_append_left _ inLeft)
    · rcases mem_cons.mp inRight with rfl | inRight
      · have ne : p ≠ p + HEADER * n := by
          simp only [HEADER]
          omega
        rw [update_of_ne ne, update_self]
        exact size
      · rw [frame b.1 (.inr (rights b inRight).le)]
        exact inv.list.sizes b (mem_append_right _ (mem_cons_of_mem _ inRight))
  · refine sorted_around sortedL sortedR below fun c mem => ?_
    have less := rights c mem
    simp only [EndsBelow, HEADER] at less ⊢
    omega
  · intro b inside
    rcases mem_append.mp inside with inLeft | inRight
    · exact inv.list.first b (mem_append_left _ inLeft)
    · rcases mem_cons.mp inRight with rfl | inRight
      · exact start
      · exact inv.list.first b (mem_append_right _ (mem_cons_of_mem _ inRight))
  · have whole : Tiles (((p, n + k) :: (L ++ R ++ live)).map bytes) (Obtained s) :=
      tiles_perm inv.tiles fun b => by
        simp only [count_append, count_cons]
        omega
    exact tiles_perm (tiles_split rest positive whole) fun b => by
      simp only [count_append, count_cons]
      omega
  · intro b inside
    simp only [setSize_size]
    rcases mem_cons.mp inside with rfl | inside
    · rw [update_self]
      exact size'
    · have apart := inv.apart here inside
      have units := inv.units (mem_append_right _ inside)
      rw [frame b.1 (by simp only [HEADER] at apart ⊢; omega)]
      exact inv.headers b inside

/-- `malloc` with a block that is large enough. -/
theorem take_spec (inv : HeapInv s free live) (mem : x ∈ s.base :: free.map fst)
    (positive : 0 < N) (enough : N ≤ s.size (s.ptr x)) :
    HEADER ≤ (s.take x N).1 ∧
      ∃ free', HeapInv (s.take x N).2 free' (((s.take x N).1 - HEADER, N.toNat) :: live) := by
  obtain ⟨L, m, R, rfl, link, size⟩ :=
    listed_behind inv.list mem (UInt32.lt_of_lt_of_le positive enough)
  unfold Heap.take
  by_cases whole : s.size (s.ptr x) = N
  · rw [if_pos whole]
    simp only [Nat.add_sub_cancel]
    rw [← whole, size]
    exact ⟨Nat.le_add_left .., L ++ R, inv.unlink size link⟩
  · rw [if_neg whole]
    have less : N < s.size (s.ptr x) := UInt32.lt_of_le_of_ne enough fun same => whole same.symm
    have rest : (s.size (s.ptr x) - N).toNat = m - N.toNat := by
      rw [UInt32.toNat_sub_of_le _ _ enough, size]
    have lessNat : N.toNat < m := size ▸ lt_iff_toNat_lt.mp less
    have top : (s.setSize (s.ptr x) (s.size (s.ptr x) - N)).above (s.ptr x) =
        s.ptr x + HEADER * (m - N.toNat) := by
      rw [Heap.above, setSize_size, update_self, rest]
    simp only [top, Nat.add_sub_cancel]
    have parts : m = m - N.toNat + N.toNat := by omega
    rw [parts] at inv
    exact ⟨Nat.le_add_left .., _, inv.cut (by omega) (lt_iff_toNat_lt.mp positive) rest rfl
      (link ▸ last_mem)⟩

section Fuel

variable {answer : ℕ → Option ℕ} {k fuel more ap : ℕ} {t : Heap} {result : Option ℕ × Heap}

theorem free_mono (enough : fuel ≤ more) (done : s.free fuel ap = some t) :
    s.free more ap = some t := by
  obtain ⟨p, found, rfl⟩ := map_eq_some_iff.mp done
  exact map_eq_some_iff.mpr ⟨p, search_mono enough found, rfl⟩

theorem morecore_mono {reply : Option ℕ} (enough : fuel ≤ more)
    (done : s.morecore fuel reply N = some result) : s.morecore more reply N = some result := by
  unfold morecore at done ⊢
  dsimp only at done ⊢
  split at done
  · exact done
  · obtain ⟨t, freed, rfl⟩ := map_eq_some_iff.mp done
    exact map_eq_some_iff.mpr ⟨t, free_mono enough freed, rfl⟩

/-- More steps do not change the result of the loop. -/
theorem mallocLoop_mono (enough : fuel ≤ more)
    (done : mallocLoop answer N fuel k s p = some result) :
    mallocLoop answer N more k s p = some result := by
  induction fuel generalizing more k s p with
  | zero => contradiction
  | succ fuel ih =>
    obtain ⟨more, rfl⟩ : ∃ j, more = j + 1 := ⟨more - 1, by omega⟩
    have enough : fuel ≤ more := by omega
    rw [mallocLoop] at done ⊢
    by_cases large : N ≤ s.size (s.ptr p)
    · rwa [if_pos large] at done ⊢
    rw [if_neg large] at done ⊢
    by_cases around : s.ptr p = s.freep
    · rw [if_pos around] at done ⊢
      cases grown : s.morecore fuel (answer k) N with
      | none =>
        rw [grown] at done
        contradiction
      | some got =>
        rw [grown] at done
        rw [morecore_mono enough grown]
        obtain ⟨_ | p, t⟩ := got
        · exact done
        · exact ih enough done
    · rw [if_neg around] at done ⊢
      exact ih enough done

end Fuel

section Loop

variable {answer : ℕ → Option ℕ} {k a : ℕ} {l : List ℕ}

/-- The loop finds a block on its way. -/
theorem mallocLoop_found (path : Path s.ptr a l s.freep) (fresh : s.freep ∉ l)
    (enough : ∃ x ∈ a :: l, N ≤ s.size (s.ptr x)) :
    ∃ x ∈ a :: l, N ≤ s.size (s.ptr x) ∧ mallocLoop answer N (l.length + 1) k s a =
      some (some (s.take x N).1, (s.take x N).2) := by
  induction l generalizing a with
  | nil =>
    obtain ⟨x, mem, large⟩ := enough
    obtain rfl := mem_singleton.mp mem
    exact ⟨x, mem, large, by rw [mallocLoop, if_pos large]⟩
  | cons y l ih =>
    by_cases large : N ≤ s.size (s.ptr a)
    · exact ⟨a, mem_cons_self .., large, by rw [mallocLoop, if_pos large]⟩
    · obtain ⟨here, later⟩ := path
      have onward : s.ptr a ≠ s.freep := fun same =>
        fresh (by rw [← same, here]; exact mem_cons_self ..)
      have rest : ∃ x ∈ y :: l, N ≤ s.size (s.ptr x) := by
        obtain ⟨x, mem, larger⟩ := enough
        rcases mem_cons.mp mem with rfl | inside
        · exact absurd larger large
        · exact ⟨x, inside, larger⟩
      obtain ⟨x, mem, larger, done⟩ := ih later (fun mem => fresh (mem_cons_of_mem _ mem)) rest
      refine ⟨x, mem_cons_of_mem _ mem, larger, ?_⟩
      rw [length_cons, mallocLoop, if_neg large, if_neg onward, here]
      exact done

/-- The loop goes all the way around if no block is large enough. -/
theorem mallocLoop_around {fuel : ℕ} (path : Path s.ptr a l s.freep) (fresh : s.freep ∉ l)
    (small : ∀ x ∈ a :: l, ¬N ≤ s.size (s.ptr x)) :
    mallocLoop answer N (l.length + 1 + fuel) k s a =
      match s.morecore fuel (answer k) N with
      | none => none
      | some (none, t) => some (none, t)
      | some (some p, t) => mallocLoop answer N fuel (k + 1) t p := by
  induction l generalizing a with
  | nil =>
    have back : s.ptr a = s.freep := path
    have first := small a (mem_cons_self ..)
    rw [List.length_nil, Nat.zero_add, Nat.add_comm, mallocLoop, if_neg first]
    exact if_pos back
  | cons y l ih =>
    obtain ⟨here, later⟩ := path
    have onward : s.ptr a ≠ s.freep := fun same =>
      fresh (by rw [← same, here]; exact mem_cons_self ..)
    have first := small a (mem_cons_self ..)
    rw [length_cons, Nat.add_right_comm, mallocLoop, if_neg first, if_neg onward, here]
    exact ih later (fun mem => fresh (mem_cons_of_mem _ mem))
      fun x mem => small x (mem_cons_of_mem _ mem)

end Loop

/-- The cycle, entered where the search starts. -/
theorem list_entered (list : FreeList s free) : ∃ l, Path s.ptr s.freep l s.freep ∧ s.freep ∉ l ∧
    (s.freep :: l).Perm (s.base :: free.map fst) := by
  obtain ⟨l, path, same⟩ := list.cycle.rotate list.entry
  have distinct : (s.freep :: l).Nodup :=
    same.nodup_iff.mpr ((list_ordered list).imp fun less => less.ne)
  exact ⟨l, path, (nodup_cons.mp distinct).1, same⟩

/-- A search from `freep` ends if some block is large enough. -/
theorem HeapInv.found {answer : ℕ → Option ℕ} {k : ℕ} (inv : HeapInv s free live) (positive : 0 < N)
    (enough : ∃ b ∈ free, N.toNat ≤ b.2) :
    ∃ fuel ap t free', mallocLoop answer N fuel k s s.freep = some (some ap, t) ∧ HEADER ≤ ap ∧
      HeapInv t free' ((ap - HEADER, N.toNat) :: live) := by
  obtain ⟨l, path, fresh, same⟩ := list_entered inv.list
  have exists_cell : ∃ x ∈ s.freep :: l, N ≤ s.size (s.ptr x) := by
    obtain ⟨b, mem, large⟩ := enough
    have listed : b.1 ∈ s.freep :: l :=
      same.mem_iff.mpr (mem_cons_of_mem _ (mem_map_of_mem mem))
    have target : b.1 ∈ (s.freep :: l).map s.ptr := by
      rw [path.map_next]
      exact (perm_append_singleton _ _).mem_iff.mpr listed
    obtain ⟨x, inside, here⟩ := mem_map.mp target
    refine ⟨x, inside, ?_⟩
    rw [here, le_iff_toNat_le, inv.list.sizes b mem]
    exact large
  obtain ⟨x, mem, large, done⟩ := mallocLoop_found path fresh exists_cell
  obtain ⟨header, free', taken⟩ := take_spec inv (same.mem_iff.mp mem) positive large
  exact ⟨_, _, _, free', done, header, taken⟩

/-- A region above all others, with one block in use. -/
theorem HeapInv.grow {a n : ℕ} {size : UInt32} (inv : HeapInv s free live) (above : s.brk ≤ a)
    (positive : 0 < n) (header : size.toNat = n) :
    HeapInv ({ s with
      brk := a + n * HEADER, regions := (a, n * HEADER) :: s.regions }.setSize a size)
      free ((a, n) :: live) := by
  have beneath : ∀ b ∈ free ++ live, b.1 < a ∧ b.1 + HEADER * b.2 ≤ a := by
    intro b mem
    have bounds := inv.within mem
    have units := inv.units mem
    simp only [HEADER] at bounds ⊢
    omega
  have based := inv.based
  refine ⟨⟨inv.list.cycle, inv.list.entry, ?_, ?_, inv.list.sorted, inv.list.first⟩, ?_, ?_, ?_, ?_⟩
  · have ne : s.base ≠ a := by
      simp only [HEADER] at based
      omega
    exact (update_of_ne ne ..).trans inv.list.root
  · intro b mem
    have less := (beneath b (mem_append_left _ mem)).1
    simp only [setSize_size]
    rw [update_of_ne less.ne]
    exact inv.list.sizes b mem
  · have grown : Tiles (((a, n) :: (free ++ live)).map bytes)
        fun x => ∃ r ∈ (a, n * HEADER) :: s.regions, Has r x := by
      refine inv.tiles.grow (Nat.mul_pos (by decide) positive) ?_ fun x => ?_
      · exact forall_mem_map.mpr fun b mem => .inr (beneath b mem).2
      · rw [exists_mem_cons_iff, Nat.mul_comm n]
        rfl
    exact tiles_perm grown fun b => by
      simp only [count_append, count_cons]
      omega
  · intro b mem
    simp only [setSize_size]
    rcases mem_cons.mp mem with rfl | inside
    · rw [update_self]
      exact header
    · have less := (beneath b (mem_append_right _ inside)).1
      rw [update_of_ne less.ne]
      exact inv.headers b inside
  · intro r mem
    show s.base + HEADER ≤ r.1 ∧ r.1 + r.2 ≤ a + n * HEADER
    rcases mem_cons.mp mem with rfl | inside
    · simp only
      omega
    · have bounds := inv.span r inside
      omega
  · show 0 < s.base ∧ s.base + HEADER ≤ a + n * HEADER
    omega

/-- A small request is not cut off in the argument of `sbrk`. -/
theorem sbrkArgument_small (bound : N.toNat < 2 ^ 27) :
    sbrkArgument N = ((if N < 4096 then 4096 else N : UInt32).toNat * HEADER : ℕ) := by
  have below : (if N < 4096 then 4096 else N : UInt32).toNat < 2 ^ 27 := by
    split
    · decide
    · exact bound
  simp only [sbrkArgument, HEADER]
  rw [BitVec.toInt_eq_toNat_cond, BitVec.toNat_ofNat, if_pos (by omega)]
  omega

/-- `morecore` fails, or puts a block that is large enough into the list. -/
theorem morecore_spec (inv : HeapInv s free live) (positive : 0 < N) (bound : N.toNat < 2 ^ 27)
    (small : ∀ b ∈ free, b.2 < N.toNat) (reply : Option ℕ) :
    (∀ fuel, s.morecore fuel reply N = some (none, s)) ∨
    ∃ t free', s.morecore (free.length + 1) reply N = some (some t.freep, t) ∧
      HeapInv t free' live ∧ ∃ b ∈ free', N.toNat ≤ b.2 := by
  unfold morecore sbrk
  rw [sbrkArgument_small bound]
  simp only [← Int.natCast_add, Int.toNat_natCast]
  cases reply with
  | none => exact .inl fun fuel => rfl
  | some a =>
    by_cases valid : s.brk ≤ a ∧ HEADER ∣ a
    · simp only [if_pos valid]
      generalize size : (if N < 4096 then 4096 else N : UInt32) = nu
      have nuLarge : N.toNat ≤ nu.toNat ∧ nu.toNat < 2 ^ 27 := by
        subst size
        split
        · rename_i less
          have lessNat : N.toNat < 4096 := lt_iff_toNat_lt.mp less
          exact ⟨lessNat.le, by decide⟩
        · exact ⟨le_refl _, bound⟩
      have nuPos : 0 < nu.toNat := by
        have first : 0 < N.toNat := lt_iff_toNat_lt.mp positive
        omega
      have fits : JoinsFit free a nu.toNat := by
        have less : ∀ b : HeapBlock, ∀ P : Prop, b ∈ free ∧ P ∨ b.2 = 0 → b.2 < 2 ^ 27 := by
          intro b P either
          rcases either with ⟨mem, -⟩ | zero
          · exact (small b mem).trans bound
          · omega
        intro b c first second
        have one := less b _ first
        have two := less c _ second
        omega
      obtain ⟨t, free', freed, after, b, mem, large⟩ :=
        free_spec (inv.grow valid.1 nuPos (rfl : nu.toNat = _)) fits
      refine .inr ⟨t, free', ?_, after, b, mem, nuLarge.1.trans large⟩
      rw [freed]
      rfl
    · simp only [if_neg valid]
      exact .inl fun fuel => trivial

/-- `malloc` ends. It fails with the list as it was, or takes a block. -/
theorem HeapInv.malloc (answer : ℕ → Option ℕ) (inv : HeapInv s free live) (positive : 0 < N)
    (bound : N.toNat < 2 ^ 27) :
    ∃ fuel result t, mallocLoop answer N fuel 0 s s.freep = some (result, t) ∧
      match result with
      | none => t = s
      | some ap => HEADER ≤ ap ∧ ∃ free', HeapInv t free' ((ap - HEADER, N.toNat) :: live) := by
  by_cases enough : ∃ b ∈ free, N.toNat ≤ b.2
  · obtain ⟨fuel, ap, t, free', done, header, after⟩ := inv.found positive enough
    exact ⟨fuel, some ap, t, done, header, free', after⟩
  · have small : ∀ b ∈ free, b.2 < N.toNat :=
      fun b mem => not_le.mp fun large => enough ⟨b, mem, large⟩
    obtain ⟨l, path, fresh, same⟩ := list_entered inv.list
    have tooSmall : ∀ x ∈ s.freep :: l, ¬N ≤ s.size (s.ptr x) := by
      intro x mem large
      obtain ⟨L, m, R, rfl, -, size⟩ := listed_behind inv.list (same.mem_iff.mp mem)
        (UInt32.lt_of_lt_of_le positive large)
      have less := small (s.ptr x, m) (by simp)
      rw [le_iff_toNat_le, size] at large
      simp only at less
      omega
    rcases morecore_spec inv positive bound small (answer 0)
      with failed | ⟨t, free', grown, after, found⟩
    · refine ⟨l.length + 1 + 0, none, s, ?_, rfl⟩
      rw [mallocLoop_around path fresh tooSmall, failed]
    · obtain ⟨fuel, ap, u, free'', done, header, taken⟩ := after.found positive found
      refine ⟨l.length + 1 + (fuel + (free.length + 1)), some ap, u, ?_, header, free'', taken⟩
      rw [mallocLoop_around path fresh tooSmall, morecore_mono (Nat.le_add_left ..) grown]
      exact mallocLoop_mono (Nat.le_add_right ..) done

end Xv6Cos.Verif
