import Xv6Cos.Verif.UserRun

/-!
# The arguments of a new program

`exec` pushes the argument strings downwards from the end of the stack page, and then the array of
their addresses. `Pushed` says where the strings stand and that what lies above the stack pointer
stays; the stack pointer moves by whole units of 16 bytes, so the strings fit exactly if the sum of
their rounded sizes does.
-/

namespace Xv6Cos.Verif

open Kernel Spec Program Function List Bytes Nat

variable {words addrs : List ℕ} {i word sp sp' : ℕ} {w' : World} {vm' : Vm}

section Copies

variable {m m' : UserMemory} {dst n a : ℕ} {src bytes : List UInt8}

/-- A byte in the range of a copy is in a page that the copy touches. -/
theorem touched_of_mem (lower : dst ≤ a) (upper : a < dst + n) : Touched dst n (a / PGSIZE) := by
  unfold Touched
  simp only [PGSIZE]
  omega

theorem reads_copy : Reads (m.copy dst src.length src) dst src := by
  intro k byte found
  obtain ⟨bound, rfl⟩ := List.getElem?_eq_some_iff.mp found
  have lower : dst ≤ dst + k := by omega
  have upper : dst + k < dst + src.length := by omega
  rw [UserMemory.copy, if_pos (touched_of_mem lower upper), if_pos ⟨lower, upper⟩]
  simp [getD_eq_getElem?_getD, found]

/-- A copy leaves the bytes outside its range. -/
theorem copy_outside (apart : a < dst ∨ dst + n ≤ a) :
    (m.copy dst n src a).map UserByte.byte = (m a).map UserByte.byte := by
  unfold UserMemory.copy
  by_cases touched : Touched dst n (a / PGSIZE)
  · rw [if_pos touched, if_neg (by omega), Option.map_map]
    rfl
  · rw [if_neg touched]

/-- Reading depends on the bytes read alone. -/
theorem reads_congr (reads : Reads m a bytes)
    (same : ∀ k < bytes.length, (m' (a + k)).map UserByte.byte = (m (a + k)).map UserByte.byte) :
    Reads m' a bytes := by
  intro k byte found
  obtain ⟨bound, -⟩ := List.getElem?_eq_some_iff.mp found
  rw [same k bound]
  exact reads k byte found

theorem reads_part {before after : List UInt8} (reads : Reads m a (before ++ bytes ++ after)) :
    Reads m (a + before.length) bytes := by
  intro k byte found
  obtain ⟨bound, -⟩ := List.getElem?_eq_some_iff.mp found
  rw [add_assoc]
  apply reads
  rw [append_assoc, List.getElem?_append_right (by omega), Nat.add_sub_cancel_left,
    List.getElem?_append_left bound, found]

end Copies

section Words

theorem wordBytes_append (words words' : List ℕ) :
    wordBytes (words ++ words') = wordBytes words ++ wordBytes words' := flatMap_append ..

theorem wordBytes_length (words : List ℕ) : (wordBytes words).length = 8 * words.length := by
  induction words with
  | nil => rfl
  | cons word words ih =>
    have one : (wordBytes [word]).length = 8 := by simp [wordBytes]
    rw [← singleton_append, wordBytes_append, length_append, one, ih, length_append,
      length_singleton]
    omega

/-- The bytes of an array, split at one of its words. -/
theorem wordBytes_split (found : words[i]? = some word) :
    wordBytes words = wordBytes (words.take i) ++ wordBytes [word] ++
      wordBytes (words.drop (i + 1)) := by
  obtain ⟨bound, rfl⟩ := List.getElem?_eq_some_iff.mp found
  have split : words = words.take i ++ [words[i]] ++ words.drop (i + 1) := by
    rw [append_assoc, singleton_append, ← drop_eq_getElem_cons bound, take_append_drop]
  rw [← wordBytes_append, ← wordBytes_append, ← split]

/-- The words of an array in memory. -/
theorem wordAt_of_reads {m : UserMemory} {a : ℕ}
    (reads : Reads m a (wordBytes words)) (found : words[i]? = some word) (small : word < 2 ^ 64) :
    WordAt m (a + 8 * i) word := by
  obtain ⟨bound, -⟩ := List.getElem?_eq_some_iff.mp found
  rw [wordBytes_split found] at reads
  have part := reads_part reads
  rw [wordBytes_length, length_take, min_eq_left (by omega)] at part
  exact ⟨small, part⟩

end Words

section Strings

/-- The strings have been pushed from `sp` down to `sp'`. -/
structure Pushed (m m' : UserMemory) (sp sp' : ℕ) (argv : List (List UInt8)) (addrs : List ℕ) :
    Prop where
  count : addrs.length = argv.length
  spent : sp' + stringSpace argv = sp
  aligned : sp' % 16 = 0
  strings : ∀ (i : ℕ) arg addr, argv[i]? = some arg → addrs[i]? = some addr →
    Reads m' addr (arg ++ [0])
  inside : ∀ block ∈ addrs.zip (argv.map fun arg => arg.length + 1),
    sp' ≤ block.1 ∧ block.1 + block.2 ≤ sp
  apart : (addrs.zip (argv.map fun arg => arg.length + 1)).Pairwise fun a b => b.1 + b.2 ≤ a.1
  above : ∀ a, sp ≤ a → (m' a).map UserByte.byte = (m a).map UserByte.byte

theorem Pushed.nil {m : UserMemory} (aligned : sp % 16 = 0) : Pushed m m sp sp [] [] :=
  ⟨rfl, rfl, aligned, nofun, nofun, .nil, fun _ _ => rfl⟩

/-- One string, and then the others below it. -/
theorem Pushed.cons {m m' : UserMemory} {sp₁ : ℕ} {arg : List UInt8} {argv : List (List UInt8)}
    (rest : Pushed (m.copy sp₁ (arg ++ [0]).length (arg ++ [0])) m' sp₁ sp' argv addrs)
    (room : sp₁ + pad16 (arg.length + 1) = sp) : Pushed m m' sp sp' (arg :: argv)
    (sp₁ :: addrs) := by
  have length : (arg ++ [0]).length = arg.length + 1 := by simp
  have padded : arg.length + 1 ≤ pad16 (arg.length + 1) := by
    unfold pad16
    omega
  have lower : sp' ≤ sp₁ := by
    have spent := rest.spent
    omega
  refine ⟨by simp [rest.count], ?_, rest.aligned, ?_, ?_, ?_, ?_⟩
  · have spent := rest.spent
    rw [stringSpace, map_cons, sum_cons]
    rw [stringSpace] at spent
    omega
  · intro i arg' addr here there
    cases i with
    | zero =>
      cases here
      cases there
      have text : Reads (m.copy sp₁ (arg ++ [0]).length (arg ++ [0])) sp₁ (arg ++ [0]) := reads_copy
      exact reads_congr text fun k _ => rest.above _ (by omega)
    | succ i => exact rest.strings i arg' addr here there
  · intro block mem
    rw [map_cons, zip_cons_cons, mem_cons] at mem
    rcases mem with rfl | mem
    · exact ⟨lower, by omega⟩
    · have bounds := rest.inside block mem
      omega
  · rw [map_cons, zip_cons_cons, pairwise_cons]
    exact ⟨fun block mem => (rest.inside block mem).2, rest.apart⟩
  · intro a high
    rw [rest.above a (by omega)]
    exact copy_outside (.inr (by omega))

end Strings

section Stack

variable {layout : Layout} {r tf sz : ℕ} {w₀ w : World} {vm₀ vm : Vm}
  {m m' : UserMemory} {argv : List (List UInt8)}

/-- The stack pointer after making room, when what goes there ends below the stack's end. -/
theorem pushSp_eq {len : ℕ} (aligned : sp % 16 = 0) (below : sp ≤ sz) (small : sz < 2 ^ 38)
    (ends : pushSp sp len + len ≤ sz) : pushSp sp len + pad16 len = sp := by
  unfold pushSp sub64 at ends ⊢
  unfold pad16
  omega

section

variable (b : Building layout r tf sz w₀ vm₀ w vm) (whole : sz % PGSIZE = 0)

include b whole

/-- User memory ends below the trapframe. -/
theorem Building.small :
    sz < 2 ^ 38 := by
  have low := b.shape.low
  rw [UPAGES_eq] at low
  simp only [npages, PGSIZE] at low whole
  omega

/-- A copy that has succeeded ends within user memory. -/
theorem Building.copied_below {dst : ℕ} {src : List UInt8} (some : src ≠ [])
    (copied : CopiedOut layout r dst src.length src w vm w' vm') : dst + src.length ≤ sz := by
  have positive : 0 < src.length := length_pos_iff.mpr some
  have touched : Touched dst src.length ((dst + src.length - 1) / PGSIZE) :=
    touched_of_mem (by omega) (by omega)
  obtain ⟨low, pte, -, leaf, -⟩ := copied.copied _ touched
  have below : (dst + src.length - 1) / PGSIZE < npages sz := by
    by_contra above
    rw [b.shape.unmapped _ (Nat.le_of_not_lt above) low] at leaf
    contradiction
  simp only [npages, PGSIZE] at below whole
  omega

end

theorem pushStrings_pushed (base : ℕ) (whole : sz % PGSIZE = 0) :
    ∀ (argv : List (List UInt8)) sp ustack w vm, Building layout r tf sz w₀ vm₀ w vm →
    sp % 16 = 0 → base ≤ sp → sp ≤ sz →
    Safe (pushStrings layout r base sp ustack argv) vm fun res vm' => ∃ w',
      Building layout r tf sz w₀ vm₀ w' vm' ∧ ∀ sp' ustack', res = some (sp', ustack') →
        base ≤ sp' ∧ ∃ addrs, ustack' = ustack ++ addrs ∧
          Pushed ((w.space r).bytes vm) ((w'.space r).bytes vm') sp sp' argv addrs := by
  intro argv
  induction argv with
  | nil =>
    intro sp ustack w vm b aligned lower _
    refine .pure ⟨w, b, ?_⟩
    rintro _ _ ⟨⟩
    exact ⟨lower, [], by simp, .nil aligned⟩
  | cons arg argv ih =>
    intro sp ustack w vm b aligned lower below
    unfold pushStrings
    by_cases many : MAXARG ≤ ustack.length
    · rw [if_pos many]
      exact .pure ⟨w, b, by simp⟩
    rw [if_neg many]
    by_cases outside : pushSp sp (arg.length + 1) < base
    · simp only [if_pos outside]
      exact .pure ⟨w, b, by simp⟩
    simp only [if_neg outside]
    refine .bind (b.copyout _ _) ?_
    rintro ok vm₁ ⟨n, w₁, all, copied, b₁⟩
    cases ok with
    | false => exact .pure ⟨w₁, b₁, by simp⟩
    | true =>
      obtain rfl := all.mp rfl
      have ends := b.copied_below whole (by simp) copied
      have length : (arg ++ [0]).length = arg.length + 1 := by simp
      have room : pushSp sp (arg.length + 1) + pad16 (arg.length + 1) = sp :=
        pushSp_eq aligned below (b.small whole) (by omega)
      have aligned₁ : pushSp sp (arg.length + 1) % 16 = 0 := by
        unfold pad16 at room
        omega
      refine .mono (ih _ _ w₁ vm₁ b₁ aligned₁ (by omega) (by omega)) ?_
      rintro res vm' ⟨w', b', pushed⟩
      refine ⟨w', b', fun sp' ustack' same => ?_⟩
      obtain ⟨lower', addrs, rfl, rest⟩ := pushed sp' ustack' same
      rw [bytes_copy b.rep b.mem copied] at rest
      exact ⟨lower', _ :: addrs, by simp, rest.cons room⟩

/-- The words in the array of addresses are addresses of user memory, or 0. -/
theorem Pushed.word_small (pushed : Pushed m m' sp sp' argv addrs) (below : sp < 2 ^ 38)
    (found : (addrs ++ [0])[i]? = some word) : word < 2 ^ 64 := by
  rcases mem_append.mp (mem_of_getElem? found) with mem | mem
  · obtain ⟨j, bound, rfl⟩ := getElem_of_mem mem
    have length : j < (argv.map fun arg => arg.length + 1).length := by
      rw [length_map, ← pushed.count]
      exact bound
    have block : (addrs[j], (argv.map fun arg => arg.length + 1)[j]) ∈
        addrs.zip (argv.map fun arg => arg.length + 1) := by
      rw [mem_iff_getElem]
      exact ⟨j, by rw [length_zip]; omega, getElem_zip⟩
    have bounds := pushed.inside _ block
    simp only at bounds
    omega
  · rw [mem_singleton.mp mem]
    decide

/-- The whole stack, once the array has been copied below the strings. -/
theorem argsPassed_of_pushed (pushed : Pushed m m' sz sp argv addrs) (below : sz < 2 ^ 38)
    (room : sp' + pad16 (8 * (argv.length + 1)) = sp) (lower : sz - PGSIZE ≤ sp')
    (user : ∀ a, sz - PGSIZE ≤ a → a < sz → UserCan
      (m'.copy sp' (wordBytes (addrs ++ [0])).length (wordBytes (addrs ++ [0]))) a) :
    ArgsPassed (m'.copy sp' (wordBytes (addrs ++ [0])).length (wordBytes (addrs ++ [0]))) sz sp'
      argv addrs := by
  have size : (wordBytes (addrs ++ [0])).length = 8 * (argv.length + 1) := by
    rw [wordBytes_length, length_append, pushed.count]
    rfl
  have ends : sp' + 8 * (argv.length + 1) ≤ sp := by
    unfold pad16 at room
    omega
  refine ⟨?_, pushed.count, ?_, ?_, ?_, ?_, user⟩
  · have aligned := pushed.aligned
    unfold pad16 at room
    omega
  · intro i word found
    exact wordAt_of_reads reads_copy found (pushed.word_small below found)
  · intro i arg addr here there
    refine reads_congr (pushed.strings i arg addr here there) fun k bound => ?_
    have block : (addr, arg.length + 1) ∈ addrs.zip (argv.map fun arg => arg.length + 1) := by
      apply mem_of_getElem? (i := i)
      simp [List.getElem?_zip_eq_some, here, there]
    have bounds := pushed.inside _ block
    simp only at bounds
    exact copy_outside (.inr (by omega))
  · intro block mem
    rcases mem_cons.mp mem with rfl | mem
    · have spent := pushed.spent
      exact ⟨lower, by simp only; omega⟩
    · have bounds := pushed.inside block mem
      omega
  · unfold stackBlocks
    rw [pairwise_cons]
    refine ⟨fun block mem => .inl ?_, pushed.apart.imp .inr⟩
    have bounds := pushed.inside block mem
    exact ends.trans bounds.1

/-- Every address of a page that has been written can be accessed. -/
theorem copied_user {dst n a : ℕ} {src : List UInt8}
    (copied : CopiedOut layout r dst n src w vm w' vm') (touched : Touched dst n (a / PGSIZE)) :
    UserCan ((w'.space r).bytes vm') a := by
  obtain ⟨low, -, q, -, -, leaf, -⟩ := copied.copied _ touched
  refine ⟨⟨cowFlags, vm'.mem q (a % PGSIZE)⟩, ?_, show cowFlags &&& PTE_U ≠ 0 by decide⟩
  rw [bytes_eq low, leaf]
  rfl

/-- Pushing the arguments of `main` leaves them where they should be. -/
theorem pushArgs_passed (argv : List (List UInt8)) (b : Building layout r tf sz w₀ vm₀ w vm)
    (whole : sz % PGSIZE = 0) (large : 2 * PGSIZE ≤ sz) :
    Safe (pushArgs layout r sz argv) vm fun res vm' => ∃ w',
      Building layout r tf sz w₀ vm₀ w' vm' ∧ ∀ sp argc, res = some (sp, argc) →
        argc = argv.length ∧ Fits argv ∧ sp < 2 ^ 64 ∧ ∃ addrs,
          ArgsPassed ((w'.space r).bytes vm') sz sp argv addrs := by
  have small := b.small whole
  have aligned : sz % 16 = 0 := by
    simp only [PGSIZE] at whole
    omega
  unfold pushArgs
  refine .bind (pushStrings_pushed (sz - PGSIZE) whole argv sz [] w vm b aligned
    (by omega) le_rfl) ?_
  rintro (_ | ⟨sp, addrs⟩) vm₁ ⟨w₁, b₁, pushed⟩
  · exact .pure ⟨w₁, b₁, by simp⟩
  obtain ⟨lower, _, rfl, pushed⟩ := pushed sp addrs rfl
  have spent := pushed.spent
  have size : (wordBytes (addrs ++ [0])).length = 8 * (argv.length + 1) := by
    rw [wordBytes_length, length_append, pushed.count]
    rfl
  by_cases outside : pushSp sp ((addrs.length + 1) * 8) < sz - PGSIZE
  · simp only [if_pos outside]
    exact .pure ⟨w₁, b₁, by simp⟩
  simp only [if_neg outside]
  refine .bind (b₁.copyout _ _) ?_
  rintro ok vm₂ ⟨n, w₂, all, copied, b₂⟩
  cases ok with
  | false => exact .pure ⟨w₂, b₂, by simp⟩
  | true =>
    obtain rfl := all.mp rfl
    have ends := b₁.copied_below whole (by
      rw [← length_pos_iff, size]
      omega) copied
    rw [pushed.count, mul_comm] at outside ends
    have room : pushSp sp (8 * (argv.length + 1)) + pad16 (8 * (argv.length + 1)) = sp :=
      pushSp_eq pushed.aligned (by omega) small (by omega)
    refine .pure ⟨w₂, b₂, ?_⟩
    rintro _ _ ⟨⟩
    rw [pushed.count, mul_comm]
    refine ⟨rfl, by unfold Fits; omega, by omega, addrs, ?_⟩
    have user : ∀ a, sz - PGSIZE ≤ a → a < sz → UserCan ((w₂.space r).bytes vm₂) a := by
      intro a above below
      refine copied_user copied ?_
      rw [pushed.count, mul_comm, size]
      unfold Touched
      simp only [PGSIZE] at whole large above outside ⊢
      omega
    rw [pushed.count, mul_comm] at copied
    rw [bytes_copy b₁.rep b₁.mem copied] at user ⊢
    exact argsPassed_of_pushed pushed small room (by omega) user

end Stack

section Array

variable {layout : Layout} {r : ℕ}

/-- An array that holds a list and then one more value. -/
theorem take_setUstack {ustack : Fin MAXARG → ℕ} {values : List ℕ} (value : ℕ)
    (bound : values.length < MAXARG)
    (same : ((List.finRange MAXARG).map ustack).take values.length = values) :
    ((List.finRange MAXARG).map (update ustack ⟨values.length, bound⟩ value)).take
      (values.length + 1) = values ++ [value] := by
  have before : ((List.finRange MAXARG).map (update ustack ⟨values.length, bound⟩ value)).take
      values.length = ((List.finRange MAXARG).map ustack).take values.length := by
    apply ext_getElem (by simp)
    intro i lower upper
    have below : i < values.length := by
      rw [length_take] at lower
      omega
    have other : (⟨i, by omega⟩ : Fin MAXARG) ≠ ⟨values.length, bound⟩ := by
      intro eq
      have := congrArg Fin.val eq
      simp only at this
      omega
    simp [update_of_ne other]
  rw [take_add_one, before, same]
  simp [bound]

/-- Pushing strings with an array of addresses does what it does with a list, whatever follows. -/
theorem pushStringsArray_bind {α : Type} {base : ℕ}
    {whole : Option (ℕ × ℕ × (Fin MAXARG → ℕ)) → VmM α} {part : Option (ℕ × List ℕ) → VmM α}
    (failed : whole none = part none)
    (agree : ∀ sp (ustack : Fin MAXARG → ℕ) values, values.length < MAXARG →
      ((List.finRange MAXARG).map ustack).take values.length = values →
      whole (some (sp, values.length, ustack)) = part (some (sp, values))) :
    ∀ (argv : List (List UInt8)) sp (ustack : Fin MAXARG → ℕ) values,
      values.length + argv.length < MAXARG →
      ((List.finRange MAXARG).map ustack).take values.length = values →
      (pushStringsArray layout r base sp values.length ustack argv >>= whole) =
        (pushStrings layout r base sp values argv >>= part) := by
  intro argv
  induction argv with
  | nil =>
    intro sp ustack values few same
    rw [pushStringsArray, pushStrings, pure_bind, pure_bind]
    exact agree sp ustack values few same
  | cons arg argv ih =>
    intro sp ustack values few same
    rw [length_cons] at few
    have bound : values.length < MAXARG := by omega
    have room : ¬MAXARG ≤ values.length := by omega
    rw [pushStringsArray, pushStrings]
    by_cases outside : pushSp sp (arg.length + 1) < base
    · simp only [if_neg room, if_pos outside, pure_bind, failed]
    simp only [if_neg room, if_neg outside, bind_assoc]
    refine bind_congr fun ok => ?_
    cases ok with
    | false =>
      rw [if_neg Bool.false_ne_true, if_neg Bool.false_ne_true, pure_bind, pure_bind, failed]
    | true =>
      simp only [setUstack, dif_pos bound, pure_bind, if_true]
      have next := ih (pushSp sp (arg.length + 1)) _ (values ++ [pushSp sp (arg.length + 1)])
        (by rw [length_append, length_singleton]; omega)
        (by rw [length_append]; exact take_setUstack _ bound same)
      rw [length_append, length_singleton] at next
      exact next

/-- With fewer than `MAXARG` arguments no store to `ustack` is beyond its end. -/
theorem pushArgsArray_eq (sz : ℕ) (ustack : Fin MAXARG → ℕ) {argv : List (List UInt8)}
    (few : argv.length < MAXARG) : pushArgsArray layout r sz ustack argv = pushArgs
    layout r sz argv := by
  refine pushStringsArray_bind rfl ?_ argv sz ustack [] (by rwa [length_nil, zero_add]) rfl
  intro sp ustack values bound same
  simp only [setUstack, dif_pos bound, pure_bind, take_setUstack 0 bound same]

end Array

section Call

variable {layout : Layout} {kept : ℕ → Option Page} {w : World} {s t : Sys} {p : Fin NPROC}
  {tf old : ℕ} {file : List UInt8} {argv : List (List UInt8)}

/-- What `exec` of a file leaves in memory and in the trapframe when it succeeds. -/
theorem exec_passed (inv : SysInv layout kept w s) (owns : Owns layout w (s.proc p) old tf) :
    Safe (exec layout p (some file) argv) s fun result t => result = -1 ∧ t.proc = s.proc ∧
        (∃ w', SysInv layout kept w' t) ∨
      result = argv.length ∧ Fits argv ∧ (∃ w', SysInv layout kept w' t) ∧
        (t.proc p).trapframe = some tf ∧ frameReg t tf 120 = frameReg t tf 48 ∧
        ∃ addrs, ArgsPassed (userMemory t p) (t.proc p).sz (frameReg t tf 48) argv addrs := by
  refine .mono (exec_outcome (Q := fun image m => image.argc = argv.length ∧ Fits argv ∧
    image.sp < 2 ^ 64 ∧ ∃ addrs, ArgsPassed m image.sz image.sp argv addrs) inv owns ?_) ?_
  · intro r sz w' vm' b whole large
    refine .mono (pushArgs_passed argv b whole large) ?_
    rintro res vm'' ⟨w'', b', passed⟩
    exact ⟨w'', b', fun sp argc _ same => passed sp argc same⟩
  · rintro result t (⟨rfl, -, same, w', gone⟩ |
      ⟨image, -, m, -, rfl, executed, ⟨argc, fits, small, addrs, passed⟩, -⟩)
    · have proc : t.proc = s.proc := by rw [same]
      exact .inl ⟨rfl, proc, w', (inv.quiet gone proc (by rw [same])).1⟩
    · obtain ⟨w', inv', -⟩ := executed.inv
      have frame := executed.frame tf owns.trapframe
      have sp : frameReg t tf 48 = image.sp := by
        rw [frameReg, frame, execFrame, readLE_writeLE (by omega)]
      have a1 : frameReg t tf 120 = image.sp := by
        rw [frameReg, frame, execFrame, readLE_writeLE_of_disjoint (by omega),
          readLE_writeLE_of_disjoint (by omega), readLE_writeLE (by omega)]
      have entry : t.proc p = { s.proc p with
          pagetable := some image.pagetable, sz := image.sz } := by
        rw [executed.table]
        exact update_self ..
      refine .inr ⟨by rw [argc], fits, ⟨w', inv'⟩, ?_, a1.trans sp.symm, addrs, ?_⟩
      · rw [entry]
        exact owns.trapframe
      · rw [executed.memory, entry, sp]
        exact passed

/-- Storing a register of a process's trapframe leaves user memory alone. -/
theorem setReg_memory (inv : SysInv layout kept w s) (frame : (s.proc p).trapframe = some tf)
    (offset value : ℕ) : ∀ q, userMemory { s with
      vm := s.vm.setPage tf (writeLE (s.vm.mem tf) offset value 8) } q = userMemory s q := by
  intro q
  have kernel := inv.owns_frame frame
  have stored := Updates.setPage inv.rep (writeLE (s.vm.mem tf) offset value 8) kernel
  refine inv.memory_frame (t := { s with vm := _ }) stored.rep stored.frame (fun q' named => ?_) rfl
    fun r _ => ⟨Set.notMem_empty r, fun _ => Set.notMem_empty _⟩
  rw [Set.mem_singleton_iff.mp named, kernel]
  nofun

theorem execReturn_passed (file : Option (List UInt8)) (argv : List (List UInt8))
    (inv : SysInv layout kept w s) (used : (s.proc p).state ≠ .unused) :
    Safe (execReturn layout p file argv) s fun result t => result = -1 ∨
      Fits argv ∧ ∃ tf addrs, (t.proc p).trapframe = some tf ∧ result = argv.length ∧
        frameReg t tf 112 = argv.length % 2 ^ 64 ∧ frameReg t tf 120 = frameReg t tf 48 ∧
        ArgsPassed (userMemory t p) (t.proc p).sz (frameReg t tf 48) argv addrs := by
  obtain ⟨old, tf, owns⟩ := inv.owns used
  unfold execReturn
  cases file with
  | none =>
    have failed : exec layout p none argv s = .ok (-1, s) := rfl
    apply Safe.bind_ok failed
    apply Safe.bind_reads
    simp only [owns.trapframe]
    exact bind_memory_modifies (.pure (.inl rfl))
  | some file =>
    refine .bind (exec_passed inv owns) ?_
    rintro result t (⟨rfl, same, -⟩ | ⟨rfl, fits, ⟨w', inv'⟩, frame, a1, addrs, passed⟩)
    · apply Safe.bind_reads
      rw [same]
      simp only [owns.trapframe]
      exact bind_memory_modifies (.pure (.inl rfl))
    · apply Safe.bind_reads
      simp only [frame]
      have value : ((argv.length : Int) % 2 ^ 64).toNat = argv.length % 2 ^ 64 := by omega
      rw [value]
      refine bind_memory_modifies (.pure (.inr ⟨fits, tf, addrs, frame, rfl, ?_, ?_, ?_⟩))
      · rw [frameReg, Vm.setPage_self, readLE_writeLE (by omega)]
      · rw [frameReg, frameReg, Vm.setPage_self, readLE_writeLE_of_disjoint (by omega),
          readLE_writeLE_of_disjoint (by omega)]
        exact a1
      · rw [setReg_memory inv' frame, frameReg, Vm.setPage_self,
          readLE_writeLE_of_disjoint (by omega)]
        exact passed

end Call

/-- A program that `exec` has started finds its arguments: `a0` counts them, `a1` and `sp` are the
address of an array, aligned to 16 bytes, of the addresses of the strings with a 0 at its end, and
array and strings are apart from each other in the last page of memory. Arguments that do not fit
in a page make `exec` fail, and no store to `ustack` is beyond its end. -/
theorem exec_arguments {layout : Layout} {trace : List UserEvent} {s : Sys} {p : Fin NPROC}
    (file : Option (List UInt8)) (argv : List (List UInt8))
    (run : (userSystem layout).Exec trace s) (alive : (s.proc p).state = .alive)
    (few : argv.length ≤ MAXARG - 1) :
    (∃ result t, execReturn layout p file argv s = .ok (result, t) ∧
      (result ≠ -1 → ∃ tf addrs, (t.proc p).trapframe = some tf ∧ result = argv.length ∧
        frameReg t tf 112 = argv.length ∧ frameReg t tf 120 = frameReg t tf 48 ∧
        ArgsPassed (userMemory t p) (t.proc p).sz (frameReg t tf 48) argv addrs) ∧
      (¬Fits argv → result = -1)) ∧
    ∀ pagetable sz ustack,
      pushArgsArray layout pagetable sz ustack argv = pushArgs layout pagetable sz argv := by
  have bound : argv.length < MAXARG := by
    simp only [MAXARG] at few ⊢
    omega
  obtain ⟨w, inv⟩ := run_inv run
  constructor
  · obtain ⟨result, t, ran, outcome⟩ :=
      execReturn_passed file argv inv (by rw [alive]; nofun : (s.proc p).state ≠ .unused)
    refine ⟨result, t, ran, fun succeeded => ?_, fun large => ?_⟩
    · obtain ⟨-, tf, addrs, frame, count, a0, a1, passed⟩ := outcome.resolve_left succeeded
      have small : argv.length % 2 ^ 64 = argv.length := by
        simp only [MAXARG] at bound
        omega
      exact ⟨tf, addrs, frame, count, a0.trans small, a1, passed⟩
    · exact outcome.resolve_right fun fits => large fits.1
  · exact fun pagetable sz ustack => pushArgsArray_eq sz ustack bound

/-- A program without segments. -/
def emptyFile : List UInt8 := [0x7F, 0x45, 0x4C, 0x46] ++ List.replicate 60 0

/-- Could the first process start the program with the arguments `hi` and `x`? -/
def startsProgram (s : Sys) : Bool :=
  match (s.proc s.initproc).trapframe with
  | none => false
  | some tf =>
    match execImage textLayout tf emptyFile [[104, 105], [120]] s.vm with
    | .ok (some _, _) => true
    | _ => false

/-- The machine boots, and its first process can start the program. -/
theorem stack_boots : ∃ s tf image vm, (userSystem textLayout).init s ∧
    (s.proc s.initproc).state = .alive ∧ (s.proc s.initproc).trapframe = some tf ∧
    execImage textLayout tf emptyFile [[104, 105], [120]] s.vm = .ok (some image, vm) := by
  have checked : bootsTo textLayout 0 [1, 2, 3] startsProgram = true := by decide +kernel
  obtain ⟨s, start, alive, starts⟩ := exists_booted checked
  unfold startsProgram at starts
  split at starts
  · exact absurd starts Bool.false_ne_true
  · rename_i tf frame
    split at starts
    · rename_i image vm ran
      exact ⟨s, tf, image, vm, start, alive, frame, ran⟩
    · exact absurd starts Bool.false_ne_true

/-- The return from `exec` keeps its result. -/
theorem exec_of_return {layout : Layout} {p : Fin NPROC} {file : Option (List UInt8)}
    {argv : List (List UInt8)} {s t : Sys} {result : Int}
    (ran : execReturn layout p file argv s = .ok (result, t)) :
    ∃ u, exec layout p file argv s = .ok (result, u) := by
  obtain ⟨ret, u, execed, rest⟩ := bind_eq_ok ran
  obtain ⟨pr, u', -, rest⟩ := bind_eq_ok rest
  cases frame : pr.trapframe with
  | none =>
    simp only [frame] at rest
    exact nomatch rest
  | some tf =>
    simp only [frame] at rest
    obtain ⟨_, _, _, last⟩ := bind_eq_ok rest
    obtain ⟨rfl, -⟩ := Prod.mk.inj (Except.ok.inj last)
    exact ⟨u, execed⟩

/-- The first process starts a program with the arguments `hi` and `x`. -/
theorem exec_arguments_two : ∃ s t tf addrs, (userSystem textLayout).Exec [] s ∧
    execReturn textLayout s.initproc (some emptyFile) [[104, 105], [120]] s = .ok (2, t) ∧
    (t.proc s.initproc).trapframe = some tf ∧ frameReg t tf 112 = 2 ∧
    ArgsPassed (userMemory t s.initproc) (t.proc s.initproc).sz (frameReg t tf 48)
      [[104, 105], [120]] addrs := by
  obtain ⟨s, tf, image, vm, start, alive, frame, built⟩ := stack_boots
  obtain ⟨w, inv, -⟩ := init_inv start
  obtain ⟨old, tf', owns⟩ := inv.owns (p := s.initproc) (by rw [alive]; nofun)
  obtain rfl := Option.some.inj (owns.trapframe.symm.trans frame)
  obtain ⟨⟨result, t, ran, passed, -⟩, -⟩ := exec_arguments (some emptyFile) [[104, 105], [120]]
    (.start start) alive (by decide)
  obtain ⟨u, execed⟩ := exec_of_return ran
  have positive := ((exec_of_image inv owns built).result execed).1
  obtain ⟨tf, addrs, frame, rfl, a0, -, stack⟩ := passed (by omega)
  exact ⟨s, t, tf, addrs, .start start, ran, frame, a0, stack⟩

end Xv6Cos.Verif
