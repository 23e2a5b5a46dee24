import Xv6Cos.Kernel.Tickets

/-!
# Tickets

`sys_settickets` passes its two arguments on in the other order, and `settickets` gives tickets to
its caller.
-/

namespace Xv6Cos.Verif

open Kernel Function Option BitVec

variable {s : Lottery} {p q : Fin NPROC}

/-- The process with the pid has the number of tickets; those of the others are as in `s`. -/
def TicketsGiven (s : Lottery) (tickets : Fin NPROC → BitVec 32) (number pid : BitVec 32) : Prop :=
  ∀ q, (s.table.entry q).state ≠ .unused →
    tickets q = if (s.table.entry q).pid = pid then number else s.tickets q

/-- `sys_settickets` passes its arguments in the other order, and `settickets` is about the caller.
The process named gets the number given, and no other tickets change, exactly if the caller names
itself and gives its own pid as the number, or all tickets are that way already. -/
theorem settickets_addresses (number pid : BitVec 32) (caller : (s.table.entry p).state ≠ .unused)
    (distinct : ∀ q q', (s.table.entry q).state ≠ .unused → (s.table.entry q').state ≠ .unused →
      (s.table.entry q).pid = (s.table.entry q').pid → q = q') :
    TicketsGiven s (sysSettickets s.tickets p number pid).1 number pid ↔
      if (s.table.entry p).pid = pid then number = pid
      else s.tickets p = pid ∧ ∀ q, (s.table.entry q).state ≠ .unused →
        (s.table.entry q).pid = pid → s.tickets q = number := by
  have after : ∀ q, (sysSettickets s.tickets p number pid).1 q =
      if q = p then pid else s.tickets q := fun q => update_apply s.tickets p pid q
  unfold TicketsGiven
  split
  · rename_i self
    constructor
    · intro holds
      have here := holds p caller
      rw [after, if_pos rfl, if_pos self] at here
      exact here.symm
    · rintro same q used
      rw [after]
      by_cases here : q = p
      · rw [here, if_pos rfl, if_pos self, same]
      · rw [if_neg here, if_neg fun named =>
          here (distinct q p used caller (named.trans self.symm))]
  · rename_i other
    constructor
    · intro holds
      have mine := holds p caller
      rw [after, if_pos rfl, if_neg other] at mine
      refine ⟨mine.symm, fun q used named => ?_⟩
      have away : q ≠ p := by
        rintro rfl
        exact other named
      have here := holds q used
      rwa [after, if_neg away, if_pos named] at here
    · rintro ⟨mine, already⟩ q used
      rw [after]
      by_cases here : q = p
      · rw [here, if_pos rfl, if_neg other, mine]
      · rw [if_neg here]
        split
        · rename_i named
          exact already q used named
        · rfl

/-- The first process has forked. -/
def parentAndChild : Lottery :=
  ⟨ProcTable.boot.setEntry ⟨1, one_lt_nproc⟩ { Entry.zero with state := .runnable, pid := 2 },
    fun _ => 1⟩

/-- The child gives itself two tickets, as many as its pid. -/
theorem settickets_addresses_self : TicketsGiven parentAndChild
    (sysSettickets parentAndChild.tickets ⟨1, one_lt_nproc⟩ 2 2).1 2 2 :=
  (settickets_addresses 2 2 (by decide) (by decide)).mpr (by decide)

/-- The parent gives ten tickets to its child, and has then two itself; the child has still one. -/
theorem settickets_misses : ¬TicketsGiven parentAndChild
    (sysSettickets parentAndChild.tickets ⟨0, by decide⟩ 10 2).1 10 2 := by
  intro holds
  exact absurd (holds ⟨1, by decide⟩ (by decide)) (by decide)

section Random

/-- The step, for the numbers from 1 to 2³¹ - 2. -/
def multiplied (x : ℕ) : ℕ := 16807 * x % 0x7fffffff

/-- 1407677000 is the inverse of 16807. -/
theorem inverse_multiplied (x : ℕ) : 1407677000 * multiplied x % 0x7fffffff = x % 0x7fffffff := by
  unfold multiplied
  omega

theorem multiplied_inverse (x : ℕ) : multiplied (1407677000 * x % 0x7fffffff) = x % 0x7fffffff := by
  unfold multiplied
  omega

theorem long_of_small {x : ℤ} (low : -2 ^ 63 ≤ x) (high : x < 2 ^ 63) : long x = some x :=
  if_pos ⟨low, high⟩

/-- The quotient and remainder by 127773 give the product, up to a multiple of the modulus. -/
theorem multiplied_eq {x : ℕ} (less : x < 0x7fffffff) :
    let z := 16807 * ((x : ℤ) % 127773) - 2836 * (x / 127773)
    (multiplied x : ℤ) = if z < 0 then z + 0x7fffffff else z := by
  unfold multiplied
  dsimp only
  split <;> omega

/-- What both functions compute, without an overflow. -/
theorem parkMiller_spec (ctx : BitVec 64) : ∃ r new, parkMiller ctx = some (r, new) ∧
    r.toInt = (multiplied (ctx.toNat % 0x7ffffffe + 1) : ℤ) - 1 ∧ new.toNat = r.toInt ∧
    0 ≤ r.toInt ∧ r.toInt ≤ 2 ^ 31 - 3 := by
  have pos : 0 < multiplied (ctx.toNat % 0x7ffffffe + 1) := by
    have back := inverse_multiplied (ctx.toNat % 0x7ffffffe + 1)
    omega
  have value := multiplied_eq (show ctx.toNat % 0x7ffffffe + 1 < 0x7fffffff by omega)
  have fits : multiplied (ctx.toNat % 0x7ffffffe + 1) < 0x7fffffff := Nat.mod_lt _ (by decide)
  unfold parkMiller
  generalize ctx.toNat % 0x7ffffffe + 1 = x at *
  -- every intermediate value is far from the bounds of `long`
  rw [long_of_small (by omega) (by omega), bind_eq_bind, bind_some,
    Int.tdiv_eq_ediv_of_nonneg (Int.natCast_nonneg x),
    Int.tmod_eq_emod_of_nonneg (Int.natCast_nonneg x)]
  generalize hi_eq : (x : ℤ) / 127773 = hi at *
  generalize lo_eq : (x : ℤ) % 127773 = lo at *
  have corrected : (if 16807 * lo - 2836 * hi < 0 then long (16807 * lo - 2836 * hi + 0x7fffffff)
      else some (16807 * lo - 2836 * hi)) = some (multiplied x : ℤ) := by
    rw [value]
    split
    · exact long_of_small (by omega) (by omega)
    · rfl
  simp only [long_of_small (show -2 ^ 63 ≤ 16807 * lo by omega) (by omega),
    long_of_small (show -2 ^ 63 ≤ 2836 * hi by omega) (by omega),
    long_of_small (show -2 ^ 63 ≤ 16807 * lo - 2836 * hi by omega) (by omega), bind_some,
    corrected, long_of_small (show -2 ^ 63 ≤ (multiplied x : ℤ) - 1 by omega) (by omega)]
  have ret : (BitVec.ofInt 32 ((multiplied x : ℤ) - 1)).toInt = multiplied x - 1 := by
    rw [toInt_ofInt, Int.bmod_eq_of_le (by omega) (by omega)]
  refine ⟨_, _, rfl, ret, ?_, by omega, by omega⟩
  rw [toNat_ofInt, ret]
  omega

/-- The next number, for those that can be in `*ctx` after the first call. -/
theorem customRandom_eq_iff {ctx new : BitVec 64} (small : ctx.toNat ≤ 2 ^ 31 - 3) :
    (customRandom ctx).map Prod.snd = some new ↔ multiplied (ctx.toNat + 1) = new.toNat + 1 := by
  obtain ⟨r, stored, ran, value, same, -, -⟩ := parkMiller_spec ctx
  rw [Nat.mod_eq_of_lt (by omega)] at value
  rw [customRandom, ran, map_some, some_inj, ← toNat_inj]
  dsimp only
  omega

/-- For every `*ctx` both functions return the next number of the sequence without an overflow, and
store it. The step is a permutation of the numbers up to 2³¹ - 3. -/
theorem park_miller_step :
    (∀ ctx : BitVec 64, ∃ r new, customRandom ctx = some (r, new) ∧ doRand ctx = some (r, new) ∧
      r.toInt = (16807 * (ctx.toNat % (2 ^ 31 - 2) + 1) % (2 ^ 31 - 1) : ℕ) - 1 ∧
      new.toNat = r.toInt ∧ 0 ≤ r.toInt ∧ r.toInt ≤ 2 ^ 31 - 3) ∧
    ∀ new : BitVec 64, new.toNat ≤ 2 ^ 31 - 3 → ∃! ctx : BitVec 64,
      ctx.toNat ≤ 2 ^ 31 - 3 ∧ (customRandom ctx).map Prod.snd = some new := by
  constructor
  · intro ctx
    obtain ⟨r, new, ran, returned⟩ := parkMiller_spec ctx
    exact ⟨r, new, ran, ran, returned⟩
  · intro new small
    have found := multiplied_inverse (new.toNat + 1)
    rw [Nat.mod_eq_of_lt (a := new.toNat + 1) (by omega)] at found
    generalize preimage : 1407677000 * (new.toNat + 1) % 0x7fffffff = x at found
    have below : x < 0x7fffffff := preimage ▸ Nat.mod_lt _ (by decide)
    have pos : x ≠ 0 := by
      rintro rfl
      exact Nat.succ_ne_zero _ found.symm
    have same : (BitVec.ofNat 64 (x - 1)).toNat = x - 1 := by
      rw [toNat_ofNat]
      exact Nat.mod_eq_of_lt (by omega)
    have bound : (BitVec.ofNat 64 (x - 1)).toNat ≤ 2 ^ 31 - 3 := by omega
    refine ⟨.ofNat 64 (x - 1), ⟨bound, (customRandom_eq_iff bound).mpr ?_⟩, fun ctx leads => ?_⟩
    · rwa [same, Nat.sub_add_cancel (Nat.pos_of_ne_zero pos)]
    · have before := inverse_multiplied (ctx.toNat + 1)
      rw [(customRandom_eq_iff leads.1).mp leads.2, preimage] at before
      apply eq_of_toNat_eq
      omega

end Random

end Xv6Cos.Verif
