import Mathlib.Data.Nat.Bitwise
import Mathlib.Tactic.Ring

/-!
# Little-endian words and bits in byte memory

Memory is a function from addresses to bytes. A word of `len` bytes is read and written
least significant byte first, and bit `i` is in byte `i / 8`. The lemmas are the frame rule of a
write, the round trip of a word that fits, and the independence of disjoint words and of distinct
bits.
-/

namespace Bytes

open Function Nat

variable {k len' : Nat}

/-- The `len`-byte word at address `a`. -/
def readLE (m : Nat → UInt8) (a : Nat) : Nat → Nat
  | 0 => 0
  | len + 1 => (m a).toNat + 256 * readLE m (a + 1) len

/-- Store the low `len` bytes of `v` at address `a`. -/
def writeLE (m : Nat → UInt8) (a v : Nat) : Nat → (Nat → UInt8)
  | 0 => m
  | len + 1 => writeLE (update m a (UInt8.ofNat v)) (a + 1) (v / 256) len

variable {m m' : Nat → UInt8} {a b v len : Nat}

/-- A word depends only on its own bytes. -/
theorem readLE_congr (same : ∀ k, a ≤ k → k < a + len → m k = m' k) :
    readLE m a len = readLE m' a len := by
  induction len generalizing a with
  | zero => rfl
  | succ len ih =>
    rw [readLE, readLE, same a le_rfl (by omega),
      ih (fun k lower upper => same k (by omega) (by omega))]

/-- A word fits its bytes. -/
theorem readLE_lt : readLE m a len < 256 ^ len := by
  induction len generalizing a with
  | zero => exact Nat.one_pos
  | succ len ih =>
    have rest := ih (a := a + 1)
    have first := (m a).toNat_lt
    rw [readLE, Nat.pow_succ]
    omega

/-- A write changes only its own bytes. -/
theorem writeLE_of_outside (outside : k < a ∨ a + len ≤ k) : writeLE m a v len k = m k := by
  induction len generalizing m a v with
  | zero => rfl
  | succ len ih =>
    rw [writeLE, ih (by omega), update_of_ne (by omega)]

/-- A byte before a word may be stored before or after it. -/
theorem update_writeLE {b : UInt8} (outside : k < a) :
    update (writeLE m a v len) k b = writeLE (update m k b) a v len := by
  induction len generalizing m a v with
  | zero => rfl
  | succ len ih =>
    rw [writeLE, writeLE, ih (by omega), update_comm (by omega)]

/-- A word that fits is read back. -/
theorem readLE_writeLE (fits : v < 256 ^ len) : readLE (writeLE m a v len) a len = v := by
  induction len generalizing m a v with
  | zero => simp only [Nat.pow_zero, lt_one_iff] at fits; rw [fits, readLE]
  | succ len ih =>
    rw [Nat.pow_succ] at fits
    rw [readLE, writeLE, ih (Nat.div_lt_of_lt_mul (by rwa [Nat.mul_comm])),
      writeLE_of_outside (by omega), update_self, UInt8.toNat_ofNat']
    exact mod_add_div v 256

/-- A write shadows an earlier one of the same word. -/
theorem writeLE_writeLE {v' : Nat} : writeLE (writeLE m a v len) a v' len = writeLE m a v' len := by
  induction len generalizing m a v v' with
  | zero => rfl
  | succ len ih =>
    have late : ∀ (m : Nat → UInt8) (b : UInt8), update (writeLE m (a + 1) (v / 256) len) a b =
        writeLE (update m a b) (a + 1) (v / 256) len := fun m b => update_writeLE (by omega)
    rw [writeLE, writeLE, writeLE, late, ih, update_idem]

/-- Words at disjoint addresses are independent. -/
theorem readLE_writeLE_of_disjoint (apart : a + len ≤ b ∨ b + len' ≤ a) :
    readLE (writeLE m b v len') a len = readLE m a len :=
  readLE_congr fun _ _ _ => writeLE_of_outside (by omega)

section Words

variable {vs : List Nat}

/-- Store words of `len` bytes one after another. -/
def writeWords (m : Nat → UInt8) (a len : Nat) : List Nat → (Nat → UInt8)
  | [] => m
  | v :: vs => writeWords (writeLE m a v len) (a + len) len vs

/-- Words change only their own bytes. -/
theorem writeWords_of_outside (outside : k < a ∨ a + len * vs.length ≤ k) :
    writeWords m a len vs k = m k := by
  induction vs generalizing m a with
  | nil => rfl
  | cons v vs ih =>
    rw [List.length_cons, mul_succ] at outside
    rw [writeWords, ih (by omega), writeLE_of_outside (by omega)]

/-- A word that fits is read back. -/
theorem readLE_writeWords {i : Nat} (inside : i < vs.length) (fits : vs[i] < 256 ^ len) :
    readLE (writeWords m a len vs) (a + len * i) len = vs[i] := by
  induction vs generalizing m a i with
  | nil => exact absurd inside (Nat.not_lt_zero i)
  | cons v vs ih =>
    cases i with
    | zero =>
      have first : readLE (writeWords (writeLE m a v len) (a + len) len vs) a len =
          readLE (writeLE m a v len) a len :=
        readLE_congr fun k _ upper => writeWords_of_outside (.inl upper)
      rw [writeWords, Nat.mul_zero, Nat.add_zero, first]
      exact readLE_writeLE fits
    | succ i =>
      have rest := ih (m := writeLE m a v len) (a := a + len) (lt_of_succ_lt_succ inside) fits
      rw [writeWords, mul_succ, Nat.add_comm (len * i), ← Nat.add_assoc, rest]
      rfl

/-- A word outside is not changed. -/
theorem readLE_writeWords_of_disjoint (apart : b + len' ≤ a ∨ a + len * vs.length ≤ b) :
    readLE (writeWords m a len vs) b len' = readLE m b len' :=
  readLE_congr fun _ _ _ => writeWords_of_outside (by omega)

end Words

section Bits

/-- The mask of a bit in its byte. -/
def mask (i : Nat) : UInt8 := UInt8.ofNat (2 ^ (i % 8))

/-- Bit `i`. -/
def getBit (m : Nat → UInt8) (i : Nat) : Bool := m (i / 8) &&& mask i ≠ 0

/-- Set bit `i`. -/
def setBit (m : Nat → UInt8) (i : Nat) : Nat → UInt8 :=
  update m (i / 8) (m (i / 8) ||| mask i)

/-- Clear bit `i`. -/
def clearBit (m : Nat → UInt8) (i : Nat) : Nat → UInt8 :=
  update m (i / 8) (m (i / 8) &&& ~~~mask i)

/-- The mask is a power of two. -/
theorem mask_toNat (i : Nat) : (mask i).toNat = 2 ^ (i % 8) := by
  have small : 2 ^ (i % 8) < 2 ^ 8 := Nat.pow_lt_pow_right (by omega) (mod_lt i (by omega))
  rw [mask, UInt8.toNat_ofNat', mod_eq_of_lt small]

/-- A bit of the map is a bit of one of its bytes. -/
theorem getBit_eq (m : Nat → UInt8) (i : Nat) : getBit m i = (m (i / 8)).toNat.testBit (i % 8) := by
  have value : (m (i / 8) &&& mask i).toNat = 2 ^ (i % 8) *
    ((m (i / 8)).toNat.testBit (i % 8)).toNat := by
    rw [UInt8.toNat_and, mask_toNat, and_two_pow, Nat.mul_comm]
  have zero : (m (i / 8) &&& mask i = 0) ↔ (m (i / 8) &&& mask i).toNat = 0 := by
    rw [← UInt8.toNat_inj]
    rfl
  rw [getBit]
  cases set : (m (i / 8)).toNat.testBit (i % 8) with
  | true => simp [zero, value, set]
  | false => simp [zero, value, set]

/-- Setting a bit changes no other. -/
theorem getBit_setBit (m : Nat → UInt8) (i j : Nat) :
    getBit (setBit m i) j = (decide (j = i) || getBit m j) := by
  rw [getBit_eq, getBit_eq, setBit]
  by_cases here : j / 8 = i / 8
  · have same : i % 8 = j % 8 ↔ j = i := by omega
    rw [here, update_self, UInt8.toNat_or, mask_toNat, testBit_or, testBit_two_pow, Bool.or_comm]
    simp only [same]
  · have other : j ≠ i := fun same => here (by rw [same])
    rw [update_of_ne here, decide_eq_false other, Bool.false_or]

/-- Clearing a bit changes no other. -/
theorem getBit_clearBit (m : Nat → UInt8) (i j : Nat) :
    getBit (clearBit m i) j = (decide (j ≠ i) && getBit m j) := by
  rw [getBit_eq, getBit_eq, clearBit]
  by_cases here : j / 8 = i / 8
  · have same : i % 8 = j % 8 ↔ j = i := by omega
    have small : 2 ^ (i % 8) < 2 ^ 8 := Nat.pow_lt_pow_right (by omega) (mod_lt i (by omega))
    have rest : (~~~mask i).toNat = 2 ^ 8 - (2 ^ (i % 8) + 1) := by
      rw [UInt8.toNat_not, mask_toNat, Nat.sub_sub, Nat.add_comm 1]
      rfl
    rw [here, update_self, UInt8.toNat_and, rest, testBit_and,
      testBit_two_pow_sub_succ small, testBit_two_pow, Bool.and_comm]
    simp only [same, mod_lt j (by omega : 8 > 0), decide_true, Bool.true_and, decide_not]
  · have other : j ≠ i := fun same => here (by rw [same])
    rw [update_of_ne here, decide_eq_true other, Bool.true_and]

end Bits

end Bytes
