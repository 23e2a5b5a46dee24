import Mathlib.Data.BitVec
import Mathlib.Tactic.IntervalCases
import Xv6Cos.Spec.Strings

/-!
# `printf` prints numerals
-/

namespace Xv6Cos.Verif

open User Spec Nat List

/-- The digits are those of Lean, in capitals. -/
theorem digits_eq : ∀ {k : ℕ}, k < 16 → User.digits[k]? = some k.digitChar.toUpper := by decide

/-- The buffer has room for all the digits. -/
theorem putDigits_eq {base x : BitVec 32} {buf : List Char} {r : ℕ} (more : 1 < base.toNat)
    (few : base.toNat ≤ 16) (small : x.toNat < base.toNat ^ r) (fits : buf.length + r ≤ 16)
    (positive : 0 < r) : putDigits base x buf =
      some ((toDigits base.toNat x.toNat).map Char.toUpper ++ buf) := by
  induction r generalizing x buf with
  | zero => contradiction
  | succ r ih =>
    have low : x.toNat % base.toNat < base.toNat := mod_lt _ (by omega)
    rw [putDigits, BitVec.toNat_umod, digits_eq (low.trans_le few)]
    simp only [if_pos (show buf.length < 16 by omega)]
    by_cases last : x.toNat < base.toNat
    · have zero : x / base = 0 := by
        apply BitVec.eq_of_toNat_eq
        rw [BitVec.toNat_udiv]
        exact div_eq_of_lt last
      rw [if_pos zero, toDigits_of_lt_base last, mod_eq_of_lt last]
      rfl
    · have left : 0 < x.toNat / base.toNat := div_pos (by omega) (by omega)
      have below : x.toNat / base.toNat < base.toNat ^ r := by
        rw [pow_succ'] at small
        exact Nat.div_lt_of_lt_mul small
      have positive : 0 < r := pos_of_ne_zero fun none => by
        rw [none, pow_zero] at below
        omega
      rw [← BitVec.toNat_udiv] at left below
      rw [if_neg fun zero => by rw [zero] at left; exact absurd left (by decide),
        ih below (by rw [length_cons]; omega) positive, BitVec.toNat_udiv,
        toDigits_of_base_le (n := x.toNat) more (by omega), map_append, append_assoc]
      rfl

/-- In base ten they are the decimal numeral. -/
theorem putDigits_numeral (x : BitVec 32) :
    putDigits 10 x [] = some (toString x.toNat).toList := by
  have plain : (toDigits 10 x.toNat).map Char.toUpper = toDigits 10 x.toNat := by
    refine (map_congr_left fun c mem => ?_).trans (map_id _)
    have digit := isDigit_of_mem_toDigits (by decide) (by decide) mem
    simp only [Char.isDigit, Bool.and_eq_true, decide_eq_true_eq] at digit
    delta Char.toUpper
    rw [dif_neg]
    · rfl
    · intro letter
      exact absurd (UInt32.le_trans letter.1 digit.2) (by decide)
  rw [putDigits_eq (r := 10) (by decide) (by decide) (by simp; omega) (by decide) (by decide)]
  rw [append_nil, toString_eq_ofList_toDigits, String.toList_ofList]
  exact congrArg some plain

/-- `%d` prints the number with its sign. -/
theorem printint_signed (x : BitVec 32) : printint x 10 true = some (toString x.toInt).toList := by
  rw [printint, Int.toString_eq_repr, Int.repr_eq_if]
  by_cases neg : x.toInt < 0
  · have value : (-x.toInt).toNat = (-x).toNat := by
      rw [BitVec.toInt_eq_toNat_cond] at neg ⊢
      split_ifs at neg ⊢ <;> bv_omega
    have room : (toString (-x).toNat).toList.length < 16 := by
      rw [toString_eq_ofList_toDigits, String.toList_ofList, Nat.lt_succ_iff,
        length_toDigits_le_iff (by decide) (by decide)]
      omega
    rw [if_pos (by simpa [BitVec.slt] using neg), if_neg (by omega), putDigits_numeral, value]
    simp only [Option.bind_some, if_pos room, String.toList_append]
    rfl
  · have value : x.toInt.toNat = x.toNat := by
      rw [BitVec.toInt_eq_toNat_cond] at neg ⊢
      split_ifs at neg ⊢ <;> omega
    rw [if_neg (by simpa [BitVec.slt] using neg), if_pos (by omega), putDigits_numeral, value]
    rfl

/-- The loop of `printptr` shows the highest four bits. -/
theorem putNibbles_eq (x : BitVec 64) : ∀ n k, k + n = 16 → putNibbles n (x <<< (4 * k)) =
    some ((range' k n).map fun i => User.digits[x.toNat / 16 ^ (15 - i) % 16]!) := by
  intro n
  induction n with
  | zero => exact fun _ _ => rfl
  | succ n ih =>
    intro k total
    have nibble : (x <<< (4 * k) >>> 60).toNat = x.toNat / 16 ^ (15 - k) % 16 := by
      have low : k < 16 := by omega
      interval_cases k <;> simp <;> omega
    have shown : ∀ d < 16, User.digits[d]? = some User.digits[d]! := by decide
    rw [putNibbles, nibble, shown _ (mod_lt _ (by decide)), ← BitVec.shiftLeft_add,
      ← mul_succ, ih (k + 1) (by omega)]
    rfl

/-- `printptr` prints all sixteen digits. -/
theorem printptr_eq (x : BitVec 64) :
    printptr x = some (['0', 'x'] ++ hexNumeral x.toNat) := by
  have shown := putNibbles_eq x 16 0 rfl
  rw [mul_zero, BitVec.shiftLeft_zero] at shown
  rw [printptr, shown, hexNumeral, range_eq_range']
  rfl

/-- Numerals determine their numbers. -/
theorem toString_inj {m n : ℕ} : toString m = toString n ↔ m = n := by
  refine ⟨fun same => ?_, congrArg _⟩
  rw [toString_eq_ofList_toDigits, toString_eq_ofList_toDigits, String.ofList_inj] at same
  rw [← ofDigitChars_toDigits (b := 10) (n := m), same, ofDigitChars_toDigits] <;> decide

variable {string : BitVec 64 → List Char}

/-- `%l` prints the low 32 bits. -/
theorem conversion_l {x : BitVec 64} {ap : List (BitVec 64)} : conversion string 'l' (x :: ap) =
    some ((toString (x.toNat % 2 ^ 32)).toList, ap) := by
  change (putDigits 10 (x.setWidth 32) []).bind _ = _
  rw [putDigits_numeral, BitVec.toNat_setWidth]
  rfl

/-- One conversion of the format. -/
theorem vprintf_conversion {c : Char} {fmt out : List Char} {ap rest : List (BitVec 64)}
    (shown : conversion string c ap = some (out, rest)) :
    vprintf string false ('%' :: c :: fmt) ap = (out ++ ·) <$> vprintf string false fmt rest := by
  rw [vprintf, if_pos rfl, vprintf, shown]
  rfl

/-- `%d` and `%p` print the numeral of their argument. `%l` prints that of its low half, which is
the argument's own numeral only below 2³². Nothing is read or written outside of an array. -/
theorem printf_numbers (fmt : List Char) (x : BitVec 64) (ap : List (BitVec 64)) :
    vprintf string false ('%' :: 'd' :: fmt) (x :: ap) =
        ((toString (x.setWidth 32).toInt).toList ++ ·) <$> vprintf string false fmt ap ∧
      vprintf string false ('%' :: 'l' :: fmt) (x :: ap) =
        ((toString (x.toNat % 2 ^ 32)).toList ++ ·) <$> vprintf string false fmt ap ∧
      (toString (x.toNat % 2 ^ 32) = toString x.toNat ↔ x.toNat < 2 ^ 32) ∧
      vprintf string false ('%' :: 'p' :: fmt) (x :: ap) =
        (['0', 'x'] ++ hexNumeral x.toNat ++ ·) <$> vprintf string false fmt ap ∧
      vprintf string false ('%' :: 'x' :: fmt) (x :: ap) =
        ((Nat.toDigits 16 (x.toNat % 2 ^ 32)).map Char.toUpper ++ ·) <$>
          vprintf string false fmt ap := by
  refine ⟨vprintf_conversion ?_, vprintf_conversion conversion_l, ?_, vprintf_conversion ?_,
    vprintf_conversion ?_⟩
  · change (printint (x.setWidth 32) 10 true).bind _ = _
    rw [printint_signed]
    rfl
  · rw [toString_inj]
    omega
  · change (printptr x).bind _ = _
    rw [printptr_eq]
    rfl
  · change (putDigits 16 (x.setWidth 32) []).bind _ = _
    rw [putDigits_eq (r := 8) (by decide) (by decide) (BitVec.isLt _) (by decide) (by decide),
      append_nil, BitVec.toNat_setWidth]
    rfl

/-- The numeral of 2³² comes out as `0`. -/
theorem printf_narrows :
    vprintf (fun _ => []) false ['%', 'l'] [2 ^ 32] = some ['0'] := by
  rw [vprintf_conversion conversion_l]
  decide

end Xv6Cos.Verif
