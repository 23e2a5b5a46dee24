import Xv6Cos.Kernel.Memmove
import Xv6Cos.User.Printf

/-!
# What `grep`, `memmove` and `printf` are for
-/

namespace Xv6Cos.Spec

/-- The pattern stands for this part of the text, if `rest` comes after it. -/
inductive Denotes : List Char → List Char → List Char → Prop
  | empty {rest : List Char} : Denotes [] [] rest
  /-- Any number of a character. -/
  | star {c : Char} {re run part rest : List Char} : (∀ t ∈ run, t = c ∨ c = '.') →
      Denotes re part rest → Denotes (c :: '*' :: re) (run ++ part) rest
  /-- The end of the text. -/
  | final : Denotes ['$'] [] []
  /-- A character that has no other meaning. -/
  | char {c t : Char} {re part rest : List Char} : re.head? ≠ some '*' → (c :: re) ≠ ['$'] →
      (c = '.' ∨ c = t) → Denotes re part rest → Denotes (c :: re) (t :: part) rest

/-- The memory after `n` bytes have moved all at once. -/
def moved (mem : ByteMap) (dst src : BitVec 64) (n : ℕ) : ByteMap := fun a =>
  if (a - dst).toNat < n then mem (src + (a - dst)) else mem a

/-- The hexadecimal numeral of 16 digits. -/
def hexNumeral (n : ℕ) : List Char :=
  (List.range 16).map fun i => User.digits[n / 16 ^ (15 - i) % 16]!

end Xv6Cos.Spec
