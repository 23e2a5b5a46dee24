import Mathlib.Algebra.Group.Nat.Defs
import Mathlib.Logic.Function.Basic

/-!
# Copying bytes (`kernel/string.c`, `user/ulib.c`)
-/

namespace Xv6Cos

open Function

/-- The bytes at the addresses. -/
abbrev ByteMap := BitVec 64 → BitVec 8

/-- `while(n-- > 0) *d++ = *s++`. -/
def copyUp (mem : ByteMap) (d s : BitVec 64) : ℕ → ByteMap
  | 0 => mem
  | n + 1 => copyUp (update mem d (mem s)) (d + 1) (s + 1) n

/-- `while(n-- > 0) *--d = *--s`. -/
def copyDown (mem : ByteMap) (d s : BitVec 64) : ℕ → ByteMap
  | 0 => mem
  | n + 1 => copyDown (update mem (d - 1) (mem (s - 1))) (d - 1) (s - 1) n

/-- `memmove` of the kernel. -/
def Kernel.memmove (mem : ByteMap) (dst src : BitVec 64) (n : BitVec 32) : ByteMap × BitVec 64 :=
  if n = 0 then (mem, dst)
  else if src < dst ∧ dst < src + n.setWidth 64 then
    (copyDown mem (dst + n.setWidth 64) (src + n.setWidth 64) n.toNat, dst)
  else (copyUp mem dst src n.toNat, dst)

/-- `memmove` of the user library, with a signed length. -/
def User.memmove (mem : ByteMap) (dst src : BitVec 64) (n : BitVec 32) : ByteMap × BitVec 64 :=
  if dst < src then (copyUp mem dst src n.toInt.toNat, dst)
  else (copyDown mem (dst + n.signExtend 64) (src + n.signExtend 64) n.toInt.toNat, dst)

end Xv6Cos
