import Xv6Cos.Spec.AddressSpace
import Xv6Cos.Spec.UserMemory

/-!
# What `exec` promises

The registers that a new program starts with, and where the arguments of `main` stand in its
memory.
-/

namespace Xv6Cos.Spec

open Kernel Program

/-- The trapframe with the registers that `exec` sets: `a1`, `epc` and `sp`. -/
def execFrame (page : Page) (image : ExecImage) : Page :=
  Bytes.writeLE (Bytes.writeLE (Bytes.writeLE page 120 image.sp 8) 24 image.entry 8) 48 image.sp 8

/-- The room that so many bytes take on the stack. -/
def pad16 (n : ℕ) : ℕ := (n + 15) / 16 * 16

/-- The room for argument strings, each with a NUL. -/
def stringSpace (argv : List (List UInt8)) : ℕ := (argv.map fun arg => pad16 (arg.length + 1)).sum

/-- The argument strings and the array of their addresses fit in a page. -/
def Fits (argv : List (List UInt8)) : Prop :=
  stringSpace argv + pad16 (8 * (argv.length + 1)) ≤ PGSIZE

/-- The word at an address. -/
def WordAt (m : UserMemory) (a word : ℕ) : Prop := word < 2 ^ 64 ∧ Reads m a (wordBytes [word])

/-- Where things stand on the stack, by address and size: the array, then the strings. -/
def stackBlocks (sp : ℕ) (argv : List (List UInt8)) (addrs : List ℕ) : List (ℕ × ℕ) :=
  (sp, 8 * (argv.length + 1)) :: addrs.zip (argv.map fun arg => arg.length + 1)

/-- The stack of a program about to start, in the last page of its memory. -/
structure ArgsPassed (m : UserMemory) (sz sp : ℕ) (argv : List (List UInt8)) (addrs : List ℕ) :
    Prop where
  aligned : sp % 16 = 0
  count : addrs.length = argv.length
  words : ∀ (i : ℕ) word, (addrs ++ [0])[i]? = some word → WordAt m (sp + 8 * i) word
  strings : ∀ (i : ℕ) arg addr, argv[i]? = some arg → addrs[i]? = some addr →
    Reads m addr (arg ++ [0])
  inside : ∀ block ∈ stackBlocks sp argv addrs, sz - PGSIZE ≤ block.1 ∧ block.1 + block.2 ≤ sz
  apart : (stackBlocks sp argv addrs).Pairwise fun a b => a.1 + a.2 ≤ b.1 ∨ b.1 + b.2 ≤ a.1
  user : ∀ a, sz - PGSIZE ≤ a → a < sz → UserCan m a

/-- A register in a trapframe, by its offset. -/
def frameReg (s : Sys) (tf offset : ℕ) : ℕ := Bytes.readLE (s.vm.mem tf) offset 8

end Xv6Cos.Spec
