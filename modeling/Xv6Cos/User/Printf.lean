import Mathlib.Data.Nat.Notation

/-!
# Printing (`user/printf.c`)

The result is `none` where the C code would go outside of an array or past the last argument.
-/

namespace Xv6Cos.User

/-- The digits of all bases. -/
def digits : List Char := "0123456789ABCDEF".toList

/-- The loop of `printint` that fills `buf`, here with its last entry first. -/
def putDigits (base x : BitVec 32) (buf : List Char) : Option (List Char) :=
  match digits[(x % base).toNat]? with
  | none => none
  | some c =>
    if buf.length < 16 then
      if x / base = 0 then some (c :: buf) else putDigits base (x / base) (c :: buf)
    else none
termination_by 16 - buf.length

/-- `printint`, which puts the sign into the same buffer. -/
def printint (xx base : BitVec 32) (sgn : Bool) : Option (List Char) :=
  if sgn && xx.slt 0 then
    (putDigits base (-xx) []).bind fun buf => if buf.length < 16 then some ('-' :: buf) else none
  else putDigits base xx []

/-- The loop of `printptr`. -/
def putNibbles : ℕ → BitVec 64 → Option (List Char)
  | 0, _ => some []
  | n + 1, x => do
    let c ← digits[(x >>> 60).toNat]?
    let rest ← putNibbles n (x <<< 4)
    return c :: rest

/-- `printptr`. -/
def printptr (x : BitVec 64) : Option (List Char) :=
  (['0', 'x'] ++ ·) <$> putNibbles 16 x

/-- One conversion of `vprintf`; `string` gives the strings in memory. -/
def conversion (string : BitVec 64 → List Char) (c : Char) (ap : List (BitVec 64)) :
    Option (List Char × List (BitVec 64)) :=
  let arg (print : BitVec 64 → Option (List Char)) := do
    let out ← print (← ap.head?)
    return (out, ap.tail)
  match c with
  | 'd' => arg fun x => printint (x.setWidth 32) 10 true
  | 'l' => arg fun x => printint (x.setWidth 32) 10 false
  | 'x' => arg fun x => printint (x.setWidth 32) 16 false
  | 'p' => arg printptr
  | 's' => arg fun s => some (if s = 0 then "(null)".toList else string s)
  | 'c' => arg fun x => some [Char.ofNat (x.toNat % 256)]
  | '%' => some (['%'], ap)
  | c => some (['%', c], ap)

/-- `vprintf`; the first argument is its state. -/
def vprintf (string : BitVec 64 → List Char) :
    Bool → List Char → List (BitVec 64) → Option (List Char)
  | _, [], _ => some []
  | false, c :: fmt, ap =>
    if c = '%' then vprintf string true fmt ap else (c :: ·) <$> vprintf string false fmt ap
  | true, c :: fmt, ap => do
    let (out, ap) ← conversion string c ap
    (out ++ ·) <$> vprintf string false fmt ap

end Xv6Cos.User
