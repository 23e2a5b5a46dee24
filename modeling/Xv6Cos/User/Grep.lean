import Mathlib.Data.List.Basic

/-!
# Searching for a pattern (`user/grep.c`)

Strings are the bytes before their NUL.
-/

namespace Xv6Cos.User

mutual

/-- Does the text begin with the pattern? -/
def matchhere : List Char → List Char → Bool
  | [], _ => true
  | c :: '*' :: re, text => matchstar c re text
  | ['$'], text => text.isEmpty
  | c :: re, t :: text => (c == '.' || c == t) && matchhere re text
  | _ :: _, [] => false
termination_by re text => (re.length, 0, text.length)

/-- Does it begin with any number of `c` and then the pattern? -/
def matchstar (c : Char) (re : List Char) : List Char → Bool
  | [] => matchhere re []
  | t :: text => matchhere re (t :: text) || (t == c || c == '.') && matchstar c re text
termination_by text => (re.length, 1, text.length)

end

/-- The loop of `match`. -/
def matchAny (re : List Char) : List Char → Bool
  | [] => matchhere re []
  | t :: text => matchhere re (t :: text) || matchAny re text

/-- `match`. -/
def grepMatch : List Char → List Char → Bool
  | '^' :: re, text => matchhere re text
  | re, text => matchAny re text

end Xv6Cos.User
