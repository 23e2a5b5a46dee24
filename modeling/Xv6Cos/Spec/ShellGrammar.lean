import Xv6Cos.User.Shell

/-!
# The language of the shell

The tokens of a line, and the grammar of commands over them. A derivation also says which tree it
denotes.
-/

namespace Xv6Cos.Spec

open User
open Kernel (O_WRONLY O_CREATE O_TRUNC)

/-- A token; a word with its place in the line. -/
inductive ShellToken
  | word (span : Span)
  | lt
  | gt
  | append
  | bar
  | amp
  | semi
  | lpar
  | rpar
  deriving DecidableEq

/-- The byte of a token of one byte that starts no other token. -/
def ShellToken.byte : ShellToken → Option UInt8
  | .lt => some (ch '<')
  | .bar => some (ch '|')
  | .amp => some (ch '&')
  | .semi => some (ch ';')
  | .lpar => some (ch '(')
  | .rpar => some (ch ')')
  | _ => none

/-- From here on the line has these tokens. -/
inductive Lexes (line : List UInt8) : ℕ → List ShellToken → Prop
  | done : Lexes line line.length []
  | space {s : ℕ} {ts : List ShellToken} : s < line.length → byteAt line s ∈ whitespace →
      Lexes line (s + 1) ts → Lexes line s ts
  | single {s : ℕ} {t : ShellToken} {ts : List ShellToken} : s < line.length →
      t.byte = some (byteAt line s) → Lexes line (s + 1) ts → Lexes line s (t :: ts)
  | gt {s : ℕ} {ts : List ShellToken} : s < line.length → byteAt line s = ch '>' →
      byteAt line (s + 1) ≠ ch '>' → Lexes line (s + 1) ts → Lexes line s (.gt :: ts)
  | append {s : ℕ} {ts : List ShellToken} : s < line.length → byteAt line s = ch '>' →
      byteAt line (s + 1) = ch '>' → Lexes line (s + 2) ts → Lexes line s (.append :: ts)
  /-- As many bytes as possible. -/
  | word {s e : ℕ} {ts : List ShellToken} : s < e → e ≤ line.length →
      (∀ i, s ≤ i → i < e → inWord (byteAt line i) = true) →
      (e < line.length → inWord (byteAt line e) = false) → Lexes line e ts →
      Lexes line s (.word (s, e) :: ts)

/-- A redirection. -/
structure Redirection where
  file : Span
  mode : BitVec 32
  fd : ℕ

/-- The redirection of a token and a file. -/
def ShellToken.redirection : ShellToken → Span → Option Redirection
  | .lt, file => some ⟨file, O_RDONLY, 0⟩
  | .gt, file => some ⟨file, O_WRONLY ||| O_CREATE ||| O_TRUNC, 1⟩
  | .append, file => some ⟨file, O_WRONLY ||| O_CREATE, 1⟩
  | _, _ => none

/-- redir*. -/
inductive Redirs : List ShellToken → List Redirection → Prop
  | nil : Redirs [] []
  | cons {t : ShellToken} {file : Span} {r : Redirection} {ts : List ShellToken}
      {rs : List Redirection} : t.redirection file = some r → Redirs ts rs →
      Redirs (t :: .word file :: ts) (r :: rs)

/-- (word redir*)*. -/
inductive Words : List ShellToken → List Span → List Redirection → Prop
  | nil : Words [] [] []
  | cons {w : Span} {ts us : List ShellToken} {ws : List Span} {rs rs' : List Redirection} :
      Redirs ts rs → Words us ws rs' → Words (.word w :: ts ++ us) (w :: ws) (rs ++ rs')

/-- The command inside its redirections, the first of them innermost. -/
def wrap (rs : List Redirection) (cmd : ShellCmd Span) : ShellCmd Span :=
  rs.foldl (fun cmd r => .redir cmd r.file r.mode r.fd) cmd

/-- The command behind so many `&`. -/
def background : ℕ → ShellCmd Span → ShellCmd Span
  | 0, cmd => cmd
  | k + 1, cmd => background k (.back cmd)

/-- The nonterminals of the grammar. -/
inductive Nonterminal
  | line
  | pipe
  | exec

/-- The tokens derive from the nonterminal, and the derivation denotes the tree. -/
inductive Derives : Nonterminal → List ShellToken → ShellCmd Span → Prop
  | block {ts us : List ShellToken} {cmd : ShellCmd Span} {rs : List Redirection} :
      Derives .line ts cmd → Redirs us rs →
      Derives .exec (.lpar :: ts ++ .rpar :: us) (wrap rs cmd)
  | simple {ts us : List ShellToken} {ws : List Span} {rs rs' : List Redirection} :
      Redirs ts rs → Words us ws rs' → ws.length ≤ MAXARGS - 1 →
      Derives .exec (ts ++ us) (wrap (rs ++ rs') (.exec ws))
  | last {ts : List ShellToken} {cmd : ShellCmd Span} : Derives .exec ts cmd → Derives .pipe ts cmd
  | pipe {ts us : List ShellToken} {left right : ShellCmd Span} :
      Derives .exec ts left → Derives .pipe us right →
      Derives .pipe (ts ++ .bar :: us) (.pipe left right)
  | command {ts : List ShellToken} {cmd : ShellCmd Span} {k : ℕ} : Derives .pipe ts cmd →
      Derives .line (ts ++ List.replicate k .amp) (background k cmd)
  | list {ts us : List ShellToken} {left right : ShellCmd Span} {k : ℕ} :
      Derives .pipe ts left → Derives .line us right →
      Derives .line (ts ++ List.replicate k .amp ++ .semi :: us) (.list (background k left) right)

/-- The words of a tree. -/
def words : ShellCmd Span → List Span
  | .exec argv => argv
  | .redir cmd file _ _ => words cmd ++ [file]
  | .pipe left right => words left ++ words right
  | .list left right => words left ++ words right
  | .back cmd => words cmd

/-- The words among the tokens. -/
def wordsOf (ts : List ShellToken) : List Span :=
  ts.filterMap fun
    | .word span => some span
    | _ => none

end Xv6Cos.Spec
