import Xv6Cos.Kernel.DirFile

/-!
# The parser of the shell (`user/sh.c`)

The parser moves a cursor over the line, which is followed by a NUL. Words are kept as the pointers
to their start and end; when the whole line has been parsed, `nulterminate` writes a NUL behind each
of them. The loops and the recursion get a bound from the length of the line.
-/

namespace Xv6Cos.User

open Program
open Kernel (O_WRONLY O_CREATE O_TRUNC)

/-- Words of a command. -/
abbrev MAXARGS : ℕ := 10

/-- `open` for reading. -/
abbrev O_RDONLY : BitVec 32 := 0x000

/-- A parsed command, with its words as `W`. -/
inductive ShellCmd (W : Type)
  | exec (argv : List W)
  | redir (cmd : ShellCmd W) (file : W) (mode : BitVec 32) (fd : ℕ)
  | pipe (left right : ShellCmd W)
  | list (left right : ShellCmd W)
  | back (cmd : ShellCmd W)
  deriving DecidableEq

/-- Start and end of a word in the line. -/
abbrev Span := ℕ × ℕ

/-- The parser exits with a message, or its bound was too small. -/
inductive ShellError
  | panic (message : String)
  | fuel
  deriving DecidableEq

/-- A part of the parser: it moves the cursor. -/
abbrev ShellParser (α : Type) := Prog ℕ ShellError α

/-- The byte of a character. -/
abbrev ch (c : Char) : UInt8 := c.toUInt8

/-- `whitespace`. -/
def whitespace : List UInt8 := [ch ' ', ch '\t', ch '\r', ch '\n', 0x0b]

/-- `symbols`, which end a word. -/
def symbols : List UInt8 := [ch '<', ch '|', ch '>', ch '&', ch ';', ch '(', ch ')']

/-- A byte of a word: `!strchr(whitespace, *s) && !strchr(symbols, *s)`. -/
def inWord (c : UInt8) : Bool := !whitespace.contains c && !symbols.contains c

/-- `while(s < es && p(*s)) s++`, where `rest` is what is left of the line. -/
def scan (p : UInt8 → Bool) : List UInt8 → ℕ → ℕ
  | [], s => s
  | c :: rest, s => if p c then scan p rest (s + 1) else s

/-- The loop from a place in the line. -/
def skip (p : UInt8 → Bool) (line : List UInt8) (s : ℕ) : ℕ := scan p (line.drop s) s

/-- `*s`, where the line ends with a NUL. -/
def byteAt (line : List UInt8) (s : ℕ) : UInt8 := line.getD s 0

/-- `gettoken`: the kind of the token, with its start and end. -/
def gettoken (line : List UInt8) : ShellParser (UInt8 × Span) := fun s =>
  let q := skip whitespace.contains line s
  let c := byteAt line q
  let (ret, eq) :=
    if c = 0 then (c, q)
    else if [ch '|', ch '(', ch ')', ch ';', ch '&', ch '<'].contains c then (c, q + 1)
    else if c = ch '>' then
      if byteAt line (q + 1) = ch '>' then (ch '+', q + 2) else (c, q + 1)
    else (ch 'a', skip inWord line q)
  .ok ((ret, (q, eq)), skip whitespace.contains line eq)

/-- Is the next character behind white space one of these? -/
def peek (line : List UInt8) (toks : List UInt8) : ShellParser Bool := fun s =>
  let s := skip whitespace.contains line s
  .ok (byteAt line s != 0 && toks.contains (byteAt line s), s)

/-- The redirection for a token. -/
def redircmd {W : Type} (tok : UInt8) (cmd : ShellCmd W) (file : W) : ShellCmd W :=
  if tok = ch '<' then .redir cmd file O_RDONLY 0
  else if tok = ch '>' then .redir cmd file (O_WRONLY ||| O_CREATE ||| O_TRUNC) 1
  else if tok = ch '+' then .redir cmd file (O_WRONLY ||| O_CREATE) 1
  else cmd

/-- `parseredirs` wraps the command into the redirections that follow. -/
def parseredirs (line : List UInt8) : ℕ → ShellCmd Span → ShellParser (ShellCmd Span)
  | 0, _ => fail .fuel
  | fuel + 1, cmd => do
    if ← peek line [ch '<', ch '>'] then
      let (tok, _) ← gettoken line
      let (kind, file) ← gettoken line
      if kind ≠ ch 'a' then fail (.panic "missing file for redirection")
      else parseredirs line fuel (redircmd tok cmd file)
    else pure cmd

/-- `cmd->argv[argc] = q`, where `cmd` is the command inside the redirections of `ret`. -/
def ShellCmd.addArg {W : Type} : ShellCmd W → W → ShellCmd W
  | .exec argv, w => .exec (argv ++ [w])
  | .redir cmd file mode fd, w => .redir (cmd.addArg w) file mode fd
  | cmd, _ => cmd

/-- The loop of `parseexec`. -/
def parseargs (line : List UInt8) : ℕ → ℕ → ShellCmd Span → ShellParser (ShellCmd Span)
  | 0, _, _ => fail .fuel
  | fuel + 1, argc, ret => do
    if ← peek line [ch '|', ch ')', ch '&', ch ';'] then pure ret
    else
      let (tok, word) ← gettoken line
      if tok = 0 then pure ret
      else if tok ≠ ch 'a' then fail (.panic "syntax")
      else if MAXARGS ≤ argc + 1 then fail (.panic "too many args")
      else
        let ret ← parseredirs line fuel (ret.addArg word)
        parseargs line fuel (argc + 1) ret

/-- The loop of `parseline`. -/
def parseback (line : List UInt8) : ℕ → ShellCmd Span → ShellParser (ShellCmd Span)
  | 0, _ => fail .fuel
  | fuel + 1, cmd => do
    if ← peek line [ch '&'] then
      let _ ← gettoken line
      parseback line fuel (.back cmd)
    else pure cmd

mutual

/-- A line: pipes, in the background or one after the other. -/
def parseline (line : List UInt8) : ℕ → ShellParser (ShellCmd Span)
  | 0 => fail .fuel
  | fuel + 1 => do
    let cmd ← parsepipe line fuel
    let cmd ← parseback line fuel cmd
    if ← peek line [ch ';'] then
      let _ ← gettoken line
      let right ← parseline line fuel
      pure (.list cmd right)
    else pure cmd

/-- A pipe of simple commands and blocks. -/
def parsepipe (line : List UInt8) : ℕ → ShellParser (ShellCmd Span)
  | 0 => fail .fuel
  | fuel + 1 => do
    let cmd ← parseexec line fuel
    if ← peek line [ch '|'] then
      let _ ← gettoken line
      let right ← parsepipe line fuel
      pure (.pipe cmd right)
    else pure cmd

/-- A simple command, or a block. -/
def parseexec (line : List UInt8) : ℕ → ShellParser (ShellCmd Span)
  | 0 => fail .fuel
  | fuel + 1 => do
    if ← peek line [ch '('] then parseblock line fuel
    else
      let ret ← parseredirs line fuel (.exec [])
      parseargs line fuel 0 ret

/-- A line in parentheses. -/
def parseblock (line : List UInt8) : ℕ → ShellParser (ShellCmd Span)
  | 0 => fail .fuel
  | fuel + 1 => do
    if ← peek line [ch '('] then
      let _ ← gettoken line
      let cmd ← parseline line fuel
      if ← peek line [ch ')'] then
        let _ ← gettoken line
        parseredirs line fuel cmd
      else fail (.panic "syntax - missing )")
    else fail (.panic "parseblock")

end

/-- `nulterminate` ends the words in the buffer. -/
def nulterminate : ShellCmd Span → List UInt8 → List UInt8
  | .exec argv, line => argv.foldl (fun line word => line.set word.2 0) line
  | .redir cmd file _ _, line => (nulterminate cmd line).set file.2 0
  | .pipe left right, line => nulterminate right (nulterminate left line)
  | .list left right, line => nulterminate right (nulterminate left line)
  | .back cmd, line => nulterminate cmd line

/-- `parsecmd`: the tree, and the line that its words are in. -/
def parsecmd (line : List UInt8) : Except ShellError (ShellCmd Span × List UInt8) :=
  let parse : ShellParser (ShellCmd Span) := do
    let cmd ← parseline line (4 * line.length + 4)
    let _ ← peek line []
    let s ← reads id
    if s ≠ line.length then fail (.panic "syntax")
    else pure cmd
  match parse 0 with
  | .ok (cmd, _) => .ok (cmd, nulterminate cmd line)
  | .error e => .error e

/-- The string at a word of the tree. -/
def stringAt (line : List UInt8) (word : Span) : List UInt8 :=
  (line.drop word.1).takeWhile (· != 0)

end Xv6Cos.User
