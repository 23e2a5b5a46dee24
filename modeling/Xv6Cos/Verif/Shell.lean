import Xv6Cos.Verif.ShellParser

/-!
# The parser of the shell and its grammar

`parsecmd` returns a tree exactly for the lines that the grammar derives, and then the tree that the
derivation denotes; the words of the tree are the words of the line, each of them once.
-/

namespace Xv6Cos.Verif

open User Spec Program List Nat
open Kernel (O_WRONLY O_CREATE O_TRUNC)

variable {line : List UInt8} {ts : List ShellToken} {cmd : ShellCmd Span} {w : Span}
  {rs : List Redirection} {s : ℕ}

section Yield

@[simp] theorem wordsOf_append (ts us : List ShellToken) :
    wordsOf (ts ++ us) = wordsOf ts ++ wordsOf us := filterMap_append

theorem wordsOf_amp (k : ℕ) : wordsOf (List.replicate k .amp) = [] := by
  induction k with
  | zero => rfl
  | succ k ih => exact ih

theorem words_wrap (rs : List Redirection) (cmd : ShellCmd Span) :
    words (wrap rs cmd) = words cmd ++ rs.map Redirection.file := by
  induction rs generalizing cmd with
  | nil => exact (append_nil _).symm
  | cons r rs ih =>
    have inner := ih (.redir cmd r.file r.mode r.fd)
    rw [words, append_assoc] at inner
    exact inner

theorem words_background (k : ℕ) (cmd : ShellCmd Span) : words (background k cmd) = words cmd := by
  induction k generalizing cmd with
  | zero => rfl
  | succ k ih => exact ih _

theorem wordsOf_redirs (derived : Redirs ts rs) : wordsOf ts = rs.map Redirection.file := by
  induction derived with
  | nil => rfl
  | @cons t file r ts rs redirection derived ih =>
    have same : r.file = file := by
      cases t <;> simp only [ShellToken.redirection, Option.some.injEq,
        reduceCtorEq] at redirection <;>
        rw [← redirection]
    rw [map_cons, ← ih, same]
    cases t <;> first | rfl | contradiction

theorem count_words {ws : List Span} (derived : Words ts ws rs) :
    (wordsOf ts).count w = ws.count w + (rs.map Redirection.file).count w := by
  induction derived with
  | nil => rfl
  | @cons v ts us ws rs rs' redirs more ih =>
    have head : wordsOf (.word v :: ts ++ us) = v :: (wordsOf ts ++ wordsOf us) := by
      rw [← wordsOf_append]
      rfl
    rw [head, wordsOf_redirs redirs, map_append]
    simp only [count_cons, count_append, ih]
    omega

/-- The tree that a derivation denotes has the words of the line, each as often. -/
theorem words_of_derives {nt : Nonterminal} (derived : Derives nt ts cmd) :
    (words cmd).count w = (wordsOf ts).count w := by
  induction derived with
  | @block ts us cmd rs derived redirs ih =>
    have parts : wordsOf (.lpar :: ts ++ .rpar :: us) = wordsOf ts ++ wordsOf us :=
      wordsOf_append ts _
    rw [words_wrap, parts, wordsOf_redirs redirs, count_append, count_append, ih]
  | @simple ts us ws rs rs' redirs more =>
    rw [words_wrap, wordsOf_append, count_append, count_append, count_words more,
      wordsOf_redirs redirs, map_append, count_append, words]
    omega
  | last derived ih => exact ih
  | @pipe ts us left right derived derived' ih ih' =>
    have parts : wordsOf (ts ++ .bar :: us) = wordsOf ts ++ wordsOf us := wordsOf_append ts _
    rw [words, parts, count_append, count_append, ih, ih']
  | @command ts cmd k derived ih =>
    rw [words_background, wordsOf_append, wordsOf_amp, append_nil, ih]
  | @list ts us left right k derived derived' ih ih' =>
    have parts : wordsOf (ts ++ List.replicate k .amp ++ .semi :: us) =
        wordsOf ts ++ wordsOf us := by
      rw [wordsOf_append, wordsOf_append, wordsOf_amp, append_nil]
      rfl
    rw [words, words_background, parts, count_append, count_append, ih, ih']

end Yield

section Strings

/-- A word of the line, as long as it can be. -/
def IsWord (line : List UInt8) (w : Span) : Prop :=
  w.1 < w.2 ∧ w.2 ≤ line.length ∧ (∀ i, w.1 ≤ i → i < w.2 → inWord (byteAt line i) = true) ∧
    (w.2 < line.length → inWord (byteAt line w.2) = false)

theorem isWord_of_lexes (lexes : Lexes line s ts) (mem : w ∈ wordsOf ts) : IsWord line w := by
  induction lexes with
  | done => nomatch mem
  | space _ _ _ ih | gt _ _ _ _ ih | append _ _ _ _ ih => exact ih mem
  | @single s t ts _ byte _ ih =>
    refine ih ?_
    cases t <;> first | exact mem | contradiction
  | word less bound run ends _ ih =>
    rcases mem_cons.mp mem with rfl | later
    · exact ⟨less, bound, run, ends⟩
    · exact ih later

theorem byteAt_set (line : List UInt8) (i j : ℕ) :
    byteAt (line.set j 0) i = if i = j then 0 else byteAt line i := by
  simp only [byteAt, getD_eq_getElem?_getD, List.getElem?_set]
  by_cases same : i = j
  · subst same
    by_cases inside : i < line.length <;> simp [inside]
  · simp [same, Ne.symm same]

theorem ite_either {p q r : Prop} [Decidable p] [Decidable q] [Decidable r] {c : UInt8}
    (either : r ↔ p ∨ q) : (if p then 0 else if q then 0 else c) = if r then 0 else c := by
  by_cases first : p <;> by_cases second : q <;> simp [either, first, second]

/-- `nulterminate` writes a NUL behind each word, and nothing else. -/
theorem nulterminate_spec (cmd : ShellCmd Span) (line : List UInt8) :
    (nulterminate cmd line).length = line.length ∧ ∀ i, byteAt (nulterminate cmd line) i =
      if i ∈ (words cmd).map Prod.snd then 0 else byteAt line i := by
  induction cmd generalizing line with
  | exec argv =>
    induction argv generalizing line with
    | nil => exact ⟨rfl, fun i => rfl⟩
    | cons v argv ih =>
      obtain ⟨long, bytes⟩ := ih (line.set v.2 0)
      refine ⟨long.trans (length_set ..), fun i => (bytes i).trans ?_⟩
      rw [byteAt_set]
      refine ite_either ?_
      simp only [words, map_cons, mem_cons]
      exact or_comm
  | redir cmd file mode fd ih =>
    obtain ⟨long, bytes⟩ := ih line
    refine ⟨(length_set ..).trans long, fun i => ?_⟩
    rw [nulterminate, byteAt_set, bytes]
    refine ite_either ?_
    simp only [words, map_append, mem_append, map_singleton, mem_singleton]
    exact or_comm
  | pipe left right ih ih' | list left right ih ih' =>
    obtain ⟨long, bytes⟩ := ih line
    obtain ⟨long', bytes'⟩ := ih' (nulterminate left line)
    refine ⟨long'.trans long, fun i => (bytes' i).trans ?_⟩
    rw [bytes]
    refine ite_either ?_
    simp only [words, map_append, mem_append]
    exact or_comm
  | back cmd ih => exact ih line

theorem takeWhile_eq_take {p : UInt8 → Bool} {l : List UInt8} {n : ℕ} (bound : n ≤ l.length)
    (goes : ∀ i, i < n → p (byteAt l i) = true) (stops : n < l.length → p (byteAt l n) = false) :
    l.takeWhile p = l.take n := by
  induction n generalizing l with
  | zero =>
    cases l with
    | nil => rfl
    | cons c l =>
      have first : p c = false := stops (succ_pos _)
      rw [takeWhile_cons, first]
      rfl
  | succ n ih =>
    cases l with
    | nil => nomatch bound
    | cons c l =>
      have first : p c = true := goes 0 (succ_pos _)
      rw [takeWhile_cons, first, if_pos rfl, take_succ_cons,
        ih (le_of_succ_le_succ bound) (fun i less => goes (i + 1) (succ_lt_succ less))
          fun less => stops (succ_lt_succ less)]

theorem byteAt_drop (line : List UInt8) (s i : ℕ) :
    byteAt (line.drop s) i = byteAt line (s + i) := by
  simp only [byteAt, getD_eq_getElem?_getD, List.getElem?_drop]

/-- In the line that `nulterminate` leaves, the string at a word of the tree is that word. -/
theorem stringAt_nulterminate (nulFree : 0 ∉ line) (all : ∀ v ∈ words cmd, IsWord line v)
    (mem : w ∈ words cmd) :
    stringAt (nulterminate cmd line) w = (line.drop w.1).take (w.2 - w.1) := by
  obtain ⟨less, bound, run, -⟩ := all w mem
  obtain ⟨long, bytes⟩ := nulterminate_spec cmd line
  -- no word ends inside of another
  have kept : ∀ i, w.1 ≤ i → i < w.2 → byteAt (nulterminate cmd line) i = byteAt line i := by
    intro i low high
    rw [bytes, if_neg]
    intro ended
    obtain ⟨v, other, rfl⟩ := mem_map.mp ended
    have stops := (all v other).2.2.2 (by omega)
    rw [run v.2 low high] at stops
    contradiction
  have ended : byteAt (nulterminate cmd line) w.2 = 0 := by
    rw [bytes, if_pos (mem_map_of_mem mem)]
  have taken : stringAt (nulterminate cmd line) w =
      ((nulterminate cmd line).drop w.1).take (w.2 - w.1) := by
    refine takeWhile_eq_take ?_ (fun i inside => ?_) fun _ => ?_
    · rw [length_drop, long]
      omega
    · rw [byteAt_drop, kept _ (by omega) (by omega)]
      exact bne_iff_ne.mpr (byteAt_ne_zero nulFree (by omega))
    · rw [byteAt_drop, Nat.add_sub_cancel' less.le, ended]
      rfl
  rw [taken]
  refine ext_getElem ?_ fun i first second => ?_
  · simp only [length_take, length_drop, long]
  · simp only [length_take, length_drop, Nat.lt_min] at first second
    have same := kept (w.1 + i) (by omega) (by omega)
    rw [byteAt, byteAt, getD_eq_getElem _ _ (by omega), getD_eq_getElem _ _ (by omega)]
      at same
    rw [getElem_take, getElem_take, getElem_drop, getElem_drop]
    exact same

end Strings

/-- What `parseline` reads from the start of the line. -/
theorem parseline_start (nulFree : 0 ∉ line) (lexes : Lexes line 0 ts) :
    SafeOr Message (parseline line (4 * line.length + 4)) 0 (Accepted line .line ts) := by
  have few := length_of_lexes lexes
  exact (parts_sound nulFree _).line_ lexes (by omega)

/-- `parseline` reads the whole line, if that derives from the grammar. -/
theorem parseline_whole (nulFree : 0 ∉ line) (lexes : Lexes line 0 ts)
    (derived : Derives .line ts cmd) :
    Safe (parseline line (4 * line.length + 4)) 0 fun cmd' s' => cmd' = cmd ∧ Lexes line s' [] := by
  have few := length_of_lexes lexes
  rw [← append_nil ts] at lexes
  show Safe (parserOf line .line (4 * line.length + 4)) 0 _
  refine parse_complete nulFree derived lexes (.inl rfl) ?_
  simp only [boundOf, append_nil]
  omega

/-- `parsecmd` after `parseline` has read a part of the line. -/
theorem parsecmd_of_parseline {rest : List ShellToken}
    (read : parseline line (4 * line.length + 4) 0 = .ok (cmd, s)) (lexes : Lexes line s rest) :
    parsecmd line = if rest = [] then .ok (cmd, nulterminate cmd line) else .error
      (.panic "syntax") := by
  obtain ⟨-, starts⟩ := lexes_skip lexes
  rw [parsecmd]
  rw [bind_of_ok read, bind_of_ok
    (show peek line [] s = .ok (_, skip whitespace.contains line s) from rfl),
    bind_of_ok (show reads id (skip whitespace.contains line s) = .ok (_, _) from rfl)]
  cases rest with
  | nil =>
    have ended : skip whitespace.contains line s = line.length := starts
    simp only [id_eq, ended, ne_eq, not_true_eq_false, if_false, if_true]
    rfl
  | cons t rest =>
    have inside := (byteAt_start starts).1
    simp only [id_eq, ne_eq, inside.ne, not_false_eq_true, if_true, reduceCtorEq, if_false]
    rfl

section

variable (nulFree : 0 ∉ line) (lexes : Lexes line 0 ts)

include nulFree lexes

/-- `parsecmd` returns a tree exactly if the whole line derives it. -/
theorem parsecmd_ok_iff {line' : List UInt8} :
    parsecmd line = .ok (cmd, line') ↔ Derives .line ts cmd ∧ line' = nulterminate cmd line := by
  constructor
  · intro parsed
    cases read : parseline line (4 * line.length + 4) 0 with
    | error e =>
      have failed : parsecmd line = .error e := by
        rw [parsecmd]
        rw [bind_of_error read]
      rw [failed] at parsed
      contradiction
    | ok result =>
      obtain ⟨cmd', s⟩ := result
      obtain ⟨used, rest, rfl, derived, after⟩ := (parseline_start nulFree lexes).result read
      rw [parsecmd_of_parseline read after] at parsed
      by_cases ended : rest = []
      · rw [if_pos ended] at parsed
        cases parsed
        rw [ended, append_nil]
        exact ⟨derived, rfl⟩
      · rw [if_neg ended] at parsed
        contradiction
  · rintro ⟨derived, rfl⟩
    obtain ⟨cmd', s, read, rfl, after⟩ := parseline_whole nulFree lexes derived
    rw [parsecmd_of_parseline read after, if_pos rfl]

/-- The bound is large enough. -/
theorem parsecmd_ne_fuel :
    parsecmd line ≠ .error .fuel := by
  have sound := parseline_start nulFree lexes
  cases read : parseline line (4 * line.length + 4) 0 with
  | error e =>
    rw [parsecmd]
    rw [bind_of_error read]
    exact fun same => sound.error read (Except.error.inj same)
  | ok result =>
    obtain ⟨cmd', s⟩ := result
    obtain ⟨used, rest, -, -, after⟩ := sound.result read
    rw [parsecmd_of_parseline read after]
    split <;> nofun

/-- The words of a tree that `parsecmd` returns are those of the line, also as strings. -/
theorem words_of_parsecmd {line' : List UInt8}
    (parsed : parsecmd line = .ok (cmd, line')) : Derives .line ts cmd ∧
      (words cmd).Perm (wordsOf ts) ∧ ∀ w ∈ words cmd, IsWord line w ∧
        stringAt line' w = (line.drop w.1).take (w.2 - w.1) := by
  obtain ⟨derived, rfl⟩ := (parsecmd_ok_iff nulFree lexes).mp parsed
  have same : (words cmd).Perm (wordsOf ts) :=
    perm_iff_count.mpr fun w => words_of_derives derived
  have all : ∀ w ∈ words cmd, IsWord line w := fun w mem =>
    isWord_of_lexes lexes (same.mem_iff.mp mem)
  exact ⟨derived, same, fun w mem => ⟨all w mem, stringAt_nulterminate nulFree all mem⟩⟩

end

/-- For every line without NUL the parser ends; it returns a tree exactly if the tokens of the line
derive from the grammar, and then the tree of the derivation, whose words are those of the line. -/
theorem parsecmd_grammar (line : List UInt8) (nulFree : 0 ∉ line) :
    ∃ ts, Lexes line 0 ts ∧ (∀ ts', Lexes line 0 ts' → ts' = ts) ∧
      parsecmd line ≠ .error .fuel ∧
      (∀ cmd, (∃ line', parsecmd line = .ok (cmd, line')) ↔ Derives .line ts cmd) ∧
      ∀ cmd line', parsecmd line = .ok (cmd, line') →
        (words cmd).Perm (wordsOf ts) ∧
        ∀ w ∈ words cmd, stringAt line' w = (line.drop w.1).take (w.2 - w.1) := by
  obtain ⟨ts, lexes⟩ := exists_lexes line (zero_le line.length)
  refine ⟨ts, lexes, fun ts' other => lexes_unique nulFree other lexes,
    parsecmd_ne_fuel nulFree lexes, fun cmd => ?_, fun cmd line' parsed => ?_⟩
  · constructor
    · rintro ⟨line', parsed⟩
      exact (words_of_parsecmd nulFree lexes parsed).1
    · intro derived
      exact ⟨_, (parsecmd_ok_iff nulFree lexes).mpr ⟨derived, rfl⟩⟩
  · obtain ⟨-, same, texts⟩ := words_of_parsecmd nulFree lexes parsed
    exact ⟨same, fun w mem => (texts w mem).2⟩

/-- `(a;b)&;c|d>e` -/
def sampleLine : List UInt8 :=
  [ch '(', ch 'a', ch ';', ch 'b', ch ')', ch '&', ch ';', ch 'c', ch '|', ch 'd', ch '>', ch 'e']

/-- Its tree. -/
def sampleTree : ShellCmd Span :=
  .list (.back (.list (.exec [(1, 2)]) (.exec [(3, 4)])))
    (.pipe (.exec [(7, 8)]) (.redir (.exec [(9, 10)]) (11, 12)
    (O_WRONLY ||| O_CREATE ||| O_TRUNC) 1))

/-- A line with a block, a command in the background, a pipe and a redirection. -/
theorem parsecmd_grammar_sample : ∃ ts line', parsecmd sampleLine = .ok (sampleTree, line') ∧
    Lexes sampleLine 0 ts ∧ Derives .line ts sampleTree ∧
    (wordsOf ts).Perm [(1, 2), (3, 4), (7, 8), (9, 10), (11, 12)] ∧
    stringAt line' (9, 10) = [ch 'd'] := by
  obtain ⟨ts, lexes, -, -, accepts, strings⟩ := parsecmd_grammar sampleLine (by decide)
  have parsed : parsecmd sampleLine = .ok (sampleTree, nulterminate sampleTree sampleLine) := by
    decide +kernel
  obtain ⟨same, texts⟩ := strings _ _ parsed
  exact ⟨ts, _, parsed, lexes, (accepts sampleTree).mp ⟨_, parsed⟩, same.symm,
    texts (9, 10) (by decide)⟩

/-- In the line that `parsecmd` leaves, the string at each word of the tree is the text of that word
of the line. -/
theorem words_survive {line' : List UInt8} (nulFree : 0 ∉ line)
    (parsed : parsecmd line = .ok (cmd, line')) : ∃ ts, Lexes line 0 ts ∧ Derives .line ts cmd ∧
      (words cmd).Perm (wordsOf ts) ∧ ∀ w ∈ words cmd, IsWord line w ∧
        stringAt line' w = (line.drop w.1).take (w.2 - w.1) := by
  obtain ⟨ts, lexes⟩ := exists_lexes line (zero_le line.length)
  exact ⟨ts, lexes, words_of_parsecmd nulFree lexes parsed⟩

/-- The last word of the line, next to an operator. -/
theorem words_survive_sample : ∃ line', parsecmd sampleLine = .ok (sampleTree, line') ∧
    stringAt line' (11, 12) = [ch 'e'] := by
  have parsed : parsecmd sampleLine = .ok (sampleTree, nulterminate sampleTree sampleLine) := by
    decide +kernel
  obtain ⟨ts, -, -, -, texts⟩ := words_survive (by decide) parsed
  exact ⟨_, parsed, (texts (11, 12) (by decide)).2⟩

end Xv6Cos.Verif
