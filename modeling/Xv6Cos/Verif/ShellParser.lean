import Xv6Cos.Verif.ShellLexer

/-!
# The parser reads what the grammar derives

What a part of the parser accepts is derived by its nonterminal, and it accepts every derivation
that is followed by a token that may follow it. The bounds of the loops are never reached: each
round takes a token.
-/

namespace Xv6Cos.Verif

open User Spec Program List Option Safe SafeOr

variable {line : List UInt8} {s fuel : ℕ} {ts used rest : List ShellToken} {cmd : ShellCmd Span}
  {nt : Nonterminal} {k : ℕ} {t : ShellToken}

/-- The parser may exit with a message. -/
abbrev Message (e : ShellError) : Prop := e ≠ .fuel

/-- What ends a simple command. -/
abbrev closers : List UInt8 := [ch '|', ch ')', ch '&', ch ';']

/-- The symbols that may follow what a nonterminal derives. -/
def followers : Nonterminal → List UInt8
  | .line => [ch ')']
  | .pipe => [ch ')', ch '&', ch ';']
  | .exec => closers

/-- The end of the line or such a symbol. -/
def MayFollow (nt : Nonterminal) (rest : List ShellToken) : Prop :=
  rest = [] ∨ sees (followers nt) rest = true

/-- A token that may follow is none of the symbols that go on. -/
theorem MayFollow.not_sees {toks : List UInt8} (follows : MayFollow nt rest)
    (disjoint : toks.any (followers nt).contains = false) : sees toks rest = false := by
  rcases follows with rfl | seen
  · rfl
  · cases rest with
    | nil => rfl
    | cons t rest =>
      simp only [sees, List.head?_cons, any_some] at seen ⊢
      cases first : lead t with
      | none => rfl
      | some c =>
        rw [first, any_some, contains_iff_mem] at seen
        rw [any_some, ← Bool.not_eq_true, contains_iff_mem]
        exact fun mem => List.any_eq_false.mp disjoint c mem (contains_iff_mem.mpr seen)

/-- What may follow an outer nonterminal may follow an inner one. -/
theorem MayFollow.mono {nt' : Nonterminal} (follows : MayFollow nt rest)
    (sub : followers nt ⊆ followers nt') : MayFollow nt' rest := by
  rcases follows with rfl | seen
  · exact .inl rfl
  · right
    cases rest with
    | nil => contradiction
    | cons t rest =>
      simp only [sees, List.head?_cons, any_some] at seen ⊢
      cases first : lead t with
      | none =>
        rw [first] at seen
        contradiction
      | some c =>
        rw [first, any_some, contains_iff_mem] at seen
        rw [any_some, contains_iff_mem]
        exact sub seen

theorem follows_amp (follows : MayFollow .pipe rest) :
    MayFollow .pipe (List.replicate k .amp ++ rest) := by
  cases k with
  | zero => exact follows
  | succ k => exact .inr rfl

theorem code_word {w : Span} : code (.word w) = ch 'a' := rfl

section Redirections

theorem sees_redirection :
    sees [ch '<', ch '>'] (t :: ts) = true ↔ ∀ file, ∃ r, t.redirection file = some r := by
  cases t <;> simp [sees, lead, ShellToken.byte, ShellToken.redirection] <;> decide

theorem redircmd_of_redirection {file : Span} {r : Redirection}
    (redirects : t.redirection file = some r) (cmd : ShellCmd Span) :
    redircmd (code t) cmd file = wrap [r] cmd := by
  cases t <;> simp only [ShellToken.redirection, Option.some.injEq, reduceCtorEq] at redirects <;>
    subst redirects <;> rfl

/-- What `parseredirs` reads is a sequence of redirections. -/
theorem parseredirs_sound (nulFree : 0 ∉ line) (lexes : Lexes line s ts)
    (enough : ts.length < fuel) :
    SafeOr Message (parseredirs line fuel cmd) s fun cmd' s' => ∃ used rest rs, ts = used ++ rest ∧
      Redirs used rs ∧ cmd' = wrap rs cmd ∧ Lexes line s' rest := by
  induction fuel generalizing s ts cmd with
  | zero => omega
  | succ fuel ih =>
    rw [parseredirs]
    obtain ⟨s₁, peeked, lexes₁⟩ := peek_spec nulFree [ch '<', ch '>'] (by decide) lexes
    refine SafeOr.bind_ok peeked ?_
    by_cases redirects : sees [ch '<', ch '>'] ts = true
    · rw [if_pos redirects]
      cases ts with
      | nil => contradiction
      | cons t ts =>
        obtain ⟨span, s₂, took, lexes₂, -⟩ := gettoken_cons nulFree lexes₁
        refine SafeOr.bind_ok took ?_
        cases ts with
        | nil =>
          obtain ⟨span', s₃, took', -⟩ := gettoken_nil lexes₂
          refine SafeOr.bind_ok took' ?_
          exact fail nofun
        | cons t' ts =>
          obtain ⟨span', s₃, took', lexes₃, isWord⟩ := gettoken_cons nulFree lexes₂
          refine SafeOr.bind_ok took' ?_
          dsimp only
          by_cases file : code t' = ch 'a'
          · obtain ⟨w, rfl⟩ := code_eq_word.mp file
            obtain rfl := isWord w rfl
            obtain ⟨r, redirection⟩ := sees_redirection.mp redirects span'
            rw [if_neg (not_not.mpr file), redircmd_of_redirection redirection]
            simp only [length_cons] at enough
            refine (ih lexes₃ (by omega)).mono ?_
            rintro cmd' s' ⟨used, rest, rs, rfl, derived, rfl, after⟩
            exact ⟨_, rest, r :: rs, rfl, .cons redirection derived, rfl, after⟩
          · rw [if_pos file]
            exact fail nofun
    · rw [if_neg redirects]
      exact SafeOr.pure ⟨[], ts, [], rfl, .nil, rfl, lexes₁⟩

/-- `parseredirs` reads every sequence of redirections that no other follows. -/
theorem parseredirs_complete (nulFree : 0 ∉ line) {rs : List Redirection} (derived : Redirs used rs)
    (lexes : Lexes line s (used ++ rest)) (stops : sees [ch '<', ch '>'] rest = false)
    (enough : (used ++ rest).length < fuel) :
    Safe (parseredirs line fuel cmd) s fun cmd' s' => cmd' = wrap rs cmd ∧ Lexes line s' rest := by
  induction derived generalizing s fuel cmd with
  | nil =>
    obtain _ | fuel := fuel
    · omega
    rw [parseredirs]
    obtain ⟨s₁, peeked, lexes₁⟩ := peek_spec nulFree [ch '<', ch '>'] (by decide) lexes
    refine bind_ok peeked ?_
    rw [nil_append, if_neg (by rw [stops]; decide)]
    exact pure ⟨rfl, lexes₁⟩
  | @cons t file r ts rs redirection derived ih =>
    obtain _ | fuel := fuel
    · omega
    rw [parseredirs]
    obtain ⟨s₁, peeked, lexes₁⟩ := peek_spec nulFree [ch '<', ch '>'] (by decide) lexes
    refine bind_ok peeked ?_
    have redirects : sees [ch '<', ch '>'] (t :: .word file :: ts ++ rest) = true := by
      refine sees_redirection.mpr fun other => ?_
      cases t <;> first | contradiction | exact ⟨_, rfl⟩
    rw [if_pos redirects]
    obtain ⟨span, s₂, took, lexes₂, -⟩ := gettoken_cons nulFree lexes₁
    obtain ⟨span', s₃, took', lexes₃, isWord⟩ := gettoken_cons nulFree lexes₂
    obtain rfl := isWord file rfl
    refine bind_ok took (bind_ok took' ?_)
    simp only [cons_append, length_cons] at enough
    dsimp only
    rw [if_neg (not_not.mpr code_word), redircmd_of_redirection redirection]
    exact ih lexes₃ (by omega)

end Redirections

section Words

variable {rs : List Redirection} {ws : List Span} {argc : ℕ}

theorem addArg_wrap (rs : List Redirection) (cmd : ShellCmd Span) (w : Span) :
    (wrap rs cmd).addArg w = wrap rs (cmd.addArg w) := by
  induction rs generalizing cmd with
  | nil => rfl
  | cons r rs ih => exact ih _

theorem wrap_append (rs rs' : List Redirection) (cmd : ShellCmd Span) :
    wrap (rs ++ rs') cmd = wrap rs' (wrap rs cmd) := foldl_append

/-- What the loop of `parseexec` reads is a sequence of words and redirections. -/
theorem parseargs_sound (nulFree : 0 ∉ line) (rs : List Redirection) (ws : List Span)
    (lexes : Lexes line s ts) (enough : ts.length < fuel) (few : ws.length ≤ MAXARGS - 1) :
    SafeOr Message (parseargs line fuel ws.length (wrap rs (.exec ws))) s fun cmd' s' =>
      ∃ used rest ws' rs', ts = used ++ rest ∧ Words used ws' rs' ∧
        (ws ++ ws').length ≤ MAXARGS - 1 ∧ cmd' = wrap (rs ++ rs') (.exec (ws ++ ws')) ∧
        Lexes line s' rest := by
  induction fuel generalizing s ts ws rs with
  | zero => omega
  | succ fuel ih =>
    rw [parseargs]
    obtain ⟨s₁, peeked, lexes₁⟩ := peek_spec nulFree closers (by decide) lexes
    refine SafeOr.bind_ok peeked ?_
    by_cases ends : sees closers ts = true
    · rw [if_pos ends]
      exact SafeOr.pure ⟨[], ts, [], [], rfl, .nil, by simpa using few, by simp, lexes₁⟩
    rw [if_neg ends]
    cases ts with
    | nil =>
      obtain ⟨span, s₂, took, lexes₂⟩ := gettoken_nil lexes₁
      refine SafeOr.bind_ok took ?_
      exact SafeOr.pure ⟨[], [], [], [], rfl, .nil, by simpa using few, by simp, lexes₂⟩
    | cons t ts =>
      obtain ⟨span, s₂, took, lexes₂, isWord⟩ := gettoken_cons nulFree lexes₁
      refine SafeOr.bind_ok took ?_
      dsimp only
      rw [if_neg code_ne_zero]
      by_cases word : code t = ch 'a'
      · obtain ⟨w, rfl⟩ := code_eq_word.mp word
        obtain rfl := isWord w rfl
        rw [if_neg (not_not.mpr word)]
        by_cases many : MAXARGS ≤ ws.length + 1
        · rw [if_pos many]
          exact fail nofun
        rw [if_neg many, addArg_wrap]
        simp only [length_cons] at enough
        refine (parseredirs_sound nulFree lexes₂ (by omega)).bind ?_
        rintro cmd' s₃ ⟨used, rest, rs₁, rfl, derived, rfl, lexes₃⟩
        rw [length_append] at enough
        have next := ih (rs ++ rs₁) (ws ++ [span]) lexes₃ (by omega)
          (by rw [length_append]; exact Nat.le_of_lt_succ (not_le.mp many))
        rw [length_append, wrap_append] at next
        refine next.mono ?_
        rintro cmd' s' ⟨used', rest', ws', rs', rfl, more, fine, rfl, after⟩
        refine ⟨_, rest', span :: ws', rs₁ ++ rs', ?_, .cons derived more, ?_, ?_, after⟩
        · simp
        · simpa using fine
        · simp
      · rw [if_pos word]
        exact fail nofun

/-- Words, too, are followed by no redirection of the command before. -/
theorem words_no_redirection (derived : Words used ws rs) (closed : MayFollow .exec rest) :
    sees [ch '<', ch '>'] (used ++ rest) = false := by
  cases derived with
  | nil => exact closed.not_sees (by decide)
  | cons => rfl

/-- The loop of `parseexec` reads every sequence of words and redirections. -/
theorem parseargs_complete (nulFree : 0 ∉ line) (rs : List Redirection) (ws : List Span)
    {ws' : List Span} {rs' : List Redirection} (derived : Words used ws' rs')
    (lexes : Lexes line s (used ++ rest)) (closed : MayFollow .exec rest)
    (enough : (used ++ rest).length < fuel) (few : (ws ++ ws').length ≤ MAXARGS - 1) :
    Safe (parseargs line fuel ws.length (wrap rs (.exec ws))) s fun cmd' s' =>
      cmd' = wrap (rs ++ rs') (.exec (ws ++ ws')) ∧ Lexes line s' rest := by
  induction derived generalizing s fuel ws rs with
  | nil =>
    obtain _ | fuel := fuel
    · omega
    rw [parseargs]
    obtain ⟨s₁, peeked, lexes₁⟩ := peek_spec nulFree closers (by decide) lexes
    refine bind_ok peeked ?_
    rw [nil_append] at lexes₁ ⊢
    rcases closed with rfl | ends
    · obtain ⟨span, s₂, took, lexes₂⟩ := gettoken_nil lexes₁
      refine bind_ok took ?_
      exact pure ⟨by simp, lexes₂⟩
    · rw [if_pos (show sees closers rest = true from ends)]
      exact pure ⟨by simp, lexes₁⟩
  | @cons w ts us ws' rs₁ rs' redirs more ih =>
    obtain _ | fuel := fuel
    · omega
    rw [parseargs]
    obtain ⟨s₁, peeked, lexes₁⟩ := peek_spec nulFree closers (by decide) lexes
    refine bind_ok peeked ?_
    rw [cons_append, cons_append, append_assoc] at lexes₁ enough
    obtain ⟨span, s₂, took, lexes₂, isWord⟩ := gettoken_cons nulFree lexes₁
    obtain rfl := isWord w rfl
    refine bind_ok took ?_
    dsimp only
    have room : ¬MAXARGS ≤ ws.length + 1 := by
      simp only [length_append, length_cons, MAXARGS] at few ⊢
      omega
    rw [if_neg code_ne_zero, if_neg (not_not.mpr code_word), if_neg room, addArg_wrap]
    rw [length_cons] at enough
    refine (parseredirs_complete nulFree redirs lexes₂ (words_no_redirection more closed)
      (by omega)).bind ?_
    rintro cmd' s₃ ⟨rfl, lexes₃⟩
    rw [length_append] at enough
    have shorter : (us ++ rest).length < fuel := by omega
    have next := ih (rs ++ rs₁) (ws ++ [span]) lexes₃ shorter (by rwa [append_assoc])
    rw [length_append, wrap_append rs rs₁] at next
    simp only [append_assoc, singleton_append] at next
    exact next

end Words

section Background

/-- The symbol that `peek` has seen is the next token. -/
theorem gettoken_seen (nulFree : 0 ∉ line) (lexes : Lexes line s ts) {t : ShellToken} {c : UInt8}
    (byte : t.byte = some c) (more : sees [c] ts = true) : ∃ rest span s', ts = t :: rest ∧
      gettoken line s = .ok ((code t, span), s') ∧ Lexes line s' rest := by
  cases ts with
  | nil => contradiction
  | cons u rest =>
    obtain rfl : u = t := by
      cases t <;> cases byte <;> cases u <;> first | rfl | contradiction
    obtain ⟨span, s', took, after, -⟩ := gettoken_cons nulFree lexes
    exact ⟨rest, span, s', rfl, took, after⟩

/-- What the loop of `parseline` reads is a sequence of `&`. -/
theorem parseback_sound (nulFree : 0 ∉ line) (lexes : Lexes line s ts) (enough : ts.length < fuel) :
    SafeOr Message (parseback line fuel cmd) s fun cmd' s' => ∃ k rest,
      ts = List.replicate k .amp ++ rest ∧ cmd' = background k cmd ∧ Lexes line s' rest := by
  induction fuel generalizing s ts cmd with
  | zero => omega
  | succ fuel ih =>
    rw [parseback]
    obtain ⟨s₁, peeked, lexes₁⟩ := peek_spec nulFree [ch '&'] (by decide) lexes
    refine SafeOr.bind_ok peeked ?_
    by_cases more : sees [ch '&'] ts = true
    · rw [if_pos more]
      obtain ⟨ts, span, s₂, rfl, took, lexes₂⟩ :=
        gettoken_seen nulFree lexes₁ (t := .amp) rfl more
      refine SafeOr.bind_ok took ?_
      rw [length_cons] at enough
      refine (ih lexes₂ (by omega)).mono ?_
      rintro cmd' s' ⟨k, rest, rfl, rfl, after⟩
      exact ⟨k + 1, rest, rfl, rfl, after⟩
    · rw [if_neg more]
      exact SafeOr.pure ⟨0, ts, rfl, rfl, lexes₁⟩

/-- The loop of `parseline` reads every `&`. -/
theorem parseback_complete (nulFree : 0 ∉ line)
    (lexes : Lexes line s (List.replicate k .amp ++ rest)) (stops : sees [ch '&'] rest = false)
    (enough : (List.replicate k ShellToken.amp ++ rest).length < fuel) :
    Safe (parseback line fuel cmd) s fun cmd' s' => cmd' = background k cmd ∧
      Lexes line s' rest := by
  induction k generalizing s fuel cmd with
  | zero =>
    obtain _ | fuel := fuel
    · omega
    rw [parseback]
    obtain ⟨s₁, peeked, lexes₁⟩ := peek_spec nulFree [ch '&'] (by decide) lexes
    refine bind_ok peeked ?_
    rw [replicate_zero, nil_append, stops]
    exact pure ⟨rfl, lexes₁⟩
  | succ k ih =>
    obtain _ | fuel := fuel
    · omega
    rw [parseback]
    obtain ⟨s₁, peeked, lexes₁⟩ := peek_spec nulFree [ch '&'] (by decide) lexes
    refine bind_ok peeked ?_
    rw [replicate_succ, cons_append] at lexes₁ enough
    obtain ⟨span, s₂, took, lexes₂, -⟩ := gettoken_cons nulFree lexes₁
    refine bind_ok took ?_
    rw [length_cons] at enough
    exact ih lexes₂ (by omega)

end Background

section Soundness

/-- A part of the tokens has been read, and derives from the nonterminal. -/
def Accepted (line : List UInt8) (nt : Nonterminal) (ts : List ShellToken) (cmd : ShellCmd Span)
    (s : ℕ) : Prop :=
  ∃ used rest, ts = used ++ rest ∧ Derives nt used cmd ∧ Lexes line s rest

/-- What each part of the parser does with this bound, if that is large enough. -/
structure PartsSound (line : List UInt8) (fuel : ℕ) : Prop where
  line_ : ∀ {s ts}, Lexes line s ts → 4 * ts.length + 4 ≤ fuel →
    SafeOr Message (parseline line fuel) s (Accepted line .line ts)
  pipe : ∀ {s ts}, Lexes line s ts → 4 * ts.length + 3 ≤ fuel →
    SafeOr Message (parsepipe line fuel) s (Accepted line .pipe ts)
  exec : ∀ {s ts}, Lexes line s ts → 4 * ts.length + 2 ≤ fuel →
    SafeOr Message (parseexec line fuel) s (Accepted line .exec ts)
  block : ∀ {s ts}, Lexes line s ts → 4 * ts.length + 1 ≤ fuel →
    SafeOr Message (parseblock line fuel) s (Accepted line .exec ts)

section

variable (nulFree : 0 ∉ line) (parts : PartsSound line fuel) (lexes : Lexes line s ts)

include nulFree parts lexes

theorem parseline_sound (enough : 4 * ts.length + 4 ≤ fuel + 1) :
    SafeOr Message (parseline line (fuel + 1)) s (Accepted line .line ts) := by
  rw [parseline]
  refine (parts.pipe lexes (by omega)).bind ?_
  rintro cmd s₁ ⟨used, rest, rfl, derived, lexes₁⟩
  rw [length_append] at enough
  refine (parseback_sound nulFree lexes₁ (by omega)).bind ?_
  rintro cmd' s₂ ⟨k, rest, rfl, rfl, lexes₂⟩
  obtain ⟨s₃, peeked, lexes₃⟩ := peek_spec nulFree [ch ';'] (by decide) lexes₂
  refine SafeOr.bind_ok peeked ?_
  by_cases more : sees [ch ';'] rest = true
  · rw [if_pos more]
    obtain ⟨rest, span, s₄, rfl, took, lexes₄⟩ :=
      gettoken_seen nulFree lexes₃ (t := .semi) rfl more
    refine SafeOr.bind_ok took ?_
    simp only [length_append, length_cons] at enough
    refine (parts.line_ lexes₄ (by omega)).bind ?_
    rintro right s₅ ⟨used', rest', rfl, derived', lexes₅⟩
    exact SafeOr.pure ⟨_, rest', by simp, .list derived derived', lexes₅⟩
  · rw [if_neg more]
    exact SafeOr.pure ⟨_, rest, by simp, .command derived, lexes₃⟩

theorem parsepipe_sound (enough : 4 * ts.length + 3 ≤ fuel + 1) :
    SafeOr Message (parsepipe line (fuel + 1)) s (Accepted line .pipe ts) := by
  rw [parsepipe]
  refine (parts.exec lexes (by omega)).bind ?_
  rintro cmd s₁ ⟨used, rest, rfl, derived, lexes₁⟩
  obtain ⟨s₂, peeked, lexes₂⟩ := peek_spec nulFree [ch '|'] (by decide) lexes₁
  refine SafeOr.bind_ok peeked ?_
  by_cases more : sees [ch '|'] rest = true
  · rw [if_pos more]
    obtain ⟨rest, span, s₃, rfl, took, lexes₃⟩ :=
      gettoken_seen nulFree lexes₂ (t := .bar) rfl more
    refine SafeOr.bind_ok took ?_
    simp only [length_append, length_cons] at enough
    refine (parts.pipe lexes₃ (by omega)).bind ?_
    rintro right s₄ ⟨used', rest', rfl, derived', lexes₄⟩
    exact SafeOr.pure ⟨_, rest', by simp, .pipe derived derived', lexes₄⟩
  · rw [if_neg more]
    exact SafeOr.pure ⟨used, rest, rfl, .last derived, lexes₂⟩

theorem parseexec_sound (enough : 4 * ts.length + 2 ≤ fuel + 1) :
    SafeOr Message (parseexec line (fuel + 1)) s (Accepted line .exec ts) := by
  rw [parseexec]
  obtain ⟨s₁, peeked, lexes₁⟩ := peek_spec nulFree [ch '('] (by decide) lexes
  refine SafeOr.bind_ok peeked ?_
  by_cases block : sees [ch '('] ts = true
  · rw [if_pos block]
    exact parts.block lexes₁ (by omega)
  · rw [if_neg block]
    refine (parseredirs_sound nulFree lexes₁ (by omega)).bind ?_
    rintro cmd s₂ ⟨used, rest, rs, rfl, redirs, rfl, lexes₂⟩
    rw [length_append] at enough
    refine (parseargs_sound nulFree rs [] lexes₂ (by omega) (Nat.zero_le _)).mono ?_
    rintro cmd s' ⟨used', rest', ws, rs', rfl, derived, few, rfl, after⟩
    exact ⟨used ++ used', rest', by simp, .simple redirs derived few, after⟩

theorem parseblock_sound (enough : 4 * ts.length + 1 ≤ fuel + 1) :
    SafeOr Message (parseblock line (fuel + 1)) s (Accepted line .exec ts) := by
  rw [parseblock]
  obtain ⟨s₁, peeked, lexes₁⟩ := peek_spec nulFree [ch '('] (by decide) lexes
  refine SafeOr.bind_ok peeked ?_
  by_cases block : sees [ch '('] ts = true
  · rw [if_pos block]
    obtain ⟨ts, span, s₂, rfl, took, lexes₂⟩ :=
      gettoken_seen nulFree lexes₁ (t := .lpar) rfl block
    refine SafeOr.bind_ok took ?_
    rw [length_cons] at enough
    refine (parts.line_ lexes₂ (by omega)).bind ?_
    rintro cmd s₃ ⟨used, rest, rfl, derived, lexes₃⟩
    obtain ⟨s₄, peeked', lexes₄⟩ := peek_spec nulFree [ch ')'] (by decide) lexes₃
    refine SafeOr.bind_ok peeked' ?_
    by_cases closed : sees [ch ')'] rest = true
    · rw [if_pos closed]
      obtain ⟨rest, span', s₅, rfl, took', lexes₅⟩ :=
        gettoken_seen nulFree lexes₄ (t := .rpar) rfl closed
      refine SafeOr.bind_ok took' ?_
      simp only [length_append, length_cons] at enough
      refine (parseredirs_sound nulFree lexes₅ (by omega)).mono ?_
      rintro cmd' s' ⟨used', rest', rs, rfl, redirs, rfl, after⟩
      exact ⟨_, rest', by simp, .block derived redirs, after⟩
    · rw [if_neg closed]
      exact fail nofun
  · rw [if_neg block]
    exact fail nofun

end

/-- What the parser reads is derived, and its bound is never reached. -/
theorem parts_sound (nulFree : 0 ∉ line) (fuel : ℕ) : PartsSound line fuel := by
  induction fuel with
  | zero => constructor <;> intros <;> omega
  | succ fuel parts =>
    exact ⟨fun lexes => parseline_sound nulFree parts lexes,
      fun lexes => parsepipe_sound nulFree parts lexes,
      fun lexes => parseexec_sound nulFree parts lexes,
      fun lexes => parseblock_sound nulFree parts lexes⟩

end Soundness

section Completeness

/-- The part of the parser for a nonterminal. -/
def parserOf (line : List UInt8) : Nonterminal → ℕ → ShellParser (ShellCmd Span)
  | .line => parseline line
  | .pipe => parsepipe line
  | .exec => parseexec line

/-- The bound that it needs for so many tokens. -/
def boundOf : Nonterminal → ℕ → ℕ
  | .line, n => 4 * n + 4
  | .pipe, n => 4 * n + 3
  | .exec, n => 4 * n + 2

/-- The parser reads every derivation, if it is followed by what may follow it. -/
theorem parse_complete (nulFree : 0 ∉ line) (derived : Derives nt used cmd)
    (lexes : Lexes line s (used ++ rest)) (follows : MayFollow nt rest)
    (enough : boundOf nt (used ++ rest).length ≤ fuel) :
    Safe (parserOf line nt fuel) s fun cmd' s' => cmd' = cmd ∧ Lexes line s' rest := by
  induction derived generalizing s fuel rest with
  | @block ts us cmd rs derived redirs ih =>
    rw [cons_append, cons_append, append_assoc, cons_append] at lexes enough
    simp only [boundOf, length_cons, length_append] at enough
    obtain ⟨fuel, rfl⟩ : ∃ k, fuel = k + 2 := ⟨fuel - 2, by omega⟩
    rw [parserOf, parseexec]
    obtain ⟨s₁, peeked, lexes₁⟩ := peek_spec nulFree [ch '('] (by decide) lexes
    refine bind_ok peeked ?_
    rw [if_pos (show sees [ch '('] _ = true from rfl), parseblock]
    obtain ⟨s₂, peeked', lexes₂⟩ := peek_spec nulFree [ch '('] (by decide) lexes₁
    refine bind_ok peeked' ?_
    rw [if_pos (show sees [ch '('] _ = true from rfl)]
    obtain ⟨span, s₃, took, lexes₃, -⟩ := gettoken_cons nulFree lexes₂
    refine bind_ok took ?_
    refine (ih lexes₃ (.inr rfl) ?_).bind ?_
    · simp only [boundOf, length_cons, length_append]
      omega
    rintro cmd' s₄ ⟨rfl, lexes₄⟩
    obtain ⟨s₅, peeked'', lexes₅⟩ := peek_spec nulFree [ch ')'] (by decide) lexes₄
    refine bind_ok peeked'' ?_
    rw [if_pos (show sees [ch ')'] _ = true from rfl)]
    obtain ⟨span', s₆, took', lexes₆, -⟩ := gettoken_cons nulFree lexes₅
    refine bind_ok took' ?_
    exact parseredirs_complete nulFree redirs lexes₆ (follows.not_sees (by decide))
      (by rw [length_append]; omega)
  | @simple ts us ws rs rs' redirs words few =>
    simp only [boundOf, append_assoc, length_append] at enough
    obtain _ | fuel := fuel
    · omega
    rw [parserOf, parseexec]
    obtain ⟨s₁, peeked, lexes₁⟩ := peek_spec nulFree [ch '('] (by decide) lexes
    refine bind_ok peeked ?_
    have simple : sees [ch '('] (ts ++ us ++ rest) = false := by
      cases redirs with
      | nil =>
        cases words with
        | nil => exact follows.not_sees (by decide)
        | cons => rfl
      | @cons t file r ts rs redirection =>
        cases t <;> first | rfl | contradiction
    rw [simple]
    rw [append_assoc] at lexes₁
    refine (parseredirs_complete nulFree redirs lexes₁ (words_no_redirection words follows)
      (by simp only [length_append]; omega)).bind ?_
    rintro cmd' s₂ ⟨rfl, lexes₂⟩
    exact parseargs_complete nulFree rs [] words lexes₂ follows
      (by rw [length_append]; omega) few
  | @last ts cmd derived ih =>
    simp only [boundOf, length_append] at enough
    obtain _ | fuel := fuel
    · omega
    rw [parserOf, parsepipe]
    refine (ih lexes (follows.mono (by decide)) ?_).bind ?_
    · simp only [boundOf, length_append]
      omega
    rintro cmd' s₁ ⟨rfl, lexes₁⟩
    obtain ⟨s₂, peeked, lexes₂⟩ := peek_spec nulFree [ch '|'] (by decide) lexes₁
    refine bind_ok peeked ?_
    rw [follows.not_sees (by decide)]
    exact pure ⟨rfl, lexes₂⟩
  | @pipe ts us left right derived derived' ih ih' =>
    simp only [boundOf, append_assoc, cons_append, length_append, length_cons]
      at enough
    obtain _ | fuel := fuel
    · omega
    rw [parserOf, parsepipe]
    rw [append_assoc, cons_append] at lexes
    refine (ih lexes (.inr rfl) ?_).bind ?_
    · simp only [boundOf, length_append, length_cons]
      omega
    rintro cmd' s₁ ⟨rfl, lexes₁⟩
    obtain ⟨s₂, peeked, lexes₂⟩ := peek_spec nulFree [ch '|'] (by decide) lexes₁
    refine bind_ok peeked ?_
    rw [if_pos (show sees [ch '|'] _ = true from rfl)]
    obtain ⟨span, s₃, took, lexes₃, -⟩ := gettoken_cons nulFree lexes₂
    refine bind_ok took ?_
    refine (ih' lexes₃ follows ?_).bind ?_
    · simp only [boundOf, length_append]
      omega
    rintro cmd'' s₄ ⟨rfl, lexes₄⟩
    exact pure ⟨rfl, lexes₄⟩
  | @command ts cmd k derived ih =>
    rw [append_assoc] at lexes enough
    simp only [boundOf, length_append, length_replicate] at enough
    obtain _ | fuel := fuel
    · omega
    rw [parserOf, parseline]
    refine (ih lexes (follows_amp (follows.mono (by decide))) ?_).bind ?_
    · simp only [boundOf, length_append, length_replicate]
      omega
    rintro cmd' s₁ ⟨rfl, lexes₁⟩
    refine (parseback_complete nulFree lexes₁ (follows.not_sees (by decide)) ?_).bind ?_
    · simp only [length_append, length_replicate]
      omega
    rintro cmd'' s₂ ⟨rfl, lexes₂⟩
    obtain ⟨s₃, peeked, lexes₃⟩ := peek_spec nulFree [ch ';'] (by decide) lexes₂
    refine bind_ok peeked ?_
    rw [follows.not_sees (by decide)]
    exact pure ⟨rfl, lexes₃⟩
  | @list ts us left right k derived derived' ih ih' =>
    rw [append_assoc, append_assoc, cons_append] at lexes enough
    simp only [boundOf, length_append, length_replicate, length_cons] at enough
    obtain _ | fuel := fuel
    · omega
    rw [parserOf, parseline]
    refine (ih lexes (follows_amp (.inr rfl)) ?_).bind ?_
    · simp only [boundOf, length_append, length_replicate, length_cons]
      omega
    rintro cmd' s₁ ⟨rfl, lexes₁⟩
    refine (parseback_complete nulFree lexes₁ rfl ?_).bind ?_
    · simp only [length_append, length_replicate, length_cons]
      omega
    rintro cmd'' s₂ ⟨rfl, lexes₂⟩
    obtain ⟨s₃, peeked, lexes₃⟩ := peek_spec nulFree [ch ';'] (by decide) lexes₂
    refine bind_ok peeked ?_
    rw [if_pos (show sees [ch ';'] _ = true from rfl)]
    obtain ⟨span, s₄, took, lexes₄, -⟩ := gettoken_cons nulFree lexes₃
    refine bind_ok took ?_
    refine (ih' lexes₄ follows ?_).bind ?_
    · simp only [boundOf, length_append]
      omega
    rintro right' s₅ ⟨rfl, lexes₅⟩
    exact pure ⟨rfl, lexes₅⟩

end Completeness

end Xv6Cos.Verif
