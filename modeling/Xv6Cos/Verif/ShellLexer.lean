import Xv6Cos.Spec.ShellGrammar

/-!
# `peek` and `gettoken` read tokens

A line without NUL has one sequence of tokens from every place on. White space in front of a place
does not change it, `peek` looks at the first of the tokens, and `gettoken` takes it.
-/

namespace Xv6Cos.Verif

open User Spec List Option

variable {line : List UInt8} {s e : ℕ} {p : UInt8 → Bool} {t : ShellToken} {ts : List ShellToken}

section Skip

theorem drop_eq_byteAt (inside : s < line.length) :
    line.drop s = byteAt line s :: line.drop (s + 1) := by
  rw [drop_eq_getElem_cons inside, byteAt, getD_eq_getElem _ _ inside]

theorem skip_step (inside : s < line.length) (goes : p (byteAt line s) = true) :
    skip p line s = skip p line (s + 1) := by
  rw [skip, drop_eq_byteAt inside, scan, if_pos goes]
  rfl

theorem skip_stop (stops : s < line.length → p (byteAt line s) = false) : skip p line s = s := by
  rw [skip]
  by_cases inside : s < line.length
  · rw [drop_eq_byteAt inside, scan, stops inside]
    rfl
  · rw [drop_eq_nil_of_le (not_lt.mp inside)]
    rfl

/-- The loop passes a run of such bytes. -/
theorem skip_run (bound : e ≤ line.length) (le : s ≤ e)
    (goes : ∀ i, s ≤ i → i < e → p (byteAt line i) = true)
    (stops : e < line.length → p (byteAt line e) = false) : skip p line s = e := by
  obtain ⟨k, rfl⟩ := Nat.exists_eq_add_of_le le
  induction k generalizing s with
  | zero => exact skip_stop stops
  | succ k ih =>
    rw [skip_step (by omega) (goes s (le_refl s) (by omega))]
    have shift : s + (k + 1) = s + 1 + k := by omega
    rw [shift] at bound goes stops ⊢
    exact ih bound (by omega) (fun i low high => goes i (by omega) high) stops

/-- There is a longest run of such bytes. -/
theorem exists_run (p : UInt8 → Bool) (line : List UInt8) (le : s ≤ line.length) :
    ∃ e, s ≤ e ∧ e ≤ line.length ∧ (∀ i, s ≤ i → i < e → p (byteAt line i) = true) ∧
      (e < line.length → p (byteAt line e) = false) := by
  obtain ⟨k, long⟩ := Nat.exists_eq_add_of_le le
  induction k generalizing s with
  | zero => exact ⟨s, le_refl s, le, by omega, by omega⟩
  | succ k ih =>
    by_cases goes : p (byteAt line s) = true
    · obtain ⟨e, less, bound, run, ends⟩ := @ih (s + 1) (by omega) (by omega)
      refine ⟨e, by omega, bound, fun i low high => ?_, ends⟩
      by_cases first : i = s
      · rw [first]
        exact goes
      · exact run i (by omega) high
    · exact ⟨s, le_refl s, le, by omega, fun _ => by simpa using goes⟩

end Skip

/-- A token starts with a byte that is not white space. -/
theorem byte_not_space {c : UInt8} (single : t.byte = some c) : whitespace.contains c = false := by
  cases t <;> simp only [ShellToken.byte, some.injEq, reduceCtorEq] at single <;>
    subst single <;> decide

/-- What the first token is, at a place that is not white space. -/
def Starts (line : List UInt8) (s : ℕ) : List ShellToken → Prop
  | [] => s = line.length
  | .word (q, e) :: ts => q = s ∧ s < e ∧ e ≤ line.length ∧
      (∀ i, s ≤ i → i < e → inWord (byteAt line i) = true) ∧
      (e < line.length → inWord (byteAt line e) = false) ∧ Lexes line e ts
  | .gt :: ts => s < line.length ∧ byteAt line s = ch '>' ∧ byteAt line (s + 1) ≠ ch '>' ∧
      Lexes line (s + 1) ts
  | .append :: ts => s < line.length ∧ byteAt line s = ch '>' ∧ byteAt line (s + 1) = ch '>' ∧
      Lexes line (s + 2) ts
  | t :: ts => s < line.length ∧ t.byte = some (byteAt line s) ∧ Lexes line (s + 1) ts

/-- White space in front of the tokens does not matter. -/
theorem lexes_skip (lexes : Lexes line s ts) :
    Lexes line (skip whitespace.contains line s) ts ∧
      Starts line (skip whitespace.contains line s) ts := by
  induction lexes with
  | done =>
    rw [skip_stop fun inside => absurd inside (lt_irrefl _)]
    exact ⟨.done, rfl⟩
  | @space s ts inside blank rest ih =>
    rw [skip_step inside (contains_iff_mem.mpr blank)]
    exact ih
  | @single s t ts inside byte rest ih =>
    rw [skip_stop fun _ => byte_not_space byte]
    refine ⟨.single inside byte rest, ?_⟩
    cases t <;> first | contradiction | exact ⟨inside, byte, rest⟩
  | @gt s ts inside here single rest ih =>
    rw [skip_stop fun _ => by rw [here]; decide]
    exact ⟨.gt inside here single rest, inside, here, single, rest⟩
  | @append s ts inside here double rest ih =>
    rw [skip_stop fun _ => by rw [here]; decide]
    exact ⟨.append inside here double rest, inside, here, double, rest⟩
  | @word s e ts less bound run ends rest ih =>
    have first := run s (le_refl s) less
    simp only [inWord, Bool.and_eq_true, Bool.not_eq_true'] at first
    rw [skip_stop fun _ => first.1]
    exact ⟨.word less bound run ends rest, rfl, less, bound, run, ends, rest⟩

/-- Every line has tokens. -/
theorem exists_lexes (line : List UInt8) (le : s ≤ line.length) : ∃ ts, Lexes line s ts := by
  obtain ⟨k, long⟩ := Nat.exists_eq_add_of_le le
  induction k using Nat.strongRecOn generalizing s with
  | ind k ih =>
    by_cases inside : s < line.length
    · have onward : ∀ e, s < e → e ≤ line.length → ∃ ts, Lexes line e ts :=
        fun e more bound => ih (line.length - e) (by omega) bound (by omega)
      by_cases blank : byteAt line s ∈ whitespace
      · obtain ⟨ts, rest⟩ := onward (s + 1) (by omega) inside
        exact ⟨ts, .space inside blank rest⟩
      by_cases isSymbol : byteAt line s ∈ symbols
      · obtain ⟨ts, rest⟩ := onward (s + 1) (by omega) inside
        by_cases greater : byteAt line s = ch '>'
        · by_cases double : byteAt line (s + 1) = ch '>'
          · by_cases room : s + 1 < line.length
            · obtain ⟨ts, rest⟩ := onward (s + 2) (by omega) room
              exact ⟨_, .append inside greater double rest⟩
            · rw [byteAt, getD_eq_default _ _ (not_lt.mp room)] at double
              exact absurd double (by decide)
          · exact ⟨_, .gt inside greater double rest⟩
        · have single : ∃ t : ShellToken, t.byte = some (byteAt line s) := by
            simp only [symbols, mem_cons, not_mem_nil, or_false] at isSymbol
            rcases isSymbol with here | here | here | here | here | here | here <;> rw [here]
            · exact ⟨.lt, rfl⟩
            · exact ⟨.bar, rfl⟩
            · exact absurd here greater
            · exact ⟨.amp, rfl⟩
            · exact ⟨.semi, rfl⟩
            · exact ⟨.lpar, rfl⟩
            · exact ⟨.rpar, rfl⟩
          obtain ⟨t, byte⟩ := single
          exact ⟨_, .single inside byte rest⟩
      · -- the longest run of bytes of a word
        have first : inWord (byteAt line s) = true := by
          simp only [inWord, Bool.and_eq_true, Bool.not_eq_true', ← Bool.not_eq_true,
            contains_iff_mem]
          exact ⟨blank, isSymbol⟩
        obtain ⟨e, le, bound, run, ends⟩ := exists_run inWord line inside.le
        have less : s < e := by
          refine lt_of_le_of_ne le ?_
          rintro rfl
          exact absurd first (by rw [ends inside]; decide)
        obtain ⟨ts, rest⟩ := onward e less bound
        exact ⟨_, .word less bound run ends rest⟩
    · obtain rfl : s = line.length := by omega
      exact ⟨[], .done⟩

/-- The byte that `peek` sees, if it is a symbol. -/
def lead : ShellToken → Option UInt8
  | .gt | .append => some (ch '>')
  | t => t.byte

/-- What `gettoken` returns for the token. -/
def code : ShellToken → UInt8
  | .word _ => ch 'a'
  | .append => ch '+'
  | t => (lead t).getD 0

theorem byteAt_ne_zero (nulFree : 0 ∉ line) (inside : s < line.length) : byteAt line s ≠ 0 := by
  rw [byteAt, getD_eq_getElem _ _ inside]
  exact fun zero => nulFree (zero ▸ getElem_mem inside)

theorem byteAt_end : byteAt line line.length = 0 := getD_eq_default _ _ (le_refl _)

theorem byteAt_start (starts : Starts line s (t :: ts)) : s < line.length ∧
    match lead t with
    | some c => byteAt line s = c
    | none => inWord (byteAt line s) = true := by
  cases t with
  | word span =>
    obtain ⟨rfl, less, bound, run, -⟩ := starts
    exact ⟨by omega, run _ (le_refl _) less⟩
  | gt | append => exact ⟨starts.1, starts.2.1⟩
  | lt | bar | amp | semi | lpar | rpar =>
    exact ⟨starts.1, (some.inj starts.2.1).symm⟩

/-- The first token starts with one of the symbols. -/
def sees (toks : List UInt8) (ts : List ShellToken) : Bool :=
  ts.head?.any fun t => (lead t).any toks.contains

/-- `peek` tells whether it does. -/
theorem peek_spec (nulFree : 0 ∉ line) (toks : List UInt8) (sub : toks ⊆ symbols)
    (lexes : Lexes line s ts) :
    ∃ s', peek line toks s = .ok (sees toks ts, s') ∧ Lexes line s' ts := by
  obtain ⟨after, starts⟩ := lexes_skip lexes
  refine ⟨_, ?_, after⟩
  rw [peek]
  congr 2
  cases ts with
  | nil =>
    have ended : skip whitespace.contains line s = line.length := starts
    rw [ended, byteAt_end]
    rfl
  | cons t ts =>
    obtain ⟨inside, here⟩ := byteAt_start starts
    rw [bne_iff_ne.mpr (byteAt_ne_zero nulFree inside), Bool.true_and, sees, List.head?_cons,
      any_some]
    cases first : lead t with
    | some c =>
      rw [first] at here
      rw [here]
      rfl
    | none =>
      rw [first] at here
      simp only [inWord, Bool.and_eq_true, Bool.not_eq_true', ← Bool.not_eq_true,
        contains_iff_mem] at here
      rw [any_none, ← Bool.not_eq_true, contains_iff_mem]
      exact fun mem => here.2 (sub mem)

/-- At the end of the line `gettoken` returns 0. -/
theorem gettoken_nil (lexes : Lexes line s []) :
    ∃ span s', gettoken line s = .ok ((0, span), s') ∧ Lexes line s' [] := by
  obtain ⟨after, starts⟩ := lexes_skip lexes
  have ended : skip whitespace.contains line s = line.length := starts
  refine ⟨(line.length, line.length), line.length, ?_, .done⟩
  simp only [gettoken, ended, byteAt_end, if_true]
  rw [skip_stop fun inside => absurd inside (lt_irrefl _)]

/-- `gettoken` takes the first token. -/
theorem gettoken_cons (nulFree : 0 ∉ line) (lexes : Lexes line s (t :: ts)) :
    ∃ span s', gettoken line s = .ok ((code t, span), s') ∧ Lexes line s' ts ∧
      ∀ w, t = .word w → span = w := by
  obtain ⟨-, starts⟩ := lexes_skip lexes
  obtain ⟨inside, first⟩ := byteAt_start starts
  have notEnd := byteAt_ne_zero nulFree inside
  rw [gettoken]
  generalize skip whitespace.contains line s = q at starts inside first notEnd
  simp only [if_neg notEnd]
  cases t with
  | word span =>
    obtain ⟨q', e⟩ := span
    obtain ⟨rfl, less, bound, run, ends, rest⟩ := starts
    have word : inWord (byteAt line q') = true := first
    simp only [inWord, symbols, Bool.and_eq_true, Bool.not_eq_true', ← Bool.not_eq_true,
      contains_iff_mem, mem_cons, not_mem_nil, or_false, not_or] at word
    obtain ⟨-, noLt, noBar, noGt, noAmp, noSemi, noLpar, noRpar⟩ := word
    have single : [ch '|', ch '(', ch ')', ch ';', ch '&', ch '<'].contains
      (byteAt line q') ≠ true := by
      simp only [Ne, contains_iff_mem, mem_cons, not_mem_nil, or_false, not_or]
      exact ⟨noBar, noLpar, noRpar, noSemi, noAmp, noLt⟩
    rw [if_neg single, if_neg noGt, skip_run bound less.le run ends]
    exact ⟨_, _, rfl, (lexes_skip rest).1, fun w same => (ShellToken.word.inj same)⟩
  | gt =>
    obtain ⟨-, here, single, rest⟩ := starts
    rw [here, if_neg (by decide), if_pos rfl, if_neg single]
    exact ⟨_, _, rfl, (lexes_skip rest).1, nofun⟩
  | append =>
    obtain ⟨-, here, double, rest⟩ := starts
    rw [here, if_neg (by decide), if_pos rfl, if_pos double]
    exact ⟨_, _, rfl, (lexes_skip rest).1, nofun⟩
  | lt | bar | amp | semi | lpar | rpar =>
    obtain ⟨-, here, rest⟩ := starts
    rw [← some.inj here, if_pos (by decide)]
    exact ⟨_, _, rfl, (lexes_skip rest).1, nofun⟩

theorem code_ne_zero : code t ≠ 0 := by
  cases t <;> simp only [code, lead, ShellToken.byte, getD_some] <;> decide

theorem code_eq_word : code t = ch 'a' ↔ ∃ w, t = .word w := by
  cases t with
  | word w => exact ⟨fun _ => ⟨w, rfl⟩, fun _ => rfl⟩
  | _ => exact ⟨fun same => absurd same (by decide), nofun⟩

/-- Kind and place tell the token. -/
theorem token_unique {t' : ShellToken} {span : Span} (same : code t = code t')
    (first : ∀ w, t = .word w → span = w) (second : ∀ w, t' = .word w → span = w) : t = t' := by
  by_cases isWord : ∃ w, t = .word w
  · obtain ⟨w, rfl⟩ := isWord
    obtain ⟨w', rfl⟩ := code_eq_word.mp same.symm
    rw [← first w rfl, ← second w' rfl]
  · have isWord' : ¬∃ w, t' = .word w := fun found =>
      isWord (code_eq_word.mp (same.trans (code_eq_word.mpr found)))
    cases t <;> cases t' <;> first
      | rfl
      | exact absurd ⟨_, rfl⟩ isWord
      | exact absurd ⟨_, rfl⟩ isWord'
      | exact absurd same (by decide)

/-- A line has one sequence of tokens. -/
theorem lexes_unique (nulFree : 0 ∉ line) {ts' : List ShellToken} (first : Lexes line s ts)
    (second : Lexes line s ts') : ts = ts' := by
  induction ts generalizing s ts' with
  | nil =>
    obtain ⟨span, s', took, -⟩ := gettoken_nil first
    cases ts' with
    | nil => rfl
    | cons t ts' =>
      obtain ⟨span', s'', took', -⟩ := gettoken_cons nulFree second
      have pair := (Prod.mk.inj (Except.ok.inj (took.symm.trans took'))).1
      exact absurd (Prod.mk.inj pair).1.symm code_ne_zero
  | cons t ts ih =>
    obtain ⟨span, s', took, rest, isWord⟩ := gettoken_cons nulFree first
    cases ts' with
    | nil =>
      obtain ⟨span', s'', took', -⟩ := gettoken_nil second
      have pair := (Prod.mk.inj (Except.ok.inj (took.symm.trans took'))).1
      exact absurd (Prod.mk.inj pair).1 code_ne_zero
    | cons t' ts' =>
      obtain ⟨span', s'', took', rest', isWord'⟩ := gettoken_cons nulFree second
      obtain ⟨pair, rfl⟩ := Prod.mk.inj (Except.ok.inj (took.symm.trans took'))
      obtain ⟨same, rfl⟩ := Prod.mk.inj pair
      rw [token_unique same isWord isWord', ih rest rest']

/-- Each token has a place of its own. -/
theorem length_of_lexes (lexes : Lexes line s ts) : ts.length + s ≤ line.length := by
  induction lexes with
  | done => exact le_of_eq (Nat.zero_add _)
  | space => omega
  | single | gt | append | word =>
    rw [length_cons]
    omega

end Xv6Cos.Verif
