import Xv6Cos.User.Grep
import Xv6Cos.Spec.Strings

/-!
# `grep` finds what its patterns stand for
-/

namespace Xv6Cos.Verif

open User Spec List

variable {c : Char} {re text : List Char}

/-- A prefix of the text is in the language of the pattern. -/
def Begins (re text : List Char) : Prop := ∃ part rest, text = part ++ rest ∧ Denotes re part rest

/-- A star stands for a run of its character. -/
theorem begins_star : Begins (c :: '*' :: re) text ↔
    ∃ run text', text = run ++ text' ∧ (∀ t ∈ run, t = c ∨ c = '.') ∧ Begins re text' := by
  constructor
  · rintro ⟨part, rest, rfl, denotes⟩
    cases denotes with
    | @star _ _ run part _ same denotes =>
      exact ⟨run, part ++ rest, append_assoc .., same, part, rest, rfl, denotes⟩
    | char literal => exact absurd rfl literal
  · rintro ⟨run, _, rfl, same, part, rest, rfl, denotes⟩
    exact ⟨run ++ part, rest, (append_assoc ..).symm, .star same denotes⟩

/-- A final `$` stands for the end of the text. -/
theorem begins_final : Begins ['$'] text ↔ text = [] := by
  constructor
  · rintro ⟨part, rest, rfl, denotes⟩
    cases denotes with
    | final => rfl
    | char _ other => exact absurd rfl other
  · rintro rfl
    exact ⟨[], [], rfl, .final⟩

/-- Any other character stands for one of the text. -/
theorem begins_char (literal : re.head? ≠ some '*') (other : c :: re ≠ ['$']) :
    Begins (c :: re) text ↔ ∃ t text', text = t :: text' ∧ (c = '.' ∨ c = t) ∧ Begins re text' := by
  constructor
  · rintro ⟨part, rest, rfl, denotes⟩
    cases denotes with
    | star => exact absurd rfl literal
    | final => exact absurd rfl other
    | @char _ t _ part _ _ _ same denotes =>
      exact ⟨t, part ++ rest, rfl, same, part, rest, rfl, denotes⟩
  · rintro ⟨t, _, rfl, same, part, rest, rfl, denotes⟩
    exact ⟨t :: part, rest, rfl, .char literal other same denotes⟩

/-- `matchstar` tries all runs of the character. -/
theorem matchstar_iff (here : ∀ text, matchhere re text = true ↔ Begins re text) :
    matchstar c re text = true ↔ Begins (c :: '*' :: re) text := by
  rw [begins_star]
  induction text with
  | nil =>
    rw [matchstar, here]
    constructor
    · exact fun begins => ⟨[], [], rfl, by simp, begins⟩
    · rintro ⟨run, text', whole, -, begins⟩
      rwa [← (append_eq_nil_iff.mp whole.symm).2]
  | cons t text ih =>
    simp only [matchstar, Bool.or_eq_true, Bool.and_eq_true, beq_iff_eq, here, ih]
    constructor
    · rintro (begins | ⟨same, run, text', rfl, all, begins⟩)
      · exact ⟨[], _, rfl, by simp, begins⟩
      · exact ⟨t :: run, text', rfl, forall_mem_cons.mpr ⟨same, all⟩, begins⟩
    · rintro ⟨_ | ⟨t', run⟩, text', whole, all, begins⟩
      · rw [whole]
        exact .inl begins
      · cases whole
        obtain ⟨same, all⟩ := forall_mem_cons.mp all
        exact .inr ⟨same, run, text', rfl, all, begins⟩

/-- `matchhere` compares such a character. -/
theorem matchhere_char (literal : re.head? ≠ some '*') (other : c :: re ≠ ['$']) :
    matchhere (c :: re) text = true ↔
      ∃ t text', text = t :: text' ∧ (c = '.' ∨ c = t) ∧ matchhere re text' = true := by
  cases text with
  | nil | cons =>
    rw [matchhere]
    · simp
    · rintro re' rfl
      exact literal rfl
    · rintro rfl rfl
      exact other rfl

/-- `matchhere` looks for the pattern at the start of the text. -/
theorem matchhere_iff : ∀ re text, matchhere re text = true ↔ Begins re text
  | [], text => by
    rw [matchhere]
    exact ⟨fun _ => ⟨[], text, rfl, .empty⟩, fun _ => rfl⟩
  | c :: re, text => by
    by_cases star : re.head? = some '*'
    · obtain ⟨re', rfl⟩ := head?_eq_some_iff.mp star
      rw [matchhere]
      exact matchstar_iff (matchhere_iff re')
    · by_cases final : c :: re = ['$']
      · rw [final, begins_final, matchhere, List.isEmpty_iff]
      · rw [begins_char star final, matchhere_char star final]
        simp only [matchhere_iff re]
termination_by re => re.length

/-- `match` passes over characters as `.*` does. -/
theorem matchAny_eq (re text : List Char) : matchAny re text = matchstar '.' re text := by
  induction text with
  | nil => rw [matchAny, matchstar]
  | cons t text ih => simp [matchAny, matchstar, ih]

/-- `match` finds a part of the text that the pattern stands for, at the start if the pattern begins
with `^`. -/
theorem match_iff (re text : List Char) : grepMatch re text = true ↔
    ∃ before part after, text = before ++ part ++ after ∧
      if re.head? = some '^' then before = [] ∧ Denotes re.tail part after
      else Denotes re part after := by
  by_cases anchored : re.head? = some '^'
  · obtain ⟨re', rfl⟩ := head?_eq_some_iff.mp anchored
    simp only [if_pos anchored, tail_cons]
    rw [grepMatch, matchhere_iff]
    constructor
    · rintro ⟨part, after, whole, denotes⟩
      exact ⟨[], part, after, whole, rfl, denotes⟩
    · rintro ⟨_, part, after, whole, rfl, denotes⟩
      exact ⟨part, after, whole, denotes⟩
  · simp only [if_neg anchored]
    rw [grepMatch, matchAny_eq, matchstar_iff (matchhere_iff re), begins_star]
    · constructor
      · rintro ⟨before, _, rfl, -, part, after, rfl, denotes⟩
        exact ⟨before, part, after, (append_assoc ..).symm, denotes⟩
      · rintro ⟨before, part, after, rfl, denotes⟩
        exact ⟨before, part ++ after, append_assoc .., fun _ _ => .inr rfl, part, after,
          rfl, denotes⟩
    · rintro re' rfl
      exact anchored rfl

end Xv6Cos.Verif
