/-
  WordFormation/Proofs/RuleText/Repetitions.lean
  ==============================================
  **Whatever the grammar repeats takes a character in every round.**

  A repetition whose part matches without taking anything would go on for ever, and
  several parts of the grammar may match nothing: blanks, `~`, `^`, the further links of
  a chain.  None of them is repeated by itself.  What is repeated begins with letters or
  with a mark, or has a separator in it, which is a character after the blanks
  (`IsRepeated.progresses`).  Letters may stand in the parentheses of letters, but only
  behind a parenthesis and so in a shorter text.

  Hence there are no more rounds than characters, whatever the text: there is a last
  round, and behind it the part fails (`Progresses.exists_repeats`).  A repetition that
  made no progress would be the final answer of all that it is part of.  No production
  ever gives this answer, and none goes back in the text (`IsProduction.proceeds`).
-/
import WordFormation.Proofs.RuleText.Replies
import WordFormation.RuleText.Grammar.Progress

namespace WordFormation.RuleText

namespace Production

variable {α : Type} {p q : Production α} {s rest : Word} {values : List α}

/-! ### Rounds -/

/-- Round after round the part matches and takes a character or more, until it fails. -/
inductive Repeats (p : Production α) : Word → List α → Word → Prop where
  | stop {s : Word} (fails : Fails p s) : Repeats p s [] s
  | again {s between rest : Word} {value : α} {values : List α}
      (matched : p s = .matched value between) (shorter : between.length < s.length)
      (others : Repeats p between values rest) : Repeats p s (value :: values) rest

/-- There are no more rounds than characters that they take. -/
theorem Repeats.length_le (h : Repeats p s values rest) :
    values.length + rest.length ≤ s.length := by
  induction h with
  | stop fails => simp
  | again matched shorter others ih =>
    rw [List.length_cons]
    omega

theorem Repeats.many_eq (hp : Advances p) (h : Repeats p s values rest) :
    many p s = .matched values rest := by
  induction h with
  | stop fails => exact many_of_fails fails
  | again matched shorter others ih => exact many_of_matched hp matched ih

/-- A match takes a character or more, and no text makes the production stall. -/
structure Progresses (p : Production α) : Prop where
  advances : Advances p
  settles : ∀ n, Settles n p

theorem Settles.ne_stalled (h : ∀ n, Settles n p) (s : Word) : p s ≠ .stalled :=
  h s.length s (Nat.le_refl _)

namespace Progresses

/-- The rounds come to an end. -/
theorem exists_repeats (h : Progresses p) (s : Word) : ∃ values rest, Repeats p s values rest := by
  induction hn : s.length using Nat.strongRecOn generalizing s with
  | ind n ih =>
    cases hps : p s with
    | matched value between =>
      have hshorter := (h.advances s value between hps).2
      obtain ⟨values, rest, hothers⟩ := ih between.length (by omega) between rfl
      exact ⟨value :: values, rest, .again hps hshorter hothers⟩
    | failed rest expected => exact ⟨[], s, .stop ⟨rest, expected, hps⟩⟩
    | stalled => exact absurd hps (Settles.ne_stalled h.settles s)

theorem orElse (hp : Progresses p) (hq : Progresses q) : Progresses (orElse p q) :=
  ⟨advances_orElse hp.advances hq.advances, fun n => settles_orElse (hp.settles n) (hq.settles n)⟩

theorem many1 (h : Progresses p) : Progresses (many1 p) :=
  ⟨advances_many1 h.advances, fun n => settles_many1 (h.settles n) h.advances⟩

theorem proceeds (h : Progresses p) : Forward p ∧ ∀ s, p s ≠ .stalled :=
  ⟨h.advances.forward, Settles.ne_stalled h.settles⟩

end Progresses

end Production

namespace Grammar

open Production

/-! ### The parts of the grammar -/

/-- The parts that are repeated: what letters are made of, the links of chains, and the
    further parts of lists, each behind its separator. -/
inductive IsRepeated : Production (List Tree) → Prop where
  | letters : IsRepeated (orElse letterRun (letterParens letters))
  | prefixes : IsRepeated (pair letters affixMark)
  | postfixes : IsRepeated (pair affixMark letters)
  | tests : IsRepeated (pair (separator '|') test)
  | items : IsRepeated (pair (separator ',') (orElse item (parenthesised item)))
  | groups : IsRepeated (pair (separator ';') (orElse group (parenthesised group)))

/-- The productions of the grammar, with those that have no name of their own. -/
inductive IsProduction : ∀ {α : Type}, Production α → Prop where
  | blanks : IsProduction blanks
  | separator (c : Char) : IsProduction (separator c)
  | affixMark : IsProduction affixMark
  | shortMark : IsProduction shortMark
  | letterRun : IsProduction letterRun
  | letterParens : IsProduction (letterParens letters)
  | letters : IsProduction letters
  | prefixes : IsProduction prefixes
  | postfixes : IsProduction postfixes
  | circumfix : IsProduction circumfix
  | interfix : IsProduction interfix
  | edgeSegment : IsProduction edgeSegment
  | segment : IsProduction segment
  | startTest : IsProduction startTest
  | finalTest : IsProduction finalTest
  | test : IsProduction test
  | tests : IsProduction (separated '|' test)
  | condition : IsProduction condition
  | branch : IsProduction branch
  | elseBranch : IsProduction elseBranch
  | conditionalMet : IsProduction conditionalMet
  | conditionalUnmet : IsProduction conditionalUnmet
  | conditional : IsProduction conditional
  | item : IsProduction item
  | itemParens : IsProduction (parenthesised item)
  | itemPart : IsProduction (orElse item (parenthesised item))
  | items : IsProduction (separated ',' (orElse item (parenthesised item)))
  | group : IsProduction group
  | groupParens : IsProduction (parenthesised group)
  | groupPart : IsProduction (orElse group (parenthesised group))
  | groups : IsProduction (separated ';' (orElse group (parenthesised group)))
  | stages : IsProduction stages
  | context : IsProduction context
  | rule : IsProduction rule
  | repeated {p : Production (List Tree)} (h : IsRepeated p) : IsProduction p
  | many {p : Production (List Tree)} (h : IsRepeated p) : IsProduction (many p)
  | many1 {p : Production (List Tree)} (h : IsRepeated p) : IsProduction (many1 p)

/-! ### Progress -/

section Combinations

variable {p q : Production Tree}

theorem progresses_pair (hp : Progresses p) (hq : Progresses q) : Progresses (pair p q) :=
  ⟨advances_pair hp.advances hq.advances.forward, fun n =>
    settles_pair (hp.settles n) hp.advances.forward (hq.settles n) hq.advances.forward⟩

theorem progresses_parenthesised (h : Progresses p) : Progresses (parenthesised p) :=
  ⟨advances_parenthesised h.advances.forward, fun n =>
    settles_parenthesised (h.settles n) h.advances.forward⟩

theorem progresses_separated (c : Char) (h : Progresses p) : Progresses (separated c p) :=
  ⟨advances_separated c h.advances, fun n => settles_separated c (h.settles n) h.advances⟩

end Combinations

theorem progresses_separator (c : Char) : Progresses (separator c) :=
  ⟨advances_separator c, fun n => settles_separator n c⟩

theorem progresses_letterParens : Progresses (letterParens letters) := by
  have hforward := advances_letters.forward
  exact ⟨advances_letterParens hforward, fun n =>
    (settles_letterParens (settles_letters n) hforward).mono (Nat.le_succ n)⟩

theorem progresses_letters : Progresses letters := ⟨advances_letters, settles_letters⟩

theorem progresses_affixMark : Progresses affixMark := ⟨advances_affixMark, settles_affixMark⟩

theorem progresses_test : Progresses test := ⟨advances_test, settles_test⟩

theorem progresses_item : Progresses item := ⟨advances_item, settles_item⟩

theorem progresses_group : Progresses group := ⟨advances_group, settles_group⟩

/-- Something or the same in parentheses. -/
theorem progresses_perhapsParenthesised {p : Production Tree} (h : Progresses p) :
    Progresses (orElse p (parenthesised p)) :=
  h.orElse (progresses_parenthesised h)

theorem IsRepeated.progresses {p : Production (List Tree)} (h : IsRepeated p) :
    Progresses p := by
  cases h with
  | letters =>
    have hrun : Progresses letterRun := ⟨advances_letterRun, settles_letterRun⟩
    exact hrun.orElse progresses_letterParens
  | prefixes => exact progresses_pair progresses_letters progresses_affixMark
  | postfixes => exact progresses_pair progresses_affixMark progresses_letters
  | tests => exact progresses_pair (progresses_separator '|') progresses_test
  | items =>
    exact progresses_pair (progresses_separator ',')
      (progresses_perhapsParenthesised progresses_item)
  | groups =>
    exact progresses_pair (progresses_separator ';')
      (progresses_perhapsParenthesised progresses_group)

/-- Productions go forward and do not stall; but for blanks and for repetitions, which
    may match nothing, they take a character. -/
theorem IsProduction.proceeds {α : Type} {p : Production α} (h : IsProduction p) :
    Forward p ∧ ∀ s, p s ≠ .stalled := by
  cases h with
  | blanks => exact ⟨forward_blanks, Settles.ne_stalled settles_blanks⟩
  | separator c => exact (progresses_separator c).proceeds
  | affixMark => exact progresses_affixMark.proceeds
  | shortMark => exact Progresses.proceeds ⟨advances_shortMark, settles_shortMark⟩
  | letterRun => exact Progresses.proceeds ⟨advances_letterRun, settles_letterRun⟩
  | letterParens => exact progresses_letterParens.proceeds
  | letters => exact progresses_letters.proceeds
  | prefixes => exact Progresses.proceeds ⟨advances_prefixes, settles_prefixes⟩
  | postfixes => exact Progresses.proceeds ⟨advances_postfixes, settles_postfixes⟩
  | circumfix => exact Progresses.proceeds ⟨advances_circumfix, settles_circumfix⟩
  | interfix => exact Progresses.proceeds ⟨advances_interfix, settles_interfix⟩
  | edgeSegment => exact Progresses.proceeds ⟨advances_edgeSegment, settles_edgeSegment⟩
  | segment => exact Progresses.proceeds ⟨advances_segment, settles_segment⟩
  | startTest => exact Progresses.proceeds ⟨advances_startTest, settles_startTest⟩
  | finalTest => exact Progresses.proceeds ⟨advances_finalTest, settles_finalTest⟩
  | test => exact progresses_test.proceeds
  | tests => exact (progresses_separated '|' progresses_test).proceeds
  | condition => exact Progresses.proceeds ⟨advances_condition, settles_condition⟩
  | branch => exact Progresses.proceeds ⟨advances_branch, settles_branch⟩
  | elseBranch => exact Progresses.proceeds ⟨advances_elseBranch, settles_elseBranch⟩
  | conditionalMet => exact Progresses.proceeds ⟨advances_conditionalMet, settles_conditionalMet⟩
  | conditionalUnmet =>
    exact Progresses.proceeds ⟨advances_conditionalUnmet, settles_conditionalUnmet⟩
  | conditional => exact Progresses.proceeds ⟨advances_conditional, settles_conditional⟩
  | item => exact progresses_item.proceeds
  | itemParens => exact (progresses_parenthesised progresses_item).proceeds
  | itemPart => exact (progresses_perhapsParenthesised progresses_item).proceeds
  | items =>
    exact (progresses_separated ',' (progresses_perhapsParenthesised progresses_item)).proceeds
  | group => exact progresses_group.proceeds
  | groupParens => exact (progresses_parenthesised progresses_group).proceeds
  | groupPart => exact (progresses_perhapsParenthesised progresses_group).proceeds
  | groups =>
    exact (progresses_separated ';' (progresses_perhapsParenthesised progresses_group)).proceeds
  | stages => exact Progresses.proceeds ⟨advances_stages, settles_stages⟩
  | context => exact Progresses.proceeds ⟨advances_context, settles_context⟩
  | rule => exact Progresses.proceeds ⟨advances_rule, settles_rule⟩
  | repeated h => exact h.progresses.proceeds
  | many h =>
    exact ⟨forward_many h.progresses.advances.forward, Settles.ne_stalled fun n =>
      settles_many (h.progresses.settles n) h.progresses.advances⟩
  | many1 h => exact h.progresses.many1.proceeds

/-- **Repetitions make progress, and so they end.**  Every part that the grammar repeats
    takes a character or more where it matches, on any text.  Its rounds, of which there
    are no more than characters, go on until it fails.  No production leaves more of the
    text than it was given, and none ever stalls. -/
theorem repetitions_make_progress :
    (∀ p, IsRepeated p → Advances p ∧ ∀ s, ∃ values rest,
      Repeats p s values rest ∧ many p s = .matched values rest ∧
        values.length + rest.length ≤ s.length) ∧
    (∀ s, letters s = lettersAround letters s) ∧
    ∀ {α : Type} (p : Production α), IsProduction p →
      (∀ s value rest, p s = .matched value rest → rest <:+ s) ∧ ∀ s, p s ≠ .stalled := by
  refine ⟨fun p h => ⟨h.progresses.advances, fun s => ?_⟩, letters_unfold,
    fun p h => h.proceeds⟩
  obtain ⟨values, rest, hrounds⟩ := h.progresses.exists_repeats s
  exact ⟨values, rest, hrounds, hrounds.many_eq h.progresses.advances, hrounds.length_le⟩

/-- A parenthesis that is not closed ends the letters in front of it. -/
theorem repetitions_make_progress_unclosed :
    let part := orElse letterRun (letterParens letters)
    let s := ['a', '(', 'b', '^', '(', ')']
    IsRepeated part ∧ Repeats part s [[.leaf ['a']]] ['(', 'b', '^', '(', ')'] ∧
      IsProduction rule ∧ rule s ≠ .stalled := by
  intro part s
  obtain ⟨hrepeated, -, hproductions⟩ := repetitions_make_progress
  obtain ⟨-, hrounds⟩ := hrepeated part .letters
  obtain ⟨values, rest, hrounds, hmany, -⟩ := hrounds s
  have hletters : many part s = .matched [[.leaf ['a']]] ['(', 'b', '^', '(', ')'] := rfl
  rw [hletters] at hmany
  cases hmany
  exact ⟨.letters, hrounds, .rule, (hproductions rule .rule).2 s⟩

end Grammar

end WordFormation.RuleText
