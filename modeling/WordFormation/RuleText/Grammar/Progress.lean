/-
  WordFormation/RuleText/Grammar/Progress.lean
  ============================================
  **The grammar of rules never stalls.**

  Every part of the grammar goes forward, and every part that is repeated takes
  at least one character: letters and marks do, and all else begins with one or
  has one behind its separator.  So no repetition stalls (`settles_rule`).

  Parentheses around letters nest.  Letters are defined for a limited depth of
  them, and it is shown that the limit is none: inside of parentheses stand
  letters again (`letters_unfold`).
-/
import WordFormation.RuleText.Reply.Progress
import WordFormation.RuleText.Grammar

namespace WordFormation.RuleText

namespace Grammar

open Production

/-! ### Letters -/

theorem advances_letterRun : Advances letterRun := by
  refine advances_bind (advances_run _) fun taken =>
    forward_bind (forward_optionally (advances_mark _).forward) fun optional => ?_
  cases optional <;> exact forward_pure _

theorem advances_parenthesised {p : Production Tree} (hp : Forward p) :
    Advances (parenthesised p) :=
  advances_bind (advances_mark _) fun _ => forward_bind hp fun _ =>
    forward_bind (advances_mark _).forward fun _ => forward_pure _

theorem advances_letterParens {inner : Production Tree} (h : Forward inner) :
    Advances (letterParens inner) := by
  refine advances_bind (advances_parenthesised h) fun group =>
    forward_bind (forward_optionally (advances_mark _).forward) fun optional => ?_
  cases optional <;> exact forward_pure _

theorem advances_lettersAround {inner : Production Tree} (h : Forward inner) :
    Advances (lettersAround inner) :=
  advances_bind (advances_expecting _ (advances_many1
    (advances_orElse advances_letterRun (advances_letterParens h)))) fun _ => forward_pure _

theorem forward_stalled {α : Type} : Forward (fun _ => .stalled : Production α) := by
  intro s value rest h
  cases h

theorem advances_lettersWithin (depth : Nat) : Advances (lettersWithin depth) := by
  induction depth with
  | zero => exact advances_lettersAround forward_stalled
  | succ depth ih => exact advances_lettersAround ih.forward

theorem advances_letters : Advances letters :=
  fun s => advances_lettersWithin s.length s

theorem settles_letterRun (n : Nat) : Settles n letterRun := by
  refine settles_bind (settles_run n _) (advances_run _).forward fun taken =>
    settles_bind (settles_optionally (settles_mark n _))
      (forward_optionally (advances_mark _).forward) fun optional => ?_
  cases optional <;> exact settles_pure n _

theorem settles_letterParens_zero (inner : Production Tree) : Settles 0 (letterParens inner) := by
  intro s hs h
  obtain rfl : s = [] := List.eq_nil_of_length_eq_zero (by omega)
  cases h

theorem settles_letterParens {n : Nat} {inner : Production Tree} (h : Settles n inner)
    (hforward : Forward inner) : Settles (n + 1) (letterParens inner) := by
  refine settles_bind (settles_bind_advances (settles_mark _ _) (advances_mark _) fun _ =>
    settles_bind h hforward fun _ => settles_bind (settles_mark n _)
      (advances_mark _).forward fun _ => settles_pure n _)
    (advances_parenthesised hforward).forward fun group =>
    settles_bind (settles_optionally (settles_mark _ _))
      (forward_optionally (advances_mark _).forward) fun optional => ?_
  cases optional <;> exact settles_pure _ _

theorem settles_lettersAround {n : Nat} {inner : Production Tree} (hforward : Forward inner)
    (h : Settles n (letterParens inner)) : Settles n (lettersAround inner) :=
  have hpart := advances_orElse advances_letterRun (advances_letterParens hforward)
  settles_bind
    (settles_expecting _ (settles_many1 (settles_orElse (settles_letterRun n) h) hpart))
    (forward_expecting _ (advances_many1 hpart).forward) fun _ => settles_pure n _

theorem settles_lettersWithin (depth : Nat) : Settles depth (lettersWithin depth) := by
  induction depth with
  | zero => exact settles_lettersAround forward_stalled (settles_letterParens_zero _)
  | succ depth ih =>
    have hforward := (advances_lettersWithin depth).forward
    exact settles_lettersAround hforward (settles_letterParens ih hforward)

theorem settles_letters (n : Nat) : Settles n letters :=
  fun s _ => settles_lettersWithin s.length s (Nat.le_refl _)

/-- Letters around different things in parentheses agree on a text if these agree
    on all shorter texts. -/
theorem lettersAround_congr {inner inner' : Production Tree} {s : Word} (hforward : Forward inner)
    (h : ∀ r : Word, r.length < s.length → inner r = inner' r) :
    lettersAround inner s = lettersAround inner' s := by
  have hpart : ∀ r : Word, r.length ≤ s.length →
      orElse letterRun (letterParens inner) r = orElse letterRun (letterParens inner') r := by
    intro r hr
    have hparens : letterParens inner r = letterParens inner' r := by
      unfold letterParens parenthesised
      simp only [bind_apply]
      cases hm : mark '(' r with
      | matched c r' =>
        have hr' := (advances_mark '(' r c r' hm).2
        simp only [h r' (by omega)]
      | failed r' es => rfl
      | stalled => rfl
    unfold orElse
    rw [hparens]
  have hmany := many1_congr
    (advances_orElse advances_letterRun (advances_letterParens hforward)).forward hpart
  unfold lettersAround
  rw [bind_apply, bind_apply]
  unfold expecting
  rw [hmany]

theorem lettersWithin_succ {depth : Nat} {s : Word} (h : s.length ≤ depth) :
    lettersWithin (depth + 1) s = lettersWithin depth s := by
  induction depth generalizing s with
  | zero => exact lettersAround_congr (advances_lettersWithin 0).forward fun r hr => by omega
  | succ depth ih =>
    exact lettersAround_congr (advances_lettersWithin (depth + 1)).forward fun r hr =>
      ih (by omega)

theorem lettersWithin_eq_letters {depth : Nat} {s : Word} (h : s.length ≤ depth) :
    lettersWithin depth s = letters s := by
  induction depth with
  | zero => unfold letters; rw [Nat.le_zero.mp h]
  | succ depth ih =>
    by_cases hd : s.length ≤ depth
    · rw [lettersWithin_succ hd, ih hd]
    · unfold letters; rw [show s.length = depth + 1 by omega]

/-- In the parentheses inside letters stand letters again. -/
theorem letters_unfold (s : Word) : letters s = lettersAround letters s := by
  rw [← lettersWithin_eq_letters (Nat.le_succ s.length)]
  exact lettersAround_congr (advances_lettersWithin s.length).forward fun r hr =>
    lettersWithin_eq_letters (Nat.le_of_lt hr)

/-! ### Separators and marks -/

theorem forward_blanks : Forward blanks := forward_skip isBlank

theorem settles_blanks (n : Nat) : Settles n blanks := settles_skip n isBlank

theorem advances_separator (c : Char) : Advances (separator c) :=
  advances_bind_right forward_blanks fun _ => advances_bind (advances_mark c) fun _ =>
    forward_bind forward_blanks fun _ => forward_pure _

theorem settles_separator (n : Nat) (c : Char) : Settles n (separator c) :=
  settles_bind (settles_blanks n) forward_blanks fun _ =>
    settles_bind (settles_mark n c) (advances_mark c).forward fun _ =>
      settles_bind (settles_blanks n) forward_blanks fun _ => settles_pure n _

theorem advances_affixMark : Advances affixMark :=
  advances_expecting _ (advances_bind (advances_satisfying _) fun _ => forward_pure _)

theorem settles_affixMark (n : Nat) : Settles n affixMark :=
  settles_expecting _ (settles_bind (settles_satisfying n _) (advances_satisfying _).forward
    fun _ => settles_pure n _)

theorem advances_shortMark : Advances shortMark :=
  advances_bind (advances_satisfying _) fun _ => forward_pure _

theorem settles_shortMark (n : Nat) : Settles n shortMark :=
  settles_bind (settles_satisfying n _) (advances_satisfying _).forward fun _ => settles_pure n _

theorem advances_pair {p q : Production Tree} (hp : Advances p) (hq : Forward q) :
    Advances (pair p q) :=
  advances_bind hp fun _ => forward_bind hq fun _ => forward_pure _

theorem settles_pair {n : Nat} {p q : Production Tree} (hp : Settles n p) (hforward : Forward p)
    (hq : Settles n q) (hforward' : Forward q) : Settles n (pair p q) :=
  settles_bind hp hforward fun _ => settles_bind hq hforward' fun _ => settles_pure n _

/-- A list takes a character if its parts do. -/
theorem advances_separated (c : Char) {p : Production Tree} (hp : Advances p) :
    Advances (separated c p) :=
  advances_bind hp fun _ =>
    forward_bind (forward_many (advances_pair (advances_separator c) hp.forward).forward)
      fun _ => forward_pure _

theorem settles_separated {n : Nat} (c : Char) {p : Production Tree} (hp : Settles n p)
    (hadvances : Advances p) : Settles n (separated c p) := by
  have hpair := advances_pair (advances_separator c) hadvances.forward
  have hsettles := settles_pair (settles_separator n c) (advances_separator c).forward hp
    hadvances.forward
  exact settles_bind hp hadvances.forward fun _ =>
    settles_bind (settles_many hsettles hpair) (forward_many hpair.forward) fun _ =>
      settles_pure n _

theorem settles_parenthesised {n : Nat} {p : Production Tree} (hp : Settles n p)
    (hforward : Forward p) : Settles n (parenthesised p) :=
  settles_bind (settles_mark n _) (advances_mark _).forward fun _ =>
    settles_bind hp hforward fun _ =>
      settles_bind (settles_mark n _) (advances_mark _).forward fun _ => settles_pure n _

/-! ### Segments -/

theorem advances_postfixes : Advances postfixes :=
  advances_bind (advances_many1 (advances_pair advances_affixMark advances_letters.forward))
    fun _ => forward_pure _

theorem settles_postfixes (n : Nat) : Settles n postfixes := by
  have hpair := advances_pair advances_affixMark advances_letters.forward
  have hsettles := settles_pair (settles_affixMark n) advances_affixMark.forward
    (settles_letters n) advances_letters.forward
  exact settles_bind (settles_many1 hsettles hpair) (advances_many1 hpair).forward fun _ =>
    settles_pure n _

theorem advances_prefixes : Advances prefixes :=
  advances_bind (advances_many1 (advances_pair advances_letters advances_affixMark.forward))
    fun _ => forward_bind (forward_optionally advances_postfixes.forward) fun _ => forward_pure _

theorem settles_prefixes (n : Nat) : Settles n prefixes := by
  have hpair := advances_pair advances_letters advances_affixMark.forward
  have hsettles := settles_pair (settles_letters n) advances_letters.forward
    (settles_affixMark n) advances_affixMark.forward
  exact settles_bind (settles_many1 hsettles hpair) (advances_many1 hpair).forward fun _ =>
    settles_bind (settles_optionally (settles_postfixes n))
      (forward_optionally advances_postfixes.forward) fun _ => settles_pure n _

theorem advances_circumfix : Advances circumfix :=
  advances_bind advances_letters fun _ => forward_bind advances_affixMark.forward fun _ =>
    forward_bind advances_letters.forward fun _ => forward_pure _

theorem settles_circumfix (n : Nat) : Settles n circumfix :=
  settles_bind (settles_letters n) advances_letters.forward fun _ =>
    settles_bind (settles_affixMark n) advances_affixMark.forward fun _ =>
      settles_bind (settles_letters n) advances_letters.forward fun _ => settles_pure n _

theorem advances_interfix : Advances interfix :=
  advances_bind (advances_satisfying _) fun _ => forward_bind advances_letters.forward fun _ =>
    forward_bind (advances_mark _).forward fun _ => forward_pure _

theorem settles_interfix (n : Nat) : Settles n interfix :=
  settles_bind (settles_satisfying n _) (advances_satisfying _).forward fun _ =>
    settles_bind (settles_letters n) advances_letters.forward fun _ =>
      settles_bind (settles_mark n _) (advances_mark _).forward fun _ => settles_pure n _

theorem advances_edgeSegment : Advances edgeSegment :=
  advances_orElse advances_circumfix (advances_orElse advances_prefixes advances_postfixes)

theorem settles_edgeSegment (n : Nat) : Settles n edgeSegment :=
  settles_orElse (settles_circumfix n) (settles_orElse (settles_prefixes n) (settles_postfixes n))

theorem advances_segment : Advances segment :=
  advances_bind (advances_expecting _ (advances_orElse advances_interfix advances_edgeSegment))
    fun _ => forward_pure _

theorem settles_segment (n : Nat) : Settles n segment :=
  settles_bind (settles_expecting _ (settles_orElse (settles_interfix n) (settles_edgeSegment n)))
    (advances_expecting _ (advances_orElse advances_interfix advances_edgeSegment)).forward
    fun _ => settles_pure n _

/-! ### Conditionals -/

theorem advances_startTest : Advances startTest :=
  advances_bind advances_letters fun _ => forward_bind (advances_mark _).forward fun _ =>
    forward_pure _

theorem settles_startTest (n : Nat) : Settles n startTest :=
  settles_bind (settles_letters n) advances_letters.forward fun _ =>
    settles_bind (settles_mark n _) (advances_mark _).forward fun _ => settles_pure n _

theorem advances_finalTest : Advances finalTest :=
  advances_bind (advances_mark _) fun _ => forward_bind advances_letters.forward fun _ =>
    forward_pure _

theorem settles_finalTest (n : Nat) : Settles n finalTest :=
  settles_bind (settles_mark n _) (advances_mark _).forward fun _ =>
    settles_bind (settles_letters n) advances_letters.forward fun _ => settles_pure n _

theorem advances_test : Advances test :=
  advances_bind_right (forward_optionally (advances_mark _).forward) fun _ =>
    advances_bind (advances_orElse advances_startTest advances_finalTest) fun _ => forward_pure _

theorem settles_test (n : Nat) : Settles n test :=
  settles_bind (settles_optionally (settles_mark n _))
    (forward_optionally (advances_mark _).forward) fun _ =>
    settles_bind (settles_orElse (settles_startTest n) (settles_finalTest n))
      (advances_orElse advances_startTest advances_finalTest).forward fun _ => settles_pure n _

theorem advances_condition : Advances condition :=
  advances_bind (advances_separated _ advances_test) fun _ => forward_pure _

theorem settles_condition (n : Nat) : Settles n condition :=
  settles_bind (settles_separated _ (settles_test n) advances_test)
    (advances_separated _ advances_test).forward fun _ => settles_pure n _

theorem advances_branch : Advances branch :=
  advances_bind (advances_orElse advances_edgeSegment advances_shortMark) fun _ => forward_pure _

theorem settles_branch (n : Nat) : Settles n branch :=
  settles_bind (settles_orElse (settles_edgeSegment n) (settles_shortMark n))
    (advances_orElse advances_edgeSegment advances_shortMark).forward fun _ => settles_pure n _

theorem advances_elseBranch : Advances elseBranch :=
  advances_bind (advances_separator _) fun _ => advances_branch.forward

theorem settles_elseBranch (n : Nat) : Settles n elseBranch :=
  settles_bind (settles_separator n _) (advances_separator _).forward fun _ => settles_branch n

theorem advances_conditionalMet : Advances conditionalMet := by
  refine advances_bind advances_condition fun _ =>
    forward_bind (advances_separator _).forward fun _ =>
      forward_bind advances_branch.forward fun _ =>
        forward_bind (forward_optionally advances_elseBranch.forward) fun unmet => ?_
  cases unmet <;> exact forward_pure _

theorem settles_conditionalMet (n : Nat) : Settles n conditionalMet := by
  refine settles_bind (settles_condition n) advances_condition.forward fun _ =>
    settles_bind (settles_separator n _) (advances_separator _).forward fun _ =>
      settles_bind (settles_branch n) advances_branch.forward fun _ =>
        settles_bind (settles_optionally (settles_elseBranch n))
          (forward_optionally advances_elseBranch.forward) fun unmet => ?_
  cases unmet <;> exact settles_pure n _

theorem advances_conditionalUnmet : Advances conditionalUnmet :=
  advances_bind advances_condition fun _ =>
    forward_bind (advances_separator _).forward fun _ =>
      forward_bind (advances_separator _).forward fun _ =>
        forward_bind advances_branch.forward fun _ => forward_pure _

theorem settles_conditionalUnmet (n : Nat) : Settles n conditionalUnmet :=
  settles_bind (settles_condition n) advances_condition.forward fun _ =>
    settles_bind (settles_separator n _) (advances_separator _).forward fun _ =>
      settles_bind (settles_separator n _) (advances_separator _).forward fun _ =>
        settles_bind (settles_branch n) advances_branch.forward fun _ => settles_pure n _

theorem advances_conditional : Advances conditional :=
  advances_orElse advances_conditionalMet advances_conditionalUnmet

theorem settles_conditional (n : Nat) : Settles n conditional :=
  settles_orElse (settles_conditionalMet n) (settles_conditionalUnmet n)

/-! ### Groups and rules -/

theorem advances_item : Advances item :=
  advances_bind (advances_orElse advances_conditional advances_segment) fun _ => forward_pure _

theorem settles_item (n : Nat) : Settles n item :=
  settles_bind (settles_orElse (settles_conditional n) (settles_segment n))
    (advances_orElse advances_conditional advances_segment).forward fun _ => settles_pure n _

theorem advances_group : Advances group :=
  advances_bind (advances_separated _
    (advances_orElse advances_item (advances_parenthesised advances_item.forward)))
    fun _ => forward_pure _

theorem settles_group (n : Nat) : Settles n group := by
  have hpart := advances_orElse advances_item (advances_parenthesised advances_item.forward)
  exact settles_bind (settles_separated _ (settles_orElse (settles_item n)
    (settles_parenthesised (settles_item n) advances_item.forward)) hpart)
    (advances_separated _ hpart).forward fun _ => settles_pure n _

theorem advances_stages : Advances stages :=
  advances_bind (advances_separated _
    (advances_orElse advances_group (advances_parenthesised advances_group.forward)))
    fun _ => forward_pure _

theorem settles_stages (n : Nat) : Settles n stages := by
  have hpart := advances_orElse advances_group (advances_parenthesised advances_group.forward)
  exact settles_bind (settles_separated _ (settles_orElse (settles_group n)
    (settles_parenthesised (settles_group n) advances_group.forward)) hpart)
    (advances_separated _ hpart).forward fun _ => settles_pure n _

theorem advances_context : Advances context :=
  advances_bind (advances_separator _) fun _ => forward_pure _

theorem settles_context (n : Nat) : Settles n context :=
  settles_bind (settles_separator n _) (advances_separator _).forward fun _ => settles_pure n _

theorem advances_rule : Advances rule := by
  refine advances_bind_right forward_blanks fun _ =>
    advances_bind_right (forward_optionally advances_context.forward) fun before =>
      advances_bind advances_stages fun _ => forward_bind forward_blanks fun _ => ?_
  cases before <;> exact forward_pure _

theorem settles_rule (n : Nat) : Settles n rule := by
  refine settles_bind (settles_blanks n) forward_blanks fun _ =>
    settles_bind (settles_optionally (settles_context n))
      (forward_optionally advances_context.forward) fun before =>
      settles_bind (settles_stages n) advances_stages.forward fun _ =>
        settles_bind (settles_blanks n) forward_blanks fun _ => ?_
  cases before <;> exact settles_pure n _

end Grammar

end WordFormation.RuleText
