/-
  WordFormation/Proofs/RuleText/ErrorPlaces.lean
  ==============================================
  **Where a text stops being a rule it can be cut.**

  What follows the place of an error is an end of the text, so the offset of the error
  is between two characters.  If a rule was found and something is left over behind it,
  the text in front of the error is a rule with the same tree (`parse_error_place`):
  nothing in the grammar that was tried on the whole text and failed succeeds where the
  rest is missing.  This is gone through here for every part of the grammar.  Letters
  are over in front of an affix mark, a condition in front of its `?`, and in front of a
  closing parenthesis there is balanced text.
-/
import WordFormation.Proofs.RuleText.Cutting
import WordFormation.Proofs.RuleText.Writing

namespace WordFormation.RuleText

open Production Grammar

namespace Grammar

/-! ### What is never taken -/

section Outside

variable {test : Char → Bool}

/-- Nothing that letters are written with passes the test. -/
structure IsOutside (test : Char → Bool) : Prop where
  letter : ∀ c, isLetter c = true → test c = false
  opening : test '(' = false
  closing : test ')' = false
  caret : test '^' = false

variable (h : IsOutside test)
include h

theorem avoids_letterRun : Avoids test letterRun := by
  refine avoids_bind ?_ fun taken => ?_
  · refine (consumes_run isLetter).mono ?_
    rintro used taken ⟨rfl, -, hletters⟩ c hc
    exact h.letter c (hletters c hc)
  refine avoids_bind (avoids_optionally (avoids_mark h.caret)) fun optional => ?_
  cases optional with
  | none => exact avoids_pure _
  | some c => exact avoids_pure _

theorem avoids_letterParens {inner : Production Tree} (hinner : Avoids test inner) :
    Avoids test (letterParens inner) := by
  have hparens : Avoids test (parenthesised inner) :=
    avoids_bind (avoids_mark h.opening) fun _ => avoids_bind hinner fun _ =>
      avoids_bind (avoids_mark h.closing) fun _ => avoids_pure _
  refine avoids_bind hparens fun group => ?_
  refine avoids_bind (avoids_optionally (avoids_mark h.caret)) fun optional => ?_
  cases optional with
  | none => exact avoids_pure _
  | some c => exact avoids_pure _

theorem avoids_letters : Avoids test letters :=
  consumes_letters_of_around fun _ hinner =>
    avoids_bind (consumes_expecting (avoids_many1
      (consumes_orElse (avoids_letterRun h) (avoids_letterParens h hinner)))) fun _ => avoids_pure _

end Outside

theorem isOutside_isAffixMark : IsOutside isAffixMark :=
  ⟨fun _ => isAffixMark_of_isLetter, rfl, rfl, rfl⟩

theorem isOutside_eq {c : Char} (h : isLetter c = false) (hopening : ('(' == c) = false)
    (hclosing : (')' == c) = false) (hcaret : ('^' == c) = false) : IsOutside (· == c) :=
  ⟨fun _ hd => beq_eq_false_iff_ne.mpr (ne_of_isLetter hd h), hopening, hclosing, hcaret⟩

/-- A condition is over where the question is asked. -/
theorem avoids_condition : Avoids (· == '?') condition := by
  have hletters : Avoids (· == '?') letters :=
    avoids_letters (isOutside_eq (by decide) (by decide) (by decide) (by decide))
  have hstart : Avoids (· == '?') startTest :=
    avoids_bind hletters fun _ => avoids_bind (avoids_mark (by decide)) fun _ => avoids_pure _
  have hfinal : Avoids (· == '?') finalTest :=
    avoids_bind (avoids_mark (by decide)) fun _ => avoids_bind hletters fun _ => avoids_pure _
  have htest : Avoids (· == '?') test :=
    avoids_bind (avoids_optionally (avoids_mark (by decide))) fun _ =>
      avoids_bind (consumes_orElse hstart hfinal) fun _ => avoids_pure _
  have hblanks : Avoids (· == '?') blanks := by
    refine (consumes_skip isBlank).mono fun used _ hblank c hc => ?_
    refine beq_eq_false_iff_ne.mpr ?_
    rintro rfl
    exact absurd (hblank '?' hc) (by decide)
  have hbar : Avoids (· == '?') (separator '|') :=
    avoids_bind hblanks fun _ => avoids_bind (avoids_mark (by decide)) fun _ =>
      avoids_bind hblanks fun _ => avoids_pure _
  have hpair : Avoids (· == '?') (pair (separator '|') test) :=
    avoids_bind hbar fun _ => avoids_bind htest fun _ => avoids_pure _
  exact avoids_bind (avoids_bind htest fun _ => avoids_bind (avoids_many hpair) fun _ =>
    avoids_pure _) fun _ => avoids_pure _

/-! ### Separators, marks and parentheses -/

theorem steady_blanks : Steady blanks := steady_skip isBlank

theorem steady_separator (c : Char) : Steady (separator c) := by
  refine steady_bind steady_blanks (fun _ => ?_) (blocks_of_spends (spends_skip _) fun _ => ?_)
  · refine steady_bind (steady_mark c) (fun d => ?_) (blocks_of_neverFails fun d => ?_)
    · exact steady_bind_pure steady_blanks _
    · exact neverFails_bind (neverFails_skip _) fun _ => neverFails_pure _
  · exact advances_bind (advances_mark c) fun _ =>
      forward_bind forward_blanks fun _ => forward_pure _

theorem spends_separator (c : Char) : Spends (separator c) := by
  have hafter (d : Char) : Spends (do let _ ← blanks; return (Tree.leaf [d])) :=
    spends_bind steady_blanks (spends_skip _) (fun _ => forward_pure _) fun _ => spends_pure _
  have hforward (d : Char) : Forward (do let _ ← blanks; return (Tree.leaf [d])) :=
    forward_bind forward_blanks fun _ => forward_pure _
  exact spends_bind steady_blanks (spends_skip _)
    (fun _ => forward_bind (advances_mark c).forward hforward) fun _ =>
      spends_bind (steady_mark c) (spends_satisfying _) hforward hafter

/-- Behind a separator the text goes on. -/
theorem blocks_separator (c : Char) {α : Type} {f : Tree → Production α}
    (hf : ∀ t, Advances (f t)) : Blocks (separator c) f :=
  blocks_of_spends (spends_separator c) hf

theorem steady_affixMark : Steady affixMark :=
  steady_expecting _ (steady_bind_pure (steady_satisfying _) _)

theorem spends_affixMark : Spends affixMark :=
  spends_expecting _ (spends_bind (steady_satisfying _) (spends_satisfying _)
    (fun _ => forward_pure _) fun _ => spends_pure _)

theorem steady_shortMark : Steady shortMark := steady_bind_pure (steady_satisfying _) _

theorem steady_pair {p q : Production Tree} (hp : Steady p) (hq : Steady q)
    (hblocks : Blocks p fun first => q >>= fun second => pure [first, second]) :
    Steady (pair p q) :=
  steady_bind hp (fun _ => steady_bind_pure hq _) hblocks

theorem steady_separated (c : Char) {part : Production Tree} (hpart : Steady part)
    (hadvances : Advances part) : Steady (separated c part) := by
  have hpair : Steady (pair (separator c) part) := by
    refine steady_pair (steady_separator c) hpart (blocks_separator c fun _ => ?_)
    exact advances_bind hadvances fun _ => forward_pure _
  refine steady_bind hpart (fun _ => ?_) (blocks_of_neverFails fun _ => ?_)
  · exact steady_bind_pure (steady_many hpair) _
  · exact neverFails_bind (neverFails_many _) fun _ => neverFails_pure _

theorem steady_parenthesised {part : Production Tree} (hpart : Steady part)
    (hbalances : Balances part) : Steady (parenthesised part) := by
  refine steady_bind (steady_mark '(') (fun _ => ?_) (blocks_satisfying _ _)
  refine steady_bind hpart (fun _ => ?_) (blocks_of_balances hbalances fun _ w hw => ?_)
  · exact steady_bind_pure (steady_mark ')') _
  · apply refuses_bind
    intro c rest h
    obtain ⟨rfl, hc⟩ := satisfying_eq_matched h
    obtain rfl : c = ')' := eq_of_beq hc
    exact hw rfl

/-! ### Letters -/

theorem steady_letterRun : Steady letterRun := by
  refine steady_bind_optionally (steady_run isLetter) (steady_mark '^') fun taken optional => ?_
  cases optional with
  | none => exact ⟨_, rfl⟩
  | some c => exact ⟨_, rfl⟩

theorem steady_letterParens {inner : Production Tree} (hinner : Steady inner)
    (hbalances : Balances inner) : Steady (letterParens inner) := by
  refine steady_bind_optionally (steady_parenthesised hinner hbalances) (steady_mark '^')
    fun group optional => ?_
  cases optional with
  | none => exact ⟨_, rfl⟩
  | some c => exact ⟨_, rfl⟩

theorem steady_lettersAround {inner : Production Tree} (hinner : Steady inner)
    (hbalances : Balances inner) : Steady (lettersAround inner) := by
  have hpart := steady_orElse steady_letterRun (steady_letterParens hinner hbalances)
  exact steady_bind_pure (steady_expecting _ (steady_many1 hpart)) _

theorem steady_lettersWithin (depth : Nat) : Steady (lettersWithin depth) := by
  induction depth with
  | zero =>
    refine steady_lettersAround steady_stalled ?_
    intro s v rest h
    cases h
  | succ depth ih => exact steady_lettersAround ih (balances_lettersWithin depth)

/-- A depth that is enough for the whole text is enough for the shorter one. -/
theorem steady_letters : Steady letters where
  forward := advances_letters.forward
  inside := fun s => (steady_lettersWithin s.length).inside s
  cut := by
    intro s tail
    have hcut := (steady_lettersWithin (s ++ tail).length).cut s tail
    have hs : s.length ≤ (s ++ tail).length := by
      rw [List.length_append]
      omega
    rw [lettersWithin_eq_letters (Nat.le_refl _), lettersWithin_eq_letters hs] at hcut
    exact hcut

/-! ### Segments -/

/-- Letters are over where an affix mark stands. -/
theorem blocks_letters {α : Type} {f : Tree → Production α}
    (hf : ∀ t w, Stops isAffixMark w → Refuses (f t) w) : Blocks letters f := by
  refine blocks_of_avoids (avoids_letters isOutside_isAffixMark) fun t w hw => hf t w ?_
  intro c hc
  exact hw c (List.mem_of_head? hc)

theorem refuses_satisfying {test : Char → Bool} {s : Word} (h : Stops test s) :
    Refuses (satisfying test) s := by
  intro c rest hmatched
  obtain ⟨rfl, hc⟩ := satisfying_eq_matched hmatched
  rw [h c rfl] at hc
  cases hc

theorem refuses_affixMark {s : Word} (h : Stops isAffixMark s) : Refuses affixMark s := by
  intro t rest hmatched
  exact refuses_bind _ (refuses_satisfying h) t rest (expecting_eq_matched hmatched)

theorem refuses_mark {c : Char} (hc : isAffixMark c = true) {s : Word} (h : Stops isAffixMark s) :
    Refuses (mark c) s := by
  apply refuses_satisfying
  intro d hd
  refine beq_eq_false_iff_ne.mpr ?_
  rintro rfl
  rw [h d hd] at hc
  cases hc

theorem steady_postfixes : Steady postfixes := by
  have hlink : Steady (pair affixMark letters) := by
    refine steady_pair steady_affixMark steady_letters
      (blocks_of_spends spends_affixMark fun _ => ?_)
    exact advances_bind advances_letters fun _ => forward_pure _
  exact steady_bind_pure (steady_many1 hlink) _

theorem steady_prefixes : Steady prefixes := by
  have hlink : Steady (pair letters affixMark) :=
    steady_pair steady_letters steady_affixMark
      (blocks_letters fun _ _ hw => refuses_bind _ (refuses_affixMark hw))
  exact steady_bind_optionally (steady_many1 hlink) steady_postfixes fun _ _ => ⟨_, rfl⟩

theorem steady_circumfix : Steady circumfix := by
  refine steady_bind steady_letters (fun _ => ?_)
    (blocks_letters fun _ _ hw => refuses_bind _ (refuses_affixMark hw))
  refine steady_bind steady_affixMark (fun _ => ?_) (blocks_of_spends spends_affixMark fun _ => ?_)
  · exact steady_bind_pure steady_letters _
  · exact advances_bind advances_letters fun _ => forward_pure _

/-- The mark that closes an interfix is the one that opened it, hence an affix mark. -/
theorem steady_interfix : Steady interfix := by
  refine steady_bind_of_matched (steady_satisfying isAffixMark) (fun s opening r hopening => ?_)
    (blocks_satisfying _ _)
  obtain ⟨-, hmark⟩ := satisfying_eq_matched hopening
  refine steady_bind steady_letters (fun _ => ?_)
    (blocks_letters fun _ _ hw => refuses_bind _ (refuses_mark hmark hw))
  exact steady_bind_pure (steady_mark opening) _

theorem steady_edgeSegment : Steady edgeSegment :=
  steady_orElse steady_circumfix (steady_orElse steady_prefixes steady_postfixes)

theorem steady_segment : Steady segment :=
  steady_bind_pure (steady_expecting _ (steady_orElse steady_interfix steady_edgeSegment)) _

/-! ### Conditionals -/

theorem steady_startTest : Steady startTest := by
  refine steady_bind steady_letters (fun _ => ?_)
    (blocks_letters fun _ _ hw => refuses_bind _ (refuses_mark rfl hw))
  exact steady_bind_pure (steady_mark '-') _

theorem steady_finalTest : Steady finalTest := by
  refine steady_bind (steady_mark '-') (fun _ => ?_) (blocks_satisfying _ _)
  exact steady_bind_pure steady_letters _

theorem steady_test : Steady test := by
  have hbody := steady_orElse steady_startTest steady_finalTest
  refine steady_bind (steady_optionally (steady_mark '~')) (fun _ => ?_)
    (blocks_of_spends (spends_optionally_satisfying _) fun _ => ?_)
  · exact steady_bind_pure hbody _
  · exact advances_bind (advances_orElse advances_startTest advances_finalTest) fun _ =>
      forward_pure _

theorem steady_condition : Steady condition :=
  steady_bind_pure (steady_separated '|' steady_test advances_test) _

theorem steady_branch : Steady branch :=
  steady_bind_pure (steady_orElse steady_edgeSegment steady_shortMark) _

theorem steady_elseBranch : Steady elseBranch :=
  steady_bind (steady_separator ':') (fun _ => steady_branch)
    (blocks_separator ':' fun _ => advances_branch)

/-- No question is asked in what is left of a condition that is cut. -/
theorem blocks_condition {α : Type} (f : Tree → Tree → Production α) :
    Blocks condition fun asked => separator '?' >>= f asked := by
  refine blocks_of_avoids avoids_condition fun asked w hw => refuses_bind _ ?_
  intro t rest h
  obtain ⟨used, rfl, -, before, after, rfl, -⟩ := consumes_separator_blanks '?' w t rest h
  exact absurd (hw '?' (by simp)) (by decide)

theorem steady_conditionalMet : Steady conditionalMet := by
  refine steady_bind steady_condition (fun asked => ?_) (blocks_condition _)
  refine steady_bind (steady_separator '?') (fun question => ?_)
    (blocks_separator '?' fun question => ?_)
  · refine steady_bind_optionally steady_branch steady_elseBranch fun met unmet => ?_
    cases unmet with
    | none => exact ⟨_, rfl⟩
    | some unmet => exact ⟨_, rfl⟩
  · refine advances_bind advances_branch fun met => ?_
    refine forward_bind (forward_optionally advances_elseBranch.forward) fun unmet => ?_
    cases unmet with
    | none => exact forward_pure _
    | some unmet => exact forward_pure _

theorem steady_conditionalUnmet : Steady conditionalUnmet := by
  refine steady_bind steady_condition (fun asked => ?_) (blocks_condition _)
  refine steady_bind (steady_separator '?') (fun question => ?_)
    (blocks_separator '?' fun question => ?_)
  · refine steady_bind (steady_separator ':') (fun colon => ?_)
      (blocks_separator ':' fun colon => ?_)
    · exact steady_bind_pure steady_branch _
    · exact advances_bind advances_branch fun _ => forward_pure _
  · refine advances_bind (advances_separator ':') fun colon => ?_
    exact forward_bind advances_branch.forward fun _ => forward_pure _

theorem steady_conditional : Steady conditional :=
  steady_orElse steady_conditionalMet steady_conditionalUnmet

/-! ### Groups and rules -/

theorem steady_item : Steady item :=
  steady_bind_pure (steady_orElse steady_conditional steady_segment) _

theorem steady_group : Steady group := by
  have hpart := steady_orElse steady_item (steady_parenthesised steady_item balances_item)
  have hadvances := advances_orElse advances_item (advances_parenthesised advances_item.forward)
  exact steady_bind_pure (steady_separated ',' hpart hadvances) _

theorem steady_stages : Steady stages := by
  have hpart := steady_orElse steady_group (steady_parenthesised steady_group balances_group)
  have hadvances := advances_orElse advances_group (advances_parenthesised advances_group.forward)
  exact steady_bind_pure (steady_separated ';' hpart hadvances) _

theorem steady_context : Steady context := steady_bind_pure (steady_separator '@') _

theorem failsInside_rule : FailsInside rule := by
  refine failsInside_bind steady_blanks.inside forward_blanks fun _ => ?_
  have hcontext := steady_optionally steady_context
  refine failsInside_bind hcontext.inside hcontext.forward fun before => ?_
  refine failsInside_bind steady_stages.inside advances_stages.forward fun body => ?_
  refine failsInside_bind steady_blanks.inside forward_blanks fun _ => ?_
  cases before with
  | none => exact (steady_pure _).inside
  | some before => exact (steady_pure _).inside

theorem keepsMatches_rule : KeepsMatches rule := by
  -- what is built at the end depends on whether there is a context
  have hwhole {last : Option Tree → Tree → Production Tree}
      (hlast : ∀ before body, Steady (last before body)) : KeepsMatches (do
        blanks
        let before ← optionally context
        let body ← stages
        last before body) := by
    have hforward (before : Option Tree) := forward_bind advances_stages.forward fun body =>
      (hlast before body).forward
    refine keepsMatches_bind steady_blanks.keepsMatches (fun _ => ?_) fun _ => ?_
    · exact forward_bind (forward_optionally advances_context.forward) hforward
    refine keepsMatches_bind (steady_optionally steady_context).keepsMatches hforward
      fun before => ?_
    exact keepsMatches_bind steady_stages.keepsMatches (fun body => (hlast before body).forward)
      fun body => (hlast before body).keepsMatches
  apply hwhole
  intro before body
  cases before with
  | none => exact steady_bind_pure steady_blanks _
  | some before => exact steady_bind_pure steady_blanks _

end Grammar

/-! ### Errors -/

theorem tooDeep?_suffix {depth : Nat} {w rest : Word} (h : tooDeep? depth w = some rest) :
    rest <:+ w := by
  induction w generalizing depth with
  | nil => cases h
  | cons c w ih =>
    unfold tooDeep? at h
    split at h
    · split at h
      · cases h
        exact List.suffix_refl _
      · exact (ih h).trans (List.suffix_cons c w)
    · split at h
      · exact (ih h).trans (List.suffix_cons c w)
      · exact (ih h).trans (List.suffix_cons c w)

/-- Reading stops somewhere in the text. -/
theorem exists_front_of_parse_error {text : Word} {e : ParseError} (h : parse text = .error e) :
    ∃ front, e.text = text ∧ text = front ++ e.rest ∧ e.offset = front.byteSize := by
  have hplace : e.text = text ∧ e.rest <:+ text := by
    unfold parse parseAnyDepth at h
    split at h
    · next rest hdeep =>
      cases h
      exact ⟨rfl, tooDeep?_suffix hdeep⟩
    · split at h
      · cases h
      · next tree rest hrest hrule =>
        cases h
        exact ⟨rfl, advances_rule.forward text tree _ hrule⟩
      · next rest es hrule =>
        cases h
        exact ⟨rfl, failsInside_rule text rest es hrule⟩
      · cases h
        exact ⟨rfl, List.suffix_refl text⟩
  obtain ⟨rfl, front, hfront⟩ := hplace
  refine ⟨front, rfl, hfront.symm, ?_⟩
  rw [ParseError.offset, ← hfront, Word.byteSize_append, Nat.add_sub_cancel]

/-- A rule that leaves something over is found again where this is cut off. -/
theorem parse_front_of_rule {front rest : Word} {tree : Tree}
    (hshallow : tooDeep? 0 (front ++ rest) = none)
    (hrule : rule (front ++ rest) = .matched tree rest) : parse front = .ok tree := by
  refine parse_eq_ok.mpr ⟨(tooDeep?_append_eq_none.mp hshallow).1, ?_⟩
  rcases keepsMatches_rule front rest tree [] hrule with hfront | hstalled
  · exact hfront
  · exact absurd hstalled (settles_rule front.length front (Nat.le_refl _))

/-- **The text can be cut where an error is reported.**  The offset of the error is in the
    text and not inside a character.  Where a rule was found that is not all of the text,
    the text up to the offset is that rule, with the same tree. -/
theorem parse_error_place {text : Word} {e : ParseError} (h : parse text = .error e) :
    e.offset ≤ text.byteSize ∧ text.IsBoundary e.offset ∧
      ∀ tree rest, tooDeep? 0 text = none → rule text = .matched tree rest →
        e.cause = .leftover ∧ ∃ front, text = front ++ rest ∧ rest ≠ [] ∧
          text.cutAt? e.offset = some (front, rest) ∧ parse front = .ok tree := by
  obtain ⟨front, -, htext, hoffset⟩ := exists_front_of_parse_error h
  refine ⟨?_, ⟨front, e.rest, htext, hoffset.symm⟩, ?_⟩
  · rw [hoffset, htext, Word.byteSize_append]
    exact Nat.le_add_right _ _
  intro tree rest hshallow hrule
  obtain ⟨rfl, hrest, hcause⟩ : e.rest = rest ∧ rest ≠ [] ∧ e.cause = .leftover := by
    unfold parse parseAnyDepth at h
    rw [hshallow, hrule] at h
    cases rest with
    | nil => cases h
    | cons c rest =>
      cases h
      exact ⟨rfl, List.cons_ne_nil c rest, rfl⟩
  refine ⟨hcause, front, htext, hrest, ?_, ?_⟩
  · rw [hoffset, htext]
    exact Word.cutAt?_byteSize front e.rest
  · rw [htext] at hshallow hrule
    exact parse_front_of_rule hshallow hrule

/-- A conditional, behind which parentheses are opened in front of a character of two
    bytes. -/
def unclosedText : Word := "a-?+b(é".toList

theorem parse_error_place_unclosedText :
    ∃ e, parse unclosedText = .error e ∧ e.offset ≤ unclosedText.byteSize ∧
      unclosedText.IsBoundary e.offset ∧ e.offset = 5 ∧
        ∃ tree, unclosedText.cutAt? e.offset = some ("a-?+b".toList, "(é".toList) ∧
          rule unclosedText = .matched tree "(é".toList ∧ parse "a-?+b".toList = .ok tree := by
  have hshallow : tooDeep? 0 unclosedText = none := by decide
  have hleaves : (match rule unclosedText with
      | .matched _ rest => rest == "(é".toList
      | _ => false) = true := by decide +kernel
  cases hrule : rule unclosedText with
  | failed rest es =>
    rw [hrule] at hleaves
    cases hleaves
  | stalled =>
    rw [hrule] at hleaves
    cases hleaves
  | matched tree rest =>
    rw [hrule] at hleaves
    obtain rfl : rest = "(é".toList := eq_of_beq hleaves
    have herror : parse unclosedText = .error ⟨unclosedText, "(é".toList, .leftover⟩ := by
      unfold parse parseAnyDepth
      rw [hshallow, hrule]
      rfl
    obtain ⟨hbound, hboundary, hleftover⟩ := parse_error_place herror
    obtain ⟨-, front, htext, -, hcut, hfront⟩ := hleftover tree _ hshallow hrule
    obtain rfl : front = "a-?+b".toList := List.append_cancel_right htext.symm
    exact ⟨_, herror, hbound, hboundary, by decide, tree, hcut, rfl, hfront⟩

end WordFormation.RuleText
