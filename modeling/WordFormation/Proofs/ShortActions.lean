/-
  WordFormation/Proofs/ShortActions.lean
  ======================================
  **A polarity alone acts on what its condition has seen.**

  In the branch for yes, a polarity stands for an affix with the letters of the test
  that decided.  Which test this is, is found out twice: the condition looks for the
  first test that holds, and the choice that the branch was made into asks the tests
  one by one, each as a condition of its own.  A third time the affix itself asks
  whether its letters are there.  All three ask the same of the same word, whether a
  form with letters stands at the edge of the test (`holds_ne_negated_iff`), and so the
  rule is the affix of the deciding test and nothing else (`apply_shortRule`).

  What a test has found is the longest form at its edge, and this is what removing and
  toggling take off (`IsLongestOn`).  A negated test has found nothing: there is nothing
  to remove, and toggling puts letters on.
-/
import WordFormation.Proofs.Detection
import WordFormation.Proofs.EdgeLetters
import WordFormation.Proofs.EdgeMorphemes
import WordFormation.Rule

namespace WordFormation

/-! ### Morphemes on a single word -/

namespace Morpheme

theorem apply_identity (w : Word) : Morpheme.identity.apply w = .ok w := by
  rw [apply, applyStems, applyObserving]
  exact congrArg Except.ok (List.append_nil w)

theorem apply_affix {x : Affix} {edge : Edge} (h : x.place = edge.position) (w : Word) :
    (Morpheme.affix x).apply w = x.apply w := by
  rw [apply, applyStems, applyObserving, h, onEdgeStem_singleton]
  show Except.map List.flatten (x.apply w >>= fun changed => .ok [changed]) = x.apply w
  cases x.apply w with
  | error failure => rfl
  | ok changed => exact congrArg Except.ok (List.append_nil changed)

theorem apply_conditional (condition : EdgeCondition) (met unmet : Morpheme) (w : Word) :
    (Morpheme.conditional condition met unmet).apply w =
      if condition.holds w then met.apply w else unmet.apply w := by
  have hflatten : [w].flatten = w := List.append_nil w
  unfold apply applyStems
  rw [applyObserving, hflatten]
  split
  · rfl
  · rfl

end Morpheme

section Single

variable {r : Rule} {m : Morpheme} (h : r.stages = [[m]])
include h

/-- A rule of one stage of one morpheme is this morpheme. -/
theorem Rule.applyCompound_of_stages_singleton {stems : List Word} (hne : stems ≠ []) :
    r.applyCompound stems = m.applyStems stems := by
  rw [applyCompound, if_neg (by simpa using hne), h, Morpheme.applyStems]
  simp only [runStages, runStage, Morpheme.applyEach]
  cases m.applyObserving stems stems with
  | error failure => rfl
  | ok changed => rfl

theorem Rule.apply_of_stages_singleton (w : Word) : r.apply w = m.apply w :=
  congrArg (Except.map List.flatten)
    (applyCompound_of_stages_singleton h (List.cons_ne_nil w []))

end Single

/-! ### The test that decides -/

/-- A condition of one test holds where the test does. -/
theorem EdgeCondition.holds_singleton (t : EdgeTest) (w : Word) :
    EdgeCondition.holds ⟨[t]⟩ w = t.holds w := by
  rw [holds, firstMatch, List.find?_cons]
  cases t.holds w with
  | true => rfl
  | false => rfl

/-- Of affixes that have a test each, the one acts whose test is the first to hold. -/
theorem applyFirst_affixes {tests : List EdgeTest} {w : Word} {t : EdgeTest}
    (h : tests.find? (·.holds w) = some t) (p : Polarity) :
    Morpheme.applyFirst (tests.map fun t => (⟨[t]⟩, .affix (t.affix p))) [w] [w] =
      (Morpheme.affix (t.affix p)).applyObserving [w] [w] := by
  induction tests with
  | nil => cases h
  | cons first others ih =>
    rw [List.map_cons, Morpheme.applyFirst, List.flatten_singleton, EdgeCondition.holds_singleton]
    rw [List.find?_cons] at h
    cases hfirst : first.holds w with
    | true =>
      rw [hfirst] at h
      cases h
      rfl
    | false =>
      rw [hfirst] at h
      exact ih h

theorem apply_decidingAffix {condition : EdgeCondition} {w : Word} {t : EdgeTest}
    (h : condition.firstMatch w = some t) (p : Polarity) :
    (decidingAffix condition p).apply w = (t.affix p).apply w := by
  have hplace : (t.affix p).place = t.edge.position := rfl
  have hstems : (decidingAffix condition p).applyObserving [w] [w] =
      (Morpheme.affix (t.affix p)).applyObserving [w] [w] := by
    rw [decidingAffix, Morpheme.applyObserving]
    exact applyFirst_affixes h p
  rw [← Morpheme.apply_affix hplace]
  exact congrArg (Except.map List.flatten) hstems

/-! ### What the affix finds -/

/-- The letters are the longest form of the set at an edge of the word. -/
structure Allomorphs.IsLongestOn (a : Allomorphs) (edge : Edge) (letters w : Word) : Prop where
  mem : letters ∈ a.forms
  touches : edge.isTouchedBy letters w = true
  longest : ∀ f ∈ a.forms, edge.isTouchedBy f w = true → f.length ≤ letters.length

/-- At an edge, one of the two sides of a form is empty. -/
theorem IsSplitAt.eq_attach {edge : Edge} {w front letters back : Word}
    (h : IsSplitAt edge.position 1 w front letters back) :
    w = edge.attach letters (front ++ back) := by
  obtain ⟨rfl, hcount⟩ := h
  cases edge with
  | start =>
    have hfront : front.length + 1 = 1 := hcount
    obtain rfl : front = [] := List.eq_nil_of_length_eq_zero (by omega)
    rfl
  | final =>
    have hback : back.length + 1 = 1 := hcount
    obtain rfl : back = [] := List.eq_nil_of_length_eq_zero (by omega)
    rw [List.append_nil, List.append_nil]
    rfl

theorem standsAt_of_isTouchedBy {edge : Edge} {w letters : Word}
    (h : edge.isTouchedBy letters w = true) : StandsAt edge.position 1 w letters := by
  rw [← Edge.attach_detach h]
  cases edge with
  | start => exact ⟨[], Edge.start.detach letters w, rfl, rfl⟩
  | final => exact ⟨Edge.final.detach letters w, [], (List.append_nil _).symm, rfl⟩

theorem Edge.position_ne_zero (edge : Edge) : edge.position.val ≠ 0 := by
  cases edge with
  | start => decide
  | final => decide

theorem Edge.reach_position (edge : Edge) : edge.position.reach = 1 := by
  cases edge with
  | start => rfl
  | final => rfl

/-- Taking off what is found at an edge takes off the longest form that is there. -/
theorem Allomorphs.exists_longestOn {a : Allomorphs} {edge : Edge} {w : Word}
    (h : a.standsAt edge w = true) :
    ∃ letters w', a.IsLongestOn edge letters w ∧ letters ≠ [] ∧ w = edge.attach letters w' ∧
      a.removeAt w edge.position = .ok w' := by
  obtain ⟨found, rest, hfinds, hdetected⟩ := a.exists_findsAt edge.position_ne_zero w
  rw [edge.reach_position] at hdetected
  have hletters : found ≠ [] := by
    rintro rfl
    have hisAt := hfinds.isAt_eq
    rw [a.isAt_position, h] at hisAt
    cases hisAt
  cases hdetected with
  | @form found front back hmem hsplit hlongest =>
    have hattached := hsplit.eq_attach
    refine ⟨found, front ++ back, ⟨hmem, ?_, ?_⟩, hletters, hattached, hfinds.removeAt_eq⟩
    · rw [hattached]
      exact edge.isTouchedBy_attach found (front ++ back)
    · exact fun f hf htouched => hlongest f hf (standsAt_of_isTouchedBy htouched)
  | nothing => exact absurd rfl hletters

/-! ### What comes of it -/

namespace EdgeTest

/-- What a polarity makes of a word that the test has decided on: the longest form that
    was found is taken off, or a form is put on, and where none was found there is
    nothing to remove. -/
inductive Acts (t : EdgeTest) (w : Word) : Polarity → Word → Prop where
  | takes {p : Polarity} {letters w' : Word} (hasked : t.negated = false) (hp : p ≠ .insert)
      (hlongest : t.form.IsLongestOn t.edge letters w) (hw : w = t.edge.attach letters w')
      (hshorter : w'.length < w.length) : Acts t w p w'
  | puts {p : Polarity} {w' : Word} (hp : p = .insert ∨ t.negated = true ∧ p = .toggle)
      (hinsert : t.form.insertAt w t.edge.position = .ok w') : Acts t w p w'
  | leaves (hasked : t.negated = true) : Acts t w .remove w

theorem isPresent_affix (t : EdgeTest) (p : Polarity) (w : Word) :
    (t.affix p).isPresent w = .ok (t.form.standsAt t.edge w) :=
  t.form.isAt_position t.edge w

/-- A test says whether its own affix is there, or with negation whether it is not. -/
theorem holds_ne_negated_iff (t : EdgeTest) (p : Polarity) (w : Word) :
    t.holds w ≠ t.negated ↔ (t.affix p).isPresent w = .ok true := by
  rw [t.holds_eq, t.isPresent_affix]
  cases t.form.standsAt t.edge w with
  | true => cases t.negated <;> simp
  | false => cases t.negated <;> simp

/-- Whether the letters of a test are at its edge is all that its affix asks. -/
theorem apply_affix (t : EdgeTest) (p : Polarity) (w : Word) :
    (t.affix p).apply w =
      if p = .insert ∨ p = .toggle ∧ t.form.standsAt t.edge w = false then
        t.form.insertAt w t.edge.position
      else if t.form.standsAt t.edge w then t.form.removeAt w t.edge.position
      else .ok w := by
  have hpresent := t.isPresent_affix p w
  unfold Affix.apply Affix.applyObserving
  cases p with
  | insert => rfl
  | remove =>
    rw [hpresent, ok_bind]
    rfl
  | toggle =>
    rw [hpresent, ok_bind]
    cases t.form.standsAt t.edge w with
    | true => rfl
    | false => rfl

/-- The affix of a test that holds does something with what the test has found. -/
theorem exists_acts {t : EdgeTest} {w : Word} (h : t.holds w = true) (p : Polarity) :
    ∃ w', (t.affix p).apply w = .ok w' ∧ t.Acts w p w' := by
  obtain ⟨inserted, hinserted⟩ := t.form.exists_insertAt_edge w t.edge
  rw [t.holds_eq] at h
  rw [t.apply_affix]
  by_cases hinserts : p = .insert ∨ p = .toggle ∧ t.form.standsAt t.edge w = false
  · rw [if_pos hinserts]
    refine ⟨inserted, hinserted, .puts (hinserts.imp id fun htoggle => ?_) hinserted⟩
    rw [htoggle.2, Bool.false_bne] at h
    exact ⟨h, htoggle.1⟩
  rw [if_neg hinserts]
  rw [not_or] at hinserts
  cases hstands : t.form.standsAt t.edge w with
  | true =>
    obtain ⟨letters, w', hlongest, hletters, hw, hremoved⟩ := t.form.exists_longestOn hstands
    rw [hstands, Bool.true_bne, Bool.not_eq_true'] at h
    refine ⟨w', hremoved, .takes h hinserts.1 hlongest hw ?_⟩
    have hlength := List.length_pos_iff.mpr hletters
    rw [hw, t.edge.length_attach]
    omega
  | false =>
    rw [hstands, Bool.false_bne] at h
    obtain rfl : p = .remove := by
      cases p with
      | insert => exact absurd rfl hinserts.1
      | remove => rfl
      | toggle => exact absurd ⟨rfl, hstands⟩ hinserts.2
    exact ⟨w, rfl, .leaves h⟩

end EdgeTest

/-! ### Rules of one conditional -/

/-- A rule that does something with the letters of its condition where this holds, and
    nothing elsewhere. -/
def shortRule (context : Option String) (condition : EdgeCondition) (p : Polarity) : Blueprint where
  context := context
  groups := [[.conditional condition (.short p) .identity]]

/-- **A polarity alone acts on exactly what the condition has seen.**  A word for which
    no test holds stays as it is, and otherwise the first test that holds decides.  Where
    it is negated the word has no form to remove, and a form is put at its edge if one
    should be inserted or toggled.  Where it is not, the longest form at its edge is taken
    off to be removed or toggled.  A test and the affix with its letters never
    disagree. -/
theorem apply_shortRule (context : Option String) (condition : EdgeCondition) (p : Polarity) :
    (∃ r, Rule.ofBlueprint (shortRule context condition p) = .ok r ∧ ∀ w,
      match condition.firstMatch w with
      | none => r.apply w = .ok w
      | some t => ∃ w', r.apply w = .ok w' ∧ t.Acts w p w') ∧
    ∀ (t : EdgeTest) (w : Word), t.holds w ≠ t.negated ↔ (t.affix p).isPresent w = .ok true := by
  refine ⟨⟨_, rfl, fun w => ?_⟩, fun t w => t.holds_ne_negated_iff p w⟩
  rw [Rule.apply_of_stages_singleton rfl, Morpheme.apply_conditional, EdgeCondition.holds]
  cases hdeciding : condition.firstMatch w with
  | none => exact Morpheme.apply_identity w
  | some t =>
    have hholds : t.holds w = true :=
      List.find?_some (p := fun t : EdgeTest => t.holds w) hdeciding
    rw [Option.isSome_some, if_pos rfl, apply_decidingAffix hdeciding]
    exact EdgeTest.exists_acts hholds p

/-- Of `gelat` the form `ge` is removed and not only `g`.  For `lat` the second test
    decides, which has found no `a`, and `a` is put at the end. -/
example :
    let condition : EdgeCondition :=
      ⟨[.isAt .start (.ofForms ["g".toList, "ge".toList]), (.negate (.isAt .final (.only ['a'])))]⟩
    (Rule.ofBlueprint (shortRule none condition .toggle)).toOption.map
        (fun r => (r.apply "gelat".toList, r.apply "lat".toList)) =
      some (.ok "lat".toList, .ok "lata".toList) := by
  decide +kernel

end WordFormation
