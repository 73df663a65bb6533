/-
  WordFormation/Proofs/EnsureRules.lean
  =====================================
  **Rules that put letters on an edge only where they are missing.**

  Such a rule can be written in two ways: a negated test with a `+` in the branch for
  yes, and a test with a `+` in the branch for no (`ensuringText`).  They compile to
  different morphemes, since a polarity alone takes the letters of the test that
  decided in the one branch and those of the first test in the other.  With one test
  both are the same: a word at whose edge a form stands is left as it is, and at that
  of any other word a form is inserted (`Rule.apply_ensuring`).

  Which form is inserted does not matter.  It may be a short one that the word makes
  into a longer one, and all that counts is that some form with letters is found at the
  edge afterwards, where the second application looks for it.
-/
import WordFormation.Proofs.Insertion
import WordFormation.Proofs.RuleText.WrittenLetters
import WordFormation.Proofs.ShortActions

namespace WordFormation

open RuleText RuleText.Production RuleText.Grammar

/-! ### The rules as text -/

/-- The rules that ensure letters at an edge: `~X-?+` and `X-?:+` at the start, `~-X?+` and
    `-X?:+` at the end. -/
def ensuringText (negated : Bool) (edge : Edge) (text : Word) : Word :=
  if negated then '~' :: (edge.around text ++ "?+".toList) else edge.around text ++ "?:+".toList

/-- What they are read as. -/
def ensuring (negated : Bool) (edge : Edge) (a : Allomorphs) : Operation :=
  if negated then .conditional ⟨[⟨true, edge, a⟩]⟩ (.short .insert) .identity
  else .conditional ⟨[⟨false, edge, a⟩]⟩ .identity (.short .insert)

theorem isShallow_ensuringText {text : Word} (h : IsShallow text) (negated : Bool) (edge : Edge) :
    IsShallow (ensuringText negated edge text) := by
  have hmet : IsPlain "?+".toList := by decide
  have hunmet : IsPlain "?:+".toList := by decide
  have haround : IsShallow (edge.around text) := by
    cases edge with
    | start => exact h.append (IsShallow.nil.cons (by decide) (by decide))
    | final => exact h.cons (by decide) (by decide)
  cases negated with
  | true => exact (haround.append hmet.isShallow).cons (by decide) (by decide)
  | false => exact haround.append hunmet.isShallow

section Stretch

variable {text : Word} {t : RuleText.Tree} {a : Allomorphs} (h : IsStretch text t a)
include h

theorem conditionMatches_around (negated : Bool) (edge : Edge) :
    ConditionMatches (if negated then '~' :: edge.around text else edge.around text)
      ⟨[⟨negated, edge, a⟩]⟩ := by
  intro rest hrest
  obtain ⟨tree, htree, hread⟩ := test_around h negated edge (hrest.stops (by decide))
  refine ⟨.node .condition [tree], ?_, ?_⟩
  · unfold condition
    exact bind_of_matched
      (separated_single htree (hrest.stops (by decide)) (hrest.head_ne (by decide)))
  · have hitems : Tree.items [tree] = [tree] := rfl
    simp [Tree.readCondition_node, hitems, hread]

theorem itemMatches_ensuringText (negated : Bool) (edge : Edge) :
    ItemMatches (ensuringText negated edge text) [] [ensuring negated edge a] := by
  have hcondition := conditionMatches_around h negated edge
  have hshort : (Branch.short .insert).IsWritable := .short (by decide)
  cases negated with
  | true =>
    exact itemMatches_conditional hcondition hshort .identity (.inl (by simp)) (endsAt_nil itemEnds)
  | false =>
    exact itemMatches_conditional hcondition .identity hshort (.inr (by simp)) (endsAt_nil itemEnds)

theorem exists_ofText_ensuring (hshallow : IsShallow text) (negated : Bool) (edge : Edge) :
    ∃ r, Rule.ofText (ensuringText negated edge text) = .ok r ∧
      r.blueprint = ⟨none, [[ensuring negated edge a]]⟩ := by
  have hstops {test : Char → Bool} (hletter : ∀ c, isLetter c = true → test c = false)
      (hmarks : ['(', '-'].any test = false) (htilde : test '~' = false) :
      Stops test (ensuringText negated edge text) := by
    cases negated with
    | true => exact stops_cons htilde _
    | false => exact Edge.stops_around h hletter hmarks edge _
  have hat : Stops (· == '@') (ensuringText negated edge text) :=
    hstops (fun c hc => beq_eq_false_iff_ne.mpr (ne_of_isLetter hc (by decide))) (by decide)
      (by decide)
  have hassembles : (ensuring negated edge a).Assembles := by
    have hshort := Branch.assembles_short .insert
    cases negated with
    | true => exact Operation.assembles_conditional _ hshort Branch.assembles_identity
    | false => exact Operation.assembles_conditional _ Branch.assembles_identity hshort
  exact exists_ofText_of_lone_item (isShallow_ensuringText hshallow negated edge).notTooDeep
    (hstops (fun _ => isBlank_of_isLetter) (by decide) (by decide))
    (fun hhead => Bool.noConfusion (hat '@' hhead)) (itemMatches_ensuringText h negated edge)
    (List.forall_mem_singleton.mpr hassembles)

end Stretch

/-! ### What they do -/

/-- Nothing is done where a form stands, and elsewhere a form is inserted. -/
theorem Rule.apply_ensuring {negated : Bool} {edge : Edge} {a : Allomorphs} {text : Word} {r : Rule}
    (h : Rule.ofText text = .ok r) (hr : r.blueprint = ⟨none, [[ensuring negated edge a]]⟩)
    (w : Word) :
    r.apply w = if a.standsAt edge w then .ok w else a.insertAt w edge.position := by
  let t : EdgeTest := ⟨negated, edge, a⟩
  have hholds : EdgeCondition.holds ⟨[t]⟩ w = (a.standsAt edge w != negated) :=
    (EdgeCondition.holds_singleton t w).trans (t.holds_eq w)
  have hinsert : (t.affix .insert).apply w = a.insertAt w edge.position :=
    (t.apply_affix .insert w).trans (if_pos (.inl rfl))
  cases negated with
  | true =>
    have hstages : r.stages = [[.conditional ⟨[t]⟩ (decidingAffix ⟨[t]⟩ .insert) .identity]] :=
      Rule.stages_of_ofText h hr rfl
    rw [Rule.apply_of_stages_singleton hstages, Morpheme.apply_conditional, hholds]
    cases hstands : a.standsAt edge w with
    | true => exact Morpheme.apply_identity w
    | false =>
      have htrue : t.holds w = true := by rw [t.holds_eq, hstands, Bool.false_bne]
      have hdecides : EdgeCondition.firstMatch ⟨[t]⟩ w = some t := List.find?_cons_of_pos htrue
      exact (apply_decidingAffix hdecides .insert).trans hinsert
  | false =>
    have hstages : r.stages = [[.conditional ⟨[t]⟩ .identity (.affix (t.affix .insert))]] :=
      Rule.stages_of_ofText h hr rfl
    rw [Rule.apply_of_stages_singleton hstages, Morpheme.apply_conditional, hholds]
    cases a.standsAt edge w with
    | true => exact Morpheme.apply_identity w
    | false => exact (Morpheme.apply_affix rfl w).trans hinsert

namespace Allomorphs

variable {a : Allomorphs} {edge : Edge} {w : Word}

theorem standsAt_of_insertAt (hletters : ∃ f ∈ a.forms, f ≠ []) {w' : Word}
    (h : a.insertAt w edge.position = .ok w') : a.standsAt edge w' = true := by
  obtain ⟨f, hf, hne⟩ := hletters
  have hinserts := a.inserts_insertAt w edge.position_ne_zero
  rw [h] at hinserts
  obtain ⟨g, hg, hstands, hletters⟩ := hinserts.exists_stands hf hne
  have hfound := a.isAt_of_standsAt edge.position_ne_zero hg hstands hletters
  rw [a.isAt_position] at hfound
  exact Except.ok.inj hfound

theorem exists_form_of_standsAt (h : a.standsAt edge w = true) :
    ∃ f ∈ a.forms, f ≠ [] ∧ edge.isTouchedBy f w = true := by
  obtain ⟨f, hf, hstands⟩ := List.any_eq_true.mp h
  rw [← forms_eq_flatten] at hf
  rw [Bool.and_eq_true, Bool.not_eq_true', List.isEmpty_eq_false_iff] at hstands
  exact ⟨f, hf, hstands⟩

end Allomorphs

/-- **Rules that ensure letters are done after the first time.**  Whenever letters,
    groups and optional parts with a `+` behind them are a rule, so are the tests for
    them that insert them where they are missing.  These rules give a result for every
    word, at whose edge a form with letters stands, and change nothing about it when
    they are applied again. -/
theorem Rule.ofText_ensuring {text : Word} (htext : IsLetterText text) {r₀ : Rule}
    (h₀ : Rule.ofText (text ++ ['+']) = .ok r₀) :
    ∃ a : Allomorphs, r₀.blueprint = ⟨none, [[.putBefore a .insert]]⟩ ∧
      ∀ (negated : Bool) (edge : Edge),
        ∃ r, Rule.ofText (ensuringText negated edge text) = .ok r ∧
          ∀ w, ∃ w', r.apply w = .ok w' ∧
            (∃ f ∈ a.forms, f ≠ [] ∧ edge.isTouchedBy f w' = true) ∧ r.apply w' = .ok w' := by
  obtain ⟨e, he, hne, rfl, hdepth, hblueprint⟩ := exists_expression_of_ofText htext h₀
  obtain ⟨t, hstretch⟩ := he.exists_isStretch hne
  let a : Allomorphs := .ofForms e.forms
  have hletters : ∃ f ∈ a.forms, f ≠ [] := by
    rw [Allomorphs.forms_eq_flatten, Allomorphs.flatten_ofForms]
    exact ⟨e.kept, List.mem_of_head? e.head?_forms, he.kept_ne_nil hne⟩
  refine ⟨a, hblueprint, fun negated edge => ?_⟩
  obtain ⟨r, hr, hread⟩ := exists_ofText_ensuring hstretch ⟨he.balanced, hdepth⟩ negated edge
  have happly := Rule.apply_ensuring hr hread
  have hagain {w : Word} (hstands : a.standsAt edge w = true) : r.apply w = .ok w := by
    rw [happly, if_pos hstands]
  refine ⟨r, hr, fun w => ?_⟩
  cases hstands : a.standsAt edge w with
  | true => exact ⟨w, hagain hstands, Allomorphs.exists_form_of_standsAt hstands, hagain hstands⟩
  | false =>
    obtain ⟨w', hinserted⟩ := a.exists_insertAt_edge w edge
    have hstands' := Allomorphs.standsAt_of_insertAt hletters hinserted
    refine ⟨w', ?_, Allomorphs.exists_form_of_standsAt hstands', hagain hstands'⟩
    rw [happly, hstands, hinserted]
    rfl

/-- Letters with an optional group behind them. -/
theorem Rule.ofText_ensuring_ich :
    let text := "i(ch)^".toList
    let forms := ["ich".toList, "i".toList]
    IsLetterText text ∧ ∃ r₀, Rule.ofText (text ++ ['+']) = .ok r₀ ∧
      r₀.blueprint = ⟨none, [[.putBefore (.ofForms forms) .insert]]⟩ ∧
      ∃ r, Rule.ofText "~-i(ch)^?+".toList = .ok r ∧ ∀ w, ∃ w', r.apply w = .ok w' ∧
        (∃ f ∈ forms, f ≠ [] ∧ f <:+ w') ∧ r.apply w' = .ok w' := by
  intro text forms
  have htext : IsLetterText text := by decide
  let e : Expression := .letter 'i' (.optionalGroup (.letter 'c' (.letter 'h' .done)) .done)
  have hwritten : e.IsWritten :=
    .letter (by decide) (.optionalGroup (by decide)
      (.letter (by decide) (.letter (by decide) .done)) (by decide) .done)
  obtain ⟨-, r₀, h₀, hblueprint⟩ := hwritten.exists_ofText (by decide) (by decide)
  obtain ⟨a, ha, hensures⟩ := Rule.ofText_ensuring htext h₀
  rw [hblueprint] at ha
  cases ha
  obtain ⟨r, hr, happly⟩ := hensures true .final
  refine ⟨htext, r₀, h₀, hblueprint, r, hr, fun w => ?_⟩
  obtain ⟨w', hw', ⟨f, hf, hne, hends⟩, hagain⟩ := happly w
  rw [Allomorphs.forms_eq_flatten, Allomorphs.flatten_ofForms] at hf
  exact ⟨w', hw', ⟨f, hf, hne, List.isSuffixOf_iff_suffix.mp hends⟩, hagain⟩

/-- In front of `chab` the shorter form makes the longer one. -/
example :
    (Rule.ofText "i(ch)^-?:+".toList).toOption.map (·.apply "chab".toList) =
      some (.ok "ichab".toList) := by
  decide +kernel

end WordFormation
