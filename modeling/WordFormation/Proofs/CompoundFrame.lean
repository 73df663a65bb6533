/-
  WordFormation/Proofs/CompoundFrame.lean
  =======================================
  **What a rule leaves alone in a compound.**

  No step of a run puts stems together or takes one apart, so at every point there
  are as many of them as in the beginning, and as many were observed.  An affix
  changes the first stem or the last one; an interfix changes every stem but the
  last.  What does not occur in a rule is not met in its run either (`Step.has`), so
  what no step on its own changes, the rule does not change.
-/
import WordFormation.Proofs.Steps
import WordFormation.Proofs.Totality

namespace WordFormation

/-! ### Stems that a step leaves alone -/

namespace Morpheme

variable {p : Position} {change : Word → Word → Edited Word} {stems observed changed : List Word}

theorem ChangesEdge.middle (h : ChangesEdge p change stems observed changed) {i : Nat}
    (hfirst : 0 < i) (hlast : i + 1 < stems.length) : changed[i]? = stems[i]? := by
  obtain ⟨-, -, -⟩ := h
  apply List.getElem?_set_ne
  unfold edgeIndex
  split <;> omega

end Morpheme

theorem Interfix.Links.getLast? {x : Interfix} {stems observed changed : List Word}
    (h : x.Links stems observed changed) : changed.getLast? = stems.getLast? := by
  induction h with
  | last stem observed => rfl
  | @link stem seen linked next stems observed others h more ih =>
    calc (linked :: others).getLast?
        = some (others.getLast?.getD linked) := List.getLast?_cons
      _ = some ((next :: stems).getLast?.getD linked) := by rw [ih]
      _ = (next :: stems).getLast? := by simp [List.getLast?_cons]
      _ = (stem :: next :: stems).getLast? := List.getLast?_cons_cons.symm

/-! ### What occurs in a rule -/

/-- The morpheme is the other one or is nested in it. -/
inductive Morpheme.OccursIn (m : Morpheme) : Morpheme → Prop where
  | whole : OccursIn m m
  | part {parts : List Morpheme} {part : Morpheme} (hpart : part ∈ parts) (h : OccursIn m part) :
      OccursIn m (.composite parts)
  | met {condition : EdgeCondition} {met unmet : Morpheme} (h : OccursIn m met) :
      OccursIn m (.conditional condition met unmet)
  | unmet {condition : EdgeCondition} {met unmet : Morpheme} (h : OccursIn m unmet) :
      OccursIn m (.conditional condition met unmet)
  | arm {arms : List (EdgeCondition × Morpheme)} {arm : EdgeCondition × Morpheme}
      (harm : arm ∈ arms) (h : OccursIn m arm.2) : OccursIn m (.choice arms)

theorem Morpheme.Opens.occursIn {m whole part : Morpheme} {observed : List Word}
    {parts : List Morpheme} (h : whole.Opens observed parts) (hpart : part ∈ parts)
    (hm : m.OccursIn part) : m.OccursIn whole := by
  cases h with
  | identity => cases hpart
  | composite parts => exact .part hpart hm
  | met _ _ _ =>
    rw [List.mem_singleton.mp hpart] at hm
    exact .met hm
  | unmet _ _ _ =>
    rw [List.mem_singleton.mp hpart] at hm
    exact .unmet hm
  | taken h =>
    rw [List.mem_singleton.mp hpart] at hm
    exact .arm (List.mem_of_find?_eq_some h) hm
  | passed _ => cases hpart

/-- Whatever is nested in a morpheme at edges is at edges itself. -/
theorem Morpheme.OccursIn.atEdges {m whole : Morpheme} (h : m.OccursIn whole)
    (hwhole : whole.AtEdges) : m.AtEdges := by
  induction h with
  | whole => exact hwhole
  | part hpart _ ih =>
    cases hwhole with
    | composite hparts => exact ih (hparts _ hpart)
  | met _ ih =>
    cases hwhole with
    | conditional _ hmet _ => exact ih hmet
  | unmet _ ih =>
    cases hwhole with
    | conditional _ _ hunmet => exact ih hunmet
  | arm harm _ ih =>
    cases hwhole with
    | choice harms => exact ih (harms _ harm)

/-- The morpheme occurs somewhere in the rule. -/
def Rule.Has (r : Rule) (m : Morpheme) : Prop := ∃ whole ∈ r.stages.flatten, m.OccursIn whole

/-- The morpheme occurs somewhere in what is still to be done. -/
def Point.Has (p : Point) (m : Morpheme) : Prop :=
  ∃ whole ∈ p.pending ++ p.stages.flatten, m.OccursIn whole

/-- Nothing comes up in a step that was not there before. -/
theorem Step.has {p q : Point} (h : Step p q) {m : Morpheme} (hm : q.Has m) : p.Has m := by
  obtain ⟨whole, hwhole, hoccurs⟩ := hm
  cases h with
  | opens hopens =>
    rw [List.append_assoc] at hwhole
    rcases List.mem_append.mp hwhole with hpart | hlater
    · exact ⟨_, List.mem_cons_self, hopens.occursIn hpart hoccurs⟩
    · exact ⟨whole, List.mem_cons_of_mem _ hlater, hoccurs⟩
  | acts _ => exact ⟨whole, List.mem_cons_of_mem _ hwhole, hoccurs⟩
  | stage => exact ⟨whole, by simpa using hwhole, hoccurs⟩

theorem Point.has_head {m : Morpheme} {pending : List Morpheme} {stems observed : List Word}
    {stages : List (List Morpheme)} : (Point.mk (m :: pending) stems observed stages).Has m :=
  ⟨m, List.mem_cons_self, .whole⟩

/-! ### Steps and runs -/

section Run

variable {p q : Point}

/-- If as many stems were observed as there are, this is so behind a step as well. -/
theorem Step.length_observed (h : Step p q) (hlength : p.observed.length = p.stems.length) :
    q.observed.length = q.stems.length := by
  cases h with
  | opens _ => exact hlength
  | acts h => exact hlength.trans h.length.symm
  | stage => rfl

theorem Steps.length_observed (h : Steps p q) (hlength : p.observed.length = p.stems.length) :
    q.observed.length = q.stems.length := by
  induction h with
  | refl => exact hlength
  | tail _ hstep ih => exact hstep.length_observed ih

/-- Without an interfix a step changes no stem between the first and the last. -/
theorem Step.middle (h : Step p q) (hno : ∀ x, ¬ p.Has (.interfix x)) {i : Nat} (hfirst : 0 < i)
    (hlast : i + 1 < p.stems.length) : q.stems[i]? = p.stems[i]? := by
  cases h with
  | opens _ => rfl
  | acts h =>
    rcases h with hedge | hedge | hlinks
    · exact hedge.middle hfirst hlast
    · exact hedge.middle hfirst hlast
    · exact absurd Point.has_head (hno _)
  | stage => rfl

theorem Steps.middle (h : Steps p q) (hno : ∀ x, ¬ p.Has (.interfix x)) {i : Nat} (hfirst : 0 < i)
    (hlast : i + 1 < p.stems.length) : q.stems[i]? = p.stems[i]? := by
  refine Steps.keep (fun stems => stems[i]?)
    (fun p => (∀ x, ¬ p.Has (.interfix x)) ∧ i + 1 < p.stems.length) ?_ ?_ h ⟨hno, hlast⟩
  · rintro p q hstep ⟨hno, hlast⟩
    refine ⟨fun x hx => hno x (hstep.has hx), ?_⟩
    rwa [hstep.length_stems]
  · rintro p q hstep ⟨hno, hlast⟩
    exact hstep.middle hno hfirst hlast

/-- Without an affix or an edit a step does not change the last stem. -/
theorem Step.last (h : Step p q) (haffix : ∀ x, ¬ p.Has (.affix x)) (hedit : ∀ e, ¬ p.Has (.edit e)) :
    q.stems.getLast? = p.stems.getLast? := by
  cases h with
  | opens _ => rfl
  | acts h =>
    rcases h with hedge | hedge | hlinks
    · exact absurd Point.has_head (hedit _)
    · exact absurd Point.has_head (haffix _)
    · exact hlinks.getLast?
  | stage => rfl

theorem Steps.last (h : Steps p q) (haffix : ∀ x, ¬ p.Has (.affix x))
    (hedit : ∀ e, ¬ p.Has (.edit e)) : q.stems.getLast? = p.stems.getLast? := by
  refine Steps.keep List.getLast?
    (fun p => (∀ x, ¬ p.Has (.affix x)) ∧ ∀ e, ¬ p.Has (.edit e)) ?_ ?_ h ⟨haffix, hedit⟩
  · rintro p q hstep ⟨haffix, hedit⟩
    exact ⟨fun x hx => haffix x (hstep.has hx), fun e he => hedit e (hstep.has he)⟩
  · rintro p q hstep ⟨haffix, hedit⟩
    exact hstep.last haffix hedit

end Run

/-! ### Rules -/

namespace Rule

/-- The point is reached in the run of the rule on the stems. -/
def Reaches (r : Rule) (stems : List Word) (p : Point) : Prop :=
  Steps ⟨[], stems, stems, r.stages⟩ p

/-- A rule at edges runs to its end. -/
theorem AtEdges.exists_end {r : Rule} (h : r.AtEdges) {stems : List Word} (hne : stems ≠ []) :
    ∃ changed observed, r.applyCompound stems = .ok changed ∧
      r.Reaches stems ⟨[], changed, observed, []⟩ := by
  obtain ⟨changed, hchanged⟩ := h.exists_applyCompound stems
  have hruns := hchanged
  rw [applyCompound, if_neg (by simpa using hne)] at hruns
  obtain ⟨observed, hend⟩ := steps_of_runStages hne hruns stems
  exact ⟨changed, observed, hchanged, hend⟩

/-- From a single word the run ends with a single word. -/
theorem AtEdges.exists_end_word {r : Rule} (h : r.AtEdges) (w : Word) :
    ∃ w' observed, r.apply w = .ok w' ∧ r.Reaches [w] ⟨[], [w'], observed, []⟩ := by
  obtain ⟨changed, observed, hchanged, hend⟩ := h.exists_end (List.cons_ne_nil w [])
  obtain ⟨w', rfl⟩ := List.length_eq_one_iff.mp (Steps.length_stems hend)
  exact ⟨w', observed, apply_of_runStages hchanged, hend⟩

/-- No single edit is in a rule that acts at edges. -/
theorem AtEdges.not_has_edit {r : Rule} (h : r.AtEdges) (e : Edit) : ¬ r.Has (.edit e) := by
  rintro ⟨whole, hwhole, hoccurs⟩
  obtain ⟨stage, hstage, hmem⟩ := List.mem_flatten.mp hwhole
  cases hoccurs.atEdges (h stage hstage whole hmem)

/-- **A rule keeps the stems of a compound apart.**  All points of its run have as
    many running stems as there were in the beginning, as many were observed, and
    from each the run goes on to its end without missing an observed stem.  In the
    end no stem but the first and the last is changed if there is no interfix, and
    not the last one if there is no affix.  With a single stem an interfix has
    nothing to link. -/
theorem compound_frame {b : Blueprint} {r : Rule} (h : ofBlueprint b = .ok r) (n : Nat)
    {stems : List Word} (hne : stems ≠ []) :
    (∃ changed observed, (Rule.antonym^[n] r).applyCompound stems = .ok changed ∧
      (∀ p, (Rule.antonym^[n] r).Reaches stems p →
        p.stems.length = stems.length ∧ p.observed.length = stems.length ∧
          Steps p ⟨[], changed, observed, []⟩) ∧
      changed.length = stems.length ∧
      ((∀ x, ¬ (Rule.antonym^[n] r).Has (.interfix x)) →
        ∀ i, 0 < i → i + 1 < stems.length → changed[i]? = stems[i]?) ∧
      ((∀ x, ¬ (Rule.antonym^[n] r).Has (.affix x)) → changed.getLast? = stems.getLast?)) ∧
    ∀ (x : Interfix) (stem : Word) (observed : List Word),
      x.applyObserving [stem] observed = .ok [stem] := by
  refine ⟨?_, fun x stem observed => rfl⟩
  have hedges := AtEdges.iterate_antonym (atEdges_ofBlueprint h) n
  obtain ⟨changed, observed, hchanged, hend⟩ := hedges.exists_end hne
  refine ⟨changed, observed, hchanged, ?_, Steps.length_stems hend, ?_, ?_⟩
  · intro p hp
    have hstems := Steps.length_stems hp
    have hobserved := Steps.length_observed hp rfl
    exact ⟨hstems, hobserved.trans hstems, Steps.of_end hend hp⟩
  · intro hno i hfirst hlast
    exact Steps.middle hend hno hfirst hlast
  · intro haffix
    exact Steps.last hend haffix hedges.not_has_edit

/-- A prefix, and a postfix that comes and goes. -/
def prefixAndToggle : Blueprint where
  groups := [[.putBefore (.only ['g', 'e']) .insert], [.putAfter (.only ['a']) .toggle]]

theorem compound_frame_prefixAndToggle :
    ∃ r changed, ofBlueprint prefixAndToggle = .ok r ∧
      [['k', 'o', 't'], ['l', 'a'], ['t', 'a']] ≠ ([] : List Word) ∧
      (∀ x, ¬ (Rule.antonym^[1] r).Has (.interfix x)) ∧
      (Rule.antonym^[1] r).applyCompound [['k', 'o', 't'], ['l', 'a'], ['t', 'a']] = .ok changed ∧
      changed.length = 3 ∧ changed[1]? = some ['l', 'a'] := by
  obtain ⟨r, hr⟩ : ∃ r, ofBlueprint prefixAndToggle = .ok r := ⟨_, rfl⟩
  have hne : [['k', 'o', 't'], ['l', 'a'], ['t', 'a']] ≠ ([] : List Word) := by decide
  obtain ⟨⟨changed, observed, hchanged, -, hlength, hmiddle, -⟩, -⟩ := compound_frame hr 1 hne
  have hno : ∀ x, ¬ (Rule.antonym^[1] r).Has (.interfix x) := by
    cases hr
    rintro x ⟨whole, hwhole, hoccurs⟩
    change whole ∈ [Morpheme.affix _, Morpheme.affix _] at hwhole
    rcases List.mem_cons.mp hwhole with rfl | hwhole
    · cases hoccurs
    · obtain rfl := List.mem_singleton.mp hwhole
      cases hoccurs
  exact ⟨r, changed, hr, hne, hno, hchanged, hlength, hmiddle hno 1 (by decide) (by decide)⟩

end Rule

end WordFormation
