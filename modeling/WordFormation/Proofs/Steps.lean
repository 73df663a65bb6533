/-
  WordFormation/Proofs/Steps.lean
  ===============================
  **The run of a rule, one step after the other.**

  A point of a run has what is still to be done, the stems as they are now, and the
  stems that the stage observed.  A step that changes a stem reads the observed stem
  of the same index, and where there is none there is no step: nothing stands in for
  a stem that was not observed.

  A run can be made in such steps if as many stems were observed as there are
  (`steps_of_runStages`).  What comes next is determined (`Step.unique`), so no run
  has other points than the ones that are reached on the way to its end.
-/
import Mathlib.Logic.Relation
import WordFormation.Proofs.Outcome
import WordFormation.Rule

namespace WordFormation

/-! ### Changing a stem -/

namespace Morpheme

/-- The index of the stem that a position is about. -/
def edgeIndex (stems : List Word) (p : Position) : Nat :=
  if 0 < p.val then 0 else stems.length - 1

theorem edgeIndex_lt {stems : List Word} (h : 0 < stems.length) (p : Position) :
    edgeIndex stems p < stems.length := by
  unfold edgeIndex
  split
  · exact h
  · omega

/-- The stem at the position is changed, and the stem that was observed there is
    what the change is decided on. -/
inductive ChangesEdge (p : Position) (change : Word → Word → Edited Word)
    (stems observed : List Word) : List Word → Prop where
  | at {stem seen stem' : Word} (hstem : stems[edgeIndex stems p]? = some stem)
      (hseen : observed[edgeIndex stems p]? = some seen) (h : change stem seen = .ok stem') :
      ChangesEdge p change stems observed (stems.set (edgeIndex stems p) stem')

section ChangesEdge

variable {p : Position} {change : Word → Word → Edited Word} {stems observed changed : List Word}

theorem changesEdge_of_onEdgeStem (hne : observed ≠ []) (hlength : stems.length = observed.length)
    (h : onEdgeStem stems observed p change = .ok changed) :
    ChangesEdge p change stems observed changed := by
  have hpos : 0 < stems.length := by
    rw [hlength]
    exact List.length_pos_iff.mpr hne
  have hindex := edgeIndex_lt hpos p
  have hindex' : edgeIndex stems p < observed.length := by rwa [← hlength]
  have hstem := List.getElem?_eq_getElem hindex
  have hseen := List.getElem?_eq_getElem hindex'
  have hfull : stems.isEmpty = false := by simpa using List.ne_nil_of_length_pos hpos
  have hrun : onEdgeStem stems observed p change = do
      let stem' ← change stems[edgeIndex stems p] observed[edgeIndex stems p]
      return stems.set (edgeIndex stems p) stem' := by
    rw [onEdgeStem, hfull]
    change (do
      let stem' ← change (stems[edgeIndex stems p]?.getD [])
        (observed[edgeIndex stems p]?.getD (stems[edgeIndex stems p]?.getD []))
      return stems.set (edgeIndex stems p) stem') = _
    rw [hstem, hseen]
    rfl
  rw [hrun] at h
  obtain ⟨stem', hstem', hchanged⟩ := bind_eq_ok.mp h
  cases hchanged
  exact .at hstem hseen hstem'

theorem ChangesEdge.length (h : ChangesEdge p change stems observed changed) :
    changed.length = stems.length := by
  obtain ⟨-, -, -⟩ := h
  exact List.length_set

theorem ChangesEdge.unique {changed' : List Word} (h : ChangesEdge p change stems observed changed)
    (h' : ChangesEdge p change stems observed changed') : changed = changed' := by
  obtain ⟨hstem, hseen, hchange⟩ := h
  obtain ⟨hstem', hseen', hchange'⟩ := h'
  rw [hstem] at hstem'
  rw [hseen] at hseen'
  cases hstem'
  cases hseen'
  rw [hchange] at hchange'
  cases hchange'
  rfl

end ChangesEdge

end Morpheme

/-- Every stem but the last is linked, each decided on the stem that was observed in
    its place. -/
inductive Interfix.Links (x : Interfix) : (stems observed changed : List Word) → Prop where
  | last (stem : Word) (observed : List Word) : Links x [stem] observed [stem]
  | link {stem seen linked next : Word} {stems observed others : List Word}
      (h : x.edge.applyObserving stem seen = .ok linked)
      (more : Links x (next :: stems) observed others) :
      Links x (stem :: next :: stems) (seen :: observed) (linked :: others)

namespace Interfix

variable {x : Interfix} {stems observed changed : List Word}

theorem links_of_applyObserving (hne : observed ≠ []) (hlength : stems.length = observed.length)
    (h : x.applyObserving stems observed = .ok changed) : x.Links stems observed changed := by
  induction stems generalizing observed changed with
  | nil => exact absurd (List.length_eq_zero_iff.mp hlength.symm) hne
  | cons stem stems ih =>
    cases stems with
    | nil =>
      cases h
      exact .last stem observed
    | cons next stems =>
      cases observed with
      | nil => cases hlength
      | cons seen observed =>
        rw [applyObserving] at h
        obtain ⟨linked, hlinked, hmore⟩ := bind_eq_ok.mp h
        obtain ⟨others, hothers, hchanged⟩ := bind_eq_ok.mp hmore
        cases hchanged
        have hlength' := Nat.succ.inj hlength
        have hne' : observed ≠ [] := List.ne_nil_of_length_eq_add_one hlength'.symm
        exact .link hlinked (ih hne' hlength' hothers)

theorem Links.length (h : x.Links stems observed changed) : changed.length = stems.length := by
  induction h with
  | last stem observed => rfl
  | link h more ih => rw [List.length_cons, List.length_cons, ih]

theorem Links.unique {changed' : List Word} (h : x.Links stems observed changed)
    (h' : x.Links stems observed changed') : changed = changed' := by
  induction h generalizing changed' with
  | last stem observed =>
    cases h'
    rfl
  | link hlinked more ih =>
    cases h' with
    | link hlinked' more' =>
      rw [hlinked] at hlinked'
      cases hlinked'
      rw [ih more']

end Interfix

/-! ### Steps -/

/-- What takes the place of a morpheme that only decides or puts together. -/
inductive Morpheme.Opens (observed : List Word) : Morpheme → List Morpheme → Prop where
  | identity : Opens observed .identity []
  | composite (parts : List Morpheme) : Opens observed (.composite parts) parts
  | met {condition : EdgeCondition} (h : condition.holds observed.flatten = true)
      (met unmet : Morpheme) : Opens observed (.conditional condition met unmet) [met]
  | unmet {condition : EdgeCondition} (h : condition.holds observed.flatten = false)
      (met unmet : Morpheme) : Opens observed (.conditional condition met unmet) [unmet]
  | taken {arms : List (EdgeCondition × Morpheme)} {arm : EdgeCondition × Morpheme}
      (h : arms.find? (·.1.holds observed.flatten) = some arm) :
      Opens observed (.choice arms) [arm.2]
  | passed {arms : List (EdgeCondition × Morpheme)}
      (h : arms.find? (·.1.holds observed.flatten) = none) : Opens observed (.choice arms) []

/-- What a morpheme that changes stems makes of them. -/
inductive Morpheme.Acts (stems observed : List Word) : Morpheme → List Word → Prop where
  | edit {e : Edit} {changed : List Word}
      (h : ChangesEdge e.place (fun stem _ => e.apply stem) stems observed changed) :
      Acts stems observed (.edit e) changed
  | affix {x : Affix} {changed : List Word}
      (h : ChangesEdge x.place x.applyObserving stems observed changed) :
      Acts stems observed (.affix x) changed
  | interfix {x : Interfix} {changed : List Word} (h : x.Links stems observed changed) :
      Acts stems observed (.interfix x) changed

/-- Where a run can be: the morphemes of the stage that have not acted yet, the
    running stems, the stems that the stage observed, and the stages to come. -/
structure Point where
  pending : List Morpheme
  stems : List Word
  observed : List Word
  stages : List (List Morpheme)

/-- One step of a run. -/
inductive Step : Point → Point → Prop where
  | opens {m : Morpheme} {parts pending : List Morpheme} {stems observed : List Word}
      {stages : List (List Morpheme)} (h : m.Opens observed parts) :
      Step ⟨m :: pending, stems, observed, stages⟩ ⟨parts ++ pending, stems, observed, stages⟩
  | acts {m : Morpheme} {pending : List Morpheme} {stems observed changed : List Word}
      {stages : List (List Morpheme)} (h : m.Acts stems observed changed) :
      Step ⟨m :: pending, stems, observed, stages⟩ ⟨pending, changed, observed, stages⟩
  /-- The next stage observes the stems as they have become. -/
  | stage {stage : List Morpheme} {stems observed : List Word} {stages : List (List Morpheme)} :
      Step ⟨[], stems, observed, stage :: stages⟩ ⟨stage, stems, stems, stages⟩

/-- Any number of steps. -/
abbrev Steps : Point → Point → Prop := Relation.ReflTransGen Step

namespace Morpheme

theorem Opens.unique {m : Morpheme} {observed : List Word} {parts parts' : List Morpheme}
    (h : m.Opens observed parts) (h' : m.Opens observed parts') : parts = parts' := by
  cases h with
  | met hmet _ _ =>
    cases h' with
    | met _ _ _ => rfl
    | unmet hunmet _ _ => simp [hmet] at hunmet
  | unmet hunmet _ _ =>
    cases h' with
    | met hmet _ _ => simp [hunmet] at hmet
    | unmet _ _ _ => rfl
  | taken htaken =>
    cases h' with
    | taken htaken' =>
      rw [htaken] at htaken'
      cases htaken'
      rfl
    | passed hpassed => simp [htaken] at hpassed
  | passed hpassed =>
    cases h' with
    | taken htaken => simp [hpassed] at htaken
    | passed _ => rfl
  | _ =>
    cases h'
    rfl

/-- An arm whose condition does not hold might as well not be there. -/
theorem Opens.behind {condition : EdgeCondition} {arm : Morpheme}
    {arms : List (EdgeCondition × Morpheme)} {observed : List Word} {parts : List Morpheme}
    (h : (choice arms).Opens observed parts) (hholds : condition.holds observed.flatten = false) :
    (choice ((condition, arm) :: arms)).Opens observed parts := by
  cases h with
  | taken htaken => exact .taken ((List.find?_cons_of_neg (by simp [hholds])).trans htaken)
  | passed hpassed => exact .passed ((List.find?_cons_of_neg (by simp [hholds])).trans hpassed)

theorem Acts.unique {m : Morpheme} {stems observed changed changed' : List Word}
    (h : m.Acts stems observed changed) (h' : m.Acts stems observed changed') :
    changed = changed' := by
  rcases h with hedge | hedge | hlinks
  · cases h' with
    | edit hedge' => exact hedge.unique hedge'
  · cases h' with
    | affix hedge' => exact hedge.unique hedge'
  · cases h' with
    | interfix hlinks' => exact hlinks.unique hlinks'

theorem Acts.length {m : Morpheme} {stems observed changed : List Word}
    (h : m.Acts stems observed changed) : changed.length = stems.length := by
  rcases h with hedge | hedge | hlinks
  · exact hedge.length
  · exact hedge.length
  · exact hlinks.length

/-- A morpheme that changes stems opens into nothing. -/
theorem Acts.not_opens {m : Morpheme} {stems observed changed : List Word} {parts : List Morpheme}
    (h : m.Acts stems observed changed) : ¬ m.Opens observed parts := by
  intro hopens
  rcases h with _ | _ | _ <;> cases hopens

end Morpheme

theorem Step.unique {p q q' : Point} (h : Step p q) (h' : Step p q') : q = q' := by
  cases h with
  | opens h =>
    cases h' with
    | opens h' => rw [h.unique h']
    | acts h' => exact absurd h h'.not_opens
  | acts h =>
    cases h' with
    | opens h' => exact absurd h' h.not_opens
    | acts h' => rw [h.unique h']
  | stage =>
    cases h'
    rfl

theorem Step.length_stems {p q : Point} (h : Step p q) : q.stems.length = p.stems.length := by
  cases h with
  | opens _ => rfl
  | acts h => exact h.length
  | stage => rfl

/-- If the stems before a step and after it are in a relation, under a condition that
    steps keep, so are those before a run and after it. -/
theorem Steps.related (R : List Word → List Word → Prop) (condition : Point → Prop)
    (hrefl : ∀ stems, R stems stems)
    (htrans : ∀ {first second third}, R first second → R second third → R first third)
    (hkept : ∀ {p q}, Step p q → condition p → condition q)
    (hrelated : ∀ {p q}, Step p q → condition p → R p.stems q.stems) {p q : Point}
    (h : Steps p q) (hp : condition p) : R p.stems q.stems := by
  induction h using Relation.ReflTransGen.head_induction_on with
  | refl => exact hrefl q.stems
  | head hstep _ ih => exact htrans (hrelated hstep hp) (ih (hkept hstep hp))

/-- What a step leaves as it is under a condition that steps keep, a run leaves as
    it is. -/
theorem Steps.keep {α : Type} (view : List Word → α) (condition : Point → Prop) {p q : Point}
    (hkept : ∀ {p q}, Step p q → condition p → condition q)
    (hview : ∀ {p q}, Step p q → condition p → view q.stems = view p.stems)
    (h : Steps p q) (hp : condition p) : view q.stems = view p.stems :=
  Steps.related (fun stems changed => view changed = view stems) condition (fun _ => rfl)
    (fun hfirst hsecond => hsecond.trans hfirst) hkept hview h hp

theorem Steps.length_stems {p q : Point} (h : Steps p q) : q.stems.length = p.stems.length := by
  induction h with
  | refl => rfl
  | tail _ hstep ih => exact hstep.length_stems.trans ih

/-- A run that has an end cannot take another way. -/
theorem Steps.of_end {p q : Point} {changed observed : List Word}
    (h : Steps p ⟨[], changed, observed, []⟩) (hq : Steps p q) :
    Steps q ⟨[], changed, observed, []⟩ := by
  have hunique : Relator.RightUnique Step := fun _ _ _ => Step.unique
  rcases Relation.ReflTransGen.total_of_right_unique hunique hq h with hend | hend
  · exact hend
  · rcases Relation.ReflTransGen.cases_head hend with heq | ⟨next, hstep, -⟩
    · rw [heq]
    · cases hstep

theorem Steps.end_unique {p : Point} {changed changed' observed observed' : List Word}
    (h : Steps p ⟨[], changed, observed, []⟩) (h' : Steps p ⟨[], changed', observed', []⟩) :
    changed = changed' := by
  rcases Relation.ReflTransGen.cases_head (h.of_end h') with heq | ⟨next, hstep, -⟩
  · cases heq
    rfl
  · cases hstep

/-! ### Runs are made in steps -/

section Run

variable {observed : List Word} {stages : List (List Morpheme)}

mutual

/-- A morpheme that acts does so in steps, whatever is to be done behind it. -/
theorem steps_of_applyObserving : ∀ (m : Morpheme) {stems changed : List Word}, observed ≠ [] →
    stems.length = observed.length → m.applyObserving stems observed = .ok changed →
    ∀ pending, Steps ⟨m :: pending, stems, observed, stages⟩ ⟨pending, changed, observed, stages⟩
  | .identity, stems, changed, hne, hlength, h, pending => by
    rw [Morpheme.applyObserving] at h
    cases h
    exact .single (.opens .identity)
  | .edit e, stems, changed, hne, hlength, h, pending => by
    rw [Morpheme.applyObserving] at h
    have hedge := Morpheme.changesEdge_of_onEdgeStem hne hlength h
    exact .single (.acts (.edit hedge))
  | .affix x, stems, changed, hne, hlength, h, pending => by
    rw [Morpheme.applyObserving] at h
    have hedge := Morpheme.changesEdge_of_onEdgeStem hne hlength h
    exact .single (.acts (.affix hedge))
  | .interfix x, stems, changed, hne, hlength, h, pending => by
    rw [Morpheme.applyObserving] at h
    have hlinks := Interfix.links_of_applyObserving hne hlength h
    exact .single (.acts (.interfix hlinks))
  | .composite parts, stems, changed, hne, hlength, h, pending => by
    rw [Morpheme.applyObserving] at h
    have hparts := steps_of_applyEach parts hne hlength h pending
    exact .head (.opens (.composite parts)) hparts
  | .conditional condition met unmet, stems, changed, hne, hlength, h, pending => by
    rw [Morpheme.applyObserving] at h
    cases hholds : condition.holds observed.flatten with
    | true =>
      rw [if_pos hholds] at h
      have hmet := steps_of_applyObserving met hne hlength h pending
      exact .head (.opens (.met hholds met unmet)) hmet
    | false =>
      rw [if_neg (by simp [hholds])] at h
      have hunmet := steps_of_applyObserving unmet hne hlength h pending
      exact .head (.opens (.unmet hholds met unmet)) hunmet
  | .choice arms, stems, changed, hne, hlength, h, pending => by
    rw [Morpheme.applyObserving] at h
    obtain ⟨parts, hopens, hparts⟩ := steps_of_applyFirst arms hne hlength h pending
    exact .head (.opens hopens) hparts

theorem steps_of_applyEach : ∀ (parts : List Morpheme) {stems changed : List Word},
    observed ≠ [] → stems.length = observed.length →
    Morpheme.applyEach parts stems observed = .ok changed → ∀ pending,
    Steps ⟨parts ++ pending, stems, observed, stages⟩ ⟨pending, changed, observed, stages⟩
  | [], stems, changed, hne, hlength, h, pending => by
    rw [Morpheme.applyEach] at h
    cases h
    exact .refl
  | part :: parts, stems, changed, hne, hlength, h, pending => by
    rw [Morpheme.applyEach] at h
    obtain ⟨between, hbetween, hothers⟩ := bind_eq_ok.mp h
    have hfirst := steps_of_applyObserving part hne hlength hbetween (parts ++ pending)
    have hlength' : between.length = observed.length := hfirst.length_stems.trans hlength
    exact hfirst.trans (steps_of_applyEach parts hne hlength' hothers pending)

theorem steps_of_applyFirst : ∀ (arms : List (EdgeCondition × Morpheme))
    {stems changed : List Word}, observed ≠ [] → stems.length = observed.length →
    Morpheme.applyFirst arms stems observed = .ok changed → ∀ pending, ∃ parts,
    (Morpheme.choice arms).Opens observed parts ∧
    Steps ⟨parts ++ pending, stems, observed, stages⟩ ⟨pending, changed, observed, stages⟩
  | [], stems, changed, hne, hlength, h, pending => by
    rw [Morpheme.applyFirst] at h
    cases h
    exact ⟨[], .passed rfl, .refl⟩
  | (condition, arm) :: arms, stems, changed, hne, hlength, h, pending => by
    rw [Morpheme.applyFirst] at h
    cases hholds : condition.holds observed.flatten with
    | true =>
      rw [if_pos hholds] at h
      have harm := steps_of_applyObserving arm hne hlength h pending
      exact ⟨[arm], .taken (List.find?_cons_of_pos hholds), harm⟩
    | false =>
      rw [if_neg (by simp [hholds])] at h
      obtain ⟨parts, hopens, hparts⟩ := steps_of_applyFirst arms hne hlength h pending
      exact ⟨parts, hopens.behind hholds, hparts⟩

end

/-- Stages that run do so in steps. -/
theorem steps_of_runStages {stems changed : List Word} (hne : stems ≠ [])
    (h : runStages stages stems = .ok changed) (observed : List Word) :
    ∃ observed', Steps ⟨[], stems, observed, stages⟩ ⟨[], changed, observed', []⟩ := by
  induction stages generalizing stems observed with
  | nil =>
    cases h
    exact ⟨observed, .refl⟩
  | cons stage stages ih =>
    obtain ⟨between, hbetween, hothers⟩ := bind_eq_ok.mp h
    have hstage : Steps ⟨stage ++ [], stems, stems, stages⟩ ⟨[], between, stems, stages⟩ :=
      steps_of_applyEach stage hne rfl hbetween []
    rw [List.append_nil] at hstage
    have hne' : between ≠ [] := by
      rw [← List.length_pos_iff, hstage.length_stems]
      exact List.length_pos_iff.mpr hne
    obtain ⟨observed', hmore⟩ := ih hne' hothers stems
    exact ⟨observed', .head .stage (hstage.trans hmore)⟩

theorem length_runStages {stems changed : List Word} (hne : stems ≠ [])
    (h : runStages stages stems = .ok changed) : changed.length = stems.length := by
  obtain ⟨observed', hsteps⟩ := steps_of_runStages hne h stems
  exact Steps.length_stems hsteps

end Run

end WordFormation
