/-
  WordFormation/Proofs/EdgeMorphemes.lean
  =======================================
  **What acts at the edges of stems only never fails.**

  An edit can fail because the word has no such place.  An edge is a place that
  every word has, the empty one as well, and at an edge nothing is required to be
  there: a form that is not found is not taken off.  So a morpheme whose affixes
  are all at edges (`AtEdges`) comes out well on any stems, whatever was observed
  before (`AtEdges.yieldsStems`).

  Every morpheme of a rule is of this kind (`Rule.atEdges_ofBlueprint`), and so is its
  antonym (`AtEdges.antonym`), since neither changes the place of an affix.
-/
import WordFormation.Proofs.Antonyms
import WordFormation.Proofs.Descriptors
import WordFormation.Proofs.Mirroring
import WordFormation.Proofs.Presence

namespace WordFormation

/-! ### Affixes at an edge -/

namespace Allomorphs

theorem exists_insertAt_edge (a : Allomorphs) (w : Word) (edge : Edge) :
    ∃ w', a.insertAt w edge.position = .ok w' := by
  have hgap (a : Allomorphs) (w : Word) : ∃ w', a.insertAtGap w 0 = some w' :=
    ⟨_, a.insertAtGap_eq (Nat.zero_le _)⟩
  unfold insertAt
  cases edge with
  | start =>
    obtain ⟨w', hw'⟩ := hgap a w
    rw [Edge.position, solveAt_start, hw']
    exact ⟨w', rfl⟩
  | final =>
    obtain ⟨w', hw'⟩ := hgap a.reversed w.reverse
    rw [Edge.position, solveAt_final]
    refine ⟨w'.reverse, solveReversed_of_ok ?_⟩
    rw [hw']

theorem exists_removeAt_edge (a : Allomorphs) (w : Word) (edge : Edge) :
    ∃ w', a.removeAt w edge.position = .ok w' := by
  cases edge with
  | start => exact ⟨_, rfl⟩
  | final => exact ⟨_, rfl⟩

end Allomorphs

theorem Affix.exists_applyObserving {x : Affix} {edge : Edge} (h : x.place = edge.position)
    (w observed : Word) : ∃ w', x.applyObserving w observed = .ok w' := by
  have hpresent : x.isPresent observed = .ok (x.form.standsAt edge observed) := by
    rw [isPresent, h, x.form.isAt_position]
  have hinsert := x.form.exists_insertAt_edge w edge
  have hremove := x.form.exists_removeAt_edge w edge
  rw [← h] at hinsert hremove
  unfold applyObserving
  cases x.polarity with
  | insert => exact hinsert
  | remove =>
    simp only [hpresent, ok_bind]
    cases x.form.standsAt edge observed with
    | true => exact hremove
    | false => exact ⟨w, rfl⟩
  | toggle =>
    simp only [hpresent, ok_bind]
    cases x.form.standsAt edge observed with
    | true => exact hremove
    | false => exact hinsert

/-! ### Outcomes on stems -/

/-- The outcome are stems, as many of them as there were if there were any. -/
def YieldsStems (stems : List Word) (outcome : Edited (List Word)) : Prop :=
  ∃ changed, outcome = .ok changed ∧ (stems ≠ [] → changed.length = stems.length)

namespace YieldsStems

variable {stems changed : List Word} {outcome : Edited (List Word)}

theorem same (stems : List Word) : YieldsStems stems (.ok stems) := ⟨stems, rfl, fun _ => rfl⟩

theorem bind (h : YieldsStems stems outcome) {f : List Word → Edited (List Word)}
    (hf : ∀ changed, YieldsStems changed (f changed)) : YieldsStems stems (outcome >>= f) := by
  obtain ⟨between, rfl, hbetween⟩ := h
  obtain ⟨final, hfinal, hlength⟩ := hf between
  refine ⟨final, hfinal, fun hne => ?_⟩
  have hne' : between ≠ [] := by
    rw [← List.length_pos_iff, hbetween hne]
    exact List.length_pos_iff.mpr hne
  exact (hlength hne').trans (hbetween hne)

end YieldsStems

theorem Morpheme.yieldsStems_onEdgeStem (stems observed : List Word) (p : Position)
    {change : Word → Word → Edited Word} (h : ∀ w seen, ∃ w', change w seen = .ok w') :
    YieldsStems stems (onEdgeStem stems observed p change) := by
  unfold onEdgeStem
  simp only
  generalize (if 0 < p.val then 0 else _) = index
  obtain ⟨w', hw'⟩ := h ((if stems.isEmpty then [[]] else stems)[index]?.getD [])
    (observed[index]?.getD ((if stems.isEmpty then [[]] else stems)[index]?.getD []))
  rw [hw', ok_bind]
  refine ⟨_, rfl, fun hne => ?_⟩
  rw [List.length_set, if_neg (by simpa using hne)]

theorem Interfix.yieldsStems (x : Interfix) (stems observed : List Word) :
    YieldsStems stems (x.applyObserving stems observed) := by
  induction stems generalizing observed with
  | nil => exact .same []
  | cons stem stems ih =>
    cases stems with
    | nil => exact .same [stem]
    | cons next stems =>
      have hedge : x.edge.place = Edge.final.position := rfl
      obtain ⟨linked, hlinked⟩ := Affix.exists_applyObserving hedge stem (observed.headD stem)
      obtain ⟨others, hothers, hlength⟩ := ih observed.tail
      refine ⟨linked :: others, ?_, fun _ => ?_⟩
      · rw [applyObserving, hlinked, ok_bind, hothers]
        rfl
      · rw [List.length_cons, hlength (List.cons_ne_nil _ _)]
        rfl

/-! ### Morphemes at edges -/

namespace Morpheme

/-- All affixes in the morpheme are at edges, and no single edit is in it. -/
inductive AtEdges : Morpheme → Prop where
  | identity : AtEdges .identity
  | affix {x : Affix} (edge : Edge) (h : x.place = edge.position) : AtEdges (.affix x)
  | interfix (x : Interfix) : AtEdges (.interfix x)
  | composite {parts : List Morpheme} (h : ∀ part ∈ parts, AtEdges part) :
      AtEdges (.composite parts)
  | conditional (condition : EdgeCondition) {met unmet : Morpheme} (hmet : AtEdges met)
      (hunmet : AtEdges unmet) : AtEdges (.conditional condition met unmet)
  | choice {arms : List (EdgeCondition × Morpheme)} (h : ∀ arm ∈ arms, AtEdges arm.2) :
      AtEdges (.choice arms)

theorem yieldsStems_applyEach {parts : List Morpheme} {observed : List Word}
    (h : ∀ part ∈ parts, ∀ stems, YieldsStems stems (part.applyObserving stems observed))
    (stems : List Word) : YieldsStems stems (applyEach parts stems observed) := by
  induction parts generalizing stems with
  | nil => exact .same stems
  | cons part parts ih =>
    rw [applyEach]
    refine (h part List.mem_cons_self stems).bind fun changed => ?_
    exact ih (fun other hother => h other (List.mem_cons_of_mem part hother)) changed

theorem yieldsStems_applyFirst {arms : List (EdgeCondition × Morpheme)} {observed : List Word}
    (h : ∀ arm ∈ arms, ∀ stems, YieldsStems stems (arm.2.applyObserving stems observed))
    (stems : List Word) : YieldsStems stems (applyFirst arms stems observed) := by
  induction arms with
  | nil => exact .same stems
  | cons arm arms ih =>
    obtain ⟨condition, m⟩ := arm
    rw [applyFirst]
    split
    · exact h _ List.mem_cons_self stems
    · exact ih fun other hother => h other (List.mem_cons_of_mem _ hother)

/-- A morpheme at edges never fails, and it keeps the number of stems. -/
theorem AtEdges.yieldsStems {m : Morpheme} (h : m.AtEdges) (stems observed : List Word) :
    YieldsStems stems (m.applyObserving stems observed) := by
  induction h generalizing stems with
  | identity => exact .same stems
  | affix _ hplace =>
    rw [applyObserving]
    exact yieldsStems_onEdgeStem _ _ _ fun w seen => Affix.exists_applyObserving hplace w seen
  | interfix x =>
    rw [applyObserving]
    exact x.yieldsStems stems observed
  | composite _ ih =>
    rw [applyObserving]
    exact yieldsStems_applyEach ih stems
  | conditional condition _ _ ihmet ihunmet =>
    rw [applyObserving]
    split
    · exact ihmet stems
    · exact ihunmet stems
  | choice _ ih =>
    rw [applyObserving]
    exact yieldsStems_applyFirst ih stems

/-! ### Antonyms -/

/-- The opposite of an affix is at the same place. -/
theorem AtEdges.antonym {m : Morpheme} (h : m.AtEdges) : m.antonym.AtEdges := by
  induction h with
  | identity => exact .identity
  | affix edge hplace => exact .affix edge hplace
  | interfix x => exact .interfix x.antonym
  | composite _ ih =>
    rw [Morpheme.antonym, antonymEach_eq_map]
    apply AtEdges.composite
    intro part hpart
    obtain ⟨original, horiginal, rfl⟩ := List.mem_map.mp (List.mem_reverse.mp hpart)
    exact ih original horiginal
  | conditional condition _ _ ihmet ihunmet => exact .conditional condition ihmet ihunmet
  | choice _ ih =>
    rw [Morpheme.antonym, antonymArms_eq_map]
    apply AtEdges.choice
    intro arm harm
    obtain ⟨original, horiginal, rfl⟩ := List.mem_map.mp harm
    exact ih original horiginal

/-! ### Assembled morphemes -/

theorem isClosed_atEdges : IsClosed AtEdges where
  identity := .identity
  composite := .composite
  conditional := .conditional
  choice := .choice

end Morpheme

open Morpheme

/-- What descriptors make acts at an edge. -/
theorem Descriptor.Makes.atEdges {d : Descriptor} {m : Morpheme} (h : d.Makes m) : m.AtEdges := by
  rcases h.affix_or_interfix with ⟨form, p, edge, rfl, -, -⟩ | ⟨form, p, rfl, -⟩
  · exact .affix edge rfl
  · exact .interfix ⟨form, p⟩

/-! ### Rules -/

namespace Rule

/-- All morphemes of the rule act at edges. -/
def AtEdges (r : Rule) : Prop := ∀ stage ∈ r.stages, ∀ m ∈ stage, m.AtEdges

/-- Whatever is nested in the operations of a blueprint, its rule acts at edges. -/
theorem atEdges_ofBlueprint {b : Blueprint} {r : Rule} (h : ofBlueprint b = .ok r) :
    r.AtEdges :=
  isClosed_atEdges.stages h fun _ _ _ hmade => hmade.atEdges

theorem AtEdges.antonym {r : Rule} (h : r.AtEdges) : r.antonym.AtEdges := by
  intro stage hstage m hm
  obtain ⟨original, horiginal, rfl⟩ := List.mem_map.mp (List.mem_reverse.mp hstage)
  obtain ⟨m', hm', rfl⟩ := List.mem_map.mp (List.mem_reverse.mp hm)
  exact (h original horiginal m' hm').antonym

end Rule

/-- Stages at edges never fail, whatever the stems are, and none of them changes
    their number. -/
theorem yieldsStems_runStages {stages : List (List Morpheme)}
    (h : ∀ stage ∈ stages, ∀ m ∈ stage, m.AtEdges) (stems : List Word) :
    YieldsStems stems (runStages stages stems) := by
  induction stages generalizing stems with
  | nil => exact .same stems
  | cons stage stages ih =>
    have hstage : YieldsStems stems (applyEach stage stems stems) :=
      yieldsStems_applyEach (fun m hm stems' =>
        (h stage List.mem_cons_self m hm).yieldsStems stems' stems) stems
    rw [runStages]
    refine hstage.bind fun changed => ?_
    exact ih (fun other hother => h other (List.mem_cons_of_mem stage hother)) changed

end WordFormation
