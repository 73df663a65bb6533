/-
  WordFormation/Proofs/Occurrences.lean
  =====================================
  **What occurs in a rule and in its antonym.**

  Every affix and every interfix in a rule stands for a descriptor of the blueprint that
  the rule was made from (`Rule.Has.exists_makes`).  So what is true of whatever the
  descriptors make is true of all that changes stems in the rule (`Rule.only_ofBlueprint`),
  and no step of a run brings up anything else (`Step.only`).  In the antonym the opposite of each
  occurs and nothing else, because the antonym of the antonym is the rule again
  (`Rule.has_of_antonym`).
-/
import WordFormation.Proofs.CompoundFrame
import WordFormation.Proofs.EmptyStems

namespace WordFormation

/-! ### What the descriptors make -/

namespace Morpheme

/-- Nothing is nested in an operation that is made of no others. -/
theorem IsLeaf.eq_of_occursIn {m leaf : Morpheme} (hleaf : leaf.IsLeaf) (h : m.OccursIn leaf) :
    m = leaf := by
  cases hleaf with
  | edit e =>
    cases h
    rfl
  | affix x =>
    cases h
    rfl
  | interfix x =>
    cases h
    rfl

theorem Acts.isLeaf {m : Morpheme} {stems observed changed : List Word}
    (h : m.Acts stems observed changed) : m.IsLeaf := by
  cases h with
  | edit h => exact .edit _
  | affix h => exact .affix _
  | interfix h => exact .interfix _

theorem IsLeaf.antonym {m : Morpheme} (h : m.IsLeaf) : m.antonym.IsLeaf := by
  cases h with
  | edit e => exact .edit e.antonym
  | affix x => exact .affix x.antonym
  | interfix x => exact .interfix x.antonym

/-- What has no other parts than those with a property is put together from them. -/
theorem isClosed_occursIn (P : Morpheme → Prop) :
    IsClosed fun whole => ∀ leaf : Morpheme, leaf.IsLeaf → leaf.OccursIn whole → P leaf where
  identity := by
    intro leaf hleaf h
    cases h
    cases hleaf
  composite := by
    intro parts hparts leaf hleaf h
    cases h with
    | whole => cases hleaf
    | part hpart h => exact hparts _ hpart leaf hleaf h
  conditional := by
    intro condition met unmet hmet hunmet leaf hleaf h
    cases h with
    | whole => cases hleaf
    | met h => exact hmet leaf hleaf h
    | unmet h => exact hunmet leaf hleaf h
  choice := by
    intro arms harms leaf hleaf h
    cases h with
    | whole => cases hleaf
    | arm harm h => exact harms _ harm leaf hleaf h

end Morpheme

theorem Descriptor.Makes.isLeaf {d : Descriptor} {m : Morpheme} (h : d.Makes m) : m.IsLeaf := by
  rcases h.affix_or_interfix with ⟨form, p, edge, rfl, -, -⟩ | ⟨form, p, rfl, -⟩
  · exact .affix _
  · exact .interfix _

/-- What changes stems in a rule stands for a descriptor. -/
theorem Rule.Has.exists_makes {b : Blueprint} {r : Rule} (h : Rule.ofBlueprint b = .ok r)
    {leaf : Morpheme} (hleaf : leaf.IsLeaf) (hhas : r.Has leaf) :
    ∃ d ∈ b.descriptors, d.Makes leaf := by
  have hmade : ∀ d ∈ b.descriptors, ∀ made, d.Makes made → ∀ leaf : Morpheme, leaf.IsLeaf →
      leaf.OccursIn made → ∃ d ∈ b.descriptors, d.Makes leaf := by
    intro d hd made hmakes leaf _ hoccurs
    obtain rfl := hmakes.isLeaf.eq_of_occursIn hoccurs
    exact ⟨d, hd, hmakes⟩
  obtain ⟨whole, hwhole, hoccurs⟩ := hhas
  obtain ⟨stage, hstage, hmem⟩ := List.mem_flatten.mp hwhole
  exact (Morpheme.isClosed_occursIn _).stages h hmade stage hstage whole hmem leaf hleaf hoccurs

/-! ### What is true of everything that changes stems -/

/-- All that is still to be done is done by morphemes with the property. -/
def Point.Only (P : Morpheme → Prop) (p : Point) : Prop :=
  ∀ leaf : Morpheme, leaf.IsLeaf → p.Has leaf → P leaf

theorem Step.only {P : Morpheme → Prop} {p q : Point} (h : Step p q) (hp : p.Only P) : q.Only P :=
  fun leaf hleaf hhas => hp leaf hleaf (h.has hhas)

theorem Point.Only.of_acts {P : Morpheme → Prop} {m : Morpheme} {pending : List Morpheme}
    {stems observed changed : List Word} {stages : List (List Morpheme)}
    (hp : Point.Only P ⟨m :: pending, stems, observed, stages⟩) (h : m.Acts stems observed changed) :
    P m :=
  hp m h.isLeaf Point.has_head

/-- All that changes stems in the rule has the property. -/
def Rule.Only (P : Morpheme → Prop) (r : Rule) : Prop :=
  ∀ leaf : Morpheme, leaf.IsLeaf → r.Has leaf → P leaf

theorem Rule.only_ofBlueprint {P : Morpheme → Prop} {b : Blueprint} {r : Rule}
    (h : Rule.ofBlueprint b = .ok r) (hmade : ∀ d ∈ b.descriptors, ∀ made, d.Makes made → P made) :
    r.Only P := by
  intro leaf hleaf hhas
  obtain ⟨d, hd, hmakes⟩ := hhas.exists_makes h hleaf
  exact hmade d hd leaf hmakes

/-! ### Antonyms -/

namespace Morpheme

theorem OccursIn.antonym {m whole : Morpheme} (h : m.OccursIn whole) :
    m.antonym.OccursIn whole.antonym := by
  induction h with
  | whole => exact .whole
  | part hpart _ ih =>
    rw [Morpheme.antonym, antonymEach_eq_map]
    exact .part (List.mem_reverse.mpr (List.mem_map_of_mem hpart)) ih
  | met _ ih => exact .met ih
  | unmet _ ih => exact .unmet ih
  | @arm arms arm harm _ ih =>
    rw [Morpheme.antonym, antonymArms_eq_map]
    have harm' : (arm.1, arm.2.antonym) ∈ arms.map fun arm => (arm.1, arm.2.antonym) :=
      List.mem_map_of_mem harm
    exact .arm harm' ih

end Morpheme

namespace Rule

theorem Has.antonym {r : Rule} {m : Morpheme} (h : r.Has m) : r.antonym.Has m.antonym := by
  obtain ⟨whole, hwhole, hoccurs⟩ := h
  obtain ⟨stage, hstage, hmem⟩ := List.mem_flatten.mp hwhole
  have hstage' : (stage.map Morpheme.antonym).reverse ∈ r.antonym.stages :=
    List.mem_reverse.mpr (List.mem_map_of_mem hstage)
  have hmem' : whole.antonym ∈ (stage.map Morpheme.antonym).reverse :=
    List.mem_reverse.mpr (List.mem_map_of_mem hmem)
  exact ⟨whole.antonym, List.mem_flatten_of_mem hstage' hmem', hoccurs.antonym⟩

/-- What occurs in the antonym is the opposite of something that occurs in the rule. -/
theorem has_of_antonym {r : Rule} {m : Morpheme} (h : r.antonym.Has m) : r.Has m.antonym := by
  obtain ⟨whole, hwhole, hoccurs⟩ := h.antonym
  rw [antonym_antonym] at hwhole
  exact ⟨whole, hwhole, hoccurs⟩

end Rule

end WordFormation
