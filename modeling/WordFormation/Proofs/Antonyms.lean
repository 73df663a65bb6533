/-
  WordFormation/Proofs/Antonyms.lean
  ==================================
  **The opposite of the opposite.**

  An antonym turns the order of what is done one after the other around and leaves the
  order of what is chosen from as it is.  Taken twice it turns every order around twice
  and exchanges every two letters twice, however deep they are nested, and so it is
  nothing at all (`Morpheme.antonym_antonym`).  A rule is then the antonym of its antonym,
  with all that follows for its runs (`antonym_involution`).

  A sequence of one morpheme is no composite, and one of none is the identity.  The
  antonym does not see the difference (`Morpheme.antonym_sequence`).
-/
import WordFormation.Rule

namespace WordFormation

namespace Morpheme

/-! ### Morphemes -/

theorem antonymArms_eq_map (arms : List (EdgeCondition × Morpheme)) :
    antonymArms arms = arms.map fun arm => (arm.1, arm.2.antonym) := by
  induction arms with
  | nil => rfl
  | cons arm arms ih => rw [antonymArms, ih, List.map_cons]

mutual

@[simp] theorem antonym_antonym : ∀ m : Morpheme, m.antonym.antonym = m
  | .identity => by rw [antonym, antonym]
  | .edit e => by
    rw [antonym, antonym]
    rfl
  | .affix x => by rw [antonym, antonym, Affix.antonym_antonym]
  | .interfix x => by rw [antonym, antonym, Interfix.antonym_antonym]
  | .composite parts => by
    rw [antonym, antonym, antonymEach_eq_map, antonymEach_eq_map, List.map_reverse,
      List.reverse_reverse, map_antonym_antonym parts]
  | .conditional condition met unmet => by
    rw [antonym, antonym, antonym_antonym met, antonym_antonym unmet]
  | .choice arms => by rw [antonym, antonym, antonymArms_antonymArms arms]

theorem map_antonym_antonym : ∀ parts : List Morpheme, (parts.map antonym).map antonym = parts
  | [] => rfl
  | part :: parts => by
    rw [List.map_cons, List.map_cons, antonym_antonym part, map_antonym_antonym parts]

theorem antonymArms_antonymArms :
    ∀ arms : List (EdgeCondition × Morpheme), antonymArms (antonymArms arms) = arms
  | [] => rfl
  | (condition, arm) :: arms => by
    rw [antonymArms, antonymArms, antonym_antonym arm, antonymArms_antonymArms arms]

end

/-! ### Sequences -/

theorem sequence_of_two_le {parts : List Morpheme} (h : 2 ≤ parts.length) :
    sequence parts = composite parts := by
  match parts with
  | first :: second :: others => rfl

/-- What is undone in a sequence is undone in the reverse order, also where the sequence
    is no composite. -/
theorem antonym_sequence (parts : List Morpheme) :
    (sequence parts).antonym = sequence (parts.map antonym).reverse := by
  match parts with
  | [] =>
    rw [sequence, antonym]
    rfl
  | [part] => rfl
  | first :: second :: others =>
    have hlength : 2 ≤ (first :: second :: others).length := by simp
    have hreversed : 2 ≤ ((first :: second :: others).map antonym).reverse.length := by simp
    rw [sequence_of_two_le hlength, sequence_of_two_le hreversed, antonym, antonymEach_eq_map]

end Morpheme

/-! ### Rules -/

namespace Rule

@[simp] theorem antonym_antonym (r : Rule) : r.antonym.antonym = r := by
  have hstage (stage : List Morpheme) :
      (((stage.map Morpheme.antonym).reverse).map Morpheme.antonym).reverse = stage := by
    rw [List.map_reverse, List.reverse_reverse, Morpheme.map_antonym_antonym]
  have hstages : r.antonym.antonym.stages = r.stages := by
    simp only [antonym, List.map_reverse, List.reverse_reverse, List.map_map]
    refine (List.map_congr_left fun stage _ => ?_).trans (List.map_id r.stages)
    simpa using hstage stage
  cases r
  exact congrArg (Rule.mk _) hstages

end Rule

/-- **The antonym of the antonym does the same as the rule**, to a word, to stems and with
    a record, and it fails where the rule fails.  All its morphemes are those of the rule
    again.  The antonym of a sequence is the sequence of the antonyms in reverse order. -/
theorem antonym_involution :
    (∀ m : Morpheme, m.antonym.antonym = m) ∧
    (∀ r : Rule, r.antonym.antonym.stages = r.stages ∧
      (∀ w, r.antonym.antonym.apply w = r.apply w) ∧
      (∀ stems, r.antonym.antonym.applyCompound stems = r.applyCompound stems) ∧
      ∀ w, r.antonym.antonym.derive w = r.derive w) ∧
    ∀ parts : List Morpheme,
      (Morpheme.sequence parts).antonym = Morpheme.sequence (parts.map Morpheme.antonym).reverse := by
  refine ⟨Morpheme.antonym_antonym, ?_, Morpheme.antonym_sequence⟩
  intro r
  rw [Rule.antonym_antonym]
  exact ⟨rfl, fun _ => rfl, fun _ => rfl, fun _ => rfl⟩

end WordFormation
