/-
  WordFormation/Proofs/Totality.lean
  ==================================
  **Once a tree is read, nothing fails any more.**

  Every step from the tree of a rule to the word that the rule makes can be
  refused in principle.  In fact only reading and assembling refuse anything, and
  assembling refuses nothing that was read (`gives_readRule`).  A rule that was
  assembled can be applied to every word and to all stems, to no stems at all as
  well, and so can its antonym, the antonym of that, and so on: all of their
  morphemes act at edges (`Rule.AtEdges`).
-/
import Mathlib.Logic.Function.Iterate
import WordFormation.Proofs.EdgeMorphemes
import WordFormation.Proofs.RuleText.Operands

namespace WordFormation

open RuleText

namespace Rule

theorem exists_ofBlueprint {b : Blueprint} (h : ∀ g ∈ b.groups, AllAssemble g) :
    ∃ r, ofBlueprint b = .ok r := by
  obtain ⟨stages, hstages⟩ := exists_assembleGroups h
  exact ⟨⟨b, stages⟩, by rw [ofBlueprint, hstages]; rfl⟩

theorem AtEdges.iterate_antonym {r : Rule} (h : r.AtEdges) (n : Nat) :
    (Rule.antonym^[n] r).AtEdges :=
  Function.Iterate.rec Rule.AtEdges h (fun _ => AtEdges.antonym) n

section AtEdges

variable {r : Rule} (h : r.AtEdges)
include h

theorem AtEdges.exists_apply (w : Word) : ∃ w', r.apply w = .ok w' := by
  obtain ⟨stems, hstems, -⟩ := yieldsStems_runStages h [w]
  exact ⟨stems.flatten, by rw [apply, hstems]; rfl⟩

theorem AtEdges.exists_applyCompound (stems : List Word) :
    ∃ stems', r.applyCompound stems = .ok stems' := by
  obtain ⟨stems', hstems', -⟩ := yieldsStems_runStages h (if stems.isEmpty then [[]] else stems)
  exact ⟨stems', hstems'⟩

/-- A run that is recorded is the run that is not. -/
theorem AtEdges.exists_derive (w : Word) : ∃ d, r.derive w = .ok d := by
  obtain ⟨w', hw'⟩ := h.exists_apply w
  rw [← derive_output] at hw'
  cases hd : r.derive w with
  | error failure =>
    rw [hd] at hw'
    cases hw'
  | ok d => exact ⟨d, rfl⟩

end AtEdges

/-- **What was read can be assembled, and what was assembled can be applied**, to
    a word, to the stems of a compound, and with a record.  The same goes for
    antonyms, of any order. -/
theorem no_failure_after_reading :
    (∀ (t : Tree) (b : Blueprint), t.readRule = .ok b → ∃ r, ofBlueprint b = .ok r) ∧
    ∀ (b : Blueprint) (r : Rule), ofBlueprint b = .ok r → ∀ n : Nat,
      (∀ w, ∃ w', (Rule.antonym^[n] r).apply w = .ok w') ∧
      (∀ stems, ∃ stems', (Rule.antonym^[n] r).applyCompound stems = .ok stems') ∧
      ∀ w, ∃ d, (Rule.antonym^[n] r).derive w = .ok d := by
  constructor
  · intro t b hread
    exact exists_ofBlueprint (Tree.gives_readRule t b hread)
  · intro b r hr n
    have hedges := AtEdges.iterate_antonym (atEdges_ofBlueprint hr) n
    exact ⟨hedges.exists_apply, hedges.exists_applyCompound, hedges.exists_derive⟩

/-- No text has this tree: the marks of its interfix disagree, and there are no
    wrappers.  Both of its prefixes are seen on `gea`, which has only one. -/
def wrapperlessTree : Tree :=
  .node .rule [.node .stages [.node .group [
    .node .interfix [.leaf ['+'], .node .letters [.leaf ['s']], .leaf ['-']], .leaf [','],
    .node .prefixes [.node .letters [.leaf ['g', 'e']], .leaf ['-'],
      .node .letters [.leaf ['g', 'e']], .leaf ['-']]]]]

theorem no_failure_wrapperlessTree :
    ∃ b r, wrapperlessTree.readRule = .ok b ∧ ofBlueprint b = .ok r ∧
      r.apply ['g', 'e', 'a'] = .ok ['a'] ∧
      (∃ stems', (Rule.antonym^[3] r).applyCompound [] = .ok stems') ∧
      ∃ d, (Rule.antonym^[2] r).derive ['g', 'e', 'a'] = .ok d := by
  have hread : wrapperlessTree.readRule = .ok ⟨none, [[.affix .interfixed none [_],
      .putBefore _ .remove, .putBefore _ .remove]]⟩ := rfl
  obtain ⟨r, hr⟩ := no_failure_after_reading.1 _ _ hread
  obtain ⟨-, hcompound, -⟩ := no_failure_after_reading.2 _ r hr 3
  obtain ⟨-, -, hderive⟩ := no_failure_after_reading.2 _ r hr 2
  refine ⟨_, r, hread, hr, ?_, hcompound [], hderive _⟩
  cases hr
  rfl

end Rule

end WordFormation
