/-
  WordFormation/Proofs/Linking.lean
  =================================
  **Linking the stems of a compound, and taking the links out again.**

  An interfix with a single form puts its letters on the end of every stem but the last
  (`linked`).  When they are removed, the stems are observed as they are, and every stem
  that was linked ends with the letters.  So they are found in each of them, and only
  these letters are taken off: a stem that ended with the same letters before keeps its
  own.
-/
import WordFormation.Proofs.RuleText.OptionalParts

namespace WordFormation

open RuleText

/-! ### Linked stems -/

/-- The stems with the letters at the end of each but the last. -/
def linked (letters : Word) : List Word → List Word
  | [] => []
  | [last] => [last]
  | stem :: next :: stems => (stem ++ letters) :: linked letters (next :: stems)

theorem length_linked (letters : Word) (stems : List Word) :
    (linked letters stems).length = stems.length := by
  induction stems with
  | nil => rfl
  | cons stem stems ih =>
    cases stems with
    | nil => rfl
    | cons next stems => exact congrArg (· + 1) ih

/-- The letters stand between every two stems. -/
theorem flatten_linked (letters : Word) (stems : List Word) :
    (linked letters stems).flatten = letters.intercalate stems := by
  induction stems with
  | nil => rfl
  | cons stem stems ih =>
    cases stems with
    | nil => rw [linked, List.flatten_singleton, List.intercalate_singleton]
    | cons next stems => rw [linked, List.flatten_cons, ih, List.intercalate_cons_cons]

/-! ### What an interfix does -/

namespace Interfix

variable (letters : Word)

theorem applyObserving_insert (stems observed : List Word) :
    applyObserving ⟨.only letters, .insert⟩ stems observed = .ok (linked letters stems) := by
  induction stems generalizing observed with
  | nil => rfl
  | cons stem stems ih =>
    cases stems with
    | nil => rfl
    | cons next stems =>
      have hlinked : (edge ⟨.only letters, .insert⟩).applyObserving stem (observed.headD stem) =
          .ok (stem ++ letters) :=
        Attachment.affix_applyObserving ⟨.final, letters⟩ .insert stem (observed.headD stem)
      rw [applyObserving, hlinked, ok_bind, ih, ok_bind, linked]
      rfl

variable {letters} (hne : letters ≠ [])
include hne

/-- Letters that were put on the end of a stem are found there and taken off. -/
theorem applyObserving_edge_remove (stem : Word) :
    (edge ⟨.only letters, .remove⟩).applyObserving (stem ++ letters) (stem ++ letters) =
      .ok stem := by
  have hact := Attachment.affix_applyObserving ⟨.final, letters⟩ .remove (stem ++ letters)
    (stem ++ letters)
  have hfound : Edge.final.isTouchedBy letters (stem ++ letters) = true :=
    Edge.final.isTouchedBy_attach letters stem
  rw [Attachment.act, Allomorphs.standsAt_only hne, if_pos hfound] at hact
  exact hact.trans (congrArg Except.ok (Edge.final.detach_attach letters stem))

/-- The links are taken out of stems that were linked. -/
theorem applyObserving_remove (stems : List Word) :
    applyObserving ⟨.only letters, .remove⟩ (linked letters stems) (linked letters stems) =
      .ok stems := by
  induction stems with
  | nil => rfl
  | cons stem stems ih =>
    cases stems with
    | nil => rfl
    | cons next stems =>
      have hmore : linked letters (next :: stems) ≠ [] := by
        rw [← List.length_pos_iff, length_linked]
        exact Nat.succ_pos _
      obtain ⟨first, others, hfirst⟩ := List.exists_cons_of_ne_nil hmore
      rw [linked, hfirst, applyObserving, List.headD_cons, List.tail_cons,
        applyObserving_edge_remove hne, ok_bind, ← hfirst, ih]
      rfl

end Interfix

/-! ### Rules of one interfix -/

/-- A rule of one interfix that puts letters between stems or takes them out. -/
def interfixRule (letters : Word) (p : Polarity) : Blueprint where
  groups := [[.putBetween (.only letters) p]]

theorem isWritable_interfixRule {letters : Word} (hne : letters ≠ [])
    (hletters : ∀ c ∈ letters, isLetter c = true) (p : Polarity) :
    (interfixRule letters p).IsWritable := by
  have hliteral : (Allomorphs.only letters).IsLiteral := ⟨letters, rfl, hne, hletters⟩
  refine ⟨rfl, List.cons_ne_nil _ _, ?_, ?_⟩
  · simp [interfixRule]
  · intro group hgroup operation hoperation
    obtain rfl := List.mem_singleton.mp hgroup
    obtain rfl := List.mem_singleton.mp hoperation
    exact .affix rfl (List.forall_mem_singleton.mpr hliteral)

/-- The text of such a rule has the letters between two marks. -/
theorem write_interfixRule (letters : Word) (p : Polarity) :
    (interfixRule letters p).write = p.symbol :: (letters ++ [p.symbol]) := by
  simp [interfixRule, Blueprint.write, joined, writeGroup, Operation.putBetween, Operation.write,
    Operation.writeAffix, AffixKind.write, Allomorphs.spelling]

theorem Rule.exists_ofText_interfix {letters : Word} (hne : letters ≠ [])
    (hletters : ∀ c ∈ letters, isLetter c = true) (p : Polarity) :
    ∃ r, Rule.ofText (p.symbol :: (letters ++ [p.symbol])) = .ok r ∧
      r.stages = [[.interfix ⟨.only letters, p⟩]] := by
  obtain ⟨r, hr, hblueprint⟩ := ofText_write (isWritable_interfixRule hne hletters p)
  rw [write_interfixRule] at hr
  exact ⟨r, hr, Rule.stages_of_ofText hr hblueprint rfl⟩

/-- **A compound is linked between every two stems and unlinked again.**  As many stems as
    there were come out, and read together they have the letters between every two.
    The rule that removes the letters and the antonym of the rule that inserted them both
    give the stems back, also those that end or begin with the same letters. -/
theorem Rule.ofText_interfix_links {letters : Word} (hne : letters ≠ [])
    (hletters : ∀ c ∈ letters, isLetter c = true) :
    ∃ linking unlinking, Rule.ofText ('+' :: (letters ++ ['+'])) = .ok linking ∧
      Rule.ofText ('-' :: (letters ++ ['-'])) = .ok unlinking ∧
      ∀ stems : List Word, stems ≠ [] → ∃ changed, linking.applyCompound stems = .ok changed ∧
        changed.length = stems.length ∧ changed.flatten = letters.intercalate stems ∧
        unlinking.applyCompound changed = .ok stems ∧
        linking.antonym.applyCompound changed = .ok stems := by
  obtain ⟨linking, hlinking, hinsert⟩ := Rule.exists_ofText_interfix hne hletters .insert
  obtain ⟨unlinking, hunlinking, hremove⟩ := Rule.exists_ofText_interfix hne hletters .remove
  have hantonym : linking.antonym.stages = [[.interfix ⟨.only letters, .remove⟩]] := by
    rw [antonym, hinsert]
    rfl
  have hunlinks {r : Rule} (hr : r.stages = [[.interfix ⟨.only letters, .remove⟩]])
      {stems : List Word} (hstems : stems ≠ []) :
      r.applyCompound (linked letters stems) = .ok stems := by
    have hlinked : linked letters stems ≠ [] := by
      rw [← List.length_pos_iff, length_linked]
      exact List.length_pos_iff.mpr hstems
    rw [applyCompound_of_stages_singleton hr hlinked, Morpheme.applyStems, Morpheme.applyObserving]
    exact Interfix.applyObserving_remove hne stems
  refine ⟨linking, unlinking, hlinking, hunlinking, fun stems hstems => ?_⟩
  refine ⟨linked letters stems, ?_, length_linked letters stems, flatten_linked letters stems,
    hunlinks hremove hstems, hunlinks hantonym hstems⟩
  rw [applyCompound_of_stages_singleton hinsert hstems, Morpheme.applyStems,
    Morpheme.applyObserving]
  exact Interfix.applyObserving_insert letters stems stems

/-- Of the six letters `s` the second, the third and the fifth are links. -/
theorem Rule.ofText_interfix_links_lossang :
    let stems := ["los".toList, [], "s".toList, "sang".toList]
    ∃ linking unlinking changed, ['s'] ≠ ([] : Word) ∧ (∀ c ∈ ['s'], isLetter c = true) ∧
      stems ≠ [] ∧ Rule.ofText "+s+".toList = .ok linking ∧
      Rule.ofText "-s-".toList = .ok unlinking ∧ linking.applyCompound stems = .ok changed ∧
      changed.length = 4 ∧ changed.flatten = "lossssssang".toList ∧
      unlinking.applyCompound changed = .ok stems ∧
      linking.antonym.applyCompound changed = .ok stems := by
  intro stems
  have hne : ['s'] ≠ ([] : Word) := by decide
  have hletters : ∀ c ∈ ['s'], isLetter c = true := List.forall_mem_singleton.mpr rfl
  have hstems : stems ≠ [] := List.cons_ne_nil _ _
  obtain ⟨linking, unlinking, hlinking, hunlinking, hlinks⟩ :=
    Rule.ofText_interfix_links hne hletters
  obtain ⟨changed, hchanged, hlength, hword, hunlinked, hundone⟩ := hlinks stems hstems
  have htext : (['s'] : Word).intercalate stems = "lossssssang".toList := by decide
  exact ⟨linking, unlinking, changed, hne, hletters, hstems, hlinking, hunlinking, hchanged,
    hlength, hword.trans htext, hunlinked, hundone⟩

end WordFormation
