/-
  WordFormation/Proofs/RuleText/Canonical.lean
  ============================================
  **Writing a blueprint and reading a text are inverse to each other.**

  What was written is read back as the same blueprint.  Conversely, a text that
  is accepted is the canonical text of the blueprint that it gives, up to blanks,
  parentheses, the mark of an empty context, and commas left out of chains.  Only
  optional letters have no canonical text, so a blueprint that was read can be
  written again exactly if its text has no `^`.
-/
import WordFormation.Proofs.RuleText.Inversion

namespace WordFormation

open RuleText

/-! ### What a text that gives a rule has gone through -/

theorem Blueprint.exists_tree_of_ofText {text : Word} {b : Blueprint}
    (h : Blueprint.ofText text = .ok b) :
    ∃ t, parse text = .ok t ∧ t.readRule = .ok b := by
  unfold Blueprint.ofText at h
  split at h
  · cases h
  · next t hparse =>
    split at h
    · cases h
    · next b' hread =>
      cases h
      exact ⟨t, hparse, hread⟩

theorem Rule.blueprint_of_ofBlueprint {b : Blueprint} {r : Rule}
    (h : Rule.ofBlueprint b = .ok r) : r.blueprint = b := by
  obtain ⟨stages, -, h⟩ := bind_eq_ok.mp h
  cases h
  rfl

/-- A rule that a text gives is made of the blueprint that the text stands for. -/
theorem Rule.ofBlueprint_of_ofText {text : Word} {r : Rule} (h : Rule.ofText text = .ok r) :
    Blueprint.ofText text = .ok r.blueprint ∧ Rule.ofBlueprint r.blueprint = .ok r := by
  unfold Rule.ofText at h
  split at h
  · cases h
  · next b hb =>
    split at h
    · cases h
    · next r' hr =>
      cases h
      rw [Rule.blueprint_of_ofBlueprint hr]
      exact ⟨hb, hr⟩

/-- A text that is accepted spells out the canonical text of its blueprint. -/
theorem spells_of_ofText {text : Word} {r : Rule} (h : Rule.ofText text = .ok r) :
    Spells text r.blueprint.IsWritable r.blueprint.write := by
  obtain ⟨hblueprint, -⟩ := Rule.ofBlueprint_of_ofText h
  obtain ⟨t, hparse, hread⟩ := Blueprint.exists_tree_of_ofText hblueprint
  obtain ⟨used, htext, hspells⟩ := consumes_rule text t [] (parse_eq_ok.mp hparse).2
  rw [List.append_nil] at htext
  subst htext
  exact hspells r.blueprint hread

/-! ### Writing and reading -/

/-- A blueprint that can be written is read back from its canonical text.
    Conversely a text that gives a rule is, up to blanks, parentheses, the mark of
    an empty context and commas left out of chains, the canonical text of the
    rule's blueprint, which gives the same rule; only a `^` stands in the way. -/
theorem Rule.ofText_write_inverse :
    (∀ b : Blueprint, b.IsWritable → ∃ r, Rule.ofText b.write = .ok r ∧ r.blueprint = b) ∧
    ∀ (text : Word) (r : Rule), Rule.ofText text = .ok r →
      (r.blueprint.IsWritable ↔ '^' ∉ text) ∧
      (r.blueprint.IsWritable →
        OmitsCommas (bare text) r.blueprint.write ∧
        (text.count ',' = r.blueprint.write.count ',' → bare text = r.blueprint.write) ∧
        Rule.ofText r.blueprint.write = .ok r) := by
  refine ⟨fun b hb => ofText_write hb, fun text r h => ?_⟩
  have hspells := spells_of_ofText h
  refine ⟨hspells.writable_iff, fun hwritable => ?_⟩
  have homits := hspells.text (hspells.writable_iff.mp hwritable)
  refine ⟨homits, fun hcount => homits.eq_of_count ?_, ?_⟩
  · have hbare : (bare text).count ',' = text.count ',' := List.count_filter (by decide)
    rw [hbare, hcount]
  · obtain ⟨r', hr', hblueprint⟩ := ofText_write hwritable
    obtain ⟨-, hrule⟩ := Rule.ofBlueprint_of_ofText h
    obtain ⟨-, hrule'⟩ := Rule.ofBlueprint_of_ofText hr'
    rw [hblueprint, hrule] at hrule'
    cases hrule'
    exact hr'

/-- A prefix and a postfix, then a conditional with a chain in one branch and a
    polarity alone in the other. -/
def Blueprint.participle : Blueprint where
  groups := [[.putBefore (.only ['g', 'e']) .insert, .putAfter (.only ['t']) .toggle],
    [.conditional ⟨[⟨true, .final, .only ['t']⟩, ⟨false, .start, .only ['g', 'e']⟩]⟩
      (.operations [.putBefore (.only ['a', 'n']) .insert, .putAfter (.only ['e']) .insert])
      (.short .remove)]]

theorem Blueprint.isWritable_participle : Blueprint.participle.IsWritable := by
  have hge : (Allomorphs.only ['g', 'e']).IsLiteral := Allomorphs.isLiteral_only (by decide) (by decide)
  have ht : (Allomorphs.only ['t']).IsLiteral := Allomorphs.isLiteral_only (by decide) (by decide)
  have han : (Allomorphs.only ['a', 'n']).IsLiteral := Allomorphs.isLiteral_only (by decide) (by decide)
  have he : (Allomorphs.only ['e']).IsLiteral := Allomorphs.isLiteral_only (by decide) (by decide)
  refine ⟨rfl, by simp [participle], by simp [participle], ?_⟩
  simp only [participle, List.forall_mem_cons, List.not_mem_nil, false_implies, implies_true,
    and_true]
  refine ⟨⟨Operation.IsWritable.affix rfl (by simpa using hge),
    Operation.IsWritable.affix rfl (by simpa using ht)⟩, Operation.IsWritable.conditional ?_ ?_
      (Branch.IsWritable.short (by decide)) (.inl (by simp))⟩
  · exact ⟨by simp, by simp [ht, hge]⟩
  · refine Branch.IsWritable.operations (IsChain.before _ _ [(_, .insert)]) ?_
    simp [Operation.putBefore, Operation.putAfter, Operation.HasLiterals, han, he]

/-- The text of the participle with blanks, parentheses, a context, and a comma
    left out. -/
theorem Rule.ofText_write_participle :
    (∃ r, Rule.ofText Blueprint.participle.write = .ok r ∧
      r.blueprint = Blueprint.participle) ∧
    ∃ r, Rule.ofText "@ (ge+.t) ; ~-t | (ge)- ? an++e : -".toList = .ok r ∧
      OmitsCommas (bare "@ (ge+.t) ; ~-t | (ge)- ? an++e : -".toList) r.blueprint.write := by
  refine ⟨Rule.ofText_write_inverse.1 _ Blueprint.isWritable_participle, ?_⟩
  have haccepted : (Rule.ofText "@ (ge+.t) ; ~-t | (ge)- ? an++e : -".toList).toOption.isSome =
      true := by decide +kernel
  cases h : Rule.ofText "@ (ge+.t) ; ~-t | (ge)- ? an++e : -".toList with
  | error e =>
    rw [h] at haccepted
    cases haccepted
  | ok r =>
    obtain ⟨hcaret, homits⟩ := Rule.ofText_write_inverse.2 _ r h
    exact ⟨r, rfl, (homits (hcaret.mpr (by decide))).1⟩

end WordFormation
