/-
  WordFormation/Proofs/StemBoundaries.lean
  ========================================
  **Rules that only insert do not see where one stem ends and the next begins.**

  A condition is asked of the observed stems put together, so what comes next in a run
  depends on the whole word only.  An affix with a single form puts the same letters on
  whatever stem is at its edge, and this edge of the stem is an edge of the word.  So the
  run on a compound goes step by step with the run on the word that its stems make
  (`Step.joined`), and they end together.

  Neither holds for other rules.  An interfix acts on boundaries, what is removed is
  looked for in one stem, and of several forms the best one depends on the stem.
-/
import WordFormation.Proofs.WordInside

namespace WordFormation

/-! ### Letters on the edge of the edge stem -/

/-- What is put on an edge of the stem at this edge is put on the word. -/
theorem flatten_set_attach {stems : List Word} {stem : Word} (edge : Edge) (letters : Word)
    (hstem : stems[Morpheme.edgeIndex stems edge.position]? = some stem) :
    (stems.set (Morpheme.edgeIndex stems edge.position) (edge.attach letters stem)).flatten =
      edge.attach letters stems.flatten := by
  cases edge with
  | start =>
    cases stems with
    | nil => cases hstem
    | cons first others =>
      obtain rfl := Option.some.inj hstem
      exact List.append_assoc letters first others.flatten
  | final =>
    rcases List.eq_nil_or_concat stems with rfl | ⟨others, last, rfl⟩
    · cases hstem
    · rw [List.concat_eq_append] at hstem ⊢
      have hindex : Morpheme.edgeIndex (others ++ [last]) Edge.final.position = others.length := by
        have hlength : (others ++ [last]).length - 1 = others.length := by simp
        exact hlength
      rw [hindex, List.getElem?_concat_length] at hstem
      obtain rfl := Option.some.inj hstem
      rw [hindex, List.set_append_right _ _ (Nat.le_refl _), Nat.sub_self]
      simp [Edge.attach]

/-- A single stem is at both edges. -/
theorem Morpheme.ChangesEdge.alone {p : Position} {change : Word → Word → Edited Word}
    {w seen w' : Word} (h : change w seen = .ok w') : ChangesEdge p change [w] [seen] [w'] := by
  have hindex : edgeIndex [w] p = 0 := by
    unfold edgeIndex
    split <;> rfl
  have hchanged : [w].set (edgeIndex [w] p) w' = [w'] := by
    rw [hindex]
    rfl
  rw [← hchanged]
  exact .at (by rw [hindex]; rfl) (by rw [hindex]; rfl) h

/-! ### Steps on a compound and on the word -/

/-- The morpheme puts the same letters on every word. -/
inductive Morpheme.AttachesOne : Morpheme → Prop where
  | affix {x : Affix} (edge : Edge) (letters : Word) (hplace : x.place = edge.position)
      (h : ∀ w seen, x.applyObserving w seen = .ok (edge.attach letters w)) : AttachesOne (.affix x)

/-- The point at which a run would be with the stems made one. -/
def Point.joined (p : Point) : Point :=
  ⟨p.pending, [p.stems.flatten], [p.observed.flatten], p.stages⟩

/-- What a morpheme opens into depends on the observed word only. -/
theorem Morpheme.Opens.of_flatten {m : Morpheme} {observed observed' : List Word}
    {parts : List Morpheme} (h : m.Opens observed parts)
    (hword : observed'.flatten = observed.flatten) : m.Opens observed' parts := by
  cases h with
  | identity => exact .identity
  | composite parts => exact .composite parts
  | met hmet met unmet => exact .met (by rwa [hword]) met unmet
  | unmet hunmet met unmet => exact .unmet (by rwa [hword]) met unmet
  | taken htaken => exact .taken (by rwa [hword])
  | passed hpassed => exact .passed (by rwa [hword])

theorem Morpheme.AttachesOne.joined {m : Morpheme} (h : m.AttachesOne)
    {stems observed changed : List Word} (hacts : m.Acts stems observed changed) :
    m.Acts [stems.flatten] [observed.flatten] [changed.flatten] := by
  obtain @⟨x, edge, letters, hplace, happly⟩ := h
  cases hacts with
  | affix hedge =>
    obtain @⟨stem, seen, stem', hstem, -, hmade⟩ := hedge
    rw [happly] at hmade
    obtain rfl := Except.ok.inj hmade
    rw [hplace] at hstem
    rw [hplace, flatten_set_attach edge letters hstem]
    exact .affix (.alone (happly _ _))

theorem Step.joined {p q : Point} (h : Step p q) (hp : p.Only Morpheme.AttachesOne) :
    Step p.joined q.joined := by
  cases h with
  | opens h => exact .opens (h.of_flatten (List.append_nil _))
  | acts h => exact .acts ((hp.of_acts h).joined h)
  | stage => exact .stage

theorem Steps.joined {p q : Point} (h : Steps p q) (hp : p.Only Morpheme.AttachesOne) :
    Steps p.joined q.joined := by
  induction h using Relation.ReflTransGen.head_induction_on with
  | refl => exact .refl
  | head hstep _ ih => exact .head (hstep.joined hp) (ih (hstep.only hp))

/-! ### Descriptors that insert a single form -/

/-- The set has one form and no alternatives to it. -/
def Allomorphs.IsSingle (a : Allomorphs) : Prop := a.forms.length = 1

instance (a : Allomorphs) : Decidable a.IsSingle := inferInstanceAs (Decidable (_ = _))

/-- The descriptor is no interfix, and it inserts one form of which there are no
    alternatives. -/
def Descriptor.InsertsOne : Descriptor → Prop
  | affix kind polarity operands =>
    kind ≠ .interfixed ∧ polarity = some .insert ∧ ∀ a ∈ operands, a.IsSingle
  | short condition p => p = .insert ∧ ∀ t ∈ condition.alternatives, t.form.IsSingle

instance (d : Descriptor) : Decidable d.InsertsOne :=
  match d with
  | .affix _ _ _ => inferInstanceAs (Decidable (_ ∧ _))
  | .short _ _ => inferInstanceAs (Decidable (_ ∧ _))

namespace Descriptor.InsertsOne

variable {d : Descriptor} (h : d.InsertsOne)
include h

theorem polarity_eq : d.polarity? = some .insert := by
  cases d with
  | affix kind polarity operands => exact h.2.1
  | short condition p => exact congrArg some h.1

theorem isSingle {a : Allomorphs} (ha : a ∈ d.operands) : a.IsSingle := by
  cases d with
  | affix kind polarity operands => exact h.2.2 a ha
  | short condition p =>
    obtain ⟨t, ht, rfl⟩ := List.mem_map.mp ha
    exact h.2 t ht

end Descriptor.InsertsOne

/-- A form without alternatives is put on, whatever the word is. -/
theorem Affix.attachesOne {a : Allomorphs} (h : a.IsSingle) (edge : Edge) :
    (Morpheme.affix ⟨a, .insert, edge.position⟩).AttachesOne := by
  obtain ⟨letters, hforms⟩ := List.length_eq_one_iff.mp h
  refine .affix edge letters rfl fun w seen => ?_
  obtain ⟨letters', hinserted, hmem⟩ := a.exists_insertAt_attach edge w
  rw [hforms] at hmem
  obtain rfl := List.mem_singleton.mp (hmem (List.cons_ne_nil letters []))
  exact hinserted

theorem Descriptor.Makes.attachesOne {d : Descriptor} {m : Morpheme} (h : d.Makes m)
    (hd : d.InsertsOne) : m.AttachesOne := by
  rcases h.affix_or_interfix with ⟨form, p, edge, rfl, hp, hform⟩ | ⟨form, p, rfl, rfl⟩
  · obtain rfl := Option.some.inj (hp.symm.trans hd.polarity_eq)
    exact Affix.attachesOne (hd.isSingle hform) edge
  · exact absurd rfl hd.1

/-! ### Rules -/

/-- **Stem boundaries do not matter to a rule that only inserts.**  If no affix and no
    polarity alone, however deep, has anything but single forms to insert, and none is an
    interfix, then the stems put together after the rule was applied to them are the word
    that the rule makes of the stems put together.  The forms of other conditions can be
    any. -/
theorem apply_flatten_eq_flatten {b : Blueprint} {r : Rule} (h : Rule.ofBlueprint b = .ok r)
    (hb : ∀ d ∈ b.descriptors, d.InsertsOne) {stems : List Word} (hne : stems ≠ []) :
    ∃ changed, r.applyCompound stems = .ok changed ∧
      r.apply stems.flatten = .ok changed.flatten := by
  have hedges := Rule.atEdges_ofBlueprint h
  obtain ⟨changed, observed, hchanged, hend⟩ := hedges.exists_end hne
  have hattaches : r.Only Morpheme.AttachesOne :=
    Rule.only_ofBlueprint h fun d hd made hmakes => hmakes.attachesOne (hb d hd)
  have hjoined := Steps.joined hend hattaches
  obtain ⟨w', observed', hw', hend'⟩ := hedges.exists_end_word stems.flatten
  cases Steps.end_unique hjoined hend'
  exact ⟨changed, hchanged, hw'⟩

/-- A circumfix, and then an ending where the word begins in one of two ways. -/
def circumfixThenEnding : Blueprint where
  groups := [
    [.putAround (.only ['g', 'e']) (.only ['t']) .insert],
    [.conditional ⟨[.isAt .start (.ofForms [['g', 'e', 'm', 'a'], ['g', 'a']])]⟩
      (.operations [.conditional ⟨[(EdgeTest.isAt .final (.only ['e', 'n'])).negate]⟩
        (.short .insert) .identity])
      (.operations [.putAfter (.only ['s']) .insert])]]

/-- The second group finds `gema`, which begins in the first stem and ends in the third. -/
theorem apply_flatten_eq_flatten_gemachten :
    let stems := [['m'], [], ['a', 'c', 'h']]
    ∃ r, Rule.ofBlueprint circumfixThenEnding = .ok r ∧
      (∀ d ∈ circumfixThenEnding.descriptors, d.InsertsOne) ∧ stems ≠ [] ∧
      r.applyCompound stems = .ok [['g', 'e', 'm'], [], ['a', 'c', 'h', 't', 'e', 'n']] ∧
      r.apply ['m', 'a', 'c', 'h'] = .ok ['g', 'e', 'm', 'a', 'c', 'h', 't', 'e', 'n'] := by
  intro stems
  obtain ⟨r, hr⟩ : ∃ r, Rule.ofBlueprint circumfixThenEnding = .ok r := ⟨_, rfl⟩
  have hinserts : ∀ d ∈ circumfixThenEnding.descriptors, d.InsertsOne := by decide
  have hne : stems ≠ [] := List.cons_ne_nil _ _
  obtain ⟨changed, hchanged, hword⟩ := apply_flatten_eq_flatten hr hinserts hne
  have hstems : r.applyCompound stems =
      .ok [['g', 'e', 'm'], [], ['a', 'c', 'h', 't', 'e', 'n']] := by
    cases hr
    decide +kernel
  cases hchanged.symm.trans hstems
  exact ⟨r, hr, hinserts, hne, hchanged, hword⟩

end WordFormation
