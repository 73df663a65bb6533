/-
  WordFormation/Proofs/WordInside.lean
  ====================================
  **Rules work on the edges of a word and leave its inside whole.**

  Whatever form is chosen, inserting it puts letters on an edge, and removing takes
  letters off it (`Allomorphs.exists_insertAt_attach`, `Allomorphs.exists_removeAt_attach`).
  The stems that the stage observed decide only whether something is removed, so it
  does not matter that they need not be the stems as they are now.

  Letters on an edge leave the word a part of the new one, and parts of parts are
  parts.  This carries over from one step to a whole run, for every stem of a compound
  (`Steps.stemwise`).  A rule with one polarity throughout therefore only builds around
  a word or only strips it, and its antonym does the other (`word_inside_result`).
-/
import WordFormation.Proofs.Insertion
import WordFormation.Proofs.Occurrences
import WordFormation.Proofs.ShortActions

namespace WordFormation

/-! ### Letters on an edge -/

theorem Edge.isInfix_attach (edge : Edge) (letters w : Word) : w <:+: edge.attach letters w := by
  cases edge with
  | start => exact (List.suffix_append letters w).isInfix
  | final => exact (List.prefix_append w letters).isInfix

namespace Allomorphs

/-- Whichever form is the best, it is put on the edge. -/
theorem exists_insertAt_attach (a : Allomorphs) (edge : Edge) (w : Word) :
    ∃ letters, a.insertAt w edge.position = .ok (edge.attach letters w) ∧
      (a.forms ≠ [] → letters ∈ a.forms) := by
  have hinserts := a.inserts_insertAt w edge.position_ne_zero
  rw [edge.reach_position] at hinserts
  generalize a.insertAt w edge.position = outcome at hinserts
  cases hinserts with
  | beyond hgap => exact absurd hgap (by omega)
  | unchanged _ hnone => exact ⟨[], by rw [edge.attach_nil], absurd hnone⟩
  | @best front back form longest gap _ hbest =>
    obtain ⟨hw, hcount⟩ := gap
    have hsplit : IsSplitAt edge.position 1 (front ++ form ++ back) front form back := ⟨rfl, hcount⟩
    rw [List.append_nil] at hw
    rw [hsplit.eq_attach, ← hw]
    exact ⟨form, rfl, fun _ => hbest.mem⟩

/-- Whichever form is found, it is taken off the edge. -/
theorem exists_removeAt_attach (a : Allomorphs) (edge : Edge) (w : Word) :
    ∃ letters w', a.removeAt w edge.position = .ok w' ∧ w = edge.attach letters w' := by
  obtain ⟨found, rest, hfinds, hdetected⟩ := a.exists_findsAt edge.position_ne_zero w
  rw [edge.reach_position] at hdetected
  refine ⟨found, rest, hfinds.removeAt_eq, ?_⟩
  cases hdetected with
  | form _ hsplit _ => exact hsplit.eq_attach
  | nothing _ => exact (edge.attach_nil w).symm

end Allomorphs

/-! ### What a polarity can make of a word -/

/-- What can come of a word at whose edges letters are only inserted, or only removed.
    Of toggling nothing is said. -/
def Polarity.CanMake : Polarity → Word → Word → Prop
  | insert, w, w' => w <:+: w'
  | remove, w, w' => w' <:+: w
  | toggle, _, _ => True

namespace Polarity.CanMake

theorem refl (p : Polarity) (w : Word) : p.CanMake w w := by
  cases p with
  | insert => exact List.infix_refl w
  | remove => exact List.infix_refl w
  | toggle => trivial

theorem trans {p : Polarity} {w w' w'' : Word} (h : p.CanMake w w') (h' : p.CanMake w' w'') :
    p.CanMake w w'' := by
  cases p with
  | insert => exact List.IsInfix.trans h h'
  | remove => exact List.IsInfix.trans h' h
  | toggle => trivial

end Polarity.CanMake

/-- Whatever was observed, an affix at an edge makes only what its polarity can make. -/
theorem Affix.canMake {x : Affix} {edge : Edge} (hplace : x.place = edge.position)
    {w seen w' : Word} (h : x.applyObserving w seen = .ok w') : x.polarity.CanMake w w' := by
  obtain ⟨form, p, place⟩ := x
  obtain rfl : place = edge.position := hplace
  cases p with
  | insert =>
    obtain ⟨letters, hinserted, -⟩ := form.exists_insertAt_attach edge w
    obtain rfl : edge.attach letters w = w' := Except.ok.inj (hinserted.symm.trans h)
    exact edge.isInfix_attach letters w
  | remove =>
    obtain ⟨letters, rest, hremoved, rfl⟩ := form.exists_removeAt_attach edge w
    obtain ⟨present, -, h⟩ := bind_eq_ok.mp h
    cases present with
    | true =>
      obtain rfl : rest = w' := Except.ok.inj (hremoved.symm.trans h)
      exact edge.isInfix_attach letters rest
    | false =>
      obtain rfl := Except.ok.inj h
      exact List.infix_refl _
  | toggle => trivial

/-! ### From one stem to all stems -/

/-- The relation holds between every stem and what has become of it. -/
def Stemwise (R : Word → Word → Prop) (stems changed : List Word) : Prop :=
  ∀ (i : Nat) (w : Word), stems[i]? = some w → ∃ w', changed[i]? = some w' ∧ R w w'

section Stemwise

variable {R : Word → Word → Prop} {stems observed changed : List Word}

theorem Stemwise.trans {others : List Word}
    (htrans : ∀ {w w' w'' : Word}, R w w' → R w' w'' → R w w'') (h : Stemwise R stems changed)
    (h' : Stemwise R changed others) : Stemwise R stems others := by
  intro i w hw
  obtain ⟨w', hw', hfirst⟩ := h i w hw
  obtain ⟨w'', hw'', hsecond⟩ := h' i w' hw'
  exact ⟨w'', hw'', htrans hfirst hsecond⟩

variable (hrefl : ∀ w, R w w)
include hrefl

theorem Stemwise.refl (stems : List Word) : Stemwise R stems stems :=
  fun _ w hw => ⟨w, hw, hrefl w⟩

theorem Morpheme.ChangesEdge.stemwise {p : Position} {change : Word → Word → Edited Word}
    (h : ChangesEdge p change stems observed changed)
    (hchange : ∀ {w seen w'}, change w seen = .ok w' → R w w') : Stemwise R stems changed := by
  obtain ⟨hstem, -, hmade⟩ := h
  intro i w hw
  rw [List.getElem?_set]
  split
  · next hindex =>
    subst hindex
    rw [if_pos (List.getElem?_eq_some_iff.mp hw).1]
    obtain rfl := Option.some.inj (hstem.symm.trans hw)
    exact ⟨_, rfl, hchange hmade⟩
  · exact ⟨w, hw, hrefl w⟩

theorem Interfix.Links.stemwise {x : Interfix} (h : x.Links stems observed changed)
    (hedge : ∀ {w seen w'}, x.edge.applyObserving w seen = .ok w' → R w w') :
    Stemwise R stems changed := by
  induction h with
  | last stem observed => exact Stemwise.refl hrefl [stem]
  | link hlinked _ ih =>
    intro i w hw
    cases i with
    | zero =>
      cases hw
      exact ⟨_, rfl, hedge hlinked⟩
    | succ i => exact ih i w hw

end Stemwise

/-! ### Runs with one polarity -/

/-- The morpheme puts letters on edges, or takes them off, with the given polarity. -/
inductive Morpheme.ActsWith (p : Polarity) : Morpheme → Prop where
  | affix {x : Affix} (edge : Edge) (hplace : x.place = edge.position) (hp : x.polarity = p) :
      ActsWith p (.affix x)
  | interfix {x : Interfix} (hp : x.polarity = p) : ActsWith p (.interfix x)

namespace Morpheme.ActsWith

variable {p : Polarity} {m : Morpheme}

theorem antonym (h : m.ActsWith p) : m.antonym.ActsWith p.opposite := by
  cases h with
  | affix edge hplace hp => exact .affix edge hplace (congrArg Polarity.opposite hp)
  | interfix hp => exact .interfix (congrArg Polarity.opposite hp)

theorem stemwise {stems observed changed : List Word} (h : m.Acts stems observed changed)
    (hwith : m.ActsWith p) : Stemwise p.CanMake stems changed := by
  cases hwith with
  | affix edge hplace hp =>
    cases h with
    | affix hedge =>
      exact hedge.stemwise (Polarity.CanMake.refl p) fun hmade => hp ▸ Affix.canMake hplace hmade
  | interfix hp =>
    cases h with
    | interfix hlinks =>
      have hplace (x : Interfix) : x.edge.place = Edge.final.position := rfl
      exact hlinks.stemwise (Polarity.CanMake.refl p) fun hmade =>
        hp ▸ Affix.canMake (hplace _) hmade

end Morpheme.ActsWith

section Run

variable {polarity : Polarity} {p q : Point}

theorem Step.stemwise (h : Step p q) (hp : p.Only (Morpheme.ActsWith polarity)) :
    Stemwise polarity.CanMake p.stems q.stems := by
  cases h with
  | opens _ => exact Stemwise.refl (Polarity.CanMake.refl polarity) _
  | acts h => exact (hp.of_acts h).stemwise h
  | stage => exact Stemwise.refl (Polarity.CanMake.refl polarity) _

theorem Steps.stemwise (h : Steps p q) (hp : p.Only (Morpheme.ActsWith polarity)) :
    Stemwise polarity.CanMake p.stems q.stems :=
  Steps.related (Stemwise polarity.CanMake) (Point.Only (Morpheme.ActsWith polarity))
    (Stemwise.refl (Polarity.CanMake.refl polarity)) (Stemwise.trans Polarity.CanMake.trans)
    Step.only Step.stemwise h hp

end Run

/-! ### Rules with one polarity -/

/-- No affix and no polarity alone, however deep, has another polarity. -/
def Blueprint.ActsWith (p : Polarity) (b : Blueprint) : Prop :=
  ∀ d ∈ b.descriptors, d.polarity? = none ∨ d.polarity? = some p

instance (p : Polarity) (b : Blueprint) : Decidable (b.ActsWith p) :=
  inferInstanceAs (Decidable (∀ d ∈ b.descriptors, d.polarity? = none ∨ d.polarity? = some p))

/-- What a descriptor makes acts with its polarity. -/
theorem Descriptor.Makes.actsWith {d : Descriptor} {m : Morpheme} (h : d.Makes m) :
    ∃ p, d.polarity? = some p ∧ m.ActsWith p := by
  rcases h.affix_or_interfix with ⟨form, p, edge, rfl, hp, -⟩ | ⟨form, p, rfl, rfl⟩
  · exact ⟨p, hp, .affix edge rfl rfl⟩
  · exact ⟨p, rfl, .interfix rfl⟩

namespace Rule

variable {p : Polarity} {r : Rule}

theorem actsWith_antonym (h : r.Only (Morpheme.ActsWith p)) :
    r.antonym.Only (Morpheme.ActsWith p.opposite) := by
  intro leaf hleaf hhas
  have hopposite := h leaf.antonym hleaf.antonym (has_of_antonym hhas)
  rw [← leaf.antonym_antonym]
  exact hopposite.antonym

theorem actsWith_ofBlueprint {b : Blueprint} (h : ofBlueprint b = .ok r) (hb : b.ActsWith p) :
    r.Only (Morpheme.ActsWith p) := by
  refine only_ofBlueprint h fun d hd made hmakes => ?_
  obtain ⟨p', hp', hwith⟩ := hmakes.actsWith
  rcases hb d hd with hnone | hsome
  · rw [hnone] at hp'
    cases hp'
  · rw [hsome] at hp'
    cases hp'
    exact hwith

/-- With one polarity a rule at edges makes of a word what this polarity can make. -/
theorem AtEdges.exists_apply_canMake (hedges : r.AtEdges) (h : r.Only (Morpheme.ActsWith p)) (w : Word) :
    ∃ w', r.apply w = .ok w' ∧ p.CanMake w w' := by
  obtain ⟨w', observed, hw', hend⟩ := hedges.exists_end_word w
  obtain ⟨same, hsame, hmade⟩ := Steps.stemwise hend h 0 w rfl
  obtain rfl := Option.some.inj hsame
  exact ⟨w', hw', hmade⟩

end Rule

/-- **Rules work on the edges of a word only.**  If everything in a rule inserts, the word
    is a part of the result, and if everything removes, the result is a part of the word.
    For the antonym it is the other way round. -/
theorem word_inside_result {b : Blueprint} {r : Rule} (h : Rule.ofBlueprint b = .ok r)
    (w : Word) :
    ∃ w' w'', r.apply w = .ok w' ∧ r.antonym.apply w = .ok w'' ∧
      (b.ActsWith .insert → w <:+: w' ∧ w'' <:+: w) ∧
      (b.ActsWith .remove → w' <:+: w ∧ w <:+: w'') := by
  have hedges := Rule.atEdges_ofBlueprint h
  obtain ⟨w', hw'⟩ := hedges.exists_apply w
  obtain ⟨w'', hw''⟩ := hedges.antonym.exists_apply w
  have hmakes {p : Polarity} (hb : b.ActsWith p) : p.CanMake w w' ∧ p.opposite.CanMake w w'' := by
    have hwith := Rule.actsWith_ofBlueprint h hb
    have hopposite := Rule.actsWith_antonym hwith
    obtain ⟨made, hmade, hcan⟩ := hedges.exists_apply_canMake hwith w
    obtain ⟨unmade, hunmade, hcan'⟩ := hedges.antonym.exists_apply_canMake hopposite w
    rw [hw'] at hmade
    rw [hw''] at hunmade
    cases hmade
    cases hunmade
    exact ⟨hcan, hcan'⟩
  exact ⟨w', w'', hw', hw'', hmakes, hmakes⟩

/-- A circumfix with two forms on either side and an interfix without polarity, and then
    a polarity alone in a conditional within a conditional. -/
def aroundAndWithin (p : Polarity) : Blueprint where
  groups := [
    [.putAround (.ofForms ["g".toList, "ge".toList]) (.ofForms ["t".toList, "et".toList]) p,
      .affix .interfixed none [.only ['s']]],
    [.conditional ⟨[.isAt .start (.only ['g'])]⟩
      (.operations [.conditional ⟨[.isAt .final (.only ['t']), .isAt .final (.only ['n'])]⟩
        (.short p) .identity])
      (.short p)]]

/-- The forms are chosen anew by each polarity, but all of them stay at the edges. -/
theorem word_inside_result_macht :
    let w := "ggmachtet".toList
    ∃ r r', Rule.ofBlueprint (aroundAndWithin .insert) = .ok r ∧
      Rule.ofBlueprint (aroundAndWithin .remove) = .ok r' ∧
      (aroundAndWithin .insert).ActsWith .insert ∧ (aroundAndWithin .remove).ActsWith .remove ∧
      r.apply w = .ok "geggmachtetett".toList ∧ w <:+: "geggmachtetett".toList ∧
      r.antonym.apply w = .ok "gmachte".toList ∧ "gmachte".toList <:+: w ∧
      r'.apply w = .ok "gmach".toList ∧ "gmach".toList <:+: w ∧
      r'.antonym.apply w = .ok "geggmachtettet".toList ∧ w <:+: "geggmachtettet".toList := by
  intro w
  obtain ⟨r, hr⟩ : ∃ r, Rule.ofBlueprint (aroundAndWithin .insert) = .ok r := ⟨_, rfl⟩
  obtain ⟨r', hr'⟩ : ∃ r, Rule.ofBlueprint (aroundAndWithin .remove) = .ok r := ⟨_, rfl⟩
  have hinsert : (aroundAndWithin .insert).ActsWith .insert := by decide
  have hremove : (aroundAndWithin .remove).ActsWith .remove := by decide
  obtain ⟨longer, shorter, hlonger, hshorter, hinside, -⟩ := word_inside_result hr w
  obtain ⟨shorter', longer', hshorter', hlonger', -, hinside'⟩ := word_inside_result hr' w
  have hforms : r.apply w = .ok "geggmachtetett".toList ∧
      r.antonym.apply w = .ok "gmachte".toList := by
    cases hr
    decide +kernel
  have hforms' : r'.apply w = .ok "gmach".toList ∧
      r'.antonym.apply w = .ok "geggmachtettet".toList := by
    cases hr'
    decide +kernel
  cases hlonger.symm.trans hforms.1
  cases hshorter.symm.trans hforms.2
  cases hshorter'.symm.trans hforms'.1
  cases hlonger'.symm.trans hforms'.2
  obtain ⟨hbuilt, hstripped⟩ := hinside hinsert
  obtain ⟨hstripped', hbuilt'⟩ := hinside' hremove
  exact ⟨r, r', hr, hr', hinsert, hremove, hlonger, hbuilt, hshorter, hstripped, hshorter',
    hstripped', hlonger', hbuilt'⟩

end WordFormation
