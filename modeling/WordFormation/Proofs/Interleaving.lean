/-
  WordFormation/Proofs/Interleaving.lean
  ======================================
  **In one group, what is done at one end of a word does not touch the other.**

  The affixes of a group ask the word with which the group began what is there, but
  they change the word as it is now, and what is taken off at one end can be more
  than was seen there.  As long as a word has letters enough for all of the affixes
  together, it can be cut in two such that the affixes of each end stay in their own
  half, whatever they find (`Attachment.act_attach_of_ne`).  Then only the order at
  each end counts, and how the two ends are mixed makes no difference
  (`Rule.apply_of_interleaves`).
-/
import WordFormation.Proofs.EdgeLetters
import WordFormation.Rule

namespace WordFormation

/-- The third list is made of the first two, each of which keeps its order. -/
inductive Interleaves {α : Type} : List α → List α → List α → Prop where
  | nil : Interleaves [] [] []
  | left {x : α} {xs ys zs : List α} (h : Interleaves xs ys zs) :
      Interleaves (x :: xs) ys (x :: zs)
  | right {y : α} {xs ys zs : List α} (h : Interleaves xs ys zs) :
      Interleaves xs (y :: ys) (y :: zs)

/-! ### Letters at two edges -/

namespace Edge

variable {edge edge' : Edge} (hne : edge ≠ edge')
include hne

theorem attach_comm (letters letters' w : Word) :
    edge.attach letters (edge'.attach letters' w) =
      edge'.attach letters' (edge.attach letters w) := by
  cases edge <;> cases edge'
  · exact absurd rfl hne
  · exact (List.append_assoc letters w letters').symm
  · exact List.append_assoc letters' w letters
  · exact absurd rfl hne

/-- A word that is long enough decides on its own what stands at its edge. -/
theorem isTouchedBy_attach_eq {letters w : Word} (h : letters.length ≤ w.length)
    (letters' : Word) :
    edge.isTouchedBy letters (edge'.attach letters' w) = edge.isTouchedBy letters w := by
  refine Bool.eq_iff_iff.mpr ⟨fun htouched => ?_, isTouchedBy_attach_of_ne hne letters'⟩
  cases edge <;> cases edge'
  · exact absurd rfl hne
  · have hbegins := List.isPrefixOf_iff_prefix.mp htouched
    exact List.isPrefixOf_iff_prefix.mpr
      (List.prefix_of_prefix_length_le hbegins (List.prefix_append w letters') h)
  · have hends := List.isSuffixOf_iff_suffix.mp htouched
    exact List.isSuffixOf_iff_suffix.mpr
      (List.suffix_of_suffix_length_le hends (List.suffix_append letters' w) h)
  · exact absurd rfl hne

theorem detach_attach_of_ne {letters w : Word} (h : letters.length ≤ w.length)
    (letters' : Word) :
    edge.detach letters (edge'.attach letters' w) =
      edge'.attach letters' (edge.detach letters w) := by
  have htouched := isTouchedBy_attach_eq hne h letters'
  by_cases hthere : edge.isTouchedBy letters w = true
  · calc edge.detach letters (edge'.attach letters' w)
        = edge.detach letters (edge'.attach letters'
            (edge.attach letters (edge.detach letters w))) := by rw [attach_detach hthere]
      _ = edge'.attach letters' (edge.detach letters w) := by
          rw [← attach_comm hne, detach_attach]
  · have hthere' : ¬ edge.isTouchedBy letters (edge'.attach letters' w) = true := by
      rw [htouched]
      exact hthere
    rw [detach_of_missing hthere, detach_of_missing hthere']

end Edge

/-! ### One affix -/

namespace Attachment

section Act

variable (x : Attachment) (p : Polarity) (seen : Word)

/-- Which of three things is done does not depend on the word to which it is done. -/
theorem act_cases :
    (∀ w, x.act p seen w = x.edge.attach x.letters w) ∨
      (∀ w, x.act p seen w = x.edge.detach x.letters w) ∨ ∀ w, x.act p seen w = w := by
  cases hseen : (Allomorphs.only x.letters).standsAt x.edge seen <;> cases p <;>
    simp [act, hseen]

/-- An affix takes off no more than its own letters. -/
theorem length_le_act (w : Word) : w.length ≤ (x.act p seen w).length + x.letters.length := by
  rcases x.act_cases p seen with hattach | hdetach | hsame
  · rw [hattach, Edge.length_attach]
    omega
  · rw [hdetach]
    exact x.edge.length_le_detach x.letters w
  · rw [hsame]
    exact Nat.le_add_right _ _

/-- What is added at the other edge of a word that is long enough stays there
    untouched. -/
theorem act_attach_of_ne {edge : Edge} (hne : x.edge ≠ edge) {w : Word}
    (h : x.letters.length ≤ w.length) (letters : Word) :
    x.act p seen (edge.attach letters w) = edge.attach letters (x.act p seen w) := by
  rcases x.act_cases p seen with hattach | hdetach | hsame
  · rw [hattach, hattach, Edge.attach_comm hne]
  · rw [hdetach, hdetach, Edge.detach_attach_of_ne hne h]
  · rw [hsame, hsame]

end Act

/-- A prefix stays in the front part of a word. -/
theorem act_start_append {letters u : Word} (h : letters.length ≤ u.length) (p : Polarity)
    (seen v : Word) :
    (Attachment.mk .start letters).act p seen (u ++ v) =
      (Attachment.mk .start letters).act p seen u ++ v := by
  have hne : Edge.start ≠ Edge.final := by decide
  exact (Attachment.mk .start letters).act_attach_of_ne p seen hne h v

/-- A postfix stays in the back part of a word. -/
theorem act_final_append {letters v : Word} (h : letters.length ≤ v.length) (p : Polarity)
    (seen u : Word) :
    (Attachment.mk .final letters).act p seen (u ++ v) =
      u ++ (Attachment.mk .final letters).act p seen v := by
  have hne : Edge.final ≠ Edge.start := by decide
  exact (Attachment.mk .final letters).act_attach_of_ne p seen hne h u

/-! ### All affixes at one edge -/

/-- Letters that are all meant for one edge, each with what is to be done with them. -/
def actAll (edge : Edge) (seen : Word) : List (Word × Polarity) → Word → Word
  | [], w => w
  | (letters, p) :: links, w => actAll edge seen links ((Attachment.mk edge letters).act p seen w)

end Attachment

/-- The number of letters in a list of links. -/
def lettersIn : List (Word × Polarity) → Nat
  | [] => 0
  | (letters, _) :: links => letters.length + lettersIn links

open Attachment

/-- The operation of a group that does something with the letters at their edge. -/
def Attachment.operation (x : Attachment) (p : Polarity) : Operation :=
  match x.edge with
  | .start => .putBefore (.only x.letters) p
  | .final => .putAfter (.only x.letters) p

/-- The first affix of a group does its part, and the others go on from there. -/
theorem Attachment.exists_stage_cons (x : Attachment) (p : Polarity) {group : List Operation}
    {stage : List Morpheme} (h : assembleGroup group = .ok stage) :
    ∃ stage', assembleGroup (x.operation p :: group) = .ok stage' ∧ ∀ seen w : Word,
      Morpheme.applyEach stage' [w] [seen] =
        Morpheme.applyEach stage [x.act p seen w] [seen] := by
  have hassemble : (x.operation p).assemble = .ok (.affix (x.affix p)) := by
    obtain ⟨edge, letters⟩ := x
    cases edge <;> rfl
  refine ⟨.affix (x.affix p) :: stage, ?_, fun seen w => ?_⟩
  · rw [assembleGroup, hassemble, ok_bind, h]
    rfl
  · rw [Morpheme.applyEach, applyObserving_affix, ok_bind]
    rfl

/-- One step from the front or from the back of the two halves, and the rest of the
    group from there. -/
theorem exists_stage_of_interleaves {front back : List (Word × Polarity)}
    {group : List Operation}
    (h : Interleaves (front.map fun x => .putBefore (.only x.1) x.2)
      (back.map fun x => .putAfter (.only x.1) x.2) group) :
    ∃ stage, assembleGroup group = .ok stage ∧ ∀ seen u v : Word,
      lettersIn front ≤ u.length → lettersIn back ≤ v.length →
      Morpheme.applyEach stage [u ++ v] [seen] =
        .ok [actAll .start seen front u ++ actAll .final seen back v] := by
  generalize hfront : front.map _ = xs at h
  generalize hback : back.map _ = ys at h
  induction h generalizing front back with
  | nil =>
    obtain rfl := List.map_eq_nil_iff.mp hfront
    obtain rfl := List.map_eq_nil_iff.mp hback
    exact ⟨[], rfl, fun _ _ _ _ _ => rfl⟩
  | @left x xs ys group _ ih =>
    obtain ⟨⟨letters, p⟩, front', rfl, rfl, hfront'⟩ := List.map_eq_cons_iff.mp hfront
    obtain ⟨stage, hstage, hrun⟩ := ih hfront' hback
    obtain ⟨stage', hstage', hstep⟩ := (Attachment.mk .start letters).exists_stage_cons p hstage
    refine ⟨stage', hstage', fun seen u v hu hv => ?_⟩
    rw [lettersIn] at hu
    have hlength : u.length ≤ ((Attachment.mk .start letters).act p seen u).length +
        letters.length := length_le_act _ p seen u
    rw [hstep, act_start_append (by omega)]
    exact hrun seen _ v (by omega) hv
  | @right y xs ys group _ ih =>
    obtain ⟨⟨letters, p⟩, back', rfl, rfl, hback'⟩ := List.map_eq_cons_iff.mp hback
    obtain ⟨stage, hstage, hrun⟩ := ih hfront hback'
    obtain ⟨stage', hstage', hstep⟩ := (Attachment.mk .final letters).exists_stage_cons p hstage
    refine ⟨stage', hstage', fun seen u v hu hv => ?_⟩
    rw [lettersIn] at hv
    have hlength : v.length ≤ ((Attachment.mk .final letters).act p seen v).length +
        letters.length := length_le_act _ p seen v
    rw [hstep, act_final_append (by omega)]
    exact hrun seen u _ hu (by omega)

namespace Rule

/-- **The two ends of a word do not interfere.**  Prefixes and postfixes with one form
    each are mixed to one group, those of each end in their order.  On a word with as
    many letters as all of them have together, every such group has the same result. -/
theorem apply_of_interleaves (front back : List (Word × Polarity)) (w : Word)
    (h : lettersIn front + lettersIn back ≤ w.length) :
    ∃ result, ∀ (context : Option String) (group : List Operation),
      Interleaves (front.map fun x => .putBefore (.only x.1) x.2)
        (back.map fun x => .putAfter (.only x.1) x.2) group →
      ∃ r, ofBlueprint ⟨context, [group]⟩ = .ok r ∧ r.apply w = .ok result := by
  let u := w.take (lettersIn front)
  let v := w.drop (lettersIn front)
  refine ⟨actAll .start w front u ++ actAll .final w back v, fun context group hgroup => ?_⟩
  obtain ⟨stage, hstage, hrun⟩ := exists_stage_of_interleaves hgroup
  have hword : u ++ v = w := List.take_append_drop _ w
  have hresult := hrun w u v (by simp [u]; omega) (by simp [v]; omega)
  rw [hword] at hresult
  refine ⟨⟨⟨context, [group]⟩, [stage]⟩, ?_, ?_⟩
  · rw [ofBlueprint, assembleGroups, hstage]
    rfl
  · rw [apply, runStages, runStage, hresult, ok_bind, runStages]
    simp [Except.map]

/-- Both edges of `anmachen` are exchanged, in two orders. -/
theorem apply_of_interleaves_gemacht :
    ∃ r r', ofBlueprint ⟨none, [[.putBefore (.only ['a', 'n']) .remove,
        .putBefore (.only ['g', 'e']) .insert, .putAfter (.only ['e', 'n']) .remove,
        .putAfter (.only ['t']) .toggle]]⟩ = .ok r ∧
      ofBlueprint ⟨none, [[.putAfter (.only ['e', 'n']) .remove,
        .putBefore (.only ['a', 'n']) .remove, .putAfter (.only ['t']) .toggle,
        .putBefore (.only ['g', 'e']) .insert]]⟩ = .ok r' ∧
      r.apply "anmachen".toList = .ok "gemacht".toList ∧
      r'.apply "anmachen".toList = .ok "gemacht".toList := by
  obtain ⟨result, hresult⟩ := apply_of_interleaves
    [(['a', 'n'], .remove), (['g', 'e'], .insert)] [(['e', 'n'], .remove), (['t'], .toggle)]
    "anmachen".toList (by decide)
  obtain ⟨r, hr, happly⟩ := hresult none _ (.left (.left (.right (.right .nil))))
  obtain ⟨r', hr', happly'⟩ := hresult none _ (.right (.left (.right (.left .nil))))
  have hvalue : r.apply "anmachen".toList = .ok "gemacht".toList := by
    cases hr
    rfl
  have hsame : Except.ok result = Except.ok "gemacht".toList := happly.symm.trans hvalue
  exact ⟨r, r', hr, hr', hvalue, happly'.trans hsame⟩

/-- In a word that is too short both ends reach for the same letters. -/
example : ∃ r r', ofBlueprint ⟨none, [[.putBefore (.only ['a', 'b']) .remove,
      .putAfter (.only ['b', 'c']) .remove]]⟩ = .ok r ∧
    ofBlueprint ⟨none, [[.putAfter (.only ['b', 'c']) .remove,
      .putBefore (.only ['a', 'b']) .remove]]⟩ = .ok r' ∧
    r.apply "abc".toList = .ok "c".toList ∧ r'.apply "abc".toList = .ok "a".toList :=
  ⟨_, _, rfl, rfl, rfl, rfl⟩

end Rule

end WordFormation
