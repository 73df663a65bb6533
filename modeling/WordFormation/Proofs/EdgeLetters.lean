/-
  WordFormation/Proofs/EdgeLetters.lean
  =====================================
  **What an affix with a single form does at an edge of a word.**

  Such an affix puts its letters on or takes them off (`Edge.attach`,
  `Edge.detach`).  Which of the two it does, or whether it does anything, is seen from
  the word that its stage began with, and then it is carried out on the word as it is
  (`Attachment.act`).  The gaps, reversed words and fits by which forms are put into a
  word all disappear here (`Attachment.applyObserving_affix`).
-/
import WordFormation.Proofs.Outcome
import WordFormation.Proofs.SingleForm
import WordFormation.Morpheme

namespace WordFormation

/-! ### Letters at an edge -/

namespace Edge

def attach (edge : Edge) (letters w : Word) : Word :=
  match edge with
  | .start => letters ++ w
  | .final => w ++ letters

/-- Take letters off, where they are there. -/
def detach (edge : Edge) (letters w : Word) : Word :=
  if edge.isTouchedBy letters w then
    match edge with
    | .start => w.drop letters.length
    | .final => w.take (w.length - letters.length)
  else
    w

theorem attach_nil (edge : Edge) (w : Word) : edge.attach [] w = w := by
  cases edge with
  | start => rfl
  | final => exact List.append_nil w

theorem isTouchedBy_attach (edge : Edge) (letters w : Word) :
    edge.isTouchedBy letters (edge.attach letters w) = true := by
  cases edge with
  | start => exact List.isPrefixOf_iff_prefix.mpr (List.prefix_append letters w)
  | final => exact List.isSuffixOf_iff_suffix.mpr (List.suffix_append w letters)

theorem detach_attach (edge : Edge) (letters w : Word) :
    edge.detach letters (edge.attach letters w) = w := by
  unfold detach
  rw [if_pos (edge.isTouchedBy_attach letters w)]
  cases edge with
  | start => exact List.drop_left
  | final =>
    show (w ++ letters).take ((w ++ letters).length - letters.length) = w
    rw [List.length_append, Nat.add_sub_cancel_right, List.take_left]

theorem detach_of_missing {edge : Edge} {letters w : Word}
    (h : ¬ edge.isTouchedBy letters w = true) : edge.detach letters w = w :=
  if_neg h

theorem isTouchedBy_iff {edge : Edge} {letters w : Word} :
    edge.isTouchedBy letters w = true ↔ ∃ w', w = edge.attach letters w' := by
  constructor
  · intro h
    cases edge with
    | start =>
      obtain ⟨w', hw⟩ := List.isPrefixOf_iff_prefix.mp h
      exact ⟨w', hw.symm⟩
    | final =>
      obtain ⟨w', hw⟩ := List.isSuffixOf_iff_suffix.mp h
      exact ⟨w', hw.symm⟩
  · rintro ⟨w', rfl⟩
    exact edge.isTouchedBy_attach letters w'

theorem attach_detach {edge : Edge} {letters w : Word} (h : edge.isTouchedBy letters w = true) :
    edge.attach letters (edge.detach letters w) = w := by
  obtain ⟨w', rfl⟩ := isTouchedBy_iff.mp h
  rw [detach_attach]

theorem length_attach (edge : Edge) (letters w : Word) :
    (edge.attach letters w).length = w.length + letters.length := by
  cases edge with
  | start => exact (List.length_append).trans (Nat.add_comm _ _)
  | final => exact List.length_append

/-- Taking letters off loses no others. -/
theorem length_le_detach (edge : Edge) (letters w : Word) :
    w.length ≤ (edge.detach letters w).length + letters.length := by
  by_cases h : edge.isTouchedBy letters w = true
  · obtain ⟨w', rfl⟩ := isTouchedBy_iff.mp h
    rw [detach_attach, length_attach]
  · rw [detach_of_missing h]
    exact Nat.le_add_right _ _

/-- The end of a word is the start of the reversed word. -/
theorem detach_reverse (letters w : Word) :
    Edge.start.detach letters.reverse w.reverse = (Edge.final.detach letters w).reverse := by
  have htouched : Edge.start.isTouchedBy letters.reverse w.reverse =
      Edge.final.isTouchedBy letters w := rfl
  unfold detach
  rw [htouched, List.length_reverse, List.drop_reverse, apply_ite List.reverse]

/-- What is put at one edge leaves the other as it is. -/
theorem isTouchedBy_attach_of_ne {edge edge' : Edge} (hne : edge ≠ edge') {letters w : Word}
    (letters' : Word) (h : edge.isTouchedBy letters w = true) :
    edge.isTouchedBy letters (edge'.attach letters' w) = true := by
  cases edge with
  | start =>
    cases edge' with
    | start => exact absurd rfl hne
    | final =>
      have hbegins := List.isPrefixOf_iff_prefix.mp h
      exact List.isPrefixOf_iff_prefix.mpr (hbegins.trans (List.prefix_append w letters'))
  | final =>
    cases edge' with
    | start =>
      have hends := List.isSuffixOf_iff_suffix.mp h
      exact List.isSuffixOf_iff_suffix.mpr (hends.trans (List.suffix_append letters' w))
    | final => exact absurd rfl hne

end Edge

/-! ### Affixes with a single form -/

namespace Allomorphs

theorem insertAt_edge (l : Word) (edge : Edge) (w : Word) :
    (only l).insertAt w edge.position = .ok (edge.attach l w) := by
  unfold insertAt
  cases edge with
  | start =>
    rw [Edge.position, solveAt_start, insertAtGap_only, if_pos (Nat.zero_le _)]
    rfl
  | final =>
    rw [Edge.position, solveAt_final, reversed_only, solveReversed_eq_ok, insertAtGap_only,
      if_pos (Nat.zero_le _)]
    show Except.ok (l.reverse ++ w.reverse) = .ok (w ++ l).reverse
    rw [List.reverse_append]

variable {l : Word} (hl : l ≠ [])
include hl

theorem removeAtGap_start (w : Word) :
    (only l).removeAtGap w 0 = Edge.start.detach l w := by
  rw [removeAtGap_eq]
  by_cases htouched : Edge.start.isTouchedBy l w = true
  · have hbegins : l <+: w.drop 0 := List.isPrefixOf_iff_prefix.mp htouched
    rw [formAtGap_only_of_begins hl hbegins, Nat.zero_add, Edge.detach, if_pos htouched]
    rfl
  · have hmissing : ¬ l <+: w.drop 0 := fun h => htouched (List.isPrefixOf_iff_prefix.mpr h)
    rw [formAtGap_only_of_missing hmissing, Edge.detach_of_missing htouched]
    rfl

theorem removeAt_edge (edge : Edge) (w : Word) :
    (only l).removeAt w edge.position = .ok (edge.detach l w) := by
  unfold removeAt
  cases edge with
  | start =>
    rw [Edge.position, solveAt_start, removeAtGap_start hl]
  | final =>
    have hne : l.reverse ≠ [] := by simpa using hl
    rw [Edge.position, solveAt_final, reversed_only, solveReversed_eq_ok, removeAtGap_start hne,
      Edge.detach_reverse]

theorem standsAt_only (edge : Edge) (w : Word) :
    (only l).standsAt edge w = edge.isTouchedBy l w := by
  rw [standsAt, flatten_only, List.any_cons, List.any_nil, Bool.or_false,
    List.isEmpty_eq_false_iff.mpr hl, Bool.not_false, Bool.true_and]

end Allomorphs

/-- Both edges of a single stem are its own. -/
theorem Morpheme.onEdgeStem_singleton (w : Word) (observed : List Word) (edge : Edge)
    (change : Word → Word → Edited Word) :
    onEdgeStem [w] observed edge.position change =
      change w (observed[0]?.getD w) >>= fun changed => .ok [changed] := by
  cases edge <;> rfl

/-- Letters that go with an edge. -/
structure Attachment where
  edge : Edge
  letters : Word

namespace Attachment

/-- The affix that puts the letters on, or takes them off. -/
def affix (x : Attachment) (p : Polarity) : Affix := ⟨.only x.letters, p, x.edge.position⟩

/-- What an affix makes of a word, in a stage that began with the word `seen`. -/
def act (x : Attachment) (p : Polarity) (seen w : Word) : Word :=
  match p with
  | .insert => x.edge.attach x.letters w
  | .remove =>
    if (Allomorphs.only x.letters).standsAt x.edge seen then x.edge.detach x.letters w else w
  | .toggle =>
    if (Allomorphs.only x.letters).standsAt x.edge seen then x.edge.detach x.letters w
    else x.edge.attach x.letters w

/-- Only letters are ever seen to stand anywhere. -/
theorem letters_ne_nil {x : Attachment} {seen : Word}
    (h : (Allomorphs.only x.letters).standsAt x.edge seen = true) : x.letters ≠ [] := by
  intro hnil
  rw [hnil] at h
  cases h

theorem affix_applyObserving (x : Attachment) (p : Polarity) (w seen : Word) :
    (x.affix p).applyObserving w seen = .ok (x.act p seen w) := by
  have hinsert := Allomorphs.insertAt_edge x.letters x.edge w
  have hpresent : (x.affix p).isPresent seen =
      .ok ((Allomorphs.only x.letters).standsAt x.edge seen) :=
    Allomorphs.isAt_position _ x.edge seen
  cases p with
  | insert => exact hinsert
  | remove =>
    simp only [Affix.applyObserving, affix, act] at hpresent ⊢
    rw [hpresent, ok_bind]
    cases hseen : (Allomorphs.only x.letters).standsAt x.edge seen with
    | true => exact Allomorphs.removeAt_edge (letters_ne_nil hseen) x.edge w
    | false => rfl
  | toggle =>
    simp only [Affix.applyObserving, affix, act] at hpresent ⊢
    rw [hpresent, ok_bind]
    cases hseen : (Allomorphs.only x.letters).standsAt x.edge seen with
    | true => exact Allomorphs.removeAt_edge (letters_ne_nil hseen) x.edge w
    | false => exact hinsert

theorem applyObserving_affix (x : Attachment) (p : Polarity) (w : Word) (observed : List Word) :
    (Morpheme.affix (x.affix p)).applyObserving [w] observed =
      .ok [x.act p (observed[0]?.getD w) w] := by
  have hplace : (x.affix p).place = x.edge.position := rfl
  rw [Morpheme.applyObserving, hplace, Morpheme.onEdgeStem_singleton, affix_applyObserving,
    ok_bind]

end Attachment

end WordFormation
