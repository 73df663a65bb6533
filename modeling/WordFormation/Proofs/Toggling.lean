/-
  WordFormation/Proofs/Toggling.lean
  ==================================
  **When a toggle undoes itself.**

  A toggled affix looks at the word anew each time.  Letters that it has put on stand
  at the edge, and the next time it takes them off.  Letters that it has taken off
  are put on again only if the same letters do not come to the edge in their place.
  So two toggles come to taking the letters off twice, where they stand at the edge
  one time behind the other, and to nothing anywhere else (`Edge.toggle_toggle`).

  Letters that overlap with themselves are no exception: `aa` is found in front of
  `aaa` and a second time in it, but not one time behind the other.
-/
import WordFormation.Proofs.EdgeLetters

namespace WordFormation

/-! ### Letters at an edge -/

namespace Edge

/-- Take letters off where they are, and put them on where they are not. -/
def toggle (edge : Edge) (letters w : Word) : Word :=
  if edge.isTouchedBy letters w then edge.detach letters w else edge.attach letters w

theorem attach_attach (edge : Edge) (letters w : Word) :
    edge.attach letters (edge.attach letters w) = edge.attach (letters ++ letters) w := by
  cases edge with
  | start => exact (List.append_assoc letters letters w).symm
  | final => exact List.append_assoc w letters letters

theorem attach_injective (edge : Edge) (letters : Word) :
    Function.Injective (edge.attach letters) := by
  intro w w' h
  rw [← edge.detach_attach letters w, h, detach_attach]

/-- Letters stand twice at an edge if they stand there and again once they are off. -/
theorem isTouchedBy_twice_attach (edge : Edge) (letters w : Word) :
    edge.isTouchedBy (letters ++ letters) (edge.attach letters w) =
      edge.isTouchedBy letters w := by
  rw [Bool.eq_iff_iff, isTouchedBy_iff, isTouchedBy_iff]
  constructor
  · rintro ⟨w', h⟩
    rw [← attach_attach] at h
    exact ⟨w', edge.attach_injective letters h⟩
  · rintro ⟨w', rfl⟩
    exact ⟨w', edge.attach_attach letters w'⟩

theorem isTouchedBy_of_twice {edge : Edge} {letters w : Word}
    (h : edge.isTouchedBy (letters ++ letters) w = true) : edge.isTouchedBy letters w = true := by
  obtain ⟨w', rfl⟩ := isTouchedBy_iff.mp h
  rw [← attach_attach]
  exact edge.isTouchedBy_attach letters _

theorem toggle_of_touched {edge : Edge} {letters w : Word}
    (h : edge.isTouchedBy letters w = true) : edge.toggle letters w = edge.detach letters w :=
  if_pos h

theorem toggle_of_missing {edge : Edge} {letters w : Word}
    (h : ¬ edge.isTouchedBy letters w = true) :
    edge.toggle letters w = edge.attach letters w :=
  if_neg h

theorem toggle_attach (edge : Edge) (letters w : Word) :
    edge.toggle letters (edge.attach letters w) = w := by
  rw [toggle_of_touched (edge.isTouchedBy_attach letters w), detach_attach]

/-- Two toggles take the letters off where they stand twice, and do nothing else. -/
theorem toggle_toggle (edge : Edge) (letters w : Word) :
    edge.toggle letters (edge.toggle letters w) = edge.detach (letters ++ letters) w := by
  by_cases h : edge.isTouchedBy letters w = true
  · obtain ⟨w', rfl⟩ := isTouchedBy_iff.mp h
    rw [toggle_attach]
    by_cases h' : edge.isTouchedBy letters w' = true
    · obtain ⟨w'', rfl⟩ := isTouchedBy_iff.mp h'
      rw [toggle_attach, attach_attach, detach_attach]
    · rw [toggle_of_missing h', detach_of_missing]
      rwa [isTouchedBy_twice_attach]
  · rw [toggle_of_missing h, toggle_attach, detach_of_missing]
    intro htwice
    exact h (isTouchedBy_of_twice htwice)

/-- Taking letters off shows wherever they are. -/
theorem detach_eq_self_iff (edge : Edge) {letters : Word} (hne : letters ≠ []) (w : Word) :
    edge.detach letters w = w ↔ ¬ edge.isTouchedBy letters w = true := by
  constructor
  · intro h htouched
    have hlength := edge.length_attach letters (edge.detach letters w)
    rw [attach_detach htouched, h] at hlength
    have hpos := List.length_pos_iff.mpr hne
    omega
  · exact detach_of_missing

end Edge

/-! ### Toggled affixes -/

section Toggled

variable {f : Word} (hf : f ≠ []) (edge : Edge) (w : Word)
include hf

theorem Attachment.toggle_apply :
    (Attachment.affix ⟨edge, f⟩ .toggle).apply w = .ok (edge.toggle f w) := by
  rw [Affix.apply, Attachment.affix_applyObserving, Attachment.act,
    Allomorphs.standsAt_only hf]
  rfl

theorem Attachment.toggle_apply_twice :
    ∃ result, ((Attachment.affix ⟨edge, f⟩ .toggle).apply w >>=
        (Attachment.affix ⟨edge, f⟩ .toggle).apply) = .ok result ∧
      (result = w ↔ ¬ edge.isTouchedBy (f ++ f) w = true) := by
  have hne : f ++ f ≠ [] := by simp [hf]
  refine ⟨edge.detach (f ++ f) w, ?_, edge.detach_eq_self_iff hne w⟩
  rw [toggle_apply hf, ok_bind, toggle_apply hf, edge.toggle_toggle]

end Toggled

/-- **A toggle undoes itself unless its form stands twice at the edge**, one time behind
    the other.  This goes for prefixes and for postfixes, and there is always a word to
    toggle back. -/
theorem Affix.toggle_twice {f : Word} (hf : f ≠ []) (w : Word) :
    (∃ result, ((atStart (.only f) .toggle).apply w >>=
        (atStart (.only f) .toggle).apply) = .ok result ∧
      (result = w ↔ ¬ f ++ f <+: w)) ∧
    ∃ result, ((atEnd (.only f) .toggle).apply w >>=
        (atEnd (.only f) .toggle).apply) = .ok result ∧
      (result = w ↔ ¬ f ++ f <:+ w) := by
  constructor
  · rw [← List.isPrefixOf_iff_prefix]
    exact Attachment.toggle_apply_twice hf .start w
  · rw [← List.isSuffixOf_iff_suffix]
    exact Attachment.toggle_apply_twice hf .final w

/-- In `aaa` the form `aa` begins at two letters, but it does not stand there twice.
    `baaaa` ends with it twice. -/
theorem Affix.toggle_twice_overlapping :
    ['a', 'a'] ≠ [] ∧
    ((atStart (.only ['a', 'a']) .toggle).apply ['a', 'a', 'a'] >>=
      (atStart (.only ['a', 'a']) .toggle).apply) = .ok ['a', 'a', 'a'] ∧
    ((atEnd (.only ['a', 'a']) .toggle).apply ['b', 'a', 'a', 'a', 'a'] >>=
      (atEnd (.only ['a', 'a']) .toggle).apply) ≠ .ok ['b', 'a', 'a', 'a', 'a'] := by
  have hne : ['a', 'a'] ≠ [] := List.cons_ne_nil _ _
  obtain ⟨⟨result, hresult, hback⟩, -⟩ := toggle_twice hne ['a', 'a', 'a']
  obtain ⟨-, result', hresult', hback'⟩ := toggle_twice hne ['b', 'a', 'a', 'a', 'a']
  refine ⟨hne, ?_, ?_⟩
  · rw [hresult, hback.mpr (by decide)]
  · intro hsame
    rw [hresult'] at hsame
    exact hback'.mp (Except.ok.inj hsame) (by decide)

end WordFormation
