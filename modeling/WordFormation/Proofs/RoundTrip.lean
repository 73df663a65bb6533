/-
  WordFormation/Proofs/RoundTrip.lean
  ===================================
  **Taking out what was put in gives the word back, unless two forms overlap in
  the word.**

  A form is put in where it fits best, and what is taken out is the longest form
  that stands there afterwards.  These need not be the same form: behind a form
  that was put in the word goes on, and together they may spell another, longer
  one.  That happens exactly if some form of the set, continued by letters of the
  word, is again a form of the set (`OverlapsAhead`).

  One such pair of forms is enough to spoil the round trip, whichever form is put
  in.  The choice prefers forms after which more is found than was put in, so if
  there is any such form, one of them is taken (`removeAtGap_insertAtGap_iff`).
-/
import WordFormation.Proofs.Choice
import WordFormation.Proofs.Presence
import WordFormation.Proofs.Mirroring

namespace WordFormation.Allomorphs

/-- One form of the set is another one continued by the beginning of a text. -/
def OverlapsAhead (a : Allomorphs) (text : Word) : Prop :=
  ∃ f ∈ a.forms, ∃ g ∈ a.forms, ∃ r, r ≠ [] ∧ r <+: text ∧ g = f ++ r

/-- One form of the set is another one with the end of a text in front of it. -/
def OverlapsBehind (a : Allomorphs) (text : Word) : Prop :=
  ∃ f ∈ a.forms, ∃ g ∈ a.forms, ∃ r, r ≠ [] ∧ r <:+ text ∧ g = r ++ f

/-! ### At a gap -/

/-- A word with a form put after its first `k` characters. -/
def putAt (w : Word) (k : Nat) (f : Word) : Word := w.take k ++ f ++ w.drop k

theorem drop_putAt {w : Word} {k : Nat} (hk : k ≤ w.length) (f : Word) :
    (putAt w k f).drop k = f ++ w.drop k := by
  have hlength : (w.take k).length = k := List.length_take_of_le hk
  calc (putAt w k f).drop k = (w.take k ++ (f ++ w.drop k)).drop (w.take k).length := by
        rw [hlength, putAt, List.append_assoc]
    _ = f ++ w.drop k := List.drop_left

theorem take_putAt {w : Word} {k : Nat} (hk : k ≤ w.length) (f : Word) :
    (putAt w k f).take k = w.take k := by
  have hlength : (w.take k).length = k := List.length_take_of_le hk
  calc (putAt w k f).take k = (w.take k ++ (f ++ w.drop k)).take (w.take k).length := by
        rw [hlength, putAt, List.append_assoc]
    _ = w.take k := List.take_left

theorem le_length_putAt {w : Word} {k : Nat} (hk : k ≤ w.length) (f : Word) :
    k ≤ (putAt w k f).length := by
  simp only [putAt, List.length_append, List.length_take]
  omega

section Gap

variable (a : Allomorphs) {w : Word} {k : Nat}

/-- At least the form that was put in is found. -/
theorem length_le_found (hk : k ≤ w.length) {f : Word} (hf : f ∈ a.flatten) :
    f.length ≤ (a.formAtGap (putAt w k f) k).length := by
  refine a.length_le_formAtGap (le_length_putAt hk f) hf ?_
  rw [drop_putAt hk]
  exact List.prefix_append f _

/-- The word comes back if no more is found than was put in. -/
theorem removeAtGap_putAt_iff (hk : k ≤ w.length) (f : Word) :
    a.removeAtGap (putAt w k f) k = w ↔ (a.formAtGap (putAt w k f) k).length = f.length := by
  have hfound := (a.formAtGap_prefix (w := putAt w k f) (k := k)).length_le
  rw [drop_putAt hk, List.length_append] at hfound
  have hsplit : w.take k ++ w.drop k = w := List.take_append_drop k w
  rw [removeAtGap_eq, take_putAt hk, ← List.drop_drop, drop_putAt hk]
  constructor
  · intro h
    have hlength := congrArg List.length h
    simp only [List.length_append, List.length_take, List.length_drop] at hlength hfound
    omega
  · intro h
    rw [h, List.drop_left, hsplit]

/-- More is found than was put in exactly where the form overlaps with another. -/
theorem length_lt_found_iff (hk : k ≤ w.length) (f : Word) :
    f.length < (a.formAtGap (putAt w k f) k).length ↔
      ∃ g ∈ a.flatten, ∃ r, r ≠ [] ∧ r <+: w.drop k ∧ g = f ++ r := by
  constructor
  · intro h
    have hprefix := a.formAtGap_prefix (w := putAt w k f) (k := k)
    rw [drop_putAt hk] at hprefix
    have hne : a.formAtGap (putAt w k f) k ≠ [] := by
      intro hnil
      rw [hnil] at h
      simp at h
    obtain ⟨r, hr⟩ := List.prefix_of_prefix_length_le (List.prefix_append f (w.drop k)) hprefix
      (Nat.le_of_lt h)
    refine ⟨_, a.formAtGap_mem hne, r, ?_, ?_, hr.symm⟩
    · rintro rfl
      rw [List.append_nil] at hr
      rw [← hr] at h
      exact Nat.lt_irrefl _ h
    · rw [← hr] at hprefix
      exact (List.prefix_append_right_inj f).mp hprefix
  · rintro ⟨g, hg, r, hr, hprefix, rfl⟩
    have hstands : f ++ r <+: (putAt w k f).drop k := by
      rw [drop_putAt hk]
      exact (List.prefix_append_right_inj f).mpr hprefix
    have hlength := a.length_le_formAtGap (le_length_putAt hk f) hg hstands
    have hpos := List.length_pos_iff.mpr hr
    rw [List.length_append] at hlength
    omega

/-- How well a form fits that is put after the first `k` characters. -/
def scoreAt (w : Word) (k : Nat) (f : Word) : Int ×ₗ Nat := (a.fit k f (putAt w k f)).score

/-- What is put in is the first form of the set that fits best; a set without forms
    leaves the word as it is. -/
theorem insertAtGap_eq_putAt (hk : k ≤ w.length) {w' : Word} (h : a.insertAtGap w k = some w') :
    (a.flatten = [] ∧ w' = w) ∨
      ∃ f, w' = putAt w k f ∧ FirstGreatest (a.scoreAt w k) a.flatten f := by
  rw [a.insertAtGap_eq hk] at h
  cases hbest : firstBest (fun next kept => next.1.better kept.1)
      (a.flatten.map fun form => (a.fit k form (putAt w k form), putAt w k form)) with
  | none =>
    have hnil := List.map_eq_nil_iff.mp ((firstBest_eq_none_iff _ _).mp hbest)
    rw [hnil] at h
    cases h
    exact .inl ⟨hnil, rfl⟩
  | some best =>
    have hpair : FirstGreatest (fun x : Fit × Word => x.1.score) _ best :=
      firstGreatest_of_firstBest (fun x y => Fit.better_iff x.1 y.1) hbest
    obtain ⟨f, rfl, hgreatest⟩ := hpair.of_map
    have hw' : w' = putAt w k f := by
      have := Option.some.inj h
      rw [← this]
      exact congrArg (·.elim w (·.2)) hbest
    exact .inr ⟨f, hw', hgreatest⟩

/-- After no form more is found beyond its own length than after the one that fits
    best. -/
theorem gain_le_of_firstGreatest {f g : Word} (h : FirstGreatest (a.scoreAt w k) a.flatten f)
    (hg : g ∈ a.flatten) :
    ((a.formAtGap (putAt w k g) k).length : Int) - g.length ≤
      (a.formAtGap (putAt w k f) k).length - f.length := by
  rcases Prod.Lex.toLex_le_toLex.mp (h.le hg) with hlt | ⟨heq, -⟩
  · exact hlt.le
  · exact heq.le

theorem removeAtGap_insertAtGap_iff (hk : k ≤ w.length) {w' : Word}
    (h : a.insertAtGap w k = some w') :
    a.removeAtGap w' k = w ↔ ¬ a.OverlapsAhead (w.drop k) := by
  unfold OverlapsAhead
  simp only [forms_eq_flatten]
  rcases a.insertAtGap_eq_putAt hk h with ⟨hnil, rfl⟩ | ⟨f, rfl, hbest⟩
  · have hnone : a.formAtGap w' k = [] := (a.formAtGap_eq_nil_iff hk).mpr (by simp [hnil])
    rw [removeAtGap_eq, hnone, hnil]
    simp
  · have hf := hbest.mem
    rw [a.removeAtGap_putAt_iff hk]
    constructor
    · rintro hsame ⟨f', hf', hoverlap⟩
      have hmore := (a.length_lt_found_iff hk f').mpr hoverlap
      have := a.gain_le_of_firstGreatest hbest hf'
      omega
    · intro hnone
      have hleast := a.length_le_found hk hf
      have hnotmore : ¬ f.length < (a.formAtGap (putAt w k f) k).length := fun hmore =>
        hnone ⟨f, hf, (a.length_lt_found_iff hk f).mp hmore⟩
      omega

theorem le_of_insertAtGap {w' : Word} (h : a.insertAtGap w k = some w') : k ≤ w.length :=
  Nat.not_lt.mp fun hlt => by
    rw [a.insertAtGap_of_length_lt hlt] at h
    cases h

end Gap

/-! ### At a position -/

theorem overlapsAhead_reversed {a : Allomorphs} {text : Word} :
    a.reversed.OverlapsAhead text.reverse ↔ a.OverlapsBehind text := by
  unfold OverlapsAhead OverlapsBehind
  simp only [forms_eq_flatten, flatten_reversed]
  constructor
  · rintro ⟨f', hf', g', hg', r, hr, hprefix, hcontinued⟩
    obtain ⟨f, hf, rfl⟩ := List.mem_map.mp hf'
    obtain ⟨g, hg, rfl⟩ := List.mem_map.mp hg'
    refine ⟨f, hf, g, hg, r.reverse, by simpa using hr, ?_, ?_⟩
    · rwa [← List.reverse_prefix, List.reverse_reverse]
    · rw [← List.reverse_inj, List.reverse_append, List.reverse_reverse, hcontinued]
  · rintro ⟨f, hf, g, hg, r, hr, hsuffix, rfl⟩
    refine ⟨f.reverse, List.mem_map_of_mem hf, _, List.mem_map_of_mem hg, r.reverse,
      by simpa using hr, List.reverse_prefix.mpr hsuffix, List.reverse_append⟩

/-- **Removing undoes inserting exactly where no two forms overlap in the word**,
    on the side of the gap on which the word goes on. -/
theorem removeAt_insertAt_iff (a : Allomorphs) {w w' : Word} {p : Position}
    (h : a.insertAt w p = .ok w') :
    a.removeAt w' p = .ok w ↔
      if 0 < p.val then ¬ a.OverlapsAhead (w.drop (p.reach - 1))
      else ¬ a.OverlapsBehind (w.take (w.length - (p.reach - 1))) := by
  unfold insertAt at h
  unfold removeAt
  rcases Int.lt_trichotomy p.val 0 with hneg | hzero | hpos
  · rw [solveAt_of_neg hneg, solveReversed_eq_ok] at h
    rw [solveAt_of_neg hneg, solveReversed_eq_ok, if_neg (by omega)]
    cases hput : a.reversed.insertAtGap w.reverse (p.reach - 1) with
    | none => rw [hput] at h; cases h
    | some result =>
      rw [hput] at h
      cases h
      have hk := a.reversed.le_of_insertAtGap hput
      have hiff := a.reversed.removeAtGap_insertAtGap_iff hk hput
      rw [List.drop_reverse, overlapsAhead_reversed] at hiff
      rw [← hiff]
      exact ⟨Except.ok.inj, congrArg Except.ok⟩
  · simp only [solveAt, hzero, if_true] at h
    cases h
  · rw [solveAt_of_pos hpos] at h
    rw [solveAt_of_pos hpos, if_pos hpos]
    cases hput : a.insertAtGap w (p.reach - 1) with
    | none => rw [hput] at h; cases h
    | some result =>
      rw [hput] at h
      cases h
      have hk := a.le_of_insertAtGap hput
      rw [← a.removeAtGap_insertAtGap_iff hk hput]
      exact ⟨Except.ok.inj, congrArg Except.ok⟩

/-- Behind `as` the form `t` is put, and together with its `s` the form `st` is found. -/
theorem removeAt_ast :
    let a := ofForms [['s', 't'], ['t']]
    a.insertAt ['a', 's'] Position.final = .ok ['a', 's', 't'] ∧
      a.removeAt ['a', 's', 't'] Position.final ≠ .ok ['a', 's'] := by
  intro a
  have hinsert : a.insertAt ['a', 's'] Position.final = .ok ['a', 's', 't'] := by rfl
  refine ⟨hinsert, fun hback => ?_⟩
  have hnone := (a.removeAt_insertAt_iff hinsert).mp hback
  rw [if_neg (by decide)] at hnone
  exact hnone ⟨['t'], by decide, ['s', 't'], by decide, ['s'], by decide, ⟨['a'], rfl⟩, rfl⟩

end WordFormation.Allomorphs
