/-
  WordFormation/Proofs/Insertion.lean
  ===================================
  **Which of several forms is put in.**

  Every form of a set is put at the gap in turn, and the longest form that then
  stands there is looked up.  What this one exceeds the form put in by is the gain of
  that form.  The form with the greatest gain is taken, of equal gains the longest
  form, and of equally long ones the first (`Inserts`).

  From the end the search goes through the reversed forms.  They come in the same
  order as the forms, so that the first of them is the image of the first
  (`Inserts.of_mirrored`).

  A form with letters is found at the gap afterwards, even if what was put in is the
  empty form.  That one has no gain unless something stands there already, and
  without gain every longer form is better than it (`Inserts.exists_stands`).
-/
import WordFormation.Proofs.Detection
import WordFormation.Proofs.RoundTrip

namespace WordFormation.Allomorphs

/-- The longest form of the set that stands at a position has `n` letters. -/
structure LongestAt (a : Allomorphs) (p : Position) (k : Nat) (w : Word) (n : Nat) : Prop where
  attained : ∃ f ∈ a.forms, StandsAt p k w f ∧ f.length = n
  length_le : ∀ f ∈ a.forms, StandsAt p k w f → f.length ≤ n

/-- What comes of putting in a form of the set at a position that counts to its
    `k`-th gap. -/
inductive Inserts (a : Allomorphs) (p : Position) (k : Nat) (w : Word) : Edited Word → Prop where
  | beyond (hgap : w.length + 1 < k) : a.Inserts p k w (.error (.outOfRange p w.length))
  | unchanged (hgap : k ≤ w.length + 1) (hnone : a.forms = []) : a.Inserts p k w (.ok w)
  | best {front back form : Word} {longest : Word → Nat} (gap : IsSplitAt p k w front [] back)
      (hlongest : ∀ f ∈ a.forms, a.LongestAt p k (front ++ f ++ back) (longest f))
      (hbest : FirstGreatest (fun f => toLex ((longest f : Int) - f.length, f.length))
        a.forms form) :
      a.Inserts p k w (.ok (front ++ form ++ back))

/-! ### Positions that count from the start -/

section FromStart

variable (a : Allomorphs) {p : Position} (hpos : 0 < p.val) {k : Nat} {w : Word}
include hpos

theorem longestAt_putAt (hk : k ≤ w.length) {f : Word} (hf : f ∈ a.forms) :
    a.LongestAt p (k + 1) (putAt w k f) (a.formAtGap (putAt w k f) k).length := by
  have hgap : k ≤ (putAt w k f).length := le_length_putAt hk f
  have hstands : StandsAt p (k + 1) (putAt w k f) f := by
    refine (standsAt_iff_begins hpos).mpr ⟨hgap, ?_⟩
    rw [drop_putAt hk]
    exact List.prefix_append f _
  exact ⟨⟨_, a.formAtGap_mem_of_standsAt hpos hf hstands, ⟨_, _, a.isSplitAt_formAtGap hpos hgap⟩,
    rfl⟩, fun g hg hg' => a.length_le_of_standsAt hpos hg hg'⟩

theorem inserts_insertAtGap (w : Word) :
    a.Inserts p (k + 1) w (match a.insertAtGap w k with
      | some result => .ok result
      | none => .error (.outOfRange p w.length)) := by
  cases hinsert : a.insertAtGap w k with
  | none =>
    have hk : ¬ k ≤ w.length := fun hk => by
      rw [a.insertAtGap_eq hk] at hinsert
      cases hinsert
    exact .beyond (by omega)
  | some w' =>
    have hk := a.le_of_insertAtGap hinsert
    rcases a.insertAtGap_eq_putAt hk hinsert with ⟨hnone, rfl⟩ | ⟨f, rfl, hbest⟩
    · rw [← forms_eq_flatten] at hnone
      exact .unchanged (by omega) hnone
    · rw [← forms_eq_flatten] at hbest
      have hgap : IsSplitAt p (k + 1) w (w.take k) [] (w.drop k) := by
        constructor
        · rw [List.append_nil, List.take_append_drop]
        · rw [if_pos hpos, List.length_take_of_le hk]
      exact .best hgap (fun f hf => a.longestAt_putAt hpos hk hf) hbest

end FromStart

/-! ### Positions that count from the end -/

section FromEnd

variable {a : Allomorphs} {p : Position} (hneg : p.val < 0) {k : Nat} {w : Word}
include hneg

theorem LongestAt.of_mirrored {n : Nat} (h : a.reversed.LongestAt p.mirrored k w.reverse n) :
    a.LongestAt p k w n := by
  obtain ⟨⟨f, hf, hstands, rfl⟩, hle⟩ := h
  constructor
  · refine ⟨f.reverse, mem_forms_reversed.mp hf, ?_, List.length_reverse⟩
    rw [← standsAt_mirrored hneg, List.reverse_reverse]
    exact hstands
  · intro g hg hg'
    have hreversed : g.reverse ∈ a.reversed.forms := by
      rw [mem_forms_reversed, List.reverse_reverse]
      exact hg
    have hlength := hle g.reverse hreversed ((standsAt_mirrored hneg).mpr hg')
    rwa [List.length_reverse] at hlength

/-- What comes of it in the reversed word is, read backwards, what comes of it in the
    word. -/
theorem Inserts.of_mirrored {solve : Word → Edited Word}
    (h : a.reversed.Inserts p.mirrored k w.reverse (solve w.reverse)) :
    a.Inserts p k w (solveReversed p w solve) := by
  generalize houtcome : solve w.reverse = outcome at h
  cases h with
  | beyond hgap =>
    rw [solveReversed_of_error houtcome, PositionError.unmirrored, List.length_reverse]
    rw [List.length_reverse] at hgap
    exact .beyond hgap
  | unchanged hgap hnone =>
    rw [solveReversed_of_ok houtcome, List.reverse_reverse]
    rw [List.length_reverse] at hgap
    rw [forms_eq_flatten, flatten_reversed, List.map_eq_nil_iff, ← forms_eq_flatten] at hnone
    exact .unchanged hgap hnone
  | @best front back image longest gap hlongest himages =>
    rw [forms_eq_flatten, flatten_reversed, ← forms_eq_flatten] at himages
    obtain ⟨form, rfl, hbest⟩ := himages.of_map
    have hresult : (front ++ form.reverse ++ back).reverse = back.reverse ++ form ++ front.reverse := by
      simp
    rw [solveReversed_of_ok houtcome, hresult]
    simp only [List.length_reverse] at hbest
    refine .best ((isSplitAt_mirrored hneg).mp gap) (fun f hf => ?_) hbest
    have hf' : f.reverse ∈ a.reversed.forms := by
      rw [mem_forms_reversed, List.reverse_reverse]
      exact hf
    refine LongestAt.of_mirrored hneg ?_
    have himage : (back.reverse ++ f ++ front.reverse).reverse = front ++ f.reverse ++ back := by
      simp
    rw [himage]
    exact hlongest _ hf'

end FromEnd

/-! ### All positions -/

theorem inserts_insertAt (a : Allomorphs) (w : Word) {p : Position} (hplace : p.val ≠ 0) :
    a.Inserts p p.reach w (a.insertAt w p) := by
  obtain ⟨k, hreach⟩ : ∃ k, p.reach = k + 1 :=
    Nat.exists_eq_succ_of_ne_zero (Nat.ne_of_gt (Position.reach_pos hplace))
  have hgap : p.reach - 1 = k := by omega
  unfold insertAt
  rcases Int.lt_or_gt_of_ne hplace with hneg | hpos
  · rw [solveAt_of_neg hneg, hgap, hreach]
    exact Inserts.of_mirrored hneg
      (a.reversed.inserts_insertAtGap (Position.mirrored_pos hneg) w.reverse)
  · rw [solveAt_of_pos hpos, hgap, hreach]
    exact a.inserts_insertAtGap hpos w

namespace Inserts

variable {a : Allomorphs} {p : Position} {k : Nat} {w : Word}

/-- There is no gap further away than the word is long. -/
theorem eq_outOfRange {outcome : Edited Word} (h : a.Inserts p k w outcome)
    (hk : w.length + 1 < k) : outcome = .error (.outOfRange p w.length) := by
  cases h with
  | beyond => rfl
  | unchanged hgap => omega
  | best gap =>
    have := StandsAt.le_length ⟨_, _, gap⟩
    omega

/-- Gaps that the word does not have are all alike. -/
theorem of_length_lt {outcome : Edited Word} {k' : Nat} (hk : w.length + 1 < k)
    (hk' : w.length + 1 < k') (h : a.Inserts p k w outcome) : a.Inserts p k' w outcome := by
  rw [h.eq_outOfRange hk]
  exact .beyond hk'

/-- Afterwards a form with letters stands at the gap, if there is any. -/
theorem exists_stands {w' : Word} (h : a.Inserts p k w (.ok w')) {f : Word} (hf : f ∈ a.forms)
    (hne : f ≠ []) : ∃ g ∈ a.forms, StandsAt p k w' g ∧ g ≠ [] := by
  cases h with
  | unchanged hgap hnone =>
    rw [hnone] at hf
    cases hf
  | @best front back form longest gap hlongest hbest =>
    have hself {f : Word} (hf : f ∈ a.forms) : f.length ≤ longest f := by
      exact (hlongest f hf).length_le f hf ⟨front, back, rfl, gap.2⟩
    obtain ⟨g, hg, hstands, hlength⟩ := (hlongest form hbest.mem).attained
    refine ⟨g, hg, hstands, ?_⟩
    rintro rfl
    -- nothing stands there, so the form that was put in is empty and has no gain
    have hempty := hself hbest.mem
    have hletters := List.length_pos_iff.mpr hne
    rw [List.length_nil] at hlength
    rcases Prod.Lex.toLex_le_toLex.mp (hbest.le hf) with hgain | ⟨-, hlonger⟩
    · have := hself hf
      omega
    · omega

end Inserts

/-- What is found where a form with letters stands is one. -/
theorem isAt_of_standsAt (a : Allomorphs) {w f : Word} {p : Position} (hplace : p.val ≠ 0)
    (hf : f ∈ a.forms) (hstands : StandsAt p p.reach w f) (hne : f ≠ []) :
    a.isAt w p = .ok true := by
  obtain ⟨found, rest, hfinds, hdetected⟩ := a.exists_findsAt hplace w
  rw [hfinds.isAt_eq]
  cases hdetected with
  | form _ _ hlongest =>
    have hlength := hlongest f hf hstands
    have hfound : found ≠ [] := by
      rintro rfl
      exact hne (List.eq_nil_of_length_eq_zero (Nat.le_zero.mp hlength))
    rw [List.isEmpty_eq_false_iff.mpr hfound]
    rfl
  | nothing hnone => exact absurd hstands (hnone f hf)

/-- **The first form of greatest gain is put in, a longer one where gains are equal.**
    This is so from either end of the word.  There has to be such a gap, and a set
    without forms leaves the word as it is.  If the set has a form with letters, one is
    found at the position afterwards. -/
theorem insertAt_inserts_best (a : Allomorphs) (w : Word) {p : Position} (hplace : p.val ≠ 0) :
    a.Inserts p p.reach w (a.insertAt w p) ∧
    (p.val ≠ -2147483648 ∨ w.length + 1 < 2147483647 →
      a.Inserts p p.val.natAbs w (a.insertAt w p)) ∧
    ∀ w', a.insertAt w p = .ok w' → (∃ f ∈ a.forms, f ≠ []) → a.isAt w' p = .ok true := by
  have hinserts := a.inserts_insertAt w hplace
  refine ⟨hinserts, fun hcounts => ?_, ?_⟩
  · exact Position.of_reach (P := fun k => a.Inserts p k w (a.insertAt w p)) hcounts
      (fun _ _ hk hk' h => h.of_length_lt hk hk') hinserts
  · rintro w' hw' ⟨f, hf, hne⟩
    rw [hw'] at hinserts
    obtain ⟨g, hg, hstands, hletters⟩ := hinserts.exists_stands hf hne
    exact a.isAt_of_standsAt hplace hg hstands hletters

/-- Behind `mac` the form `h` is put, which completes `ach`. -/
theorem insertAt_inserts_machtest :
    let w := ['m', 'a', 'c', 't', 'e', 's', 't']
    let p : Position := { val := -5 }
    let a := nested (only ['a', 'c', 'h']) (ofForms [[], ['h'], ['h']])
    let w' := ['m', 'a', 'c', 'h', 't', 'e', 's', 't']
    p.val ≠ 0 ∧ (p.val ≠ -2147483648 ∨ w.length + 1 < 2147483647) ∧
      a.insertAt w p = .ok w' ∧ (∃ f ∈ a.forms, f ≠ []) ∧
      a.Inserts p p.val.natAbs w (.ok w') ∧ a.isAt w' p = .ok true := by
  intro w p a w'
  have hplace : p.val ≠ 0 := by decide
  have hcounts : p.val ≠ -2147483648 ∨ w.length + 1 < 2147483647 := .inl (by decide)
  have hw' : a.insertAt w p = .ok w' := by decide +kernel
  have hletters : ∃ f ∈ a.forms, f ≠ [] := ⟨['h'], by simp [a, ofForms, flatten], by simp⟩
  obtain ⟨-, hinserts, hfound⟩ := a.insertAt_inserts_best w hplace
  rw [hw'] at hinserts
  exact ⟨hplace, hcounts, hw', hletters, hinserts hcounts, hfound w' hw' hletters⟩

/-- A word of 2147483646 letters has no gap of the number 2147483648.  The most negative
    position puts an `x` into the last gap from the end, which is the one before. -/
theorem insertAt_lowest :
    let w : Word := List.replicate 2147483646 'a'
    let p := Position.lowest
    let a := only ['x']
    w.length + 1 < p.val.natAbs ∧ a.insertAt w p = .ok ('x' :: w) ∧
      ¬ a.Inserts p p.val.natAbs w (a.insertAt w p) := by
  intro w p a
  have hlength : w.length = 2147483646 := List.length_replicate
  have hforms : ∀ f ∈ a.forms, f = ['x'] := fun f hf => List.mem_singleton.mp hf
  have hbeyond : w.length + 1 < p.val.natAbs := by
    rw [hlength, Position.natAbs_lowest]
    omega
  have hreach : p.reach = w.length + 1 := by
    rw [hlength, Position.reach_lowest]
  have hok : a.insertAt w p = .ok ('x' :: w) := by
    have hinserts := a.inserts_insertAt w (p := p) (by decide)
    generalize a.insertAt w p = outcome at hinserts ⊢
    cases hinserts with
    | beyond hgap => omega
    | unchanged _ hnone => cases hnone
    | @best front back form longest gap _ hbest =>
      obtain ⟨hw, hcount⟩ := gap
      rw [List.append_nil] at hw
      rw [if_neg (by decide), hreach, hw, List.length_append] at hcount
      obtain rfl : front = [] := List.eq_nil_of_length_eq_zero (by omega)
      rw [hforms form hbest.mem, hw]
      rfl
  refine ⟨hbeyond, hok, fun hinserts => ?_⟩
  rw [hinserts.eq_outOfRange hbeyond] at hok
  cases hok

end WordFormation.Allomorphs
