/-
  WordFormation/Proofs/Choice.lean
  ================================
  **What is chosen is unbeaten, and what is found at a gap is a longest form.**

  `firstBest` walks through the alternatives once and keeps one of them.  That
  nothing it passed over is better than what it kept is no matter of course: the
  comparison has to be one of scores.  Both comparisons that are in use are, the one
  by length and the one by fit, which looks at the gain first.  What is chosen then
  is the first alternative of greatest score (`firstGreatest_of_firstBest`).

  For the form found at a gap this says that no form of the set which stands
  there is longer (`length_le_formAtGap`), and so that something is found as soon
  as a form with letters stands there (`formAtGap_eq_nil_iff`).
-/
import WordFormation.Allomorphs.Placement
import Mathlib.Data.Prod.Lex

namespace WordFormation

/-! ### The first of the greatest -/

/-- The first alternative of greatest score: those in front of it have a lower one,
    those behind it no higher one. -/
def FirstGreatest {α β : Type} [LinearOrder β] (score : α → β) (xs : List α) (chosen : α) : Prop :=
  ∃ before behind, xs = before ++ chosen :: behind ∧
    (∀ x ∈ before, score x < score chosen) ∧ ∀ x ∈ behind, score x ≤ score chosen

namespace FirstGreatest

variable {α β γ : Type} [LinearOrder β] {score : α → β} {xs : List α} {x b : α}

theorem mem (h : FirstGreatest score xs b) : b ∈ xs := by
  obtain ⟨before, behind, rfl, -, -⟩ := h
  exact List.mem_append_right before List.mem_cons_self

theorem le (h : FirstGreatest score xs b) (hx : x ∈ xs) : score x ≤ score b := by
  obtain ⟨before, behind, rfl, hbefore, hbehind⟩ := h
  rcases List.mem_append.mp hx with hx | hx
  · exact (hbefore x hx).le
  · rcases List.mem_cons.mp hx with rfl | hx
    · exact le_rfl
    · exact hbehind x hx

/-- A lower score in front changes nothing. -/
theorem cons (h : FirstGreatest score xs b) (hx : score x < score b) :
    FirstGreatest score (x :: xs) b := by
  obtain ⟨before, behind, rfl, hbefore, hbehind⟩ := h
  exact ⟨x :: before, behind, rfl, List.forall_mem_cons.mpr ⟨hx, hbefore⟩, hbehind⟩

/-- Neither does one that is no higher than that of the alternative in front of it. -/
theorem insert {kept : α} (h : FirstGreatest score (kept :: xs) b) (hx : score x ≤ score kept) :
    FirstGreatest score (kept :: x :: xs) b := by
  obtain ⟨before, behind, hxs, hbefore, hbehind⟩ := h
  cases before with
  | nil =>
    obtain ⟨rfl, rfl⟩ := List.cons.inj hxs
    exact ⟨[], x :: xs, rfl, by simp, List.forall_mem_cons.mpr ⟨hx, hbehind⟩⟩
  | cons first before =>
    obtain ⟨rfl, rfl⟩ := List.cons.inj hxs
    obtain ⟨hkept, hbefore⟩ := List.forall_mem_cons.mp hbefore
    refine ⟨kept :: x :: before, behind, rfl, ?_, hbehind⟩
    exact List.forall_mem_cons.mpr
      ⟨hkept, List.forall_mem_cons.mpr ⟨hx.trans_lt hkept, hbefore⟩⟩

/-- Among images it is the image of the first alternative whose image has the
    greatest score. -/
theorem of_map {g : γ → α} {ys : List γ} (h : FirstGreatest score (ys.map g) b) :
    ∃ y, b = g y ∧ FirstGreatest (fun y => score (g y)) ys y := by
  obtain ⟨before, behind, hys, hbefore, hbehind⟩ := h
  obtain ⟨ys₁, rest, rfl, rfl, hrest⟩ := List.map_eq_append_iff.mp hys
  obtain ⟨y, ys₂, rfl, rfl, rfl⟩ := List.map_eq_cons_iff.mp hrest
  exact ⟨y, rfl, ys₁, ys₂, rfl, List.forall_mem_map.mp hbefore, List.forall_mem_map.mp hbehind⟩

end FirstGreatest

section FirstBest

variable {α β : Type} [LinearOrder β] {score : α → β} {better : α → α → Bool}
  (hbetter : ∀ x y, better x y = true ↔ score y < score x)
include hbetter

theorem foldl_preferred_firstGreatest {xs : List α} {kept b : α}
    (h : xs.foldl (preferred better) (some kept) = some b) :
    FirstGreatest score (kept :: xs) b := by
  induction xs generalizing kept with
  | nil =>
    cases h
    exact ⟨[], [], rfl, by simp, by simp⟩
  | cons x xs ih =>
    rw [List.foldl_cons] at h
    by_cases hx : better x kept = true
    · have hpref : preferred better (some kept) x = some x := if_pos hx
      rw [hpref] at h
      have hbest := ih h
      exact hbest.cons (((hbetter x kept).mp hx).trans_le (hbest.le List.mem_cons_self))
    · have hpref : preferred better (some kept) x = some kept := if_neg hx
      rw [hpref] at h
      exact (ih h).insert (not_lt.mp fun hlt => hx ((hbetter x kept).mpr hlt))

/-- What is chosen by comparing scores is the first alternative of greatest score. -/
theorem firstGreatest_of_firstBest {xs : List α} {b : α} (h : firstBest better xs = some b) :
    FirstGreatest score xs b := by
  cases xs with
  | nil => cases h
  | cons x xs => exact foldl_preferred_firstGreatest hbetter h

end FirstBest

theorem length_le_of_longest {forms : List Word} {b f : Word} (h : longest forms = some b)
    (hf : f ∈ forms) : f.length ≤ b.length :=
  (firstGreatest_of_firstBest (fun _ _ => decide_eq_true_iff) h).le hf

namespace Allomorphs

/-- The gain and the length of a form put in, compared in this order. -/
def Fit.score (f : Fit) : Int ×ₗ Nat := toLex (f.gain, f.length)

theorem Fit.better_iff (f g : Fit) : f.better g = true ↔ g.score < f.score := by
  rw [Fit.score, Fit.score, Prod.Lex.toLex_lt_toLex, eq_comm (a := g.gain)]
  simp only [Fit.better, Bool.or_eq_true, Bool.and_eq_true, decide_eq_true_eq, beq_iff_eq]

/-! ### The form found at a gap -/

/-- No form of the set that stands at a gap is longer than the one found. -/
theorem length_le_formAtGap (a : Allomorphs) {w f : Word} {k : Nat} (hk : k ≤ w.length)
    (hf : f ∈ a.flatten) (hstands : f <+: w.drop k) : f.length ≤ (a.formAtGap w k).length := by
  have hmem : f ∈ a.flatten.filter (·.isPrefixOf (w.drop k)) :=
    List.mem_filter.mpr ⟨hf, List.isPrefixOf_iff_prefix.mpr hstands⟩
  rw [a.formAtGap_eq hk]
  cases hl : longest (a.flatten.filter (·.isPrefixOf (w.drop k))) with
  | none =>
    rw [(firstBest_eq_none_iff _ _).mp hl] at hmem
    cases hmem
  | some b => exact length_le_of_longest hl hmem

/-- What is found is a form of the set, or nothing. -/
theorem formAtGap_mem (a : Allomorphs) {w : Word} {k : Nat} (h : a.formAtGap w k ≠ []) :
    a.formAtGap w k ∈ a.flatten := by
  have hk : k ≤ w.length := Nat.not_lt.mp fun hk => h (a.formAtGap_of_length_lt hk)
  rw [a.formAtGap_eq hk] at h ⊢
  cases hl : longest (a.flatten.filter (·.isPrefixOf (w.drop k))) with
  | none => rw [hl] at h; exact absurd rfl h
  | some b => exact (List.mem_filter.mp (firstBest_mem hl)).1

/-- Nothing is found where no form with letters stands. -/
theorem formAtGap_eq_nil_iff (a : Allomorphs) {w : Word} {k : Nat} (hk : k ≤ w.length) :
    a.formAtGap w k = [] ↔ ∀ f ∈ a.flatten, f <+: w.drop k → f = [] := by
  constructor
  · intro h f hf hstands
    have hlength := a.length_le_formAtGap hk hf hstands
    rw [h] at hlength
    exact List.eq_nil_of_length_eq_zero (by simpa using hlength)
  · intro h
    by_cases hne : a.formAtGap w k = []
    · exact hne
    · exact h _ (a.formAtGap_mem hne) a.formAtGap_prefix

end Allomorphs

end WordFormation
