/-
  WordFormation/Selection.lean
  ============================
  **Choosing among alternatives: the first of the best.**

  Wherever several forms fit, the one that fits best is taken, and among equally
  good ones the first that was written.  `firstBest` says this once, for any
  comparison; `longest` is the case in which longer is better.
-/
import WordFormation.Word

namespace WordFormation

/-- The better of a choice made so far and the next alternative, which has to
    be really better to displace it. -/
def preferred {α : Type} (better : α → α → Bool) (best : Option α) (next : α) : Option α :=
  match best with
  | none => some next
  | some kept => if better next kept then some next else some kept

/-- The first alternative that no other one is better than. -/
def firstBest {α : Type} (better : α → α → Bool) (xs : List α) : Option α :=
  xs.foldl (preferred better) none

/-- The first of the longest words. -/
def longest (forms : List Word) : Option Word :=
  firstBest (fun next kept => kept.length < next.length) forms

/-! ### Choices are among the alternatives -/

theorem foldl_preferred_isSome {α : Type} (better : α → α → Bool) (xs : List α) (kept : α) :
    ∃ b, xs.foldl (preferred better) (some kept) = some b ∧ (b = kept ∨ b ∈ xs) := by
  induction xs generalizing kept with
  | nil => exact ⟨kept, rfl, .inl rfl⟩
  | cons x xs ih =>
    by_cases h : better x kept = true
    · obtain ⟨b, hb, hmem⟩ := ih x
      refine ⟨b, by simpa [preferred, h] using hb, .inr ?_⟩
      rcases hmem with rfl | hmem <;> simp [*]
    · obtain ⟨b, hb, hmem⟩ := ih kept
      refine ⟨b, by simpa [preferred, h] using hb, ?_⟩
      rcases hmem with rfl | hmem <;> simp [*]

theorem firstBest_cons {α : Type} (better : α → α → Bool) (x : α) (xs : List α) :
    ∃ b, firstBest better (x :: xs) = some b ∧ b ∈ x :: xs := by
  obtain ⟨b, hb, hmem⟩ := foldl_preferred_isSome better xs x
  exact ⟨b, hb, by rcases hmem with rfl | h <;> simp [*]⟩

/-- A choice fails only where there is nothing to choose from. -/
theorem firstBest_eq_none_iff {α : Type} (better : α → α → Bool) (xs : List α) :
    firstBest better xs = none ↔ xs = [] := by
  cases xs with
  | nil => simp [firstBest]
  | cons x xs =>
    obtain ⟨b, hb, _⟩ := firstBest_cons better x xs
    simp [hb]

theorem firstBest_mem {α : Type} {better : α → α → Bool} {xs : List α} {b : α}
    (h : firstBest better xs = some b) : b ∈ xs := by
  cases xs with
  | nil => simp [firstBest] at h
  | cons x xs =>
    obtain ⟨b', hb, hmem⟩ := firstBest_cons better x xs
    rw [hb] at h
    cases h
    exact hmem

end WordFormation
