/-
  WordFormation/Proofs/Lists.lean
  ===============================
  **Facts about lists.**

  How a list that is taken apart looks with a first member in front or read backwards,
  what is found first in a list that is made out of another, and what two lists have in
  common whose members are related one by one.
-/
import Mathlib.Data.List.Forall2

namespace WordFormation

variable {α β γ : Type}

/-! ### Lists taken apart -/

theorem exists_cons_split (x : α) (w : List α) (P : List α → α → List α → Prop) :
    (∃ front y back, x :: w = front ++ y :: back ∧ P front y back) ↔
      P [] x w ∨ ∃ front y back, w = front ++ y :: back ∧ P (x :: front) y back := by
  constructor
  · rintro ⟨front, y, back, h, hP⟩
    cases front with
    | nil =>
      cases h
      exact .inl hP
    | cons z front =>
      cases h
      exact .inr ⟨front, y, back, rfl, hP⟩
  · rintro (hP | ⟨front, y, back, rfl, hP⟩)
    · exact ⟨[], x, w, rfl, hP⟩
    · exact ⟨x :: front, y, back, rfl, hP⟩

theorem reverse_eq_append {w front text back : List α} :
    w.reverse = front ++ text ++ back ↔
      w = back.reverse ++ text.reverse ++ front.reverse := by
  constructor
  · intro h
    have := congrArg List.reverse h
    simpa using this
  · rintro rfl
    simp

/-! ### What is found first -/

theorem findSome?_cons_or (f : α → Option β) (x : α) (xs : List α) :
    (x :: xs).findSome? f = (f x).or (xs.findSome? f) := by
  rw [List.findSome?_cons]
  cases f x with
  | none => rfl
  | some b => rfl

theorem findSome?_filterMap (f : α → Option β) (g : β → Option γ) (xs : List α) :
    (xs.filterMap f).findSome? g = xs.findSome? fun x => (f x).bind g := by
  induction xs with
  | nil => rfl
  | cons x xs ih =>
    rw [List.filterMap_cons, findSome?_cons_or, ← ih]
    cases f x with
    | none => rfl
    | some y => exact findSome?_cons_or g y _

theorem findSome?_flatMap (f : α → List β) (g : β → Option γ) (xs : List α) :
    (xs.flatMap f).findSome? g = xs.findSome? fun x => (f x).findSome? g := by
  induction xs with
  | nil => rfl
  | cons x xs ih => rw [List.flatMap_cons, List.findSome?_append, findSome?_cons_or, ih]

/-! ### Members related one by one -/

section Forall₂

variable {R : α → β → Prop} {xs : List α}

/-- A list related to one that is taken apart at a member is taken apart there as well. -/
theorem exists_split_of_forall₂ {before behind : List β} {y : β}
    (h : List.Forall₂ R xs (before ++ y :: behind)) :
    ∃ before' x behind', xs = before' ++ x :: behind' ∧ List.Forall₂ R before' before ∧ R x y := by
  have hfront := List.forall₂_take_append xs before (y :: behind) h
  have hback := List.forall₂_drop_append xs before (y :: behind) h
  obtain ⟨x, behind', hx, -, hdrop⟩ := List.forall₂_cons_right_iff.mp hback
  refine ⟨xs.take before.length, x, behind', ?_, hfront, hx⟩
  rw [← hdrop, List.take_append_drop]

theorem forall_mem_of_forall₂ {p : α → Prop} {q : β → Prop} {ys : List β}
    (h : List.Forall₂ R xs ys) (hR : ∀ x y, R x y → q y → p x) (hys : ∀ y ∈ ys, q y) :
    ∀ x ∈ xs, p x := by
  induction h with
  | nil => simp
  | cons hxy _ ih =>
    obtain ⟨hy, hothers⟩ := List.forall_mem_cons.mp hys
    exact List.forall_mem_cons.mpr ⟨hR _ _ hxy hy, ih hothers⟩

end Forall₂

end WordFormation
