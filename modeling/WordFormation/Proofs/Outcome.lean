/-
  WordFormation/Proofs/Outcome.lean
  =================================
  **Steps of which each one can fail, taken one after the other.**

  Assembling, reading and editing are all sequences of this kind.  A sequence
  comes out well exactly if all its steps do (`bind_eq_ok`).  What is true of every
  value that can come out (`Gives`) follows from the steps in turn.  What a sequence
  fails with is what the first of its steps fails with that fails at all
  (`failure?_bind`).
-/
import WordFormation.Proofs.Lists

namespace WordFormation

variable {ε α β : Type}

@[simp] theorem ok_bind (a : α) (f : α → Except ε β) : (Except.ok a >>= f) = f a := rfl

@[simp] theorem pure_eq_ok (a : α) : (pure a : Except ε α) = .ok a := rfl

theorem bind_eq_ok {x : Except ε α} {f : α → Except ε β} {b : β} :
    (x >>= f) = .ok b ↔ ∃ a, x = .ok a ∧ f a = .ok b := by
  cases x with
  | error e =>
    constructor
    · intro h; cases h
    · rintro ⟨a, ha, _⟩; cases ha
  | ok a =>
    constructor
    · intro h; exact ⟨a, rfl, h⟩
    · rintro ⟨a', ha, h⟩; cases ha; exact h

theorem exists_of_isOk {x : Except ε α} (h : x.isOk = true) : ∃ a, x = .ok a := by
  cases x with
  | error e => cases h
  | ok a => exact ⟨a, rfl⟩

theorem eq_ok_of_toOption {x : Except ε α} {a : α} (h : x.toOption = some a) : x = .ok a := by
  cases x with
  | error e => cases h
  | ok b => exact congrArg Except.ok (Option.some.inj h)

/-- Of a list of steps all come out well, each with its own value. -/
theorem mapM_eq_ok_iff {f : α → Except ε β} {xs : List α} {ys : List β} :
    xs.mapM f = .ok ys ↔ List.Forall₂ (fun x y => f x = .ok y) xs ys := by
  induction xs generalizing ys with
  | nil =>
    rw [List.mapM_nil, List.forall₂_nil_left_iff]
    exact ⟨fun h => (Except.ok.inj h).symm, fun h => congrArg Except.ok h.symm⟩
  | cons x xs ih =>
    rw [List.mapM_cons, bind_eq_ok, List.forall₂_cons_left_iff]
    constructor
    · rintro ⟨y, hy, h⟩
      obtain ⟨others, hothers, h⟩ := bind_eq_ok.mp h
      exact ⟨y, others, hy, ih.mp hothers, (Except.ok.inj h).symm⟩
    · rintro ⟨y, others, hy, hothers, rfl⟩
      exact ⟨y, hy, bind_eq_ok.mpr ⟨others, ih.mpr hothers, rfl⟩⟩

/-! ### What can come out -/

/-- Whatever comes out has the property. -/
def Gives (P : α → Prop) (x : Except ε α) : Prop := ∀ a, x = .ok a → P a

section Gives

variable {P : α → Prop} {Q : β → Prop}

theorem gives_ok {a : α} (h : P a) : Gives P (.ok a : Except ε α) := by
  intro b hb
  cases hb
  exact h

theorem gives_error (e : ε) : Gives P (.error e) := by
  intro a ha
  cases ha

theorem Gives.bind {x : Except ε α} (hx : Gives P x) {f : α → Except ε β}
    (hf : ∀ a, P a → Gives Q (f a)) : Gives Q (x >>= f) := by
  intro b hb
  obtain ⟨a, ha, hb⟩ := bind_eq_ok.mp hb
  exact hf a (hx a ha) b hb

/-- A step of which nothing has to be known. -/
theorem gives_bind {x : Except ε α} {f : α → Except ε β} (hf : ∀ a, Gives Q (f a)) :
    Gives Q (x >>= f) := by
  intro b hb
  obtain ⟨a, -, hb⟩ := bind_eq_ok.mp hb
  exact hf a b hb

theorem gives_mapM {f : α → Except ε β} (h : ∀ a, Gives Q (f a)) (xs : List α) :
    Gives (fun ys => ∀ y ∈ ys, Q y) (xs.mapM f) := by
  induction xs with
  | nil => exact gives_ok (by simp)
  | cons x xs ih =>
    rw [List.mapM_cons]
    refine (h x).bind fun y hy => ih.bind fun ys hys => gives_ok ?_
    exact List.forall_mem_cons.mpr ⟨hy, hys⟩

end Gives

/-! ### The first failure -/

/-- What a step fails with, if it does. -/
def failure? : Except ε α → Option ε
  | .ok _ => none
  | .error e => some e

section Failure

@[simp] theorem failure?_ok (a : α) : failure? (.ok a : Except ε α) = none := rfl

@[simp] theorem failure?_error (e : ε) : failure? (.error e : Except ε α) = some e := rfl

theorem failure?_eq_none_iff {x : Except ε α} : failure? x = none ↔ ∃ a, x = .ok a := by
  cases x with
  | error e => simp
  | ok a => simp

theorem failure?_eq_some_iff {x : Except ε α} {e : ε} : failure? x = some e ↔ x = .error e := by
  cases x with
  | error e' => simp
  | ok a => simp

theorem exists_error_iff {x : Except ε α} : (∃ e, x = .error e) ↔ failure? x ≠ none := by
  cases x with
  | error e => simp
  | ok a => simp

/-- A step, and behind it steps that fail in the same way whatever comes out of it. -/
theorem failure?_bind {x : Except ε α} {f : α → Except ε β} {later : Option ε}
    (h : ∀ a, failure? (f a) = later) : failure? (x >>= f) = (failure? x).or later := by
  cases x with
  | error e => rfl
  | ok a => exact h a

/-- Nothing can fail in putting the value together in the end. -/
theorem failure?_bind_pure (x : Except ε α) (g : α → β) :
    failure? (x >>= fun a => pure (g a)) = failure? x := by
  have hnone : ∀ a, failure? (pure (g a) : Except ε β) = none := fun _ => rfl
  rw [failure?_bind hnone, Option.or_none]

/-- Of a list of steps the first that fails makes the whole list fail. -/
theorem failure?_mapM (f : α → Except ε β) (xs : List α) :
    failure? (xs.mapM f) = xs.findSome? fun x => failure? (f x) := by
  induction xs with
  | nil => rfl
  | cons x xs ih =>
    rw [List.mapM_cons, findSome?_cons_or, ← ih]
    exact failure?_bind fun _ => failure?_bind_pure _ _

/-- What fails with the first member of a list that is refused fails exactly if there is
    one, and all members in front of it pass. -/
theorem eq_error_iff_first {x : Except ε α} {xs : List β} {check : β → Option ε}
    (h : failure? x = xs.findSome? check) {e : ε} :
    x = .error e ↔ ∃ before y behind, xs = before ++ y :: behind ∧
      (∀ other ∈ before, check other = none) ∧ check y = some e := by
  rw [← failure?_eq_some_iff, h, List.findSome?_eq_some_iff]
  constructor
  · rintro ⟨before, y, behind, hsplit, hy, hbefore⟩
    exact ⟨before, y, behind, hsplit, hbefore, hy⟩
  · rintro ⟨before, y, behind, hsplit, hbefore, hy⟩
    exact ⟨before, y, behind, hsplit, hy, hbefore⟩

end Failure

end WordFormation
