/-
  WordFormation/Proofs/Assembling.lean
  ====================================
  **Groups are assembled operation by operation.**

  Nothing but an operation of its own can keep a group from being assembled
  (`exists_assembleGroup`), and nothing but a group of its own a blueprint
  (`assembleGroups_append`).  Each group makes one stage, and each operation of the group
  one morpheme of it (`assembleGroups_eq_ok_iff`).
-/
import WordFormation.Proofs.Outcome
import WordFormation.Rule

namespace WordFormation

/-- The operation can be made into a morpheme. -/
def Operation.Assembles (x : Operation) : Prop := ∃ m, x.assemble = .ok m

/-- The branch can be made into a morpheme, whatever a polarity alone stands for. -/
def Branch.Assembles (b : Branch) : Prop := ∀ short, ∃ m, b.assemble short = .ok m

theorem assembleGroup_eq_mapM (xs : List Operation) :
    assembleGroup xs = xs.mapM Operation.assemble := by
  induction xs with
  | nil => rfl
  | cons x xs ih => rw [assembleGroup, List.mapM_cons, ih]

theorem assembleGroups_eq_mapM (gs : List (List Operation)) :
    assembleGroups gs = gs.mapM assembleGroup := by
  induction gs with
  | nil => rfl
  | cons g gs ih => rw [assembleGroups, List.mapM_cons, ih]

theorem exists_assembleGroup {xs : List Operation} (h : ∀ x ∈ xs, x.Assembles) :
    ∃ ms, assembleGroup xs = .ok ms := by
  rw [← failure?_eq_none_iff, assembleGroup_eq_mapM, failure?_mapM, List.findSome?_eq_none_iff]
  exact fun x hx => failure?_eq_none_iff.mpr (h x hx)

theorem exists_assembleGroups {gs : List (List Operation)}
    (h : ∀ g ∈ gs, ∀ x ∈ g, x.Assembles) : ∃ stages, assembleGroups gs = .ok stages := by
  rw [← failure?_eq_none_iff, assembleGroups_eq_mapM, failure?_mapM, List.findSome?_eq_none_iff]
  exact fun g hg => failure?_eq_none_iff.mpr (exists_assembleGroup (h g hg))

theorem assembleGroups_append (gs gs' : List (List Operation)) :
    assembleGroups (gs ++ gs') = (do
      let stages ← assembleGroups gs
      let stages' ← assembleGroups gs'
      return stages ++ stages') := by
  simp only [assembleGroups_eq_mapM, List.mapM_append]

/-! ### What groups are assembled to -/

/-- Each operation is assembled to the morpheme in its place. -/
theorem assembleGroup_eq_ok_iff {xs : List Operation} {ms : List Morpheme} :
    assembleGroup xs = .ok ms ↔ List.Forall₂ (fun x m => x.assemble = .ok m) xs ms := by
  rw [assembleGroup_eq_mapM, mapM_eq_ok_iff]

/-- Each group is assembled to the stage in its place. -/
theorem assembleGroups_eq_ok_iff {gs : List (List Operation)} {stages : List (List Morpheme)} :
    assembleGroups gs = .ok stages ↔
      List.Forall₂ (List.Forall₂ fun x m => x.assemble = .ok m) gs stages := by
  rw [assembleGroups_eq_mapM, mapM_eq_ok_iff]
  simp only [assembleGroup_eq_ok_iff]

theorem Rule.ofBlueprint_eq_ok {b : Blueprint} {r : Rule} :
    ofBlueprint b = .ok r ↔ r.blueprint = b ∧ assembleGroups b.groups = .ok r.stages := by
  constructor
  · intro h
    obtain ⟨stages, hstages, h⟩ := bind_eq_ok.mp h
    cases h
    exact ⟨rfl, hstages⟩
  · rintro ⟨rfl, hstages⟩
    rw [ofBlueprint, hstages]
    rfl

/-! ### Operations and their branches -/

theorem Branch.assembles_identity : Branch.identity.Assembles := by
  intro short
  exact ⟨_, rfl⟩

theorem Branch.assembles_short (p : Polarity) : (Branch.short p).Assembles := by
  intro short
  exact ⟨_, rfl⟩

theorem Branch.assembles_operations {xs : List Operation} (h : ∀ x ∈ xs, x.Assembles) :
    (Branch.operations xs).Assembles := by
  intro short
  obtain ⟨parts, hparts⟩ := exists_assembleGroup h
  exact ⟨_, by rw [Branch.assemble, hparts]; rfl⟩

theorem Operation.assembles_conditional (condition : EdgeCondition) {met unmet : Branch}
    (hmet : met.Assembles) (hunmet : unmet.Assembles) :
    (Operation.conditional condition met unmet).Assembles := by
  obtain ⟨whenMet, hm⟩ := hmet (decidingAffix condition)
  obtain ⟨whenUnmet, hu⟩ := hunmet (leadingAffix condition)
  exact ⟨_, by rw [Operation.assemble, hm, ok_bind, hu]; rfl⟩

end WordFormation
