/-
  WordFormation/Proofs/DecisionLeaves.lean
  ========================================
  **A decision is a search through its leaves.**

  A leaf is a literal with the guards of all clauses on the way to it, and the leaves of
  a decision stand in the order in which they are written.  Whatever is nested in what,
  a decision comes to the first leaf whose guards the candidate all matches, and only if
  there is none it comes to nothing (`evaluate_first_leaf`).

  A nested decision that comes to nothing sends the search on to the next clause of the
  decision around it, and of the one around that if there is no next clause.  The leaves
  have all these clauses in one list, in which the search just goes on
  (`Finds.append`).  Below a guard that does not match, no leaf applies
  (`finds_under_unmatched`).
-/
import WordFormation.Decision

namespace WordFormation

/-! ### Guards that match -/

section Guards

variable {P : Type} [PatternLanguage P] {c : Candidate}

/-- What a guard asks of a candidate. -/
inductive Guard.Matches (c : Candidate) : Guard P → Prop where
  | always : Matches c .always
  | pattern {p : P} (h : PatternLanguage.isFoundIn p c.form = true) : Matches c (.pattern p)
  | feature {name : String} (h : c.hasFeature name = true) : Matches c (.feature name)
  | all {guards : List (Guard P)} (h : ∀ guard ∈ guards, Matches c guard) :
      Matches c (.all guards)

theorem Guard.matches_pattern_iff {p : P} :
    (Guard.pattern p).Matches c ↔ PatternLanguage.isFoundIn p c.form = true := by
  constructor
  · intro hmatches
    cases hmatches with
    | pattern h => exact h
  · exact .pattern

theorem Guard.matches_feature_iff {name : String} :
    (Guard.feature name : Guard P).Matches c ↔ c.hasFeature name = true := by
  constructor
  · intro hmatches
    cases hmatches with
    | feature h => exact h
  · exact .feature

theorem Guard.matches_all_iff {guards : List (Guard P)} :
    (Guard.all guards).Matches c ↔ ∀ guard ∈ guards, guard.Matches c := by
  constructor
  · intro hmatches
    cases hmatches with
    | all h => exact h
  · exact .all

mutual

theorem Guard.holds_iff_matches : ∀ guard : Guard P, guard.holds c = true ↔ guard.Matches c
  | .always => by
    rw [Guard.holds]
    exact iff_of_true rfl .always
  | .pattern p => by rw [Guard.holds, Guard.matches_pattern_iff]
  | .feature name => by rw [Guard.holds, Guard.matches_feature_iff]
  | .all guards => by
    rw [Guard.holds, Guard.allHold_iff_matches guards, Guard.matches_all_iff]

theorem Guard.allHold_iff_matches :
    ∀ guards : List (Guard P), Guard.allHold c guards = true ↔ ∀ guard ∈ guards, guard.Matches c
  | [] => by
    rw [Guard.allHold]
    exact iff_of_true rfl (by simp)
  | guard :: guards => by
    rw [Guard.allHold, Bool.and_eq_true, guard.holds_iff_matches, Guard.allHold_iff_matches guards,
      List.forall_mem_cons]

end

end Guards

/-! ### Leaves -/

/-- A literal with the guards on the way to it, the outermost first. -/
structure Leaf (G : Type) where
  guards : List G
  value : String

/-- The leaf below one more guard. -/
def Leaf.under {G : Type} (guard : G) (leaf : Leaf G) : Leaf G :=
  { leaf with guards := guard :: leaf.guards }

section Leaves

variable {G : Type}

mutual

/-- The literals of a decision in the order in which they are written. -/
def Decision.leaves : Decision G → List (Leaf G)
  | .single clause => clause.leaves
  | .several clauses => Clause.leavesOfEach clauses

def Clause.leaves : Clause G → List (Leaf G)
  | .guarded guard outcome => outcome.leaves.map (Leaf.under guard)

def Outcome.leaves : Outcome G → List (Leaf G)
  | .literal value => [⟨[], value⟩]
  | .nested decision => decision.leaves

def Clause.leavesOfEach : List (Clause G) → List (Leaf G)
  | [] => []
  | clause :: clauses => clause.leaves ++ Clause.leavesOfEach clauses

end

end Leaves

/-! ### Searching -/

section Search

variable {P : Type} [PatternLanguage P] {c : Candidate}

/-- The candidate matches every guard on the way to the leaf. -/
def Leaf.Applies (c : Candidate) (leaf : Leaf (Guard P)) : Prop :=
  ∀ guard ∈ leaf.guards, guard.Matches c

theorem Leaf.applies_under {guard : Guard P} {leaf : Leaf (Guard P)} :
    (leaf.under guard).Applies c ↔ guard.Matches c ∧ leaf.Applies c :=
  List.forall_mem_cons

/-- What comes of looking through leaves for the first that applies. -/
inductive Finds (c : Candidate) (leaves : List (Leaf (Guard P))) :
    Except DecisionError String → Prop where
  | first {before behind : List (Leaf (Guard P))} {leaf : Leaf (Guard P)}
      (hsplit : leaves = before ++ leaf :: behind) (hbefore : ∀ other ∈ before, ¬ other.Applies c)
      (happlies : leaf.Applies c) : Finds c leaves (.ok leaf.value)
  | nothing (hnone : ∀ leaf ∈ leaves, ¬ leaf.Applies c) : Finds c leaves (.error .noneApplies)

section Finds

variable {leaves others : List (Leaf (Guard P))} {outcome : Except DecisionError String}

theorem Finds.none_applies (h : Finds c leaves (.error .noneApplies)) :
    ∀ leaf ∈ leaves, ¬ leaf.Applies c := by
  cases h with
  | nothing hnone => exact hnone

/-- Behind leaves of which none applies the search goes on. -/
theorem Finds.append (h : Finds c leaves (.error .noneApplies)) (hothers : Finds c others outcome) :
    Finds c (leaves ++ others) outcome := by
  have hnone := h.none_applies
  cases hothers with
  | @first before behind leaf hsplit hbefore happlies =>
    have hfront : ∀ other ∈ leaves ++ before, ¬ other.Applies c :=
      List.forall_mem_append.mpr ⟨hnone, hbefore⟩
    have hwhole : leaves ++ others = (leaves ++ before) ++ leaf :: behind := by
      rw [hsplit, List.append_assoc]
    exact .first hwhole hfront happlies
  | nothing hothers => exact .nothing (List.forall_mem_append.mpr ⟨hnone, hothers⟩)

/-- What stands behind a leaf that applies does not matter. -/
theorem Finds.append_found {value : String} (h : Finds c leaves (.ok value))
    (others : List (Leaf (Guard P))) : Finds c (leaves ++ others) (.ok value) := by
  cases h with
  | @first before behind leaf hsplit hbefore happlies =>
    have hwhole : leaves ++ others = before ++ leaf :: (behind ++ others) := by
      rw [hsplit, List.append_assoc, List.cons_append]
    exact .first hwhole hbefore happlies

theorem Finds.under {guard : Guard P} (hguard : guard.Matches c) (h : Finds c leaves outcome) :
    Finds c (leaves.map (Leaf.under guard)) outcome := by
  have hfails {leaf : Leaf (Guard P)} (hleaf : ¬ leaf.Applies c) : ¬ (leaf.under guard).Applies c :=
    fun happlies => hleaf (Leaf.applies_under.mp happlies).2
  cases h with
  | @first before behind leaf hsplit hbefore happlies =>
    have hmap : leaves.map (Leaf.under guard) =
        before.map (Leaf.under guard) ++ leaf.under guard :: behind.map (Leaf.under guard) := by
      rw [hsplit, List.map_append, List.map_cons]
    have hfront : ∀ other ∈ before.map (Leaf.under guard), ¬ other.Applies c :=
      List.forall_mem_map.mpr fun other hother => hfails (hbefore other hother)
    have hunder : (leaf.under guard).Applies c := Leaf.applies_under.mpr ⟨hguard, happlies⟩
    have hfound : Finds c _ (.ok (leaf.under guard).value) := .first hmap hfront hunder
    exact hfound
  | nothing hnone =>
    exact .nothing (List.forall_mem_map.mpr fun leaf hleaf => hfails (hnone leaf hleaf))

theorem finds_under_unmatched {guard : Guard P} (hguard : ¬ guard.Matches c)
    (leaves : List (Leaf (Guard P))) :
    Finds c (leaves.map (Leaf.under guard)) (.error .noneApplies) := by
  refine .nothing (List.forall_mem_map.mpr fun leaf _ happlies => ?_)
  exact hguard (Leaf.applies_under.mp happlies).1

end Finds

mutual

/-- Deciding looks through the leaves. -/
theorem Decision.finds_evaluate : ∀ d : Decision (Guard P), Finds c d.leaves (d.evaluate c)
  | .single clause => by
    rw [Decision.leaves, Decision.evaluate]
    exact clause.finds_evaluate
  | .several clauses => by
    rw [Decision.leaves, Decision.evaluate]
    exact Clause.finds_evaluateFirst clauses

theorem Clause.finds_evaluate : ∀ clause : Clause (Guard P), Finds c clause.leaves (clause.evaluate c)
  | .guarded guard outcome => by
    rw [Clause.leaves, Clause.evaluate]
    by_cases hguard : guard.Matches c
    · rw [if_pos (guard.holds_iff_matches.mpr hguard)]
      exact outcome.finds_evaluate.under hguard
    · rw [if_neg (fun hholds => hguard (guard.holds_iff_matches.mp hholds))]
      exact finds_under_unmatched hguard outcome.leaves

theorem Outcome.finds_evaluate :
    ∀ outcome : Outcome (Guard P), Finds c outcome.leaves (outcome.evaluate c)
  | .literal value => by
    rw [Outcome.leaves, Outcome.evaluate]
    let leaf : Leaf (Guard P) := ⟨[], value⟩
    have hsplit : [leaf] = [] ++ leaf :: [] := rfl
    have happlies : leaf.Applies c := by simp [Leaf.Applies, leaf]
    exact .first hsplit (by simp) happlies
  | .nested decision => by
    rw [Outcome.leaves, Outcome.evaluate]
    exact decision.finds_evaluate

theorem Clause.finds_evaluateFirst : ∀ clauses : List (Clause (Guard P)),
    Finds c (Clause.leavesOfEach clauses) (Clause.evaluateFirst c clauses)
  | [] => by
    rw [Clause.leavesOfEach, Clause.evaluateFirst]
    exact .nothing (by simp)
  | clause :: clauses => by
    rw [Clause.leavesOfEach, Clause.evaluateFirst]
    have hclause := clause.finds_evaluate
    have hclauses := Clause.finds_evaluateFirst clauses
    generalize clause.evaluate c = outcome at hclause
    -- a clause comes to a literal or to nothing, so there is no failure that ends the search
    cases hclause with
    | first hsplit hbefore happlies =>
      exact (Finds.first hsplit hbefore happlies).append_found _
    | nothing hnone => exact (Finds.nothing hnone).append hclauses

end

/-- **A decision comes to the first of its leaves that applies.**  It comes to nothing
    exactly if none does, and it fails in no other way. -/
theorem Decision.evaluate_first_leaf (d : Decision (Guard P)) (c : Candidate) :
    Finds c d.leaves (d.evaluate c) ∧
    (d.evaluate c = .error .noneApplies ↔ ∀ leaf ∈ d.leaves, ¬ leaf.Applies c) ∧
    ∀ failure, d.evaluate c = .error failure → failure = .noneApplies := by
  have hfinds := d.finds_evaluate (c := c)
  refine ⟨hfinds, ?_, ?_⟩
  · constructor
    · intro h
      rw [h] at hfinds
      exact hfinds.none_applies
    · intro hnone
      generalize d.evaluate c = outcome at hfinds
      cases hfinds with
      | @first before behind leaf hsplit _ happlies =>
        have hmem : leaf ∈ d.leaves := by
          rw [hsplit]
          exact List.mem_append_right before List.mem_cons_self
        exact absurd happlies (hnone leaf hmem)
      | nothing _ => rfl
  · intro failure h
    rw [h] at hfinds
    cases hfinds with
    | nothing _ => rfl

end Search

/-- A word has no features, so what is nested comes to nothing and the next clause is
    tried. -/
example :
    let inner : Decision (Guard WordPattern) := .single (.guarded (.feature "animate") (.literal "a"))
    let d : Decision (Guard WordPattern) :=
      .several [.guarded (.all [.always]) (.nested inner), .guarded .always (.literal "o")]
    d.evaluate (.ofWord ['k', 'o', 't']) = .ok "o" := by
  rfl

end WordFormation
