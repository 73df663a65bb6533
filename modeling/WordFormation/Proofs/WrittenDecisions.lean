/-
  WordFormation/Proofs/WrittenDecisions.lean
  ==========================================
  **What a decision that is written down means, and when it is refused.**

  A decision in a document has guards that name a pattern, a feature, both or neither.
  All of them are made ready before the decision is used for the first time, also those
  that no candidate can come to.  They are made ready in the order in which they are
  written, a clause's own guard before those that are nested in it, and the first text
  that is no pattern is what the document is refused for (`failure?_decision`).

  What comes out has the same literals in the same order, each behind what its guards
  were made into (`Decision.leaves_translate`).  A guard is made of the parts that were
  given, and nothing of it is lost: the candidate matches it exactly if it has what the
  written guard asks for (`GuardSpec.matches_iff`).  So the search that is known for
  decisions over any guards is a search through what stands in the document
  (`DecisionSpec.decision_faithful`).

  Which texts are patterns, and where they are found, is left open.
-/
import WordFormation.Proofs.DecisionLeaves
import WordFormation.Proofs.Outcome

namespace WordFormation

/-! ### Guards in the order in which they are written -/

section Guards

variable {G : Type}

mutual

/-- All guards of a decision, each one before those that are nested under it. -/
def Decision.guards : Decision G → List G
  | .single clause => clause.guards
  | .several clauses => Clause.guardsOfEach clauses

def Clause.guards : Clause G → List G
  | .guarded guard outcome => guard :: outcome.guards

def Outcome.guards : Outcome G → List G
  | .literal _ => []
  | .nested decision => decision.guards

def Clause.guardsOfEach : List (Clause G) → List G
  | [] => []
  | clause :: clauses => clause.guards ++ Clause.guardsOfEach clauses

end

end Guards

/-! ### Translating guards -/

/-- The same literal behind the translations of the guards. -/
structure Leaf.Translates {G H ε : Type} (f : G → Except ε H) (leaf : Leaf G) (leaf' : Leaf H) :
    Prop where
  value : leaf'.value = leaf.value
  guards : List.Forall₂ (fun guard guard' => f guard = .ok guard') leaf.guards leaf'.guards

theorem Leaf.Translates.under {G H ε : Type} {f : G → Except ε H} {leaf : Leaf G} {leaf' : Leaf H}
    {guard : G} {guard' : H} (hguard : f guard = .ok guard') (h : Leaf.Translates f leaf leaf') :
    Leaf.Translates f (leaf.under guard) (leaf'.under guard') :=
  ⟨h.value, .cons hguard h.guards⟩

section Translation

variable {G H ε : Type} (f : G → Except ε H)

mutual

/-- A translation fails with the first guard that has none. -/
theorem Decision.failure?_translate : ∀ d : Decision G,
    failure? (d.translate f) = d.guards.findSome? fun guard => failure? (f guard)
  | .single clause => by
    rw [Decision.translate, Decision.guards, ← clause.failure?_translate]
    exact failure?_bind_pure _ _
  | .several clauses => by
    rw [Decision.translate, Decision.guards, ← Clause.failure?_translateAll clauses]
    exact failure?_bind_pure _ _

theorem Clause.failure?_translate : ∀ clause : Clause G,
    failure? (clause.translate f) = clause.guards.findSome? fun guard => failure? (f guard)
  | .guarded guard outcome => by
    rw [Clause.translate, Clause.guards, findSome?_cons_or, ← outcome.failure?_translate]
    exact failure?_bind fun _ => failure?_bind_pure _ _

theorem Outcome.failure?_translate : ∀ outcome : Outcome G,
    failure? (outcome.translate f) = outcome.guards.findSome? fun guard => failure? (f guard)
  | .literal value => by
    rw [Outcome.translate, Outcome.guards]
    rfl
  | .nested decision => by
    rw [Outcome.translate, Outcome.guards, ← decision.failure?_translate]
    exact failure?_bind_pure _ _

theorem Clause.failure?_translateAll : ∀ clauses : List (Clause G),
    failure? (Clause.translateAll f clauses) =
      (Clause.guardsOfEach clauses).findSome? fun guard => failure? (f guard)
  | [] => by
    rw [Clause.translateAll, Clause.guardsOfEach]
    rfl
  | clause :: clauses => by
    rw [Clause.translateAll, Clause.guardsOfEach, List.findSome?_append,
      ← clause.failure?_translate, ← Clause.failure?_translateAll clauses]
    exact failure?_bind fun _ => failure?_bind_pure _ _

end

variable {f}

mutual

/-- A translation has the same literals in the same order. -/
theorem Decision.leaves_translate : ∀ {d : Decision G} {d' : Decision H},
    d.translate f = .ok d' → List.Forall₂ (Leaf.Translates f) d.leaves d'.leaves
  | .single clause, d', h => by
    rw [Decision.translate] at h
    obtain ⟨clause', hclause, h⟩ := bind_eq_ok.mp h
    obtain rfl := Except.ok.inj h
    rw [Decision.leaves, Decision.leaves]
    exact Clause.leaves_translate hclause
  | .several clauses, d', h => by
    rw [Decision.translate] at h
    obtain ⟨clauses', hclauses, h⟩ := bind_eq_ok.mp h
    obtain rfl := Except.ok.inj h
    rw [Decision.leaves, Decision.leaves]
    exact Clause.leaves_translateAll hclauses

theorem Clause.leaves_translate : ∀ {clause : Clause G} {clause' : Clause H},
    clause.translate f = .ok clause' → List.Forall₂ (Leaf.Translates f) clause.leaves clause'.leaves
  | .guarded guard outcome, clause', h => by
    rw [Clause.translate] at h
    obtain ⟨guard', hguard, h⟩ := bind_eq_ok.mp h
    obtain ⟨outcome', houtcome, h⟩ := bind_eq_ok.mp h
    obtain rfl := Except.ok.inj h
    rw [Clause.leaves, Clause.leaves, List.forall₂_map_left_iff, List.forall₂_map_right_iff]
    exact (Outcome.leaves_translate houtcome).imp fun _ _ hleaf => hleaf.under hguard

theorem Outcome.leaves_translate : ∀ {outcome : Outcome G} {outcome' : Outcome H},
    outcome.translate f = .ok outcome' →
      List.Forall₂ (Leaf.Translates f) outcome.leaves outcome'.leaves
  | .literal value, outcome', h => by
    rw [Outcome.translate] at h
    obtain rfl := Except.ok.inj h
    rw [Outcome.leaves, Outcome.leaves]
    exact .cons ⟨rfl, .nil⟩ .nil
  | .nested decision, outcome', h => by
    rw [Outcome.translate] at h
    obtain ⟨decision', hdecision, h⟩ := bind_eq_ok.mp h
    obtain rfl := Except.ok.inj h
    rw [Outcome.leaves, Outcome.leaves]
    exact Decision.leaves_translate hdecision

theorem Clause.leaves_translateAll : ∀ {clauses : List (Clause G)} {clauses' : List (Clause H)},
    Clause.translateAll f clauses = .ok clauses' →
      List.Forall₂ (Leaf.Translates f) (Clause.leavesOfEach clauses) (Clause.leavesOfEach clauses')
  | [], clauses', h => by
    rw [Clause.translateAll] at h
    obtain rfl := Except.ok.inj h
    rw [Clause.leavesOfEach, Clause.leavesOfEach]
    exact .nil
  | clause :: clauses, clauses', h => by
    rw [Clause.translateAll] at h
    obtain ⟨first, hfirst, h⟩ := bind_eq_ok.mp h
    obtain ⟨others, hothers, h⟩ := bind_eq_ok.mp h
    obtain rfl := Except.ok.inj h
    rw [Clause.leavesOfEach, Clause.leavesOfEach]
    exact List.rel_append (Clause.leaves_translate hfirst) (Clause.leaves_translateAll hothers)

end

end Translation

/-! ### Texts that are patterns -/

section Patterns

variable (P : Type) [PatternLanguage P]

/-- The text is a pattern of the language. -/
def IsPattern (text : String) : Prop := ∃ p : P, PatternLanguage.ofText? text.toList = some p

variable {P}

theorem failure?_ofPattern_eq_none_iff {text : String} :
    failure? (Guard.ofPattern text : Except DecisionError (Guard P)) = none ↔ IsPattern P text := by
  unfold Guard.ofPattern IsPattern
  cases (PatternLanguage.ofText? text.toList : Option P) with
  | none => simp
  | some p => simp

theorem failure?_ofPattern_eq_some_iff {text : String} {e : DecisionError} :
    failure? (Guard.ofPattern text : Except DecisionError (Guard P)) = some e ↔
      ¬ IsPattern P text ∧ e = .invalidPattern text := by
  unfold Guard.ofPattern IsPattern
  cases (PatternLanguage.ofText? text.toList : Option P) with
  | none => simp [eq_comm]
  | some p => simp

end Patterns

/-! ### Written guards -/

namespace GuardSpec

section Made

variable {P : Type} [PatternLanguage P]

theorem guard_neither : (mk none none).guard = .ok (Guard.always : Guard P) := rfl

theorem guard_feature (name : String) :
    (mk none (some name)).guard = .ok (Guard.feature name : Guard P) := rfl

theorem guard_pattern (text : String) :
    (mk (some text) none).guard = (Guard.ofPattern text : Except DecisionError (Guard P)) := by
  simp only [guard, parts]
  cases (Guard.ofPattern text : Except DecisionError (Guard P)) with
  | error e => rfl
  | ok guard => rfl

theorem guard_both (text name : String) :
    (mk (some text) (some name)).guard = do
      let guard ← (Guard.ofPattern text : Except DecisionError (Guard P))
      return .all [guard, .feature name] := by
  simp only [guard, parts]
  cases (Guard.ofPattern text : Except DecisionError (Guard P)) with
  | error e => rfl
  | ok guard => rfl

/-- Only its pattern can keep a written guard from being made ready. -/
theorem failure?_guard (g : GuardSpec) :
    failure? (g.guard : Except DecisionError (Guard P)) =
      g.pattern.bind fun text => failure? (Guard.ofPattern text : Except DecisionError (Guard P)) := by
  rcases g with ⟨_ | text, _ | name⟩
  · rw [guard_neither]
    rfl
  · rw [guard_feature]
    rfl
  · rw [guard_pattern, Option.bind_some]
  · rw [guard_both, Option.bind_some]
    exact failure?_bind_pure _ _

end Made

/-! What a written guard asks of a candidate does not depend on how it is made ready. -/

variable (P : Type) [PatternLanguage P] (c : Candidate)

/-- What is given of a pattern and a feature is there: the pattern is found in the form,
    and the candidate has the feature. -/
structure IsMet (g : GuardSpec) : Prop where
  pattern : ∀ text, g.pattern = some text →
    ∃ p : P, PatternLanguage.ofText? text.toList = some p ∧ PatternLanguage.isFoundIn p c.form = true
  feature : ∀ name, g.feature = some name → c.hasFeature name = true

variable {P c}

theorem matches_ofPattern_iff {text : String} {guard : Guard P}
    (h : Guard.ofPattern text = .ok guard) :
    guard.Matches c ↔ ∃ p : P, PatternLanguage.ofText? text.toList = some p ∧
      PatternLanguage.isFoundIn p c.form = true := by
  unfold Guard.ofPattern at h
  cases hpattern : (PatternLanguage.ofText? text.toList : Option P) with
  | none =>
    rw [hpattern] at h
    cases h
  | some p =>
    rw [hpattern] at h
    obtain rfl := Except.ok.inj h
    rw [Guard.matches_pattern_iff]
    simp

/-- The guard that is made asks for all that was given and for nothing else. -/
theorem matches_iff {g : GuardSpec} {guard : Guard P} (h : g.guard = .ok guard) :
    guard.Matches c ↔ g.IsMet P c := by
  rcases g with ⟨_ | text, _ | name⟩
  · rw [guard_neither] at h
    obtain rfl := Except.ok.inj h
    exact iff_of_true .always ⟨by simp, by simp⟩
  · rw [guard_feature] at h
    obtain rfl := Except.ok.inj h
    rw [Guard.matches_feature_iff]
    exact ⟨fun hname => ⟨by simp, by simpa using hname⟩, fun hmet => hmet.feature name rfl⟩
  · rw [guard_pattern] at h
    rw [matches_ofPattern_iff h]
    exact ⟨fun hfound => ⟨by simpa using hfound, by simp⟩, fun hmet => hmet.pattern text rfl⟩
  · rw [guard_both] at h
    obtain ⟨part, hpart, h⟩ := bind_eq_ok.mp h
    obtain rfl := Except.ok.inj h
    rw [Guard.matches_all_iff, List.forall_mem_cons, List.forall_mem_singleton,
      matches_ofPattern_iff hpart, Guard.matches_feature_iff]
    constructor
    · rintro ⟨hfound, hname⟩
      exact ⟨by simpa using hfound, by simpa using hname⟩
    · intro hmet
      exact ⟨hmet.pattern text rfl, hmet.feature name rfl⟩

end GuardSpec

/-! ### Leaves of a written decision -/

section Leaves

variable (P : Type) [PatternLanguage P] (c : Candidate)

/-- The candidate has what every guard on the way to the leaf asks for. -/
def Leaf.IsMet (leaf : Leaf GuardSpec) : Prop := ∀ guard ∈ leaf.guards, guard.IsMet P c

variable {P c}

theorem GuardSpec.all_matches_iff {specs : List GuardSpec} {guards : List (Guard P)}
    (h : List.Forall₂ (fun spec guard => spec.guard = .ok guard) specs guards) :
    (∀ guard ∈ guards, guard.Matches c) ↔ ∀ spec ∈ specs, spec.IsMet P c := by
  induction h with
  | nil => simp
  | cons hguard _ ih =>
    rw [List.forall_mem_cons, List.forall_mem_cons, GuardSpec.matches_iff hguard, ih]

theorem Leaf.Translates.applies_iff {leaf : Leaf GuardSpec} {leaf' : Leaf (Guard P)}
    (h : Leaf.Translates GuardSpec.guard leaf leaf') : leaf'.Applies c ↔ leaf.IsMet P c :=
  GuardSpec.all_matches_iff h.guards

end Leaves

/-! ### Written decisions -/

namespace DecisionSpec

/-- The texts that are given as patterns, in the order in which they are written. -/
def patterns (d : DecisionSpec) : List String := d.guards.filterMap GuardSpec.pattern

variable {P : Type} [PatternLanguage P]

/-- A document is refused for the first text that is no pattern. -/
theorem failure?_decision (d : DecisionSpec) :
    failure? (d.decision : Except DecisionError (Decision (Guard P))) =
      d.patterns.findSome? fun text =>
        failure? (Guard.ofPattern text : Except DecisionError (Guard P)) := by
  unfold decision patterns
  rw [Decision.failure?_translate, findSome?_filterMap]
  congr 1
  funext guard
  exact guard.failure?_guard

/-- What was made ready looks through the leaves that are written. -/
theorem first_met_leaf {spec : DecisionSpec} {d : Decision (Guard P)} (h : spec.decision = .ok d)
    (c : Candidate) :
    (∃ before leaf behind, spec.leaves = before ++ leaf :: behind ∧ leaf.IsMet P c ∧
        (∀ other ∈ before, ¬ other.IsMet P c) ∧ d.evaluate c = .ok leaf.value) ∨
      (∀ leaf ∈ spec.leaves, ¬ leaf.IsMet P c) ∧ d.evaluate c = .error .noneApplies := by
  have hleaves := Decision.leaves_translate h
  have hunmet {leaf : Leaf GuardSpec} {leaf' : Leaf (Guard P)}
      (htranslates : Leaf.Translates GuardSpec.guard leaf leaf') (hfails : ¬ leaf'.Applies c) :
      ¬ leaf.IsMet P c := fun hmet => hfails (htranslates.applies_iff.mpr hmet)
  have hfinds := d.finds_evaluate (c := c)
  generalize d.evaluate c = outcome at hfinds
  rcases hfinds with ⟨hsplit, hbefore, happlies⟩ | hnone
  · rw [hsplit] at hleaves
    obtain ⟨before, leaf, behind, hspec, hfront, hleaf⟩ := exists_split_of_forall₂ hleaves
    refine .inl ⟨before, leaf, behind, hspec, hleaf.applies_iff.mp happlies, ?_, ?_⟩
    · exact forall_mem_of_forall₂ hfront (fun _ _ => hunmet) hbefore
    · rw [hleaf.value]
  · exact .inr ⟨forall_mem_of_forall₂ hleaves (fun _ _ => hunmet) hnone, rfl⟩

/-- **Making a written decision ready checks all of it and keeps what it says.**  It is
    refused exactly if some text in it is no pattern, and then for the first one in the
    order in which they are written.  What is made of it comes, for every candidate, to the
    first literal that has all its guards met, and only if there is none to nothing. -/
theorem decision_faithful (P : Type) [PatternLanguage P] (spec : DecisionSpec) :
    ((∃ d : Decision (Guard P), spec.decision = .ok d) ↔ ∀ text ∈ spec.patterns, IsPattern P text) ∧
    (∀ failure, (spec.decision : Except DecisionError (Decision (Guard P))) = .error failure ↔
      ∃ before text behind, spec.patterns = before ++ text :: behind ∧
        (∀ other ∈ before, IsPattern P other) ∧ ¬ IsPattern P text ∧
        failure = .invalidPattern text) ∧
    ∀ d : Decision (Guard P), spec.decision = .ok d → ∀ c : Candidate,
      ((∃ before leaf behind, spec.leaves = before ++ leaf :: behind ∧ leaf.IsMet P c ∧
          (∀ other ∈ before, ¬ other.IsMet P c) ∧ d.evaluate c = .ok leaf.value) ∨
        (∀ leaf ∈ spec.leaves, ¬ leaf.IsMet P c) ∧ d.evaluate c = .error .noneApplies) ∧
      (d.evaluate c = .error .noneApplies ↔ ∀ leaf ∈ spec.leaves, ¬ leaf.IsMet P c) := by
  refine ⟨?_, ?_, ?_⟩
  · rw [← failure?_eq_none_iff, failure?_decision, List.findSome?_eq_none_iff]
    exact forall₂_congr fun _ _ => failure?_ofPattern_eq_none_iff
  · intro failure
    rw [eq_error_iff_first spec.failure?_decision]
    simp only [failure?_ofPattern_eq_none_iff, failure?_ofPattern_eq_some_iff]
  · intro d hd c
    have hfinds := first_met_leaf hd c
    rcases hfinds with ⟨before, leaf, behind, hsplit, hmet, hbefore, hvalue⟩ | ⟨hnone, hvalue⟩
    · refine ⟨.inl ⟨before, leaf, behind, hsplit, hmet, hbefore, hvalue⟩, ?_⟩
      have hmem : leaf ∈ spec.leaves := by
        rw [hsplit]
        exact List.mem_append_right before List.mem_cons_self
      rw [hvalue]
      exact iff_of_false (by simp) fun hnone => hnone leaf hmem hmet
    · exact ⟨.inr ⟨hnone, hvalue⟩, iff_of_true hvalue hnone⟩

/-- The first clause asks for a pattern, and below it for another one and a feature. -/
def stemEnding : DecisionSpec :=
  .several [
    .guarded ⟨some "o$", none⟩
      (.nested (.single (.guarded ⟨some "^k", some "animate"⟩ (.literal "a")))),
    .guarded ⟨none, none⟩ (.literal "e")]

/-- No candidate whose form ends in anything but `o` comes to the text that is no
    pattern, and there is another one behind it. -/
def unclosedEnding : DecisionSpec :=
  .several [
    .guarded ⟨some "o$", none⟩ (.nested (.single (.guarded ⟨some "(", none⟩ (.literal "a")))),
    .guarded ⟨some "[", none⟩ (.literal "e")]

/-- The word by itself has no features, so the clause behind the nested one decides. -/
theorem decision_faithful_stemEnding :
    let kino := Candidate.ofWord "kino".toList
    (∃ d : Decision (Guard WordPattern), stemEnding.decision = .ok d ∧
      ∃ before leaf behind, stemEnding.leaves = before ++ leaf :: behind ∧
        leaf.IsMet WordPattern kino ∧ (∀ other ∈ before, ¬ other.IsMet WordPattern kino) ∧
        d.evaluate kino = .ok leaf.value ∧ leaf.value = "e") ∧
    (unclosedEnding.decision : Except DecisionError (Decision (Guard WordPattern))) =
      .error (.invalidPattern "(") := by
  intro kino
  constructor
  · obtain ⟨d, hd⟩ : ∃ d : Decision (Guard WordPattern), stemEnding.decision = .ok d :=
      exists_of_isOk (by decide +kernel)
    have hvalue : (stemEnding.decision : Except _ (Decision (Guard WordPattern))).toOption.bind
        (fun d => (d.evaluate kino).toOption) = some "e" := by decide +kernel
    rw [hd] at hvalue
    have hvalue := eq_ok_of_toOption hvalue
    obtain ⟨hfound, -⟩ := (decision_faithful WordPattern stemEnding).2.2 d hd kino
    rcases hfound with ⟨before, leaf, behind, hsplit, hmet, hbefore, hleaf⟩ | ⟨-, hnothing⟩
    · exact ⟨d, hd, before, leaf, behind, hsplit, hmet, hbefore, hleaf,
        Except.ok.inj (hleaf.symm.trans hvalue)⟩
    · cases hvalue.symm.trans hnothing
  · have hopen : ¬ IsPattern WordPattern "(" := by
      rintro ⟨p, hp⟩
      have hnone : (PatternLanguage.ofText? "(".toList : Option WordPattern) = none := by
        decide +kernel
      cases hp.symm.trans hnone
    have hending : IsPattern WordPattern "o$" := Option.isSome_iff_exists.mp (by decide +kernel)
    exact ((decision_faithful WordPattern unclosedEnding).2.1 _).mpr
      ⟨["o$"], "(", ["["], rfl, List.forall_mem_singleton.mpr hending, hopen, rfl⟩

end DecisionSpec

end WordFormation
