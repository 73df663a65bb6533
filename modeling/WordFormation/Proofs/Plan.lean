/-
  WordFormation/Proofs/Plan.lean
  ==============================
  **Applying a rule is planning each group on the stems it starts with, and then
  carrying the plan out.**

  While a rule runs, decisions and edits take turns: a conditional asks its
  condition when it is reached, a choice looks for its arm, an affix asks whether
  it is present.  All of them ask the observed stems, so nothing would change if
  they had been asked before the first edit.  This module says so.

  A plan (`planGroup`) is made from the operations of a blueprint and the stems a
  group starts with, and from nothing else.  It is a list of changes, each one a
  form put to, or taken from, one edge of one stem.  Conditionals, toggles,
  circumfixes and polarities that stand alone are gone from it.  `carryOut` makes
  the changes one after the other.

    * one operation:   `applyObserving_assemble` (for every operation, whatever
      is nested in its branches), from one lemma for each kind of operation;
    * one group:       `runStage_assembleGroup`;
    * a whole rule:    `applyCompound_eq_evaluate`.

  A plan needs as many stems as were observed.  Changes keep that number
  (`length_carryOut`), which is what the induction over a plan carries along.
-/
import WordFormation.Proofs.Outcome
import WordFormation.Proofs.Presence
import WordFormation.Rule

namespace WordFormation

/-! ### Changes -/

/-- A form to put to, or to take from, an edge of the stem with index `stem`. -/
structure Change where
  stem : Nat
  edge : Edge
  form : Allomorphs
  inserting : Bool
deriving DecidableEq

def Change.edit (c : Change) (stem : Word) : Edited Word :=
  if c.inserting then c.form.insertAt stem c.edge.position
  else c.form.removeAt stem c.edge.position

def Change.make (c : Change) (stems : List Word) : Edited (List Word) :=
  (c.edit (stems[c.stem]?.getD [])).map (stems.set c.stem ·)

def carryOut : List Change → List Word → Edited (List Word)
  | [], stems => .ok stems
  | c :: cs, stems => do
    let changed ← c.make stems
    carryOut cs changed

/-! ### Plans

`observed` are the stems a group starts with. -/

/-- What an affix at an edge of a stem comes to, `seen` being the stem as it was
    observed: one that is not present is not removed, and toggling is inserting or
    removing. -/
def planAffix (stem : Nat) (seen : Word) (edge : Edge) (form : Allomorphs) (p : Polarity) :
    List Change :=
  match p with
  | .insert => [⟨stem, edge, form, true⟩]
  | .remove => if form.standsAt edge seen then [⟨stem, edge, form, false⟩] else []
  | .toggle => [⟨stem, edge, form, !form.standsAt edge seen⟩]

/-- The index of the stem at an edge of a compound. -/
def Edge.stemIndex (edge : Edge) (stems : List Word) : Nat :=
  match edge with
  | .start => 0
  | .final => stems.length - 1

/-- An affix at an edge of a compound. -/
def planAtEdge (observed : List Word) (edge : Edge) (form : Allomorphs) (p : Polarity) :
    List Change :=
  let stem := edge.stemIndex observed
  planAffix stem (observed[stem]?.getD []) edge form p

/-- An interfix: an affix at the end of every stem but the last. -/
def planLinks (observed : List Word) (form : Allomorphs) (p : Polarity) : List Change :=
  observed.dropLast.zipIdx.flatMap fun (seen, stem) => planAffix stem seen .final form p

/-- Does the word that was observed pass a test? -/
def EdgeTest.passes (t : EdgeTest) (w : Word) : Bool := t.form.standsAt t.edge w != t.negated

mutual

def Operation.plan (observed : List Word) : Operation → List Change
  | .affix .prefixed (some p) [form] => planAtEdge observed .start form p
  | .affix .postfixed (some p) [form] => planAtEdge observed .final form p
  | .affix .circumfixed (some p) [front, back] =>
    planAtEdge observed .start front p ++ planAtEdge observed .final back p
  | .affix .interfixed (some p) [form] => planLinks observed form p
  | .affix _ _ _ => []
  | .conditional condition met unmet =>
    match condition.alternatives.find? (·.passes observed.flatten) with
    | some deciding => met.plan observed (some deciding)
    | none => unmet.plan observed condition.alternatives.head?

/-- The changes that a branch comes to, `test` being the one whose letters a
    polarity alone is for. -/
def Branch.plan (observed : List Word) (test : Option EdgeTest) : Branch → List Change
  | .identity => []
  | .operations operations => planGroup observed operations
  | .short p =>
    match test with
    | some t => planAtEdge observed t.edge t.form p
    | none => []

def planGroup (observed : List Word) : List Operation → List Change
  | [] => []
  | operation :: operations => operation.plan observed ++ planGroup observed operations

end

/-- Plan a group and carry the plan out, then the next group. -/
def evaluateGroups : List (List Operation) → List Word → Edited (List Word)
  | [], stems => .ok stems
  | group :: groups, stems => do
    let changed ← carryOut (planGroup stems group) stems
    evaluateGroups groups changed

def Blueprint.evaluate (b : Blueprint) (stems : List Word) : Edited (List Word) :=
  evaluateGroups b.groups stems

/-! ### Carrying out -/

theorem carryOut_append (cs ds : List Change) (stems : List Word) :
    carryOut (cs ++ ds) stems = carryOut cs stems >>= carryOut ds := by
  induction cs generalizing stems with
  | nil => rfl
  | cons c cs ih =>
    simp only [List.cons_append, carryOut]
    cases c.make stems with
    | error failure => rfl
    | ok changed => exact ih changed

theorem length_make {c : Change} {stems changed : List Word} (h : c.make stems = .ok changed) :
    changed.length = stems.length := by
  unfold Change.make at h
  cases hedit : c.edit (stems[c.stem]?.getD []) with
  | error failure => rw [hedit] at h; cases h
  | ok stem =>
    rw [hedit] at h
    cases h
    exact List.length_set

/-- Changes leave as many stems as there were. -/
theorem length_carryOut {cs : List Change} {stems changed : List Word}
    (h : carryOut cs stems = .ok changed) : changed.length = stems.length := by
  induction cs generalizing stems with
  | nil => cases h; rfl
  | cons c cs ih =>
    obtain ⟨between, hc, hcs⟩ := bind_eq_ok.mp h
    rw [ih hcs, length_make hc]

theorem carryOut_singleton (c : Change) (stems : List Word) :
    carryOut [c] stems = c.make stems := by
  unfold carryOut
  cases c.make stems <;> rfl

theorem set_getD (stems : List Word) (i : Nat) : stems.set i (stems[i]?.getD []) = stems := by
  induction stems generalizing i with
  | nil => rfl
  | cons stem stems ih =>
    cases i with
    | zero => rfl
    | succ i => exact congrArg (stem :: ·) (ih i)

/-! ### Affixes and interfixes -/

/-- A planned affix edits its stem as the affix itself does. -/
theorem carryOut_planAffix (i : Nat) (seen : Word) (edge : Edge) (form : Allomorphs)
    (p : Polarity) (stems : List Word) :
    carryOut (planAffix i seen edge form p) stems =
      (Affix.applyObserving ⟨form, p, edge.position⟩ (stems[i]?.getD []) seen).map
        (stems.set i ·) := by
  have hpresent : Affix.isPresent ⟨form, p, edge.position⟩ seen = .ok (form.standsAt edge seen) :=
    form.isAt_position edge seen
  cases p with
  | insert =>
    rw [planAffix, carryOut_singleton]
    rfl
  | remove =>
    simp only [planAffix, Affix.applyObserving, hpresent, ok_bind]
    cases form.standsAt edge seen with
    | true =>
      simp only [if_true, carryOut_singleton]
      rfl
    | false =>
      simp only [Bool.false_eq_true, if_false, carryOut, pure_eq_ok, Except.map, set_getD]
  | toggle =>
    simp only [planAffix, Affix.applyObserving, hpresent, ok_bind, carryOut_singleton]
    cases form.standsAt edge seen <;> rfl

theorem onEdgeStem_position {stems observed : List Word} (hlength : stems.length = observed.length)
    (hne : observed ≠ []) (edge : Edge) (change : Word → Word → Edited Word) :
    Morpheme.onEdgeStem stems observed edge.position change =
      (change (stems[edge.stemIndex observed]?.getD [])
        (observed[edge.stemIndex observed]?.getD [])).map (stems.set (edge.stemIndex observed) ·) := by
  have hpos : 0 < observed.length := List.length_pos_iff.mpr hne
  have hempty : stems.isEmpty = false := by
    rw [List.isEmpty_eq_false_iff]
    rintro rfl
    simp at hlength
    omega
  have hindex : (if 0 < edge.position.val then 0 else stems.length - 1) =
      edge.stemIndex observed := by
    cases edge with
    | start => rfl
    | final => rw [hlength]; rfl
  have hseen : observed[edge.stemIndex observed]? =
      some (observed[edge.stemIndex observed]?.getD []) := by
    have hlt : edge.stemIndex observed < observed.length := by
      cases edge <;> simp only [Edge.stemIndex] <;> omega
    rw [List.getElem?_eq_getElem hlt]
    rfl
  unfold Morpheme.onEdgeStem
  simp only [hempty, Bool.false_eq_true, if_false, hindex]
  rw [hseen]
  cases change (stems[edge.stemIndex observed]?.getD [])
    (observed[edge.stemIndex observed]?.getD []) <;> rfl

section Simulation

variable {observed : List Word}

theorem applyObserving_affix (hne : observed ≠ []) {stems : List Word}
    (hlength : stems.length = observed.length) (edge : Edge) (form : Allomorphs) (p : Polarity) :
    (Morpheme.affix ⟨form, p, edge.position⟩).applyObserving stems observed =
      carryOut (planAtEdge observed edge form p) stems := by
  rw [planAtEdge, carryOut_planAffix]
  exact onEdgeStem_position hlength hne edge _

/-- Linking stems one by one is what the planned links come to.  `front` are the
    stems that are linked already. -/
theorem carryOut_links (x : Interfix) (front : List Word) {stems observed : List Word}
    (hlength : stems.length = observed.length) :
    carryOut ((observed.dropLast.zipIdx front.length).flatMap fun (seen, stem) =>
        planAffix stem seen .final x.form x.polarity) (front ++ stems) =
      (x.applyObserving stems observed).map (front ++ ·) := by
  induction stems generalizing front observed with
  | nil =>
    obtain rfl : observed = [] := List.eq_nil_of_length_eq_zero hlength.symm
    rfl
  | cons stem stems ih =>
    obtain ⟨seen, seens, rfl⟩ := List.exists_cons_of_length_eq_add_one hlength.symm
    have hlength' : stems.length = seens.length := Nat.succ.inj hlength
    cases stems with
    | nil =>
      obtain rfl : seens = [] := List.eq_nil_of_length_eq_zero hlength'.symm
      rfl
    | cons next stems =>
      obtain ⟨seen', seens, rfl⟩ := List.exists_cons_of_length_eq_add_one hlength'.symm
      have hstem : (front ++ stem :: next :: stems)[front.length]?.getD [] = stem := by simp
      rw [List.dropLast_cons_cons, List.zipIdx_cons, List.flatMap_cons, carryOut_append,
        carryOut_planAffix, hstem]
      simp only [Interfix.applyObserving, List.headD_cons, List.tail_cons]
      show (Except.map _ (x.edge.applyObserving stem seen) >>= _) = _
      cases x.edge.applyObserving stem seen with
      | error failure => rfl
      | ok linked =>
        -- the linked stem now belongs to the front
        have hset : (front ++ stem :: next :: stems).set front.length linked =
            (front ++ [linked]) ++ next :: stems := by simp
        have hrest := ih (front ++ [linked]) hlength'
        simp only [List.length_append, List.length_singleton] at hrest
        simp only [Except.map, ok_bind, hset, hrest]
        cases x.applyObserving (next :: stems) (seen' :: seens) with
        | error failure => rfl
        | ok others => simp

theorem applyObserving_interfix {stems : List Word} (hlength : stems.length = observed.length)
    (form : Allomorphs) (p : Polarity) :
    (Morpheme.interfix ⟨form, p⟩).applyObserving stems observed =
      carryOut (planLinks observed form p) stems := by
  have hlinks := carryOut_links ⟨form, p⟩ [] hlength
  simp only [List.length_nil, List.nil_append] at hlinks
  rw [planLinks, hlinks]
  simp only [Morpheme.applyObserving]
  cases Interfix.applyObserving ⟨form, p⟩ stems observed <;> rfl

/-- A morpheme does what a plan says, to any stems of which there are as many as
    were observed. -/
def Morpheme.Follows (m : Morpheme) (observed : List Word) (plan : List Change) : Prop :=
  ∀ stems : List Word, stems.length = observed.length →
    m.applyObserving stems observed = carryOut plan stems

def FollowEach (parts : List Morpheme) (observed : List Word) (plan : List Change) : Prop :=
  ∀ stems : List Word, stems.length = observed.length →
    Morpheme.applyEach parts stems observed = carryOut plan stems

theorem Morpheme.follows_identity : Morpheme.identity.Follows observed [] := by
  intro stems hlength
  rfl

theorem Morpheme.follows_atEdge (hne : observed ≠ []) (edge : Edge) (form : Allomorphs)
    (p : Polarity) :
    (Morpheme.affix ⟨form, p, edge.position⟩).Follows observed
      (planAtEdge observed edge form p) :=
  fun _ hlength => applyObserving_affix hne hlength edge form p

theorem followEach_cons {part : Morpheme} {parts : List Morpheme} {plan plans : List Change}
    (hpart : part.Follows observed plan) (hparts : FollowEach parts observed plans) :
    FollowEach (part :: parts) observed (plan ++ plans) := by
  intro stems hlength
  rw [carryOut_append, ← hpart stems hlength]
  simp only [Morpheme.applyEach]
  cases hchanged : part.applyObserving stems observed with
  | error failure => rfl
  | ok changed =>
    rw [hpart stems hlength] at hchanged
    exact hparts changed ((length_carryOut hchanged).trans hlength)

theorem Morpheme.follows_composite {parts : List Morpheme} {plan : List Change}
    (h : FollowEach parts observed plan) : (Morpheme.composite parts).Follows observed plan := by
  intro stems hlength
  simp only [Morpheme.applyObserving]
  exact h stems hlength

theorem Morpheme.follows_sequence {parts : List Morpheme} {plan : List Change}
    (h : FollowEach parts observed plan) : (Morpheme.sequence parts).Follows observed plan := by
  intro stems hlength
  rw [← h stems hlength]
  match parts with
  | [] => rfl
  | [part] =>
    simp only [Morpheme.sequence, Morpheme.applyEach]
    cases part.applyObserving stems observed <;> rfl
  | first :: second :: parts => simp only [Morpheme.sequence, Morpheme.applyObserving]

/-! ### Operations -/

theorem follows_assembleAffix (hne : observed ≠ []) {kind : AffixKind}
    {polarity : Option Polarity} {operands : List Allomorphs} {m : Morpheme}
    (h : assembleAffix kind polarity operands = .ok m) :
    m.Follows observed ((Operation.affix kind polarity operands).plan observed) := by
  cases polarity with
  | none =>
    -- an affix without polarity is the identity, whatever its kind
    have hplan : (Operation.affix kind none operands).plan observed = [] := by
      cases kind <;> simp [Operation.plan]
    have hidentity : m = .identity := by
      unfold assembleAffix at h
      split at h <;> cases h <;> rfl
    rw [hplan, hidentity]
    exact Morpheme.follows_identity
  | some p =>
    unfold assembleAffix at h
    split at h
    · rename_i form
      cases h
      simp only [Operation.plan]
      exact Morpheme.follows_atEdge hne .start form p
    · rename_i form
      cases h
      simp only [Operation.plan]
      exact Morpheme.follows_atEdge hne .final form p
    · rename_i front back
      cases h
      simp only [Operation.plan]
      have hback : FollowEach [.affix (.atEnd back p)] observed
          (planAtEdge observed .final back p ++ []) :=
        followEach_cons (Morpheme.follows_atEdge hne .final back p) fun stems _ => rfl
      rw [List.append_nil] at hback
      exact Morpheme.follows_composite
        (followEach_cons (Morpheme.follows_atEdge hne .start front p) hback)
    · rename_i form
      cases h
      simp only [Operation.plan]
      exact fun stems hlength => applyObserving_interfix hlength form p
    · cases h

theorem find?_holds (tests : List EdgeTest) (w : Word) :
    tests.find? (·.holds w) = tests.find? (·.passes w) := by
  congr 1
  funext t
  exact t.holds_eq w

/-- In the branch for yes, a polarity alone is for the letters of the test that
    decided. -/
theorem follows_decidingAffix (hne : observed ≠ []) {condition : EdgeCondition}
    {deciding : EdgeTest}
    (hfind : condition.alternatives.find? (·.passes observed.flatten) = some deciding)
    (p : Polarity) :
    (decidingAffix condition p).Follows observed
      ((Branch.short p).plan observed (some deciding)) := by
  intro stems hlength
  simp only [decidingAffix, Morpheme.applyObserving, Branch.plan]
  generalize condition.alternatives = tests at hfind
  induction tests with
  | nil => cases hfind
  | cons t tests ih =>
    have harm : EdgeCondition.holds ⟨[t]⟩ observed.flatten = t.passes observed.flatten := by
      have hholds : t.holds observed.flatten = t.passes observed.flatten := t.holds_eq _
      simp only [EdgeCondition.holds, EdgeCondition.firstMatch, List.find?_cons, hholds]
      cases t.passes observed.flatten <;> rfl
    simp only [List.map_cons, Morpheme.applyFirst, harm]
    rw [List.find?_cons] at hfind
    cases hpasses : t.passes observed.flatten with
    | true =>
      rw [hpasses] at hfind
      cases hfind
      exact applyObserving_affix hne hlength _ _ p
    | false =>
      rw [hpasses] at hfind
      exact ih hfind

/-- In the branch for no, it is for the letters of the first test. -/
theorem follows_leadingAffix (hne : observed ≠ []) (condition : EdgeCondition) (p : Polarity) :
    (leadingAffix condition p).Follows observed
      ((Branch.short p).plan observed condition.alternatives.head?) := by
  intro stems hlength
  unfold leadingAffix
  simp only [Branch.plan]
  cases condition.alternatives with
  | nil => rfl
  | cons t tests => exact applyObserving_affix hne hlength _ _ p

mutual

/-- Every morpheme follows the plan of its operation. -/
theorem follows_assemble (hne : observed ≠ []) :
    ∀ {operation : Operation} {m : Morpheme}, operation.assemble = .ok m →
      m.Follows observed (operation.plan observed)
  | .affix kind polarity operands, m, h => by
    simp only [Operation.assemble] at h
    exact follows_assembleAffix hne h
  | .conditional condition met unmet, m, h => by
    simp only [Operation.assemble] at h
    obtain ⟨whenMet, hmet, h⟩ := bind_eq_ok.mp h
    obtain ⟨whenUnmet, hunmet, h⟩ := bind_eq_ok.mp h
    cases h
    intro stems hlength
    simp only [Morpheme.applyObserving, Operation.plan, EdgeCondition.holds,
      EdgeCondition.firstMatch, find?_holds]
    cases hfind : condition.alternatives.find? (·.passes observed.flatten) with
    | some deciding =>
      exact follows_assemble_branch hne (follows_decidingAffix hne hfind) hmet stems hlength
    | none =>
      exact follows_assemble_branch hne (follows_leadingAffix hne condition) hunmet stems hlength

/-- Every branch follows its plan, if polarities alone do. -/
theorem follows_assemble_branch (hne : observed ≠ []) {short : Polarity → Morpheme}
    {test : Option EdgeTest}
    (hshort : ∀ p, (short p).Follows observed ((Branch.short p).plan observed test)) :
    ∀ {branch : Branch} {m : Morpheme}, branch.assemble short = .ok m →
      m.Follows observed (branch.plan observed test)
  | .identity, m, h => by
    simp only [Branch.assemble] at h
    cases h
    simp only [Branch.plan]
    exact Morpheme.follows_identity
  | .operations operations, m, h => by
    simp only [Branch.assemble] at h
    obtain ⟨parts, hparts, h⟩ := bind_eq_ok.mp h
    cases h
    simp only [Branch.plan]
    exact Morpheme.follows_sequence (followEach_assembleGroup hne hparts)
  | .short p, m, h => by
    simp only [Branch.assemble] at h
    cases h
    exact hshort p

/-- The morphemes of a group follow the plan of the group. -/
theorem followEach_assembleGroup (hne : observed ≠ []) :
    ∀ {operations : List Operation} {parts : List Morpheme},
      assembleGroup operations = .ok parts → FollowEach parts observed (planGroup observed operations)
  | [], parts, h => by
    simp only [assembleGroup] at h
    cases h
    intro stems hlength
    rfl
  | operation :: operations, parts, h => by
    simp only [assembleGroup] at h
    obtain ⟨part, hpart, h⟩ := bind_eq_ok.mp h
    obtain ⟨others, hothers, h⟩ := bind_eq_ok.mp h
    cases h
    simp only [planGroup]
    exact followEach_cons (follows_assemble hne hpart) (followEach_assembleGroup hne hothers)

end

end Simulation

/-! ### Rules -/

/-- A stage carries out the plan that its group makes of the stems it gets. -/
theorem runStage_assembleGroup {group : List Operation} {stage : List Morpheme}
    (h : assembleGroup group = .ok stage) {stems : List Word} (hne : stems ≠ []) :
    runStage stage stems = carryOut (planGroup stems group) stems :=
  followEach_assembleGroup hne h stems rfl

theorem runStages_assembleGroups {groups : List (List Operation)} {stages : List (List Morpheme)}
    (h : assembleGroups groups = .ok stages) {stems : List Word} (hne : stems ≠ []) :
    runStages stages stems = evaluateGroups groups stems := by
  induction groups generalizing stages stems with
  | nil =>
    cases h
    rfl
  | cons group groups ih =>
    obtain ⟨stage, hstage, h⟩ := bind_eq_ok.mp h
    obtain ⟨others, hothers, h⟩ := bind_eq_ok.mp h
    cases h
    simp only [runStages, evaluateGroups, runStage_assembleGroup hstage hne]
    cases hchanged : carryOut (planGroup stems group) stems with
    | error failure => rfl
    | ok changed =>
      have hne' : changed ≠ [] := by
        rintro rfl
        exact hne (List.eq_nil_of_length_eq_zero (length_carryOut hchanged).symm)
      exact ih hothers hne'

/-- **Applying a rule to a compound is evaluating its blueprint group by group**,
    each group planned on the stems it starts with before the first of its edits
    is made. -/
theorem applyCompound_eq_evaluate {b : Blueprint} {r : Rule} (h : Rule.ofBlueprint b = .ok r)
    {stems : List Word} (hne : stems ≠ []) : r.applyCompound stems = b.evaluate stems := by
  obtain ⟨stages, hstages, h⟩ := bind_eq_ok.mp h
  cases h
  have hempty : stems.isEmpty = false := List.isEmpty_eq_false_iff.mpr hne
  simp only [Rule.applyCompound, hempty, Bool.false_eq_true, if_false, Blueprint.evaluate]
  exact runStages_assembleGroups hstages hne

/-- Two groups in which a nested conditional, a toggled affix and a toggled link meet. -/
def linkedCompound : Blueprint where
  groups :=
    [[.conditional ⟨[.isAt .final (.only ['a']), .isAt .start (.only ['x'])]⟩
        (.operations [.putAfter (.only ['a']) .toggle,
          .conditional ⟨[(EdgeTest.isAt .start (.only ['x'])).negate]⟩ (.short .remove) .identity])
        (.short .insert),
      .putBetween (.only ['s']) .toggle,
      .putAround (.only ['g', 'e']) (.only ['t']) .insert],
    [.putBefore (.only ['g', 'e']) .remove]]

theorem applyCompound_linkedCompound :
    ∃ r, Rule.ofBlueprint linkedCompound = .ok r ∧
      [['k', 'o', 't', 's'], ['l', 'a', 't', 'a']] ≠ ([] : List Word) ∧
      r.applyCompound [['k', 'o', 't', 's'], ['l', 'a', 't', 'a']] =
        .ok [['k', 'o', 't'], ['l', 'a', 't', 't']] :=
  ⟨_, rfl, by decide, (applyCompound_eq_evaluate (b := linkedCompound) rfl (by decide)).trans rfl⟩

end WordFormation
