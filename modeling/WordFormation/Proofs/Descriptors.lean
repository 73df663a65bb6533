/-
  WordFormation/Proofs/Descriptors.lean
  =====================================
  **Everything in a blueprint that says what is done with which letters.**

  There are two such things, an affix and a polarity that stands alone in a branch.
  Whatever conditionals they stand in, a blueprint has them in one order, the order in
  which it is written (`descriptors`).

  The affixes and interfixes of a rule are made of these and of nothing else
  (`Descriptor.Makes`).  Around them there are only morphemes that put others together or
  choose one.  So a property that is kept by putting together and choosing is a property
  of every assembled morpheme if it is one of whatever the descriptors make
  (`IsClosed.stages`).
-/
import WordFormation.Proofs.Outcome
import WordFormation.Rule

namespace WordFormation

/-! ### Descriptors -/

/-- A place in a blueprint that names letters and what is done with them. -/
inductive Descriptor where
  | affix (kind : AffixKind) (polarity : Option Polarity) (operands : List Allomorphs)
  /-- A polarity alone.  Its letters are those of the condition. -/
  | short (condition : EdgeCondition) (polarity : Polarity)

mutual

def Operation.descriptors : Operation → List Descriptor
  | .affix kind polarity operands => [.affix kind polarity operands]
  | .conditional condition met unmet =>
    met.descriptors condition ++ unmet.descriptors condition

/-- The descriptors of a branch of a conditional with the given condition. -/
def Branch.descriptors (condition : EdgeCondition) : Branch → List Descriptor
  | .identity => []
  | .operations operations => descriptorsOfGroup operations
  | .short p => [.short condition p]

def descriptorsOfGroup : List Operation → List Descriptor
  | [] => []
  | operation :: operations => operation.descriptors ++ descriptorsOfGroup operations

end

def Blueprint.descriptors (b : Blueprint) : List Descriptor :=
  b.groups.flatMap descriptorsOfGroup

namespace Descriptor

/-- What is done with the letters; nothing if an affix has no polarity. -/
def polarity? : Descriptor → Option Polarity
  | affix _ polarity _ => polarity
  | short _ p => some p

/-- The forms of an affix, or those that the tests of a condition ask for. -/
def operands : Descriptor → List Allomorphs
  | affix _ _ operands => operands
  | short condition _ => condition.alternatives.map EdgeTest.form

/-- What stands for the descriptor in a rule.  A circumfix makes two affixes, and a
    polarity alone one for each test of its condition. -/
inductive Makes : Descriptor → Morpheme → Prop where
  | prefixed (form : Allomorphs) (p : Polarity) :
      Makes (affix .prefixed (some p) [form]) (.affix (.atStart form p))
  | postfixed (form : Allomorphs) (p : Polarity) :
      Makes (affix .postfixed (some p) [form]) (.affix (.atEnd form p))
  | front (form form' : Allomorphs) (p : Polarity) :
      Makes (affix .circumfixed (some p) [form, form']) (.affix (.atStart form p))
  | back (form form' : Allomorphs) (p : Polarity) :
      Makes (affix .circumfixed (some p) [form, form']) (.affix (.atEnd form' p))
  | interfixed (form : Allomorphs) (p : Polarity) :
      Makes (affix .interfixed (some p) [form]) (.interfix ⟨form, p⟩)
  | short {condition : EdgeCondition} {t : EdgeTest} (ht : t ∈ condition.alternatives)
      (p : Polarity) : Makes (short condition p) (.affix (t.affix p))

/-- All that a descriptor makes is an affix with one of its operands at an edge, or an
    interfix if it is the descriptor of one. -/
theorem Makes.affix_or_interfix {d : Descriptor} {m : Morpheme} (h : d.Makes m) :
    (∃ form p, ∃ edge : Edge, m = .affix ⟨form, p, edge.position⟩ ∧ d.polarity? = some p ∧
      form ∈ d.operands) ∨
    ∃ form p, m = .interfix ⟨form, p⟩ ∧ d = affix .interfixed (some p) [form] := by
  cases h with
  | prefixed form p => exact .inl ⟨form, p, .start, rfl, rfl, by simp [operands]⟩
  | postfixed form p => exact .inl ⟨form, p, .final, rfl, rfl, by simp [operands]⟩
  | front form form' p => exact .inl ⟨form, p, .start, rfl, rfl, by simp [operands]⟩
  | back form form' p => exact .inl ⟨form', p, .final, rfl, rfl, by simp [operands]⟩
  | interfixed form p => exact .inr ⟨form, p, rfl, rfl⟩
  | @short condition t ht p =>
    exact .inl ⟨t.form, p, t.edge, rfl, rfl, List.mem_map_of_mem ht⟩

end Descriptor

/-! ### What is kept by putting morphemes together -/

namespace Morpheme

/-- The property is kept by putting morphemes together and by choosing among them. -/
structure IsClosed (C : Morpheme → Prop) : Prop where
  identity : C .identity
  composite : ∀ {parts : List Morpheme}, (∀ part ∈ parts, C part) → C (.composite parts)
  conditional : ∀ (condition : EdgeCondition) {met unmet : Morpheme}, C met → C unmet →
    C (.conditional condition met unmet)
  choice : ∀ {arms : List (EdgeCondition × Morpheme)}, (∀ arm ∈ arms, C arm.2) → C (.choice arms)

namespace IsClosed

variable {C : Morpheme → Prop}

section Parts

variable (hC : IsClosed C)
include hC

theorem sequence {parts : List Morpheme} (h : ∀ part ∈ parts, C part) :
    C (Morpheme.sequence parts) := by
  match parts with
  | [] => exact hC.identity
  | [part] => exact h part List.mem_cons_self
  | first :: second :: others => exact hC.composite h

theorem affix {kind : AffixKind} {polarity : Option Polarity} {operands : List Allomorphs}
    (hmade : ∀ m, (Descriptor.affix kind polarity operands).Makes m → C m) {m : Morpheme}
    (h : assembleAffix kind polarity operands = .ok m) : C m := by
  cases polarity with
  | none =>
    -- an affix without polarity is the identity, whatever its kind
    have hidentity : m = .identity := by
      unfold assembleAffix at h
      split at h <;> cases h <;> rfl
    rw [hidentity]
    exact hC.identity
  | some p =>
    unfold assembleAffix at h
    split at h
    · rename_i form
      cases h
      exact hmade _ (.prefixed form p)
    · rename_i form
      cases h
      exact hmade _ (.postfixed form p)
    · rename_i form form'
      cases h
      refine hC.composite ?_
      simp only [List.forall_mem_cons]
      exact ⟨hmade _ (.front form form' p), hmade _ (.back form form' p), by simp⟩
    · rename_i form
      cases h
      exact hmade _ (.interfixed form p)
    · cases h

theorem deciding {condition : EdgeCondition} {p : Polarity}
    (hmade : ∀ m, (Descriptor.short condition p).Makes m → C m) : C (decidingAffix condition p) := by
  apply hC.choice
  intro arm harm
  obtain ⟨t, ht, rfl⟩ := List.mem_map.mp harm
  exact hmade _ (.short ht p)

theorem leading {condition : EdgeCondition} {p : Polarity}
    (hmade : ∀ m, (Descriptor.short condition p).Makes m → C m) : C (leadingAffix condition p) := by
  unfold leadingAffix
  cases htests : condition.alternatives with
  | nil => exact hC.identity
  | cons t tests =>
    have ht : t ∈ condition.alternatives := by
      rw [htests]
      exact List.mem_cons_self
    exact hmade _ (.short ht p)

end Parts

mutual

theorem operation (hC : IsClosed C) : ∀ {operation : Operation} {m : Morpheme},
    (∀ d ∈ operation.descriptors, ∀ made, d.Makes made → C made) →
    operation.assemble = .ok m → C m
  | .affix kind polarity operands, m, hmade, h => by
    rw [Operation.descriptors] at hmade
    rw [Operation.assemble] at h
    exact hC.affix (List.forall_mem_singleton.mp hmade) h
  | .conditional condition met unmet, m, hmade, h => by
    rw [Operation.descriptors] at hmade
    obtain ⟨hmetMade, hunmetMade⟩ := List.forall_mem_append.mp hmade
    rw [Operation.assemble] at h
    obtain ⟨whenMet, hmet, h⟩ := bind_eq_ok.mp h
    obtain ⟨whenUnmet, hunmet, h⟩ := bind_eq_ok.mp h
    cases h
    exact hC.conditional condition (branch hC (fun _ => hC.deciding) hmetMade hmet)
      (branch hC (fun _ => hC.leading) hunmetMade hunmet)

theorem branch (hC : IsClosed C) {condition : EdgeCondition} {short : Polarity → Morpheme}
    (hshort : ∀ p, (∀ made, (Descriptor.short condition p).Makes made → C made) → C (short p)) :
    ∀ {branch : Branch} {m : Morpheme},
      (∀ d ∈ branch.descriptors condition, ∀ made, d.Makes made → C made) →
      branch.assemble short = .ok m → C m
  | .identity, m, hmade, h => by
    rw [Branch.assemble] at h
    cases h
    exact hC.identity
  | .operations operations, m, hmade, h => by
    rw [Branch.descriptors] at hmade
    rw [Branch.assemble] at h
    obtain ⟨parts, hparts, h⟩ := bind_eq_ok.mp h
    cases h
    exact hC.sequence (group hC hmade hparts)
  | .short p, m, hmade, h => by
    rw [Branch.descriptors] at hmade
    rw [Branch.assemble] at h
    cases h
    exact hshort p (List.forall_mem_singleton.mp hmade)

theorem group (hC : IsClosed C) : ∀ {operations : List Operation} {parts : List Morpheme},
    (∀ d ∈ descriptorsOfGroup operations, ∀ made, d.Makes made → C made) →
    assembleGroup operations = .ok parts → ∀ part ∈ parts, C part
  | [], parts, hmade, h => by
    rw [assembleGroup] at h
    cases h
    simp
  | operation :: operations, parts, hmade, h => by
    rw [descriptorsOfGroup] at hmade
    obtain ⟨hfirst, hothers⟩ := List.forall_mem_append.mp hmade
    rw [assembleGroup] at h
    obtain ⟨part, hpart, h⟩ := bind_eq_ok.mp h
    obtain ⟨others, hparts, h⟩ := bind_eq_ok.mp h
    cases h
    exact List.forall_mem_cons.mpr ⟨hC.operation hfirst hpart, group hC hothers hparts⟩

end

theorem groups (hC : IsClosed C) {groups : List (List Operation)} {stages : List (List Morpheme)}
    (hmade : ∀ d ∈ groups.flatMap descriptorsOfGroup, ∀ made, d.Makes made → C made)
    (h : assembleGroups groups = .ok stages) : ∀ stage ∈ stages, ∀ m ∈ stage, C m := by
  induction groups generalizing stages with
  | nil =>
    cases h
    simp
  | cons group groups ih =>
    rw [List.flatMap_cons] at hmade
    obtain ⟨hfirst, hothers⟩ := List.forall_mem_append.mp hmade
    obtain ⟨stage, hstage, h⟩ := bind_eq_ok.mp h
    obtain ⟨others, hstages, h⟩ := bind_eq_ok.mp h
    cases h
    exact List.forall_mem_cons.mpr ⟨hC.group hfirst hstage, ih hothers hstages⟩

/-- What holds of everything that the descriptors of a blueprint make holds of all
    morphemes of its rule. -/
theorem stages (hC : IsClosed C) {b : Blueprint} {r : Rule} (h : Rule.ofBlueprint b = .ok r)
    (hmade : ∀ d ∈ b.descriptors, ∀ made, d.Makes made → C made) :
    ∀ stage ∈ r.stages, ∀ m ∈ stage, C m := by
  obtain ⟨stages, hstages, h⟩ := bind_eq_ok.mp h
  cases h
  exact hC.groups hmade hstages

end IsClosed

end Morpheme

end WordFormation
