/-
  WordFormation/Proofs/OperandCounts.lean
  =======================================
  **A blueprint is assembled exactly if every affix has as many forms as its kind has.**

  The number of forms is the only thing that is checked, and it is checked for every
  affix that is written: under conditions that never hold, in branches of branches, and
  for affixes without a polarity too, which do nothing.  The order of the checks is the
  order of the descriptors in the blueprint, so it is the first mismatch there that is
  reported (`failure?_ofBlueprint`).

  If nothing is wrong, nothing is lost or added on the outside: each group makes one
  stage and each operation one morpheme (`Rule.ofBlueprint_checks_operands`).
-/
import WordFormation.Proofs.Assembling
import WordFormation.Proofs.Descriptors

namespace WordFormation

/-! ### Descriptors with a wrong number of forms -/

namespace Descriptor

/-- The descriptor has as many forms as its kind.  A polarity alone has none of its
    own. -/
def IsComplete : Descriptor → Prop
  | affix kind _ operands => operands.length = kind.arity
  | short _ _ => True

/-- What is reported of the descriptor. -/
def mismatch? : Descriptor → Option OperandMismatch
  | affix kind _ operands =>
    if operands.length = kind.arity then none else some ⟨kind, operands.length⟩
  | short _ _ => none

theorem mismatch?_eq_none_iff {d : Descriptor} : d.mismatch? = none ↔ d.IsComplete := by
  cases d with
  | affix kind polarity operands => simp [mismatch?, IsComplete]
  | short condition p => exact iff_of_true rfl trivial

theorem mismatch?_eq_some_iff {d : Descriptor} {e : OperandMismatch} :
    d.mismatch? = some e ↔ ∃ kind polarity operands, d = affix kind polarity operands ∧
      operands.length ≠ kind.arity ∧ e = ⟨kind, operands.length⟩ := by
  constructor
  · intro h
    cases d with
    | affix kind polarity operands =>
      rw [mismatch?] at h
      split at h
      next => cases h
      next hlength => exact ⟨kind, polarity, operands, rfl, hlength, (Option.some.inj h).symm⟩
    | short condition p => cases h
  · rintro ⟨kind, polarity, operands, rfl, hlength, rfl⟩
    exact if_neg hlength

end Descriptor

open Descriptor

/-! ### The first mismatch -/

theorem failure?_assembleAffix (kind : AffixKind) (polarity : Option Polarity)
    (operands : List Allomorphs) :
    failure? (assembleAffix kind polarity operands) =
      (Descriptor.affix kind polarity operands).mismatch? := by
  by_cases hlength : operands.length = kind.arity
  · rw [mismatch?, if_pos hlength]
    cases kind with
    | circumfixed =>
      obtain ⟨front, back, rfl⟩ := List.length_eq_two.mp hlength
      rfl
    | _ =>
      obtain ⟨form, rfl⟩ := List.length_eq_one_iff.mp hlength
      rfl
  · rw [mismatch?, if_neg hlength]
    unfold assembleAffix
    split
    -- the numbers of forms that are asked for are excluded
    case h_5 => rfl
    all_goals exact absurd rfl hlength

mutual

/-- Assembling goes through the descriptors in their order. -/
theorem Operation.failure?_assemble : ∀ x : Operation,
    failure? x.assemble = x.descriptors.findSome? mismatch?
  | .affix kind polarity operands => by
    rw [Operation.assemble, Operation.descriptors, List.findSome?_singleton]
    exact failure?_assembleAffix kind polarity operands
  | .conditional condition met unmet => by
    rw [Operation.assemble, Operation.descriptors, List.findSome?_append,
      ← Branch.failure?_assemble condition (decidingAffix condition) met,
      ← Branch.failure?_assemble condition (leadingAffix condition) unmet]
    exact failure?_bind fun _ => failure?_bind_pure _ _

/-- What a polarity alone stands for makes no difference. -/
theorem Branch.failure?_assemble (condition : EdgeCondition) (short : Polarity → Morpheme) :
    ∀ branch : Branch,
      failure? (branch.assemble short) = (branch.descriptors condition).findSome? mismatch?
  | .identity => by
    rw [Branch.assemble, Branch.descriptors]
    rfl
  | .operations operations => by
    rw [Branch.assemble, Branch.descriptors, ← failure?_assembleGroup operations]
    exact failure?_bind_pure _ _
  | .short p => by
    rw [Branch.assemble, Branch.descriptors]
    rfl

theorem failure?_assembleGroup : ∀ operations : List Operation,
    failure? (assembleGroup operations) = (descriptorsOfGroup operations).findSome? mismatch?
  | [] => by
    rw [assembleGroup, descriptorsOfGroup]
    rfl
  | operation :: operations => by
    rw [assembleGroup, descriptorsOfGroup, List.findSome?_append, ← operation.failure?_assemble,
      ← failure?_assembleGroup operations]
    exact failure?_bind fun _ => failure?_bind_pure _ _

end

theorem Rule.failure?_ofBlueprint (b : Blueprint) :
    failure? (ofBlueprint b) = b.descriptors.findSome? mismatch? := by
  have hgroups : failure? (assembleGroups b.groups) = b.descriptors.findSome? mismatch? := by
    rw [assembleGroups_eq_mapM, failure?_mapM, Blueprint.descriptors, findSome?_flatMap]
    simp only [failure?_assembleGroup]
  rw [← hgroups]
  exact failure?_bind_pure _ _

/-- **Assembling checks the number of forms of every affix and keeps the shape of the
    blueprint.**  It fails exactly if some affix in the blueprint, however deep, has
    another number of forms than its kind, and what it fails with is the first such affix.
    Otherwise the rule has one stage for each group, and the stage one morpheme for each
    operation of the group, in the same order. -/
theorem Rule.ofBlueprint_checks_operands (b : Blueprint) :
    ((∃ e, ofBlueprint b = .error e) ↔ ∃ d ∈ b.descriptors, ¬ d.IsComplete) ∧
    (∀ e, ofBlueprint b = .error e ↔
      ∃ before kind polarity operands behind,
        b.descriptors = before ++ .affix kind polarity operands :: behind ∧
        (∀ d ∈ before, d.IsComplete) ∧ operands.length ≠ kind.arity ∧
        e.kind = kind ∧ e.expected = kind.arity ∧ e.found = operands.length) ∧
    ∀ r, ofBlueprint b = .ok r → r.blueprint = b ∧
      List.Forall₂ (List.Forall₂ fun x m => x.assemble = .ok m) b.groups r.stages := by
  refine ⟨?_, ?_, ?_⟩
  · rw [exists_error_iff, failure?_ofBlueprint, ne_eq, List.findSome?_eq_none_iff]
    simp only [mismatch?_eq_none_iff, not_forall, exists_prop]
  · intro e
    rw [eq_error_iff_first (failure?_ofBlueprint b)]
    simp only [mismatch?_eq_none_iff, mismatch?_eq_some_iff]
    constructor
    · rintro ⟨before, _, behind, hsplit, hbefore, kind, polarity, operands, rfl, hlength, rfl⟩
      exact ⟨before, kind, polarity, operands, behind, hsplit, hbefore, hlength, rfl, rfl, rfl⟩
    · rintro ⟨before, kind, polarity, operands, behind, hsplit, hbefore, hlength, hkind, -, hfound⟩
      have he : e = ⟨kind, operands.length⟩ := by
        cases e
        cases hkind
        cases hfound
        rfl
      exact ⟨before, _, behind, hsplit, hbefore, kind, polarity, operands, rfl, hlength, he⟩
  · intro r hr
    obtain ⟨hblueprint, hstages⟩ := ofBlueprint_eq_ok.mp hr
    exact ⟨hblueprint, assembleGroups_eq_ok_iff.mp hstages⟩

/-- The interfix in it does nothing, and no word comes to the branch with the
    circumfix. -/
def idleAffixes (between around : List Allomorphs) : Blueprint where
  groups := [
    [.putBefore (.only ['g', 'e']) .insert, .affix .interfixed none between],
    [.conditional ⟨[]⟩
      (.operations [.conditional ⟨[]⟩ .identity
        (.operations [.affix .circumfixed (some .insert) around])])
      (.short .remove)]]

/-- Of two affixes that do nothing the first is reported, and without them it is the one
    in the branch. -/
theorem Rule.ofBlueprint_checks_idleAffixes :
    let letters : Allomorphs := .only ['o']
    (∃ r, ofBlueprint (idleAffixes [letters] [letters, letters]) = .ok r ∧
      r.blueprint = idleAffixes [letters] [letters, letters] ∧
      List.Forall₂ (List.Forall₂ fun x m => x.assemble = .ok m)
        (idleAffixes [letters] [letters, letters]).groups r.stages) ∧
    ofBlueprint (idleAffixes [] [letters]) = .error ⟨.interfixed, 0⟩ ∧
    ofBlueprint (idleAffixes [letters] [letters]) = .error ⟨.circumfixed, 1⟩ := by
  intro letters
  refine ⟨?_, ?_, ?_⟩
  · obtain ⟨r, hr⟩ : ∃ r, ofBlueprint (idleAffixes [letters] [letters, letters]) = .ok r := ⟨_, rfl⟩
    obtain ⟨hblueprint, hstages⟩ := (ofBlueprint_checks_operands _).2.2 r hr
    exact ⟨r, hr, hblueprint, hstages⟩
  · refine ((ofBlueprint_checks_operands _).2.1 _).mpr
      ⟨[.affix .prefixed (some .insert) [.only ['g', 'e']]], .interfixed, none, [], _, rfl, ?_⟩
    exact ⟨List.forall_mem_singleton.mpr rfl, by decide, rfl, rfl, rfl⟩
  · refine ((ofBlueprint_checks_operands _).2.1 _).mpr
      ⟨[.affix .prefixed (some .insert) [.only ['g', 'e']], .affix .interfixed none [letters]],
        .circumfixed, some .insert, [letters], _, rfl, ?_⟩
    refine ⟨List.forall_mem_cons.mpr ⟨rfl, List.forall_mem_singleton.mpr rfl⟩, by decide, rfl, rfl, rfl⟩

end WordFormation
