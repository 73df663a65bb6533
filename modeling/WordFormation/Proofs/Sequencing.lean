/-
  WordFormation/Proofs/Sequencing.lean
  ====================================
  **A semicolon puts one rule behind another.**

  The groups of the two rules stand one after the other in the blueprint, and so
  do their stages in the rule (`Rule.andThen`).  A stage observes the stems as it
  got them and nothing from earlier stages, so the first stage of the second rule
  starts from what the first rule has left, just as if it had been given that.
  What is left of one stem is one stem again, and so there is no difference for a
  word either.
-/
import WordFormation.Proofs.Assembling
import WordFormation.Proofs.EdgeMorphemes
import WordFormation.Proofs.RuleText.Semicolons

namespace WordFormation

open RuleText

namespace Rule

/-! ### One rule after the other -/

def andThen (a b : Rule) : Rule where
  blueprint := { groups := a.blueprint.groups ++ b.blueprint.groups }
  stages := a.stages ++ b.stages

section AndThen

variable {a : Rule} (ha : a.AtEdges) (b : Rule)
include ha

theorem AtEdges.andThen_apply (w : Word) : (a.andThen b).apply w = a.apply w >>= b.apply := by
  obtain ⟨stems, hstems, hlength⟩ := yieldsStems_runStages ha [w]
  obtain ⟨w', rfl⟩ := List.length_eq_one_iff.mp (hlength (List.cons_ne_nil w []))
  rw [apply_of_runStages hstems, ok_bind, apply, apply, andThen, runStages_append, hstems, ok_bind]

theorem AtEdges.andThen_applyCompound (stems : List Word) :
    (a.andThen b).applyCompound stems = a.applyCompound stems >>= b.applyCompound := by
  have hne : (if stems.isEmpty then [[]] else stems) ≠ [] := by
    cases stems <;> simp
  unfold applyCompound
  generalize (if stems.isEmpty then [[]] else stems) = given at hne
  obtain ⟨changed, hchanged, hlength⟩ := yieldsStems_runStages ha given
  have hsome : changed ≠ [] := by
    rw [← List.length_pos_iff, hlength hne]
    exact List.length_pos_iff.mpr hne
  simp [andThen, runStages_append, hchanged, hsome]

end AndThen

/-! ### Rules that are written with a semicolon -/

theorem ofText_eq_ok {text : Word} {r : Rule} :
    ofText text = .ok r ↔
      Blueprint.ofText text = .ok r.blueprint ∧ assembleGroups r.blueprint.groups = .ok r.stages := by
  constructor
  · intro h
    obtain ⟨hblueprint, hrule⟩ := ofBlueprint_of_ofText h
    exact ⟨hblueprint, (ofBlueprint_eq_ok.mp hrule).2⟩
  · rintro ⟨hblueprint, hstages⟩
    have hrule := ofBlueprint_eq_ok.mpr ⟨rfl, hstages⟩
    simp only [ofText, hblueprint, hrule]

theorem ofText_semicolon {text text' : Word} (h : '@' ∉ text') {r : Rule} :
    ofText (text ++ ';' :: text') = .ok r ↔
      ∃ a b, ofText text = .ok a ∧ ofText text' = .ok b ∧ r = a.andThen b := by
  constructor
  · intro hr
    obtain ⟨hblueprint, hstages⟩ := ofText_eq_ok.mp hr
    obtain ⟨b₁, b₂, hb₁, hb₂, hgroups⟩ := (Blueprint.ofText_semicolon h).mp hblueprint
    rw [hgroups, assembleGroups_append] at hstages
    obtain ⟨stages, hfront, hstages⟩ := bind_eq_ok.mp hstages
    obtain ⟨stages', hback, hstages⟩ := bind_eq_ok.mp hstages
    refine ⟨⟨b₁, stages⟩, ⟨b₂, stages'⟩, ofText_eq_ok.mpr ⟨hb₁, hfront⟩,
      ofText_eq_ok.mpr ⟨hb₂, hback⟩, ?_⟩
    cases r
    cases hgroups
    cases hstages
    rfl
  · rintro ⟨a, b, ha, hb, rfl⟩
    obtain ⟨hblueprint, hstages⟩ := ofText_eq_ok.mp ha
    obtain ⟨hblueprint', hstages'⟩ := ofText_eq_ok.mp hb
    refine ofText_eq_ok.mpr ⟨(Blueprint.ofText_semicolon h).mpr
      ⟨_, _, hblueprint, hblueprint', rfl⟩, ?_⟩
    rw [andThen, assembleGroups_append, hstages, ok_bind, hstages', ok_bind]
    rfl

/-- **A semicolon is sequential composition.**  Two texts with a semicolon between
    them, of which the second has no `@`, are a rule exactly if both are.  This rule
    has the groups of the first and then those of the second, and applying it is
    applying the first and then the second, to a word as well as to stems. -/
theorem ofText_semicolon_sequences (text : Word) {text' : Word} (h : '@' ∉ text') :
    ((∃ r, ofText (text ++ ';' :: text') = .ok r) ↔
      (∃ a, ofText text = .ok a) ∧ ∃ b, ofText text' = .ok b) ∧
    ∀ r a b, ofText (text ++ ';' :: text') = .ok r → ofText text = .ok a → ofText text' = .ok b →
      r.blueprint.groups = a.blueprint.groups ++ b.blueprint.groups ∧
      (∀ w, r.apply w = a.apply w >>= b.apply) ∧
      ∀ stems, r.applyCompound stems = a.applyCompound stems >>= b.applyCompound := by
  refine ⟨⟨?_, ?_⟩, ?_⟩
  · rintro ⟨r, hr⟩
    obtain ⟨a, b, ha, hb, -⟩ := (ofText_semicolon h).mp hr
    exact ⟨⟨a, ha⟩, b, hb⟩
  · rintro ⟨⟨a, ha⟩, b, hb⟩
    exact ⟨_, (ofText_semicolon h).mpr ⟨a, b, ha, hb, rfl⟩⟩
  · intro r a b hr ha hb
    have hwhole := (ofText_semicolon h).mpr ⟨a, b, ha, hb, rfl⟩
    rw [hr] at hwhole
    cases hwhole
    have hedges : a.AtEdges := atEdges_ofBlueprint (ofBlueprint_of_ofText ha).2
    exact ⟨rfl, hedges.andThen_apply b, hedges.andThen_applyCompound b⟩

/-- An empty context and a circumfix, then two more groups with blanks around
    them. -/
theorem ofText_semicolon_gemachtes :
    ∃ r a b, ofText ("@ ge+t".toList ++ ';' :: " (+e) ; +s".toList) = .ok r ∧
      ofText "@ ge+t".toList = .ok a ∧ ofText " (+e) ; +s".toList = .ok b ∧
      r.blueprint.groups = a.blueprint.groups ++ b.blueprint.groups ∧
      r.apply "mach".toList = a.apply "mach".toList >>= b.apply ∧
      r.apply "mach".toList = .ok "gemachtes".toList := by
  have hcontext : '@' ∉ " (+e) ; +s".toList := by decide
  obtain ⟨hiff, hruns⟩ := ofText_semicolon_sequences "@ ge+t".toList hcontext
  obtain ⟨a, ha⟩ : ∃ a, ofText "@ ge+t".toList = .ok a := exists_of_isOk (by decide +kernel)
  obtain ⟨b, hb⟩ : ∃ b, ofText " (+e) ; +s".toList = .ok b := exists_of_isOk (by decide +kernel)
  obtain ⟨r, hr⟩ := hiff.mpr ⟨⟨a, ha⟩, b, hb⟩
  obtain ⟨hgroups, happly, -⟩ := hruns r a b hr ha hb
  have hvalue : (ofText ("@ ge+t".toList ++ ';' :: " (+e) ; +s".toList)).toOption.bind
      (fun r => (r.apply "mach".toList).toOption) = some "gemachtes".toList := by decide +kernel
  rw [hr] at hvalue
  exact ⟨r, a, b, hr, ha, hb, hgroups, happly _, eq_ok_of_toOption hvalue⟩

end Rule

end WordFormation
