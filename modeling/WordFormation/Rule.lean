/-
  WordFormation/Rule.lean
  =======================
  **Rules that are ready to be applied, and the record of an application.**

  A rule has one stage for each group of its blueprint.  A stage gets the stems
  that the stage before it left, and all morphemes of a stage observe the stems
  as the stage got them.

  A derivation keeps the word after every stage.  It is made by the same run
  that `apply` makes (`derive_output`).
-/
import WordFormation.Blueprint.Assembly

namespace WordFormation

/-! ### Running stages -/

def runStage (stage : List Morpheme) (stems : List Word) : Edited (List Word) :=
  Morpheme.applyEach stage stems stems

def runStages : List (List Morpheme) → List Word → Edited (List Word)
  | [], stems => .ok stems
  | stage :: stages, stems => do
    let changed ← runStage stage stems
    runStages stages changed

/-- Run stages one after the other and keep the word after each. -/
def recordStages : List (List Morpheme) → List Word → Edited (List Word × List Word)
  | [], stems => .ok ([], stems)
  | stage :: stages, stems => do
    let changed ← runStage stage stems
    let (steps, final) ← recordStages stages changed
    return (changed.flatten :: steps, final)

/-! ### Rules -/

/-- A rule with the blueprint that it was made from. -/
structure Rule where
  blueprint : Blueprint
  stages : List (List Morpheme)

/-- What happened when a rule was applied: the word it was applied to, the word
    after every stage, and the stems in the end. -/
structure Derivation where
  input : Word
  steps : List Word
  stems : List Word
deriving DecidableEq

namespace Derivation

def output (d : Derivation) : Word := d.stems.flatten

def display (d : Derivation) : String :=
  String.intercalate " -> " ((d.input :: d.steps).map String.ofList)

end Derivation

namespace Rule

def ofBlueprint (b : Blueprint) : Except OperandMismatch Rule := do
  let stages ← assembleGroups b.groups
  return ⟨b, stages⟩

/-- Apply to a compound given as its stems, of which there is always one. -/
def applyCompound (r : Rule) (stems : List Word) : Edited (List Word) :=
  runStages r.stages (if stems.isEmpty then [[]] else stems)

def apply (r : Rule) (w : Word) : Edited Word :=
  (runStages r.stages [w]).map List.flatten

/-- Apply to a word and keep a record. -/
def derive (r : Rule) (w : Word) : Edited Derivation := do
  let (steps, stems) ← recordStages r.stages [w]
  return ⟨w, steps, stems⟩

/-- The opposite rule: the stages in reverse order, each with the opposite
    morphemes in reverse order.  It undoes a rule without conditionals. -/
def antonym (r : Rule) : Rule where
  blueprint := r.blueprint
  stages := (r.stages.map fun stage => (stage.map Morpheme.antonym).reverse).reverse

def display (r : Rule) : String :=
  "Rule(" ++ toString r.stages.length ++ " stages, "
    ++ toString r.stages.flatten.length ++ " operations)"

end Rule

/-! ### Runs one after the other -/

theorem runStages_append (stages stages' : List (List Morpheme)) (stems : List Word) :
    runStages (stages ++ stages') stems = runStages stages stems >>= runStages stages' := by
  induction stages generalizing stems with
  | nil => rfl
  | cons stage stages ih =>
    simp only [List.cons_append, runStages, bind_assoc]
    congr 1
    funext changed
    exact ih changed

/-- From one word a run comes to one word. -/
theorem Rule.apply_of_runStages {r : Rule} {w w' : Word} (h : runStages r.stages [w] = .ok [w']) :
    r.apply w = .ok w' := by
  rw [apply, h]
  exact congrArg Except.ok (List.append_nil w')

/-! ### A record is of the same run -/

/-- Keeping the words does not change what a run does. -/
theorem recordStages_stems (stages : List (List Morpheme)) (stems : List Word) :
    (recordStages stages stems).map (·.2) = runStages stages stems := by
  induction stages generalizing stems with
  | nil => rfl
  | cons stage stages ih =>
    simp only [recordStages, runStages]
    cases runStage stage stems with
    | error failure => rfl
    | ok changed =>
      have h := ih changed
      simp only [bind, Except.bind]
      rw [← h]
      cases recordStages stages changed <;> rfl

theorem Rule.derive_output (r : Rule) (w : Word) :
    (r.derive w).map Derivation.output = r.apply w := by
  rw [Rule.apply, ← recordStages_stems]
  unfold Rule.derive
  cases recordStages r.stages [w] <;> rfl

end WordFormation
