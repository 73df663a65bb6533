/-
  WordFormation/Morpheme.lean
  ===========================
  **Compiled operations, acting on the stems of a word.**

  A word is handled as its list of stems, so that interfixes have boundaries to
  act on.  Edits that count from the start change the first stem, edits that
  count from the end the last one.

  Two lists of stems go through every operation: the stems as they are now, which
  are edited, and the stems as they were observed when the operations that belong
  together began.  Conditions and the presence of affixes are decided on the
  observed ones alone.
-/
import WordFormation.Edit
import WordFormation.EdgeCondition

namespace WordFormation

/-- An operation on words. -/
inductive Morpheme where
  | identity
  | edit (e : Edit)
  | affix (x : Affix)
  | interfix (x : Interfix)
  /-- One operation after the other, all with the same observed stems. -/
  | composite (parts : List Morpheme)
  /-- One of two operations, as the condition decides. -/
  | conditional (condition : EdgeCondition) (met unmet : Morpheme)
  /-- The first arm whose condition holds; nothing if there is none. -/
  | choice (arms : List (EdgeCondition × Morpheme))

namespace Morpheme

instance : Inhabited Morpheme := ⟨identity⟩

/-- The operations one after the other; a single one needs no composite. -/
def sequence : List Morpheme → Morpheme
  | [] => identity
  | [part] => part
  | parts => composite parts

/-- Change the first stem for a position that counts from the start and the last
    one otherwise.  Where there is no stem an empty one is made.  `change` also
    gets the observed stem of the same index, or the stem itself if fewer stems
    were observed. -/
def onEdgeStem (stems observed : List Word) (p : Position)
    (change : Word → Word → Edited Word) : Edited (List Word) := do
  let stems := if stems.isEmpty then [[]] else stems
  let index := if 0 < p.val then 0 else stems.length - 1
  let stem := stems[index]?.getD []
  let changed ← change stem (observed[index]?.getD stem)
  return stems.set index changed

mutual

/-- Act on stems, deciding on the observed ones. -/
def applyObserving : Morpheme → (stems observed : List Word) → Edited (List Word)
  | .identity, stems, _ => .ok stems
  | .edit e, stems, observed => onEdgeStem stems observed e.place fun stem _ => e.apply stem
  | .affix x, stems, observed => onEdgeStem stems observed x.place x.applyObserving
  | .interfix x, stems, observed => x.applyObserving stems observed
  | .composite parts, stems, observed => applyEach parts stems observed
  | .conditional condition met unmet, stems, observed =>
    if condition.holds observed.flatten then
      met.applyObserving stems observed
    else
      unmet.applyObserving stems observed
  | .choice arms, stems, observed => applyFirst arms stems observed

/-- Act with one operation after the other, all with the same observed stems. -/
def applyEach : List Morpheme → (stems observed : List Word) → Edited (List Word)
  | [], stems, _ => .ok stems
  | part :: parts, stems, observed => do
    let changed ← part.applyObserving stems observed
    applyEach parts changed observed

/-- Act with the first arm whose condition holds. -/
def applyFirst : List (EdgeCondition × Morpheme) → (stems observed : List Word) →
    Edited (List Word)
  | [], stems, _ => .ok stems
  | (condition, arm) :: arms, stems, observed =>
    if condition.holds observed.flatten then
      arm.applyObserving stems observed
    else
      applyFirst arms stems observed

end

def applyStems (m : Morpheme) (stems : List Word) : Edited (List Word) :=
  m.applyObserving stems stems

def apply (m : Morpheme) (w : Word) : Edited Word :=
  (m.applyStems [w]).map List.flatten

/-! ### Antonyms -/

mutual

/-- The opposite operation.  What was done last is undone first; conditions stay
    as they are and only what they choose from changes. -/
def antonym : Morpheme → Morpheme
  | .identity => .identity
  | .edit e => .edit e.antonym
  | .affix x => .affix x.antonym
  | .interfix x => .interfix x.antonym
  | .composite parts => .composite (antonymEach parts).reverse
  | .conditional condition met unmet => .conditional condition met.antonym unmet.antonym
  | .choice arms => .choice (antonymArms arms)

def antonymEach : List Morpheme → List Morpheme
  | [] => []
  | part :: parts => part.antonym :: antonymEach parts

def antonymArms : List (EdgeCondition × Morpheme) → List (EdgeCondition × Morpheme)
  | [] => []
  | (condition, arm) :: arms => (condition, arm.antonym) :: antonymArms arms

end

@[simp] theorem antonymEach_eq_map (parts : List Morpheme) :
    antonymEach parts = parts.map antonym := by
  induction parts with
  | nil => rfl
  | cons part parts ih => simp [antonymEach, ih]

end Morpheme

end WordFormation
