/-
  WordFormation/Blueprint/Assembly.lean
  =====================================
  **From the operations of a blueprint to morphemes that can act.**

  Every operation becomes one morpheme, and a group the list of its morphemes.
  Two operations have no morpheme of their own: a circumfix becomes a prefix and
  a postfix, and a polarity alone becomes an affix with the letters of its
  condition.  In the branch for the case that the condition holds, these are the
  letters of the test that decides; in the other branch no test has decided, and
  the first one stands for all.

  The one thing that can be wrong is the number of forms of an affix.
-/
import WordFormation.Morpheme
import WordFormation.Blueprint

namespace WordFormation

/-- An affix with another number of forms than its kind has. -/
structure OperandMismatch where
  kind : AffixKind
  found : Nat
deriving DecidableEq

/-- How many forms the affix should have had. -/
def OperandMismatch.expected (m : OperandMismatch) : Nat := m.kind.arity

def OperandMismatch.message (m : OperandMismatch) : String :=
  m.kind.name ++ " takes " ++ toString m.kind.arity ++ " operand(s), found " ++ toString m.found

/-- The morpheme of an affix; an affix without polarity does nothing. -/
def affixMorpheme (polarity : Option Polarity) (make : Polarity → Morpheme) : Morpheme :=
  match polarity with
  | some p => make p
  | none => .identity

/-- The morpheme of an affix of the given kind, if it has as many forms as the
    kind asks for. -/
def assembleAffix (kind : AffixKind) (polarity : Option Polarity) (operands : List Allomorphs) :
    Except OperandMismatch Morpheme :=
  match kind, operands with
  | .prefixed, [form] => .ok (affixMorpheme polarity fun p => .affix (.atStart form p))
  | .postfixed, [form] => .ok (affixMorpheme polarity fun p => .affix (.atEnd form p))
  | .circumfixed, [front, back] =>
    .ok (affixMorpheme polarity fun p =>
      .composite [.affix (.atStart front p), .affix (.atEnd back p)])
  | .interfixed, [form] => .ok (affixMorpheme polarity fun p => .interfix ⟨form, p⟩)
  | kind, operands => .error ⟨kind, operands.length⟩

/-- The letters of the first test that holds. -/
def decidingAffix (condition : EdgeCondition) (p : Polarity) : Morpheme :=
  .choice (condition.alternatives.map fun t => (⟨[t]⟩, .affix (t.affix p)))

/-- The letters of the first test. -/
def leadingAffix (condition : EdgeCondition) (p : Polarity) : Morpheme :=
  match condition.alternatives with
  | [] => .identity
  | t :: _ => .affix (t.affix p)

mutual

def Operation.assemble : Operation → Except OperandMismatch Morpheme
  | .affix kind polarity operands => assembleAffix kind polarity operands
  | .conditional condition met unmet => do
    let whenMet ← met.assemble (decidingAffix condition)
    let whenUnmet ← unmet.assemble (leadingAffix condition)
    return .conditional condition whenMet whenUnmet

/-- The morpheme of a branch, `short` being what a polarity alone stands for. -/
def Branch.assemble (short : Polarity → Morpheme) : Branch → Except OperandMismatch Morpheme
  | .identity => .ok .identity
  | .operations operations => do
    let parts ← assembleGroup operations
    return Morpheme.sequence parts
  | .short p => .ok (short p)

def assembleGroup : List Operation → Except OperandMismatch (List Morpheme)
  | [] => .ok []
  | operation :: operations => do
    let part ← operation.assemble
    let parts ← assembleGroup operations
    return part :: parts

end

def assembleGroups : List (List Operation) → Except OperandMismatch (List (List Morpheme))
  | [] => .ok []
  | group :: groups => do
    let stage ← assembleGroup group
    let stages ← assembleGroups groups
    return stage :: stages

end WordFormation
