/-
  WordFormation/Rule/OfText.lean
  ==============================
  **From text to a rule that is ready to be applied.**

  The text is parsed, the tree is read, and the blueprint is assembled.  Each of
  the three can refuse.
-/
import WordFormation.Rule
import WordFormation.RuleText.Parse
import WordFormation.RuleText.Reading

namespace WordFormation

open RuleText

/-- Why a text gives no rule. -/
inductive TextError where
  | parsing (e : ParseError)
  | reading (e : ReadingError)
  | operands (e : OperandMismatch)
deriving DecidableEq

/-- The wording of the failure, which says of parse errors that they are
    such. -/
def TextError.message : TextError → String
  | parsing e => "parse error: " ++ e.message
  | reading e => e.message
  | operands e => e.message

def Blueprint.ofText (text : Word) : Except TextError Blueprint :=
  match parse text with
  | .error e => .error (.parsing e)
  | .ok tree =>
    match tree.readRule with
    | .error e => .error (.reading e)
    | .ok b => .ok b

def Rule.ofText (text : Word) : Except TextError Rule :=
  match Blueprint.ofText text with
  | .error e => .error e
  | .ok b =>
    match Rule.ofBlueprint b with
    | .error e => .error (.operands e)
    | .ok r => .ok r

end WordFormation
