/-
  WordFormation/Blueprint.lean
  ============================
  **What a rule says, before it is made ready to run.**

  A blueprint lists groups of operations.  The groups are carried out one after
  the other; the operations of a group all see the word as it was when the group
  began.  An operation is an affix with its letters, or a conditional whose two
  branches hold further operations.
-/
import WordFormation.EdgeCondition

namespace WordFormation

inductive AffixKind where
  | prefixed
  | postfixed
  | circumfixed
  | interfixed
deriving DecidableEq

namespace AffixKind

def name : AffixKind → String
  | prefixed => "prefix"
  | postfixed => "postfix"
  | circumfixed => "circumfix"
  | interfixed => "interfix"

/-- How many forms an affix of the kind has. -/
def arity : AffixKind → Nat
  | circumfixed => 2
  | _ => 1

end AffixKind

mutual

inductive Operation where
  /-- An affix.  One without a polarity does nothing; it comes from an interfix
      whose two marks disagree. -/
  | affix (kind : AffixKind) (polarity : Option Polarity) (operands : List Allomorphs)
  | conditional (condition : EdgeCondition) (met unmet : Branch)

/-- What a conditional does in one of its cases. -/
inductive Branch where
  /-- Nothing is written, and nothing is done. -/
  | identity
  | operations (operations : List Operation)
  /-- A polarity alone, for the letters of the condition itself. -/
  | short (polarity : Polarity)

end

instance : Inhabited Operation := ⟨.conditional ⟨[]⟩ .identity .identity⟩

/-- A whole rule. -/
structure Blueprint where
  /-- Room for a dialect or a variant. -/
  context : Option String := none
  /-- The groups of operations in the order in which they are carried out. -/
  groups : List (List Operation)

namespace Operation

/-- A prefix. -/
def putBefore (form : Allomorphs) (polarity : Polarity) : Operation :=
  .affix .prefixed (some polarity) [form]

/-- A postfix. -/
def putAfter (form : Allomorphs) (polarity : Polarity) : Operation :=
  .affix .postfixed (some polarity) [form]

/-- A circumfix. -/
def putAround (front back : Allomorphs) (polarity : Polarity) : Operation :=
  .affix .circumfixed (some polarity) [front, back]

/-- An interfix. -/
def putBetween (form : Allomorphs) (polarity : Polarity) : Operation :=
  .affix .interfixed (some polarity) [form]

end Operation

end WordFormation
