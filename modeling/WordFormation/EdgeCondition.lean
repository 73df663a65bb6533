/-
  WordFormation/EdgeCondition.lean
  ================================
  **Conditions on how a word begins and ends.**

  A test asks whether a word begins or ends with a form, or with the opposite
  answer whether it does not.  A condition lists tests and holds as soon as one
  of them does; the first that holds is the one that decides.
-/
import WordFormation.Affix

namespace WordFormation

/-- The edge of a word that a test looks at. -/
inductive Edge where
  | start
  | final
deriving DecidableEq

def Edge.position : Edge → Position
  | start => Position.start
  | final => Position.final

/-- Does a word begin, or end, with a form? -/
structure EdgeTest where
  negated : Bool
  edge : Edge
  form : Allomorphs
deriving DecidableEq

namespace EdgeTest

/-- The test whether a form is at an edge. -/
def isAt (edge : Edge) (form : Allomorphs) : EdgeTest := ⟨false, edge, form⟩

def negate (t : EdgeTest) : EdgeTest := { t with negated := !t.negated }

/-- Does a word pass the test?  A form without letters is never found. -/
def holds (t : EdgeTest) (w : Word) : Bool :=
  let found := match t.form.isAt w t.edge.position with
    | .ok found => found
    | .error _ => false
  found != t.negated

/-- The affix that puts the letters of a test on its edge or takes them off. -/
def affix (t : EdgeTest) (polarity : Polarity) : Affix := ⟨t.form, polarity, t.edge.position⟩

end EdgeTest

/-- Tests of which one has to hold. -/
structure EdgeCondition where
  alternatives : List EdgeTest
deriving DecidableEq

namespace EdgeCondition

def firstMatch (c : EdgeCondition) (w : Word) : Option EdgeTest :=
  c.alternatives.find? (·.holds w)

/-- Does a word pass any of the tests? -/
def holds (c : EdgeCondition) (w : Word) : Bool := (c.firstMatch w).isSome

end EdgeCondition

end WordFormation
