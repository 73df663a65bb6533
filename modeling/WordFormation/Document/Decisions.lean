/-
  WordFormation/Document/Decisions.lean
  =====================================
  **Decisions as documents.**

  A decision is written as one clause or as the list of its clauses.  A clause is
  a structure: `when` holds a pattern, `feature` the name of a feature, and `then`
  a literal or a further decision.  A list that can be read as the fields of one
  clause is that clause.
-/
import WordFormation.Document
import WordFormation.Decision

namespace WordFormation

/-- The guard in the first two fields of a clause. -/
def GuardSpec.ofFields? (pattern feature : Option Document) : Option GuardSpec := do
  let pattern ← Document.optional? Document.text? pattern
  let feature ← Document.optional? Document.text? feature
  return ⟨pattern, feature⟩

/-- A guard as the first fields of a clause, left out where nothing is asked. -/
def GuardSpec.toFields (g : GuardSpec) : List (String × Document) :=
  Document.fieldIfSome "when" .text g.pattern ++ Document.fieldIfSome "feature" .text g.feature

/-- A clause with a guard and an outcome that may have failed to be read. -/
def Clause.ofParts? (guard : Option GuardSpec) (outcome : Option (Outcome GuardSpec)) :
    Option (Clause GuardSpec) := do
  let guard ← guard
  let outcome ← outcome
  return .guarded guard outcome

mutual

def Outcome.ofDocument? : Document → Option (Outcome GuardSpec)
  | .text value => some (.literal value)
  | .record fields => do
    let guard := GuardSpec.ofFields? (fields.lookup "when") (fields.lookup "feature")
    let clause ← Clause.ofParts? guard (outcomeOfField? "then" fields)
    return .nested (.single clause)
  | .list items =>
    match clauseOfItems? items with
    | some clause => some (.nested (.single clause))
    | none => do
      let clauses ← clausesOfItems? items
      return .nested (.several clauses)
  | _ => none

/-- The outcome in the field with the given key. -/
def outcomeOfField? (key : String) : List (String × Document) → Option (Outcome GuardSpec)
  | [] => none
  | (name, d) :: fields =>
    if key == name then Outcome.ofDocument? d else outcomeOfField? key fields

/-- The clause whose fields are given in their order. -/
def clauseOfItems? : List Document → Option (Clause GuardSpec)
  | [pattern, feature, outcome] =>
    Clause.ofParts? (GuardSpec.ofFields? (some pattern) (some feature))
      (Outcome.ofDocument? outcome)
  | _ => none

def clausesOfItems? : List Document → Option (List (Clause GuardSpec))
  | [] => some []
  | d :: ds => do
    let clause ← Clause.ofDocument? d
    let clauses ← clausesOfItems? ds
    return clause :: clauses

def Clause.ofDocument? : Document → Option (Clause GuardSpec)
  | .record fields =>
    Clause.ofParts? (GuardSpec.ofFields? (fields.lookup "when") (fields.lookup "feature"))
      (outcomeOfField? "then" fields)
  | .list items => clauseOfItems? items
  | _ => none

end

/-- The decision that a document stands for; a literal alone is none. -/
def DecisionSpec.ofDocument? (d : Document) : Option DecisionSpec := do
  match ← Outcome.ofDocument? d with
  | .nested decision => return decision
  | .literal _ => none

mutual

def DecisionSpec.toDocument : DecisionSpec → Document
  | .single clause => Clause.toDocument clause
  | .several clauses => .list (documentsOfClauses clauses)

def Clause.toDocument : Clause GuardSpec → Document
  | .guarded guard outcome => .record (guard.toFields ++ [("then", Outcome.toDocument outcome)])

def Outcome.toDocument : Outcome GuardSpec → Document
  | .literal value => .text value
  | .nested decision => DecisionSpec.toDocument decision

def documentsOfClauses : List (Clause GuardSpec) → List Document
  | [] => []
  | clause :: clauses => Clause.toDocument clause :: documentsOfClauses clauses

end

end WordFormation
