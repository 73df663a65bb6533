/-
  WordFormation/Decision.lean
  ===========================
  **Decisions: literals under guards, the first that applies.**

  A decision is a clause or a list of clauses.  A clause has a guard and an
  outcome, which is a literal or a further decision.  The clauses of a list are
  tried in order.  One whose guard holds but whose outcome comes to nothing does
  not end the search: the next clause is tried.

  What a guard is stays open here.  Decisions are evaluated with guards that look
  at a candidate (`Guard`), and they are written down with guards that name a
  pattern and a feature (`GuardSpec`).  Turning the one into the other can fail
  only on a pattern that is none.
-/
import WordFormation.Lexicon
import WordFormation.Pattern.Written

namespace WordFormation

/-! ### Decisions over any guards -/

mutual

/-- One clause or several. -/
inductive Decision (G : Type) where
  | single (clause : Clause G)
  | several (clauses : List (Clause G))

/-- A guard with what is decided under it. -/
inductive Clause (G : Type) where
  | guarded (guard : G) (outcome : Outcome G)

/-- A literal or a further decision. -/
inductive Outcome (G : Type) where
  | literal (value : String)
  | nested (decision : Decision G)

end

section Translation

variable {G H ε : Type}

mutual

/-- The same decision over other guards, if each guard has a translation. -/
def Decision.translate (f : G → Except ε H) : Decision G → Except ε (Decision H)
  | .single clause => do
    let clause ← clause.translate f
    return .single clause
  | .several clauses => do
    let clauses ← Clause.translateAll f clauses
    return .several clauses

/-- The same clause over other guards; its own guard comes first. -/
def Clause.translate (f : G → Except ε H) : Clause G → Except ε (Clause H)
  | .guarded guard outcome => do
    let guard ← f guard
    let outcome ← outcome.translate f
    return .guarded guard outcome

def Outcome.translate (f : G → Except ε H) : Outcome G → Except ε (Outcome H)
  | .literal value => .ok (.literal value)
  | .nested decision => do
    let decision ← decision.translate f
    return .nested decision

def Clause.translateAll (f : G → Except ε H) : List (Clause G) → Except ε (List (Clause H))
  | [] => .ok []
  | clause :: clauses => do
    let clause ← clause.translate f
    let clauses ← Clause.translateAll f clauses
    return clause :: clauses

end

end Translation

/-! ### Guards -/

/-- A language of patterns: which texts are patterns, and where they are
    found. -/
class PatternLanguage (P : Type) where
  ofText? : Word → Option P
  isFoundIn : P → Word → Bool

instance : PatternLanguage WordPattern := ⟨Pattern.ofText?, Pattern.isFoundIn⟩

/-- What is asked of a candidate. -/
inductive Guard (P : Type) where
  | always
  /-- The pattern is found in the form. -/
  | pattern (p : P)
  | feature (name : String)
  /-- All that is asked holds. -/
  | all (guards : List (Guard P))

/-- Why nothing is decided. -/
inductive DecisionError where
  | noneApplies
  /-- A text was given as a pattern that is none. -/
  | invalidPattern (text : String)
deriving DecidableEq

/-- The wording of the failure, of one that does not depend on the language of
    patterns. -/
def DecisionError.message? : DecisionError → Option String
  | noneApplies => some "no condition applies"
  | invalidPattern _ => none

section Guards

variable {P : Type} [PatternLanguage P]

mutual

def Guard.holds (c : Candidate) : Guard P → Bool
  | .always => true
  | .pattern p => PatternLanguage.isFoundIn p c.form
  | .feature name => c.hasFeature name
  | .all guards => Guard.allHold c guards

def Guard.allHold (c : Candidate) : List (Guard P) → Bool
  | [] => true
  | guard :: guards => guard.holds c && Guard.allHold c guards

end

/-- The guard that asks for a written pattern. -/
def Guard.ofPattern (text : String) : Except DecisionError (Guard P) :=
  match PatternLanguage.ofText? text.toList with
  | some p => .ok (.pattern p)
  | none => .error (.invalidPattern text)

end Guards

/-! ### Deciding for a candidate -/

section Evaluation

variable {P : Type} [PatternLanguage P]

mutual

def Decision.evaluate (c : Candidate) : Decision (Guard P) → Except DecisionError String
  | .single clause => clause.evaluate c
  | .several clauses => Clause.evaluateFirst c clauses

def Clause.evaluate (c : Candidate) : Clause (Guard P) → Except DecisionError String
  | .guarded guard outcome => if guard.holds c then outcome.evaluate c else .error .noneApplies

def Outcome.evaluate (c : Candidate) : Outcome (Guard P) → Except DecisionError String
  | .literal value => .ok value
  | .nested decision => decision.evaluate c

/-- Evaluate the clauses in order until one comes to something.  Only that nothing
    applies lets the search go on; any other failure ends it. -/
def Clause.evaluateFirst (c : Candidate) :
    List (Clause (Guard P)) → Except DecisionError String
  | [] => .error .noneApplies
  | clause :: clauses =>
    match clause.evaluate c with
    | .error .noneApplies => Clause.evaluateFirst c clauses
    | outcome => outcome

end

end Evaluation

/-! ### Decisions as they are written down -/

/-- A guard that names a pattern, a feature, both or neither. -/
structure GuardSpec where
  pattern : Option String
  feature : Option String
deriving DecidableEq

/-- A decision that is written down. -/
abbrev DecisionSpec := Decision GuardSpec

section Specs

variable {P : Type} [PatternLanguage P]

/-- The guards that a written guard is made of. -/
def GuardSpec.parts (g : GuardSpec) : Except DecisionError (List (Guard P)) := do
  let patterns ← match g.pattern with
    | some text => do
      let guard ← Guard.ofPattern text
      pure [guard]
    | none => pure []
  let features := match g.feature with
    | some name => [.feature name]
    | none => []
  return patterns ++ features

def GuardSpec.guard (g : GuardSpec) : Except DecisionError (Guard P) := do
  let parts ← g.parts
  match parts with
  | [] => return .always
  | [part] => return part
  | parts => return .all parts

def DecisionSpec.decision (d : DecisionSpec) : Except DecisionError (Decision (Guard P)) :=
  d.translate GuardSpec.guard

end Specs

end WordFormation
