/-
  WordFormation/RuleText/Reading.lean
  ===================================
  **From tree to blueprint.**

  Reading a tree gives the groups of operations that it stands for.  Chains of
  affixes become one operation for each link, wrappers and parentheses disappear,
  and letters become the forms that they stand for: a stretch of letters with
  optional parts stands for every choice of keeping them or leaving them out, the
  one that keeps all first.

  Trees of any shape can be read.  One that the grammar does not make is refused
  at the first part that does not fit.  A tree of the grammar can be refused for
  one reason only, an optional part that has a further `^` inside.
-/
import WordFormation.RuleText.Tree
import WordFormation.Blueprint

namespace WordFormation.RuleText

/-- Why a tree is no rule. -/
inductive ReadingError where
  /-- An optional part with another number of `^` than one. -/
  | malformedOptional (text : Word) (markers : Nat)
  /-- A part of another kind than expected, with its text. -/
  | unexpectedNode (expected : String) (found : Word)
deriving DecidableEq

def ReadingError.message : ReadingError → String
  | malformedOptional text markers =>
    "optional group '" ++ String.ofList text ++ "' must carry exactly one '^' marker, found "
      ++ toString markers
  | unexpectedNode expected found =>
    "expected " ++ expected ++ " node, found '" ++ String.ofList found ++ "'"

/-- What reading a tree gives. -/
abbrev Read := Except ReadingError

namespace Tree

/-! ### Looking at trees -/

/-- The failure of a tree where something else was expected. -/
def unexpected {α : Type} (t : Tree) (expected : String) : Read α :=
  .error (.unexpectedNode expected t.text)

/-- What a part with the given label is made of. -/
def childrenOf (label : Label) (t : Tree) : Read (List Tree) :=
  match t with
  | node found children =>
    if found = label then .ok children else t.unexpected label.name
  | leaf _ => t.unexpected label.name

def child (t : Tree) (i : Nat) : Read Tree :=
  match t.children[i]? with
  | some part => .ok part
  | none => t.unexpected "child"

/-- What is between parentheses; a tree without them is left as it is. -/
def unparenthesised (t : Tree) : Tree :=
  match t.children with
  | opening :: inner :: _ => if opening.isMark '(' then inner else t
  | _ => t

/-- Skip wrappers that hold just one part. -/
def unwrapped : Tree → Tree
  | leaf text => leaf text
  | node label [node inner children] =>
    if label.isWrapper then unwrapped (node inner children) else node label [node inner children]
  | node label children => node label children

/-- Every other tree of a list: the parts of which separators stand between. -/
def items : List Tree → List Tree
  | [] => []
  | [t] => [t]
  | t :: _ :: ts => t :: items ts

/-! ### Letters -/

mutual

/-- The forms of a stretch of letters. -/
def readLetters : Tree → Read Allomorphs
  | node .letters parts => readParts (.only []) parts
  | t => t.unexpected Label.letters.name

/-- The forms of a part of a stretch of letters.  An optional part has the forms
    that it has when it is kept, then the empty one. -/
def readPart : Tree → Read Allomorphs
  | leaf text => .ok (.only text)
  | node .optional children =>
    let text := textOfAll children
    let markers := text.count '^'
    if markers ≠ 1 then
      .error (.malformedOptional text markers)
    else
      match children with
      | kept :: _ => do
        let forms ← readPart kept
        return forms.union (.form [])
      | [] => .error (.unexpectedNode "child" text)
  | node .parens (opening :: inner :: more) =>
    if opening.isMark '(' then
      readLetters inner
    else
      (node .parens (opening :: inner :: more)).unexpected Label.letters.name
  | node .parens children => (node .parens children).unexpected Label.letters.name
  | node .letters parts => readParts (.only []) parts
  | t => t.unexpected "alphabetic expression"

/-- The forms of parts that follow each other, `front` being those of what is in
    front of them. -/
def readParts (front : Allomorphs) : List Tree → Read Allomorphs
  | [] => .ok front
  | part :: parts => do
    let forms ← readPart part
    readParts (front.cross forms) parts

end

/-! ### Segments -/

def readPolarity (t : Tree) : Read Polarity :=
  match t with
  | leaf [c] =>
    match Polarity.ofSymbol? c with
    | some p => .ok p
    | none => t.unexpected "polarity"
  | t => t.unexpected "polarity"

/-- One operation for each link of a chain of postfixes, `chain` being all of
    it. -/
def readPostfixLinks (chain : Tree) : List Tree → Read (List Operation)
  | [] => .ok []
  | [_] => chain.unexpected "postfix link"
  | mark :: form :: links => do
    let p ← mark.readPolarity
    let form ← form.readLetters
    let operations ← readPostfixLinks chain links
    return .putAfter form p :: operations

def readPostfixes (t : Tree) : Read (List Operation) := readPostfixLinks t t.children

/-- One operation for each link of a chain of prefixes, then those of the
    postfixes behind it. -/
def readPrefixLinks : List Tree → Read (List Operation)
  | [] => .ok []
  | [tail] => do
    let links ← tail.childrenOf .postfixes
    readPostfixLinks tail links
  | form :: mark :: links => do
    let p ← mark.readPolarity
    let form ← form.readLetters
    let operations ← readPrefixLinks links
    return .putBefore form p :: operations

def readCircumfix (t : Tree) : Read Operation := do
  let front ← (← t.child 0).readLetters
  let p ← (← t.child 1).readPolarity
  let back ← (← t.child 2).readLetters
  return .putAround front back p

/-- The operation of an interfix, without a polarity if its marks disagree. -/
def readInterfix (t : Tree) : Read Operation := do
  let opening ← (← t.child 0).readPolarity
  let form ← (← t.child 1).readLetters
  let closing ← (← t.child 2).readPolarity
  return .affix .interfixed (if opening = closing then some opening else none) [form]

def readSegment (t : Tree) : Read (List Operation) :=
  let t := t.unwrapped
  match t.label? with
  | some .prefixes => readPrefixLinks t.children
  | some .postfixes => t.readPostfixes
  | some .circumfix => do return [← t.readCircumfix]
  | some .interfix => do return [← t.readInterfix]
  | _ => t.unexpected "segment"

/-! ### Conditionals -/

/-- The test without its negation, `test` being the whole of it.  The dash is on
    the side of the letters on which the word goes on. -/
def readTestBody (test : Tree) : List Tree → Read EdgeTest
  | [first, second] => do
    if first.isMark '-' then
      return .isAt .final (← second.readLetters)
    else if second.isMark '-' then
      return .isAt .start (← first.readLetters)
    else
      test.unexpected "basic condition"
  | _ => test.unexpected "basic condition"

def readTest (t : Tree) : Read EdgeTest := do
  match ← t.childrenOf .test with
  | first :: body =>
    if first.isMark '~' then
      return (← readTestBody t body).negate
    else
      readTestBody t (first :: body)
  | [] => readTestBody t []

def readCondition (t : Tree) : Read EdgeCondition := do
  let tests ← (items (← t.childrenOf .condition)).mapM readTest
  return ⟨tests⟩

def readBranch (t : Tree) : Read Branch := do
  let _ ← t.childrenOf .branch
  match ← t.child 0 with
  | leaf text => return .short (← (leaf text).readPolarity)
  | segment => return .operations (← segment.readSegment)

/-- The branches of a conditional, `t` being all of it. -/
def readBranches (t : Tree) : List Tree → Read (Branch × Branch)
  | [_, _, third, fourth] =>
    if third.isMark ':' then do
      return (.identity, ← fourth.readBranch)
    else
      t.unexpected "conditional"
  | [_, _, met] => do return (← met.readBranch, .identity)
  | [_, _, met, _, unmet] => do return (← met.readBranch, ← unmet.readBranch)
  | _ => t.unexpected "conditional"

def readConditional (t : Tree) : Read Operation := do
  let condition ← (← t.child 0).readCondition
  let (met, unmet) ← t.readBranches t.children
  return .conditional condition met unmet

/-! ### Groups and rules -/

def readItem (t : Tree) : Read (List Operation) :=
  let t := t.unwrapped
  match t.label? with
  | some .conditional => do return [← t.readConditional]
  | _ => t.readSegment

def readGroup (t : Tree) : Read (List Operation) := do
  let parts ← (items (← t.childrenOf .group)).mapM fun part => part.unparenthesised.readItem
  return parts.flatten

def readStages (t : Tree) : Read (List (List Operation)) := do
  (items (← t.childrenOf .stages)).mapM fun part => part.unparenthesised.readGroup

/-- The blueprint of a rule, whose last part holds its groups. -/
def readRule (t : Tree) : Read Blueprint := do
  match (← t.childrenOf .rule).getLast? with
  | some body => return { groups := ← body.readStages }
  | none => t.unexpected "rule body"

end Tree

end WordFormation.RuleText
