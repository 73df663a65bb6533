/-
  WordFormation/RuleText/ParseError.lean
  ======================================
  **Where the text of a rule stops being one, and how this is shown.**

  An error keeps the text and the part of it in front of which reading stopped.
  The offset counts the bytes before that place.  The message shows the text with
  a caret under the place and says below what was expected.  Of a text with
  several lines only the line of the place is shown, with its number.  The end of
  a text has no line of its own: it is shown one column behind the last
  character.
-/
import WordFormation.RuleText.Reply

namespace WordFormation.RuleText

def maxNesting : Nat := 32

/-- Why a text is no rule. -/
inductive ParseError.Cause where
  | tooDeep
  /-- No rule begins like this. -/
  | noRule (expected : List Expectation)
  /-- A rule ends before the text does. -/
  | leftover
deriving DecidableEq

/-- A text that is no rule, with the rest of it in front of which reading
    stopped. -/
structure ParseError where
  text : Word
  rest : Word
  cause : ParseError.Cause
deriving DecidableEq

namespace ParseError

/-- The number of bytes in front of the place of the error. -/
def offset (e : ParseError) : Nat := e.text.byteSize - e.rest.byteSize

/-- The text in front of the place of the error. -/
def front (e : ParseError) : Word := e.text.take (e.text.length - e.rest.length)

/-- What is said below the caret. -/
def explanation : Cause → String
  | .noRule [] => "invalid rule"
  | .noRule expected =>
    "invalid rule\nexpected " ++ String.intercalate ", " (expected.map Expectation.message)
  | _ => ""

/-- The number of a line and of a column, both counted from one. -/
structure Place where
  line : Nat
  column : Nat
deriving DecidableEq

/-- The place behind a text. -/
def Place.behind (w : Word) : Place where
  line := w.count '\n' + 1
  column := (w.reverse.takeWhile (· != '\n')).length + 1

/-- The place of the error.  At the end of the text it is the place of the last
    character, one column further. -/
def place (e : ParseError) : Place :=
  if e.rest.isEmpty then
    let last := Place.behind e.text.dropLast
    { last with column := last.column + 1 }
  else
    Place.behind e.front

/-- The line of a text with the given number. -/
def lineOf : Nat → Word → Word
  | 0, _ => []
  | 1, w => w.takeWhile (· != '\n')
  | n + 2, w => lineOf (n + 1) ((w.dropWhile (· != '\n')).drop 1)

def spaces (n : Nat) : String := String.ofList (List.replicate n ' ')

/-- The text with a caret under the place of the error. -/
def rendering (e : ParseError) : String :=
  if e.text.contains '\n' then
    let place := e.place
    let number := toString place.line
    let gutter := spaces number.length
    "parse error at line " ++ number ++ ", column " ++ toString place.column ++ "\n"
      ++ gutter ++ " |\n"
      ++ number ++ " | " ++ String.ofList (lineOf place.line e.text) ++ "\n"
      ++ gutter ++ " | " ++ spaces (place.column - 1) ++ "^\n"
  else
    String.ofList e.text ++ "\n" ++ spaces e.offset ++ "^\n"

def message (e : ParseError) : String :=
  match e.cause with
  | .tooDeep => "parentheses nested deeper than " ++ toString maxNesting ++ " levels"
  | cause => e.rendering ++ explanation cause

end ParseError

end WordFormation.RuleText
