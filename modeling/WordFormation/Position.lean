/-
  WordFormation/Position.lean
  ===========================
  **Signed positions in a word, and the three ways in which one can fail.**

  A position is a signed 32-bit number.  Positive ones count from the start of
  the word, negative ones from its end, and `0` addresses nothing.  Reversing a
  word turns a position into its opposite.  The most negative one has none, so
  its opposite is the greatest position: both are further away than any word is
  long.
-/
import WordFormation.Word

namespace WordFormation

/-- A signed 32-bit position. -/
structure Position where
  val : Int
  lower : -2147483648 ≤ val := by omega
  upper : val ≤ 2147483647 := by omega
deriving DecidableEq

namespace Position

@[ext] theorem ext {p q : Position} (h : p.val = q.val) : p = q := by
  cases p; cases q; cases h; rfl

def ofInt? (n : Int) : Option Position :=
  if h : -2147483648 ≤ n ∧ n ≤ 2147483647 then some ⟨n, h.1, h.2⟩ else none

/-- The start of a word, where prefixes go. -/
def start : Position := { val := 1 }

/-- The end of a word, where postfixes go. -/
def final : Position := { val := -1 }

def fromEnd (p : Position) : Bool := p.val < 0

/-- The distance from the end that the position counts from: `1` is the first
    unit there. -/
def ordinal (p : Position) : Nat := p.val.natAbs

/-- The opposite position, which addresses the same place in the reversed
    word. -/
def mirrored (p : Position) : Position :=
  if h : p.val = -2147483648 then
    { val := 2147483647 }
  else
    have := p.lower
    have := p.upper
    { val := -p.val }

instance : ToString Position := ⟨fun p => toString p.val⟩

end Position

/-! ### Failures -/

/-- Why a position could not be edited. -/
inductive PositionError where
  | zeroIndex
  /-- The word has only `units` units of the kind that is counted. -/
  | outOfRange (place : Position) (units : Nat)
  /-- Something else than the expected text stands there. -/
  | mismatch (expected found : Word) (place : Position)
deriving DecidableEq

namespace PositionError

def message : PositionError → String
  | zeroIndex => "positions are 1-based; 0 does not address anything"
  | outOfRange place units =>
    "position " ++ toString place ++ " does not exist in a word with " ++ toString units
      ++ " addressable units"
  | mismatch expected found place =>
    "expected '" ++ String.ofList expected ++ "' at position " ++ toString place ++ ", found '"
      ++ String.ofList found ++ "'"

/-- Restate a failure that arose in the reversed word for the word itself,
    whose position is `place`. -/
def unmirrored (place : Position) : PositionError → PositionError
  | zeroIndex => zeroIndex
  | outOfRange _ units => outOfRange place units
  | mismatch expected found _ => mismatch expected.reverse found.reverse place

end PositionError

/-- The outcome of an edit: the new word, or why there is none. -/
abbrev Edited := Except PositionError

/-- Solve a problem that counts from the end of a word as one that counts from
    the start of the reversed word. -/
def solveReversed (place : Position) (w : Word) (solve : Word → Edited Word) : Edited Word :=
  match solve w.reverse with
  | .ok result => .ok result.reverse
  | .error failure => .error (failure.unmirrored place)

end WordFormation
