/-
  WordFormation/Edit.lean
  =======================
  **A single edit: some text removed, some inserted, next to an addressed unit.**

  An edit names a unit of the word, the third vowel from the end say, and a side
  of it.  There it takes away the one text and puts in the other.  The characters
  that have to hold the text taken away are its window.  The window lies behind a
  gap, except in front of a unit of a class, where it ends at the unit.

  An edit counted from the end is solved as its mirror image on the reversed
  word.  A lenient edit leaves a word alone that it does not fit; only position
  `0` fails always.
-/
import WordFormation.Alphabet

namespace WordFormation

/-- An edit at one place of a word. -/
structure Edit where
  removed : Word
  inserted : Word
  place : Position
  /-- What the position counts. -/
  unit : LetterClass := .letters
  /-- The side of the unit, where it is named. -/
  side : Option Side := none
  /-- Does it fail on a word that it does not fit? -/
  strict : Bool := true
  alphabet : Alphabet := Alphabet.standard
deriving DecidableEq

namespace Edit

/-- The side that is named, or the one that the position means. -/
def effectiveSide (e : Edit) : Side := e.side.getD (Side.implied e.place)

/-- The same edit for the reversed word. -/
def mirrored (e : Edit) : Edit where
  removed := e.removed.reverse
  inserted := e.inserted.reverse
  place := e.place.mirrored
  unit := e.unit
  side := some e.effectiveSide.flipped
  strict := e.strict
  alphabet := e.alphabet

/-- Put letters in at a position. -/
def insertion (letters : Word) (place : Position) : Edit where
  removed := []
  inserted := letters
  place := place

/-- Take letters away at a position. -/
def removal (letters : Word) (place : Position) : Edit where
  removed := letters
  inserted := []
  place := place

/-- The same edit, which leaves alone a word that it does not fit. -/
def lenient (e : Edit) : Edit := { e with strict := false }

/-- The opposite edit: what the one removes the other inserts. -/
def antonym (e : Edit) : Edit := { e with removed := e.inserted, inserted := e.removed }

/-! ### Windows -/

/-- A stretch of characters, from `start` up to but not including `stop`. -/
structure Window where
  start : Nat
  stop : Nat
deriving DecidableEq

/-- The text in a window, as far as the word reaches. -/
def Window.text (x : Window) (w : Word) : Word :=
  (w.take x.stop).drop x.start

/-- The word with another text in place of a window. -/
def Window.replace (x : Window) (w text : Word) : Word :=
  w.take x.start ++ text ++ w.drop x.stop

/-- The failure of an edit that meets another text than expected. -/
def mismatch (e : Edit) (expected found : Word) : PositionError :=
  .mismatch expected found e.place

/-- The index of the addressed unit, for an edit that counts from the start.
    One further unit is taken to stand behind the word, and only its front side
    can be used. -/
def addressed? (e : Edit) (w : Word) : Option Nat :=
  let units := e.alphabet.unitPositions e.unit w
  match units[e.place.ordinal - 1]? with
  | some place => some place
  | none =>
    if e.place.ordinal = units.length + 1 ∧ e.effectiveSide = .before then
      some w.length
    else
      none

/-- The window for a text of the length of `expected`, for an edit that counts
    from the start. -/
def window (e : Edit) (w expected : Word) : Edited Window :=
  if e.place.val = 0 then
    .error .zeroIndex
  else
    match e.addressed? w with
    | none => .error (.outOfRange e.place (e.alphabet.unitPositions e.unit w).length)
    | some place =>
      match e.effectiveSide with
      | .upon => .ok ⟨place, place + expected.length⟩
      | .after => .ok ⟨place + 1, place + 1 + expected.length⟩
      | .before =>
        if e.unit = .letters then
          .ok ⟨place, place + expected.length⟩
        else if expected.length ≤ place then
          .ok ⟨place - expected.length, place⟩
        else
          .error (e.mismatch expected (w.take place))

/-- The window for a text that has to stand there already. -/
def check (e : Edit) (w expected : Word) : Edited Window :=
  match e.window w expected with
  | .error failure => .error failure
  | .ok window =>
    let found := window.text w
    if found = expected then .ok window else .error (e.mismatch expected found)

/-! ### Solving from either end -/

/-- Carry out `act` on the word, or its mirror image on the reversed word where
    the position counts from the end. -/
def solve (e : Edit) (w : Word) (act : Edit → Word → Edited Word) : Edited Word :=
  if e.place.fromEnd then solveReversed e.place w (act e.mirrored) else act e w

/-- Does `test` find its window, on whichever side the position counts from? -/
def probe (e : Edit) (w : Word) (test : Edit → Word → Edited Window) : Bool :=
  if e.place.fromEnd then (test e.mirrored w.reverse).isOk else (test e w).isOk

def isApplicable (e : Edit) (w : Word) : Bool :=
  e.probe w fun e w => e.check w e.removed

/-- Is the text that the edit is about already there?  That is the text to
    remove, or if there is none the text to insert. -/
def isPresent (e : Edit) (w : Word) : Bool :=
  if e.removed.isEmpty ∧ e.inserted.isEmpty then
    false
  else
    e.probe w fun e w => e.check w (if e.removed.isEmpty then e.inserted else e.removed)

/-! ### Carrying out an edit -/

/-- Carry out `act`; a lenient edit gives the word back where it fails. -/
def attempt (e : Edit) (w : Word) (act : Edit → Word → Edited Word) : Edited Word :=
  match e.solve w act with
  | .ok result => .ok result
  | .error .zeroIndex => .error .zeroIndex
  | .error failure => if e.strict then .error failure else .ok w

/-- Insert the text to insert and remove nothing. -/
def insert (e : Edit) (w : Word) : Edited Word :=
  e.attempt w fun e w => do
    let window ← e.window w []
    return (Window.mk window.start window.start).replace w e.inserted

/-- Remove the text to remove and insert nothing. -/
def remove (e : Edit) (w : Word) : Edited Word :=
  e.attempt w fun e w => do
    let window ← e.check w e.removed
    return window.replace w []

/-- Put the text to insert in place of the text to remove. -/
def replace (e : Edit) (w : Word) : Edited Word :=
  e.attempt w fun e w => do
    let window ← e.check w e.removed
    return window.replace w e.inserted

/-- Carry out the edit as far as it has a text to remove and one to insert. -/
def apply (e : Edit) (w : Word) : Edited Word :=
  match e.removed.isEmpty, e.inserted.isEmpty with
  | false, false => e.replace w
  | true, false => e.insert w
  | false, true => e.remove w
  | true, true => .ok w

end Edit

end WordFormation
