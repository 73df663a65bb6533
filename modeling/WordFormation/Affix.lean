/-
  WordFormation/Affix.lean
  ========================
  **Forms put on or taken off the edges of a word and of its stems.**

  An affix sits at a position of one word, most often at an edge: prefixes at the
  start, postfixes at the end.  An interfix links the stems of a compound and
  sits at the end of every stem but the last.

  Whether an affix is present is asked of the word as it was observed earlier,
  which need not be the word that is edited: affixes that act together must not
  see each other's work.
-/
import WordFormation.Polarity
import WordFormation.Allomorphs.Placement

namespace WordFormation

/-- A form to insert or remove at a position. -/
structure Affix where
  form : Allomorphs
  polarity : Polarity
  place : Position
deriving DecidableEq

namespace Affix

def atStart (form : Allomorphs) (polarity : Polarity) : Affix :=
  ⟨form, polarity, Position.start⟩

def atEnd (form : Allomorphs) (polarity : Polarity) : Affix :=
  ⟨form, polarity, Position.final⟩

def isPresent (x : Affix) (w : Word) : Edited Bool := x.form.isAt w x.place

/-- Edit a word.  What is present decides on removing and toggling, and is
    asked of `observed`. -/
def applyObserving (x : Affix) (w observed : Word) : Edited Word :=
  match x.polarity with
  | .insert => x.form.insertAt w x.place
  | .remove => do
    if ← x.isPresent observed then x.form.removeAt w x.place else return w
  | .toggle => do
    if ← x.isPresent observed then x.form.removeAt w x.place
    else x.form.insertAt w x.place

def apply (x : Affix) (w : Word) : Edited Word := x.applyObserving w w

def antonym (x : Affix) : Affix := { x with polarity := x.polarity.opposite }

@[simp] theorem antonym_antonym (x : Affix) : x.antonym.antonym = x := by
  cases x; simp [antonym]

end Affix

/-- A linking element between the stems of a compound. -/
structure Interfix where
  form : Allomorphs
  polarity : Polarity
deriving DecidableEq

namespace Interfix

/-- The affix at the end of a stem that is followed by another. -/
def edge (x : Interfix) : Affix := Affix.atEnd x.form x.polarity

/-- Link a list of stems, each stem observed where `observed` has a stem for it
    and observing itself where it has none. -/
def applyObserving (x : Interfix) : (stems observed : List Word) → Edited (List Word)
  | [], _ => .ok []
  | [last], _ => .ok [last]
  | stem :: next :: stems, observed => do
    let linked ← x.edge.applyObserving stem (observed.headD stem)
    let others ← x.applyObserving (next :: stems) observed.tail
    return linked :: others

def apply (x : Interfix) (stems : List Word) : Edited (List Word) :=
  x.applyObserving stems stems

def antonym (x : Interfix) : Interfix := { x with polarity := x.polarity.opposite }

@[simp] theorem antonym_antonym (x : Interfix) : x.antonym.antonym = x := by
  cases x; simp [antonym]

end Interfix

end WordFormation
