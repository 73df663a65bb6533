/-
  WordFormation/Allomorphs/Placement.lean
  =======================================
  **Finding, inserting and deleting one of several forms at a position of a
  word.**

  Here the alternatives of a set are narrowed down to one.  What is found at a
  position is the longest form that stands there.  What is inserted is the form
  after which the longest form found at the position exceeds the inserted one
  most: an optional `ch` is left out in front of `chen`, where the `ch` of the
  word completes the form, and written in front of `ten`.  Of equally good forms
  the longer is taken, then the first.

  The gap a position names is one of `length + 1` gaps, counted from either end.
  A position that counts from the end is solved on the reversed word with the
  reversed forms.

  Words are cut at byte offsets.  All of these cuts exist, so that finding,
  deleting and inserting are what they are in terms of characters
  (`formAtGap_eq`, `removeAtGap_eq`, `insertAtGap_eq`).
-/
import WordFormation.Allomorphs
import WordFormation.Position

namespace WordFormation.Allomorphs

/-! ### At a gap counted from the start -/

/-- The longest form that stands right after the first `k` characters; the
    empty word if none does or there are fewer characters. -/
def formAtGap (a : Allomorphs) (w : Word) (k : Nat) : Word :=
  match w.byteOffset? k with
  | some offset => (longest (a.forms.filter (·.isPrefixOf (w.afterByte offset)))).getD []
  | none => []

/-- The word without the form found after the first `k` characters. -/
def removeAtGap (a : Allomorphs) (w : Word) (k : Nat) : Word :=
  let found := a.formAtGap w k
  match w.byteOffset? k with
  | some offset => if found.isEmpty then w else w.exciseBytes offset (offset + found.byteSize)
  | none => w

/-- How well an inserted form fits: by how much the form then found at the gap
    exceeds it, and its own length. -/
structure Fit where
  gain : Int
  length : Nat
deriving DecidableEq

/-- More gain is better, then a longer form. -/
def Fit.better (f g : Fit) : Bool :=
  g.gain < f.gain || (f.gain == g.gain && g.length < f.length)

/-- The fit of `form` at a gap of `k` characters, `result` being the word with
    the form inserted. -/
def fit (a : Allomorphs) (k : Nat) (form result : Word) : Fit where
  gain := (a.formAtGap result k).length - form.length
  length := form.length

/-- The word with the best fitting form put after the first `k` characters;
    nothing if there are fewer characters. -/
def insertAtGap (a : Allomorphs) (w : Word) (k : Nat) : Option Word :=
  (w.byteOffset? k).map fun offset =>
    let candidates := a.forms.map fun form =>
      let result := w.splice offset form
      (a.fit k form result, result)
    (firstBest (fun next kept => next.1.better kept.1) candidates).elim w (·.2)

/-! ### In terms of characters -/

theorem longest_getD_isPrefixOf (fs : List Word) (w : Word) :
    (longest (fs.filter (·.isPrefixOf w))).getD [] <+: w := by
  cases h : longest (fs.filter (·.isPrefixOf w)) with
  | none => exact List.nil_prefix
  | some found =>
    have hmem := List.mem_filter.mp (firstBest_mem h)
    exact List.isPrefixOf_iff_prefix.mp hmem.2

/-- What is found at a gap are letters of the word. -/
theorem formAtGap_prefix (a : Allomorphs) {w : Word} {k : Nat} :
    a.formAtGap w k <+: w.drop k := by
  unfold formAtGap
  cases h : w.byteOffset? k with
  | none => exact List.nil_prefix
  | some offset =>
    show (longest (a.forms.filter (·.isPrefixOf (w.afterByte offset)))).getD [] <+: w.drop k
    rw [Word.afterByte_byteOffset? h]
    exact longest_getD_isPrefixOf _ _

theorem formAtGap_eq (a : Allomorphs) {w : Word} {k : Nat} (h : k ≤ w.length) :
    a.formAtGap w k = (longest (a.flatten.filter (·.isPrefixOf (w.drop k)))).getD [] := by
  have ho : w.byteOffset? k = some (Word.byteSize (w.take k)) := by
    rw [Word.byteOffset?_eq, if_pos h]
  unfold formAtGap
  rw [ho, forms_eq_flatten, ← Word.afterByte_byteOffset? ho]

theorem formAtGap_of_length_lt (a : Allomorphs) {w : Word} {k : Nat} (h : w.length < k) :
    a.formAtGap w k = [] := by
  unfold formAtGap
  rw [Word.byteOffset?_eq, if_neg (by omega)]

theorem removeAtGap_eq (a : Allomorphs) {w : Word} {k : Nat} :
    a.removeAtGap w k = w.take k ++ w.drop (k + (a.formAtGap w k).length) := by
  unfold removeAtGap
  cases h : w.byteOffset? k with
  | none =>
    rw [Word.byteOffset?_eq] at h
    by_cases hk : k ≤ w.length
    · rw [if_pos hk] at h
      cases h
    · rw [a.formAtGap_of_length_lt (by omega)]
      simp
  | some offset =>
    cases hf : a.formAtGap w k with
    | nil => simp
    | cons c found =>
      have hp := a.formAtGap_prefix (w := w) (k := k)
      rw [hf] at hp
      exact Word.exciseBytes_byteOffset? h hp

theorem insertAtGap_eq (a : Allomorphs) {w : Word} {k : Nat} (h : k ≤ w.length) :
    a.insertAtGap w k =
      some ((firstBest (fun next kept => next.1.better kept.1)
        (a.flatten.map fun form =>
          (a.fit k form (w.take k ++ form ++ w.drop k), w.take k ++ form ++ w.drop k))).elim
        w (·.2)) := by
  have ho : w.byteOffset? k = some (Word.byteSize (w.take k)) := by
    rw [Word.byteOffset?_eq, if_pos h]
  unfold insertAtGap
  rw [ho, forms_eq_flatten, Option.map_some]
  simp only [Word.splice_byteOffset? ho]

theorem insertAtGap_of_length_lt (a : Allomorphs) {w : Word} {k : Nat} (h : w.length < k) :
    a.insertAtGap w k = none := by
  unfold insertAtGap
  rw [Word.byteOffset?_eq, if_neg (by omega), Option.map_none]

/-! ### At a position -/

/-- Solve at the gap of a position: from the start as it stands, from the end on
    the reversed word with the reversed forms. -/
def solveAt (a : Allomorphs) (w : Word) (p : Position)
    (solve : Allomorphs → Word → Position → Nat → Edited Word) : Edited Word :=
  if p.val = 0 then
    .error .zeroIndex
  else if p.fromEnd then
    solveReversed p w fun w' => solve a.reversed w' p.mirrored (p.mirrored.ordinal - 1)
  else
    solve a w p (p.ordinal - 1)

/-- The longest form at a position; the empty word if none stands there. -/
def formAt (a : Allomorphs) (w : Word) (p : Position) : Edited Word :=
  a.solveAt w p fun a w _ k => .ok (a.formAtGap w k)

/-- Does a form with letters stand at a position? -/
def isAt (a : Allomorphs) (w : Word) (p : Position) : Edited Bool :=
  (a.formAt w p).map fun found => !found.isEmpty

/-- The word without the form found at a position. -/
def removeAt (a : Allomorphs) (w : Word) (p : Position) : Edited Word :=
  a.solveAt w p fun a w _ k => .ok (a.removeAtGap w k)

/-- The word with the best fitting form put at a position, which has to name a
    gap of the word. -/
def insertAt (a : Allomorphs) (w : Word) (p : Position) : Edited Word :=
  a.solveAt w p fun a w p k =>
    match a.insertAtGap w k with
    | some result => .ok result
    | none => .error (.outOfRange p w.length)

end WordFormation.Allomorphs
