/-
  WordFormation/Allomorphs.lean
  =============================
  **The alternative realisations of one morphological unit.**

  A unit of meaning may surface in several forms: the plural of a noun as `s` or
  `es`, a linking element as `o` or as nothing.  `Allomorphs` keeps all of them,
  in the order in which they were written, and a set may stand inside another as
  a single entry.  Nothing is decided here: every operation yields a new set, and
  the alternatives are narrowed down only when one of them is put into a word.

  `flatten` is the list of forms from left to right, nested sets spelled out.
  `Cursor` reads the same list one form at a time and holds the sets that are
  still to be read.  The two agree from every point of the reading on
  (`Cursor.toList_eq`), so `forms`, which reads with a cursor, is `flatten`
  (`forms_eq_flatten`).
-/
import WordFormation.Selection

namespace WordFormation

/-- Alternative forms in their written order. -/
inductive Allomorphs where
  | empty
  | form (letters : Word) (more : Allomorphs)
  /-- A set standing as one entry, then further ones. -/
  | nested (inner more : Allomorphs)
deriving DecidableEq

namespace Allomorphs

instance : Inhabited Allomorphs := ⟨empty⟩

/-! ### Entries -/

inductive Entry where
  | form (letters : Word)
  | nested (inner : Allomorphs)
deriving DecidableEq

/-- The entries of a set, nested ones kept whole. -/
def entries : Allomorphs → List Entry
  | empty => []
  | form letters more => .form letters :: more.entries
  | nested inner more => .nested inner :: more.entries

def ofEntries : List Entry → Allomorphs
  | [] => empty
  | .form letters :: more => form letters (ofEntries more)
  | .nested inner :: more => nested inner (ofEntries more)

@[simp] theorem entries_ofEntries (es : List Entry) : (ofEntries es).entries = es := by
  induction es with
  | nil => rfl
  | cons e es ih => cases e <;> simp [ofEntries, entries, ih]

@[simp] theorem ofEntries_entries (a : Allomorphs) : ofEntries a.entries = a := by
  induction a with
  | empty => rfl
  | form letters more ih => simp [entries, ofEntries, ih]
  | nested inner more _ ih => simp [entries, ofEntries, ih]

def only (letters : Word) : Allomorphs := form letters empty

/-- The set of the given forms, none of them nested. -/
def ofForms : List Word → Allomorphs
  | [] => empty
  | letters :: more => form letters (ofForms more)

/-! ### The forms of a set -/

/-- All forms from left to right, nested sets spelled out where they stand. -/
def flatten : Allomorphs → List Word
  | empty => []
  | form letters more => letters :: more.flatten
  | nested inner more => inner.flatten ++ more.flatten

/-- The number of entries at any depth. -/
def size : Allomorphs → Nat
  | empty => 0
  | form _ more => more.size + 1
  | nested inner more => inner.size + more.size + 1

def sizeOfAll : List Allomorphs → Nat
  | [] => 0
  | a :: more => a.size + sizeOfAll more

/-- A point in the reading of a set: the sets whose reading was begun and not
    finished, each without the entries already read, the innermost first. -/
structure Cursor where
  pending : List Allomorphs

namespace Cursor

/-- The first form of a set in front of pending ones, with what is pending once
    it is read; nothing if the set holds no form. -/
def enter? : Allomorphs → List Allomorphs → Option (Word × List Allomorphs)
  | empty, _ => none
  | form letters more, pending => some (letters, more :: pending)
  | nested inner more, pending =>
    match enter? inner (more :: pending) with
    | some found => some found
    | none => enter? more pending

/-- The next form of a reading and the reading after it. -/
def next? : List Allomorphs → Option (Word × List Allomorphs)
  | [] => none
  | a :: pending =>
    match enter? a pending with
    | some found => some found
    | none => next? pending

/-- The forms met in at most `n` steps. -/
def take : Nat → List Allomorphs → List Word
  | 0, _ => []
  | n + 1, pending =>
    match next? pending with
    | some (letters, later) => letters :: take n later
    | none => []

/-- All forms still to be read; no reading has more of them than it has
    entries. -/
def toList (c : Cursor) : List Word :=
  take (sizeOfAll c.pending) c.pending

theorem enter?_spec (a : Allomorphs) (pending : List Allomorphs) :
    match enter? a pending with
    | some (letters, later) =>
      a.flatten ++ pending.flatMap flatten = letters :: later.flatMap flatten ∧
        sizeOfAll later < a.size + sizeOfAll pending
    | none => a.flatten = [] := by
  induction a generalizing pending with
  | empty => rfl
  | form letters more =>
    simp only [enter?, flatten, size, sizeOfAll]
    exact ⟨rfl, by omega⟩
  | nested inner more ihInner ihMore =>
    have h := ihInner (more :: pending)
    have h' := ihMore pending
    simp only [enter?]
    cases hi : enter? inner (more :: pending) with
    | some found =>
      rw [hi] at h
      simp only [List.flatMap_cons, sizeOfAll] at h
      simp only [flatten, size, List.append_assoc]
      exact ⟨h.1, by omega⟩
    | none =>
      rw [hi] at h
      cases hm : enter? more pending with
      | some found =>
        rw [hm] at h'
        simp only [flatten, size, List.append_assoc]
        exact ⟨by rw [h]; exact h'.1, by omega⟩
      | none =>
        rw [hm] at h'
        simp only [flatten]
        rw [h, h']; rfl

theorem next?_spec (pending : List Allomorphs) :
    match next? pending with
    | some (letters, later) =>
      pending.flatMap flatten = letters :: later.flatMap flatten ∧
        sizeOfAll later < sizeOfAll pending
    | none => pending.flatMap flatten = [] := by
  induction pending with
  | nil => rfl
  | cons a pending ih =>
    have h := enter?_spec a pending
    simp only [next?]
    cases ha : enter? a pending with
    | some found =>
      rw [ha] at h
      simp only [List.flatMap_cons, sizeOfAll]
      exact h
    | none =>
      rw [ha] at h
      cases hp : next? pending with
      | some found =>
        rw [hp] at ih
        simp only [List.flatMap_cons, sizeOfAll]
        exact ⟨by rw [h]; exact ih.1, by omega⟩
      | none =>
        rw [hp] at ih
        simp only [List.flatMap_cons]
        rw [h, ih]; rfl

theorem take_eq (n : Nat) (pending : List Allomorphs) (h : sizeOfAll pending ≤ n) :
    take n pending = pending.flatMap flatten := by
  induction n generalizing pending with
  | zero =>
    have hn := next?_spec pending
    cases hp : next? pending with
    | some found => rw [hp] at hn; omega
    | none => rw [hp] at hn; rw [hn]; rfl
  | succ n ih =>
    have hn := next?_spec pending
    simp only [take]
    cases hp : next? pending with
    | some found =>
      rw [hp] at hn
      rw [hn.1, ← ih found.2 (by omega)]
    | none => rw [hp] at hn; rw [hn]

/-- From any point on, a reading yields the forms of the pending sets, the
    innermost first. -/
theorem toList_eq (c : Cursor) : c.toList = c.pending.flatMap flatten :=
  take_eq _ _ (Nat.le_refl _)

end Cursor

/-- The forms of a set in reading order. -/
def forms (a : Allomorphs) : List Word := (Cursor.mk [a]).toList

@[simp] theorem forms_eq_flatten (a : Allomorphs) : a.forms = a.flatten := by
  simp [forms, Cursor.toList_eq]

@[simp] theorem flatten_ofForms (fs : List Word) : (ofForms fs).flatten = fs := by
  induction fs with
  | nil => rfl
  | cons f fs ih => simp [ofForms, flatten, ih]

@[simp] theorem flatten_only (letters : Word) : (only letters).flatten = [letters] := rfl

/-! ### Combining sets -/

/-- Both sets of alternatives side by side. -/
def union (a : Allomorphs) (b : Entry) : Allomorphs := nested a (ofEntries [b])

/-- The first form with the first, the second with the second, as far as both
    go. -/
def zip (a b : Allomorphs) : Allomorphs :=
  ofForms (List.zipWith (· ++ ·) a.forms b.forms)

/-- Every form of the one followed by every form of the other. -/
def cross (a b : Allomorphs) : Allomorphs :=
  ofForms (a.forms.flatMap fun front => b.forms.map (front ++ ·))

def reversed (a : Allomorphs) : Allomorphs := ofForms (a.forms.map List.reverse)

@[simp] theorem flatten_reversed (a : Allomorphs) :
    a.reversed.flatten = a.flatten.map List.reverse := by
  simp [reversed]

theorem flatten_reversed_reversed (a : Allomorphs) : a.reversed.reversed.flatten = a.flatten := by
  rw [flatten_reversed, flatten_reversed, List.map_map]
  exact List.map_id'' List.reverse_reverse a.flatten

def maxForm (a : Allomorphs) : Option Word := longest a.forms

/-- The forms with bars between them. -/
def display (a : Allomorphs) : String :=
  String.intercalate "|" (a.forms.map String.ofList)

end Allomorphs

end WordFormation
