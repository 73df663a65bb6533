/-
  WordFormation/Document.lean
  ===========================
  **Documents: values made of texts, lists and records.**

  Rules, conditions and alphabets can be kept in documents.  This module knows
  the shapes that their parts share: names of a fixed choice, lists of equal
  parts, and structures.  A structure is a record, of which fields that are not
  known are ignored, or the list of exactly its fields.  A name without anything
  in it may also be written as a record with this name and nothing under it.
-/

namespace WordFormation

inductive Document where
  | null
  | bool (value : Bool)
  /-- A decimal number, `mantissa` over ten to the power `scale`. -/
  | number (mantissa : Int) (scale : Nat)
  | text (value : String)
  | list (items : List Document)
  | record (fields : List (String × Document))

namespace Document

instance : Inhabited Document := ⟨null⟩

/-! ### Simple values -/

def bool? : Document → Option Bool
  | bool value => some value
  | _ => none

def text? : Document → Option String
  | text value => some value
  | _ => none

def list? : Document → Option (List Document)
  | list items => some items
  | _ => none

/-- Decode all items of a list. -/
def listOf? {α : Type} (decode? : Document → Option α) (d : Document) : Option (List α) := do
  let items ← d.list?
  items.mapM decode?

/-! ### Fields -/

/-- A field that has to be there. -/
def required? {α : Type} (decode? : Document → Option α) (field : Option Document) : Option α :=
  match field with
  | some d => decode? d
  | none => none

/-- A field that may be missing, or be there with nothing in it. -/
def optional? {α : Type} (decode? : Document → Option α) (field : Option Document) :
    Option (Option α) :=
  match field with
  | none => some none
  | some null => some none
  | some d => (decode? d).map some

/-- What a field holds that may be missing. -/
def ofOption {α : Type} (encode : α → Document) : Option α → Document
  | none => null
  | some value => encode value

/-- A field that is left out where there is nothing for it. -/
def fieldIfSome {α : Type} (key : String) (encode : α → Document) :
    Option α → List (String × Document)
  | none => []
  | some value => [(key, encode value)]

/-- The fields of a structure with the given keys, each where it is there. -/
def structure? (keys : List String) : Document → Option (List (Option Document))
  | record fields => some (keys.map fun key => fields.lookup key)
  | list items => if items.length = keys.length then some (items.map some) else none
  | _ => none

/-! ### Names -/

/-- A choice among values with names. -/
def named? {α : Type} (names : List (String × α)) : Document → Option α
  | text name => names.lookup name
  | record [(name, null)] => names.lookup name
  | _ => none

end Document

end WordFormation
