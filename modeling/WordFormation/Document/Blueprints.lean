/-
  WordFormation/Document/Blueprints.lean
  ======================================
  **Blueprints as documents.**

  A set of forms is written as the list of its entries, a form as a text and a
  nested set as a list again.  An operation is a record; the fields that are
  there tell an affix from a conditional, and a record with the fields of both is
  an affix.  A branch is a name, with what is in it under that name.
-/
import WordFormation.Document.Names

namespace WordFormation

/-! ### Forms -/

namespace Allomorphs

mutual

/-- The set that a document stands for. -/
def ofDocument? : Document → Option Allomorphs
  | .list entries => ofDocuments? entries
  | _ => none

def ofDocuments? : List Document → Option Allomorphs
  | [] => some .empty
  | .text letters :: more => do
    let more ← ofDocuments? more
    return .form letters.toList more
  | entry :: more => do
    let inner ← ofDocument? entry
    let more ← ofDocuments? more
    return .nested inner more

end

def toDocuments : Allomorphs → List Document
  | .empty => []
  | .form letters more => Word.toDocument letters :: more.toDocuments
  | .nested inner more => .list inner.toDocuments :: more.toDocuments

def toDocument (a : Allomorphs) : Document := .list a.toDocuments

def Entry.ofDocument? : Document → Option Entry
  | .text letters => some (.form letters.toList)
  | .list entries => (ofDocuments? entries).map .nested
  | _ => none

def Entry.toDocument : Entry → Document
  | .form letters => Word.toDocument letters
  | .nested inner => inner.toDocument

end Allomorphs

/-! ### Conditions -/

def EdgeTest.ofDocument? (d : Document) : Option EdgeTest := do
  match ← d.structure? ["negated", "anchor", "form"] with
  | [negated, edge, form] =>
    return {
      negated := ← Document.required? Document.bool? negated
      edge := ← Document.required? Edge.ofDocument? edge
      form := ← Document.required? Allomorphs.ofDocument? form }
  | _ => none

def EdgeTest.toDocument (t : EdgeTest) : Document :=
  .record [("negated", .bool t.negated), ("anchor", t.edge.toDocument),
    ("form", t.form.toDocument)]

/-- The condition that a document stands for, the list of its tests. -/
def EdgeCondition.ofDocument? (d : Document) : Option EdgeCondition :=
  (d.listOf? EdgeTest.ofDocument?).map EdgeCondition.mk

def EdgeCondition.toDocument (c : EdgeCondition) : Document :=
  .list (c.alternatives.map EdgeTest.toDocument)

/-! ### Operations -/

/-- The affix with the given fields. -/
def affixOfFields? (fields : List (String × Document)) : Option Operation := do
  let kind ← Document.required? AffixKind.ofDocument? (fields.lookup "operation")
  let polarity ← Document.optional? Polarity.ofDocument? (fields.lookup "operation_type")
  let operands ← Document.required? (Document.listOf? Allomorphs.ofDocument?)
    (fields.lookup "operands")
  return .affix kind polarity operands

mutual

def Operation.ofDocument? : Document → Option Operation
  | .record fields =>
    match affixOfFields? fields with
    | some operation => some operation
    | none => do
      let condition ← Document.required? EdgeCondition.ofDocument? (fields.lookup "condition")
      let met ← branchOfField? "then" fields
      let unmet ← branchOfField? "otherwise" fields
      return .conditional condition met unmet
  | _ => none

/-- The branch in the field with the given key. -/
def branchOfField? (key : String) : List (String × Document) → Option Branch
  | [] => none
  | (name, d) :: fields => if key == name then Branch.ofDocument? d else branchOfField? key fields

def Branch.ofDocument? : Document → Option Branch
  | .text "identity" => some .identity
  | .record [("identity", .null)] => some .identity
  | .record [("operations", .list operations)] => do
    let operations ← operationsOfDocuments? operations
    return .operations operations
  | .record [("short", polarity)] => do
    let polarity ← Polarity.ofDocument? polarity
    return .short polarity
  | _ => none

def operationsOfDocuments? : List Document → Option (List Operation)
  | [] => some []
  | d :: ds => do
    let operation ← Operation.ofDocument? d
    let operations ← operationsOfDocuments? ds
    return operation :: operations

end

mutual

def Operation.toDocument : Operation → Document
  | .affix kind polarity operands =>
    .record [("operation", kind.toDocument),
      ("operation_type", Document.ofOption Polarity.toDocument polarity),
      ("operands", .list (operands.map Allomorphs.toDocument))]
  | .conditional condition met unmet =>
    .record [("condition", condition.toDocument), ("then", met.toDocument),
      ("otherwise", unmet.toDocument)]

def Branch.toDocument : Branch → Document
  | .identity => .text "identity"
  | .operations operations => .record [("operations", .list (documentsOfOperations operations))]
  | .short polarity => .record [("short", polarity.toDocument)]

def documentsOfOperations : List Operation → List Document
  | [] => []
  | operation :: operations => operation.toDocument :: documentsOfOperations operations

end

/-! ### Groups and blueprints -/

def groupOfDocument? : Document → Option (List Operation)
  | .list operations => operationsOfDocuments? operations
  | _ => none

def documentOfGroup (group : List Operation) : Document := .list (documentsOfOperations group)

def Blueprint.ofDocument? (d : Document) : Option Blueprint := do
  match ← d.structure? ["context", "ordered_expressions"] with
  | [context, groups] =>
    return {
      context := ← Document.optional? Document.text? context
      groups := ← Document.required? (Document.listOf? groupOfDocument?) groups }
  | _ => none

def Blueprint.toDocument (b : Blueprint) : Document :=
  .record [("context", Document.ofOption .text b.context),
    ("ordered_expressions", .list (b.groups.map documentOfGroup))]

end WordFormation
