/-
  WordFormation/Proofs/Documents.lean
  ===================================
  **What is written into a document is read back from it.**

  A document does not say of what kind it is.  Where a value can be of several
  kinds, reading tries them in turn and takes the first that fits, and a structure
  fits as a record and as a list of its fields.  So it is not enough that each
  kind reads its own documents; no kind that is tried earlier may fit them.

    * An entry of a set of forms is a text or a list, never both.
    * An operation is tried as an affix first.  What is written for a conditional
      has no field for a kind of affix (`affixOfFields?_conditional`).
    * A decision is tried as one clause first.  A list of clauses could be taken
      for the fields of a clause if there are three of them, but in place of a
      pattern it has a record (`clauseOfItems?_documentsOfClauses`).

  The rest is one induction over the forms, one over the operations with their
  branches, and one over the clauses with their outcomes.  Since reading inverts
  writing, no two values are written as the same document.
-/
import WordFormation.Document.Blueprints
import WordFormation.Document.Decisions
import Mathlib.Logic.Function.Basic

namespace WordFormation

/-! ### Fields and lists -/

namespace Document

variable {α : Type} {decode? : Document → Option α} {encode : α → Document}

theorem mapM_map (xs : List α) (h : ∀ x ∈ xs, decode? (encode x) = some x) :
    (xs.map encode).mapM decode? = some xs := by
  induction xs with
  | nil => rfl
  | cons x xs ih =>
    have hx : decode? (encode x) = some x := h x List.mem_cons_self
    have hxs : (xs.map encode).mapM decode? = some xs :=
      ih fun y hy => h y (List.mem_cons_of_mem x hy)
    rw [List.map_cons, List.mapM_cons, hx, hxs]
    rfl

theorem listOf?_map (xs : List α) (h : ∀ x ∈ xs, decode? (encode x) = some x) :
    listOf? decode? (.list (xs.map encode)) = some xs :=
  mapM_map xs h

/-- A field that may hold nothing is read back if nothing else is written as
    nothing. -/
theorem optional?_ofOption (h : ∀ x, decode? (encode x) = some x) (hnull : ∀ x, encode x ≠ null)
    (o : Option α) : optional? decode? (some (ofOption encode o)) = some o := by
  cases o with
  | none => rfl
  | some x =>
    have hx : optional? decode? (some (encode x)) = (decode? (encode x)).map some := by
      unfold optional?
      split
      · next hfield => cases hfield
      · next hfield => exact absurd (Option.some.inj hfield) (hnull x)
      · next d _ hfield => rw [Option.some.inj hfield]
    rw [ofOption, hx, h x]
    rfl

/-- What is read back is written for nothing else. -/
theorem injective_of_read_back (h : ∀ x, decode? (encode x) = some x) :
    Function.Injective encode := by
  intro x y heq
  apply Option.some.inj
  calc some x = decode? (encode x) := (h x).symm
    _ = decode? (encode y) := by rw [heq]
    _ = some y := h y

end Document

open Document

/-! ### Forms -/

namespace Allomorphs

theorem ofDocuments?_toDocuments (a : Allomorphs) : ofDocuments? a.toDocuments = some a := by
  induction a with
  | empty => simp only [toDocuments, ofDocuments?]
  | form letters more ih =>
    simp [toDocuments, Word.toDocument, ofDocuments?, ih]
  | nested inner more ihInner ihMore =>
    simp [toDocuments, ofDocuments?, ofDocument?, ihInner, ihMore]

@[simp] theorem ofDocument?_toDocument (a : Allomorphs) : ofDocument? a.toDocument = some a := by
  rw [toDocument, ofDocument?, ofDocuments?_toDocuments]

end Allomorphs

/-! ### Conditions -/

@[simp] theorem EdgeTest.ofDocument?_toDocument (t : EdgeTest) :
    EdgeTest.ofDocument? t.toDocument = some t := by
  simp [EdgeTest.ofDocument?, EdgeTest.toDocument, structure?, required?, bool?, List.lookup_cons]

@[simp] theorem EdgeCondition.ofDocument?_toDocument (c : EdgeCondition) :
    EdgeCondition.ofDocument? c.toDocument = some c := by
  have htests := listOf?_map c.alternatives fun t _ => EdgeTest.ofDocument?_toDocument t
  rw [EdgeCondition.ofDocument?, EdgeCondition.toDocument, htests]
  rfl

/-! ### Operations -/

theorem affixOfFields?_affix (kind : AffixKind) (polarity : Option Polarity)
    (operands : List Allomorphs) :
    affixOfFields? [("operation", kind.toDocument),
      ("operation_type", ofOption Polarity.toDocument polarity),
      ("operands", .list (operands.map Allomorphs.toDocument))] =
        some (.affix kind polarity operands) := by
  have hpolarity : optional? Polarity.ofDocument? (some (ofOption Polarity.toDocument polarity)) =
      some polarity :=
    optional?_ofOption Polarity.ofDocument?_toDocument (fun p h => by cases h) polarity
  have hoperands := listOf?_map operands fun a _ => Allomorphs.ofDocument?_toDocument a
  simp [affixOfFields?, required?, List.lookup_cons, hpolarity, hoperands]

/-- What is written for a conditional is no affix. -/
theorem affixOfFields?_conditional (condition met unmet : Document) :
    affixOfFields? [("condition", condition), ("then", met), ("otherwise", unmet)] = none := rfl

mutual

@[simp] theorem Operation.ofDocument?_toDocument :
    ∀ operation : Operation, Operation.ofDocument? operation.toDocument = some operation
  | .affix kind polarity operands => by
    rw [Operation.toDocument, Operation.ofDocument?, affixOfFields?_affix]
  | .conditional condition met unmet => by
    have hmet := Branch.ofDocument?_toDocument met
    have hunmet := Branch.ofDocument?_toDocument unmet
    rw [Operation.toDocument, Operation.ofDocument?, affixOfFields?_conditional]
    simp [branchOfField?, required?, hmet, hunmet]

@[simp] theorem Branch.ofDocument?_toDocument :
    ∀ branch : Branch, Branch.ofDocument? branch.toDocument = some branch
  | .identity => by
    simp only [Branch.toDocument, Branch.ofDocument?]
  | .operations operations => by
    have hoperations := operationsOfDocuments?_documentsOfOperations operations
    simp [Branch.toDocument, Branch.ofDocument?, hoperations]
  | .short p => by
    simp [Branch.toDocument, Branch.ofDocument?]

theorem operationsOfDocuments?_documentsOfOperations :
    ∀ operations : List Operation,
      operationsOfDocuments? (documentsOfOperations operations) = some operations
  | [] => by
    simp only [documentsOfOperations, operationsOfDocuments?]
  | operation :: operations => by
    have hoperation := Operation.ofDocument?_toDocument operation
    have hoperations := operationsOfDocuments?_documentsOfOperations operations
    simp [documentsOfOperations, operationsOfDocuments?, hoperation, hoperations]

end

/-! ### Blueprints -/

theorem groupOfDocument?_documentOfGroup (group : List Operation) :
    groupOfDocument? (documentOfGroup group) = some group :=
  operationsOfDocuments?_documentsOfOperations group

theorem Blueprint.ofDocument?_toDocument (b : Blueprint) :
    Blueprint.ofDocument? b.toDocument = some b := by
  have hcontext : optional? text? (some (ofOption .text b.context)) = some b.context :=
    optional?_ofOption (fun s : String => by rfl) (fun s h => by cases h) b.context
  have hgroups := listOf?_map b.groups fun g _ => groupOfDocument?_documentOfGroup g
  simp [Blueprint.ofDocument?, Blueprint.toDocument, structure?, required?, List.lookup_cons,
    hcontext, hgroups]

/-! ### Decisions -/

/-- The guard of a clause is read back, whatever is decided under it. -/
theorem GuardSpec.ofFields?_toFields (g : GuardSpec) (outcome : Document) :
    GuardSpec.ofFields? ((g.toFields ++ [("then", outcome)]).lookup "when")
      ((g.toFields ++ [("then", outcome)]).lookup "feature") = some g := by
  obtain ⟨pattern, feature⟩ := g
  cases pattern <;> cases feature <;> rfl

theorem outcomeOfField?_toFields (g : GuardSpec) (outcome : Document) :
    outcomeOfField? "then" (g.toFields ++ [("then", outcome)]) = Outcome.ofDocument? outcome := by
  obtain ⟨pattern, feature⟩ := g
  cases pattern <;> cases feature <;>
    simp [GuardSpec.toFields, fieldIfSome, outcomeOfField?]

/-- A clause is written as a record, which is no pattern.  So a list of clauses is
    never taken for the fields of one. -/
theorem clauseOfItems?_documentsOfClauses (clauses : List (Clause GuardSpec)) :
    clauseOfItems? (documentsOfClauses clauses) = none := by
  rcases clauses with _ | ⟨⟨guard, outcome⟩, clauses⟩
  · simp only [documentsOfClauses, clauseOfItems?]
  · rcases clauses with _ | ⟨second, _ | ⟨third, _ | ⟨fourth, clauses⟩⟩⟩ <;>
      simp [documentsOfClauses, clauseOfItems?, Clause.toDocument, GuardSpec.ofFields?, optional?,
        text?, Clause.ofParts?]

/-- A record is read as a clause, and as a decision of this clause alone. -/
theorem Outcome.ofDocument?_record (fields : List (String × Document)) :
    Outcome.ofDocument? (.record fields) =
      (Clause.ofDocument? (.record fields)).map fun clause => .nested (.single clause) := by
  rw [Outcome.ofDocument?, Clause.ofDocument?]
  cases Clause.ofParts? (GuardSpec.ofFields? (fields.lookup "when") (fields.lookup "feature"))
    (outcomeOfField? "then" fields) <;> rfl

mutual

theorem Outcome.ofDocument?_decision :
    ∀ decision : DecisionSpec,
      Outcome.ofDocument? (DecisionSpec.toDocument decision) = some (.nested decision)
  | .single (.guarded guard outcome) => by
    have hclause := Clause.ofDocument?_toDocument (.guarded guard outcome)
    rw [DecisionSpec.toDocument, Clause.toDocument, Outcome.ofDocument?_record]
    rw [Clause.toDocument] at hclause
    rw [hclause, Option.map_some]
  | .several clauses => by
    have hclauses := clausesOfItems?_documentsOfClauses clauses
    simp [DecisionSpec.toDocument, Outcome.ofDocument?, clauseOfItems?_documentsOfClauses, hclauses]

theorem Clause.ofDocument?_toDocument :
    ∀ clause : Clause GuardSpec, Clause.ofDocument? (Clause.toDocument clause) = some clause
  | .guarded guard outcome => by
    have houtcome := Outcome.ofDocument?_toDocument outcome
    simp [Clause.toDocument, Clause.ofDocument?, GuardSpec.ofFields?_toFields,
      outcomeOfField?_toFields, houtcome, Clause.ofParts?]

theorem Outcome.ofDocument?_toDocument :
    ∀ outcome : Outcome GuardSpec, Outcome.ofDocument? (Outcome.toDocument outcome) = some outcome
  | .literal value => by
    simp only [Outcome.toDocument, Outcome.ofDocument?]
  | .nested decision => by
    rw [Outcome.toDocument, Outcome.ofDocument?_decision decision]

theorem clausesOfItems?_documentsOfClauses :
    ∀ clauses : List (Clause GuardSpec),
      clausesOfItems? (documentsOfClauses clauses) = some clauses
  | [] => by
    simp only [documentsOfClauses, clausesOfItems?]
  | clause :: clauses => by
    have hclause := Clause.ofDocument?_toDocument clause
    have hclauses := clausesOfItems?_documentsOfClauses clauses
    simp [documentsOfClauses, clausesOfItems?, hclause, hclauses]

end

theorem DecisionSpec.ofDocument?_toDocument (d : DecisionSpec) :
    DecisionSpec.ofDocument? d.toDocument = some d := by
  rw [DecisionSpec.ofDocument?, Outcome.ofDocument?_decision d]
  rfl

/-! ### Blueprints and decisions -/

/-- **Every blueprint and every decision is read back from its document**, whatever
    is nested in it.  So a document is written for one blueprint at most, and for
    one decision at most. -/
theorem documents_read_back :
    (∀ b : Blueprint, Blueprint.ofDocument? b.toDocument = some b) ∧
    (∀ d : DecisionSpec, DecisionSpec.ofDocument? d.toDocument = some d) ∧
    Function.Injective Blueprint.toDocument ∧ Function.Injective DecisionSpec.toDocument :=
  ⟨Blueprint.ofDocument?_toDocument, DecisionSpec.ofDocument?_toDocument,
    injective_of_read_back Blueprint.ofDocument?_toDocument,
    injective_of_read_back DecisionSpec.ofDocument?_toDocument⟩

end WordFormation
