import WordFormation.Rule.OfText
import WordFormation.RuleText.Grammar.Progress
import WordFormation.Document.Blueprints
import WordFormation.Document.Decisions
import WordFormation.Proofs.Plan
import WordFormation.Proofs.EditWindow
import WordFormation.Proofs.RoundTrip
import WordFormation.Proofs.RuleText.Canonical
import WordFormation.Proofs.SingleForm
import WordFormation.Proofs.Undoing
import WordFormation.Proofs.RuleText.Blanks
import WordFormation.Proofs.RuleText.TreeText
import WordFormation.Proofs.RuleText.NestedOptionals
import WordFormation.Proofs.EdgeMorphemes
import WordFormation.Proofs.RuleText.Operands
import WordFormation.Proofs.Totality
import WordFormation.Proofs.RuleText.Nesting
import WordFormation.Proofs.RuleText.Semicolons
import WordFormation.Proofs.Sequencing
import WordFormation.Proofs.MirrorImage
import WordFormation.Proofs.Interleaving
import WordFormation.Proofs.Documents
import WordFormation.Proofs.RuleText.PostfixChains
import WordFormation.Proofs.RuleText.Spacing
import WordFormation.Proofs.CompoundFrame
import WordFormation.Proofs.EditFailures
import WordFormation.Proofs.EditUndoing
import WordFormation.Proofs.Detection
import WordFormation.Proofs.RuleText.Expressions
import WordFormation.Proofs.Insertion
import WordFormation.Proofs.RuleText.OptionalParts
import WordFormation.Proofs.RuleText.Depth
import WordFormation.Proofs.RuleText.Parentheses
import WordFormation.Proofs.RuleText.ErrorPlaces
import WordFormation.Proofs.ShortActions
import WordFormation.Proofs.EnsureRules
import WordFormation.Proofs.EmptyStems
import WordFormation.Proofs.DecisionLeaves
import WordFormation.Proofs.Descriptors
import WordFormation.Proofs.WordInside
import WordFormation.Proofs.StemBoundaries
import WordFormation.Proofs.Linking
import WordFormation.Proofs.WrittenDecisions
import WordFormation.Proofs.OperandCounts
import WordFormation.Proofs.Records
import WordFormation.Proofs.Antonyms
import WordFormation.Proofs.Toggling
import WordFormation.Proofs.FormAlgebra
import WordFormation.Proofs.Remembering
import WordFormation.Proofs.ReadingTurns
import WordFormation.Proofs.CharacterCuts
import WordFormation.Proofs.RuleText.Repetitions
