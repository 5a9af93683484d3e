import RecordGrammar.Main
import RecordGrammar.Proofs.Shape.Edit
import RecordGrammar.Proofs.Grammar.KeyRule
import RecordGrammar.Proofs.Grammar.ItemRule
import RecordGrammar.Proofs.Grammar.Admits
import RecordGrammar.Proofs.Cycle
import RecordGrammar.Proofs.FirstCycle
import RecordGrammar.Proofs.JsonSchema.References
import RecordGrammar.Proofs.Reporting
import RecordGrammar.Proofs.JsonSchema.Descent
import RecordGrammar.Proofs.Descent
import RecordGrammar.Proofs.Grammar.FirstRules
import RecordGrammar.Proofs.Grammar.Order
import RecordGrammar.Proofs.Grammar.ThinkingBlock
import RecordGrammar.Proofs.Sample
import RecordGrammar.Proofs.Json.Arranged
import RecordGrammar.Proofs.Model.Plain
import RecordGrammar.Proofs.JsonSchema.Definitions
import RecordGrammar.Proofs.Model.Definitions
import RecordGrammar.Proofs.Model.Document
import RecordGrammar.Proofs.Model.References
import RecordGrammar.Proofs.JsonSchema.Validation
import RecordGrammar.Proofs.Model.Accepted
import RecordGrammar.Proofs.JsonSchema.Reading
import RecordGrammar.Proofs.JsonSchema.Listed
import RecordGrammar.Proofs.Model.Agreement
import RecordGrammar.Proofs.JsonSchema.DeclaredBounds
import RecordGrammar.Proofs.JsonSchema.Stops
import RecordGrammar.Proofs.JsonSchema.Safety
import RecordGrammar.Proofs.JsonSchema.Transparency
import RecordGrammar.Proofs.JsonSchema.Walk
import RecordGrammar.Proofs.Json.Reader
import RecordGrammar.Proofs.Command.Delivery
import RecordGrammar.Proofs.Grammar.ThinkingText
import RecordGrammar.Proofs.Grammar.PatternText
import RecordGrammar.Proofs.Grammar.DeclaredLimits
import RecordGrammar.Proofs.Grammar.KeyReferences
import RecordGrammar.Proofs.Grammar.ArrayText
import RecordGrammar.Proofs.Grammar.Policies
import RecordGrammar.Proofs.Grammar.ThinkingExtension
import RecordGrammar.Proofs.Shape.Independence
import RecordGrammar.Proofs.Grammar.Numbers
import RecordGrammar.Proofs.Sample.FirstElement
import RecordGrammar.Proofs.Sample.Lines
import RecordGrammar.Proofs.Grammar.ClassText
import RecordGrammar.Proofs.Grammar.TextForm
import RecordGrammar.Proofs.Command.Statistics
