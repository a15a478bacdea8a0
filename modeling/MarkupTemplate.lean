import MarkupTemplate.Decimal.Positional
import MarkupTemplate.Decimal.Shortest
import MarkupTemplate.Dom.Node
import MarkupTemplate.Dom.Path
import MarkupTemplate.Dom.Serialize
import MarkupTemplate.Dom.Void
import MarkupTemplate.Engine.Basic
import MarkupTemplate.Engine.Cache
import MarkupTemplate.Engine.Session
import MarkupTemplate.Error
import MarkupTemplate.KeyedList
import MarkupTemplate.Markup.Attribute
import MarkupTemplate.Markup.Extent
import MarkupTemplate.Markup.Fault
import MarkupTemplate.Markup.Forest
import MarkupTemplate.Markup.Lexeme
import MarkupTemplate.Markup.Reference
import MarkupTemplate.Markup.Token
import MarkupTemplate.Proofs.Engine.Chronicle
import MarkupTemplate.Proofs.Engine.Faithfulness
import MarkupTemplate.Proofs.Engine.Soundness
import MarkupTemplate.Proofs.KeyedLists
import MarkupTemplate.Proofs.Markup.Delivery
import MarkupTemplate.Proofs.Markup.Enclosing
import MarkupTemplate.Proofs.Markup.Labels
import MarkupTemplate.Proofs.Markup.Lenient
import MarkupTemplate.Proofs.Markup.Locality
import MarkupTemplate.Proofs.Markup.Preface
import MarkupTemplate.Proofs.Markup.Reading
import MarkupTemplate.Proofs.Markup.RoundTrip
import MarkupTemplate.Proofs.Markup.Spacing
import MarkupTemplate.Proofs.Markup.Tags
import MarkupTemplate.Proofs.Rendering.Agreement
import MarkupTemplate.Proofs.Rendering.CallOrder
import MarkupTemplate.Proofs.Rendering.CallSites
import MarkupTemplate.Proofs.Rendering.Calls
import MarkupTemplate.Proofs.Rendering.Exactness
import MarkupTemplate.Proofs.Rendering.Folding
import MarkupTemplate.Proofs.Rendering.NodeFolding
import MarkupTemplate.Proofs.Rendering.Observation
import MarkupTemplate.Proofs.Rendering.Outline
import MarkupTemplate.Proofs.Rendering.Prompt
import MarkupTemplate.Proofs.Rendering.References
import MarkupTemplate.Proofs.Rendering.Slots
import MarkupTemplate.Proofs.Rendering.StaticMarkup
import MarkupTemplate.Proofs.Rendering.Timing
import MarkupTemplate.Proofs.Rendering.Verbatim
import MarkupTemplate.Proofs.Rendering.Walk
import MarkupTemplate.Proofs.Suspension.AttemptLaws
import MarkupTemplate.Proofs.Suspension.Ends
import MarkupTemplate.Proofs.Suspension.JobAlgebra
import MarkupTemplate.Proofs.Suspension.Logs
import MarkupTemplate.Proofs.Template.Acceptance
import MarkupTemplate.Proofs.Template.Ampersands
import MarkupTemplate.Proofs.Template.Edges
import MarkupTemplate.Proofs.Template.Markers
import MarkupTemplate.Proofs.Template.NodeSlots
import MarkupTemplate.Proofs.Template.Nodes
import MarkupTemplate.Proofs.Template.Occurrences
import MarkupTemplate.Proofs.Template.Plain
import MarkupTemplate.Proofs.Template.TokenSlots
import MarkupTemplate.Proofs.Template.Written
import MarkupTemplate.Proofs.Text.Blanks
import MarkupTemplate.Rendering.Backend
import MarkupTemplate.Rendering.Render
import MarkupTemplate.Suspension.Attempt
import MarkupTemplate.Suspension.Job
import MarkupTemplate.Suspension.Join
import MarkupTemplate.Suspension.Rendered
import MarkupTemplate.Template.Component
import MarkupTemplate.Template.ElementMarkup
import MarkupTemplate.Template.Fold
import MarkupTemplate.Template.Fragments
import MarkupTemplate.Template.Marker
import MarkupTemplate.Template.OfMarkup
import MarkupTemplate.Template.Props
import MarkupTemplate.Template.Tree
import MarkupTemplate.Template.Value
import MarkupTemplate.Text.Blank
import MarkupTemplate.Text.Numeral
import MarkupTemplate.Text.Split
import MarkupTemplate.Text.Uppercase
import MarkupTemplate.Proofs.Suspension.CombinatorLaws
import MarkupTemplate.Proofs.Suspension.Rounds
import MarkupTemplate.Proofs.Markup.Linear
import MarkupTemplate.Proofs.Markup.Nesting
import MarkupTemplate.Proofs.Markup.VoidTags
import MarkupTemplate.Proofs.Template.Decoding
import MarkupTemplate.Proofs.Template.Subtrees
import MarkupTemplate.Proofs.Rendering.FoldedForm
import MarkupTemplate.Proofs.Rendering.Missing
import MarkupTemplate.Proofs.Suspension.Failures
import MarkupTemplate.Proofs.Dom.Content
import MarkupTemplate.Proofs.Dom.Breaks
import MarkupTemplate.Proofs.Text.Numerals
import MarkupTemplate.Proofs.Markup.TextReferences
import MarkupTemplate.Proofs.Suspension.Results
import MarkupTemplate.Proofs.Rendering.Outputs
import MarkupTemplate.Proofs.Dom.Flatness
import MarkupTemplate.Proofs.Dom.Appending
import MarkupTemplate.Proofs.Rendering.Transparency
import MarkupTemplate.Proofs.Template.SegmentBlanks
