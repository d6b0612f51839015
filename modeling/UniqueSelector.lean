import UniqueSelector.Main
import UniqueSelector.Proofs.Selector.Conditions
import UniqueSelector.Proofs.Selector.Identifiers
import UniqueSelector.Proofs.Selector.Spelling
import UniqueSelector.Proofs.Selector.Semantics
import UniqueSelector.Proofs.Selector.Progression
import UniqueSelector.Proofs.Selector.Positions
import UniqueSelector.Proofs.Selector.Places
import UniqueSelector.Proofs.Selector.Composition
import UniqueSelector.Proofs.Selector.Normal
import UniqueSelector.Proofs.Dom.Links
import UniqueSelector.Proofs.Dom.Elements
import UniqueSelector.Proofs.Dom.Order
import UniqueSelector.Proofs.Dom.Places
import UniqueSelector.Proofs.Dom.Paths
import UniqueSelector.Proofs.Dom.Siblings
import UniqueSelector.Proofs.Dom.Loading
import UniqueSelector.Proofs.Dom.Twins
import UniqueSelector.Proofs.Synthesis.Features
import UniqueSelector.Proofs.Synthesis.Budget
import UniqueSelector.Proofs.Synthesis.Path
import UniqueSelector.Proofs.Synthesis.Place
import UniqueSelector.Proofs.Synthesis.Answers
import UniqueSelector.Proofs.Synthesis.Level
import UniqueSelector.Proofs.Synthesis.Fragments
import UniqueSelector.Proofs.Synthesis.Climb
import UniqueSelector.Proofs.Synthesis.Soundness
import UniqueSelector.Proofs.Synthesis.Uniqueness
import UniqueSelector.Proofs.Synthesis.Failure
import UniqueSelector.Proofs.Synthesis.ClosedForm
import UniqueSelector.Proofs.Synthesis.Observed
import UniqueSelector.Proofs.Synthesis.NonInterference
import UniqueSelector.Proofs.Dom.Consistency
import UniqueSelector.Proofs.Dom.Description
import UniqueSelector.Proofs.Dom.Preorder
import UniqueSelector.Proofs.Report.Records
import UniqueSelector.Proofs.Synthesis.Shape
import UniqueSelector.Proofs.Synthesis.Siblings
import UniqueSelector.Proofs.Report.Warnings
import UniqueSelector.Proofs.Synthesis.WithoutMatching
import UniqueSelector.Proofs.Synthesis.Transcript
import UniqueSelector.Proofs.Synthesis.Termination
import UniqueSelector.Proofs.Dom.Traversal
import UniqueSelector.Proofs.Uri.Pieces
import UniqueSelector.Proofs.Uri.PathEnd
import UniqueSelector.Proofs.Uri.Percent
import UniqueSelector.Proofs.Uri.Suffix
import UniqueSelector.Proofs.Synthesis.Link
import UniqueSelector.Proofs.Identifier.Spellings
import UniqueSelector.Proofs.Uri.Decoding
import UniqueSelector.Proofs.Dom.Relinking
import UniqueSelector.Proofs.Synthesis.Numbering
import UniqueSelector.Proofs.Text.Loop
import UniqueSelector.Proofs.Selector.Extent
import UniqueSelector.Proofs.Selector.Rounds
