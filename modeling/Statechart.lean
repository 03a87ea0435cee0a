import Statechart.Action
import Statechart.Config
import Statechart.Config.LongForm
import Statechart.Delay
import Statechart.Event
import Statechart.Format.Decoding
import Statechart.Format.Printing
import Statechart.Format.Reading
import Statechart.Generate.Assembly
import Statechart.Generate.Draw
import Statechart.Generate.Laws
import Statechart.Generate.Name
import Statechart.Generate.Pool
import Statechart.Generate.Sample
import Statechart.Generate.Seeded
import Statechart.Generate.Shape
import Statechart.Import.Build
import Statechart.Import.Index
import Statechart.Import.Problem
import Statechart.Json.Document
import Statechart.Json.Numeral
import Statechart.Json.Printer
import Statechart.Json.Quoted
import Statechart.Json.Reader
import Statechart.Json.Value
import Statechart.Keyed
import Statechart.Number.Binary64
import Statechart.Number.Shortest
import Statechart.Proofs.Delay
import Statechart.Proofs.Export.Grouping
import Statechart.Proofs.Export.Reimport
import Statechart.Proofs.Export.Roundtrip
import Statechart.Proofs.Export.Sections
import Statechart.Proofs.Import.Build
import Statechart.Proofs.Import.Declared
import Statechart.Proofs.Import.Index
import Statechart.Proofs.Import.Problems
import Statechart.Proofs.Import.Soundness
import Statechart.Proofs.Keyed
import Statechart.Proofs.Position
import Statechart.Proofs.Revision.Settled
import Statechart.Proofs.Revision.Step
import Statechart.Revision.Edit
import Statechart.Revision.Pending
import Statechart.Revision.Rule
import Statechart.Revision.Standard
import Statechart.Revision.Tree
import Statechart.State
import Statechart.State.Inventory
import Statechart.State.Walk
import Statechart.Text.Cut
import Statechart.Text.Decimal
import Statechart.Transition
import Statechart.Transition.Category
import Statechart.Proofs.Revision.Calls
import Statechart.Proofs.Revision.Ancestors
import Statechart.Proofs.Revision.Frame
import Statechart.Proofs.Revision.Regular
import Statechart.Proofs.Import.Navigation
import Statechart.Proofs.Walk
import Statechart.Proofs.Export.Validation
import Statechart.Proofs.Generate.Assembly
import Statechart.Proofs.Json.Numeral
import Statechart.Proofs.Json.Quoted
import Statechart.Proofs.Json.Reader
import Statechart.Proofs.Format.Decoding
import Statechart.Proofs.Format.Payload
import Statechart.Proofs.Format.Definition
import Statechart.Proofs.Format.Config
import Statechart.Proofs.Format.Decoded
import Statechart.Proofs.Format.Roundtrip
import Statechart.Proofs.Generate.Pool
import Statechart.Proofs.Generate.Claims
import Statechart.Proofs.Generate.WellFormed
import Statechart.Proofs.Category
import Statechart.Proofs.Import.Provenance
import Statechart.Proofs.Revision.Eager
import Statechart.Proofs.Import.Reference
import Statechart.Proofs.Import.Outside
import Statechart.Proofs.Revision.Merging
import Statechart.Proofs.ConfigFacets
import Statechart.Proofs.Revision.Invocations
import Statechart.Proofs.Transitions
import Statechart.Proofs.Revision.Fusion
import Statechart.Proofs.Revision.Standard
import Statechart.Proofs.Format.Shorthand
