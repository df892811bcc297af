import Strata.Document.Edit
import Strata.Project
import Strata.Disk.Memory
import Strata.Main
import Strata.Proofs.Forest.Entries
import Strata.Proofs.Forest.WellFormed
import Strata.Proofs.Forest.Traversal
import Strata.Proofs.Forest.Edits
import Strata.Proofs.Forest.Growth
import Strata.Proofs.Forest.Relocation
import Strata.Proofs.Forest.Planting
import Strata.Proofs.Css.Print
import Strata.Proofs.Text.Uses
import Strata.Proofs.Text.Blank
import Strata.Proofs.Css.Statement
import Strata.Proofs.Document.Tidy
import Strata.Proofs.Workspace.Ownership
import Strata.Proofs.Workspace.Load
import Strata.Proofs.FileSet
import Strata.Proofs.Workspace.Files
import Strata.Proofs.Workspace.Ancestors
import Strata.Proofs.ImportGraph
import Strata.Proofs.Analysis
import Strata.Proofs.Transform
import Strata.Proofs.Split.Answers
import Strata.Proofs.Split.Decision
import Strata.Proofs.Path.Normal
import Strata.Proofs.Path.Specifier
import Strata.Proofs.Path.Uses
import Strata.Proofs.Path.Absolute
import Strata.Proofs.Path.Directory
import Strata.Proofs.Path.Relative
import Strata.Proofs.Resolution
import Strata.Proofs.Css.ImportParams
import Strata.Proofs.Split.Seats
import Strata.Proofs.Split.Moves
import Strata.Proofs.Split.Donors
import Strata.Proofs.Split.Companions
import Strata.Proofs.Split.Homes
import Strata.Proofs.Split.Outcome
import Strata.Proofs.Split.Errands
import Strata.Proofs.Split.Layout
import Strata.Proofs.Split.Escorts
import Strata.Proofs.Split.Files
import Strata.Proofs.Forest.Removal
import Strata.Proofs.Cleanup
import Strata.Proofs.Migration.Survival
import Strata.Proofs.Migration.Reach
import Strata.Proofs.Migration.Content
import Strata.Proofs.Migration.Cycles
import Strata.Proofs.Migration.Success
import Strata.Proofs.Migration.Files
import Strata.Proofs.Migration.Plan
import Strata.Proofs.Migration.PlainImports
import Strata.Proofs.Migration.Traces
import Strata.Proofs.Split.Places
import Strata.Proofs.Migration.Addresses
import Strata.Proofs.Project
import Strata.Proofs.Migration.Specifiers
import Strata.Proofs.Css.Lexeme
import Strata.Proofs.Css.Prelude
import Strata.Proofs.Connection
import Strata.Proofs.Css.Reprint
import Strata.Proofs.Css.RoundTrip
import Strata.Proofs.Document.History
import Strata.Proofs.Workspace.Index
import Strata.Proofs.Inheritance
import Strata.Proofs.Split.Standing
import Strata.Proofs.Emptied
import Strata.Proofs.Forest.Twins
import Strata.Proofs.Workspace.Arrangement
import Strata.Proofs.Registration
import Strata.Proofs.Split.ImportOrder
import Strata.Proofs.Migration.Stages
import Strata.Proofs.Split.Allotment
import Strata.Proofs.Workspace.ImportCycles
import Strata.Proofs.Migration.Sources
import Strata.Proofs.Css.Spans
import Strata.Proofs.Resolution.Relative
import Strata.Proofs.Css.Pieces
import Strata.Proofs.Css.Retarget
import Strata.Proofs.Resolution.Siblings
import Strata.Proofs.Following
import Strata.Proofs.Split.Anonymous
import Strata.Proofs.Workspace.Numbering
import Strata.Proofs.Split.Naming
import Strata.Proofs.Path.Canonical
import Strata.Proofs.Forest.Tour
import Strata.Proofs.Css.Cuts
import Strata.Proofs.Css.Tokens
import Strata.Proofs.Path.Order
import Strata.Proofs.Document.Likeness
import Strata.Proofs.Transform.Exhaustion
import Strata.Proofs.Migration.Remains
import Strata.Proofs.Migration.LayersLeft
import Strata.Proofs.Migration.Rest
import Strata.Proofs.Migration.Reread
import Strata.Proofs.Migration.SecondRun
import Strata.Proofs.Settled
