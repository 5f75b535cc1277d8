import Wiring.Code.Basic
import Wiring.Code.Implementation
import Wiring.Code.Placement
import Wiring.Command.Options
import Wiring.Command.Run
import Wiring.Document.Json
import Wiring.Document.Reading
import Wiring.Document.Toml.Read
import Wiring.Document.Toml.Scalar
import Wiring.Document.Toml.Text
import Wiring.Document.Yaml.Node
import Wiring.Document.Yaml.Scalar
import Wiring.Document.Yaml.Token
import Wiring.Error
import Wiring.Files.Tree
import Wiring.Graph.Basic
import Wiring.Graph.Outline
import Wiring.Host.Basic
import Wiring.Host.Machine
import Wiring.Main
import Wiring.Manifest.Basic
import Wiring.Manifest.Declare
import Wiring.Path.Basic
import Wiring.Plan.Resolution
import Wiring.Plan.Search
import Wiring.Proofs.Code.Awaited
import Wiring.Proofs.Code.Closed
import Wiring.Proofs.Code.Emitted
import Wiring.Proofs.Code.Grouped
import Wiring.Proofs.Code.Imported
import Wiring.Proofs.Code.MemberNames
import Wiring.Proofs.Code.Named
import Wiring.Proofs.Code.Numbered
import Wiring.Proofs.Code.Overwritten
import Wiring.Proofs.Code.Printed
import Wiring.Proofs.Code.PrintedExpression
import Wiring.Proofs.Code.Promised
import Wiring.Proofs.Code.Reached
import Wiring.Proofs.Code.Readable
import Wiring.Proofs.Code.Received
import Wiring.Proofs.Code.Renumbered
import Wiring.Proofs.Files.Written
import Wiring.Proofs.Graph.Built
import Wiring.Proofs.Graph.Deferred
import Wiring.Proofs.Graph.Elsewhere
import Wiring.Proofs.Graph.Operations
import Wiring.Proofs.Graph.Unrepeated
import Wiring.Proofs.Lists
import Wiring.Proofs.Manifest.Classes
import Wiring.Proofs.Manifest.Declared
import Wiring.Proofs.Manifest.Described
import Wiring.Proofs.Manifest.Filled
import Wiring.Proofs.Manifest.Modules
import Wiring.Proofs.Manifest.Reordered
import Wiring.Proofs.Path.Lexical
import Wiring.Proofs.Path.Segments
import Wiring.Proofs.Path.Specifier
import Wiring.Proofs.Path.Stepwise
import Wiring.Proofs.Plan.Tree
import Wiring.Proofs.Resolution.Acyclic
import Wiring.Proofs.Resolution.Asynchronous
import Wiring.Proofs.Resolution.Elsewhere
import Wiring.Proofs.Resolution.FirstMet
import Wiring.Proofs.Resolution.Gathered
import Wiring.Proofs.Resolution.Instances
import Wiring.Proofs.Resolution.Renumbered
import Wiring.Proofs.Resolution.Repeated
import Wiring.Proofs.Resolution.Resolvers
import Wiring.Proofs.Resolution.Stored
import Wiring.Proofs.Resolution.Unfolding
import Wiring.Proofs.Resolution.Unresolved
import Wiring.Proofs.Search.Apart
import Wiring.Proofs.Search.Calls
import Wiring.Proofs.Search.Counted
import Wiring.Proofs.Search.Course
import Wiring.Proofs.Search.Derivable
import Wiring.Proofs.Search.Foremost
import Wiring.Proofs.Search.Found
import Wiring.Proofs.Search.History
import Wiring.Proofs.Search.Orderly
import Wiring.Proofs.Search.Produced
import Wiring.Proofs.Search.Renumbered
import Wiring.Proofs.Search.Visits
import Wiring.Proofs.Search.WellTyped
import Wiring.Proofs.TypeExpr.Accepted
import Wiring.Proofs.TypeExpr.Aliases
import Wiring.Proofs.TypeExpr.Beginnings
import Wiring.Proofs.TypeExpr.Compared
import Wiring.Proofs.TypeExpr.Complete
import Wiring.Proofs.TypeExpr.FirstWrong
import Wiring.Proofs.TypeExpr.Interned
import Wiring.Proofs.TypeExpr.Leaves
import Wiring.Proofs.TypeExpr.Lexed
import Wiring.Proofs.TypeExpr.Lookahead
import Wiring.Proofs.TypeExpr.Lowered
import Wiring.Proofs.TypeExpr.Mentions
import Wiring.Proofs.TypeExpr.Nesting
import Wiring.Proofs.TypeExpr.Phrase
import Wiring.Proofs.TypeExpr.ReadBack
import Wiring.Proofs.TypeExpr.Spelled
import Wiring.Proofs.TypeExpr.Unambiguous
import Wiring.Proofs.Types.Assignable
import Wiring.Proofs.Types.Built
import Wiring.Proofs.Types.Canonical
import Wiring.Proofs.Types.Congruent
import Wiring.Proofs.Types.Corresponding
import Wiring.Proofs.Types.Enclosed
import Wiring.Proofs.Types.Equivalent
import Wiring.Proofs.Types.Fielded
import Wiring.Proofs.Types.Indexed
import Wiring.Proofs.Types.Joined
import Wiring.Proofs.Types.Normal
import Wiring.Proofs.Types.Renumbered
import Wiring.Proofs.Types.Structural
import Wiring.Proofs.Types.Threaded
import Wiring.Proofs.Types.Throughout
import Wiring.Proofs.Types.Twins
import Wiring.Settings.Basic
import Wiring.Settings.Load
import Wiring.Settings.Variable
import Wiring.Text.Character
import Wiring.Text.Quoted
import Wiring.TypeExpr.Parse
import Wiring.TypeExpr.Scope
import Wiring.TypeExpr.Token
import Wiring.Types.Compare
import Wiring.Types.Table
