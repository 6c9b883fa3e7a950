import ApiGraph.Execution.Completion
import ApiGraph.Schema.Document
import ApiGraph.Script.Program
import ApiGraph.Session.Registration
import ApiGraph.Toml.Settings
import ApiGraph.Json.Document
import ApiGraph.Json.Reader
import ApiGraph.Script.Notation
import ApiGraph.Script.Rendering
import ApiGraph.Proofs.Argument.Bound
import ApiGraph.Proofs.Argument.Instance
import ApiGraph.Proofs.Argument.RoundTrip
import ApiGraph.Proofs.PossibleTypes
import ApiGraph.Proofs.FieldMap.RoundTrip
import ApiGraph.Proofs.Field.Phases
import ApiGraph.Proofs.Session.Transparent
import ApiGraph.Proofs.Session.FieldHistory
import ApiGraph.Proofs.Schema.Leftover
import ApiGraph.Proofs.Schema.Placed
import ApiGraph.Proofs.Schema.RootOrder
import ApiGraph.Proofs.Schema.Singletons
import ApiGraph.Proofs.Compile.Shape
import ApiGraph.Proofs.Field.Injection
import ApiGraph.Proofs.Inference
import ApiGraph.Proofs.UnionMembers
import ApiGraph.Proofs.Schema.Blame
import ApiGraph.Proofs.Projection
import ApiGraph.Proofs.Equality
import ApiGraph.Proofs.Registry
