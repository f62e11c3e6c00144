import WeightPolyhedron.Scalar.Double
import WeightPolyhedron.Skeleton.Request
import WeightPolyhedron.Search
import WeightPolyhedron.Message
import WeightPolyhedron.Json.Codec
import WeightPolyhedron.Proofs.Graph
import WeightPolyhedron.Proofs.Graph.Edges
import WeightPolyhedron.Proofs.Graph.Operation
import WeightPolyhedron.Proofs.Mesh
import WeightPolyhedron.Proofs.Outcome
import WeightPolyhedron.Proofs.Region
import WeightPolyhedron.Proofs.Cut.Split
import WeightPolyhedron.Proofs.Cut.Effect
import WeightPolyhedron.Proofs.Audit
import WeightPolyhedron.Proofs.Skeleton.Start
import WeightPolyhedron.Proofs.Skeleton.Step
import WeightPolyhedron.Proofs.Skeleton.Sound
import WeightPolyhedron.Proofs.Geometry.Arrangement
import WeightPolyhedron.Proofs.Geometry.Cone
import WeightPolyhedron.Proofs.Geometry.Cut
import WeightPolyhedron.Proofs.Exact.Form
import WeightPolyhedron.Proofs.Geometry.Resolution
import WeightPolyhedron.Proofs.Exact.Mesh
import WeightPolyhedron.Proofs.Exact.Cut
import WeightPolyhedron.Proofs.Exact.Skeleton
import WeightPolyhedron.Proofs.Exact.Feasible
import WeightPolyhedron.Proofs.Exact.Complete
import WeightPolyhedron.Proofs.Exact.Simple
import WeightPolyhedron.Proofs.Exact.Tight
import WeightPolyhedron.Proofs.Search.Calls
import WeightPolyhedron.Proofs.Search.Known
import WeightPolyhedron.Proofs.Search.Record
import WeightPolyhedron.Proofs.Exact.Distinct
import WeightPolyhedron.Proofs.Search.Run
import WeightPolyhedron.Proofs.Search.Termination
import WeightPolyhedron.Proofs.Scalar.Double
import WeightPolyhedron.Proofs.Skeleton.Report
import WeightPolyhedron.Proofs.Skeleton.Safety
import WeightPolyhedron.Proofs.Skeleton.Fresh
import WeightPolyhedron.Proofs.Skeleton.History
import WeightPolyhedron.Proofs.Skeleton.Repeat
import WeightPolyhedron.Proofs.Cut.Seed
import WeightPolyhedron.Proofs.Skeleton.Seed
import WeightPolyhedron.Proofs.Path
import WeightPolyhedron.Proofs.Cut.Path
import WeightPolyhedron.Proofs.Skeleton.Path
import WeightPolyhedron.Proofs.Alike
import WeightPolyhedron.Proofs.Stored
import WeightPolyhedron.Proofs.Cut.Alike
import WeightPolyhedron.Proofs.Cut.Local
import WeightPolyhedron.Proofs.Skeleton.Retention
import WeightPolyhedron.Proofs.Skeleton.Course
import WeightPolyhedron.Proofs.Geometry.Extreme
import WeightPolyhedron.Proofs.Exact.Order
import WeightPolyhedron.Proofs.Skeleton.Vertical
import WeightPolyhedron.Proofs.Vertex.Intersection
import WeightPolyhedron.Proofs.Audit.Verdict
import WeightPolyhedron.Proofs.Scalar.Arithmetic
import WeightPolyhedron.Proofs.Rounded.Vertex
import WeightPolyhedron.Proofs.Rounded.Skeleton
import WeightPolyhedron.Proofs.Decimal.Shortest
import WeightPolyhedron.Proofs.Json.RoundTrip
