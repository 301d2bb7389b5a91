import DataSpaces.Lib.Grid
import DataSpaces.Lib.CircTable
import DataSpaces.Lib.Cover
import DataSpaces.Lib.Segments
import DataSpaces.Lib.Flood
import DataSpaces.Lib.Radix
import DataSpaces.Lib.Wire
import DataSpaces.Lib.Runs
import DataSpaces.Lib.Links
import DataSpaces.Lib.Least
import DataSpaces.Lib.Layers
import DataSpaces.BBox
import DataSpaces.Linearize
import DataSpaces.Subdivision
import DataSpaces.LinearizeRing
import DataSpaces.Cubes
import DataSpaces.Curve
import DataSpaces.Intervals
import DataSpaces.SSpace
import DataSpaces.HashCache
import DataSpaces.Ownership
import DataSpaces.Bisection
import DataSpaces.Rounds
import DataSpaces.Slices
import DataSpaces.CellCount
import DataSpaces.Exactness
import DataSpaces.Termination
import DataSpaces.SliceTable
import DataSpaces.VirtualCube
import DataSpaces.Outside
import DataSpaces.StrHash
import DataSpaces.Storage
import DataSpaces.Copy
import DataSpaces.SubArray
import DataSpaces.DhtTable
import DataSpaces.Coherence
import DataSpaces.Coverage
import DataSpaces.DhtEvents
import DataSpaces.Watch
import DataSpaces.Blocking
import DataSpaces.Handout
import DataSpaces.Server
import DataSpaces.Fetch
import DataSpaces.Assembly
import DataSpaces.Group
import DataSpaces.SpaceLookup
import DataSpaces.Transparency
import DataSpaces.Query
import DataSpaces.Agreement
import DataSpaces.Plane
import DataSpaces.Spread
import DataSpaces.RoundTrip
import DataSpaces.Broadcast
import DataSpaces.Register
import DataSpaces.Kill
import DataSpaces.Retention
import DataSpaces.Metadata
import DataSpaces.MetaNext
import DataSpaces.MetaScan
import DataSpaces.MetaBins
import DataSpaces.MetaPosts
import DataSpaces.PeekRemotes
import DataSpaces.Drain
import DataSpaces.DrainRuns
import DataSpaces.DrainEntry
import DataSpaces.Proxy
import DataSpaces.Ops
import DataSpaces.Binding
import DataSpaces.Serial
import DataSpaces.PutReqs
import DataSpaces.Subs
import DataSpaces.Counters
import DataSpaces.OpSize
import DataSpaces.Eval
import DataSpaces.IntEval
import DataSpaces.EvalErrors
import DataSpaces.Lib.Slots
import DataSpaces.ModName
import DataSpaces.ModArgs
import DataSpaces.SubTable
import DataSpaces.QualName
import DataSpaces.ByteCounts
import DataSpaces.Lib.Locking
import DataSpaces.Locks
import DataSpaces.ConfFile
import DataSpaces.BoxAlgebra
import DataSpaces.Lib.Fill
import DataSpaces.Lib.Rings
import DataSpaces.ObjStore
import DataSpaces.StrTable
import DataSpaces.Lib.Gray
import DataSpaces.Lib.Coder
import DataSpaces.Lib.Hilbert
import DataSpaces.Lib.Fields
import DataSpaces.Sfc
import DataSpaces.Transpose
import DataSpaces.Levels
import DataSpaces.SfcCurve
import DataSpaces.SfcCells
import DataSpaces.SfcSpace
import DataSpaces.Lib.Heap
import DataSpaces.RemoteExec
import DataSpaces.Calc
import DataSpaces.Lib.Scan
import DataSpaces.Bootstrap
import DataSpaces.Routing
import DataSpaces.Hosted
import DataSpaces.RoutedQuery
import DataSpaces.RoutedAnswer
import DataSpaces.RoutedGet
