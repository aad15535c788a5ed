import Filigrio.Store.Merge
import Filigrio.Ledger.Basic
import Filigrio.Ledger.Binding
import Filigrio.Ledger.Step
import Filigrio.Ledger.Sample
import Filigrio.Ledger.Run
import Filigrio.Store.World
import Filigrio.Ledger.References
import Filigrio.Ledger.Safety
import Filigrio.Ledger.Tree
import Filigrio.Ledger.Cold
import Filigrio.Ledger.Scoped
import Filigrio.Ledger.Workspace
import Filigrio.Ledger.Once
import Filigrio.Pipeline.Disk
import Filigrio.Pipeline.Apply
import Filigrio.Pipeline.Applied
import Filigrio.Pipeline.Signal
import Filigrio.Lib.Lts
import Filigrio.Daemon.Handshake
import Filigrio.Daemon.Project
import Filigrio.Daemon.Watch
import Filigrio.Daemon.Queue
import Filigrio.Daemon.Loop
import Filigrio.Daemon.Schedule
import Filigrio.Daemon.Debt
import Filigrio.Daemon.Cache
import Filigrio.Daemon.Flush
import Filigrio.Daemon.Isolation
import Filigrio.Daemon.WriteBehind
import Filigrio.Daemon.Quiesce
import Filigrio.Daemon.Marker
import Filigrio.Pipeline.Heal
import Filigrio.Store.EdgeDiff
import Filigrio.Resolve.ExportWalk
import Filigrio.Ledger.Qualified
import Filigrio.Daemon.Resident
import Filigrio.Daemon.Flusher
import Filigrio.Hook.Submission
import Filigrio.Lib.Digits
import Filigrio.Hook.Spool
import Filigrio.Hook.Deliver
import Filigrio.Hook.Drain
import Filigrio.Hook.Race
import Filigrio.Ingest.Boundary
import Filigrio.Ingest.Watcher
import Filigrio.Ingest.Converge
import Filigrio.Lib.Nearest
import Filigrio.Resolve.Nearest
import Filigrio.Daemon.Resolve
import Filigrio.Lib.Lines
import Filigrio.Install.Block
import Filigrio.Install.Managed
import Filigrio.Install.Uninstall
import Filigrio.Lib.Tally
import Filigrio.Resolve.Stabilize
import Filigrio.Resolve.Inherit
import Filigrio.Lib.Modularity
import Filigrio.Resolve.Louvain
import Filigrio.Resolve.LocalMove
import Filigrio.Resolve.Levels
import Filigrio.Resolve.Cluster
import Filigrio.Resolve.WellFormed
import Filigrio.Lib.Worklist
import Filigrio.Query.View
import Filigrio.Query.Traverse
import Filigrio.Index.Driver
import Filigrio.Index.Unique
import Filigrio.Index.Finish
import Filigrio.Install.Node
import Filigrio.Install.Walk
import Filigrio.Install.Locate
import Filigrio.Install.Document
import Filigrio.Install.Exact
import Filigrio.Store.Atomic
import Filigrio.Query.Neighbors
import Filigrio.Core.Span
import Filigrio.Query.Address
import Filigrio.Resolve.Specifier
import Filigrio.Lib.IndexMap
import Filigrio.Lib.Json
import Filigrio.Install.JsonEntry
import Filigrio.Lib.Utf8
import Filigrio.Hook.NameStatus
import Filigrio.Store.GraphJson
import Filigrio.Resolve.RustPath
import Filigrio.Lib.Rank
import Filigrio.Query.Analysis
import Filigrio.Lib.SplitOnce
import Filigrio.Index.UseTree
import Filigrio.Resolve.Manifest
import Filigrio.Lib.Frame
import Filigrio.Protocol.Socket
import Filigrio.Protocol.Complete
import Filigrio.Client.Autostart
import Filigrio.Index.TypeFilter
import Filigrio.Hook.Endpoints
import Filigrio.Hook.History
import Filigrio.Install.Hooks
import Filigrio.Install.Lifecycle
