import HeteroSim.Cache.NoLostWrite
import HeteroSim.Cache.Rollback
import HeteroSim.Allocator.Exact
import HeteroSim.Nand.Scopes
import HeteroSim.Address.Sound
import HeteroSim.Timeline.Placements
import HeteroSim.Task.Hazards
import HeteroSim.Pipeline.Bounds
import HeteroSim.Jobs.Interleavings
import HeteroSim.Transfer.Histories
import HeteroSim.Transfer.Imports
import HeteroSim.CudaGraph.Reuse
import HeteroSim.Windows.Safety
import HeteroSim.DecodeNode.Served
import HeteroSim.KvBlocks.Lossless
import HeteroSim.Cache.Lru
import HeteroSim.Cache.Batch
import HeteroSim.Allocator.FirstFit
import HeteroSim.Allocator.Aliases
import HeteroSim.Allocator.RoundTrip
import HeteroSim.Kernel.SeenRuns
import HeteroSim.Kernel.LastHolder
import HeteroSim.Kernel.LayoutCache
import HeteroSim.Kernel.Runs
import HeteroSim.Kernel.Rejected
import HeteroSim.Task.Partition
import HeteroSim.Task.Fairness
import HeteroSim.Task.Channels
import HeteroSim.Task.Outstanding
import HeteroSim.Nand.HostExact
import HeteroSim.Routing.Optimal
import HeteroSim.Dram.FiveActivates
import HeteroSim.Nand.Refused
import HeteroSim.DecodeNode.Conserved
import HeteroSim.Mtp.Rounds
import HeteroSim.RetainedKv.Ledger
import HeteroSim.Collective.Valid
import HeteroSim.Jobs.SingleFlight
import HeteroSim.Transfer.Savepoints
import HeteroSim.RangeSets
import HeteroSim.Residency.Guarantees
import HeteroSim.PaperKv.Series
import HeteroSim.Remote.RangeReader
import HeteroSim.Metrics.Series
import HeteroSim.Prefill.StageChunks
import HeteroSim.KvBlocks.Tails
import HeteroSim.Paths.Order
import HeteroSim.RowBounds.FirstAccesses
import HeteroSim.Kernel.Orders
