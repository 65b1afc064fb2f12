import Tailslayer.ThreadManager.Specification
import Tailslayer.ThreadManager.Configuration
import Tailslayer.ThreadManager.Effects
import Tailslayer.Foundations.Ledger
import Tailslayer.ThreadManager.Ownership
import Tailslayer.ThreadManager.Counters
import Tailslayer.ThreadManager.Balance
import Tailslayer.Foundations.ByteMemory
import Tailslayer.Foundations.MaskedIndex
import Tailslayer.HedgedReader.Specification
import Tailslayer.Foundations.Outcome
import Tailslayer.HedgedReader.Layout
import Tailslayer.HedgedReader.Replication
import Tailslayer.HedgedReader.Placement
import Tailslayer.HedgedReader.PageBounds
import Tailslayer.Benchmark.Pairing
import Tailslayer.Foundations.DisjointTuples
import Tailslayer.Benchmark.Maximality
import Tailslayer.Foundations.Enrollment
import Tailslayer.Foundations.WordBits
import Tailslayer.Topology.Specification
import Tailslayer.Foundations.Passes
import Tailslayer.Topology.Partition
import Tailslayer.Topology.Scan
import Tailslayer.Topology.Exactness
import Tailslayer.Benchmark.Affinity
import Tailslayer.Benchmark.ChannelOrder
import Tailslayer.Benchmark.Percentiles
import Tailslayer.Benchmark.Hedging
import Tailslayer.HedgedReader.Builds
import Tailslayer.Foundations.LongestRun
import Tailslayer.Memory.Specification
import Tailslayer.Memory.Privilege
import Tailslayer.ThreadManager.ForeignRelease
import Tailslayer.Foundations.Blocks
import Tailslayer.Memory.LargestRegion
import Tailslayer.Memory.Allocation
import Tailslayer.Memory.WholePages
import Tailslayer.HedgedReader.Acquisition
import Tailslayer.Benchmark.CommandLine
import Tailslayer.Benchmark.MemorySetup
import Tailslayer.Benchmark.Execution
import Tailslayer.Benchmark.ArmsServed
import Tailslayer.Benchmark.ReplicaPage
import Tailslayer.Benchmark.Release
import Tailslayer.Benchmark.Utilisation
import Tailslayer.ThreadManager.Releases
import Tailslayer.ThreadManager.Packing
import Tailslayer.Foundations.RoundUp
import Tailslayer.Memory.PhysicalRuns
import Tailslayer.Memory.Contiguity
import Tailslayer.Memory.FirstSuccess
import Tailslayer.Foundations.BinaryDouble
import Tailslayer.Memory.LargePageMax
import Tailslayer.Foundations.XorShift
import Tailslayer.Benchmark.StressLoad
import Tailslayer.Topology.Linux
import Tailslayer.ThreadManager.Initialization
import Tailslayer.Benchmark.LoopSafety
import Tailslayer.Benchmark.OrderStatistics
import Tailslayer.Benchmark.Pinning
import Tailslayer.Benchmark.RowPairing
import Tailslayer.Foundations.Histogram
import Tailslayer.Foundations.SetBits
import Tailslayer.HedgedReader.Capacity
import Tailslayer.Probe.Periodicity
import Tailslayer.Probe.Detection
import Tailslayer.Probe.Peak
import Tailslayer.Memory.LargePage
import Tailslayer.Probe.Program
import Tailslayer.Memory.Pagemap
import Tailslayer.Benchmark.LinuxReplicas
import Tailslayer.Benchmark.WindowsReplicas
import Tailslayer.Scripts.ProbeBits
import Tailslayer.ThreadManager.FailedDetection
import Tailslayer.Timing.Clock
import Tailslayer.Topology.CoreAffinity
import Tailslayer.Foundations.Fairness
import Tailslayer.Foundations.ForkJoin
import Tailslayer.Foundations.Phases
import Tailslayer.Benchmark.Reports
import Tailslayer.Benchmark.ArmThreads
import Tailslayer.Benchmark.ArmOrder
import Tailslayer.Benchmark.ArmSafety
import Tailslayer.Benchmark.ArmReports
import Tailslayer.Benchmark.ArmProgress
import Tailslayer.Benchmark.ArmResults
import Tailslayer.Benchmark.Program
import Tailslayer.HedgedReader.Workers
import Tailslayer.HedgedReader.Delivery
import Tailslayer.HedgedReader.Destruction
import Tailslayer.HedgedReader.Processes
import Tailslayer.HedgedReader.Lifetimes
import Tailslayer.HedgedReader.Channels
import Tailslayer.Scripts.PlotLatencies
import Tailslayer.Benchmark.RawFiles
