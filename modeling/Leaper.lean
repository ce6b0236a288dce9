import Leaper.Lib.Machine
import Leaper.Core.Overlap
import Leaper.Lib.SortUnique
import Leaper.Core.Collector
import Leaper.Core.CollectorWindow
import Leaper.Lib.MemoFilter
import Leaper.Core.Expand
import Leaper.Core.Impl
import Leaper.Core.Jobs
import Leaper.Core.TwoPhase
import Leaper.Lib.Brackets
import Leaper.Core.Nesting
import Leaper.Core.Budget
import Leaper.Adapters.LevelDB
import Leaper.Adapters.LevelDBWarm
import Leaper.Adapters.RocksDB
import Leaper.Core.Mapper
import Leaper.Adapters.LevelDBIndex
import Leaper.Core.CollectorReset
import Leaper.Adapters.LevelDBClock
import Leaper.Core.Load
import Leaper.Tools.Train
import Leaper.Tools.TrainServe
import Leaper.Core.CollectorAhead
import Leaper.Core.RangeRows
import Leaper.Core.CollectorRace
import Leaper.Core.CandidateCap
import Leaper.Adapters.RocksDBWarm
import Leaper.Tools.Oracle
import Leaper.Lib.WorkQueue
import Leaper.Adapters.LevelDBAsync
import Leaper.Core.Gbdt
import Leaper.Core.GbdtTree
import Leaper.Core.GbdtDump
import Leaper.Adapters.ScanWindow
import Leaper.Core.DryRun
import Leaper.Core.Suspension
import Leaper.Lib.Hysteresis
import Leaper.Core.IncrementalWarmup
import Leaper.Tools.Stamps
import Leaper.Core.CollectorSampling
import Leaper.Tools.TrainSplit
import Leaper.Tools.KeyRange
import Leaper.Lib.Shortlist
import Leaper.Tools.Precursors
import Leaper.Adapters.WarmBudget
import Leaper.Bench.Histogram
import Leaper.Bench.Mixgraph
import Leaper.Bench.Precision
import Leaper.Bench.StatsCache
import Leaper.Bench.Trace
import Leaper.Tools.PaperMetrics
import Leaper.Adapters.LevelDBEngine
import Leaper.Adapters.LevelDBGarbage
import Leaper.Core.Open
import Leaper.Tools.Served
import Leaper.Lib.Blocks
import Leaper.Adapters.Prepop
import Leaper.Core.MemoCost
import Leaper.Adapters.LevelDBHot
import Leaper.Bench.Worker
import Leaper.Bench.WorkerClock
import Leaper.Lib.Scan
import Leaper.Bench.EventLog
import Leaper.Bench.Report
