import MBFGraph.Lib.ByteBits
import MBFGraph.Lib.Groups
import MBFGraph.Lib.Stdio
import MBFGraph.Lib.Crc32c
import MBFGraph.Format.FormatUtils
import MBFGraph.Lib.Records
import MBFGraph.Format.Type1File
import MBFGraph.Core.BloomHash
import MBFGraph.Core.Proofs.EdgeDistribution
import MBFGraph.Core.Proofs.CreateFilters
import MBFGraph.Lib.Stores
import MBFGraph.Core.BloomQuery
import MBFGraph.Lib.BitPasses
import MBFGraph.Core.MurmurQuery
import MBFGraph.Core.Proofs.QueryKernel
import MBFGraph.Core.Proofs.NeverHide
import MBFGraph.Core.Proofs.MurmurQuery
import MBFGraph.Core.Proofs.MetaStream
import MBFGraph.Core.Proofs.UpdateFilters
import MBFGraph.Lib.Checkers
import MBFGraph.Core.Proofs.VerifyFilters
import MBFGraph.Core.Proofs.AlignedFilters
import MBFGraph.Lib.BitScan
import MBFGraph.Core.PageSelect
import MBFGraph.Core.StateIter
import MBFGraph.Lib.Writes
import MBFGraph.Core.WriteBack
import MBFGraph.Core.Proofs.WriteBack
import MBFGraph.Algorithms.HyperAnf
import MBFGraph.Core.Proofs.LosslessStore
import MBFGraph.Core.MemoryBuffer
import MBFGraph.Core.DiskStream
import MBFGraph.Core.EdgeScatter
import MBFGraph.Core.Proofs.StreamFrame
import MBFGraph.Core.Proofs.StreamDrain
import MBFGraph.Core.Proofs.BitsetUsedUp
import MBFGraph.Core.Proofs.DiskPages
import MBFGraph.Core.Proofs.StreamAppend
import MBFGraph.Core.Proofs.StreamRoundTrip
import MBFGraph.Core.Ingest
import MBFGraph.Core.Proofs.Ingest
import MBFGraph.Core.XSplitter
import MBFGraph.Core.Tuning
import MBFGraph.Core.Proofs.Partition
import MBFGraph.Lib.CountingSort
import MBFGraph.Lib.NondetLoop
import MBFGraph.Lib.Bsp
import MBFGraph.Core.ScatterGather
import MBFGraph.Core.Proofs.DriverPhases
import MBFGraph.Core.Proofs.ScatterGather
import MBFGraph.Lib.Walks
import MBFGraph.Algorithms.Bfs
import MBFGraph.Algorithms.Cc
import MBFGraph.Algorithms.Mis
import MBFGraph.Algorithms.Proofs.BfsExact
import MBFGraph.Lib.Components
import MBFGraph.Algorithms.Proofs.CcExact
import MBFGraph.Lib.Elimination
import MBFGraph.Algorithms.Proofs.MisExact
import MBFGraph.Algorithms.Reverse
import MBFGraph.Core.Proofs.SplitWork
import MBFGraph.Core.Proofs.StreamPieces
import MBFGraph.Algorithms.Proofs.ReverseWritten
import MBFGraph.Lib.Relaxation
import MBFGraph.Lib.ShortestPaths
import MBFGraph.Core.Proofs.RelaxationRuns
import MBFGraph.Algorithms.Sssp
import MBFGraph.Algorithms.Proofs.SsspExact
import MBFGraph.Algorithms.Proofs.SsspForestExact
import MBFGraph.Algorithms.HyperLogLog
import MBFGraph.Algorithms.Proofs.HyperAnfExact
import MBFGraph.Algorithms.PagerankDdf
import MBFGraph.Algorithms.Proofs.PagerankDdfWhole
import MBFGraph.Algorithms.Proofs.PagerankDdfRuns
import MBFGraph.Core.StatePrepare
import MBFGraph.Core.Proofs.StateBuffer
import MBFGraph.Core.Proofs.Autotune
import MBFGraph.Lib.Interleaving
import MBFGraph.Core.Feed
import MBFGraph.Core.Proofs.FeedProtocol
import MBFGraph.Core.OutputBuffer
import MBFGraph.Algorithms.Scan
import MBFGraph.Core.Proofs.OutputBuffer
import MBFGraph.Core.RandomRead
import MBFGraph.Core.Proofs.RandomRead
import MBFGraph.Core.Proofs.StreamProgress
import MBFGraph.Generators.Output
import MBFGraph.Generators.Proofs.GeneratorOutput
import MBFGraph.Core.BufferPool
import MBFGraph.Core.Proofs.BufferPool
import MBFGraph.Algorithms.Unfiltered
import MBFGraph.Algorithms.Benchmarks
import MBFGraph.Algorithms.Proofs.Benchmarks
import MBFGraph.Core.QsortSplitter
import MBFGraph.Core.Proofs.QsortSplitter
import MBFGraph.Core.Proofs.Barrier
import MBFGraph.Algorithms.HllUnion
import MBFGraph.Algorithms.Proofs.HllUnion
import MBFGraph.UpdateUtility.DeletePage
import MBFGraph.UpdateUtility.Proofs.DeletePage
import MBFGraph.Lib.Lexicographic
import MBFGraph.UpdateUtility.MBFSort
import MBFGraph.UpdateUtility.Proofs.MBFSort
import MBFGraph.UpdateUtility.Proofs.PurgeDelete
import MBFGraph.UpdateUtility.PurgeDelete
import MBFGraph.Lib.LinkedList
import MBFGraph.Core.WorkFilter
import MBFGraph.Core.Proofs.WorkFilter
import MBFGraph.Core.ActiveVertices
import MBFGraph.Core.Proofs.ActiveVertices
import MBFGraph.Lib.Proposals
import MBFGraph.Core.StreamPass
import MBFGraph.Core.Proofs.StreamPass
import MBFGraph.Algorithms.Mcst
import MBFGraph.Algorithms.Proofs.McstRewrite
import MBFGraph.Algorithms.Proofs.McstProposals
import MBFGraph.Algorithms.Proofs.McstRound
import MBFGraph.Lib.LockStep
import MBFGraph.Core.Selective
import MBFGraph.Core.Proofs.Selective
import MBFGraph.Algorithms.Proofs.SelectiveScan
import MBFGraph.Core.AsyncScatterGather
import MBFGraph.Algorithms.BfsAsync
import MBFGraph.Lib.Discovery
import MBFGraph.Core.Proofs.AsyncScatterGather
import MBFGraph.Algorithms.Proofs.BfsAsyncSearch
import MBFGraph.Algorithms.Proofs.BfsAsyncExact
import MBFGraph.Lib.FairRuns
import MBFGraph.Core.OutputWork
import MBFGraph.Core.Proofs.OutputWork
import MBFGraph.Core.Proofs.OutputFlush
import MBFGraph.Core.Proofs.OutputAppended
import MBFGraph.Core.Filtered
import MBFGraph.Core.Proofs.Filtered
import MBFGraph.Core.Proofs.Deleted
import MBFGraph.Algorithms.Proofs.FilteredSearch
import MBFGraph.Algorithms.Proofs.DeletedSearch
import MBFGraph.Core.Bitshuffle
import MBFGraph.Core.Proofs.BitshuffleBytes
import MBFGraph.Core.Proofs.BitshuffleBits
import MBFGraph.Core.Proofs.BitshuffleInverse
import MBFGraph.Lib.Blockwise
import MBFGraph.Core.Proofs.BitshuffleBlocks
import MBFGraph.Lib.KWayMerge
import MBFGraph.Lib.StdHeap
import MBFGraph.UpdateUtility.BlockStream
import MBFGraph.UpdateUtility.ExternalSort
import MBFGraph.UpdateUtility.Proofs.BlockStream
import MBFGraph.UpdateUtility.Proofs.MergeStreams
import MBFGraph.UpdateUtility.Proofs.ExternalSplit
import MBFGraph.UpdateUtility.Proofs.ExternalMerge
import MBFGraph.UpdateUtility.Proofs.ExternalSort
