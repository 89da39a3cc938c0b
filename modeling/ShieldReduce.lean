import ShieldReduce.Lib.Bytes
import ShieldReduce.Lib.Script
import ShieldReduce.EDelta.Gear
import ShieldReduce.EDelta.Decode
import ShieldReduce.EDelta.Encode
import ShieldReduce.EDelta.RoundTrip
import ShieldReduce.EDelta.Assigned
import ShieldReduce.EDelta.Tables
import ShieldReduce.Store.Format
import ShieldReduce.Store.Container
import ShieldReduce.Store.Lz4
import ShieldReduce.Store.Lz4Block
import ShieldReduce.Store.Lz4Compress
import ShieldReduce.Lib.Table
import ShieldReduce.Store.Chunk
import ShieldReduce.Prototype.State
import ShieldReduce.Prototype.Upload
import ShieldReduce.Prototype.Offline
import ShieldReduce.Prototype.System
import ShieldReduce.Prototype.Containers
import ShieldReduce.Prototype.Indexed
import ShieldReduce.Prototype.Relocate
import ShieldReduce.Prototype.Walks
import ShieldReduce.Prototype.Stored
import ShieldReduce.Prototype.Expand
import ShieldReduce.Lib.DeltaStore
import ShieldReduce.Prototype.BatchSteps
import ShieldReduce.Prototype.DeltaPass
import ShieldReduce.Prototype.StoredPass
import ShieldReduce.Prototype.Keys
import ShieldReduce.Lib.Stream
import ShieldReduce.Prototype.Database
import ShieldReduce.Prototype.Stepped
import ShieldReduce.Prototype.Invariant
import ShieldReduce.Prototype.InvariantPass
import ShieldReduce.Prototype.DeltaDepth
import ShieldReduce.Prototype.SessionEnd
import ShieldReduce.Prototype.Lifetimes
import ShieldReduce.Prototype.Ivs
import ShieldReduce.Prototype.Writers
import ShieldReduce.Lib.Batches
import ShieldReduce.Prototype.Recipe
import ShieldReduce.Prototype.Restore
import ShieldReduce.Prototype.Emission
import ShieldReduce.Lib.Heap
import ShieldReduce.Prototype.TopK
import ShieldReduce.Prototype.EntryHeap
import ShieldReduce.Lib.Loop
import ShieldReduce.Prototype.ProcessBatch
import ShieldReduce.Prototype.QueryPairs
import ShieldReduce.Prototype.ExactDedup
import ShieldReduce.Prototype.FilterSteps
import ShieldReduce.Prototype.SealedIndex
import ShieldReduce.Prototype.TopKFilter
import ShieldReduce.Prototype.FilterRuns
import ShieldReduce.MultiClient.TopKRegions
import ShieldReduce.MultiClient.BaseImage
import ShieldReduce.MultiClient.TopKOrder
import ShieldReduce.Prototype.HandOver
import ShieldReduce.Prototype.Compaction
import ShieldReduce.Prototype.Merging
import ShieldReduce.Prototype.Packing
import ShieldReduce.Prototype.Capping
import ShieldReduce.EDelta.Expansion
import ShieldReduce.EDelta.Overlong
import ShieldReduce.EDelta.Recopy
import ShieldReduce.Lib.Totals
import ShieldReduce.Prototype.Statistics
import ShieldReduce.Prototype.StatisticsRuns
import ShieldReduce.Lib.Lru
import ShieldReduce.Lib.SlotCache
import ShieldReduce.Prototype.ContainerCache
import ShieldReduce.Prototype.PendingPairs
import ShieldReduce.Prototype.ColdHandOver
import ShieldReduce.Lib.RollingHash
import ShieldReduce.Prototype.AbortedUpload
import ShieldReduce.Prototype.Chunker
import ShieldReduce.Prototype.SuperFeature
import ShieldReduce.Prototype.MissingEntries
import ShieldReduce.Prototype.BackupSize
import ShieldReduce.Prototype.DependentTransfer
import ShieldReduce.Prototype.HeapRuns
import ShieldReduce.Prototype.Contents
import ShieldReduce.Prototype.PassContent
import ShieldReduce.Prototype.PassEnds
import ShieldReduce.Prototype.Backups
import ShieldReduce.Prototype.Download
import ShieldReduce.Lib.Numerals
import ShieldReduce.Prototype.ContainerNames
import ShieldReduce.EDelta.GearCuts
import ShieldReduce.Prototype.SealedFiles
import ShieldReduce.Prototype.TopKBound
import ShieldReduce.Prototype.CachedImages
import ShieldReduce.Prototype.UnfinishedFile
import ShieldReduce.MultiClient.Uploads
import ShieldReduce.MultiClient.ConcurrentDedup
import ShieldReduce.Store.Lz4RoundTrip
import ShieldReduce.EDelta.Htable
