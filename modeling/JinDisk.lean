import JinDisk.Lib.Run
import JinDisk.Lib.RbTree
import JinDisk.Lib.SearchTree
import JinDisk.Lib.KeyLog
import JinDisk.Lib.PutLog
import JinDisk.Lib.BinarySearch
import JinDisk.Lib.KwayMerge
import JinDisk.Lib.MinHeap
import JinDisk.Lib.Chunks
import JinDisk.Lib.LruCache
import JinDisk.Lib.Packed
import JinDisk.Lib.ByteMap
import JinDisk.Lib.Words
import JinDisk.Crypto
import JinDisk.DiskStructs
import JinDisk.Coherence
import JinDisk.AtRest
import JinDisk.SegmentBuffer
import JinDisk.Memtable
import JinDisk.RbtreeMemtable
import JinDisk.BitBuilder
import JinDisk.BitNode
import JinDisk.Nonce
import JinDisk.Recycling
import JinDisk.FlushOrder
import JinDisk.ReadOrder
import JinDisk.Metadata
import JinDisk.BitLevel
import JinDisk.Compaction
import JinDisk.Levels
import JinDisk.MergeOutput
import JinDisk.LsmTree
import JinDisk.Rotation
import JinDisk.Reopen
import JinDisk.ConcurrentSearch
import JinDisk.CatalogueMirror
import JinDisk.Capacity
import JinDisk.FileIds
import JinDisk.Releases
import JinDisk.LevelInvariant
import JinDisk.RangeSearch
import JinDisk.RangeAgreement
import JinDisk.Aliasing
import JinDisk.BitWriter
import JinDisk.BitTable
import JinDisk.BitReader
import JinDisk.ReadCompletion
import JinDisk.Superblock
import JinDisk.Layout
import JinDisk.TableBlocks
import JinDisk.TableRuns
import JinDisk.Checkpoint
import JinDisk.StoreRuns
import JinDisk.Dst
import JinDisk.SegmentTables
import JinDisk.SegmentAllocator
import JinDisk.MemtableAccounting
import JinDisk.Lib.WordLoop
import JinDisk.Lib.Probing
import JinDisk.RangeBounds
import JinDisk.Journal
import JinDisk.JournalRing
import JinDisk.JournalOpening
import JinDisk.AvailSectors
import JinDisk.Device
import JinDisk.Targets
import JinDisk.ReadIntegrity
import JinDisk.GcInterleaving
import JinDisk.CbcRoundTrip
import JinDisk.LeafCache
import JinDisk.LevelArray
import JinDisk.LevelOrder
import JinDisk.LruNodes
import JinDisk.SegmentSearch
import JinDisk.LoggingBlock
import JinDisk.DataLog
import JinDisk.ReadPath
import JinDisk.SmallReads
import JinDisk.Lib.Rest
import JinDisk.Lib.Semaphore
import JinDisk.ReaderLimit
import JinDisk.DeferredBios
import JinDisk.FreeSafety
import JinDisk.Content
import JinDisk.GcContent
import JinDisk.DeviceRuns
import JinDisk.GcLoop
import JinDisk.BioRuns
import JinDisk.Sessions
import JinDisk.TablePlaces
import JinDisk.TableReads
import JinDisk.IndexRegion
import JinDisk.RegionRuns
import JinDisk.RangeReads
import JinDisk.IndexIntegrity
import JinDisk.SkippedPushes
