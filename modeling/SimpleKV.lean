import SimpleKV.Coding
import SimpleKV.Entry
import SimpleKV.Lib.SortedAssoc
import SimpleKV.Lib.Recency
import SimpleKV.Lib.KWayMerge
import SimpleKV.Lib.Leb128
import SimpleKV.SkipList
import SimpleKV.FileName
import SimpleKV.FileFormat
import SimpleKV.LRUCache
import SimpleKV.StorageBuffer
import SimpleKV.EntryCodec
import SimpleKV.StorageEngine
import SimpleKV.Compaction
import SimpleKV.DataBase
import SimpleKV.Contents
import SimpleKV.MergeCorrect
import SimpleKV.Levels
import SimpleKV.Selection
import SimpleKV.EngineInvariant
import SimpleKV.CompactionInvariant
import SimpleKV.Steps
import SimpleKV.Handoff
import SimpleKV.SizeArithmetic
import SimpleKV.DoubleBuffer
import SimpleKV.Varint
import SimpleKV.VarintCodec
import SimpleKV.Server
import SimpleKV.RequestReads
import SimpleKV.Session
import SimpleKV.FileLogger
import SimpleKV.ThreadPool
import SimpleKV.Lib.TaggedLog
import SimpleKV.TaskHistory
import SimpleKV.PoolStop
import SimpleKV.Lib.LinkedList
import SimpleKV.LinkedCache
import SimpleKV.ReadWriteLock
import SimpleKV.SkipListNodes
import SimpleKV.SkipListInvariant
import SimpleKV.SkipListMap
import SimpleKV.PlainSearch
import SimpleKV.NWayMerge
import SimpleKV.Lib.ChoiceRun
import SimpleKV.LevelLimits
import SimpleKV.Outlines
import SimpleKV.MergeOutlines
import SimpleKV.StateOutlines
import SimpleKV.ValueBlind
import SimpleKV.Wakeup
import SimpleKV.Search
import SimpleKV.CachedSearch
import SimpleKV.StoreInvariant
import SimpleKV.View
import SimpleKV.CacheInvariant
import SimpleKV.Versions
import SimpleKV.Reads
import SimpleKV.Visibility
import SimpleKV.PutOnly
import SimpleKV.FlushOrder
import SimpleKV.Reopen
import SimpleKV.FileNames
import SimpleKV.Stops
import SimpleKV.Pipeline
import SimpleKV.Lives
import SimpleKV.Provenance
import SimpleKV.Readers
import SimpleKV.PoolDrain
import SimpleKV.Lib.Lehmer
import SimpleKV.Random
import SimpleKV.Lib.ByteMemory
import SimpleKV.Memory
import SimpleKV.Regions
import SimpleKV.RawSkipList
import SimpleKV.RawInsert
import SimpleKV.RawBuffer
import SimpleKV.RawRuns
import SimpleKV.TreeShape
import SimpleKV.Settling
import SimpleKV.Connections
