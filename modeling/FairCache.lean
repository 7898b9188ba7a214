import FairCache.Adapter.Attribution
import FairCache.Adapter.Compensation
import FairCache.Adapter.EqualShares
import FairCache.Adapter.PartialPrefill
import FairCache.Adapter.RetrieveKv
import FairCache.Adapter.Serve
import FairCache.Adapter.Sharing
import FairCache.Adapter.StoreKv
import FairCache.Adapter.WholeHits
import FairCache.Basic
import FairCache.Blend.Adapter
import FairCache.Blend.Executor
import FairCache.Blend.Layers
import FairCache.Blend.Reassembly
import FairCache.Blend.Retriever
import FairCache.Blend.Selection
import FairCache.Cache.Contents
import FairCache.Cache.Engine
import FairCache.Cache.Prefixes
import FairCache.Cache.Retrieve
import FairCache.CacheGen.AcDec
import FairCache.CacheGen.AcEnc
import FairCache.CacheGen.Bytestream
import FairCache.CacheGen.CalculateCdf
import FairCache.CacheGen.CdfRow
import FairCache.CacheGen.Chunk
import FairCache.CacheGen.Encoded
import FairCache.CacheGen.OutputBuffer
import FairCache.CacheGen.RoundTrip
import FairCache.Disk.Backend
import FairCache.Disk.Reclaim
import FairCache.Engine.Accounting
import FairCache.Engine.Step
import FairCache.Evictor.Lru
import FairCache.Experimental.Allocator
import FairCache.Experimental.Balance
import FairCache.Experimental.Connector
import FairCache.Experimental.DiskLedger
import FairCache.Experimental.Eviction
import FairCache.Experimental.Matching
import FairCache.Experimental.Protocol
import FairCache.Experimental.RefCounts
import FairCache.Experimental.Representation
import FairCache.Experimental.Server
import FairCache.Experimental.Session
import FairCache.Experimental.StorageManager
import FairCache.Fair.Atomic
import FairCache.Fair.Backend
import FairCache.Fair.Choice
import FairCache.Fair.ClientSearch
import FairCache.Fair.Contents
import FairCache.Fair.Entry
import FairCache.Fair.Evictable
import FairCache.Fair.EvictedShares
import FairCache.Fair.Evictor
import FairCache.Fair.Invariant
import FairCache.Fair.LeafFirst
import FairCache.Fair.Ledger
import FairCache.Fair.Passes
import FairCache.Fair.Records
import FairCache.Fair.Refusal
import FairCache.Fair.Sharers
import FairCache.Fair.Shares
import FairCache.Fair.Slots
import FairCache.Fair.Stamps
import FairCache.Fair.Threshold
import FairCache.Fair.Usage
import FairCache.Hybrid.Backend
import FairCache.Hybrid.Loops
import FairCache.Hybrid.ReadThrough
import FairCache.Key
import FairCache.KeyText
import FairCache.Lib.Bits
import FairCache.Lib.Bytes
import FairCache.Lib.Checked
import FairCache.Lib.Chunks
import FairCache.Lib.CodeLength
import FairCache.Lib.CodeRange
import FairCache.Lib.Cursor
import FairCache.Lib.Dict
import FairCache.Lib.Extents
import FairCache.Lib.Fields
import FairCache.Lib.Framing
import FairCache.Lib.History
import FairCache.Lib.LastWrite
import FairCache.Lib.LazyHeap
import FairCache.Lib.Numerals
import FairCache.Lib.Outcome
import FairCache.Lib.Packing
import FairCache.Lib.Pipeline
import FairCache.Lib.Prefixes
import FairCache.Lib.Ranks
import FairCache.Lib.Recency
import FairCache.Lib.References
import FairCache.Lib.Run
import FairCache.Lib.Segments
import FairCache.Lib.Socket
import FairCache.Lib.SortedList
import FairCache.Local.Agreement
import FairCache.Local.Backend
import FairCache.Local.Invariant
import FairCache.Local.Ledger
import FairCache.MemPool
import FairCache.Queue.CPIReqQueue
import FairCache.Queue.Charges
import FairCache.Queue.Credits
import FairCache.Queue.Fairness
import FairCache.Queue.Fifo
import FairCache.Queue.MinScore
import FairCache.Queue.ReqQueue
import FairCache.Remote.Backend
import FairCache.Remote.Pipelined
import FairCache.Scheduler.BlockLaws
import FairCache.Scheduler.BlockManager
import FairCache.Scheduler.BlockedQueue
import FairCache.Scheduler.Budget
import FairCache.Scheduler.Conservation
import FairCache.Scheduler.EngineRun
import FairCache.Scheduler.Groups
import FairCache.Scheduler.Loops
import FairCache.Scheduler.Places
import FairCache.Scheduler.Policies
import FairCache.Scheduler.Preemption
import FairCache.Scheduler.Prefills
import FairCache.Scheduler.Running
import FairCache.Scheduler.SafeRuns
import FairCache.Scheduler.Safety
import FairCache.Scheduler.Steps
import FairCache.Scheduler.Swapped
import FairCache.Scheduler.Waiting
import FairCache.Scheduler.WaitingRules
import FairCache.Server.DiskBackend
import FairCache.Wire.Connector
import FairCache.Wire.Disconnect
import FairCache.Wire.Fragments
import FairCache.Wire.Matching
import FairCache.Wire.Protocol
import FairCache.Wire.RoundTrip
import FairCache.Wire.Server
