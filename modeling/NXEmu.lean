import NXEmu.Lib.Exec
import NXEmu.Lib.Fueled
import NXEmu.Lib.Query
import NXEmu.Lib.Tiling
import NXEmu.Lib.OrderedMap
import NXEmu.Lib.ChangePoints
import NXEmu.Lib.SegmentMap
import NXEmu.Lib.SummaryBitmap
import NXEmu.Lib.WordBitmap
import NXEmu.Lib.Live
import NXEmu.Lib.MaximalRuns
import NXEmu.Lib.Rectangles
import NXEmu.Lib.Buddies
import NXEmu.Lib.Transfer
import NXEmu.Lib.LinkedList
import NXEmu.Lib.Inheritance
import NXEmu.Lib.Ring
import NXEmu.Lib.DepthFirst
import NXEmu.Lib.Trace
import NXEmu.Lib.Ledger
import NXEmu.Lib.BinarySearch
import NXEmu.Timing.SharedCpuClock
import NXEmu.Timing.SharedCpuClockRuns
import NXEmu.Kernel.PageBitmap
import NXEmu.Kernel.PageBitmapSummaries
import NXEmu.Kernel.PageBitmapSearch
import NXEmu.Kernel.PageBitmapRanges
import NXEmu.Kernel.PageHeap
import NXEmu.Kernel.PageHeapBlocks
import NXEmu.Kernel.PageHeapBooks
import NXEmu.Kernel.PageHeapAllocate
import NXEmu.Kernel.PageHeapRuns
import NXEmu.Kernel.MemoryManager
import NXEmu.Kernel.MemoryManagerPages
import NXEmu.Kernel.MemoryManagerAllocate
import NXEmu.Kernel.MemoryManagerLeaks
import NXEmu.Kernel.MemoryManagerCounts
import NXEmu.Kernel.MemoryManagerRanges
import NXEmu.Kernel.MemoryManagerContinuous
import NXEmu.Kernel.DynamicPageManager
import NXEmu.Kernel.DynamicPageManagerRuns
import NXEmu.Kernel.MemoryBlock
import NXEmu.Kernel.MemoryBlockMerge
import NXEmu.Kernel.MemoryBlockManager
import NXEmu.Kernel.MemoryBlockUpdate
import NXEmu.Kernel.MemoryBlockCoalesce
import NXEmu.Kernel.MemoryPageMap
import NXEmu.Kernel.MemoryIpcLock
import NXEmu.Kernel.ResourceLimit
import NXEmu.Kernel.SharedMemory
import NXEmu.Kernel.AddressArbiter
import NXEmu.Kernel.HandleTable
import NXEmu.Kernel.HandleTableRuns
import NXEmu.Common.Alignment
import NXEmu.Common.BitSet
import NXEmu.Common.RangeMap
import NXEmu.Common.OverlapRangeSet
import NXEmu.Common.LruCache
import NXEmu.Common.SlotVector
import NXEmu.Kernel.PriorityQueue
import NXEmu.Kernel.PriorityQueueLists
import NXEmu.Kernel.PriorityQueueOrder
import NXEmu.Kernel.PriorityQueueRuns
import NXEmu.Kernel.ThreadLock
import NXEmu.Kernel.ThreadLockLinks
import NXEmu.Kernel.ThreadLockRestore
import NXEmu.Common.AddressSpace
import NXEmu.Common.AddressSpaceBlocks
import NXEmu.Common.AddressSpaceMap
import NXEmu.Common.AddressSpaceRuns
import NXEmu.Common.AllocatorBooks
import NXEmu.Common.AllocatorRuns
import NXEmu.VideoCore.WordManager
import NXEmu.VideoCore.WordManagerPages
import NXEmu.VideoCore.WordManagerRegions
import NXEmu.VideoCore.WordManagerQueries
import NXEmu.VideoCore.WordManagerRuns
import NXEmu.VideoCore.MemoryTracker
import NXEmu.VideoCore.MemoryTrackerPages
import NXEmu.VideoCore.MemoryTrackerRuns
import NXEmu.VideoCore.ReadbackPageTracker
import NXEmu.VideoCore.ReadbackPageTrackerPages
import NXEmu.VideoCore.ReadbackPageTrackerRuns
import NXEmu.VideoCore.DeviceMemoryManager
import NXEmu.VideoCore.DeviceMemoryManagerContinuity
import NXEmu.VideoCore.DeviceMemoryManagerRuns
import NXEmu.VideoCore.MultiAddressContainer
import NXEmu.VideoCore.DeviceReverseMap
import NXEmu.VideoCore.CachedPages
import NXEmu.VideoCore.TextureDecoders
import NXEmu.VideoCore.TextureDecodersOffsets
import NXEmu.VideoCore.TextureDecodersTexels
import NXEmu.VideoCore.TextureDecodersInverse
import NXEmu.VideoCore.TextureDecodersSubrect
import NXEmu.VideoCore.Surface
import NXEmu.VideoCore.SwizzleRange
import NXEmu.VideoCore.ObservedReadbackPlan
import NXEmu.VideoCore.MemoryManagerKinds
import NXEmu.VideoCore.MemoryManagerNotify
import NXEmu.VideoCore.TextureCacheUtil
import NXEmu.VideoCore.TextureCacheLevels
import NXEmu.VideoCore.TextureCacheUpload
import NXEmu.VideoCore.TextureCacheDownload
import NXEmu.VideoCore.TextureCacheReads
import NXEmu.VideoCore.TextureCacheSlices
import NXEmu.VideoCore.ImageBase
import NXEmu.VideoCore.ImageAlias
import NXEmu.VideoCore.MacroEngine
import NXEmu.VideoCore.MemoryManager
import NXEmu.VideoCore.MemoryManagerTables
import NXEmu.VideoCore.MemoryManagerPages
import NXEmu.VideoCore.MemoryManagerRuns
import NXEmu.Shader.Microinstruction
import NXEmu.Shader.ConstantPropagation
import NXEmu.Shader.Semantics
import NXEmu.Shader.Rewriting
import NXEmu.Shader.BitFields
import NXEmu.Shader.ConstantFolds
import NXEmu.Shader.OperandFolds
import NXEmu.Shader.AdditionFolds
import NXEmu.Shader.ConstantPropagationKeeps
import NXEmu.Shader.IntegerEmitter
import NXEmu.Shader.SsaGraph
import NXEmu.Shader.SsaExecution
import NXEmu.Shader.ResidueAnalyzer
import NXEmu.Shader.SharedLoadUses
import NXEmu.Shader.SharedMemoryPacking
import NXEmu.Shader.StorageTracking
import NXEmu.Shader.WordHalves
import NXEmu.Shader.LowerInt64
import NXEmu.Audio.AudioBuffers
import NXEmu.Audio.AudioBuffersRuns
import NXEmu.Audio.NodeStates
import NXEmu.Audio.NodeStatesSort
import NXEmu.VideoCore.DmaRemap
import NXEmu.VideoCore.GPUDirtyMemoryManager
import NXEmu.VideoCore.GPUDirtyMemoryManagerRuns
import NXEmu.VideoCore.GranularRange
import NXEmu.VideoCore.InvalidationAccumulator
import NXEmu.VideoCore.UsageTracker
import NXEmu.VideoCore.PageFilters
import NXEmu.VideoCore.SparseRegions
import NXEmu.Loader.BucketTree
import NXEmu.Loader.BucketTreeLayout
import NXEmu.Loader.BucketTreeFind
import NXEmu.Loader.BucketTreeVisitor
import NXEmu.Loader.BucketTreeExact
import NXEmu.Lib.Runs
import NXEmu.Lib.BitLoop
import NXEmu.Kernel.PageGroupTraversal
import NXEmu.Kernel.SchedulerUpdate
import NXEmu.Lib.Logged
import NXEmu.VideoCore.ShaderProfileContainer
import NXEmu.Lib.Bytes
import NXEmu.Loader.IpsLayer
import NXEmu.Lib.CopyRange
import NXEmu.Loader.AlignmentMatchingStorage
import NXEmu.Lib.Chain
import NXEmu.Audio.MixContext
import NXEmu.Audio.MixOrder
import NXEmu.Lib.Acyclic
import NXEmu.Loader.RomFS
import NXEmu.Audio.AdpcmDecoder
import NXEmu.Audio.AdpcmStream
import NXEmu.Core.NceWrittenRanges
import NXEmu.Service.SyncpointManager
import NXEmu.Service.SparseOwnership
import NXEmu.Audio.SplitterContext
import NXEmu.Kernel.MemoryManagerReferences
import NXEmu.Kernel.MemoryFreeArea
import NXEmu.Kernel.HandleTableReferences
