import BoostContainer.Deque.DequeBase
import BoostContainer.Deque.DequeCopies
import BoostContainer.Deque.DequeEnds
import BoostContainer.Deque.DequeErase
import BoostContainer.Deque.DequeImpl
import BoostContainer.Deque.DequeIterator
import BoostContainer.Deque.DequeMap
import BoostContainer.Deque.DequeMiddle
import BoostContainer.Deque.DequeMoves
import BoostContainer.Deque.DequeNodes
import BoostContainer.Deque.DequeRanges
import BoostContainer.Deque.DequeReserve
import BoostContainer.Deque.DequeRoom
import BoostContainer.Deque.DequeSizes
import BoostContainer.Detail.Algorithm
import BoostContainer.Detail.CopyMoveAlgo
import BoostContainer.Detail.CopyMoveEnds
import BoostContainer.Detail.CopyMoveInsert
import BoostContainer.Detail.CopyMoveKeeps
import BoostContainer.Detail.CopyMoveShift
import BoostContainer.Detail.CopyMoveUnwind
import BoostContainer.Detail.DeepSwap
import BoostContainer.Detail.NextCapacity
import BoostContainer.Detail.NodeAllocHolder
import BoostContainer.Detail.RangeAssign
import BoostContainer.Detail.Uninitialized
import BoostContainer.Devector.Devector
import BoostContainer.Devector.DevectorAllocatorRuns
import BoostContainer.Devector.DevectorAllocators
import BoostContainer.Devector.DevectorCapacity
import BoostContainer.Devector.DevectorConstruct
import BoostContainer.Devector.DevectorInsert
import BoostContainer.Dlmalloc.AllocateMany
import BoostContainer.Dlmalloc.BackwardsLcm
import BoostContainer.Dlmalloc.Free
import BoostContainer.Dlmalloc.Heap
import BoostContainer.Dlmalloc.Memchain
import BoostContainer.Dlmalloc.Shrink
import BoostContainer.Flat.FlatMerge
import BoostContainer.Flat.FlatMove
import BoostContainer.Flat.FlatSearch
import BoostContainer.Flat.FlatTree
import BoostContainer.Flat.MovedFrom
import BoostContainer.Hub.Hub
import BoostContainer.Hub.HubAssign
import BoostContainer.Hub.HubCapacity
import BoostContainer.Hub.HubCompact
import BoostContainer.Hub.HubEmplace
import BoostContainer.Hub.HubErase
import BoostContainer.Hub.HubEraseRange
import BoostContainer.Hub.HubInsert
import BoostContainer.Hub.HubInsertRange
import BoostContainer.Hub.HubIterator
import BoostContainer.Hub.HubLayout
import BoostContainer.Hub.HubShrink
import BoostContainer.Hub.HubSort
import BoostContainer.Hub.HubSplice
import BoostContainer.Hub.HubStep
import BoostContainer.Hub.HubSwap
import BoostContainer.Hub.HubUnique
import BoostContainer.Hub.HubVisit
import BoostContainer.Lib.BlockLedger
import BoostContainer.Lib.Blocks
import BoostContainer.Lib.BoundaryTags
import BoostContainer.Lib.Buffer
import BoostContainer.Lib.ByteMemory
import BoostContainer.Lib.Circular
import BoostContainer.Lib.Cycles
import BoostContainer.Lib.Heap
import BoostContainer.Lib.Links
import BoostContainer.Lib.Lists
import BoostContainer.Lib.Mask
import BoostContainer.Lib.PartitionPoint
import BoostContainer.Lib.Program
import BoostContainer.Lib.Rearrange
import BoostContainer.Lib.Region
import BoostContainer.Lib.Run
import BoostContainer.Lib.SegmentEnds
import BoostContainer.Lib.SegmentFill
import BoostContainer.Lib.SegmentWalks
import BoostContainer.Lib.Segments
import BoostContainer.Lib.SlotCells
import BoostContainer.Lib.SlotLoops
import BoostContainer.Lib.SlotStores
import BoostContainer.Lib.SlotUnwind
import BoostContainer.Lib.SlotValues
import BoostContainer.Lib.SlotViews
import BoostContainer.Lib.Slots
import BoostContainer.Lib.SortedList
import BoostContainer.Lib.StableOrder
import BoostContainer.Lib.SwapRanges
import BoostContainer.Lib.Word
import BoostContainer.Pmr.MemoryBlocks
import BoostContainer.Pmr.Monotonic
import BoostContainer.Pmr.MonotonicContainment
import BoostContainer.Pmr.PoolResource
import BoostContainer.Pmr.PoolResourceCorrect
import BoostContainer.Pmr.PoolResourceRuns
import BoostContainer.Pmr.ResourceAdaptor
import BoostContainer.Pool.AdaptivePool
import BoostContainer.Pool.AdaptivePoolAccounts
import BoostContainer.Pool.AdaptivePoolBlocks
import BoostContainer.Pool.AdaptivePoolGeometry
import BoostContainer.Pool.AdaptivePoolLayout
import BoostContainer.Pool.AdaptivePoolPlan
import BoostContainer.Pool.AdaptivePoolRuns
import BoostContainer.Pool.NodePool
import BoostContainer.Pool.NodePoolRuns
import BoostContainer.Pool.NodePoolSweep
import BoostContainer.Segmented.SegmentedCopy
import BoostContainer.Segmented.SegmentedCopyN
import BoostContainer.Segmented.SegmentedFillN
import BoostContainer.Segmented.SegmentedFindIf
import BoostContainer.Segmented.SegmentedFindLast
import BoostContainer.Segmented.SegmentedGenerate
import BoostContainer.Segmented.SegmentedMerge
import BoostContainer.Segmented.SegmentedMismatch
import BoostContainer.Segmented.SegmentedPartition
import BoostContainer.Segmented.SegmentedPartitionBidir
import BoostContainer.Segmented.SegmentedReverse
import BoostContainer.Segmented.SegmentedReverseCopy
import BoostContainer.Segmented.SegmentedSearch
import BoostContainer.Segmented.SegmentedSearchN
import BoostContainer.Segmented.SegmentedSearchNSeams
import BoostContainer.Segmented.SegmentedSetOperations
import BoostContainer.Segmented.SegmentedSortedUntil
import BoostContainer.Segmented.SegmentedStablePartition
import BoostContainer.Slist.Slist
import BoostContainer.Slist.SlistEdits
import BoostContainer.SmallVector.SmallVectorMove
import BoostContainer.String.BasicString
import BoostContainer.String.BasicStringEditing
import BoostContainer.String.BasicStringFind
import BoostContainer.String.BasicStringForms
import BoostContainer.String.BasicStringOperations
import BoostContainer.String.BasicStringRuns
import BoostContainer.String.BasicStringSizes
import BoostContainer.Tree.Tree
import BoostContainer.Tree.TreeAssign
import BoostContainer.Tree.TreeClone
import BoostContainer.Tree.TreeInsert
import BoostContainer.Tree.TreeMove
import BoostContainer.Vector.MovedElements
import BoostContainer.Vector.StaticVector
import BoostContainer.Vector.StaticVectorRuns
import BoostContainer.Vector.StoredSize
import BoostContainer.Vector.StoredSizeRuns
import BoostContainer.Vector.Vector
import BoostContainer.Vector.VectorMerge
import BoostContainer.Vector.VectorMergeUnique
