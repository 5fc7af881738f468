import AggreKV.BlockSsd.Occupancy
import AggreKV.BlockSsd.Ownership
import AggreKV.BlockSsd.TraceReplay
import AggreKV.HashKv.Accounting
import AggreKV.HashKv.AlgoQueue
import AggreKV.HashKv.Budget
import AggreKV.HashKv.ColdCapacity
import AggreKV.HashKv.Completion
import AggreKV.HashKv.FlushDurability
import AggreKV.HashKv.FreeSearch
import AggreKV.HashKv.GhostOrder
import AggreKV.HashKv.Ghosts
import AggreKV.HashKv.GrainAssignment
import AggreKV.HashKv.GrainPacking
import AggreKV.HashKv.HotCoherence
import AggreKV.HashKv.HotCounters
import AggreKV.HashKv.HotReach
import AggreKV.HashKv.HotRefinement
import AggreKV.HashKv.HotRehash
import AggreKV.HashKv.KeyBudget
import AggreKV.HashKv.Lookup
import AggreKV.HashKv.LruList
import AggreKV.HashKv.LunTimes
import AggreKV.HashKv.PageHeat
import AggreKV.HashKv.Promotion
import AggreKV.HashKv.Retention
import AggreKV.HashKv.Sequential
import AggreKV.HashKv.SingleStream
import AggreKV.HashKv.SkiplistHeap
import AggreKV.HashKv.WarmRehash
import AggreKV.LsmTree.FlushCut
import AggreKV.LsmTree.Handshake
import AggreKV.LsmTree.Invalidation
import AggreKV.LsmTree.LevelGet
import AggreKV.LsmTree.PageAllocation
import AggreKV.LsmTree.PageMerge
import AggreKV.LsmTree.Requests
import AggreKV.LsmTree.SkiplistHeap
import AggreKV.LsmTree.ValuePacking
import AggreKV.RteRing.Progress
