import NiFat32.Core.NiFat32
import NiFat32.Lib.Chain
import NiFat32.Proofs.Volume
import NiFat32.Proofs.Fat
import NiFat32.Proofs.Chains
import NiFat32.Proofs.FileBytes
import NiFat32.Proofs.Slots
import NiFat32.Proofs.Walk
import NiFat32.Proofs.Tree
import NiFat32.Proofs.Directory
import NiFat32.Proofs.Insert
import NiFat32.Lib.Assoc
import NiFat32.Proofs.DirMap
import NiFat32.Proofs.Rename
import NiFat32.Proofs.Truncate
import NiFat32.Proofs.FatVote
import NiFat32.Core.BootSector
import NiFat32.Core.Init
import NiFat32.Proofs.Mount
import NiFat32.Proofs.BootRepair
import NiFat32.Proofs.Reencode
import NiFat32.Proofs.RepairTree
import NiFat32.Proofs.Lookup
import NiFat32.Proofs.BitFlips
import NiFat32.Core.Api
import NiFat32.Proofs.Handles
import NiFat32.Proofs.Create
import NiFat32.Proofs.OpenPath
import NiFat32.Lib.Window
import NiFat32.Lib.Ring
import NiFat32.Proofs.Areas
import NiFat32.Proofs.Replay
import NiFat32.Proofs.JournalSlots
import NiFat32.Proofs.ErrorRing
import NiFat32.Proofs.Remount
import NiFat32.Proofs.FatCache
import NiFat32.Core.Formatter
import NiFat32.Lib.Copies
import NiFat32.Lib.Extent
import NiFat32.Proofs.Placement
import NiFat32.Proofs.FormatFat
import NiFat32.Lib.Relational
import NiFat32.Proofs.Parametric
import NiFat32.Proofs.Calls
import NiFat32.Proofs.Indexed
import NiFat32.Core.Process
import NiFat32.Proofs.Logs
import NiFat32.Proofs.Requests
import NiFat32.Proofs.Reserve
import NiFat32.Proofs.CacheRoom
import NiFat32.Proofs.Isolation
import NiFat32.Proofs.FatView
import NiFat32.Proofs.TwoMounts
import NiFat32.Lib.Release
import NiFat32.Lib.BitWords
import NiFat32.Lib.RedBlack
import NiFat32.Proofs.FreeChain
import NiFat32.Proofs.Allocation
import NiFat32.Proofs.FreeMap
import NiFat32.Proofs.ChainGrowth
import NiFat32.Proofs.IndexTree
import NiFat32.Proofs.IndexInsert
import NiFat32.Proofs.IndexMend
import NiFat32.Proofs.IndexDelete
import NiFat32.Proofs.Subtree
import NiFat32.Proofs.FreshDir
import NiFat32.Std.Unpack
import NiFat32.Std.FatPath
import NiFat32.Proofs.FreeRuns
import NiFat32.Proofs.Geometry
import NiFat32.Proofs.SectorIO
import NiFat32.Proofs.Names
import NiFat32.Proofs.FormatNames
import NiFat32.Lib.Alternate
import NiFat32.Proofs.FatSize
import NiFat32.Lib.Holders
import NiFat32.Core.IoGuard
import NiFat32.Proofs.IoGuard
import NiFat32.Lib.FirstFit
import NiFat32.Std.Mm
import NiFat32.Proofs.Heap
import NiFat32.Lib.SharedLock
import NiFat32.Std.Threading
import NiFat32.Proofs.LockWord
import NiFat32.Proofs.WalkEnds
import NiFat32.Std.Damage
import NiFat32.Lib.Refine
import NiFat32.Lib.Pool
import NiFat32.Proofs.CopyChain
import NiFat32.Proofs.FileStore
import NiFat32.Proofs.ClusterPool
import NiFat32.Core.FormatCopy
import NiFat32.Proofs.FormatCopy
import NiFat32.Proofs.FormatRead
import NiFat32.Proofs.ReplayRecords
import NiFat32.Lib.Replicas
import NiFat32.Proofs.FatHealing
import NiFat32.Proofs.NameMap
import NiFat32.Proofs.TreeStore
import NiFat32.Proofs.TreeCalls
