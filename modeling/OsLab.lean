import OsLab.Reach
import OsLab.Tally
import OsLab.Semaphore
import OsLab.RootedTree
import OsLab.BarrierStep
import OsLab.BarrierInv
import OsLab.BarrierRounds
import OsLab.Mailbox
import OsLab.PagingMmu
import OsLab.PagingFrames
import OsLab.PagingRefstr
import OsLab.PagingSys
import OsLab.PagingProc
import OsLab.PagingToken
import OsLab.PagingRefine
import OsLab.PagingProtocol
import OsLab.PagingProgress
import OsLab.PagingFinish
import OsLab.FileTree
import OsLab.TreeFrame
import OsLab.PathWalk
import OsLab.SyncCalls
import OsLab.SyncCode
import OsLab.SyncEffects
import OsLab.SyncCopy
import OsLab.SyncDirs
import OsLab.SyncStamp
import OsLab.SyncMirror
import OsLab.SyncFailures
import OsLab.SyncLinks
import OsLab.SyncOutside
import OsLab.MutexStep
import OsLab.MutexOwner
import OsLab.ManagerStep
import OsLab.ManagerInv
import OsLab.ManagerRuns
import OsLab.ManagerStacks
import OsLab.SumStep
import OsLab.SumInv
import OsLab.SumTotal
import OsLab.SumRuns
import OsLab.Heap
import OsLab.EventQueue
import OsLab.SessionTurn
import OsLab.SessionInv
import OsLab.SessionLines
import OsLab.SessionRuns
import OsLab.SessionSchedule
import OsLab.TopoOrder
import OsLab.TopSortStep
import OsLab.TopSortInv
import OsLab.TopSortOrder
import OsLab.TopSortRuns
import OsLab.SessionThreads
import OsLab.SessionLocks
import OsLab.SessionTalk
import OsLab.SessionSeats
import OsLab.SessionStory
import OsLab.SessionOrder
import OsLab.ProdConsStep
import OsLab.ProdConsInv
import OsLab.SumCalls
import OsLab.SumDestroy
import OsLab.ManagerJoin
import OsLab.TidReuse
import OsLab.MgrStep
import OsLab.MgrRuns
import OsLab.FdTable
import OsLab.LineStream
import OsLab.CseStep
import OsLab.CseFds
import OsLab.CseInv
import OsLab.CseRuns
import OsLab.OrderedTree
import OsLab.ProcTreeStep
import OsLab.ProcTreeListing
import OsLab.ProcTreeFile
import OsLab.LastUse
import OsLab.PagingLru
import OsLab.MoveToFront
import OsLab.PagingStack
import OsLab.TopSortCheck
import OsLab.TopSortRemoval
import OsLab.DecimalText
import OsLab.SessionClock
import OsLab.EventFile
import OsLab.GenTree
import OsLab.PagingRoundTrip
import OsLab.SessionBounds
import OsLab.SyncRemoval
import OsLab.SyncHandles
import OsLab.ChangeLog
import OsLab.SyncReport
import OsLab.SyncLocal
import OsLab.SyncRecursion
import OsLab.CountedLoop
import OsLab.GraphFile
import OsLab.GenGraph
import OsLab.PrefixReader
import OsLab.EventReads
import OsLab.TreeFile
import OsLab.SumTyped
import OsLab.SessionEnds
import OsLab.SessionClose
import OsLab.SessionDay
import OsLab.SyncBuffers
