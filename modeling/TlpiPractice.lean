import TlpiPractice.Library.Runs
import TlpiPractice.Library.Words
import TlpiPractice.Library.MsgQueue
import TlpiPractice.Library.ByteFile
import TlpiPractice.Library.Stretches
import TlpiPractice.Library.Ints
import TlpiPractice.Library.LinkedList
import TlpiPractice.Library.Lines
import TlpiPractice.Theory.ProcessTree.Order
import TlpiPractice.Theory.ReadLine.Lines
import TlpiPractice.Theory.SeqServer.Disjoint
import TlpiPractice.Theory.SparseCopy.Copies
import TlpiPractice.Theory.Chat.Delivery
import TlpiPractice.Theory.Chat.Segments
import TlpiPractice.Theory.Chat.Broadcast
import TlpiPractice.Theory.Chat.Reuse
import TlpiPractice.Theory.Chat.Survival
import TlpiPractice.Library.BoundaryTags
import TlpiPractice.Theory.Malloc.Overlap
import TlpiPractice.Theory.Malloc.Coalesce
import TlpiPractice.Theory.Malloc.Size
import TlpiPractice.Library.Mutex
import TlpiPractice.Theory.OneTimeInit.Once
import TlpiPractice.Library.UndoSem
import TlpiPractice.Theory.BinarySem.Permits
import TlpiPractice.Library.PointerTree
import TlpiPractice.Library.CString
import TlpiPractice.Theory.SafeTree.Progress
import TlpiPractice.Library.Memory
import TlpiPractice.Theory.ReadvWritev.RoundTrip
import TlpiPractice.Theory.PipeEcho.Lockstep
import TlpiPractice.Theory.SysvSignal.Reference
import TlpiPractice.Theory.Popen.Children
import TlpiPractice.Theory.Getcwd.Again
import TlpiPractice.Theory.Realpath.Canonical
import TlpiPractice.Theory.FifoSem.Tokens
import TlpiPractice.Library.TextLines
import TlpiPractice.Library.MaximalRuns
import TlpiPractice.Theory.Tail.Print
import TlpiPractice.Theory.Tail.Ring
import TlpiPractice.Theory.Tail.Print
import TlpiPractice.Theory.SparseCopy.Trace
import TlpiPractice.Theory.SparseCopy.Limits
import TlpiPractice.Core.PrintTree
import TlpiPractice.Library.Forest
import TlpiPractice.Theory.ProcessTree.Adoption
import TlpiPractice.Theory.ProcessTree.Printing
import TlpiPractice.Theory.ProcessTree.Layout
import TlpiPractice.Theory.ProcessTree.Bars
import TlpiPractice.Theory.ProcessTree.MarkBounds
import TlpiPractice.Core.PopenCalls
import TlpiPractice.Theory.Popen.ChildSide
import TlpiPractice.Core.Sendfile
import TlpiPractice.Theory.Popen.Failure
import TlpiPractice.Theory.Sendfile.Endless
import TlpiPractice.Library.Environment
import TlpiPractice.Core.Environ
import TlpiPractice.Theory.Environ.Set
import TlpiPractice.Theory.Environ.Unset
import TlpiPractice.Core.Acl
import TlpiPractice.Theory.Acl.Users
import TlpiPractice.Theory.Acl.Groups
import TlpiPractice.Core.Getpwnam
import TlpiPractice.Core.Initgroups
import TlpiPractice.Theory.Getpwnam.History
import TlpiPractice.Theory.Initgroups.Members
import TlpiPractice.Core.Tee
import TlpiPractice.Theory.Tee.Lossless
import TlpiPractice.Core.Chattr
import TlpiPractice.Theory.Chattr.Modes
import TlpiPractice.Core.Dup
import TlpiPractice.Theory.Dup.Agreement
import TlpiPractice.Core.Ttyname
import TlpiPractice.Theory.Ttyname.Devices
import TlpiPractice.Core.FileCreateTest
import TlpiPractice.Theory.FileCreateTest.Insert
import TlpiPractice.Theory.FileCreateTest.Restore
import TlpiPractice.Core.ChatClient
import TlpiPractice.Theory.Chat.Printing
import TlpiPractice.Core.ShowUserProcs
import TlpiPractice.Theory.ShowUserProcs.Lines
import TlpiPractice.Theory.ShowUserProcs.Listing
import TlpiPractice.Theory.ShowUserProcs.Ordinary
import TlpiPractice.Core.ChatTyping
import TlpiPractice.Theory.Chat.Typing
import TlpiPractice.Core.SafeTreeCalls
import TlpiPractice.Theory.SafeTree.Release
import TlpiPractice.Core.DoUser
import TlpiPractice.Theory.DoUser.Identity
import TlpiPractice.Core.SchedFifo
import TlpiPractice.Theory.SchedFifo.Pacing
import TlpiPractice.Theory.ReadvWritev.Offsets
import TlpiPractice.Theory.ProcessTree.Shape
import TlpiPractice.Theory.Malloc.Growth
import TlpiPractice.Theory.ReadLine.Accesses
import TlpiPractice.Core.SimpleThread
import TlpiPractice.Theory.SimpleThread.Outcomes
import TlpiPractice.Core.AtomicAppend
import TlpiPractice.Theory.AtomicAppend.Appends
import TlpiPractice.Theory.AtomicAppend.Overwrites
import TlpiPractice.Core.FlockDeadLock
import TlpiPractice.Theory.FlockDeadLock.Endings
import TlpiPractice.Core.GetNum
import TlpiPractice.Theory.Chat.Ordering
import TlpiPractice.Theory.GetNum.Reading
import TlpiPractice.Theory.PipeEcho.Endless
import TlpiPractice.Theory.OneTimeInit.Completion
import TlpiPractice.Core.FileMonitor
import TlpiPractice.Theory.FileMonitor.Batches
import TlpiPractice.Core.ProcScan
import TlpiPractice.Theory.ProcessTree.Scanning
import TlpiPractice.Core.SigServer
import TlpiPractice.Theory.SigServer.Service
import TlpiPractice.Core.MallocTest
import TlpiPractice.Theory.MallocTest.Frees
import TlpiPractice.Core.SyncWithSem
import TlpiPractice.Theory.SyncWithSem.Orders
import TlpiPractice.Core.UtmpxLogin
import TlpiPractice.Theory.UtmpxLogin.Entries
import TlpiPractice.Theory.UtmpxLogin.Lookups
import TlpiPractice.Core.UseWaitid
import TlpiPractice.Theory.UseWaitid.Reports
import TlpiPractice.Core.SocketBlock
import TlpiPractice.Theory.SocketBlock.Flow
import TlpiPractice.Core.SigHandleOrder
import TlpiPractice.Theory.SigHandleOrder.Handlers
import TlpiPractice.Theory.SigHandleOrder.Reports
import TlpiPractice.Core.Sigcont
import TlpiPractice.Theory.Sigcont.Tags
import TlpiPractice.Core.SigIgnTest
import TlpiPractice.Theory.SigIgnTest.Greetings
import TlpiPractice.Core.ErrorFunctions
import TlpiPractice.Theory.ErrorFunctions.Output
import TlpiPractice.Core.MmapCopy
import TlpiPractice.Theory.MmapCopy.Copies
