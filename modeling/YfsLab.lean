import YfsLab.Lib.Runs
import YfsLab.Lib.History
import YfsLab.Lib.Words
import YfsLab.ReplyWindow
import YfsLab.XidRepWindow
import YfsLab.Marshall
import YfsLab.Rpcc
import YfsLab.Rpcs
import YfsLab.ReplyTarget
import YfsLab.CallTable
import YfsLab.ServerReplies
import YfsLab.RpcSystem
import YfsLab.RightResult
import YfsLab.AtMostOnce
import YfsLab.Receive
import YfsLab.ReadPdu
import YfsLab.Send
import YfsLab.Wakeups
import YfsLab.PollLoop
import YfsLab.AioMgr
import YfsLab.PollMgr
import YfsLab.Lib.Program
import YfsLab.Lib.Interference
import YfsLab.Lib.OrderedMap
import YfsLab.Lib.Counting
import YfsLab.ExtentProtocol
import YfsLab.Deserialize
import YfsLab.ExtentServer
import YfsLab.YfsClient
import YfsLab.Directory
import YfsLab.Creates
import YfsLab.SharedDirectory
import YfsLab.Dangling
import YfsLab.FreshInums
import YfsLab.Containers
import YfsLab.Arguments
import YfsLab.Decodes
import YfsLab.LockServer
import YfsLab.LockPool
import YfsLab.RefCounts
import YfsLab.Backlog
import YfsLab.ThrPool
import YfsLab.Binding
import YfsLab.StaleRequests
import YfsLab.Instances
import YfsLab.Timespec
import YfsLab.Deadlines
import YfsLab.WaitReady
import YfsLab.Accept
import YfsLab.Fifo
import YfsLab.MarshallBuffer
import YfsLab.ReplyConnection
import YfsLab.Lib.Heap
import YfsLab.ReplyBuffers
import YfsLab.BufferOwners
import YfsLab.LostBuffers
import YfsLab.ResentReplies
import YfsLab.FuseDirent
import YfsLab.Readdir
import YfsLab.Fuse
import YfsLab.Channel
import YfsLab.Lib.References
import YfsLab.ClientRefs
import YfsLab.ServerRefs
import YfsLab.Causes
import YfsLab.Outcomes
import YfsLab.WakePipe
import YfsLab.LockClients
import YfsLab.Lib.Sequential
import YfsLab.Services
import YfsLab.Copies
import YfsLab.Mounts
import YfsLab.FuseSession
import YfsLab.Senders
import YfsLab.Finishing
import YfsLab.PoolShutdown
import YfsLab.FifoProgress
import YfsLab.LockPoolProgress
import YfsLab.DispatchProgress
