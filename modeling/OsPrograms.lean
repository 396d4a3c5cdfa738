import OsPrograms.Lib.TransitionSystem
import OsPrograms.Lib.Refinement
import OsPrograms.Lib.Termination
import OsPrograms.Lib.StateError
import OsPrograms.Lib.RingWindow
import OsPrograms.Lib.BoundedQueue
import OsPrograms.Lib.Semaphore
import OsPrograms.Lib.SysvSemaphore
import OsPrograms.Lib.RecordLock
import OsPrograms.Lib.RangeLock
import OsPrograms.Lib.LockFile
import OsPrograms.Lib.WaitFor
import OsPrograms.Lib.ProcessTable
import OsPrograms.Lib.MessageLog
import OsPrograms.Lib.MessageQueue
import OsPrograms.Lib.PosixQueue
import OsPrograms.Lib.Descriptors
import OsPrograms.Lib.ControlMessage
import OsPrograms.Lib.Pipe
import OsPrograms.Lib.SocketStream
import OsPrograms.Lib.AcceptLoop
import OsPrograms.Lib.Signal
import OsPrograms.Lib.SignalPipe
import OsPrograms.Lib.PollLoop
import OsPrograms.Lib.Stdio
import OsPrograms.Lib.Printf
import OsPrograms.Common.WriteAll
import OsPrograms.Common.WaitChildren
import OsPrograms.Sockets.CalcParser
import OsPrograms.Sockets.CalcGrammar
import OsPrograms.Sockets.CalcSteps
import OsPrograms.Sockets.CalcCorrectness
import OsPrograms.Sockets.CalcTrace
import OsPrograms.Sockets.CalcBounds
import OsPrograms.Sockets.CalcRendering
import OsPrograms.Sockets.CalcService
import OsPrograms.Sockets.CalcReply
import OsPrograms.Sockets.CalcServerReap
import OsPrograms.Sockets.CalcConversation
import OsPrograms.Sockets.CalcSessions
import OsPrograms.Sockets.CalcSocketPath
import OsPrograms.Sockets.UnixDgramLogger
import OsPrograms.Sockets.EpollUnixEcho
import OsPrograms.Sockets.EpollEchoLoop
import OsPrograms.Sockets.EpollEchoProgress
import OsPrograms.Sockets.SocketpairFdPassing
import OsPrograms.Sockets.FdPassingInvariant
import OsPrograms.Sockets.FdPassingOutcome
import OsPrograms.InternetSockets.TcpShutdownHalfclose
import OsPrograms.InternetSockets.TcpForkingEchoServer
import OsPrograms.SharedMemory.PosixShmRingSem
import OsPrograms.SharedMemory.RingRefinesQueue
import OsPrograms.SharedMemory.SharedCounters
import OsPrograms.Semaphores.PosixNamedSemPingpong
import OsPrograms.Semaphores.PingpongOutcome
import OsPrograms.Semaphores.SysvBinarySemaphoreGuard
import OsPrograms.Semaphores.SysvSemaphoreSetBarrier
import OsPrograms.Semaphores.BarrierOutcome
import OsPrograms.Semaphores.PosixShmUnnamedSemLatch
import OsPrograms.FileLocking.LockedCounter
import OsPrograms.FileLocking.LockedCounterTermination
import OsPrograms.FileLocking.OfdLockCounter
import OsPrograms.FileLocking.OfdCounterRange
import OsPrograms.FileLocking.FcntlByteRangeLocks
import OsPrograms.FileLocking.DeadlockAvoidanceOrdering
import OsPrograms.FileLocking.LockfileSingleInstance
import OsPrograms.FileLocking.LockfileContents
import OsPrograms.FileLocking.FlockParentChild
import OsPrograms.FileLocking.FlockCompetitors
import OsPrograms.FileLocking.FlockProgress
import OsPrograms.MessageQueues.SysvPriorityWorkers
import OsPrograms.MessageQueues.PriorityWorkersReports
import OsPrograms.MessageQueues.PriorityWorkersProgress
import OsPrograms.MessageQueues.PriorityWorkersTermination
import OsPrograms.MessageQueues.SysvRequestReply
import OsPrograms.MessageQueues.PosixMqReceive
import OsPrograms.Pipes.FifoSelectChat
import OsPrograms.Pipes.FifoChatDelivery
import OsPrograms.Pipes.SelfPipeSignalReactor
import OsPrograms.Pipes.AnonymousPipelineExec
import OsPrograms.Pipes.PipelineProgress
import OsPrograms.Pipes.FullDuplexPipePoll
import OsPrograms.Pipes.FullDuplexProgress
import OsPrograms.Signals.SigchldSupervisor
import OsPrograms.Signals.SupervisorOutput
import OsPrograms.Signals.HandlerWrites
import OsPrograms.Signals.RealtimeSignalOrder
import OsPrograms.Signals.SigsuspendWait
import OsPrograms.Signals.SigactionRestartDemo
