import LinuxLabs.Execution
import LinuxLabs.CString
import LinuxLabs.KeyedTable
import LinuxLabs.LinkedList
import LinuxLabs.EdgeTriggered
import LinuxLabs.EventLoop
import LinuxLabs.Mutex
import LinuxLabs.ChildProcess
import LinuxLabs.Forwarding
import LinuxLabs.JobTable
import LinuxLabs.RoomChatServer
import LinuxLabs.RoomChatTable
import LinuxLabs.RoomChatIsolation
import LinuxLabs.RoomChatSegmentation
import LinuxLabs.UdpLoadBalancer
import LinuxLabs.TcpLoadBalancer
import LinuxLabs.TcpAvailability
import LinuxLabs.AsyncLoadBalancer
import LinuxLabs.BalancerStreams
import LinuxLabs.ThreadPoolServer
import LinuxLabs.ThreadPoolClients
import LinuxLabs.ThreadPoolBroadcast
import LinuxLabs.JobControlShell
import LinuxLabs.PipelineShell
import LinuxLabs.PipelineCompletion
import LinuxLabs.PipelineGroups
import LinuxLabs.TlsChatServer
import LinuxLabs.TlsConnections
import LinuxLabs.TlsCalls
import LinuxLabs.TlsBroadcast
import LinuxLabs.TlsRetry
import LinuxLabs.TlsNotifications
import LinuxLabs.EpollChatServer
import LinuxLabs.CommandChatServer
import LinuxLabs.StrandedInput
import LinuxLabs.PrivateMessages
import LinuxLabs.ThreadPoolQueue
import LinuxLabs.ThreadPoolHandoff
import LinuxLabs.ThreadPoolSignals
import LinuxLabs.ThreadPoolShutdown
import LinuxLabs.ThreadPoolDelivery
import LinuxLabs.Descriptors
import LinuxLabs.PipelineWiring
import LinuxLabs.TcpSessions
import LinuxLabs.SharedQueue
import LinuxLabs.TerminalControl
import LinuxLabs.TcpEcho
import LinuxLabs.BackgroundJobs
import LinuxLabs.Redirection
import LinuxLabs.StringTokens
import LinuxLabs.PipelineSplit
import LinuxLabs.BackgroundParser
import LinuxLabs.RoomChatNotices
import LinuxLabs.ChatBuffers
import LinuxLabs.RoomChatClient
import LinuxLabs.PipelineEntries
import LinuxLabs.JobListing
import LinuxLabs.PipelineForeground
import LinuxLabs.PipelineParser
import LinuxLabs.SendAll
import LinuxLabs.CommandTexts
import LinuxLabs.ArrayAccess
import LinuxLabs.ChatBounds
import LinuxLabs.BalancerBounds
import LinuxLabs.FdChatServer
import LinuxLabs.SelectLogger
import LinuxLabs.TlsCleanup
import LinuxLabs.Journal
import LinuxLabs.UdpLoggers
import LinuxLabs.BalancerTurns
import LinuxLabs.ForkingSessions
import LinuxLabs.MessagePipe
import LinuxLabs.NamedPipe
import LinuxLabs.SharedMemory
import LinuxLabs.ChatSystem
import LinuxLabs.ThreadPoolProgress
import LinuxLabs.UdpEcho
import LinuxLabs.LineClient
import LinuxLabs.TcpLogger
import LinuxLabs.DaemonLogger
import LinuxLabs.MiniShell
import LinuxLabs.TlsShutdown
import LinuxLabs.ExecChain
import LinuxLabs.ProcessGroups
import LinuxLabs.SignalControl
