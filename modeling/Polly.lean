import Polly.Runs
import Polly.Vec
import Polly.Channel
import Polly.Poller
import Polly.PollerReturn
import Polly.PollerReady
import Polly.Dispatch
import Polly.EventLoop
import Polly.EventLoopThread
import Polly.Buffer
import Polly.BufferRun
import Polly.BufferGrowth
import Polly.Conn
import Polly.ConnSpec
import Polly.StateRace
import Polly.Session
import Polly.SessionSend
import Polly.SessionStrings
import Polly.SessionRecv
import Polly.SessionFlush
import Polly.SessionInterest
import Polly.SessionShutdown
import Polly.CrossThread
import Polly.SessionClosed
import Polly.TcpServer
import Polly.ServerSpec
import Polly.ServerTable
import Polly.ServerLifetime
import Polly.ServerDestroy
import Polly.Multimap
import Polly.TimerQueue
import Polly.TimerRun
import Polly.TimerWake
import Polly.Deferred
import Polly.FixedBuffer
import Polly.AsyncLogging
import Polly.LogFile
import Polly.FileRetry
import Polly.LogFiles
import Polly.Ieee
import Polly.Printf
import Polly.LogStream
import Polly.FmtSize
import Polly.CString
import Polly.Logger
import Polly.Component
import Polly.ServerConns
import Polly.EchoServer
import Polly.PollerTable
import Polly.LoopPoller
import Polly.ServerPoller
import Polly.LogPipeline
import Polly.Calendar
import Polly.Columns
import Polly.TimerPace
import Polly.Timestamps
import Polly.LogDirectory
import Polly.LogLine
