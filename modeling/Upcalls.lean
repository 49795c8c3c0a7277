import Upcalls.Verification.LibUpcall.Setup
import Upcalls.Model.UpcallEcho
import Upcalls.Library.Ownership
import Upcalls.Verification.UpcallEcho.Equations
import Upcalls.Verification.UpcallEcho.Ownership
import Upcalls.Verification.UpcallEcho.Safety
import Upcalls.Verification.UpcallEcho.Armed
import Upcalls.Verification.UpcallEcho.Stream
import Upcalls.Library.Mailbox
import Upcalls.Model.Epoll
import Upcalls.Verification.Epoll.Equations
import Upcalls.Verification.Epoll.Handoff
import Upcalls.Verification.TcpEcho.Table
import Upcalls.Verification.Epoll.Events
import Upcalls.Model.IoUring
import Upcalls.Verification.IoUring.Equations
import Upcalls.Verification.IoUring.Wakeup
import Upcalls.Verification.IoUring.Handoff
import Upcalls.Library.BlockEcho
import Upcalls.Model.Session
import Upcalls.Verification.Session.Echo
import Upcalls.Library.Counter
import Upcalls.Model.BatchStats
import Upcalls.Verification.BatchStats.Counters
import Upcalls.Verification.BatchStats.Monitor
import Upcalls.Library.Histogram
import Upcalls.Verification.BatchStats.Dump
import Upcalls.Library.Words
import Upcalls.Model.TcpClient
import Upcalls.Verification.TcpClient.Equations
import Upcalls.Verification.TcpClient.Registration
import Upcalls.Library.Batches
import Upcalls.Verification.TcpClient.Life
import Upcalls.Verification.TcpClient.Log
import Upcalls.Verification.TcpClient.Counts
import Upcalls.Library.LockStep
import Upcalls.Model.EchoPair
import Upcalls.Verification.EchoPair.Server
import Upcalls.Verification.EchoPair.Client
import Upcalls.Verification.EchoPair.Echo
import Upcalls.Library.Framing
import Upcalls.Library.Numerals
import Upcalls.Model.PerfStats
import Upcalls.Verification.PerfStats.Frames
import Upcalls.Library.Ledger
import Upcalls.Verification.UpcallEcho.Accounts
import Upcalls.Verification.Epoll.Accounts
import Upcalls.Model.Threads
import Upcalls.Verification.IoUring.Accounts
import Upcalls.Verification.Threads.Accounts
import Upcalls.Verification.Accounts
import Upcalls.Library.Printing
import Upcalls.Model.ErrorReport
import Upcalls.Verification.ErrorReport.Bounds
import Upcalls.Library.Calls
import Upcalls.Verification.TcpClient.Returns
import Upcalls.Verification.Epoll.Returns
import Upcalls.Verification.TcpClient.Refusals
import Upcalls.Model.SchedulerLatency
import Upcalls.Verification.SchedulerLatency.Turns
import Upcalls.Verification.SchedulerLatency.Pairs
import Upcalls.Model.Startup
import Upcalls.Verification.Startup.Barrier
import Upcalls.Verification.Startup.Phases
import Upcalls.Verification.Startup.Retry
import Upcalls.Verification.Epoll.Links
import Upcalls.Verification.Epoll.Buffers
import Upcalls.Verification.IoUring.Depth
import Upcalls.Verification.IoUring.Overrun
import Upcalls.Model.ReqInfo
import Upcalls.Verification.IoUring.Deeds
import Upcalls.Verification.IoUring.Refused
import Upcalls.Verification.IoUring.Outstanding
import Upcalls.Verification.IoUring.Records
import Upcalls.Library.Bytes
import Upcalls.Library.Regions
import Upcalls.Model.TscLogger
import Upcalls.Verification.TscLogger.Reservation
import Upcalls.Verification.TscLogger.RoundTrip
import Upcalls.Model.LogSizing
import Upcalls.Verification.TcpClient.Dispatch
import Upcalls.Verification.TcpClient.Sizing
import Upcalls.Verification.TcpClient.LogRoom
import Upcalls.Library.Chains
import Upcalls.Model.BufferCache
import Upcalls.Verification.BufferCache.Queue
import Upcalls.Model.BatchLayout
import Upcalls.Verification.BatchStats.Layout
import Upcalls.Verification.PerfStats.Isolation
import Upcalls.Verification.LibUpcall.Residue
import Upcalls.Model.EchoPool
import Upcalls.Verification.UpcallEcho.Pool
import Upcalls.Library.Progress
import Upcalls.Model.HangLock
import Upcalls.Verification.HangLock.Barrier
import Upcalls.Verification.HangLock.Release
import Upcalls.Verification.Startup.Release
import Upcalls.Model.EchoStack
import Upcalls.Verification.EchoStack.Refinement
import Upcalls.Verification.EchoStack.Safety
import Upcalls.Verification.EchoPair.Rank
import Upcalls.Verification.EchoPair.Completion
import Upcalls.Model.ClientMain
import Upcalls.Verification.ClientMain.Descriptors
import Upcalls.Verification.ClientMain.Ends
import Upcalls.Verification.ClientMain.Outcome
import Upcalls.Library.Tables
import Upcalls.Model.ResultsFile
import Upcalls.Verification.ClientMain.Results
import Upcalls.Model.BatchFiles
import Upcalls.Verification.BatchFiles.Equations
import Upcalls.Verification.BatchFiles.Csv
import Upcalls.Library.Polling
import Upcalls.Verification.BatchFiles.Control
import Upcalls.Verification.TcpClient.Failures
import Upcalls.Model.ErrorLink
import Upcalls.Verification.ErrorLink.Clients
import Upcalls.Verification.ErrorLink.Report
import Upcalls.Model.ControlLoop
import Upcalls.Verification.ControlLoop.Steps
import Upcalls.Verification.ControlLoop.Descriptors
