import NetDemo.Foundation.Heap
import NetDemo.Foundation.Word
import NetDemo.Foundation.Transition
import NetDemo.Foundation.Span
import NetDemo.Foundation.CString
import NetDemo.Foundation.Parallel
import NetDemo.Foundation.Waits
import NetDemo.Foundation.Memcmp
import NetDemo.Foundation.Search
import NetDemo.Foundation.Traced
import NetDemo.Foundation.Arrays
import NetDemo.Foundation.Strtok
import NetDemo.Foundation.Progress
import NetDemo.Foundation.Stdio
import NetDemo.Memory.Buffer
import NetDemo.Memory.Cells
import NetDemo.Memory.Ownership
import NetDemo.Memory.ByteString
import NetDemo.Memory.Reachable
import NetDemo.Memory.Capacity
import NetDemo.Memory.Scan
import NetDemo.Http.Slice
import NetDemo.Http.Codec
import NetDemo.Http.Decode
import NetDemo.Http.Verdict
import NetDemo.Http.Extend
import NetDemo.Http.Lines
import NetDemo.Http.Grammar
import NetDemo.Http.RoundTrip
import NetDemo.Http.Request
import NetDemo.Http.Body
import NetDemo.Http.Pointers
import NetDemo.Http.Scanning
import NetDemo.Http.KeyLines
import NetDemo.Http.Ordering
import NetDemo.Http.Split
import NetDemo.Http.Words
import NetDemo.Client.Link
import NetDemo.Client.Context
import NetDemo.Client.View
import NetDemo.Client.HttpView
import NetDemo.Client.Loop
import NetDemo.Client.Output
import NetDemo.Client.Fifo
import NetDemo.Client.Drain
import NetDemo.Client.Delivery
import NetDemo.Client.Residue
import NetDemo.Client.Likeness
import NetDemo.Client.Probes
import NetDemo.Client.Recycle
import NetDemo.Client.Echo
import NetDemo.Client.Conversation
import NetDemo.Client.InFlight
import NetDemo.Server.Handler
import NetDemo.Server.Step
import NetDemo.Server.Counting
import NetDemo.Server.Active
import NetDemo.Server.Invariant
import NetDemo.Server.References
import NetDemo.Server.Ledger
import NetDemo.Server.Sockets
import NetDemo.Server.Limit
import NetDemo.Server.Accounting
import NetDemo.Server.Answers
import NetDemo.Server.Timer
import NetDemo.Server.Heartbeat
import NetDemo.Server.Locks
import NetDemo.Server.Lifecycle
import NetDemo.Server.Handles
import NetDemo.Server.Shutdown
import NetDemo.Server.Contexts
import NetDemo.Server.Accept
import NetDemo.Server.Cancel
import NetDemo.Server.Mute
import NetDemo.Server.Process
import NetDemo.Server.Simulation
import NetDemo.Server.Refinement
import NetDemo.Server.Watch
import NetDemo.Server.Workers
import NetDemo.Linux.Parse
import NetDemo.Linux.RequestLine
import NetDemo.Linux.Chunks
import NetDemo.Linux.Lines
import NetDemo.Linux.Language
import NetDemo.Linux.Framing
import NetDemo.Linux.Bounds
import NetDemo.Linux.HandOver
import NetDemo.Linux.RequestHandler
import NetDemo.Linux.HandlerThreads
import NetDemo.Linux.NonBlocking
import NetDemo.Linux.News
import NetDemo.Linux.WebPage
import NetDemo.Linux.Nbc
import NetDemo.Linux.Semaphore
import NetDemo.Echo.Iocp
import NetDemo.Echo.AsynNoti
import NetDemo.Echo.CmplRou
import NetDemo.Echo.InOrder
import NetDemo.Server.InFlight
