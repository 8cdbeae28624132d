import CoroNet.Timer.Lifetime
import CoroNet.Timer.Representation
import CoroNet.Timer.Cancel
import CoroNet.Timer.Alarm
import CoroNet.Log.AsyncLogger
import CoroNet.Log.Ledger
import CoroNet.Log.Backend
import CoroNet.Log.Shutdown
import CoroNet.Log.Delivery
import CoroNet.Log.Rotation
import CoroNet.Log.Record
import CoroNet.Memory.Buffer
import CoroNet.Memory.ByteQueue
import CoroNet.Memory.RegisteredBufferPool
import CoroNet.Scheduler.Loop
import CoroNet.Scheduler.Moves
import CoroNet.Scheduler.Tokens
import CoroNet.Scheduler.CrossQueue
import CoroNet.Scheduler.Submission
import CoroNet.Scheduler.Suspended
import CoroNet.Scheduler.Resumption
import CoroNet.Scheduler.Pool
import CoroNet.Scheduler.Exit
import CoroNet.Scheduler.Parked
import CoroNet.ThreadPool.Pool
import CoroNet.ThreadPool.Stop
import CoroNet.ThreadPool.Tasks
import CoroNet.ThreadPool.Serving
import CoroNet.ThreadPool.Submit
import CoroNet.ThreadPool.Stages
import CoroNet.ThreadPool.StageSteps
import CoroNet.ThreadPool.RoundTrip
import CoroNet.ThreadPool.Cycles
import CoroNet.Idle.CircularBuffer
import CoroNet.Idle.Wheel
import CoroNet.Idle.Eviction
import CoroNet.Idle.Timing
import CoroNet.Connection.LongSend
import CoroNet.Connection.Ownership
import CoroNet.Server.Listen
import CoroNet.Server.Accept
import CoroNet.Server.Shutdown
import CoroNet.Server.Owners
import CoroNet.Server.LateEviction
import CoroNet.Server.StopReaches
import CoroNet.Timer.Discipline
import CoroNet.Scheduler.Watchers
import CoroNet.Coroutine.Evaluation
import CoroNet.Coroutine.Transfer
import CoroNet.Scheduler.Grouping
import CoroNet.Log.Truncation
import CoroNet.Memory.Requests
import CoroNet.Scheduler.ThrowingTask
import CoroNet.Server.FailedStart
import CoroNet.Log.Naming
import CoroNet.Log.FailedRoll
import CoroNet.Timer.Deadlines
import CoroNet.Timer.Lives
import CoroNet.Timer.Posting
import CoroNet.Timer.Rate
import CoroNet.Log.Lateness
import CoroNet.Log.Integers
import CoroNet.Idle.Window
import CoroNet.Memory.Growth
import CoroNet.Log.Pipeline
import CoroNet.EventLoop.Embed
import CoroNet.Server.Worker
import CoroNet.Example.EchoWorker
import CoroNet.Example.ZeroCopy
import CoroNet.Example.ZeroCopyRuns
import CoroNet.EventLoop.Independence
import CoroNet.EventLoop.Conservation
import CoroNet.EventLoop.Effects
import CoroNet.General.ByteMemory
import CoroNet.Example.EchoServer
