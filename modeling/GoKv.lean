import GoKv.Resp.Decoder
import GoKv.Resp.Idle
import GoKv.Glob.Spec
import GoKv.Aof.AnyFile
import GoKv.Aof.Closing
import GoKv.Aof.Readback
import GoKv.Aof.Recovered
import GoKv.Aof.Rounds
import GoKv.Aof.Stopping
import GoKv.Aof.Tail
import GoKv.Aof.Window
import GoKv.Command.Errors
import GoKv.Command.Names
import GoKv.Command.Scanning
import GoKv.Command.SetOptions
import GoKv.Engine.Counter
import GoKv.Engine.CrashSafety
import GoKv.Engine.Discovery
import GoKv.Engine.Ledger
import GoKv.Engine.Reclaim
import GoKv.Engine.Refusal
import GoKv.Engine.ScanBounds
import GoKv.Engine.Worker
import GoKv.Command.Restart
import GoKv.Server.Drain
import GoKv.Server.Shutdown
import GoKv.Server.Deferred
import GoKv.Server.Clients
import GoKv.Server.Service
import GoKv.Server.Sessions
import GoKv.Server.Verdict
import GoKv.Server.Views
