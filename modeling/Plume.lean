import Plume.CLib.Scan
import Plume.CLib.Run
import Plume.Str
import Plume.Hash
import Plume.Http.Parser
import Plume.Http.Lines
import Plume.Http.Fields
import Plume.Http.Message
import Plume.Http.Decode
import Plume.Http.Split
import Plume.Http.Bounds
import Plume.Http.Url
import Plume.Http.Request
import Plume.Http.OnField
import Plume.Http.Framing
import Plume.Http.Authority
import Plume.Comm
import Plume.CloseHandlers
import Plume.Event
import Plume.Dispatch
import Plume.Interest
import Plume.Stale
import Plume.Http.EventIo
import Plume.CLib.Trace
import Plume.Master
import Plume.SignalMask
import Plume.Supervision
import Plume.Moves
import Plume.Slots
import Plume.Shutdown
import Plume.Affinity
import Plume.Http.Protocol
import Plume.Conf.Parser
import Plume.Conf.Uninit
import Plume.Conf.Layout
import Plume.Conf.Scope
import Plume.Http.Pipeline
import Plume.CLib.Scopes
import Plume.Conf.Variables
import Plume.CLib.Region
import Plume.CLib.Slist
import Plume.Mempool
import Plume.Lookaside
import Plume.Conservation
import Plume.Features
import Plume.Multimap
import Plume.CLib.Dlist
import Plume.CLib.Queue
import Plume.Timer
import Plume.TimerLoop
import Plume.CLib.Forest
import Plume.Ctx
import Plume.CtxTree
import Plume.Teardown
import Plume.CLib.Depth
import Plume.Conf.Balanced
import Plume.Dlist
import Plume.FdTable
import Plume.Log
import Plume.Echo
import Plume.EchoLife
import Plume.EchoFidelity
import Plume.Http.UrlParts
import Plume.Http.UrlPieces
import Plume.Http.FirstLine
import Plume.Http.Lookup
import Plume.Buffer
import Plume.Http.Connections
import Plume.Http.Backend
import Plume.CpuMask
import Plume.Listen
import Plume.Http.StatusLine
import Plume.Http.Parsed
import Plume.Http.InBuffer
import Plume.Http.Padding
import Plume.Conf.Tokens
import Plume.Conf.Forms
import Plume.Compare
import Plume.Number
import Plume.CLib.Copy
import Plume.StrBuild
import Plume.FailedPost
import Plume.HighWater
import Plume.TimerDel
import Plume.LogFile
import Plume.Handlers
import Plume.CLib.Multiples
import Plume.BlockSize
import Plume.CLib.Logged
import Plume.Conf.Tree
import Plume.Conf.Command
import Plume.Conf.Meaning
import Plume.Conf.Contexts
import Plume.CLib.Lock
import Plume.Dispatcher
import Plume.Rounds
import Plume.LateHandlers
import Plume.Startup
import Plume.CLib.Places
import Plume.Delivery
import Plume.TimerWait
import Plume.CLib.Prog
import Plume.CLib.Hands
import Plume.LookasideCode
import Plume.LookasideThreads
