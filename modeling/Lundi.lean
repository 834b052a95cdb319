import Lundi.Lib.Search
import Lundi.Lib.Decimal
import Lundi.Lib.Base64
import Lundi.Lib.Onion
import Lundi.Core.Response
import Lundi.Core.FromChars
import Lundi.Core.HeaderParsing
import Lundi.Engine.Buffer
import Lundi.Engine.FastItoa
import Lundi.Engine.HeaderScan
import Lundi.Engine.VectorScan
import Lundi.Router
import Lundi.Middleware.Chain
import Lundi.StaticFiles.Containment
import Lundi.WebSocket.Handshake
import Lundi.WebSocket.Session
import Lundi.Server.RouteMiddleware
import Lundi.Server.ReadHeaders
import Lundi.Server.Framing
import Lundi.Server.ContentLength
import Lundi.Server.ViewLifetime
import Lundi.Server.Iteration
import Lundi.Server.Segmentation
import Lundi.Server.GlobalMiddleware
import Lundi.Server.Exceptions
import Lundi.Lib.EventStream
import Lundi.Server.AcceptLoop
import Lundi.Sse.Stream
import Lundi.Sse.Events
import Lundi.Sse.Heartbeat
import Lundi.Chunked.Writer
import Lundi.Server.Streaming
import Lundi.WebSocket.Closing
import Lundi.Server.HeaderLimit
import Lundi.Client.ResponseReader
import Lundi.Core.ResponseHead
import Lundi.Client.RoundTrip
import Lundi.Client.HeaderValues
import Lundi.Server.HeadRequests
import Lundi.Server.ConnectionField
import Lundi.Lib.Pieces
import Lundi.Router.Matching
import Lundi.Server.RouteLookup
import Lundi.Server.RouteGroup
import Lundi.Lib.Runs
import Lundi.Server.Acceptance
import Lundi.Server.Shutdown
import Lundi.StaticFiles.Conditional
import Lundi.StaticFiles.EmptyPath
import Lundi.Core.PercentEncoding
import Lundi.Router.PathParams
import Lundi.Multipart.Parser
import Lundi.Multipart.Safety
import Lundi.Multipart.RoundTrip
import Lundi.Core.Cookies
import Lundi.Core.HeaderBlock
import Lundi.Router.QueryInt
import Lundi.Chunked.Decoding
import Lundi.Server.DuplicateFields
import Lundi.Multipart.ParameterOrder
import Lundi.WebSocket.LegalFrames
import Lundi.Lib.Refinement
import Lundi.Engine.RawBuffer
import Lundi.Server.StaticRequests
import Lundi.Server.EndToEnd
import Lundi.Server.KeepAlive
import Lundi.Server.BuiltinMiddleware
import Lundi.Lib.Calendar
import Lundi.Core.HttpDate
import Lundi.Lib.DoubleBuffer
import Lundi.Engine.DateCache
import Lundi.Server.DateTimer
import Lundi.StaticFiles.Revalidation
import Lundi.Server.Takeovers
import Lundi.Client.StreamReader
import Lundi.Server.StreamedResponses
import Lundi.WebSocket.Conversation
import Lundi.Server.Conversations
import Lundi.Lib.Ownership
import Lundi.Core.HandlerFn
import Lundi.Router.TypedRoutes
import Lundi.Server.TypedCalls
import Lundi.Server.BufferBound
import Lundi.Server.Refusals
import Lundi.Server.Hanging
import Lundi.Server.FileTransfers
