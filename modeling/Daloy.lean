import Daloy.A2a.MemoryTaskStore
import Daloy.A2a.Turns
import Daloy.Adapters.LambdaEvents
import Daloy.App.BodyCapReads
import Daloy.App.CrossOrigin
import Daloy.App.Leases
import Daloy.App.ProbeLimits
import Daloy.App.Registration
import Daloy.App.Shutdown
import Daloy.AutoBan.Decay
import Daloy.AutoBan.RedisScript
import Daloy.AutoBan.Serialised
import Daloy.Client.Reaches
import Daloy.Compose.BootGuards
import Daloy.Compose.Branches
import Daloy.Compose.Budgets
import Daloy.Egress.DenyFloor
import Daloy.Egress.Denylist
import Daloy.Egress.IpIdentity
import Daloy.Http.Compression
import Daloy.Http.Cookies
import Daloy.Http.ServerSentEvents
import Daloy.Idempotency.ExactlyOnce
import Daloy.Idempotency.Fingerprint
import Daloy.Idempotency.StoreKey
import Daloy.Jobs.Idempotency
import Daloy.Jobs.KeyParts
import Daloy.Jobs.WorkerSlots
import Daloy.Jwk.KeySetLoader
import Daloy.Jwt.Caches
import Daloy.Mcp.InputValidation
import Daloy.Mcp.UriTemplates
import Daloy.Metrics.Faithful
import Daloy.Mtls.CommonNames
import Daloy.OpenApi.Obligations
import Daloy.Otlp.LogExporter
import Daloy.Otlp.MetricsExporter
import Daloy.Pagination.Cursors
import Daloy.Proxy.ForwardedIp
import Daloy.Resilience.Closing
import Daloy.Resilience.RateLimit
import Daloy.Resilience.Slots
import Daloy.ResponseCache.Isolation
import Daloy.ResponseCache.MemoryStore
import Daloy.Routing.AnyOrder
import Daloy.Routing.Methods
import Daloy.Scheduling.SingleFlight
import Daloy.Security.FileNames
import Daloy.Security.HeaderGuards
import Daloy.Security.SafeRedirects
import Daloy.Security.Webhooks
import Daloy.Session.Destroyed
import Daloy.Session.Rotation
import Daloy.Signatures.RoundTrip
import Daloy.Waf.Composition
import Daloy.Waf.Inspection
import Daloy.WebSocket.Conversations
import Daloy.WebSocket.FrameCodec
import Daloy.WebSocket.Lifecycle
import Daloy.WebSocket.MessageGate
import Daloy.WebSocket.SinkBounds
import Daloy.Jobs.Retention
