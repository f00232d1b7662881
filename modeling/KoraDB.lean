import KoraDB.Auth.Keys
import KoraDB.Auth.Ledger
import KoraDB.Auth.Lifetime
import KoraDB.Auth.Lockout
import KoraDB.Auth.Token
import KoraDB.Base.Bytes
import KoraDB.Base.Dfs
import KoraDB.Base.Except
import KoraDB.Base.GoTime
import KoraDB.Base.Lists
import KoraDB.Base.Run
import KoraDB.Base.Strconv
import KoraDB.Base.Utf8
import KoraDB.Catalog.Records
import KoraDB.Engine.Database
import KoraDB.Engine.IndexEvolution
import KoraDB.Engine.IndexExact
import KoraDB.Engine.Invariant
import KoraDB.Engine.Keys
import KoraDB.Engine.Lookup
import KoraDB.Engine.Ops
import KoraDB.Engine.Refinement
import KoraDB.Index.Entry
import KoraDB.Proto.Descriptor
import KoraDB.Proto.Message
import KoraDB.Proto.Value
import KoraDB.Query.Filter
import KoraDB.Query.Page
import KoraDB.Schema.Compat
import KoraDB.Schema.Evolution
import KoraDB.Schema.Registry
import KoraDB.Schema.Reopen
import KoraDB.Storage.Store
import KoraDB.Query.Agree
import KoraDB.Base.Keyset
import KoraDB.Query.Traversal
import KoraDB.Schema.Chain
import KoraDB.Schema.Atomic
import KoraDB.Schema.History
import KoraDB.System.Machine
import KoraDB.System.Isolation
import KoraDB.System.AutoId
import KoraDB.Auth.Expiry
import KoraDB.Auth.Roles
import KoraDB.Base.Rfc3339
import KoraDB.Server.Keys
import KoraDB.Server.RateLimit
import KoraDB.Cli.Key
import KoraDB.Base.Locks
import KoraDB.System.Locking
import KoraDB.Base.Path
import KoraDB.Base.Steps
import KoraDB.Recovery.Restore
import KoraDB.Recovery.Safety
import KoraDB.Engine.Admitted
import KoraDB.Query.Exact
import KoraDB.Server.Interceptor
import KoraDB.Server.Handlers
import KoraDB.Server.WireFilter
import KoraDB.Server.Authority
import KoraDB.Query.Compare
import KoraDB.Query.Signature
import KoraDB.Query.Rows
import KoraDB.Base.Base64
import KoraDB.Base.Json
import KoraDB.Query.Token
import KoraDB.System.Tokens
import KoraDB.Server.Paging
import KoraDB.Cli.Query
import KoraDB.Cli.PageSizes
import KoraDB.Engine.Ids
import KoraDB.Recovery.Limits
import KoraDB.System.Ids
import KoraDB.System.Paths
import KoraDB.Schema.Reregister
import KoraDB.Query.IndexOrder
import KoraDB.Schema.TopoSort
import KoraDB.Schema.Summaries
import KoraDB.System.Entries
import KoraDB.Engine.Readings
import KoraDB.Engine.Activation
import KoraDB.Base.Polling
import KoraDB.Query.Cancel
import KoraDB.Server.Context
import KoraDB.Server.Telemetry
import KoraDB.Server.Pipeline
import KoraDB.Server.Mediation
import KoraDB.Auth.Bootstrap
import KoraDB.System.Keys
import KoraDB.Server.Startup
import KoraDB.Server.Deployment
import KoraDB.Recovery.Collisions
import KoraDB.Recovery.Backup
import KoraDB.Storage.Contents
import KoraDB.Server.Listings
import KoraDB.Server.Fates
import KoraDB.Cli.Backend
import KoraDB.Cli.Commands
import KoraDB.Cli.Arguments
import KoraDB.Cli.Session
import KoraDB.Base.Samples
import KoraDB.Base.JsonLines
import KoraDB.Server.Exposition
import KoraDB.Server.AuditLog
