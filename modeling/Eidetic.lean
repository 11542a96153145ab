import Eidetic.Filter.Progress
import Eidetic.Context.Blocks
import Eidetic.Context.UserState
import Eidetic.Context.ToolLoop
import Eidetic.Upstream.Tolerance
import Eidetic.Upstream.CallStream
import Eidetic.Cache.Separation
import Eidetic.Memory.LostWrite
import Eidetic.Upstream.Reassembly
import Eidetic.Stream.Compare
import Eidetic.Stream.Protocol
import Eidetic.Stream.Forgery
import Eidetic.Stream.Offered
import Eidetic.Stream.Repeats
import Eidetic.Stream.Ceiling
import Eidetic.Chat.Agreement
import Eidetic.Chat.Metering
import Eidetic.Chat.Persistence
import Eidetic.Cache.Early
import Eidetic.Cache.Collisions
import Eidetic.Memory.Recovery
import Eidetic.Memory.Watermark
import Eidetic.Memory.Lock
import Eidetic.Files.Processing
import Eidetic.Files.Atomicity
import Eidetic.Files.Versions
import Eidetic.Files.Metadata
import Eidetic.Tools.FetchUrl
import Eidetic.Upstream.Breaker
import Eidetic.Upstream.Polling
import Eidetic.Upstream.Endpoint
import Eidetic.Upstream.Failover
import Eidetic.Catalog.Store
import Eidetic.Catalog.Scan
import Eidetic.Catalog.Patch
import Eidetic.Catalog.Availability
import Eidetic.Catalog.NeverLive
import Eidetic.Catalog.Publish
import Eidetic.Catalog.ScanLock
import Eidetic.Jobs.Schedules
import Eidetic.Jobs.ReEmbed
import Eidetic.Jobs.Revival
import Eidetic.Accounts.Invitation
import Eidetic.Accounts.Reaper
import Eidetic.Accounts.Pool
import Eidetic.Conversations.Order
import Eidetic.Conversations.Compression
import Eidetic.Memory.Decay
import Eidetic.Memory.Ranking
import Eidetic.Memory.Truncation
import Eidetic.Memory.Conflicts
import Eidetic.Memory.Expiry
import Eidetic.Memory.Preferences
import Eidetic.Lib.SortedSet
import Eidetic.Lib.Window
import Eidetic.Limits.SlidingWindow
import Eidetic.Stream.Latches
import Eidetic.Filter.Dumps
import Eidetic.Config.Settings
import Eidetic.Config.Live
import Eidetic.Config.Synced
import Eidetic.Conversations.Window
import Eidetic.Files.Units
import Eidetic.Files.Overlap
import Eidetic.Files.Patching
import Eidetic.Lib.Uri
import Eidetic.Tools.Locations
import Eidetic.Tools.Redirects
import Eidetic.Lib.Round
import Eidetic.Lib.Dict
import Eidetic.Retrieval.Fusion
import Eidetic.Retrieval.Scaling
import Eidetic.Retrieval.Search
import Eidetic.Retrieval.Grounding
import Eidetic.Retrieval.Pending
import Eidetic.Graph.EntityCap
import Eidetic.Cache.Memory
import Eidetic.Cache.TwoLevel
import Eidetic.Behavior.Topics
import Eidetic.Lib.StreamGroup
import Eidetic.Metrics.Consumer
import Eidetic.Goals.Links
import Eidetic.Upstream.Retries
import Eidetic.Jobs.ScheduledRun
import Eidetic.Lib.NodeMerge
import Eidetic.Graph.Merging
import Eidetic.Graph.Types
import Eidetic.Graph.Context
import Eidetic.Accounts.CostCap
import Eidetic.Files.Owners
import Eidetic.Jobs.Consent
import Eidetic.Graph.Overlap
import Eidetic.Chat.Compat
import Eidetic.Limits.Notices
import Eidetic.Jobs.Webhooks
import Eidetic.Accounts.Access
import Eidetic.Accounts.Administrator
import Eidetic.Accounts.Authority
