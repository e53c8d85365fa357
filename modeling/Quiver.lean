import Quiver.Core.WalPrefix
import Quiver.Core.Tamper
import Quiver.Core.Stride
import Quiver.Core.Backup
import Quiver.Core.Layouts
import Quiver.Embed.Prepare
import Quiver.Embed.Budget
import Quiver.Embed.Agreement
import Quiver.Embed.Snapshots
import Quiver.Index.SoftDelete
import Quiver.Index.Vamana
import Quiver.Embed.Hybrid
import Quiver.Server.Freshness
import Quiver.Server.RateLimit
import Quiver.Replication.Replay
import Quiver.Raft.Replica
import Quiver.Raft.Deletes
import Quiver.Crypto.Shuffle
import Quiver.Cluster.Partition
import Quiver.Cluster.Membership
import Quiver.Cluster.Gather
import Quiver.Cluster.Fidelity
import Quiver.Cluster.Addressing
import Quiver.Cluster.Durable
import Quiver.Cluster.Overlap
import Quiver.Cluster.Migrate
import Quiver.Cluster.Revert
import Quiver.Import.Live
import Quiver.Core.Reachable
