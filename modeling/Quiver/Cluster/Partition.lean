import Quiver.Base.Maps
import Quiver.Cluster.Reshuffle

/-!
The groups in which a router sends a batch of writes: one for each shard that owns some of the
items, and during a migration one for each donor.
-/

namespace Quiver.Cluster

open Std (ExtTreeMap)

variable {T : Type}

variable {target : T → Option Shard} {items : List T} {shards : List Shard}

variable {m : ShardMap} {x : String} {d o : Shard}

end Quiver.Cluster
