import Quiver.Base.Run
import Quiver.Cluster.ShardMap

/-!
The coordinator: the shard map in memory, and the file it is written to after a change. A write that
fails leaves the change in memory, and a restart reads the file. Routers take a map whose version is
above theirs.
-/

namespace Quiver.Cluster

namespace ShardMap

/-- The id of the first shard that has the id of one before it. -/
def duplicateId (seen : List ShardId) : List Shard → Option ShardId
  | [] => none
  | s :: rest => if s.id ∈ seen then some s.id else duplicateId (s.id :: seen) rest

def fromShards (shards : List Shard) : Except ClusterError ShardMap :=
  if shards.isEmpty then .error .noShards
  else match shards.find? (·.primaryUrl.isEmpty) with
    | some s => .error (.emptyUrl s.id)
    | none => match duplicateId [] shards with
      | some id => .error (.duplicateShardId id)
      | none => .ok { shards := shards }

def fromUrls (urls : List String) : Except ClusterError ShardMap :=
  fromShards (urls.mapIdx fun i url => ⟨i, trim url, []⟩)

def addReplica (m : ShardMap) (id : ShardId) (url : String) : Except ClusterError ShardMap :=
  if (trim url).isEmpty then .error (.emptyReplicaUrl id)
  else if !m.shards.any (·.id == id) then .error (.unknownReplicaShard id)
  else .ok { m with
    shards := m.shards.map fun s => if s.id == id then { s with replicaUrls := s.replicaUrls ++ [trim url] } else s }

end ShardMap

def buildSeedMap (urls : List String) (replicas : List (ShardId × String)) : Except ClusterError ShardMap := do
  let map ← ShardMap.fromUrls urls
  replicas.foldlM (fun map replica => map.addReplica replica.1 replica.2) map

/-- A map with the ids below its length and nothing in flight. -/
structure Seeded (m : ShardMap) : Prop where
  version : m.version = 0
  ids : m.shards.map Shard.id = List.range m.shards.length
  joining : m.joining = []
  leaving : m.leaving = []
  nonempty : m.shards ≠ []

theorem Seeded.steady {m : ShardMap} (seeded : Seeded m) : m.Steady :=
  ⟨seeded.joining, seeded.leaving, seeded.ids ▸ List.nodup_range, seeded.nonempty⟩

theorem addReplica_ids (m : ShardMap) (id : ShardId) (url : String) :
    (m.shards.map fun s => if s.id == id then { s with replicaUrls := s.replicaUrls ++ [url] } else s).map
      Shard.id = m.shards.map Shard.id := by
  rw [List.map_map]
  refine List.map_congr_left fun s _ => ?_
  rw [Function.comp_apply]
  split <;> rfl

variable {m m' : ShardMap} {id : ShardId} {url : String}

theorem addReplica_eq_ok (added : m.addReplica id url = .ok m') :
    (trim url).isEmpty = false ∧ (∃ s ∈ m.shards, s.id = id) ∧ m' = { m with
      shards := m.shards.map fun s => if s.id == id then { s with replicaUrls := s.replicaUrls ++ [trim url] } else s } := by
  unfold ShardMap.addReplica at added
  split at added
  · contradiction
  rename_i isUrl
  split at added
  · contradiction
  rename_i known
  cases added
  exact ⟨by simpa using isUrl, by simpa using known, rfl⟩

theorem Seeded.addReplica (seeded : Seeded m)
    (added : m.addReplica id url = .ok m') : Seeded m' := by
  obtain ⟨_, _, rfl⟩ := addReplica_eq_ok added
  have sameIds := addReplica_ids m id (trim url)
  exact ⟨seeded.version, by rw [sameIds, List.length_map]; exact seeded.ids, seeded.joining, seeded.leaving,
    by simpa using seeded.nonempty⟩

theorem seeded_fromUrls {urls : List String} {m : ShardMap} (built : ShardMap.fromUrls urls = .ok m) : Seeded m := by
  unfold ShardMap.fromUrls ShardMap.fromShards at built
  split at built
  · contradiction
  rename_i nonempty
  split at built
  · contradiction
  split at built
  · contradiction
  cases built
  refine ⟨rfl, ?_, rfl, rfl, by simpa using nonempty⟩
  exact List.ext_getElem (by simp) (by simp)

theorem seeded_buildSeedMap {urls : List String} {replicas : List (ShardId × String)} {m : ShardMap}
    (built : buildSeedMap urls replicas = .ok m) : Seeded m := by
  obtain ⟨first, fromUrls, rest⟩ := Results.bind_eq_ok.mp built
  have seeded := seeded_fromUrls fromUrls
  clear built fromUrls
  induction replicas generalizing first with
  | nil =>
    cases rest
    exact seeded
  | cons replica replicas ih =>
    rw [List.foldlM_cons] at rest
    obtain ⟨next, added, rest⟩ := Results.bind_eq_ok.mp rest
    exact ih next rest (seeded.addReplica added)

/-! ## Changes of the membership -/

/-- A membership operation, with the id a shard that is added has been given. -/
inductive Change where
  | add (id : ShardId) (url : String) (replicas : List String)
  | addJoining (id : ShardId) (url : String) (replicas : List String)
  | promote (id : ShardId)
  | drain (id : ShardId)
  | cancelLeave (id : ShardId)
  | remove (id : ShardId)
  deriving DecidableEq, Repr

inductive ChangeError where
  | badRequest (e : ClusterError)
  /-- "a migration is already in flight; retry once it completes" -/
  | migrationInFlight
  | io
  deriving DecidableEq, Repr

def badRequest {α : Type} : Except ClusterError α → Except ChangeError α := Except.mapError .badRequest

def Change.apply (m : ShardMap) : Change → Except ChangeError ShardMap
  | .add id url replicas => badRequest (m.addShard id url replicas)
  | .addJoining id url replicas => badRequest (m.addJoiningShard id url replicas)
  | .promote id => badRequest (m.promote id)
  | .drain id => if m.shards.any (m.isJoining ·.id) then .error .migrationInFlight else badRequest (m.markLeaving id)
  | .cancelLeave id => badRequest (m.cancelLeave id)
  | .remove id => badRequest (m.removeShard id)

def Change.shard : Change → Option Shard
  | .add id url replicas | .addJoining id url replicas => some ⟨id, trim url, replicas⟩
  | _ => none

theorem badRequest_eq_ok {α : Type} {r : Except ClusterError α} {a : α} : badRequest r = .ok a ↔ r = .ok a := by
  cases r <;> simp [badRequest, Except.mapError]

/-- Every change gives the next version, and brings in no shard but the added one. -/
theorem Change.apply_spec {c : Change} (applied : c.apply m = .ok m') :
    m'.version = m.version + 1 ∧ ∀ s ∈ m'.shards, s ∈ m.shards ∨ c.shard = some s := by
  cases c with
  | add id url replicas =>
    obtain ⟨_, rfl⟩ := addShard_eq_ok (badRequest_eq_ok.mp applied)
    refine ⟨rfl, fun s member => ?_⟩
    exact (List.mem_append.mp member).imp_right fun last => by rw [List.mem_singleton.mp last]; rfl
  | addJoining id url replicas =>
    obtain ⟨_, rfl⟩ := addJoiningShard_eq_ok (badRequest_eq_ok.mp applied)
    refine ⟨rfl, fun s member => ?_⟩
    exact (List.mem_append.mp member).imp_right fun last => by rw [List.mem_singleton.mp last]; rfl
  | promote id =>
    obtain ⟨_, rfl⟩ := promote_eq_ok (badRequest_eq_ok.mp applied)
    exact ⟨rfl, fun s member => .inl member⟩
  | drain id =>
    simp only [Change.apply] at applied
    split at applied
    · contradiction
    obtain ⟨_, _, _, rfl⟩ := markLeaving_eq_ok (badRequest_eq_ok.mp applied)
    exact ⟨rfl, fun s member => .inl member⟩
  | cancelLeave id =>
    obtain ⟨_, rfl⟩ := cancelLeave_eq_ok (badRequest_eq_ok.mp applied)
    exact ⟨rfl, fun s member => .inl member⟩
  | remove id =>
    cases removeShard_eq_ok (badRequest_eq_ok.mp applied)
    exact ⟨rfl, fun s member => .inl (List.mem_of_mem_filter member)⟩

/-! ## Memory, file and routers -/

structure Persisted where
  nextId : ShardId
  map : ShardMap
  deriving DecidableEq, Repr

/-- How a write of the state ends: a failure comes before or after the file was renamed. -/
inductive Persist where
  | done
  | failed (renamed : Bool)
  deriving DecidableEq, Repr

structure Coordinator where
  seed : ShardMap
  /-- Whether a path for the state is configured. -/
  path : Bool
  map : ShardMap
  nextId : ShardId
  /-- The ids that requests have taken and not yet used. -/
  taken : List ShardId
  file : Option Persisted
  /-- The file a loss of power leaves, behind `file` while a rename is not synced. -/
  synced : Option Persisted
  deriving DecidableEq, Repr

/-- The state a start reads, the configured shards without a file. -/
def bootState (seed : ShardMap) (file : Option Persisted) : Persisted := file.getD ⟨seed.shards.length, seed⟩

namespace Coordinator

def bootstrap (seed : ShardMap) (path : Bool) (file synced : Option Persisted) : Coordinator where
  seed := seed
  path := path
  map := (bootState seed file).map
  nextId := (bootState seed file).nextId
  taken := []
  file := file
  synced := synced

def fetchId (c : Coordinator) : Coordinator := { c with nextId := c.nextId + 1, taken := c.nextId :: c.taken }

def snapshot (c : Coordinator) : Option Persisted := some ⟨c.nextId, c.map⟩

def persist (c : Coordinator) (p : Persist) : Coordinator × Except ChangeError Unit :=
  if !c.path then (c, .ok ())
  else match p with
    | .done => ({ c with file := c.snapshot, synced := c.snapshot }, .ok ())
    | .failed true => ({ c with file := c.snapshot }, .error .io)
    | .failed false => (c, .error .io)

def change (c : Coordinator) (ch : Change) (p : Persist) : Coordinator × Except ChangeError ShardMap :=
  match ch.apply c.map with
  | .error e => (c, .error e)
  | .ok map =>
    let (c, written) := { c with map := map }.persist p
    (c, written.map fun _ => map)

/-- The end of a failed migration or drain: both results are ignored. -/
def revert (c : Coordinator) (ch : Change) (p : Persist) : Coordinator :=
  ({ c with map := (ch.apply c.map).toOption.getD c.map }.persist p).1

end Coordinator

/-- `refresh_from`, with the map that was answered. -/
def refreshFrom (held answered : ShardMap) : ShardMap := if held.version < answered.version then answered else held

/-- The coordinator and what is seen of it: the maps it has held, those it has served, the one of
the last acknowledged change, and a router's. -/
structure Observed where
  coordinator : Coordinator
  current : List ShardMap
  served : List ShardMap
  acknowledged : ShardMap
  router : ShardMap
  deriving DecidableEq, Repr

inductive CoordinatorEvent where
  | fetchId
  | change (ch : Change) (p : Persist)
  | revert (ch : Change) (p : Persist)
  /-- The process stops, possibly in the write of a change, and starts again. A loss of power
  keeps the last rename or not. -/
  | restart (inFlight : Option Change) (renamed : Bool) (powerKeeps : Option Bool)
  | getMap
  | refresh (answered : ShardMap)
  deriving DecidableEq, Repr

def Coordinator.owns (c : Coordinator) (ch : Change) : Prop := ∀ s, ch.shard = some s → s.id ∈ c.taken

instance (c : Coordinator) (ch : Change) : Decidable (c.owns ch) :=
  decidable_of_iff (ch.shard.all fun s => decide (s.id ∈ c.taken)) (by
    cases h : ch.shard <;> simp [Coordinator.owns, h])

def Coordinator.used (c : Coordinator) (ch : Change) : Coordinator :=
  { c with taken := match ch.shard with
    | some s => c.taken.erase s.id
    | none => c.taken }

/-- What an interrupted change leaves of the process. -/
def Coordinator.interrupted (c : Coordinator) (inFlight : Option Change) (renamed : Bool) : Coordinator :=
  match inFlight with
  | none => c
  | some ch => match ch.apply c.map with
    | .error _ => c
    | .ok map => ({ c with map := map }.persist (.failed renamed)).1

def Coordinator.restarted (c : Coordinator) : Option Bool → Coordinator
  | none => bootstrap c.seed c.path c.file c.synced
  | some true => bootstrap c.seed c.path c.file c.file
  | some false => bootstrap c.seed c.path c.synced c.synced

namespace Observed

def start (seed : ShardMap) (path : Bool) : Observed where
  coordinator := .bootstrap seed path none none
  current := [seed]
  served := [seed]
  acknowledged := seed
  router := seed

/-- The map held now is among those held. -/
def holding (o : Observed) (c : Coordinator) : Observed :=
  { o with coordinator := c, current := c.map :: o.current }

inductive Step : Observed → CoordinatorEvent → Observed → Prop
  | fetchId {o} : Step o .fetchId { o with coordinator := o.coordinator.fetchId }
  | change {o ch p c map} (owns : o.coordinator.owns ch) (changed : o.coordinator.change ch p = (c, .ok map)) :
      Step o (.change ch p) { o.holding (c.used ch) with acknowledged := map }
  | refused {o ch p c e} (owns : o.coordinator.owns ch) (changed : o.coordinator.change ch p = (c, .error e)) :
      Step o (.change ch p) (o.holding (c.used ch))
  | revert {o ch p} (adds : ch.shard = none) : Step o (.revert ch p) (o.holding (o.coordinator.revert ch p))
  | restart {o inFlight renamed powerKeeps} (owns : ∀ ch, inFlight = some ch → o.coordinator.owns ch) :
      Step o (.restart inFlight renamed powerKeeps)
        ((o.holding (o.coordinator.interrupted inFlight renamed)).holding
          ((o.coordinator.interrupted inFlight renamed).restarted powerKeeps))
  | getMap {o} : Step o .getMap { o with served := o.coordinator.map :: o.served }
  | refresh {o answered} (served : answered ∈ o.served) :
      Step o (.refresh answered) { o with router := refreshFrom o.router answered }

end Observed

/-- No write fails, and power is not lost while a rename that a start has read is not synced. -/
def Reliable (o : Observed) : CoordinatorEvent → Prop
  | .change _ p | .revert _ p => p = .done
  | .restart _ _ powerKeeps => powerKeeps = some false → o.coordinator.synced = o.coordinator.file
  | _ => True

end Quiver.Cluster
