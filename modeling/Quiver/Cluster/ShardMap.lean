import Mathlib.Data.List.Induction
import Quiver.Base.Results

/-!
The shard map: rendezvous hashing, and the joining and leaving shards of a migration. A shard
that joins or leaves moves only the ids it wins, and a router that sees the migration writes
those to both owners.
-/

namespace Quiver.Cluster

abbrev ShardId := Nat

structure Shard where
  id : ShardId
  primaryUrl : String
  replicaUrls : List String := []
  deriving DecidableEq, Repr

inductive ClusterError where
  | noShards
  | emptyUrl (id : ShardId)
  | duplicateShardId (id : ShardId)
  | unknownShard (id : ShardId)
  | notDrainable (id : ShardId)
  | unknownReplicaShard (id : ShardId)
  | emptyReplicaUrl (id : ShardId)
  deriving DecidableEq, Repr

structure ShardMap where
  version : Nat := 0
  shards : List Shard
  joining : List ShardId := []
  leaving : List ShardId := []
  deriving DecidableEq, Repr

def fnv1a (bytes : List UInt8) : UInt64 :=
  bytes.foldl (fun h b => (h ^^^ b.toUInt64) * 0x00000100000001b3) 0xcbf29ce484222325

def hrwScore (shardId : ShardId) (pointId : String) : UInt64 :=
  let x := fnv1a pointId.toUTF8.data.toList + UInt64.ofNat shardId * 0x9e3779b97f4a7c15
  let x := (x ^^^ (x >>> 30)) * 0xbf58476d1ce4e5b9
  let x := (x ^^^ (x >>> 27)) * 0x94d049bb133111eb
  x ^^^ (x >>> 31)

/-- The last shard of the highest weight. -/
def maxByScore (pointId : String) (shards : List Shard) : Option Shard :=
  shards.foldl (fun best s => match best with
    | none => some s
    | some b => if hrwScore b.id pointId ≤ hrwScore s.id pointId then some s else some b) none

/-- What `str::trim` takes off. -/
def isWhitespace (c : Char) : Bool :=
  let n := c.toNat
  decide (9 ≤ n ∧ n ≤ 13 ∨ 0x2000 ≤ n ∧ n ≤ 0x200a) ||
    [0x20, 0x85, 0xa0, 0x1680, 0x2028, 0x2029, 0x202f, 0x205f, 0x3000].contains n

def trim (url : String) : String :=
  .ofList ((url.toList.dropWhile isWhitespace).reverse.dropWhile isWhitespace).reverse

namespace ShardMap

def isJoining (m : ShardMap) (id : ShardId) : Bool := m.joining.contains id

def isLeaving (m : ShardMap) (id : ShardId) : Bool := m.leaving.contains id

def hrwAmong (m : ShardMap) (pointId : String) (eligible : Shard → Bool) : Option Shard :=
  maxByScore pointId (m.shards.filter eligible)

/-- The owner of a point id, `none` only for a map without shards. -/
def shardFor (m : ShardMap) (pointId : String) : Option Shard :=
  (m.hrwAmong pointId fun s => !m.isLeaving s.id) <|> (m.hrwAmong pointId fun _ => true) <|> m.shards.head?

/-- The shard that holds the id's data while ownership is elsewhere. -/
def donorFor (m : ShardMap) (pointId : String) : Option Shard :=
  let joined := if (m.shardFor pointId).any fun s => m.isJoining s.id then
    m.hrwAmong pointId fun s => !m.isJoining s.id && !m.isLeaving s.id
  else none
  if m.leaving.isEmpty then joined
  else
    match m.hrwAmong pointId fun _ => true with
    | none => none
    | some preDrainOwner => if m.isLeaving preDrainOwner.id then some preDrainOwner else joined

def activeShards (m : ShardMap) : List Shard := m.shards.filter fun s => !m.isJoining s.id

def addShard (m : ShardMap) (id : ShardId) (primaryUrl : String) (replicaUrls : List String) :
    Except ClusterError ShardMap :=
  if (trim primaryUrl).isEmpty then .error (.emptyUrl id)
  else if m.shards.any (·.id == id) then .error (.duplicateShardId id)
  else .ok { m with shards := m.shards ++ [⟨id, trim primaryUrl, replicaUrls⟩], version := m.version + 1 }

def addJoiningShard (m : ShardMap) (id : ShardId) (primaryUrl : String) (replicaUrls : List String) :
    Except ClusterError ShardMap := do
  let m ← m.addShard id primaryUrl replicaUrls
  return { m with joining := m.joining ++ [id] }

def promote (m : ShardMap) (id : ShardId) : Except ClusterError ShardMap :=
  if m.isJoining id then .ok { m with joining := m.joining.filter (· != id), version := m.version + 1 }
  else .error (.unknownShard id)

def markLeaving (m : ShardMap) (id : ShardId) : Except ClusterError ShardMap :=
  if !m.shards.any (·.id == id) then .error (.unknownShard id)
  else if m.isLeaving id || m.isJoining id then .error (.notDrainable id)
  else if (m.shards.filter fun s => s.id != id && !m.isLeaving s.id && !m.isJoining s.id).length = 0 then
    .error .noShards
  else .ok { m with leaving := m.leaving ++ [id], version := m.version + 1 }

def cancelLeave (m : ShardMap) (id : ShardId) : Except ClusterError ShardMap :=
  if m.isLeaving id then .ok { m with leaving := m.leaving.filter (· != id), version := m.version + 1 }
  else .error (.unknownShard id)

def removeShard (m : ShardMap) (id : ShardId) : Except ClusterError ShardMap :=
  if !m.shards.any (·.id == id) then .error (.unknownShard id)
  else if m.shards.length = 1 then .error .noShards
  else .ok {
    version := m.version + 1
    shards := m.shards.filter (·.id != id)
    joining := m.joining.filter (· != id)
    leaving := m.leaving.filter (· != id) }

/-- No migration in flight, and distinct ids, of which there is one. -/
structure Steady (m : ShardMap) : Prop where
  joining : m.joining = []
  leaving : m.leaving = []
  distinct : (m.shards.map Shard.id).Nodup
  nonempty : m.shards ≠ []

end ShardMap

section Rendezvous

variable {x : String} {shards : List Shard} {s b : Shard}

theorem maxByScore_append (x : String) (shards : List Shard) (s : Shard) :
    maxByScore x (shards ++ [s]) = match maxByScore x shards with
      | none => some s
      | some b => if hrwScore b.id x ≤ hrwScore s.id x then some s else some b := by
  rw [maxByScore, List.foldl_append]
  rfl

theorem maxByScore_some (x : String) (nonempty : shards ≠ []) : ∃ s, maxByScore x shards = some s := by
  obtain ⟨init, a, rfl⟩ : ∃ init a, shards = init ++ [a] := ⟨_, _, (List.dropLast_append_getLast nonempty).symm⟩
  rw [maxByScore_append]
  split
  · exact ⟨_, rfl⟩
  · split
    · exact ⟨_, rfl⟩
    · exact ⟨_, rfl⟩

/-- The winner weighs as much as all before it and more than all after it. -/
theorem maxByScore_eq_some : maxByScore x shards = some s ↔ ∃ before after, shards = before ++ s :: after ∧
    (∀ a ∈ before, hrwScore a.id x ≤ hrwScore s.id x) ∧ ∀ a ∈ after, hrwScore a.id x < hrwScore s.id x := by
  induction shards using List.reverseRecOn generalizing s with
  | nil => simp [maxByScore]
  | append_singleton shards last ih =>
    rw [maxByScore_append]
    constructor
    · intro found
      cases best : maxByScore x shards with
      | none =>
        rw [best] at found
        cases found
        have none : shards = [] := by
          by_contra nonempty
          obtain ⟨s, isBest⟩ := maxByScore_some x nonempty
          rw [best] at isBest
          cases isBest
        exact ⟨[], [], by rw [none], by simp, by simp⟩
      | some b =>
        rw [best] at found
        obtain ⟨before, after, rfl, below, above⟩ := ih.mp best
        by_cases weighs : hrwScore b.id x ≤ hrwScore last.id x
        · simp only [if_pos weighs, Option.some.injEq] at found
          subst found
          refine ⟨before ++ b :: after, [], rfl, fun a member => ?_, by simp⟩
          obtain inFront | rfl | behind : a ∈ before ∨ a = b ∨ a ∈ after := by
            simpa [or_assoc] using member
          · exact UInt64.le_trans (below a inFront) weighs
          · exact weighs
          · exact UInt64.le_trans (UInt64.le_of_lt (above a behind)) weighs
        · simp only [if_neg weighs, Option.some.injEq] at found
          subst found
          refine ⟨before, after ++ [last], by simp, below, fun a member => ?_⟩
          obtain behind | isLast := List.mem_append.mp member
          · exact above a behind
          · rw [List.mem_singleton.mp isLast]
            exact UInt64.not_le.mp weighs
    · rintro ⟨before, after, split, below, above⟩
      obtain rfl | ⟨init, a, rfl⟩ := List.eq_nil_or_concat' after
      · obtain ⟨rfl, isLast⟩ := List.append_inj' split rfl
        cases isLast
        cases best : maxByScore x shards with
        | none => rfl
        | some b =>
          obtain ⟨_, _, rfl, _, _⟩ := ih.mp best
          exact if_pos (below b (by simp))
      · rw [← List.cons_append, ← List.append_assoc] at split
        obtain ⟨rfl, isLast⟩ := List.append_inj' split rfl
        cases isLast
        have best := ih.mpr ⟨before, init, rfl, below, fun a member => above a (List.mem_append_left _ member)⟩
        rw [best]
        exact if_neg (UInt64.not_le.mpr (above _ (List.mem_append_right _ (List.mem_singleton_self _))))

theorem maxByScore_mem (found : maxByScore x shards = some s) : s ∈ shards := by
  obtain ⟨before, after, rfl, _, _⟩ := maxByScore_eq_some.mp found
  exact List.mem_append_right _ (List.mem_cons_self ..)

theorem maxByScore_filter {p : Shard → Bool} (found : maxByScore x shards = some s) (kept : p s = true) :
    maxByScore x (shards.filter p) = some s := by
  obtain ⟨before, after, rfl, below, above⟩ := maxByScore_eq_some.mp found
  refine maxByScore_eq_some.mpr ⟨before.filter p, after.filter p, ?_, fun a member => ?_, fun a member => ?_⟩
  · rw [List.filter_append, List.filter_cons_of_pos kept]
  · exact below a (List.mem_of_mem_filter member)
  · exact above a (List.mem_of_mem_filter member)

end Rendezvous

section Changes

variable {m m' : ShardMap} {id : ShardId} {url : String} {replicas : List String}

theorem addShard_eq_ok (added : m.addShard id url replicas = .ok m') :
    (∀ s ∈ m.shards, s.id ≠ id) ∧
      m' = { m with shards := m.shards ++ [⟨id, trim url, replicas⟩], version := m.version + 1 } := by
  unfold ShardMap.addShard at added
  split at added
  · contradiction
  split at added
  · contradiction
  rename_i fresh
  cases added
  exact ⟨fun s member same => fresh (List.any_eq_true.mpr ⟨s, member, by simp [same]⟩), rfl⟩

theorem addJoiningShard_eq_ok (added : m.addJoiningShard id url replicas = .ok m') :
    (∀ s ∈ m.shards, s.id ≠ id) ∧ m' = ⟨m.version + 1, m.shards ++ [⟨id, trim url, replicas⟩], m.joining ++ [id], m.leaving⟩ := by
  obtain ⟨between, added, last⟩ := Results.bind_eq_ok.mp added
  obtain ⟨fresh, rfl⟩ := addShard_eq_ok added
  cases last
  exact ⟨fresh, rfl⟩

theorem promote_eq_ok (promoted : m.promote id = .ok m') :
    m.isJoining id = true ∧ m' = { m with joining := m.joining.filter (· != id), version := m.version + 1 } := by
  unfold ShardMap.promote at promoted
  split at promoted
  · cases promoted
    exact ⟨by assumption, rfl⟩
  · contradiction

theorem markLeaving_eq_ok (marked : m.markLeaving id = .ok m') :
    (∃ s ∈ m.shards, s.id = id) ∧ (m.isLeaving id = false ∧ m.isJoining id = false) ∧
      (∃ s ∈ m.shards, s.id ≠ id ∧ m.isLeaving s.id = false ∧ m.isJoining s.id = false) ∧
      m' = { m with leaving := m.leaving ++ [id], version := m.version + 1 } := by
  unfold ShardMap.markLeaving at marked
  split at marked
  · contradiction
  split at marked
  · contradiction
  split at marked
  · contradiction
  rename_i known idle others
  cases marked
  obtain ⟨t, rest⟩ := List.exists_mem_of_length_pos (Nat.pos_of_ne_zero others)
  simp only [List.mem_filter, Bool.and_eq_true, bne_iff_ne, Bool.not_eq_true'] at rest
  obtain ⟨inside, ⟨differs, stays⟩, joined⟩ := rest
  exact ⟨by simpa using known, by simpa using idle, ⟨t, inside, differs, stays, joined⟩, rfl⟩

theorem cancelLeave_eq_ok (cancelled : m.cancelLeave id = .ok m') :
    m.isLeaving id = true ∧ m' = { m with leaving := m.leaving.filter (· != id), version := m.version + 1 } := by
  unfold ShardMap.cancelLeave at cancelled
  split at cancelled
  · cases cancelled
    exact ⟨by assumption, rfl⟩
  · contradiction

theorem removeShard_eq_ok (removed : m.removeShard id = .ok m') :
    m' = ⟨m.version + 1, m.shards.filter (·.id != id), m.joining.filter (· != id), m.leaving.filter (· != id)⟩ := by
  unfold ShardMap.removeShard at removed
  split at removed
  · contradiction
  split at removed
  · contradiction
  cases removed
  rfl

end Changes

section Owners

/-- The id of the owner; a map has a shard. -/
def owner (m : ShardMap) (x : String) : ShardId := ((m.shardFor x).map Shard.id).getD 0

def donor (m : ShardMap) (x : String) : Option ShardId := (m.donorFor x).map Shard.id

variable {m : ShardMap} {x : String}

theorem shardFor_of_not_leaving (noLeaving : m.leaving = []) (some : m.shards ≠ []) :
    m.shardFor x = maxByScore x m.shards := by
  obtain ⟨s, best⟩ := maxByScore_some x some
  have all : m.shards.filter (fun s => !m.isLeaving s.id) = m.shards := by
    simp [ShardMap.isLeaving, noLeaving]
  rw [ShardMap.shardFor, ShardMap.hrwAmong, all, best]
  rfl

theorem donor_of_no_joining (noLeaving : m.leaving = []) (noJoining : m.joining = []) : donor m x = none := by
  have none : ∀ s : Option Shard, (s.any fun s => m.isJoining s.id) = false := by
    rintro (_ | s) <;> simp [ShardMap.isJoining, noJoining]
  simp [donor, ShardMap.donorFor, noLeaving, none]

/-- A change of the membership by one shard: the maps the routers go through, what is copied from
where, and where to. -/
structure Migration where
  before : ShardMap
  during : ShardMap
  after : ShardMap
  restored : ShardMap
  sources : List ShardId
  destination : String → Option ShardId

/-- Ids whose owner changes. -/
def Migration.Moves (mig : Migration) (x : String) : Prop := owner mig.before x ≠ owner mig.after x

instance (mig : Migration) (x : String) : Decidable (mig.Moves x) := inferInstanceAs (Decidable (_ ≠ _))

/-- How routers send the writes of a migration: to the one owner before and after, to the new
owner and then to the old one in between. -/
structure Migration.Routes (mig : Migration) : Prop where
  before_donor : ∀ x, donor mig.before x = none
  during_owner : ∀ x, owner mig.during x = owner mig.after x
  during_donor : ∀ x, donor mig.during x = if mig.Moves x then some (owner mig.before x) else none
  after_donor : ∀ x, donor mig.after x = none
  restored_owner : ∀ x, owner mig.restored x = owner mig.before x
  restored_donor : ∀ x, donor mig.restored x = none
  moves_to : ∀ x, mig.Moves x → mig.destination x = some (owner mig.after x)
  stays : ∀ x, ¬ mig.Moves x → owner mig.before x ∈ mig.sources → mig.destination x = none
  source : ∀ x, mig.Moves x → owner mig.before x ∈ mig.sources
  target : ∀ x, mig.Moves x → owner mig.after x ∉ mig.sources
  distinct : mig.sources.Nodup
  during_active : ∀ x, owner mig.before x ∈ mig.during.activeShards.map Shard.id
  after_active : ∀ x, owner mig.after x ∈ mig.after.activeShards.map Shard.id
  restored_active : ∀ x, owner mig.before x ∈ mig.restored.activeShards.map Shard.id

/-- A shard that joins. -/
structure Grow (map : ShardMap) (id : ShardId) (url : String) (replicas : List String) where
  during : ShardMap
  after : ShardMap
  restored : ShardMap
  joined : map.addJoiningShard id url replicas = .ok during
  promoted : during.promote id = .ok after
  removed : during.removeShard id = .ok restored

def Grow.migration {map : ShardMap} {id : ShardId} {url : String} {replicas : List String}
    (g : Grow map id url replicas) : Migration where
  before := map
  during := g.during
  after := g.after
  restored := g.restored
  sources := g.during.activeShards.map Shard.id
  destination x := if owner g.during x = id then some id else none

/-- A shard that leaves. -/
structure Drain (map : ShardMap) (id : ShardId) where
  during : ShardMap
  after : ShardMap
  restored : ShardMap
  marked : map.markLeaving id = .ok during
  removed : during.removeShard id = .ok after
  cancelled : during.cancelLeave id = .ok restored

def Drain.migration {map : ShardMap} {id : ShardId} (d : Drain map id) : Migration where
  before := map
  during := d.during
  after := d.after
  restored := d.restored
  sources := [id]
  destination x := some (owner d.during x)

theorem contains_singleton (a b : ShardId) : [b].contains a = (a == b) := by
  rw [List.contains_cons, List.contains_nil, Bool.or_false]

theorem owner_eq (noLeaving : m.leaving = []) {s : Shard} (best : maxByScore x m.shards = some s) :
    owner m x = s.id := by
  have some : m.shards ≠ [] := List.ne_nil_of_mem (maxByScore_mem best)
  rw [owner, shardFor_of_not_leaving noLeaving some, best]
  rfl

theorem owner_mem (noLeaving : m.leaving = []) (some : m.shards ≠ []) : owner m x ∈ m.shards.map Shard.id := by
  obtain ⟨s, best⟩ := maxByScore_some x some
  rw [owner_eq noLeaving best]
  exact List.mem_map_of_mem (maxByScore_mem best)

theorem owner_congr {m' : ShardMap} (noLeaving : m.leaving = []) (noLeaving' : m'.leaving = [])
    (same : m'.shards = m.shards) (some : m.shards ≠ []) : owner m' x = owner m x := by
  rw [owner, owner, shardFor_of_not_leaving noLeaving some, shardFor_of_not_leaving noLeaving' (same ▸ some), same]

theorem owner_without {m' : ShardMap} {id : ShardId} (noLeaving : m.leaving = []) (noLeaving' : m'.leaving = [])
    (rest : m'.shards = m.shards.filter (·.id != id)) (some : m'.shards ≠ []) (x : String) :
    owner m' x ≠ id ∧ (owner m' x ≠ owner m x ↔ owner m x = id) := by
  have all : m.shards ≠ [] := fun none => some (by rw [rest, none]; rfl)
  obtain ⟨s, best⟩ := maxByScore_some x some
  obtain ⟨b, bestOfAll⟩ := maxByScore_some x all
  rw [owner_eq noLeaving bestOfAll, owner_eq noLeaving' best]
  have other : s.id ≠ id := by
    have kept := maxByScore_mem best
    rw [rest] at kept
    simpa using (List.mem_filter.mp kept).2
  refine ⟨other, fun moves => ?_, fun wins same => other (same.trans wins)⟩
  by_contra loses
  have kept := maxByScore_filter (p := fun s => s.id != id) bestOfAll (by simpa using loses)
  rw [← rest, best] at kept
  cases kept
  exact moves rfl

theorem activeShards_of_no_joining (noJoining : m.joining = []) : m.activeShards = m.shards := by
  simp [ShardMap.activeShards, ShardMap.isJoining, noJoining]

theorem owner_active (noLeaving : m.leaving = []) (noJoining : m.joining = []) (some : m.shards ≠ []) :
    owner m x ∈ m.activeShards.map Shard.id := by
  rw [activeShards_of_no_joining noJoining]
  exact owner_mem noLeaving some

variable {map : ShardMap} {id : ShardId}

theorem Grow.spec {url : String} {replicas : List String}
    (g : Grow map id url replicas) (steady : map.Steady) :
    (∀ s ∈ map.shards, s.id ≠ id) ∧
      g.during = ⟨map.version + 1, map.shards ++ [⟨id, trim url, replicas⟩], [id], []⟩ ∧
      g.after = ⟨map.version + 2, map.shards ++ [⟨id, trim url, replicas⟩], [], []⟩ ∧
      g.restored.shards = map.shards ∧ g.restored.joining = [] ∧ g.restored.leaving = [] := by
  obtain ⟨fresh, isDuring⟩ := addJoiningShard_eq_ok g.joined
  obtain ⟨_, isAfter⟩ := promote_eq_ok g.promoted
  have isRestored := removeShard_eq_ok g.removed
  rw [steady.joining, steady.leaving] at isDuring
  rw [isDuring] at isAfter isRestored
  have all : map.shards.filter (fun s => s.id != id) = map.shards :=
    List.filter_eq_self.mpr fun s member => by simpa using fresh s member
  refine ⟨fresh, isDuring, ?_, ?_⟩
  · rw [isAfter]
    simp
  · rw [isRestored]
    simp [all]

theorem Grow.routes {url : String} {replicas : List String}
    (g : Grow map id url replicas) (steady : map.Steady) : g.migration.Routes := by
  obtain ⟨fresh, isDuring, isAfter, sameShards, noJoining, noLeaving⟩ := g.spec steady
  have all : map.shards = (map.shards ++ [Shard.mk id (trim url) replicas]).filter (fun s => s.id != id) := by
    rw [List.filter_append, List.filter_eq_self.mpr fun s member => by simpa using fresh s member]
    simp
  have grown : map.shards ++ [Shard.mk id (trim url) replicas] ≠ [] := by simp
  have ⟨noLeaver, noJoiner, filled⟩ : g.after.leaving = [] ∧ g.after.joining = [] ∧ g.after.shards ≠ [] := by
    simp [isAfter]
  have noLeaver' : g.during.leaving = [] := by rw [isDuring]
  have joins : ∀ s, g.during.isJoining s = (s == id) := fun s => by
    rw [isDuring, ShardMap.isJoining, contains_singleton]
  have during : ∀ x, owner g.during x = owner g.after x := fun x =>
    owner_congr noLeaver noLeaver' (by rw [isDuring, isAfter]) filled
  have moves : ∀ x, g.migration.Moves x ↔ owner g.after x = id := fun x =>
    (owner_without noLeaver steady.leaving (by rw [isAfter]; exact all) steady.nonempty x).2
  have restored : ∀ x, owner g.restored x = owner map x := fun x =>
    owner_congr steady.leaving noLeaving sameShards steady.nonempty
  have old : ∀ {x}, owner map x ∈ map.shards.map Shard.id := owner_mem steady.leaving steady.nonempty
  have active : g.during.activeShards = map.shards := by
    rw [ShardMap.activeShards]
    simp only [joins]
    rw [isDuring]
    exact all.symm
  have sources : g.migration.sources = map.shards.map Shard.id := by
    change g.during.activeShards.map Shard.id = _
    rw [active]
  constructor
  · exact fun x => donor_of_no_joining steady.leaving steady.joining
  · exact during
  · intro x
    obtain ⟨s, best⟩ := maxByScore_some x grown
    obtain ⟨old, bestOld⟩ := maxByScore_some x steady.nonempty
    have isFor : g.during.shardFor x = some s := by
      rw [shardFor_of_not_leaving noLeaver' (by rw [isDuring]; exact grown), isDuring]
      exact best
    have isOwner : owner g.after x = s.id := owner_eq noLeaver (by rw [isAfter]; exact best)
    have stays : ∀ s, g.during.isLeaving s = false := fun s => by rw [isDuring]; rfl
    have among : (g.during.hrwAmong x fun s => !g.during.isJoining s.id && !g.during.isLeaving s.id) = some old := by
      rw [ShardMap.hrwAmong]
      simp only [joins, stays, Bool.not_false, Bool.and_true]
      rw [isDuring]
      exact (congrArg (maxByScore x) all).symm.trans bestOld
    have isDonor : donor g.during x = if owner g.after x = id then some (owner map x) else none := by
      rw [isOwner, donor, ShardMap.donorFor, noLeaver', isFor, among, Option.any_some, joins,
        owner_eq steady.leaving bestOld]
      by_cases new : s.id = id <;> simp [new]
    exact isDonor.trans (if_congr (moves x).symm rfl rfl)
  · exact fun x => donor_of_no_joining noLeaver noJoiner
  · exact restored
  · exact fun x => donor_of_no_joining noLeaving noJoining
  · intro x isMoving
    have isNew := (moves x).mp isMoving
    change (if owner g.during x = id then some id else none) = some (owner g.after x)
    rw [during, if_pos isNew, isNew]
  · intro x stays _
    change (if owner g.during x = id then some id else none) = none
    rw [during, if_neg fun new => stays ((moves x).mpr new)]
  · intro x _
    rw [sources]
    exact old
  · intro x isMoving
    rw [sources, show owner g.migration.after x = id from (moves x).mp isMoving]
    intro member
    obtain ⟨s, inside, isId⟩ := List.mem_map.mp member
    exact fresh s inside isId
  · rw [sources]
    exact steady.distinct
  · intro x
    change owner map x ∈ g.during.activeShards.map Shard.id
    rw [active]
    exact old
  · exact fun x => owner_active noLeaver noJoiner filled
  · exact fun x => restored x ▸ owner_active noLeaving noJoining (sameShards ▸ steady.nonempty)

theorem Drain.spec (d : Drain map id) (steady : map.Steady) :
    (∃ s ∈ map.shards, s.id ≠ id) ∧ d.during = ⟨map.version + 1, map.shards, [], [id]⟩ ∧
      d.after = ⟨map.version + 2, map.shards.filter (·.id != id), [], []⟩ ∧
      d.restored.shards = map.shards ∧ d.restored.joining = [] ∧ d.restored.leaving = [] := by
  obtain ⟨_, _, ⟨s, inside, differs, _⟩, isDuring⟩ := markLeaving_eq_ok d.marked
  have isAfter := removeShard_eq_ok d.removed
  obtain ⟨_, isRestored⟩ := cancelLeave_eq_ok d.cancelled
  rw [steady.joining, steady.leaving] at isDuring
  rw [isDuring] at isAfter isRestored
  refine ⟨⟨s, inside, differs⟩, isDuring, ?_, ?_⟩
  · rw [isAfter]
    simp
  · rw [isRestored]
    simp

theorem Drain.routes (d : Drain map id) (steady : map.Steady) :
    d.migration.Routes := by
  obtain ⟨⟨other, isShard, differs⟩, isDuring, isAfter, sameShards, noJoining, noLeaving⟩ := d.spec steady
  have rest : map.shards.filter (fun s => s.id != id) ≠ [] :=
    List.ne_nil_of_mem (List.mem_filter.mpr ⟨isShard, by simpa using differs⟩)
  have ⟨noLeaver, noJoiner, filled⟩ : d.after.leaving = [] ∧ d.after.joining = [] ∧ d.after.shards ≠ [] := by
    simp [isAfter, rest]
  have restored : ∀ x, owner d.restored x = owner map x := fun x =>
    owner_congr steady.leaving noLeaving sameShards steady.nonempty
  have leaves : ∀ s, d.during.isLeaving s = (s == id) := fun s => by
    rw [isDuring, ShardMap.isLeaving, contains_singleton]
  have during : ∀ x, owner d.during x = owner d.after x := by
    intro x
    obtain ⟨s, best⟩ := maxByScore_some x rest
    have among : (d.during.hrwAmong x fun s => !d.during.isLeaving s.id) = some s := by
      rw [ShardMap.hrwAmong]
      simp only [leaves]
      rw [isDuring]
      exact best
    rw [owner, ShardMap.shardFor, among, owner_eq noLeaver (by rw [isAfter]; exact best)]
    rfl
  have owners := owner_without steady.leaving noLeaver (by rw [isAfter]) filled
  have moves : ∀ x, d.migration.Moves x ↔ owner map x = id := fun x => ne_comm.trans (owners x).2
  constructor
  · exact fun x => donor_of_no_joining steady.leaving steady.joining
  · exact during
  · intro x
    obtain ⟨old, bestOld⟩ := maxByScore_some x steady.nonempty
    have isDonor : donor d.during x = if owner map x = id then some (owner map x) else none := by
      have whole : (d.during.hrwAmong x fun _ => true) = some old := by
        rw [isDuring, ShardMap.hrwAmong]
        simpa using bestOld
      have some : d.during.leaving.isEmpty = false := by rw [isDuring]; rfl
      have joined : ∀ s : Option Shard, (s.any fun s => d.during.isJoining s.id) = false := by
        rw [isDuring]
        rintro (_ | s) <;> simp [ShardMap.isJoining]
      rw [donor, ShardMap.donorFor, whole, some, joined, owner_eq steady.leaving bestOld]
      simp only [Bool.false_eq_true, if_false, leaves, beq_iff_eq]
      by_cases isLeaving : old.id = id <;> simp [isLeaving]
    exact isDonor.trans (if_congr (moves x).symm rfl rfl)
  · exact fun x => donor_of_no_joining noLeaver noJoiner
  · exact restored
  · exact fun x => donor_of_no_joining noLeaving noJoining
  · intro x _
    exact congrArg some (during x)
  · intro x stays source
    exact absurd ((moves x).mpr (List.mem_singleton.mp source)) stays
  · intro x isMoving
    exact List.mem_singleton.mpr ((moves x).mp isMoving)
  · intro x _ member
    exact (owners x).1 (List.mem_singleton.mp member)
  · simp [Drain.migration]
  · intro x
    change owner map x ∈ d.during.activeShards.map Shard.id
    rw [activeShards_of_no_joining (by rw [isDuring]), isDuring]
    exact owner_mem steady.leaving steady.nonempty
  · exact fun x => owner_active noLeaver noJoiner filled
  · exact fun x => restored x ▸ owner_active noLeaving noJoining (sameShards ▸ steady.nonempty)

end Owners

end Quiver.Cluster
