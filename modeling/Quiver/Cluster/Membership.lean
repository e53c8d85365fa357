import Mathlib.Data.List.Nodup
import Mathlib.Data.List.Pairwise
import Quiver.Cluster.Coordinator

/-!
The membership operations of a shard map, and the maps they lead to. All of them keep a map well
formed except two: `remove_shard` looks at the number of shards and not at what is left to own
and to search, and `add_replica` keeps the version.
-/

namespace Quiver.Cluster

open List (forall_mem_append forall_mem_singleton map_append mem_append mem_append_left mem_cons mem_cons_of_mem
  mem_cons_self mem_filter mem_map mem_of_mem_filter mem_singleton nodup_append)

inductive MapOp where
  | addShard (id : ShardId) (url : String) (replicas : List String)
  | addJoiningShard (id : ShardId) (url : String) (replicas : List String)
  | promote (id : ShardId)
  | markLeaving (id : ShardId)
  | cancelLeave (id : ShardId)
  | removeShard (id : ShardId)
  | addReplica (id : ShardId) (url : String)
  deriving DecidableEq, Repr

def MapOp.apply (m : ShardMap) : MapOp → Except ClusterError ShardMap
  | .addShard id url replicas => m.addShard id url replicas
  | .addJoiningShard id url replicas => m.addJoiningShard id url replicas
  | .promote id => m.promote id
  | .markLeaving id => m.markLeaving id
  | .cancelLeave id => m.cancelLeave id
  | .removeShard id => m.removeShard id
  | .addReplica id url => m.addReplica id url

/-- The maps a sequence of operations goes through, if all of them succeed. -/
def mapsThrough (m : ShardMap) : List MapOp → Except ClusterError (List ShardMap)
  | [] => .ok [m]
  | op :: ops => do
    let next ← op.apply m
    let rest ← mapsThrough next ops
    return m :: rest

namespace ShardMap

/-- A shard that neither joins nor leaves. -/
def Stays (m : ShardMap) (s : Shard) : Prop := s.id ∉ m.joining ∧ s.id ∉ m.leaving

instance (m : ShardMap) (s : Shard) : Decidable (m.Stays s) := inferInstanceAs (Decidable (_ ∧ _))

/-- The flags of a map are those of its shards, and some shard has none. -/
structure Flagged (m : ShardMap) : Prop where
  distinct : (m.shards.map Shard.id).Nodup
  joiningShards : ∀ id ∈ m.joining, id ∈ m.shards.map Shard.id
  leavingShards : ∀ id ∈ m.leaving, id ∈ m.shards.map Shard.id
  joiningOnce : m.joining.Nodup
  leavingOnce : m.leaving.Nodup
  disjoint : ∀ id ∈ m.joining, id ∉ m.leaving
  stays : ∃ s ∈ m.shards, m.Stays s

/-- What the routing code relies on as well: an owner is not leaving, something can be searched, and
an id that a joining shard owns has a donor. -/
structure WellFormed (m : ShardMap) : Prop extends m.Flagged where
  owner : ∀ x, ∃ s ∈ m.shards, m.shardFor x = some s ∧ s.id ∉ m.leaving
  active : m.activeShards ≠ []
  donor : ∀ x s, m.shardFor x = some s → s.id ∈ m.joining → ∃ d, m.donorFor x = some d

/-- What an operation has to leave. -/
def Keeps (m : ShardMap) : MapOp → Prop
  | .removeShard id => ∃ s ∈ m.shards, s.id ≠ id ∧ m.Stays s
  | .addReplica _ _ => False
  | _ => True

end ShardMap

/-- Operations each of which leaves what it has to. -/
def AllKeep (m : ShardMap) : List MapOp → Prop
  | [] => True
  | op :: ops => m.Keeps op ∧ ∀ next, op.apply m = .ok next → AllKeep next ops

variable {m m' start : ShardMap} {op : MapOp} {ops : List MapOp} {maps : List ShardMap}

/-! ## What the routing code relies on -/

namespace ShardMap

theorem hrwAmong_some (x : String) (eligible : Shard → Bool) {s : Shard} (member : s ∈ m.shards)
    (fits : eligible s = true) : ∃ w ∈ m.shards, m.hrwAmong x eligible = some w ∧ eligible w = true := by
  obtain ⟨w, best⟩ := maxByScore_some x (List.ne_nil_of_mem (mem_filter.mpr ⟨member, fits⟩))
  obtain ⟨inside, isEligible⟩ := mem_filter.mp (maxByScore_mem best)
  exact ⟨w, inside, best, isEligible⟩

theorem Flagged.wellFormed (flagged : m.Flagged) : m.WellFormed := by
  obtain ⟨s, member, notJoining, notLeaving⟩ := flagged.stays
  refine ⟨flagged, fun x => ?_, ?_, fun x w isOwner joins => ?_⟩
  · obtain ⟨w, inside, best, isEligible⟩ :=
      hrwAmong_some x (fun s => !m.isLeaving s.id) member (by simpa [isLeaving] using notLeaving)
    refine ⟨w, inside, ?_, by simpa [isLeaving] using isEligible⟩
    rw [shardFor, best]
    rfl
  · refine List.ne_nil_of_mem (a := s) (mem_filter.mpr ⟨member, ?_⟩)
    simpa [isJoining] using notJoining
  · obtain ⟨d, _, isDonor, _⟩ :=
      hrwAmong_some x (fun s => !m.isJoining s.id && !m.isLeaving s.id) member
        (by simp [isJoining, isLeaving, notJoining, notLeaving])
    obtain ⟨old, _, isOld, _⟩ := hrwAmong_some x (fun _ => true) member rfl
    have joined : ((m.shardFor x).any fun s => m.isJoining s.id) = true := by
      simpa [isOwner, isJoining] using joins
    simp only [donorFor, joined, if_true, isDonor, isOld]
    split
    · exact ⟨d, rfl⟩
    · split
      · exact ⟨old, rfl⟩
      · exact ⟨d, rfl⟩

end ShardMap

/-! ## Operations -/

theorem duplicateId_eq_none {seen : List ShardId} {shards : List Shard}
    (none : ShardMap.duplicateId seen shards = none) :
    (shards.map Shard.id).Nodup ∧ ∀ s ∈ shards, s.id ∉ seen := by
  induction shards generalizing seen with
  | nil => simp
  | cons s shards ih =>
    rw [ShardMap.duplicateId] at none
    split at none
    · contradiction
    rename_i fresh
    obtain ⟨distinct, unseen⟩ := ih none
    have notBehind : s.id ∉ shards.map Shard.id := by
      intro behind
      obtain ⟨t, member, same⟩ := mem_map.mp behind
      exact unseen t member (same ▸ mem_cons_self ..)
    refine ⟨List.nodup_cons.mpr ⟨notBehind, distinct⟩, fun t member => ?_⟩
    obtain rfl | behind := mem_cons.mp member
    · exact fresh
    · exact fun inSeen => unseen t behind (mem_cons_of_mem _ inSeen)

theorem flagged_fromShards {shards : List Shard} (built : ShardMap.fromShards shards = .ok m) : m.Flagged := by
  unfold ShardMap.fromShards at built
  split at built
  · contradiction
  rename_i nonempty
  split at built
  · contradiction
  split at built
  · contradiction
  rename_i noDuplicate
  cases built
  obtain ⟨s, member⟩ : ∃ s, s ∈ shards := List.exists_mem_of_ne_nil _ (by simpa using nonempty)
  exact ⟨(duplicateId_eq_none noDuplicate).1, by simp, by simp, by simp, by simp, by simp, s, member, by simp, by simp⟩

theorem markLeaving_stays {id : ShardId} (marked : m.markLeaving id = .ok m') :
    id ∈ m.shards.map Shard.id ∧ id ∉ m.joining ∧ id ∉ m.leaving ∧ ∃ s ∈ m.shards, s.id ≠ id ∧ m.Stays s := by
  obtain ⟨known, idle, ⟨s, inside, differs, stays⟩, _⟩ := markLeaving_eq_ok marked
  simp only [ShardMap.isLeaving, ShardMap.isJoining, List.contains_eq_mem, decide_eq_false_iff_not] at idle stays
  exact ⟨mem_map.mpr known, idle.2, idle.1, s, inside, differs, stays.2, stays.1⟩

namespace ShardMap

variable {id : ShardId}

section

variable (flagged : m.Flagged)
include flagged

theorem Flagged.addShard {url : String} {replicas : List String}
    (added : m.addShard id url replicas = .ok m') : m'.Flagged := by
  obtain ⟨fresh, rfl⟩ := addShard_eq_ok added
  obtain ⟨s, member, stays⟩ := flagged.stays
  refine ⟨?_, fun j joins => ?_, fun l leaves => ?_, flagged.joiningOnce, flagged.leavingOnce, flagged.disjoint, s,
    mem_append_left _ member, stays⟩
  · rw [map_append, nodup_append]
    refine ⟨flagged.distinct, by simp, fun a old b new same => ?_⟩
    obtain ⟨s, member, rfl⟩ := mem_map.mp old
    rw [List.map_singleton, mem_singleton] at new
    exact fresh s member (same.trans new)
  · rw [map_append]
    exact mem_append_left _ (flagged.joiningShards j joins)
  · rw [map_append]
    exact mem_append_left _ (flagged.leavingShards l leaves)

theorem Flagged.joining (known : id ∈ m.shards.map Shard.id)
    (notJoining : id ∉ m.joining) (notLeaving : id ∉ m.leaving) (stays : ∃ s ∈ m.shards, s.id ≠ id ∧ m.Stays s) :
    { m with joining := m.joining ++ [id] }.Flagged := by
  obtain ⟨s, member, differs, old, notLeft⟩ := stays
  refine ⟨flagged.distinct, forall_mem_append.mpr ⟨flagged.joiningShards, forall_mem_singleton.mpr known⟩,
    flagged.leavingShards, ?_, flagged.leavingOnce,
    forall_mem_append.mpr ⟨flagged.disjoint, forall_mem_singleton.mpr notLeaving⟩, s, member, ?_, notLeft⟩
  · exact List.concat_eq_append ▸ List.Nodup.concat notJoining flagged.joiningOnce
  · simp [old, differs]

theorem Flagged.leaving (known : id ∈ m.shards.map Shard.id)
    (notJoining : id ∉ m.joining) (notLeaving : id ∉ m.leaving) (stays : ∃ s ∈ m.shards, s.id ≠ id ∧ m.Stays s) :
    { m with leaving := m.leaving ++ [id] }.Flagged := by
  obtain ⟨s, member, differs, notJoined, old⟩ := stays
  refine ⟨flagged.distinct, flagged.joiningShards,
    forall_mem_append.mpr ⟨flagged.leavingShards, forall_mem_singleton.mpr known⟩, flagged.joiningOnce, ?_,
    fun j joins => ?_, s, member, notJoined, ?_⟩
  · exact List.concat_eq_append ▸ List.Nodup.concat notLeaving flagged.leavingOnce
  · intro leaves
    obtain before | new := mem_append.mp leaves
    · exact flagged.disjoint j joins before
    · exact notJoining (mem_singleton.mp new ▸ joins)
  · simp [old, differs]

theorem Flagged.version (version : Nat) : { m with version := version }.Flagged :=
  ⟨flagged.distinct, flagged.joiningShards, flagged.leavingShards, flagged.joiningOnce, flagged.leavingOnce,
    flagged.disjoint, flagged.stays⟩

theorem Flagged.unflagged (id : ShardId) :
    { m with joining := m.joining.filter (· != id) }.Flagged ∧
      { m with leaving := m.leaving.filter (· != id) }.Flagged := by
  obtain ⟨s, member, notJoining, notLeaving⟩ := flagged.stays
  constructor
  · exact ⟨flagged.distinct, fun j joins => flagged.joiningShards j (mem_of_mem_filter joins),
      flagged.leavingShards, flagged.joiningOnce.filter _, flagged.leavingOnce,
      fun j joins => flagged.disjoint j (mem_of_mem_filter joins), s, member,
      fun joins => notJoining (mem_of_mem_filter joins), notLeaving⟩
  · exact ⟨flagged.distinct, flagged.joiningShards,
      fun l leaves => flagged.leavingShards l (mem_of_mem_filter leaves), flagged.joiningOnce,
      flagged.leavingOnce.filter _, fun j joins leaves => flagged.disjoint j joins (mem_of_mem_filter leaves), s,
      member, notJoining, fun leaves => notLeaving (mem_of_mem_filter leaves)⟩

theorem Flagged.removeShard (removed : m.removeShard id = .ok m')
    (stays : ∃ s ∈ m.shards, s.id ≠ id ∧ m.Stays s) : m'.Flagged := by
  cases removeShard_eq_ok removed
  obtain ⟨s, member, differs, notJoining, notLeaving⟩ := stays
  have known : ∀ {j}, j ∈ m.shards.map Shard.id → j ≠ id → j ∈ (m.shards.filter (·.id != id)).map Shard.id := by
    intro j old differs
    obtain ⟨s, member, rfl⟩ := mem_map.mp old
    exact List.mem_map_of_mem (mem_filter.mpr ⟨member, by simpa using differs⟩)
  refine ⟨flagged.distinct.sublist (List.filter_sublist.map _), fun j joins => ?_, fun l leaves => ?_,
    flagged.joiningOnce.filter _, flagged.leavingOnce.filter _, fun j joins leaves => ?_, s,
    mem_filter.mpr ⟨member, by simpa using differs⟩, fun joins => notJoining (mem_of_mem_filter joins),
    fun leaves => notLeaving (mem_of_mem_filter leaves)⟩
  · obtain ⟨before, differs⟩ := mem_filter.mp joins
    exact known (flagged.joiningShards j before) (by simpa using differs)
  · obtain ⟨before, differs⟩ := mem_filter.mp leaves
    exact known (flagged.leavingShards l before) (by simpa using differs)
  · exact flagged.disjoint j (mem_of_mem_filter joins) (mem_of_mem_filter leaves)

theorem Flagged.apply (applied : op.apply m = .ok m')
    (kept : ∀ id, op = .removeShard id → ∃ s ∈ m.shards, s.id ≠ id ∧ m.Stays s) : m'.Flagged := by
  cases op with
  | addShard id url replicas => exact flagged.addShard applied
  | addJoiningShard id url replicas =>
    obtain ⟨between, added, last⟩ := Results.bind_eq_ok.mp applied
    cases last
    have after := flagged.addShard added
    obtain ⟨fresh, rfl⟩ := addShard_eq_ok added
    obtain ⟨s, member, stays⟩ := flagged.stays
    have unknown : id ∉ m.shards.map Shard.id := by
      intro known
      obtain ⟨t, isShard, same⟩ := mem_map.mp known
      exact fresh t isShard same
    exact after.joining (by simp) (fun joins => unknown (flagged.joiningShards id joins))
      (fun leaves => unknown (flagged.leavingShards id leaves))
      ⟨s, mem_append_left _ member, fresh s member, stays⟩
  | promote id =>
    obtain ⟨_, rfl⟩ := promote_eq_ok applied
    exact (flagged.unflagged id).1.version _
  | markLeaving id =>
    obtain ⟨known, notJoining, notLeaving, stays⟩ := markLeaving_stays applied
    obtain ⟨_, _, _, rfl⟩ := markLeaving_eq_ok applied
    exact (flagged.leaving known notJoining notLeaving stays).version _
  | cancelLeave id =>
    obtain ⟨_, rfl⟩ := cancelLeave_eq_ok applied
    exact (flagged.unflagged id).2.version _
  | removeShard id => exact flagged.removeShard applied (kept id rfl)
  | addReplica id url =>
    obtain ⟨_, _, rfl⟩ := addReplica_eq_ok applied
    have sameIds := addReplica_ids m id (trim url)
    obtain ⟨s, member, stays⟩ := flagged.stays
    refine ⟨sameIds ▸ flagged.distinct, sameIds ▸ flagged.joiningShards, sameIds ▸ flagged.leavingShards,
      flagged.joiningOnce, flagged.leavingOnce, flagged.disjoint, _, List.mem_map_of_mem member, ?_⟩
    unfold Stays
    split <;> exact stays

end

end ShardMap

/-- An operation gives the next version, or adds a replica and keeps it. -/
theorem MapOp.apply_version (applied : op.apply m = .ok m') :
    m'.version = m.version + 1 ∨ ∃ id url, op = .addReplica id url ∧ m'.version = m.version ∧ m ≠ m' := by
  cases op with
  | addShard id url replicas =>
    obtain ⟨_, rfl⟩ := addShard_eq_ok applied
    exact .inl rfl
  | addJoiningShard id url replicas =>
    obtain ⟨_, rfl⟩ := addJoiningShard_eq_ok applied
    exact .inl rfl
  | promote id =>
    obtain ⟨_, rfl⟩ := promote_eq_ok applied
    exact .inl rfl
  | markLeaving id =>
    obtain ⟨_, _, _, rfl⟩ := markLeaving_eq_ok applied
    exact .inl rfl
  | cancelLeave id =>
    obtain ⟨_, rfl⟩ := cancelLeave_eq_ok applied
    exact .inl rfl
  | removeShard id =>
    cases removeShard_eq_ok applied
    exact .inl rfl
  | addReplica id url =>
    obtain ⟨_, ⟨s, member, isId⟩, rfl⟩ := addReplica_eq_ok applied
    refine .inr ⟨id, url, rfl, rfl, fun same => ?_⟩
    -- The shard that got the replica is another one.
    have sameShards := congrArg ShardMap.shards same
    obtain ⟨i, inside, rfl⟩ := List.mem_iff_getElem.mp member
    have replaced := congrArg (fun shards => shards[i]?.map fun s => s.replicaUrls.length) sameShards
    simp [inside, isId] at replaced

theorem ShardMap.Keeps.of_after (applied : op.apply m = .ok m') (after : m'.WellFormed)
    (versions : m ≠ m' → m.version ≠ m'.version) : m.Keeps op := by
  cases op with
  | removeShard id =>
    cases removeShard_eq_ok applied
    obtain ⟨s, member, notJoining, notLeaving⟩ := after.stays
    obtain ⟨inside, differs⟩ := mem_filter.mp member
    have other : s.id ≠ id := by simpa using differs
    exact ⟨s, inside, other, fun joins => notJoining (mem_filter.mpr ⟨joins, differs⟩),
      fun leaves => notLeaving (mem_filter.mpr ⟨leaves, differs⟩)⟩
  | addReplica id url =>
    obtain next | ⟨_, _, _, same, differs⟩ := MapOp.apply_version applied
    · obtain ⟨_, _, rfl⟩ := addReplica_eq_ok applied
      exact absurd next (Nat.succ_ne_self _).symm
    · exact versions differs same.symm
  | _ => trivial

theorem ShardMap.Keeps.apply (keeps : m.Keeps op) (flagged : m.Flagged) (applied : op.apply m = .ok m') :
    m'.Flagged ∧ m'.version = m.version + 1 := by
  refine ⟨flagged.apply applied fun id isRemove => ?_, ?_⟩
  · subst isRemove
    exact keeps
  · obtain next | ⟨_, _, rfl, _⟩ := MapOp.apply_version applied
    · exact next
    · exact keeps.elim

/-! ## Sequences of operations -/

theorem mapsThrough_cons (ran : mapsThrough m (op :: ops) = .ok maps) :
    ∃ next rest, op.apply m = .ok next ∧ mapsThrough next ops = .ok rest ∧ maps = m :: rest := by
  obtain ⟨next, applied, ranRest⟩ := Results.bind_eq_ok.mp ran
  obtain ⟨rest, through, isMaps⟩ := Results.bind_eq_ok.mp ranRest
  cases isMaps
  exact ⟨next, rest, applied, through, rfl⟩

theorem mapsThrough_head (ran : mapsThrough m ops = .ok maps) : m ∈ maps := by
  cases ops with
  | nil =>
    cases ran
    exact List.mem_singleton_self _
  | cons op ops =>
    obtain ⟨_, _, _, _, rfl⟩ := mapsThrough_cons ran
    exact mem_cons_self ..

theorem AllKeep.through (keep : AllKeep m ops) (flagged : m.Flagged) (ran : mapsThrough m ops = .ok maps) :
    (∀ n ∈ maps, n.Flagged ∧ m.version ≤ n.version) ∧ maps.Pairwise fun n n' => n.version < n'.version := by
  induction ops generalizing m maps with
  | nil =>
    cases ran
    simpa using flagged
  | cons op ops ih =>
    obtain ⟨next, rest, applied, through, rfl⟩ := mapsThrough_cons ran
    obtain ⟨now, later⟩ := keep
    obtain ⟨flaggedNext, isNext⟩ := now.apply flagged applied
    obtain ⟨all, rising⟩ := ih (later next applied) flaggedNext through
    refine ⟨fun n member => ?_, List.pairwise_cons.mpr ⟨fun n member => ?_, rising⟩⟩
    · obtain rfl | behind := mem_cons.mp member
      · exact ⟨flagged, Nat.le_refl _⟩
      · exact ⟨(all n behind).1, Nat.le_trans (isNext ▸ Nat.le_succ _) (all n behind).2⟩
    · exact Nat.lt_of_lt_of_le (isNext ▸ Nat.lt_succ_self _) (all n member).2

theorem allKeep_of_maps (ran : mapsThrough m ops = .ok maps) (all : ∀ n ∈ maps, n.WellFormed)
    (versions : ∀ n ∈ maps, ∀ n' ∈ maps, n ≠ n' → n.version ≠ n'.version) : AllKeep m ops := by
  induction ops generalizing m maps with
  | nil => trivial
  | cons op ops ih =>
    obtain ⟨next, rest, applied, through, rfl⟩ := mapsThrough_cons ran
    have inRest := mem_cons_of_mem m (mapsThrough_head through)
    refine ⟨.of_after applied (all next inRest) (versions m (mem_cons_self ..) next inRest), ?_⟩
    intro next' applied'
    rw [applied] at applied'
    cases applied'
    exact ih through (fun n member => all n (mem_cons_of_mem _ member)) fun n member n' member' =>
      versions n (mem_cons_of_mem _ member) n' (mem_cons_of_mem _ member')

/-- The maps of a sequence of successful operations are well formed, and those that differ have
different versions, exactly if each removal leaves a shard that neither joins nor leaves and no
replica is added. -/
theorem maps_wellFormed_iff {shards : List Shard} (built : ShardMap.fromShards shards = .ok start)
    (ran : mapsThrough start ops = .ok maps) :
    ((∀ m ∈ maps, m.WellFormed) ∧ ∀ m ∈ maps, ∀ m' ∈ maps, m ≠ m' → m.version ≠ m'.version) ↔
      AllKeep start ops := by
  constructor
  · rintro ⟨all, versions⟩
    exact allKeep_of_maps ran all versions
  · intro keep
    obtain ⟨all, rising⟩ := keep.through (flagged_fromShards built) ran
    refine ⟨fun m member => (all m member).1.wellFormed, ?_⟩
    have symmetric : Std.Symm fun m m' : ShardMap => m.version ≠ m'.version := ⟨fun _ _ differ => differ.symm⟩
    have differ : maps.Pairwise fun m m' => m.version ≠ m'.version := rising.imp Nat.ne_of_lt
    exact fun m member m' member' => differ.forall member member'

def firstShard : ShardMap := { shards := [⟨0, "http://s0", []⟩] }

/-- A shard joins, is promoted, and the first one is drained and removed. -/
def replaceFirst : List MapOp :=
  [.addJoiningShard 1 "http://s1" [], .promote 1, .markLeaving 0, .removeShard 0]

theorem maps_wellFormed_iff_replaced : ∃ maps, mapsThrough firstShard replaceFirst = .ok maps ∧ maps.length = 5 ∧
    (∀ m ∈ maps, m.WellFormed) ∧ ∀ m ∈ maps, ∀ m' ∈ maps, m ≠ m' → m.version ≠ m'.version := by
  have built : ShardMap.fromShards [⟨0, "http://s0", []⟩] = .ok firstShard := rfl
  obtain ⟨maps, ran, long⟩ : ∃ maps, mapsThrough firstShard replaceFirst = .ok maps ∧ maps.length = 5 :=
    ⟨_, rfl, rfl⟩
  refine ⟨maps, ran, long, (maps_wellFormed_iff built ran).mpr ?_⟩
  refine ⟨trivial, fun _ joined => ⟨trivial, fun _ promoted => ⟨trivial, fun _ marked => ⟨?_, fun _ _ => trivial⟩⟩⟩⟩
  cases joined
  cases promoted
  cases marked
  exact ⟨⟨1, "http://s1", []⟩, by decide, by decide, by decide, by decide⟩

/-- The only shard that owns anything is removed while another one joins: nothing can be searched and no
id has a donor. Adding a replica gives another map of the same version. -/
theorem remove_leaves_only_joining :
    (mapsThrough firstShard [.addJoiningShard 1 "http://s1" [], .removeShard 0]).toOption.map (fun maps =>
        maps.map fun m => (m.activeShards.length, (m.donorFor "a").isSome, (m.shardFor "a").map Shard.id)) =
      some [(1, false, some 0), (1, true, some 1), (0, false, some 1)] ∧
    (mapsThrough firstShard [.addReplica 0 "http://r0"]).toOption.map (fun maps =>
      (maps.map ShardMap.version, decide maps.Nodup)) = some ([0, 0], true) := by
  constructor <;> decide +kernel

end Quiver.Cluster
