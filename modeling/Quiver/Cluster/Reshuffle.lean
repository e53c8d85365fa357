import Mathlib.Algebra.Group.Nat.Defs
import Mathlib.Data.List.Nodup
import Quiver.Base.Mixing
import Quiver.Cluster.ShardMap

/-!
The weights of the shards for one point id are all different, so the owner is the one of the
greatest weight. A change of the shards moves the ids that the added shard wins or the removed one
owned, and no others.
-/

namespace Quiver.Cluster

open Mixing
open List (any_eq_true mem_filter mem_singleton ne_nil_of_mem)

theorem hrwScore_injective (x : String) {a b : ShardId} (inA : a < 2 ^ 64) (inB : b < 2 ^ 64)
    (same : hrwScore a x = hrwScore b x) : a = b := by
  have third := uint64_xorShift_injective (k := 31) (by decide) same
  have second := uint64_mul_injective (c := 0x94d049bb133111eb) (d := 0x319642b2d24d8ec3) (by decide) third
  have second := uint64_xorShift_injective (k := 27) (by decide) second
  have first := uint64_mul_injective (c := 0xbf58476d1ce4e5b9) (d := 0x96de1b173f119089) (by decide) second
  have first := uint64_xorShift_injective (k := 30) (by decide) first
  have seeds := (UInt64.add_right_inj _).mp first
  have seeds := uint64_mul_injective (c := 0x9e3779b97f4a7c15) (d := 0xf1de83e19937733d) (by decide) seeds
  have words := congrArg UInt64.toNat seeds
  rwa [UInt64.toNat_ofNat_of_lt' inA, UInt64.toNat_ofNat_of_lt' inB] at words

/-- The ids are words, and no two shards have the same. -/
structure Distinct (shards : List Shard) : Prop where
  words : ∀ s ∈ shards, s.id < 2 ^ 64
  ids : (shards.map Shard.id).Nodup

variable {x : String} {shards shards' : List Shard} {s t : Shard} {m m' m'' : ShardMap} {id : ShardId}

namespace Distinct

theorem filter (distinct : Distinct shards) (p : Shard → Bool) : Distinct (shards.filter p) where
  words s member := distinct.words s (List.mem_of_mem_filter member)
  ids := distinct.ids.sublist (List.filter_sublist.map _)

theorem eq_of_id (distinct : Distinct shards) (here : s ∈ shards) (there : t ∈ shards) (same : s.id = t.id) : s = t :=
  List.inj_on_of_nodup_map distinct.ids here there same

theorem maxByScore_iff (distinct : Distinct shards) :
    maxByScore x shards = some s ↔ s ∈ shards ∧ ∀ a ∈ shards, hrwScore a.id x ≤ hrwScore s.id x := by
  have best : ∀ {b}, maxByScore x shards = some b → b ∈ shards ∧ ∀ a ∈ shards, hrwScore a.id x ≤ hrwScore b.id x := by
    intro b found
    obtain ⟨before, after, split, below, above⟩ := maxByScore_eq_some.mp found
    refine ⟨maxByScore_mem found, fun a member => ?_⟩
    rw [split, List.mem_append, List.mem_cons] at member
    obtain inBefore | rfl | inAfter := member
    · exact below a inBefore
    · exact UInt64.le_refl _
    · exact UInt64.le_of_lt (above a inAfter)
  refine ⟨best, fun ⟨member, top⟩ => ?_⟩
  obtain ⟨b, found⟩ := maxByScore_some x (ne_nil_of_mem member)
  obtain ⟨inside, most⟩ := best found
  have same : b.id = s.id := hrwScore_injective x (distinct.words b inside) (distinct.words s member)
    (UInt64.le_antisymm (top b inside) (most s member))
  rw [found, distinct.eq_of_id inside member same]

theorem maxByScore_congr (distinct : Distinct shards) (distinct' : Distinct shards')
    (same : ∀ s, s ∈ shards ↔ s ∈ shards') : maxByScore x shards = maxByScore x shards' := by
  refine Option.ext fun s => ?_
  rw [distinct.maxByScore_iff, distinct'.maxByScore_iff]
  simp only [same]

end Distinct

namespace ShardMap

/-- The shards that may own: those that are not leaving, or all if there are no others. -/
def owners (m : ShardMap) : List Shard :=
  if m.shards.any (fun s => !m.isLeaving s.id) then m.shards.filter fun s => !m.isLeaving s.id else m.shards

theorem shardFor_eq (m : ShardMap) (x : String) : m.shardFor x = maxByScore x m.owners := by
  unfold shardFor owners hrwAmong
  split
  · rename_i someStays
    obtain ⟨s, member, stays⟩ := any_eq_true.mp someStays
    have eligible : s ∈ m.shards.filter fun s => !m.isLeaving s.id := mem_filter.mpr ⟨member, stays⟩
    obtain ⟨b, found⟩ := maxByScore_some x (ne_nil_of_mem eligible)
    rw [found]
    rfl
  · rename_i allLeave
    have none : m.shards.filter (fun s => !m.isLeaving s.id) = [] := by
      refine List.filter_eq_nil_iff.mpr fun s member stays => allLeave ?_
      exact any_eq_true.mpr ⟨s, member, stays⟩
    have all : m.shards.filter (fun _ => true) = m.shards := List.filter_eq_self.mpr fun _ _ => rfl
    rw [none, all]
    cases shards : m.shards with
    | nil => rfl
    | cons s rest =>
      obtain ⟨b, found⟩ := maxByScore_some x (List.cons_ne_nil s rest)
      rw [found]
      rfl

theorem mem_owners : s ∈ m.owners ↔ s ∈ m.shards ∧ (m.isLeaving s.id = true → ∀ t ∈ m.shards, m.isLeaving t.id = true) := by
  unfold owners
  split
  · rename_i someStays
    obtain ⟨t, member, stays⟩ := any_eq_true.mp someStays
    rw [mem_filter]
    refine and_congr_right fun _ => ⟨fun stays' leaves => ?_, fun allLeave => ?_⟩
    · rw [leaves] at stays'
      contradiction
    · by_contra leaves
      have leaves : m.isLeaving s.id = true := by simpa using leaves
      rw [allLeave leaves t member] at stays
      contradiction
  · rename_i allLeave
    refine (and_iff_left fun _ t member => ?_).symm
    by_contra stays
    exact allLeave (any_eq_true.mpr ⟨t, member, by simpa using stays⟩)

theorem shardFor_some (nonempty : m.shards ≠ []) (x : String) : ∃ s, m.shardFor x = some s := by
  rw [shardFor_eq]
  refine maxByScore_some x ?_
  unfold owners
  split
  · rename_i someStays
    obtain ⟨s, member, stays⟩ := any_eq_true.mp someStays
    exact ne_nil_of_mem (mem_filter.mpr ⟨member, stays⟩ : s ∈ m.shards.filter fun s => !m.isLeaving s.id)
  · exact nonempty

end ShardMap

theorem Distinct.owners (distinct : Distinct m.shards) : Distinct m.owners := by
  unfold ShardMap.owners
  split
  · exact distinct.filter _
  · exact distinct

theorem shardFor_iff (distinct : Distinct m.shards) :
    m.shardFor x = some s ↔ s ∈ m.owners ∧ ∀ a ∈ m.owners, hrwScore a.id x ≤ hrwScore s.id x := by
  rw [ShardMap.shardFor_eq, distinct.owners.maxByScore_iff]

theorem shardFor_congr (distinct : Distinct m.shards) (distinct' : Distinct m'.shards)
    (same : ∀ s, s ∈ m.owners ↔ s ∈ m'.owners) : m.shardFor x = m'.shardFor x := by
  rw [ShardMap.shardFor_eq, ShardMap.shardFor_eq]
  exact distinct.owners.maxByScore_congr distinct'.owners same

theorem isLeaving_congr (same : ∀ k, k ∈ m.leaving ↔ k ∈ m'.leaving) (k : ShardId) : m.isLeaving k = m'.isLeaving k := by
  rw [Bool.eq_iff_iff]
  simp only [ShardMap.isLeaving, List.contains_iff_mem, same]

theorem shardFor_added (distinct : Distinct m.shards) (distinct' : Distinct m'.shards) {new : Shard}
    (shards : m'.shards = m.shards ++ [new]) (leaving : m'.leaving = m.leaving) :
    m'.shardFor x = m.shardFor x ∨ m'.shardFor x = some new := by
  have mem_shards : ∀ s, s ∈ m'.shards ↔ s ∈ m.shards ∨ s = new := fun s => by simp [shards]
  have sameLeaving : ∀ k, m'.isLeaving k = m.isLeaving k := isLeaving_congr fun k => by rw [leaving]
  obtain ⟨w, won⟩ := ShardMap.shardFor_some (ne_nil_of_mem ((mem_shards new).mpr (.inr rfl))) x
  obtain ⟨isOwner, top⟩ := (shardFor_iff distinct').mp won
  obtain ⟨member, sole⟩ := ShardMap.mem_owners.mp isOwner
  rw [won]
  obtain old | rfl := (mem_shards w).mp member
  swap
  · exact .inr rfl
  left
  refine Eq.symm ((shardFor_iff distinct).mpr ⟨ShardMap.mem_owners.mpr ⟨old, fun leaves t inside => ?_⟩, fun a isOwner' => ?_⟩)
  · rw [← sameLeaving] at leaves ⊢
    exact sole leaves t ((mem_shards t).mpr (.inl inside))
  -- If the others are all leaving, so is the winner, and then the new shard as well.
  · obtain ⟨inside, sole'⟩ := ShardMap.mem_owners.mp isOwner'
    refine top a (ShardMap.mem_owners.mpr ⟨(mem_shards a).mpr (.inl inside), fun leaves => sole ?_⟩)
    rw [sameLeaving] at leaves ⊢
    exact sole' leaves w old

/-- A map without one of its shards. -/
structure Without (m : ShardMap) (id : ShardId) (m' : ShardMap) : Prop where
  shards : ∀ s, s ∈ m'.shards ↔ s ∈ m.shards ∧ s.id ≠ id
  leaving : ∀ s ∈ m'.shards, m'.isLeaving s.id = m.isLeaving s.id
  distinct : Distinct m'.shards

theorem removeShard_without (distinct : Distinct m.shards) (removed : m.removeShard id = .ok m') : Without m id m' := by
  cases removeShard_eq_ok removed
  have mem_shards : ∀ s, s ∈ m.shards.filter (·.id != id) ↔ s ∈ m.shards ∧ s.id ≠ id := fun s => by
    simp only [mem_filter, bne_iff_ne]
  refine ⟨mem_shards, fun s member => ?_, distinct.filter _⟩
  have differ := ((mem_shards s).mp member).2
  rw [Bool.eq_iff_iff]
  simp [ShardMap.isLeaving, differ]

theorem Without.shardFor (without : Without m id m') (distinct : Distinct m.shards) (nonempty : m.shards ≠ [])
    (other : (m.shardFor x).map Shard.id ≠ some id) : m'.shardFor x = m.shardFor x := by
  obtain ⟨w, won⟩ := ShardMap.shardFor_some nonempty x
  obtain ⟨isOwner, top⟩ := (shardFor_iff distinct).mp won
  obtain ⟨member, sole⟩ := ShardMap.mem_owners.mp isOwner
  rw [won] at other ⊢
  have stays : w ∈ m'.shards := (without.shards w).mpr ⟨member, fun same => other (congrArg some same)⟩
  refine (shardFor_iff without.distinct).mpr ⟨ShardMap.mem_owners.mpr ⟨stays, fun leaves t inside => ?_⟩, fun a isOwner' => ?_⟩
  · rw [without.leaving w stays] at leaves
    rw [without.leaving t inside]
    exact sole leaves t ((without.shards t).mp inside).1
  · obtain ⟨inside, sole'⟩ := ShardMap.mem_owners.mp isOwner'
    refine top a (ShardMap.mem_owners.mpr ⟨((without.shards a).mp inside).1, fun leaves => sole ?_⟩)
    rw [← without.leaving a inside] at leaves
    rw [← without.leaving w stays]
    exact sole' leaves w stays

/-- A shard that is leaving owns as little as one that is gone. -/
theorem markLeaving_without (distinct : Distinct m.shards) (marked : m.markLeaving id = .ok m') (without : Without m id m'') :
    m'.shardFor x = m''.shardFor x := by
  obtain ⟨_, _, ⟨heir, inside, differ, stays, _⟩, rfl⟩ := markLeaving_eq_ok marked
  have leaves : ∀ k, ShardMap.isLeaving { m with leaving := m.leaving ++ [id], version := m.version + 1 } k = true ↔
      m.isLeaving k = true ∨ k = id := fun k => by simp [ShardMap.isLeaving]
  refine shardFor_congr distinct without.distinct fun s => ?_
  rw [ShardMap.mem_owners, ShardMap.mem_owners]
  have heirStays : ¬ (m.isLeaving heir.id = true ∨ heir.id = id) := by
    rintro (leaving | same)
    · rw [stays] at leaving
      contradiction
    · exact differ same
  have inside'' : heir ∈ m''.shards := (without.shards heir).mpr ⟨inside, differ⟩
  constructor
  · rintro ⟨member, sole⟩
    have keeps : ¬ (m.isLeaving s.id = true ∨ s.id = id) := fun gone =>
      heirStays ((leaves heir.id).mp (sole ((leaves s.id).mpr gone) heir inside))
    have member'' : s ∈ m''.shards := (without.shards s).mpr ⟨member, fun same => keeps (.inr same)⟩
    refine ⟨member'', fun gone => absurd ?_ keeps⟩
    rw [without.leaving s member''] at gone
    exact .inl gone
  · rintro ⟨member, sole⟩
    obtain ⟨member', differ'⟩ := (without.shards s).mp member
    refine ⟨member', fun gone => absurd ?_ heirStays⟩
    have gone'' : m''.isLeaving s.id = true := by
      rw [without.leaving s member]
      exact ((leaves s.id).mp gone).resolve_right differ'
    rw [← without.leaving heir inside'']
    exact .inl (sole gone'' heir inside'')

theorem removeShard_of_marked (marked : m.markLeaving id = .ok m') :
    ∃ m'', m.removeShard id = .ok m'' := by
  obtain ⟨⟨s, member, isId⟩, _, ⟨heir, inside, differ, _⟩, _⟩ := markLeaving_eq_ok marked
  have known : m.shards.any (·.id == id) = true := any_eq_true.mpr ⟨s, member, beq_iff_eq.mpr isId⟩
  have several : m.shards.length ≠ 1 := by
    intro single
    obtain ⟨only, isOnly⟩ := List.length_eq_one_iff.mp single
    rw [isOnly, mem_singleton] at inside member
    exact differ (by rw [inside, ← member, isId])
  unfold ShardMap.removeShard
  rw [known, if_neg several]
  exact ⟨_, rfl⟩

theorem addShard_spec {url : String} {replicas : List String} (distinct : Distinct m.shards) (word : id < 2 ^ 64)
    (added : m.addShard id url replicas = .ok m') :
    m'.shards = m.shards ++ [⟨id, trim url, replicas⟩] ∧ m'.leaving = m.leaving ∧ Distinct m'.shards := by
  obtain ⟨unused, rfl⟩ := addShard_eq_ok added
  refine ⟨rfl, rfl, List.forall_mem_append.mpr ⟨distinct.words, List.forall_mem_singleton.mpr word⟩, ?_⟩
  · rw [List.map_append, List.nodup_append]
    refine ⟨distinct.ids, List.nodup_singleton _, ?_⟩
    rintro k old k' new rfl
    obtain ⟨s, member, isId⟩ := List.mem_map.mp old
    exact unused s member (isId.trans (mem_singleton.mp new))

/-- For one point id: the shards weigh differently, their order does not count, an added shard takes
ids and moves no others, one removed or marked leaving loses its ids to those that own them without
it, and without a migration there is no donor. -/
theorem minimal_reshuffle (x : String) (m : ShardMap) (distinct : Distinct m.shards) :
    (∀ a b : ShardId, a < 2 ^ 64 → b < 2 ^ 64 → a ≠ b → hrwScore a x ≠ hrwScore b x) ∧
    (∀ m' : ShardMap, Distinct m'.shards → (∀ s, s ∈ m'.shards ↔ s ∈ m.shards) →
      (∀ k, k ∈ m'.joining ↔ k ∈ m.joining) → (∀ k, k ∈ m'.leaving ↔ k ∈ m.leaving) → m'.shardFor x = m.shardFor x) ∧
    (∀ id url replicas m', id < 2 ^ 64 →
      m.addShard id url replicas = .ok m' ∨ m.addJoiningShard id url replicas = .ok m' →
      m'.shardFor x = m.shardFor x ∨ m'.shardFor x = some ⟨id, trim url, replicas⟩) ∧
    (∀ id m', m.removeShard id = .ok m' → (m.shardFor x).map Shard.id ≠ some id → m'.shardFor x = m.shardFor x) ∧
    (∀ id m', m.markLeaving id = .ok m' →
      ((m.shardFor x).map Shard.id ≠ some id → m'.shardFor x = m.shardFor x) ∧
      ∃ m'', m.removeShard id = .ok m'' ∧ m'.shardFor x = m''.shardFor x) ∧
    (m.joining = [] → m.leaving = [] → m.donorFor x = none) := by
  have removed : ∀ {id m'}, m.removeShard id = .ok m' → (m.shardFor x).map Shard.id ≠ some id →
      m'.shardFor x = m.shardFor x := by
    intro id m' removed other
    refine (removeShard_without distinct removed).shardFor distinct (fun none => ?_) other
    simp [ShardMap.removeShard, none] at removed
  refine ⟨fun a b inA inB differ same => differ (hrwScore_injective x inA inB same), ?_, ?_, fun id m' => removed, ?_, ?_⟩
  · intro m' distinct' sameShards _ sameLeaving
    refine shardFor_congr distinct' distinct fun s => ?_
    simp only [ShardMap.mem_owners, sameShards, isLeaving_congr sameLeaving]
  · rintro id url replicas m' word (added | joined)
    · obtain ⟨shards, leaving, distinct'⟩ := addShard_spec distinct word added
      exact shardFor_added distinct distinct' shards leaving
    · obtain ⟨added, isAdded, isJoined⟩ := Results.bind_eq_ok.mp joined
      cases isJoined
      obtain ⟨shards, leaving, distinct'⟩ := addShard_spec distinct word isAdded
      exact shardFor_added distinct distinct' shards leaving
  · intro id m' marked
    obtain ⟨m'', isRemoved⟩ := removeShard_of_marked marked
    have same := markLeaving_without (x := x) distinct marked (removeShard_without distinct isRemoved)
    exact ⟨fun other => same.trans (removed isRemoved other), m'', isRemoved, same⟩
  · intro noJoining noLeaving
    exact Option.map_eq_none_iff.mp (donor_of_no_joining noLeaving noJoining)

def drainable : ShardMap := { shards := [⟨0, "http://s0", []⟩, ⟨7, "http://s7", []⟩] }

theorem minimal_reshuffle_drained : Distinct drainable.shards ∧
    ∃ m' m'', drainable.markLeaving 7 = .ok m' ∧ drainable.removeShard 7 = .ok m'' ∧
      m'.shardFor "p" = m''.shardFor "p" := by
  have distinct : Distinct drainable.shards := ⟨by decide, by decide⟩
  have marked : drainable.markLeaving 7 = .ok { drainable with leaving := [7], version := 1 } := by decide
  obtain ⟨_, m'', removed, same⟩ := (minimal_reshuffle "p" drainable distinct).2.2.2.2.1 7 _ marked
  exact ⟨distinct, _, m'', marked, removed, same⟩

end Quiver.Cluster
